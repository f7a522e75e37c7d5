import Mathlib.Data.Set.Finite.List
import Mathlib.Logic.Relation
import Mathlib.Order.WellFounded
import Specimen.Proofs.Entries
import Specimen.Reference.Removal

/-!
# What stays when nodes are taken away

`Removal.Sound` is what holds at every step: the count at a node is the number of pointers from
nodes that are left (`pending`), the ready nodes are the ones left without a pointer, and the nodes
that are gone went one after another, each after all nodes that point at it (`Peeled`). In
particular a node that loses a pointer had one to lose.

Nodes that are gone are on no cycle and have nothing behind them that is left. Nodes that stay all
have a pointer from a node that stays, so that going back from them leads around a cycle. Main
statement: `Graph.caught?_spec`.
-/

namespace Specimen

namespace Graph

variable {graph : Graph}

/-- There is a pointer from a node to another. -/
def Points (graph : Graph) (name target : String) : Prop :=
  ∃ targets, (name, targets) ∈ graph ∧ target ∈ targets

/-- A node lies on a cycle, or a cycle leads to it. -/
def IsCaught (graph : Graph) (name : String) : Prop :=
  ∃ start, Relation.TransGen graph.Points start start
    ∧ Relation.ReflTransGen graph.Points start name

/-- Every node occurs once and points at nodes only, at each of them once. -/
structure IsSimple (graph : Graph) : Prop where
  nodup : (Entries.names graph).Nodup
  nodup_targets : ∀ node ∈ graph, node.2.Nodup
  closed : ∀ node ∈ graph, ∀ target ∈ node.2, target ∈ Entries.names graph

/-- How many nodes that are not taken away point at a node. -/
def pending (graph : Graph) (removed : List String) (name : String) : Nat :=
  graph.countP fun node => node.2.contains name && !removed.contains node.1

/-- The names can be taken away from the last one to the first: all nodes that point at a node go
before it. -/
inductive Peeled (graph : Graph) : List String → Prop
  | nil : Peeled graph []
  | cons {name : String} {removed : List String} (hname : name ∈ Entries.names graph)
      (hnew : name ∉ removed) (hfree : ∀ other, graph.Points other name → other ∈ removed)
      (hremoved : Peeled graph removed) : Peeled graph (name :: removed)

theorem IsSimple.mem_names_of_points {a b : String} (h : graph.IsSimple)
    (hpoints : graph.Points a b) : b ∈ Entries.names graph := by
  obtain ⟨targets, hnode, htarget⟩ := hpoints
  exact h.closed _ hnode _ htarget

/-! ## Pointers that are left -/

theorem pending_eq_zero_iff {removed : List String} {name : String} :
    graph.pending removed name = 0 ↔ ∀ other, graph.Points other name → other ∈ removed := by
  simp only [pending, List.countP_eq_zero, Bool.and_eq_true, List.contains_iff_mem,
    Bool.not_eq_true', not_and, Points, Prod.forall, Bool.not_eq_false]
  constructor
  · rintro h other ⟨targets, hnode, htarget⟩
    exact h other targets hnode htarget
  · intro h other targets hnode htarget
    exact h other ⟨targets, hnode, htarget⟩

/-- At first all pointers are left. -/
theorem pending_nil (h : ∀ node ∈ graph, node.2.Nodup) (name : String) :
    graph.pending [] name = (graph.flatMap Prod.snd).count name := by
  induction graph with
  | nil => rfl
  | cons node rest ih =>
      have hcount : node.2.count name = if name ∈ node.2 then 1 else 0 :=
        (h node List.mem_cons_self).count
      have hrest := ih fun other hother => h other (List.mem_cons_of_mem _ hother)
      simp only [pending, List.contains_nil, Bool.not_false, Bool.and_true] at hrest
      simp only [pending, List.contains_nil, Bool.not_false, Bool.and_true, List.countP_cons,
        List.flatMap_cons, List.count_append, List.contains_iff_mem, hcount, hrest]
      exact Nat.add_comm _ _

/-- A node that goes takes its pointers along. -/
theorem pending_eq_add {removed : List String} {node : String} {targets : List String}
    (hnodup : (Entries.names graph).Nodup) (hnode : (node, targets) ∈ graph)
    (hnew : node ∉ removed) (name : String) :
    graph.pending removed name
      = graph.pending (node :: removed) name + if name ∈ targets then 1 else 0 := by
  induction graph with
  | nil => cases hnode
  | cons first rest ih =>
      obtain ⟨hfirst, hrest⟩ := List.nodup_cons.mp hnodup
      simp only [pending, List.countP_cons]
      rcases List.mem_cons.mp hnode with heq | hmem
      · -- the other nodes have other names
        have hothers : ∀ other ∈ rest,
            ((other.2.contains name && !removed.contains other.1) = true
              ↔ (other.2.contains name && !(node :: removed).contains other.1) = true) := by
          intro other hother
          have hne : other.1 ≠ node := by
            rintro hsame
            apply hfirst
            rw [← heq, ← hsame]
            exact List.mem_map.mpr ⟨other, hother, rfl⟩
          simp [hne]
        rw [List.countP_congr hothers, ← heq]
        simp [hnew]
      · have hne : first.1 ≠ node := by
          rintro rfl
          exact hfirst (List.mem_map.mpr ⟨_, hmem, rfl⟩)
        have := ih hrest hmem
        simp only [pending] at this
        rw [this]
        simp only [List.contains_cons, beq_eq_false_iff_ne.mpr hne, Bool.false_or]
        omega

/-! ## Nodes that are gone -/

namespace Peeled

variable {removed : List String}

theorem subset (h : graph.Peeled removed) : removed ⊆ Entries.names graph := by
  induction h with
  | nil => exact List.nil_subset _
  | cons hname _ _ _ ih => exact List.cons_subset.mpr ⟨hname, ih⟩

theorem nodup (h : graph.Peeled removed) : removed.Nodup := by
  induction h with
  | nil => exact List.nodup_nil
  | cons _ hnew _ _ ih => exact List.nodup_cons.mpr ⟨hnew, ih⟩

/-- What points at a node that is gone is gone. -/
theorem mem_of_points (h : graph.Peeled removed) {a b : String} (hpoints : graph.Points a b)
    (hb : b ∈ removed) : a ∈ removed := by
  induction h with
  | nil => cases hb
  | cons _ _ hfree _ ih =>
      rcases List.mem_cons.mp hb with rfl | hb
      · exact List.mem_cons_of_mem _ (hfree a hpoints)
      · exact List.mem_cons_of_mem _ (ih hb)

theorem mem_of_reaches (h : graph.Peeled removed) {a b : String}
    (hreach : Relation.ReflTransGen graph.Points a b) (hb : b ∈ removed) : a ∈ removed := by
  induction hreach using Relation.ReflTransGen.head_induction_on with
  | refl => exact hb
  | head hpoints _ ih => exact h.mem_of_points hpoints ih

/-- No cycle goes through a node that is gone: the node before it went earlier. -/
theorem not_transGen_self (h : graph.Peeled removed) {name : String} (hname : name ∈ removed) :
    ¬ Relation.TransGen graph.Points name name := by
  induction h generalizing name with
  | nil => cases hname
  | cons _ _ hfree _ ih =>
      rcases List.mem_cons.mp hname with rfl | hname
      · intro hwalk
        obtain ⟨before, hreach, hlast⟩ := Relation.TransGen.tail'_iff.mp hwalk
        exact ih (hfree before hlast) (.head' hlast hreach)
      · exact ih hname

/-- With a node that nothing points at go the last pointers at some of its targets: these nodes and
the ones that were without a pointer before are the next that can go. -/
theorem unpointed_cons_iff (h : graph.Peeled removed) (hsimple : graph.IsSimple) {node : String}
    {targets : List String} (hnode : (node, targets) ∈ graph) (hnew : node ∉ removed)
    (hfree : graph.pending removed node = 0) (name : String) :
    name ∈ Entries.names graph ∧ name ∉ node :: removed ∧ graph.pending (node :: removed) name = 0
      ↔ (name ≠ node
          ∧ name ∈ Entries.names graph ∧ name ∉ removed ∧ graph.pending removed name = 0)
        ∨ name ∈ targets ∧ graph.pending removed name = 1 := by
  have hpending := pending_eq_add hsimple.nodup hnode hnew name
  rw [List.mem_cons, not_or]
  constructor
  · rintro ⟨hname, ⟨hne, hstays⟩, hzero⟩
    by_cases htarget : name ∈ targets
    · exact .inr ⟨htarget, by rw [hpending, hzero, if_pos htarget]⟩
    · exact .inl ⟨hne, hname, hstays, by rw [hpending, hzero, if_neg htarget]⟩
  · rintro (⟨hne, hname, hstays, hzero⟩ | ⟨htarget, hone⟩)
    · exact ⟨hname, ⟨hne, hstays⟩, Nat.eq_zero_of_add_eq_zero_right (hpending.symm.trans hzero)⟩
    · have hpoints : graph.Points node name := ⟨targets, hnode, htarget⟩
      have hne : name ≠ node := by
        rintro rfl
        exact hnew (pending_eq_zero_iff.mp hfree name hpoints)
      have hstays : name ∉ removed := fun hgone => hnew (h.mem_of_points hpoints hgone)
      rw [if_pos htarget, hone] at hpending
      exact ⟨hsimple.closed _ hnode name htarget, ⟨hne, hstays⟩, (Nat.succ.inj hpending).symm⟩

end Peeled

/-! ## Nodes that stay -/

/-- Going back from node to node without an end leads around a cycle. -/
theorem exists_cycle_of_pointed (stays : List String)
    (h : ∀ name ∈ stays, ∃ before ∈ stays, graph.Points before name) {name : String}
    (hname : name ∈ stays) : graph.IsCaught name := by
  by_contra hfree
  -- the nodes that stay and lead to `name`: without a cycle one of them would be the first
  let Above := { above // above ∈ stays ∧ Relation.ReflTransGen graph.Points above name }
  let Leads (a b : Above) : Prop := Relation.TransGen graph.Points a.1 b.1
  have : Finite Above := (List.finite_toSet stays).subset fun _ hmem => hmem.1
  have : IsTrans Above Leads := ⟨fun _ _ _ => Relation.TransGen.trans⟩
  have : Std.Irrefl Leads := ⟨fun a hcycle => hfree ⟨a.1, hcycle, a.2.2⟩⟩
  have hwf : WellFounded Leads := Finite.wellFounded_of_trans_of_irrefl Leads
  obtain ⟨first, -, hfirst⟩ := hwf.has_min Set.univ ⟨⟨name, hname, .refl⟩, trivial⟩
  obtain ⟨before, hbefore, hpoints⟩ := h first.1 first.2.1
  exact hfirst ⟨before, hbefore, first.2.2.head hpoints⟩ trivial (.single hpoints)

/-- When no more node can be taken away, those are left that are caught. -/
theorem Peeled.not_mem_iff (hsimple : graph.IsSimple) {removed : List String}
    (h : graph.Peeled removed)
    (hend : ∀ name ∈ Entries.names graph, name ∉ removed → graph.pending removed name ≠ 0)
    (name : String) :
    name ∈ Entries.names graph ∧ name ∉ removed ↔ graph.IsCaught name := by
  constructor
  · rintro ⟨hname, hleft⟩
    refine exists_cycle_of_pointed ((Entries.names graph).filter (!removed.contains ·)) ?_
      (by simp [hname, hleft])
    intro other hother
    obtain ⟨hother, hstays⟩ := List.mem_filter.mp hother
    simp only [Bool.not_eq_true', List.contains_eq_mem, decide_eq_false_iff_not] at hstays
    have hpending := hend other hother hstays
    rw [ne_eq, pending_eq_zero_iff] at hpending
    push Not at hpending
    obtain ⟨before, hpoints, hbefore⟩ := hpending
    have hnode : before ∈ Entries.names graph := by
      obtain ⟨targets, hmem, -⟩ := hpoints
      exact List.mem_map.mpr ⟨_, hmem, rfl⟩
    exact ⟨before, by simp [hnode, hbefore], hpoints⟩
  · rintro ⟨start, hcycle, hreach⟩
    obtain ⟨before, -, hlast⟩ := Relation.TransGen.tail'_iff.mp hcycle
    constructor
    · rcases Relation.ReflTransGen.cases_tail hreach with heq | ⟨above, -, hpoints⟩
      · exact heq ▸ hsimple.mem_names_of_points hlast
      · exact hsimple.mem_names_of_points hpoints
    · intro hgone
      exact h.not_transGen_self (h.mem_of_reaches hreach hgone) hcycle

end Graph

namespace Removal

open Entries (find?)

/-! ## Letting pointers go -/

theorem mem_insertName {name other : String} {sorted : List String} :
    other ∈ insertName name sorted ↔ other = name ∨ other ∈ sorted := by
  induction sorted with
  | nil => simp [insertName]
  | cons first rest ih =>
      simp only [insertName]
      split
      · rename_i hfirst
        simp [hfirst]
      · split
        · simp
        · simp only [List.mem_cons, ih]
          exact or_left_comm

theorem nodup_insertName {name : String} {sorted : List String} (hnew : name ∉ sorted)
    (h : sorted.Nodup) : (insertName name sorted).Nodup := by
  induction sorted with
  | nil => exact List.nodup_singleton name
  | cons first rest ih =>
      obtain ⟨hfirst, hrest⟩ := List.nodup_cons.mp h
      obtain ⟨hne, hnew'⟩ := not_or.mp (mt List.mem_cons.mpr hnew)
      simp only [insertName, if_neg (Ne.symm hne)]
      split
      · exact List.nodup_cons.mpr ⟨hnew, h⟩
      · refine List.nodup_cons.mpr ⟨?_, ih hnew' hrest⟩
        rw [mem_insertName, not_or]
        exact ⟨Ne.symm hne, hfirst⟩

/-- Ready nodes are listed once, and no pointer at them is left. -/
structure Spent (state : Removal) : Prop where
  nodup : state.ready.Nodup
  zero : ∀ name ∈ state.ready, find? name state.counts = some 0

/-- What a node loses when a pointer at it goes. -/
theorem release_spec {state : Removal} {target : String} {count : Nat} (hspent : state.Spent)
    (htarget : find? target state.counts = some (count + 1)) :
    (state.release target).Spent
      ∧ (∀ name, find? name (state.release target).counts
          = if target = name then some count else find? name state.counts)
      ∧ (∀ name, name ∈ (state.release target).ready
          ↔ name ∈ state.ready ∨ name = target ∧ count = 0) := by
  have hnew : target ∉ state.ready := by
    intro hready
    rw [hspent.zero target hready] at htarget
    cases htarget
  have hcounts : ∀ name, find? name (state.release target).counts
      = if target = name then some count else find? name state.counts := by
    intro name
    simp only [release, htarget, Entries.find?_set]
  have hready : (state.release target).ready
      = if count = 0 then insertName target state.ready else state.ready := by
    simp only [release, htarget]
  have hmem : ∀ name, name ∈ (state.release target).ready
      ↔ name ∈ state.ready ∨ name = target ∧ count = 0 := by
    intro name
    rw [hready]
    split
    · rename_i hzero
      rw [mem_insertName, or_comm]
      simp [hzero]
    · rename_i hzero
      simp [hzero]
  refine ⟨⟨?_, ?_⟩, hcounts, hmem⟩
  · rw [hready]
    split
    · exact nodup_insertName hnew hspent.nodup
    · exact hspent.nodup
  · intro name hname
    rw [hcounts]
    rcases (hmem name).mp hname with hname | ⟨rfl, rfl⟩
    · rw [if_neg, hspent.zero name hname]
      rintro rfl
      exact hnew hname
    · rw [if_pos rfl]

/-- What is left after all pointers of a node have gone. -/
theorem foldl_release_spec {targets : List String} {state : Removal} (hnodup : targets.Nodup)
    (hspent : state.Spent)
    (hleft : ∀ target ∈ targets, ∃ count, find? target state.counts = some (count + 1)) :
    (targets.foldl release state).Spent
      ∧ (∀ name, find? name (targets.foldl release state).counts
          = (find? name state.counts).map fun count =>
              count - if name ∈ targets then 1 else 0)
      ∧ (∀ name, name ∈ (targets.foldl release state).ready
          ↔ name ∈ state.ready ∨ name ∈ targets ∧ find? name state.counts = some 1) := by
  induction targets generalizing state with
  | nil => simp [hspent]
  | cons target rest ih =>
      obtain ⟨htarget, hrest⟩ := List.nodup_cons.mp hnodup
      obtain ⟨count, hcount⟩ := hleft target List.mem_cons_self
      obtain ⟨hspent', hcounts, hready⟩ := release_spec hspent hcount
      have hleft' : ∀ other ∈ rest, ∃ count,
          find? other (state.release target).counts = some (count + 1) := by
        intro other hother
        rw [hcounts, if_neg]
        · exact hleft other (List.mem_cons_of_mem _ hother)
        · rintro rfl
          exact htarget hother
      obtain ⟨hspent'', hcounts', hready'⟩ := ih hrest hspent' hleft'
      rw [List.foldl_cons]
      refine ⟨hspent'', ?_, ?_⟩
      · intro name
        rw [hcounts', hcounts]
        by_cases hname : target = name
        · subst hname
          simp [htarget, hcount]
        · simp [hname, Ne.symm hname]
      · intro name
        rw [hready', hready, hcounts]
        by_cases hname : target = name
        · subst hname
          simp [htarget, hcount]
        · simp [hname, Ne.symm hname]

theorem removed_foldl_release (targets : List String) (state : Removal) :
    (targets.foldl release state).removed = state.removed := by
  induction targets generalizing state with
  | nil => rfl
  | cons target rest ih =>
      rw [List.foldl_cons, ih]
      unfold release
      split <;> rfl

theorem names_foldl_release (targets : List String) (state : Removal) :
    Entries.names (targets.foldl release state).counts = Entries.names state.counts := by
  induction targets generalizing state with
  | nil => rfl
  | cons target rest ih =>
      rw [List.foldl_cons, ih]
      unfold release
      split
      · rename_i count hcount
        rw [Entries.names_set, if_pos]
        exact Entries.isSome_find?_iff.mp (Option.isSome_of_eq_some hcount)
      · rfl

/-! ## Steps -/

variable {graph : Graph}

/-- What holds before and after every step. -/
structure Sound (graph : Graph) (state : Removal) : Prop where
  names : Entries.names state.counts = Entries.names graph
  counted : ∀ name ∈ Entries.names graph,
    find? name state.counts = some (graph.pending state.removed name)
  nodup : state.ready.Nodup
  ready : ∀ name, name ∈ state.ready
    ↔ name ∈ Entries.names graph ∧ name ∉ state.removed ∧ graph.pending state.removed name = 0
  peeled : graph.Peeled state.removed

theorem sound_start (h : graph.IsSimple) : (start graph).Sound graph := by
  have hnames : Entries.names (start graph).counts = Entries.names graph := by
    simp [start, Entries.names]
  have hcounts : ∀ name count, find? name (start graph).counts = some count
      ↔ name ∈ Entries.names graph ∧ count = graph.pending [] name := by
    intro name count
    rw [Entries.find?_eq_some_iff_mem (hnames ▸ h.nodup), Graph.pending_nil h.nodup_targets]
    simp only [start, Entries.names, List.mem_map, Prod.mk.injEq]
    constructor
    · rintro ⟨node, hnode, rfl, rfl⟩
      exact ⟨⟨node, hnode, rfl⟩, rfl⟩
    · rintro ⟨⟨node, hnode, rfl⟩, rfl⟩
      exact ⟨node, hnode, rfl, rfl⟩
  refine ⟨hnames, ?_, ?_, ?_, .nil⟩
  · intro name hname
    exact (hcounts name _).mpr ⟨hname, rfl⟩
  · exact (hnames ▸ h.nodup).sublist (List.filter_sublist.map _)
  · intro name
    have hmem : name ∈ (start graph).ready ↔ (name, 0) ∈ (start graph).counts := by
      simp [start]
    rw [hmem, ← Entries.find?_eq_some_iff_mem (hnames ▸ h.nodup), hcounts]
    simp [start, eq_comm]

/-- All pointers of a node that is ready are counted, so no count has to go below zero. -/
theorem Sound.exists_count {state : Removal} {node : String} {targets : List String}
    (hsimple : graph.IsSimple) (h : state.Sound graph) (hready : node ∈ state.ready)
    (htargets : (node, targets) ∈ graph) :
    ∀ target ∈ targets, ∃ count, find? target state.counts = some (count + 1) := by
  intro target htarget
  obtain ⟨-, hnew, -⟩ := (h.ready node).mp hready
  refine ⟨graph.pending (node :: state.removed) target, ?_⟩
  rw [h.counted target (hsimple.closed _ htargets target htarget),
    Graph.pending_eq_add hsimple.nodup htargets hnew, if_pos htarget]

/-- A node is taken away, with all its pointers. -/
theorem Sound.remove {state : Removal} {node : String} {rest : List String}
    (hsimple : graph.IsSimple) (h : state.Sound graph) (hready : state.ready = node :: rest) :
    (state.remove graph node rest).Sound graph := by
  obtain ⟨hnode, hnew, hfree⟩ := (h.ready node).mp (hready ▸ List.mem_cons_self)
  obtain ⟨hnotrest, hnodup⟩ := List.nodup_cons.mp (hready ▸ h.nodup)
  obtain ⟨targets, hfind⟩ := Option.isSome_iff_exists.mp (Entries.isSome_find?_iff.mpr hnode)
  have htargets : (node, targets) ∈ graph := Entries.mem_of_find? hfind
  have hspent :
      ({ state with ready := rest, removed := node :: state.removed } : Removal).Spent := by
    refine ⟨hnodup, ?_⟩
    intro name hname
    obtain ⟨hmem, -, hzero⟩ := (h.ready name).mp (hready ▸ List.mem_cons_of_mem _ hname)
    rw [h.counted name hmem, hzero]
  have hleft := h.exists_count hsimple (hready ▸ List.mem_cons_self) htargets
  obtain ⟨hspent', hcounts', hready'⟩ :=
    foldl_release_spec (hsimple.nodup_targets _ htargets) hspent hleft
  have hremove : state.remove graph node rest
      = targets.foldl release { state with ready := rest, removed := node :: state.removed } := by
    rw [Removal.remove, hfind]
    rfl
  rw [hremove]
  refine ⟨?_, ?_, hspent'.nodup, ?_, ?_⟩
  · rw [names_foldl_release]
    exact h.names
  · intro name hname
    rw [hcounts', removed_foldl_release, h.counted name hname,
      Graph.pending_eq_add hsimple.nodup htargets hnew name]
    simp
  · intro name
    have hrest : name ∈ rest ↔ name ≠ node ∧ name ∈ state.ready := by
      rw [hready, List.mem_cons]
      constructor
      · intro hname
        exact ⟨fun heq => hnotrest (heq ▸ hname), .inr hname⟩
      · rintro ⟨hne, hname⟩
        exact hname.resolve_left hne
    have hlast : name ∈ targets ∧ find? name state.counts = some 1
        ↔ name ∈ targets ∧ graph.pending state.removed name = 1 := by
      refine and_congr_right fun htarget => ?_
      rw [h.counted name (hsimple.closed _ htargets name htarget), Option.some.injEq]
    rw [hready', removed_foldl_release, hrest, hlast, h.ready name]
    exact (h.peeled.unpointed_cons_iff hsimple htargets hnew hfree name).symm
  · rw [removed_foldl_release]
    exact .cons hnode hnew (Graph.pending_eq_zero_iff.mp hfree) h.peeled

/-- The run ends in a sound state in which nothing is ready. -/
theorem sound_run {state : Removal} (hsimple : graph.IsSimple) (h : state.Sound graph) :
    (run graph state).Sound graph ∧ (run graph state).ready = [] := by
  fun_induction run graph state with
  | case1 state hready => exact ⟨h, hready⟩
  | case2 state node rest hready _ ih => exact ih (h.remove hsimple hready)

end Removal

/-! ## The answer -/

namespace Graph

variable {graph : Graph}

/-- Where the run ends, the nodes that stay are those that are caught. -/
theorem isCaught_iff {last : Removal} (hsimple : graph.IsSimple) (h : last.Sound graph)
    (hready : last.ready = []) (name : String) :
    graph.IsCaught name ↔ name ∈ Entries.names graph ∧ name ∉ last.removed := by
  refine (h.peeled.not_mem_iff hsimple ?_ name).symm
  intro other hother hstays hzero
  have := (h.ready other).mpr ⟨hother, hstays, hzero⟩
  rw [hready] at this
  cases this

/-- The nodes that stay are those with pointers left. -/
theorem mem_left_iff {last : Removal} (hsimple : graph.IsSimple) (h : last.Sound graph)
    (hready : last.ready = []) (name : String) :
    name ∈ (last.counts.filter fun entry => 0 < entry.2).map Prod.fst ↔ graph.IsCaught name := by
  rw [isCaught_iff hsimple h hready]
  have hcounts : ∀ count, (name, count) ∈ last.counts
      ↔ name ∈ Entries.names graph ∧ count = graph.pending last.removed name := by
    intro count
    rw [← Entries.find?_eq_some_iff_mem (h.names ▸ hsimple.nodup)]
    constructor
    · intro hfind
      have hname : name ∈ Entries.names graph :=
        h.names ▸ Entries.isSome_find?_iff.mp (Option.isSome_of_eq_some hfind)
      rw [h.counted name hname] at hfind
      cases hfind
      exact ⟨hname, rfl⟩
    · rintro ⟨hname, rfl⟩
      exact h.counted name hname
  simp only [List.mem_map, List.mem_filter, decide_eq_true_eq, Prod.exists, exists_and_right,
    exists_eq_right, hcounts]
  constructor
  · rintro ⟨_, ⟨hname, rfl⟩, hpos⟩
    refine ⟨hname, fun hgone => ?_⟩
    have hzero : graph.pending last.removed name = 0 :=
      pending_eq_zero_iff.mpr fun other hpoints => h.peeled.mem_of_points hpoints hgone
    omega
  · rintro ⟨hname, hstays⟩
    refine ⟨_, ⟨hname, rfl⟩, Nat.pos_of_ne_zero fun hzero => ?_⟩
    have := (h.ready name).mpr ⟨hname, hstays, hzero⟩
    rw [hready] at this
    cases this

/-- As many names as nodes have been taken away exactly if none stays. -/
theorem Peeled.length_eq_iff {removed : List String} (h : graph.Peeled removed)
    (hnodup : (Entries.names graph).Nodup) :
    removed.length = graph.length ↔ ∀ name ∈ Entries.names graph, name ∈ removed := by
  have hlength : graph.length = (Entries.names graph).length := by simp [Entries.names]
  rw [hlength]
  constructor
  · intro heq
    have hsub := List.subperm_of_subset h.nodup h.subset
    have hperm := hsub.perm_of_length_le (Nat.le_of_eq heq.symm)
    exact fun name hname => hperm.mem_iff.mpr hname
  · intro hall
    exact Nat.le_antisymm (List.subperm_of_subset h.nodup h.subset).length_le
      (List.subperm_of_subset hnodup hall).length_le

/-- The answer lists the nodes that are caught, in the order of the graph, unless there are none. -/
theorem caught?_spec (hsimple : graph.IsSimple) :
    (graph.caught? = none ↔ ∀ name, ¬ graph.IsCaught name)
      ∧ ∀ names, graph.caught? = some names →
          names.Sublist (Entries.names graph) ∧ ∀ name, name ∈ names ↔ graph.IsCaught name := by
  obtain ⟨hsound, hready⟩ := Removal.sound_run hsimple (Removal.sound_start hsimple)
  simp only [caught?]
  generalize Removal.run graph (Removal.start graph) = last at hsound hready
  have hlength : last.counts.length = graph.length := by
    have := congrArg List.length hsound.names
    simpa only [Entries.names, List.length_map] using this
  have hnone : last.removed.length = last.counts.length ↔ ∀ name, ¬ graph.IsCaught name := by
    rw [hlength, hsound.peeled.length_eq_iff hsimple.nodup]
    simp only [isCaught_iff hsimple hsound hready, not_and, not_not]
  constructor
  · rw [← hnone]
    split
    · rename_i hall
      simp [hall]
    · rename_i hleft
      exact ⟨fun h => (Option.some_ne_none _ h).elim, fun h => absurd h hleft⟩
  · intro names hnames
    split at hnames
    · cases hnames
    · cases hnames
      refine ⟨hsound.names ▸ List.filter_sublist.map _, ?_⟩
      exact mem_left_iff hsimple hsound hready

end Graph

end Specimen
