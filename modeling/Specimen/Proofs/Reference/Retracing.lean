import Specimen.Proofs.Reference.Search

/-!
# The search that keeps the path only

`Index.search` passes over the names that it has finished. `Index.retrace` is the same search
without them: it goes down below a name as often as it meets the name again. It ends for the same
reason, because every step down adds a declared name to the path.

The two answer alike, with the same cycle out of several. A finished name is clear (`Clear`): no
walk leads from it to the path, and none comes back. Clear names stay clear further down, so below
them the second search finds nothing. Main statement: `reachableCycle?_eq_retracedCycle?`.
-/

namespace Specimen.Index

variable {index : Index}

/-- Searches the names in order below a path and keeps nothing but the path. -/
def retrace (index : Index) (path : List String) : List String → Option (List String)
  | [] => none
  | name :: rest =>
      if hpath : name ∈ path then some (closeCycle path name)
      else
        match htargets : index.successors? name with
        | none => retrace index path rest
        | some targets =>
            have := freshCount_append_lt (mem_names_of_successors? htargets) hpath
            (retrace index (path ++ [name]) targets).or (retrace index path rest)
termination_by names => (index.freshCount path, names.length)

/-- The first cycle that the search from `root` meets if it keeps the path only. -/
def retracedCycle? (index : Index) (root : String) : Option (List String) :=
  index.retrace [] [root]

section Step

variable {path rest targets : List String} {name : String}

theorem retrace_of_mem (hpath : name ∈ path) :
    index.retrace path (name :: rest) = some (closeCycle path name) := by
  rw [retrace, dif_pos hpath]

theorem retrace_of_none (hpath : name ∉ path) (htargets : index.successors? name = none) :
    index.retrace path (name :: rest) = index.retrace path rest := by
  rw [retrace, dif_neg hpath]
  split
  · rfl
  · simp_all

theorem retrace_of_some (hpath : name ∉ path) (htargets : index.successors? name = some targets) :
    index.retrace path (name :: rest)
      = (index.retrace (path ++ [name]) targets).or (index.retrace path rest) := by
  rw [retrace, dif_neg hpath]
  split
  · simp_all
  · simp_all

end Step

/-! ## Clear names -/

/-- No walk from the name comes to the path, and none comes to a name that lies on a closed walk. -/
structure Clear (index : Index) (path : List String) (name : String) : Prop where
  apart : ∀ b, index.Reaches name b → b ∉ path
  acyclic : ∀ b, index.Reaches name b → ¬ Relation.TransGen index.Leads b b

theorem Finished.clear {path finished : List String} {name : String}
    (h : index.Finished path finished) (hname : name ∈ finished) : index.Clear path name where
  apart b hreach := h.apart b (h.mem_of_reaches hname hreach)
  acyclic b hreach := h.acyclic b (h.mem_of_reaches hname hreach)

/-- A name that is no interface is clear wherever it is not on the path. -/
theorem clear_of_not_isInterface {path : List String} {name : String}
    (hname : ¬ index.IsInterface name) (hpath : name ∉ path) : index.Clear path name := by
  have hstay : ∀ b, index.Reaches name b → name = b := by
    intro b hreach
    by_contra hne
    exact hname (isInterface_of_reaches hreach hne)
  constructor
  · intro b hreach
    exact hstay b hreach ▸ hpath
  · intro b hreach hwalk
    obtain ⟨c, hlink, -⟩ := Relation.TransGen.head'_iff.mp hwalk
    exact hname (hstay b hreach ▸ hlink.isInterface)

/-- What a clear name mentions is clear one step further down. -/
theorem Clear.below {path targets : List String} {name target : String}
    (h : index.Clear path name) (hdeclared : ∀ a ∈ path, index.IsInterface a)
    (htargets : index.successors? name = some targets) (htarget : target ∈ targets) :
    index.Clear (path ++ [name]) target := by
  by_cases hinterface : index.IsInterface target
  · have hlink : index.Leads name target := (leads_iff htargets).mpr ⟨htarget, hinterface⟩
    constructor
    · intro b hreach hmem
      rcases List.mem_append.mp hmem with hmem | hmem
      · exact h.apart b (.head hlink hreach) hmem
      · -- the walk has come back to the name itself
        rw [List.mem_singleton.mp hmem] at hreach
        exact h.acyclic name .refl (.head' hlink hreach)
    · intro b hreach
      exact h.acyclic b (.head hlink hreach)
  · apply clear_of_not_isInterface hinterface
    intro hmem
    exact hinterface (isInterface_below hdeclared htargets target hmem)

/-- Below clear names there is no cycle to be found. -/
theorem retrace_eq_none {path names : List String}
    (hdeclared : ∀ a ∈ path, index.IsInterface a)
    (hclear : ∀ name ∈ names, index.Clear path name) : index.retrace path names = none := by
  fun_induction retrace index path names with
  | case1 path => rfl
  | case2 path name rest hpath =>
      exact absurd hpath ((hclear name List.mem_cons_self).apart name .refl)
  | case3 path name rest hpath htargets ih =>
      exact ih hdeclared fun other hother => hclear other (List.mem_cons_of_mem _ hother)
  | case4 path name rest hpath targets htargets _ ihbelow ihrest =>
      have hbelow : index.retrace (path ++ [name]) targets = none := by
        apply ihbelow (isInterface_below hdeclared htargets)
        intro target htarget
        exact (hclear name List.mem_cons_self).below hdeclared htargets htarget
      have hrest : index.retrace path rest = none :=
        ihrest hdeclared fun other hother => hclear other (List.mem_cons_of_mem _ hother)
      rw [hbelow, hrest]
      rfl

/-- A clear name may be passed over. -/
theorem retrace_cons_of_clear {path rest : List String} {name : String}
    (hdeclared : ∀ a ∈ path, index.IsInterface a) (hclear : index.Clear path name) :
    index.retrace path (name :: rest) = index.retrace path rest := by
  have hpath : name ∉ path := hclear.apart name .refl
  cases htargets : index.successors? name with
  | none => exact retrace_of_none hpath htargets
  | some targets =>
      have hbelow : index.retrace (path ++ [name]) targets = none :=
        retrace_eq_none (isInterface_below hdeclared htargets)
          fun target htarget => hclear.below hdeclared htargets htarget
      rw [retrace_of_some hpath htargets, hbelow, Option.none_or]

/-! ## The two searches -/

/-- The cycle that a search answers with. -/
def foundCycle? : Except (List String) (List String) → Option (List String)
  | .error cycle => some cycle
  | .ok _ => none

/-- As long as the finished names are what they should be, the two searches answer alike. -/
theorem foundCycle?_search {path finished names : List String}
    (hdeclared : ∀ a ∈ path, index.IsInterface a) (h : index.Finished path finished) :
    foundCycle? (index.search path finished names) = index.retrace path names := by
  fun_induction search index path finished names with
  | case1 path finished => rw [retrace, foundCycle?]
  | case2 path finished name rest hpath => rw [retrace_of_mem hpath, foundCycle?]
  | case3 path finished name rest hpath hname ih =>
      rw [retrace_cons_of_clear hdeclared (h.clear hname), ih hdeclared h]
  | case4 path finished name rest hpath hname htargets ih =>
      rw [retrace_of_none hpath htargets, ih hdeclared h]
  | case5 path finished name rest hpath hname targets htargets _ cycle hbelow ih =>
      have hcycle : index.retrace (path ++ [name]) targets = some cycle := by
        rw [← ih (isInterface_below hdeclared htargets) (h.below hname), hbelow, foundCycle?]
      rw [retrace_of_some hpath htargets, hcycle, foundCycle?, Option.some_or]
  | case6 path finished name rest hpath hname targets htargets _ middle hbelow ihbelow ihrest =>
      have hnone : index.retrace (path ++ [name]) targets = none := by
        rw [← ihbelow (isInterface_below hdeclared htargets) (h.below hname), hbelow, foundCycle?]
      rw [retrace_of_some hpath htargets, hnone, Option.none_or]
      exact ihrest hdeclared (h.after hpath hname htargets hbelow)

/-- Passing over finished names changes nothing: for every index and root the search gives the same
cycle, or none, as the one that keeps the path only. -/
theorem reachableCycle?_eq_retracedCycle? (index : Index) (root : String) :
    index.reachableCycle? root = index.retracedCycle? root := by
  have hsearch : foundCycle? (index.search [] [] [root]) = index.retrace [] [root] :=
    foundCycle?_search (by simp) ⟨by simp, by simp, by simp⟩
  rw [reachableCycle?, retracedCycle?, ← hsearch]
  cases index.search [] [] [root] <;> rfl

end Specimen.Index
