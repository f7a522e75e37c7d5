import Specimen.Proofs.Reference.Link

/-!
# The search for a reachable cycle

The search carries a path and the names it has finished. What it keeps (`Finished`): a finished
name links to finished names only, no closed walk starts at one, and none is on the path. A name is
finished after all its targets are, so a closed walk from it would end on a finished name that is
still on the path. What an early answer needs (`Trail`): the path follows the links from the root,
and every name to be searched next is linked from its end.

Main statement: `reachableCycle?_sound_and_complete`.
-/

namespace Specimen.Index

variable {index : Index}

/-- The finished names need no further search, whatever is on the path. -/
structure Finished (index : Index) (path finished : List String) : Prop where
  closed : ∀ a ∈ finished, ∀ b, index.Leads a b → b ∈ finished
  acyclic : ∀ a ∈ finished, ¬ Relation.TransGen index.Leads a a
  apart : ∀ a ∈ finished, a ∉ path

/-- The path follows the links below the root, and so do the names behind its end. -/
structure Trail (index : Index) (root : String) (path names : List String) : Prop where
  linked : path.IsChain index.Leads
  nodup : path.Nodup
  declared : ∀ name ∈ path, index.IsInterface name
  reached : ∀ name ∈ path, index.Reaches root name
  next : ∀ name ∈ names, index.IsInterface name →
    index.Reaches root name ∧ ∀ last ∈ path.getLast?, index.Leads last name

/-! ## Finished names -/

theorem Finished.mem_of_transGen {path finished : List String} (h : index.Finished path finished)
    {a b : String} (ha : a ∈ finished) (hwalk : Relation.TransGen index.Leads a b) :
    b ∈ finished := by
  induction hwalk with
  | single hlink => exact h.closed a ha _ hlink
  | tail _ hlink ih => exact h.closed _ ih _ hlink

theorem Finished.mem_of_reaches {path finished : List String} (h : index.Finished path finished)
    {a b : String} (ha : a ∈ finished) (hreach : index.Reaches a b) : b ∈ finished := by
  rcases Relation.reflTransGen_iff_eq_or_transGen.mp hreach with rfl | hwalk
  · exact ha
  · exact h.mem_of_transGen ha hwalk

theorem Finished.below {path finished : List String} {name : String}
    (h : index.Finished path finished) (hname : name ∉ finished) :
    index.Finished (path ++ [name]) finished := by
  refine ⟨h.closed, h.acyclic, ?_⟩
  intro a ha hmem
  rcases List.mem_append.mp hmem with hmem | hmem
  · exact h.apart a ha hmem
  · rw [List.mem_singleton.mp hmem] at ha
    exact hname ha

/-- A name is finished when all interfaces that it mentions are. -/
theorem Finished.add {path finished targets : List String} {name : String}
    (h : index.Finished (path ++ [name]) finished) (hpath : name ∉ path)
    (htargets : index.successors? name = some targets)
    (hall : ∀ target ∈ targets, index.IsInterface target → target ∈ finished) :
    index.Finished path (name :: finished) := by
  have hlinks : ∀ b, index.Leads name b → b ∈ finished := by
    intro b hlink
    obtain ⟨hmem, hinterface⟩ := (leads_iff htargets).mp hlink
    exact hall b hmem hinterface
  refine ⟨?_, ?_, ?_⟩
  · intro a ha b hlink
    rcases List.mem_cons.mp ha with rfl | ha
    · exact List.mem_cons_of_mem _ (hlinks b hlink)
    · exact List.mem_cons_of_mem _ (h.closed a ha b hlink)
  · intro a ha hwalk
    rcases List.mem_cons.mp ha with rfl | ha
    · -- the walk leaves `a` into the finished names and cannot leave them again
      obtain ⟨b, hlink, hback⟩ := Relation.TransGen.head'_iff.mp hwalk
      have hmem : a ∈ finished := h.mem_of_reaches (hlinks b hlink) hback
      exact h.apart a hmem (by simp)
    · exact h.acyclic a ha hwalk
  · intro a ha hmem
    rcases List.mem_cons.mp ha with rfl | ha
    · exact hpath hmem
    · exact h.apart a ha (List.mem_append_left _ hmem)

/-- A search without a cycle finishes every interface among its names and forgets none. -/
theorem finished_of_search_ok {path finished names result : List String}
    (hsearch : index.search path finished names = .ok result)
    (h : index.Finished path finished) :
    index.Finished path result ∧ finished ⊆ result
      ∧ ∀ name ∈ names, index.IsInterface name → name ∈ result := by
  fun_induction search index path finished names generalizing result with
  | case1 path finished =>
      cases hsearch
      exact ⟨h, List.Subset.refl _, by simp⟩
  | case2 path finished name rest hpath => cases hsearch
  | case3 path finished name rest hpath hname ih =>
      obtain ⟨hresult, hsubset, hrest⟩ := ih hsearch h
      refine ⟨hresult, hsubset, ?_⟩
      intro other hother hinterface
      rcases List.mem_cons.mp hother with rfl | hother
      · exact hsubset hname
      · exact hrest other hother hinterface
  | case4 path finished name rest hpath hname htargets ih =>
      obtain ⟨hresult, hsubset, hrest⟩ := ih hsearch h
      refine ⟨hresult, hsubset, ?_⟩
      intro other hother hinterface
      rcases List.mem_cons.mp hother with rfl | hother
      · rw [← isSome_successors?_iff, htargets] at hinterface
        cases hinterface
      · exact hrest other hother hinterface
  | case5 path finished name rest hpath hname targets htargets _ cycle _ _ => cases hsearch
  | case6 path finished name rest hpath hname targets htargets _ middle hbelow ihbelow ihrest =>
      obtain ⟨hmiddle, hgrown, hall⟩ := ihbelow hbelow (h.below hname)
      obtain ⟨hresult, hsubset, hrest⟩ := ihrest hsearch (hmiddle.add hpath htargets hall)
      refine ⟨hresult, ?_, ?_⟩
      · intro a ha
        exact hsubset (List.mem_cons_of_mem _ (hgrown ha))
      · intro other hother hinterface
        rcases List.mem_cons.mp hother with rfl | hother
        · exact hsubset List.mem_cons_self
        · exact hrest other hother hinterface

/-- After a search without a cycle below a name, the name is finished, too. -/
theorem Finished.after {path finished targets middle : List String} {name : String}
    (h : index.Finished path finished) (hpath : name ∉ path) (hname : name ∉ finished)
    (htargets : index.successors? name = some targets)
    (hbelow : index.search (path ++ [name]) finished targets = .ok middle) :
    index.Finished path (name :: middle) := by
  obtain ⟨hmiddle, -, hall⟩ := finished_of_search_ok hbelow (h.below hname)
  exact hmiddle.add hpath htargets hall

/-! ## The path -/

/-- One step further down there are interfaces on the path still. -/
theorem isInterface_below {path targets : List String} {name : String}
    (hdeclared : ∀ a ∈ path, index.IsInterface a)
    (htargets : index.successors? name = some targets) :
    ∀ a ∈ path ++ [name], index.IsInterface a := by
  intro a ha
  rcases List.mem_append.mp ha with ha | ha
  · exact hdeclared a ha
  · rw [List.mem_singleton.mp ha, ← isSome_successors?_iff, htargets]
    rfl

theorem Trail.rest {root name : String} {path names : List String}
    (h : index.Trail root path (name :: names)) : index.Trail root path names :=
  { h with next := fun other hother => h.next other (List.mem_cons_of_mem _ hother) }

theorem Trail.below {root name : String} {path names targets : List String}
    (h : index.Trail root path (name :: names)) (hpath : name ∉ path)
    (htargets : index.successors? name = some targets) :
    index.Trail root (path ++ [name]) targets := by
  have hdeclared := isInterface_below h.declared htargets
  have hname : index.IsInterface name := hdeclared name (by simp)
  obtain ⟨hreach, hlink⟩ := h.next name List.mem_cons_self hname
  refine ⟨?_, ?_, hdeclared, ?_, ?_⟩
  · refine h.linked.append (List.isChain_singleton name) ?_
    intro last hlast first hfirst
    cases hfirst
    exact hlink last hlast
  · rw [List.nodup_append]
    refine ⟨h.nodup, by simp, ?_⟩
    rintro a ha b hb rfl
    rw [List.mem_singleton.mp hb] at ha
    exact hpath ha
  · intro a ha
    rcases List.mem_append.mp ha with ha | ha
    · exact h.reached a ha
    · rw [List.mem_singleton.mp ha]
      exact hreach
  · intro target htarget hinterface
    have hbelow : index.Leads name target := (leads_iff htargets).mpr ⟨htarget, hinterface⟩
    refine ⟨hreach.tail hbelow, ?_⟩
    intro last hlast
    simp only [List.getLast?_concat, Option.mem_def, Option.some.injEq] at hlast
    exact hlast ▸ hbelow

/-- A path is cut at the first occurrence of a name that it holds. -/
theorem closeCycle_eq {path before after : List String} {name : String}
    (hpath : path = before ++ name :: after) (hbefore : name ∉ before) :
    closeCycle path name = name :: after ++ [name] := by
  rw [closeCycle, hpath, List.dropWhile_append_of_pos]
  · simp
  · intro entry hentry
    simp only [bne_iff_ne, ne_eq]
    rintro rfl
    exact hbefore hentry

/-- Where a name comes back to the path, the end of the path is a cycle. -/
theorem Trail.isCycle_closeCycle {root name : String} {path names : List String}
    (h : index.Trail root path (name :: names)) (hname : name ∈ path) :
    index.IsCycle (closeCycle path name)
      ∧ ∀ first ∈ (closeCycle path name).head?, index.Reaches root first := by
  obtain ⟨before, after, hpath⟩ := List.append_of_mem hname
  have hnodup : (before ++ name :: after).Nodup := hpath ▸ h.nodup
  have hbefore : name ∉ before := by
    intro hmem
    exact (List.nodup_append.mp hnodup).2.2 name hmem name (by simp) rfl
  rw [closeCycle_eq hpath hbefore]
  obtain ⟨-, hlink⟩ := h.next name List.mem_cons_self (h.declared name hname)
  have hsuffix : (name :: after) <:+ path := ⟨before, hpath.symm⟩
  have hlast : ∀ last ∈ (name :: after).getLast?, index.Leads last name := by
    intro last hlast
    apply hlink last
    rw [hpath, List.getLast?_append_of_ne_nil _ (List.cons_ne_nil name after)]
    exact hlast
  -- a name alone is no cycle, because no name leads to itself
  have hafter : after ≠ [] := by
    rintro rfl
    exact (hlast name rfl).other rfl
  refine ⟨⟨?_, ?_, ?_, ?_, ?_⟩, ?_⟩
  · have := List.length_pos_of_ne_nil hafter
    simp only [List.cons_append, List.length_cons, List.length_append, List.length_nil]
    omega
  · rw [List.getLast?_concat]
    rfl
  · rw [List.dropLast_concat]
    exact h.nodup.sublist hsuffix.sublist
  · rw [List.dropLast_concat]
    intro a ha
    exact h.declared a (hsuffix.subset ha)
  · refine (h.linked.suffix hsuffix).append (List.isChain_singleton name) ?_
    intro last hmem first hfirst
    cases hfirst
    exact hlast last hmem
  · intro first hfirst
    cases hfirst
    exact h.reached name hname

/-- What the search answers early is a cycle below the root. -/
theorem isCycle_of_search_error {root : String} {path finished names cycle : List String}
    (hsearch : index.search path finished names = .error cycle)
    (h : index.Trail root path names) :
    index.IsCycle cycle ∧ ∀ first ∈ cycle.head?, index.Reaches root first := by
  fun_induction search index path finished names with
  | case1 path finished => cases hsearch
  | case2 path finished name rest hpath =>
      cases hsearch
      exact h.isCycle_closeCycle hpath
  | case3 path finished name rest hpath hname ih => exact ih hsearch h.rest
  | case4 path finished name rest hpath hname htargets ih => exact ih hsearch h.rest
  | case5 path finished name rest hpath hname targets htargets _ below hbelow ih =>
      cases hsearch
      exact ih hbelow (h.below hpath htargets)
  | case6 path finished name rest hpath hname targets htargets _ middle hbelow _ ihrest =>
      exact ihrest hsearch h.rest

/-! ## The answer -/

theorem isCycle_of_reachableCycle? {root : String} {cycle : List String}
    (h : index.reachableCycle? root = some cycle) :
    index.IsCycle cycle ∧ ∀ first ∈ cycle.head?, index.Reaches root first := by
  unfold reachableCycle? at h
  split at h
  · rename_i found hsearch
    cases h
    apply isCycle_of_search_error hsearch
    refine ⟨.nil, List.nodup_nil, by simp, by simp, ?_⟩
    intro name hname _
    rw [List.mem_singleton.mp hname]
    exact ⟨.refl, by simp⟩
  · cases h

/-- Without an answer, nothing below the root is entangled. -/
theorem not_entangled_of_reachableCycle? {root : String}
    (h : index.reachableCycle? root = none) : ¬ index.Entangled root := by
  rintro ⟨a, b, hne, hroot, hab, hba⟩
  unfold reachableCycle? at h
  split at h
  · cases h
  · rename_i result hsearch
    obtain ⟨hresult, -, hall⟩ := finished_of_search_ok hsearch ⟨by simp, by simp, by simp⟩
    have ha : index.IsInterface a := isInterface_of_reaches hab hne
    have hinterface : index.IsInterface root := by
      by_cases heq : root = a
      · exact heq ▸ ha
      · exact isInterface_of_reaches hroot heq
    have hmem : a ∈ result := hresult.mem_of_reaches (hall root (by simp) hinterface) hroot
    exact hresult.acyclic a hmem (transGen_self_of_reaches hne hab hba)

/-- The search answers exactly if two different interfaces below the root reach each other, and
its answer is a cycle whose first name the root reaches. -/
theorem reachableCycle?_sound_and_complete (index : Index) (root : String) :
    ((∃ cycle, index.reachableCycle? root = some cycle) ↔ index.Entangled root)
      ∧ ∀ cycle, index.reachableCycle? root = some cycle →
          index.IsCycle cycle ∧ ∃ first, cycle.head? = some first ∧ index.Reaches root first := by
  refine ⟨⟨?_, ?_⟩, ?_⟩
  · rintro ⟨cycle, hcycle⟩
    obtain ⟨hcycle, hreach⟩ := isCycle_of_reachableCycle? hcycle
    exact hcycle.entangled hreach
  · intro hentangled
    cases hanswer : index.reachableCycle? root with
    | none => exact absurd hentangled (not_entangled_of_reachableCycle? hanswer)
    | some cycle => exact ⟨cycle, rfl⟩
  · intro cycle hcycle
    obtain ⟨hcycle, hreach⟩ := isCycle_of_reachableCycle? hcycle
    refine ⟨hcycle, ?_⟩
    cases hhead : cycle.head? with
    | none =>
        have := hcycle.three_le
        rw [List.head?_eq_none_iff] at hhead
        simp [hhead] at this
    | some first => exact ⟨first, rfl, hreach first hhead⟩

end Specimen.Index
