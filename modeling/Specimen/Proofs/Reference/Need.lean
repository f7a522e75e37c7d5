import Specimen.Proofs.Reference.Link

/-!
# What a root needs

A root needs itself, and with an interface everything that the fields of the interface mention.
Nothing else is looked up in the search for a reachable cycle: two indexes that agree on the names
that the root needs give the same answer (`reachableCycle?_congr`).
-/

namespace Specimen.Index

/-- From the first name the second one can be reached along the mentions of interfaces. -/
def Needs (index : Index) : String → String → Prop :=
  Relation.ReflTransGen index.Mentions

/-- A field of an interface that the root needs has the name. -/
def NeedsField (index : Index) (root field : String) : Prop :=
  ∃ name fields, index.Needs root name ∧ index.interfaceFields? name = some fields
    ∧ ∃ declared ∈ fields, declared.name = field

variable {index index' : Index} {root : String}

theorem interfaceFields?_congr {name : String} (h : index.find? name = index'.find? name) :
    index.interfaceFields? name = index'.interfaceFields? name := by
  simp only [interfaceFields?, h]

theorem successors?_congr {name : String} (h : index.find? name = index'.find? name) :
    index.successors? name = index'.successors? name := by
  simp only [successors?, interfaceFields?_congr h]

/-- What an interface mentions is needed with it. -/
theorem Needs.of_successors? {name : String} {targets : List String} (h : index.Needs root name)
    (htargets : index.successors? name = some targets) :
    ∀ target ∈ targets, index.Needs root target := by
  intro target htarget
  exact h.tail ((mem_successors?_iff htargets).mp htarget).1

/-- A property of the root that interfaces hand on to what they mention holds of every name that the
root needs. -/
theorem Needs.of_closed {p : String → Prop} (hroot : p root)
    (hstep : ∀ name fields, p name → index.interfaceFields? name = some fields →
      ∀ field ∈ fields, ∀ target ∈ field.type.mentions, p target) :
    ∀ name, index.Needs root name → p name := by
  intro name h
  induction h with
  | refl => exact hroot
  | tail _ hmentions ih =>
      obtain ⟨fields, hfields, field, hfield, htarget⟩ := hmentions
      exact hstep _ fields ih hfields field hfield _ htarget

section Step

variable {path finished rest : List String} {name : String} (hpath : name ∉ path)
  (hname : name ∉ finished)
include hpath hname

theorem search_cons_of_none (h : index.successors? name = none) :
    index.search path finished (name :: rest) = index.search path finished rest := by
  rw [search, dif_neg hpath, if_neg hname]
  split
  · rfl
  · rename_i htargets
    rw [h] at htargets
    cases htargets

theorem search_cons_of_some {targets : List String} (h : index.successors? name = some targets) :
    index.search path finished (name :: rest) =
      match index.search (path ++ [name]) finished targets with
      | .error cycle => .error cycle
      | .ok finished => index.search path (name :: finished) rest := by
  rw [search, dif_neg hpath, if_neg hname]
  split
  · rename_i htargets
    rw [h] at htargets
    cases htargets
  · rename_i htargets
    rw [h] at htargets
    cases htargets
    rfl

end Step

/-- The search looks up no name that the root does not need. -/
theorem search_congr (h : ∀ name, index.Needs root name → index.find? name = index'.find? name)
    {path finished names : List String} (hnames : ∀ name ∈ names, index.Needs root name) :
    index.search path finished names = index'.search path finished names := by
  fun_induction search index path finished names with
  | case1 path finished => rw [search]
  | case2 path finished name rest hpath => rw [search, dif_pos hpath]
  | case3 path finished name rest hpath hname ih =>
      rw [search, dif_neg hpath, if_pos hname]
      exact ih fun other hother => hnames other (List.mem_cons_of_mem _ hother)
  | case4 path finished name rest hpath hname htargets ih =>
      rw [successors?_congr (h name (hnames name List.mem_cons_self))] at htargets
      rw [search_cons_of_none hpath hname htargets]
      exact ih fun other hother => hnames other (List.mem_cons_of_mem _ hother)
  | case5 path finished name rest hpath hname targets htargets _ cycle hbelow ih =>
      have hneeded := hnames name List.mem_cons_self
      have hsame := ih (hneeded.of_successors? htargets)
      rw [successors?_congr (h name hneeded)] at htargets
      rw [search_cons_of_some hpath hname htargets, ← hsame, hbelow]
  | case6 path finished name rest hpath hname targets htargets _ middle hbelow ihbelow ihrest =>
      have hneeded := hnames name List.mem_cons_self
      have hsame := ihbelow (hneeded.of_successors? htargets)
      rw [successors?_congr (h name hneeded)] at htargets
      rw [search_cons_of_some hpath hname htargets, ← hsame, hbelow]
      exact ihrest fun other hother => hnames other (List.mem_cons_of_mem _ hother)

/-- The answer for a root depends on the names that the root needs. -/
theorem reachableCycle?_congr
    (h : ∀ name, index.Needs root name → index.find? name = index'.find? name) :
    index.reachableCycle? root = index'.reachableCycle? root := by
  have hroot : ∀ name ∈ [root], index.Needs root name := by
    intro name hname
    rw [List.mem_singleton.mp hname]
    exact .refl
  have hsearch : index.search [] [] [root] = index'.search [] [] [root] := search_congr h hroot
  simp only [reachableCycle?, hsearch]

end Specimen.Index
