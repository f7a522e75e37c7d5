import Specimen.Declaration.Index

/-!
# Reachable cycles

Generating an instance of an interface generates instances of the interfaces that its fields
mention. Direct self references are bounded during generation, and aliases are not followed, so
what has no end is a cycle through at least two interfaces. `Index.reachableCycle?` looks for one
by a depth-first search from a root.

The search carries the path from the root and the names that it has finished. A finished name is
not searched again. The search ends because every step down adds a declared name to the path.
-/

namespace Specimen.Index

/-- The names other than its own that the fields of an interface mention. -/
def successors? (index : Index) (name : String) : Option (List String) :=
  (index.interfaceFields? name).map fun fields =>
    (fields.flatMap fun field => field.type.mentions).filter fun target => target != name

/-- How many declared names are not on the path. -/
def freshCount (index : Index) (path : List String) : Nat :=
  (index.names.filter fun name => !path.contains name).length

theorem length_fresh_append_lt {names path : List String} {name : String}
    (hname : name ∈ names) (hpath : name ∉ path) :
    (names.filter fun n => !(path ++ [name]).contains n).length
      < (names.filter fun n => !path.contains n).length := by
  simp only [← List.countP_eq_length_filter]
  induction names with
  | nil => simp at hname
  | cons first rest ih =>
      have hle : rest.countP (fun n => !(path ++ [name]).contains n)
          ≤ rest.countP (fun n => !path.contains n) := by
        apply List.countP_mono_left
        intro n _ hn
        simp_all
      simp only [List.countP_cons]
      by_cases hfirst : first = name
      · subst hfirst
        have hout : (!(path ++ [first]).contains first) = false := by simp
        have hin : (!path.contains first) = true := by simp [hpath]
        simp only [hout, hin, if_true, Bool.false_eq_true, if_false]
        omega
      · have hrest : name ∈ rest := (List.mem_cons.mp hname).resolve_left (Ne.symm hfirst)
        have hsame : (!(path ++ [name]).contains first) = (!path.contains first) := by
          simp [hfirst]
        have := ih hrest
        rw [hsame]
        omega

theorem freshCount_append_lt {index : Index} {path : List String} {name : String}
    (hname : name ∈ index.names) (hpath : name ∉ path) :
    index.freshCount (path ++ [name]) < index.freshCount path :=
  length_fresh_append_lt hname hpath

theorem mem_names_of_successors? {index : Index} {name : String} {targets : List String}
    (h : index.successors? name = some targets) : name ∈ index.names := by
  unfold successors? at h
  simp only [Option.map_eq_some_iff] at h
  obtain ⟨fields, hfields, -⟩ := h
  exact mem_names_of_interfaceFields? hfields

/-- The part of the path from the first occurrence of `name` on, with `name` once more. -/
def closeCycle (path : List String) (name : String) : List String :=
  path.dropWhile (fun entry => entry != name) ++ [name]

/-- Searches the names in order below a path; `finished` holds the names that need no further
search. The answer is a cycle, or the names that are finished then. -/
def search (index : Index) (path finished : List String) :
    List String → Except (List String) (List String)
  | [] => .ok finished
  | name :: rest =>
      if hpath : name ∈ path then .error (closeCycle path name)
      else if name ∈ finished then search index path finished rest
      else
        match htargets : index.successors? name with
        | none => search index path finished rest
        | some targets =>
            have := freshCount_append_lt (mem_names_of_successors? htargets) hpath
            match search index (path ++ [name]) finished targets with
            | .error cycle => .error cycle
            | .ok finished => search index path (name :: finished) rest
termination_by names => (index.freshCount path, names.length)

/-- The first cycle through several interfaces that the search from `root` meets: from its first
name in the order of the search to the same name again. -/
def reachableCycle? (index : Index) (root : String) : Option (List String) :=
  match index.search [] [] [root] with
  | .error cycle => some cycle
  | .ok _ => none

end Specimen.Index
