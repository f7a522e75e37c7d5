import Specimen.Entries

/-!
# Taking nodes away

A graph is a list of names with the names that each of them points at. `Removal.run` takes the
nodes away one by one, each time the first in byte order of those that no node left points at. The
pointers that are left at each node are counted, so that a node is ready as soon as it loses the
last of them.

Of a finite graph without cycles everything is taken away in the end. What stays is caught in a
cycle, or a cycle leads to it: `Graph.caught?`.
-/

namespace Specimen

/-- Nodes with the nodes that they point at. -/
abbrev Graph := List (String × List String)

/-- Puts a name into a list of names at its place in byte order, unless it is there already. -/
def insertName (name : String) : List String → List String
  | [] => [name]
  | other :: rest =>
      if other = name then other :: rest
      else if namePrecedes name other then name :: other :: rest
      else other :: insertName name rest

theorem length_insertName_le (name : String) (names : List String) :
    (insertName name names).length ≤ names.length + 1 := by
  induction names with
  | nil => simp [insertName]
  | cons other rest ih =>
      simp only [insertName]
      split
      · simp
      · split
        · simp
        · simpa using ih

/-- A graph from which nodes are being taken away. -/
structure Removal where
  /-- How many nodes that are left point at each node. -/
  counts : List (String × Nat)
  /-- The nodes to be taken away next, in byte order. -/
  ready : List String
  /-- The nodes that have been taken away, the last one first. -/
  removed : List String

namespace Removal

/-- Before anything is taken away, the nodes that nothing points at are ready. -/
def start (graph : Graph) : Removal :=
  let counts := graph.map fun node => (node.1, (graph.flatMap Prod.snd).count node.1)
  { counts
    ready := (counts.filter fun entry => entry.2 == 0).map Prod.fst
    removed := [] }

/-- Takes away one pointer at a node; with the last one gone, the node is ready. Where none is
counted there is nothing to take away. -/
def release (state : Removal) (target : String) : Removal :=
  match Entries.find? target state.counts with
  | some (count + 1) =>
      { state with
        counts := Entries.set target count state.counts
        ready := if count = 0 then insertName target state.ready else state.ready }
  | _ => state

/-- Takes away a node, with all its pointers. -/
def remove (graph : Graph) (state : Removal) (node : String) (rest : List String) : Removal :=
  ((Entries.find? node graph).getD []).foldl release
    { state with ready := rest, removed := node :: state.removed }

/-- The sum of the counts. -/
def total : List (String × Nat) → Nat
  | [] => 0
  | (_, count) :: rest => count + total rest

/-- The pointers that are left and the nodes that are ready. A node becomes ready for a pointer
that goes away. -/
def weight (state : Removal) : Nat :=
  total state.counts + state.ready.length

theorem total_set {name : String} {count : Nat} {counts : List (String × Nat)}
    (h : Entries.find? name counts = some (count + 1)) :
    total (Entries.set name count counts) + 1 = total counts := by
  induction counts with
  | nil => cases h
  | cons entry rest ih =>
      obtain ⟨key, kept⟩ := entry
      simp only [Entries.find?] at h
      by_cases hkey : key = name
      · rw [if_pos hkey] at h
        cases h
        simp only [Entries.set, if_pos hkey, total]
        omega
      · rw [if_neg hkey] at h
        have := ih h
        simp only [Entries.set, if_neg hkey, total]
        omega

theorem weight_release_le (state : Removal) (target : String) :
    (state.release target).weight ≤ state.weight := by
  unfold release
  split
  · rename_i count hcount
    have htotal := total_set hcount
    have hlength := length_insertName_le target state.ready
    simp only [weight]
    split <;> omega
  · exact Nat.le_refl _

theorem weight_foldl_release_le (targets : List String) (state : Removal) :
    (targets.foldl release state).weight ≤ state.weight := by
  induction targets generalizing state with
  | nil => exact Nat.le_refl _
  | cons target rest ih => exact Nat.le_trans (ih _) (weight_release_le state target)

theorem weight_remove_lt (graph : Graph) {state : Removal} {node : String} {rest : List String}
    (h : state.ready = node :: rest) : (state.remove graph node rest).weight < state.weight := by
  apply Nat.lt_of_le_of_lt (weight_foldl_release_le _ _)
  simp only [weight, h, List.length_cons]
  omega

/-- Takes nodes away until none is ready. -/
def run (graph : Graph) (state : Removal) : Removal :=
  match h : state.ready with
  | [] => state
  | node :: rest =>
      have := weight_remove_lt graph h
      run graph (state.remove graph node rest)
termination_by state.weight

end Removal

/-- The nodes that cannot be taken away, if there are any: those at which pointers are left. -/
def Graph.caught? (graph : Graph) : Option (List String) :=
  let last := Removal.run graph (Removal.start graph)
  if last.removed.length = last.counts.length then none
  else some ((last.counts.filter fun entry => 0 < entry.2).map Prod.fst)

end Specimen
