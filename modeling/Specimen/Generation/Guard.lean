import Specimen.Declaration.Basic

/-!
# The guard against endless references

An interface may mention itself. The guard counts, along one branch of the generation, how often an
interface has led directly back to itself; where the count has reached `Guard.limit`, the branch is
cut off. Only mentions of the interface that is being generated count: cycles through several
interfaces are none of the guard's business.
-/

namespace Specimen

/-- The state of a branch. -/
structure Guard where
  /-- The interface that is being generated. -/
  pivot : Option String
  count : Nat
deriving DecidableEq, Repr

namespace Guard

/-- How often a branch may lead back. -/
def limit : Nat := 3

/-- The start of a branch. -/
def start : Guard := ⟨none, 0⟩

/-- The same branch inside another interface. -/
def inside (guard : Guard) (name : String) : Guard :=
  { guard with pivot := some name }

/-- The branch has to be cut off. -/
def isExhausted (guard : Guard) : Bool :=
  decide (limit ≤ guard.count)

/-- The branch below a mention of a type. -/
def descend (guard : Guard) : TypeRef → Guard
  | .named name =>
      if guard.pivot = some name then { guard with count := guard.count + 1 } else guard
  | _ => guard

end Guard

end Specimen
