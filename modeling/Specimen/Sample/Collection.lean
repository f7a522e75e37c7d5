import Specimen.Sample.Basic

/-!
# Building maps and sets

Keys and members are told apart by `sameScalar`. Scalars are the same if they have the same value;
an integer and a double are the same if they are equal as doubles, and NaN is the same as NaN.
Arrays, objects, maps and sets are never the same as anything, not even as themselves.
-/

namespace Specimen.Sample

/-- Equal as doubles, NaN being equal to NaN. -/
def sameNumber (a b : Float) : Bool :=
  a == b || (a.isNaN && b.isNaN)

/-- The two samples count as one key or one member. -/
def sameScalar : Sample → Sample → Bool
  | .undefined, .undefined => true
  | .null, .null => true
  | .bool a, .bool b => a == b
  | .string a, .string b => a == b
  | .int a, .int b => a == b
  | .int a, .float b => sameNumber (Binary64.ofInt a.toInt) b
  | .float a, .int b => sameNumber a (Binary64.ofInt b.toInt)
  | .float a, .float b => sameNumber a b
  | _, _ => false

/-- Puts a value under a key: at the place of the first key that is the same, else at the end. The
key that is already there stays as it is. -/
def insertEntry (key value : Sample) : List (Sample × Sample) → List (Sample × Sample)
  | [] => [(key, value)]
  | (other, kept) :: rest =>
      if sameScalar other key then (other, value) :: rest
      else (other, kept) :: insertEntry key value rest

/-- Adds a member at the end unless the same one is there. -/
def insertMember (member : Sample) (members : List Sample) : List Sample :=
  if members.any fun other => sameScalar other member then members else members ++ [member]

end Specimen.Sample
