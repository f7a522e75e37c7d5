/-!
# Ranges of characters

A class of characters as a list of ranges of code points.
-/

namespace Specimen

/-- The character is in one of the ranges, each given by its first and its last code point. -/
def inRanges (ranges : List (Nat × Nat)) (c : Char) : Bool :=
  ranges.any fun range => decide (range.1 ≤ c.toNat ∧ c.toNat ≤ range.2)

theorem inRanges_of_mem {ranges : List (Nat × Nat)} {first last : Nat} {c : Char}
    (hmem : (first, last) ∈ ranges) (hfirst : first ≤ c.toNat) (hlast : c.toNat ≤ last) :
    inRanges ranges c = true :=
  List.any_eq_true.mpr ⟨(first, last), hmem, decide_eq_true ⟨hfirst, hlast⟩⟩

end Specimen
