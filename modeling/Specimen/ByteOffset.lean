/-!
# Byte offsets

Places in a text, counted in bytes of UTF-8. Not every offset is a place between two characters:
`splitAtByte?` cuts a text at an offset and fails inside a character and behind the end.
-/

namespace Specimen

/-- The size of a text in bytes of UTF-8. -/
def byteSize : (text : List Char) → Nat
  | [] => 0
  | c :: text => c.utf8Size + byteSize text

/-- What stands before a byte offset, and what stands behind it. -/
def splitAtByte? : (offset : Nat) → (text : List Char) → Option (List Char × List Char)
  | 0, text => some ([], text)
  | _ + 1, [] => none
  | offset + 1, c :: text =>
      if c.utf8Size ≤ offset + 1 then
        (splitAtByte? (offset + 1 - c.utf8Size) text).map fun (before, behind) =>
          (c :: before, behind)
      else none

/-- What stands between two byte offsets. -/
def slice? (start stop : Nat) (text : List Char) : Option (List Char) :=
  (splitAtByte? start text).bind fun (_, behind) =>
    (splitAtByte? (stop - start) behind).map Prod.fst

/-- Behind its first character a text is cut as the rest of it. -/
theorem splitAtByte?_cons (c : Char) (text : List Char) (offset : Nat) :
    splitAtByte? (c.utf8Size + offset) (c :: text)
      = (splitAtByte? offset text).map fun (before, behind) => (c :: before, behind) := by
  obtain ⟨size, hsize⟩ := Nat.exists_eq_succ_of_ne_zero (Nat.ne_of_gt c.utf8Size_pos)
  rw [show c.utf8Size + offset = size + offset + 1 by omega, splitAtByte?, if_pos (by omega),
    show size + offset + 1 - c.utf8Size = offset by omega]

/-- A text can be cut behind each front of it. -/
theorem splitAtByte?_append (before behind : List Char) :
    splitAtByte? (byteSize before) (before ++ behind) = some (before, behind) := by
  induction before with
  | nil => cases behind <;> rfl
  | cons c before ih => rw [byteSize, List.cons_append, splitAtByte?_cons, ih, Option.map_some]

/-- A text can be cut at an offset exactly where a front of it has that size. -/
theorem splitAtByte?_eq_some_iff {offset : Nat} {text before behind : List Char} :
    splitAtByte? offset text = some (before, behind)
      ↔ before ++ behind = text ∧ byteSize before = offset := by
  constructor
  · fun_induction splitAtByte? offset text generalizing before behind with
    | case1 text =>
        rintro ⟨rfl, rfl⟩
        exact ⟨rfl, rfl⟩
    | case2 offset => exact nofun
    | case3 offset c text hsize ih =>
        intro h
        obtain ⟨⟨before, behind⟩, hsplit, hcut⟩ := Option.map_eq_some_iff.mp h
        cases hcut
        obtain ⟨rfl, hbefore⟩ := ih hsplit
        exact ⟨rfl, by rw [byteSize, hbefore, Nat.add_sub_of_le hsize]⟩
    | case4 offset c text hsize => exact nofun
  · rintro ⟨rfl, rfl⟩
    exact splitAtByte?_append before behind

theorem byteSize_append (text more : List Char) :
    byteSize (text ++ more) = byteSize text + byteSize more := by
  induction text with
  | nil => simp [byteSize]
  | cons c text ih => simp [byteSize, ih, Nat.add_assoc]

theorem byteSize_pos {text : List Char} (h : text ≠ []) : 0 < byteSize text := by
  cases text with
  | nil => exact absurd rfl h
  | cons c text => exact Nat.add_pos_left c.utf8Size_pos _

/-- What stands between a front of a text and the rest behind it. -/
theorem slice?_append (front middle back : List Char) :
    slice? (byteSize front) (byteSize front + byteSize middle) (front ++ (middle ++ back))
      = some middle := by
  simp [slice?, splitAtByte?_append]

end Specimen
