/-!
# Pieces between separators

`pieces separator text` cuts a text at every separator. There is one piece more than there are
separators, and pieces may be empty; putting the separators back gives the text
(`intercalate_pieces`).
-/

namespace Specimen

/-- The pieces of a text between its separators. -/
def pieces (separator : Char) : List Char → List (List Char)
  | [] => [[]]
  | c :: text =>
      if c = separator then [] :: pieces separator text
      else
        match pieces separator text with
        | [] => [[c]]
        | piece :: others => (c :: piece) :: others

theorem pieces_ne_nil (separator : Char) (text : List Char) : pieces separator text ≠ [] := by
  cases text with
  | nil => simp [pieces]
  | cons c text =>
      simp only [pieces]
      split
      · simp
      · split <;> simp

theorem intercalate_pieces (separator : Char) (text : List Char) :
    [separator].intercalate (pieces separator text) = text := by
  induction text with
  | nil => simp [pieces]
  | cons c text ih =>
      simp only [pieces]
      have hne := pieces_ne_nil separator text
      generalize pieces separator text = found at ih hne
      cases found with
      | nil => exact absurd rfl hne
      | cons piece others =>
          split
          · rename_i hc
            simp only [List.intercalate, List.intersperse_cons_cons, List.flatten_cons,
              List.nil_append] at ih ⊢
            simp [hc, ih]
          · cases others with
            | nil => simp_all [List.intercalate]
            | cons second others =>
                simp only [List.intercalate, List.intersperse_cons_cons, List.flatten_cons] at ih ⊢
                simp [← ih]

end Specimen
