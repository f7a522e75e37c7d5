import Specimen.Proofs.Source.Interspersed

/-!
# Progress of readers

What a reader leaves is an end of what it was given, so a place in a document is a position among
its tokens. A reader that gives something has come to a later position, which is not behind the end.

That an ending is left follows from reading a document beside itself: two readers of the same tokens
come to the same place, and a place is an end of the tokens. Main statement: `readersAdvance`.
-/

namespace Specimen.Source

/-! ## Places in one document -/

section Places

variable {ts : List Token} {α : Type} {related : α → α → Prop}

/-- A document beside itself. -/
theorem Pair.beside_self (ts : List Token) : Pair.Beside ⟨ts, ts⟩ ts ts :=
  ⟨List.suffix_refl _, List.suffix_refl _, List.forall₂_same.mpr fun _ _ => ⟨⟨rfl, rfl⟩, rfl⟩⟩

/-- A result beside itself is related to itself. -/
theorem Pair.SameResult.of_ok {pair : Pair} {result : Except Fault α} {x : α}
    (h : pair.SameResult related result result) (hresult : result = .ok x) : related x x := by
  subst hresult
  cases h with
  | ok hsame => exact hsame

/-- A fault stands at a place, too. -/
theorem Pair.SameResult.beside_rest {pair : Pair} {result : Except Fault α} {fault : Fault}
    (h : pair.SameResult related result result) (hfault : result = .error fault) :
    pair.Beside fault.rest fault.rest := by
  subst hfault
  cases h with
  | error hplace => exact hplace

theorem Pair.Beside.declaration? {tokens rest : List Token} {first : Token} {tail : List Char}
    {result : Except Fault (Taken (first :: rest) Declaration)}
    (h : Pair.Beside ⟨tokens, tokens⟩ rest rest)
    (hresult : declaration? tail first rest = some result) :
    Pair.SameResult ⟨tokens, tokens⟩
      (Pair.SameTaken ⟨tokens, tokens⟩ (Pair.SameDeclaration ⟨tokens, tokens⟩)) result result := by
  have hfirst : first.Same first := ⟨rfl, rfl⟩
  have hsame := Pair.sameResult_declaration? hfirst h (rfl : hasLineBreak tail = _)
  rw [hresult] at hsame
  cases hsame with
  | some hsame => exact hsame

theorem skipTree_suffix (ts : List Token) : skipTree ts <:+ ts :=
  (Pair.beside_self ts).skipTree.left

theorem typeExpr_suffix {read : Taken ts TypeRef} (h : typeExpr ts = .ok read) :
    read.rest <:+ ts :=
  ((Pair.beside_self ts).typeExpr.of_ok h).rest.left

theorem member_suffix {tail : List Char} {read : Taken ts (Option Field)}
    (h : member tail ts = .ok read) : read.rest <:+ ts :=
  (((Pair.beside_self ts).member rfl).of_ok h).rest.left

theorem enumMember_suffix {enumeration : String} {read : Taken ts EnumMember}
    (h : enumMember enumeration ts = .ok read) : read.rest <:+ ts :=
  (((Pair.beside_self ts).enumMember enumeration).of_ok h).rest.left

end Places

/-! ## Positions -/

/-- From the position among the tokens one has come to a later one, which is not behind the end. -/
def Advances (tokens : List Token) (position : Nat) (rest : List Token) : Prop :=
  ∃ next, position < next ∧ next ≤ tokens.length ∧ rest = tokens.drop next

theorem advances_of_suffix {tokens ts rest : List Token} {position : Nat}
    (hplace : tokens.drop position = ts) (hsuffix : rest <:+ ts)
    (hshort : rest.length < ts.length) : Advances tokens position rest := by
  subst hplace
  have hrest := List.suffix_iff_eq_drop.mp hsuffix
  rw [List.drop_drop] at hrest
  rw [List.length_drop] at hshort hrest
  exact ⟨position + (tokens.length - position - rest.length), by omega, by omega, hrest⟩

/-- Wherever the reader gives something, it has advanced. -/
def AlwaysAdvances {α : Type} (reader : (ts : List Token) → Except Fault (Taken ts α)) : Prop :=
  ∀ tokens position read, reader (tokens.drop position) = .ok read →
    Advances tokens position read.rest

theorem alwaysAdvances {α : Type} {related : List Token → α → α → Prop}
    {reader : (ts : List Token) → Except Fault (Taken ts α)}
    (h : ∀ ts, Pair.SameResult ⟨ts, ts⟩ (Pair.SameTaken ⟨ts, ts⟩ (related ts)) (reader ts)
      (reader ts)) : AlwaysAdvances reader :=
  fun tokens position read hread =>
    advances_of_suffix rfl ((h (tokens.drop position)).of_ok hread).rest.left read.shorter

/-- The readers of types, of members and of declarations advance. The declarations of one kind are
read behind their keyword, and a declaration of any kind with its keyword. -/
structure ReadersAdvance (tail : List Char) : Prop where
  typeExpr : AlwaysAdvances Source.typeExpr
  postfixType : AlwaysAdvances Source.postfixType
  primaryType : AlwaysAdvances Source.primaryType
  member : AlwaysAdvances (Source.member tail)
  interfaceDeclaration : AlwaysAdvances (Source.interfaceDeclaration tail)
  aliasDeclaration : AlwaysAdvances Source.aliasDeclaration
  enumDeclaration : AlwaysAdvances Source.enumDeclaration
  namespaceDeclaration : AlwaysAdvances Source.namespaceDeclaration
  declaration : ∀ tokens position first rest read, tokens.drop position = first :: rest →
    declaration? tail first rest = some (.ok read) → Advances tokens position read.rest

theorem readersAdvance (tail : List Char) : ReadersAdvance tail where
  typeExpr := alwaysAdvances fun ts => (Pair.beside_self ts).typeExpr
  postfixType := alwaysAdvances fun ts => (Pair.beside_self ts).postfixType
  primaryType := alwaysAdvances fun ts => (Pair.beside_self ts).primaryType
  member := alwaysAdvances fun ts => (Pair.beside_self ts).member rfl
  interfaceDeclaration := alwaysAdvances fun ts => (Pair.beside_self ts).interfaceDeclaration rfl
  aliasDeclaration := alwaysAdvances fun ts => (Pair.beside_self ts).aliasDeclaration
  enumDeclaration := alwaysAdvances fun ts => (Pair.beside_self ts).enumDeclaration
  namespaceDeclaration := alwaysAdvances fun ts => (Pair.beside_self ts).namespaceDeclaration
  declaration := fun _ _ first rest read hplace hread =>
    advances_of_suffix hplace ((suffix_declaration? hread).trans (List.suffix_cons first rest))
      read.shorter

end Specimen.Source
