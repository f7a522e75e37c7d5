import Mathlib.Data.List.Forall2
import Specimen.Proofs.Source.Continuation
import Specimen.Proofs.Source.RespacedDocument

/-!
# Documents at other offsets

The tokens of two documents may differ in their offsets alone, as they do behind a place where
something was put in. Then the texts that are kept are the same, too, because a run of tokens has
the same text in both, and so the declarations are equal. Main statement:
`Pair.Shifted.eq_declarations`.
-/

namespace Specimen.Source

/-! ## Runs of tokens -/

theorem flatMap_spelled_eq {ts ts' : List Token} (h : List.Forall₂ Token.SameWithGap ts ts') :
    (ts.flatMap fun token => token.gap ++ token.text)
      = ts'.flatMap fun token => token.gap ++ token.text := by
  induction h with
  | nil => rfl
  | cons htoken _ ih => rw [List.flatMap_cons, List.flatMap_cons, htoken.gap, htoken.text, ih]

/-- The text of a run does not depend on where the run stands. -/
theorem runText_eq {ts ts' : List Token} (h : List.Forall₂ Token.SameWithGap ts ts') :
    runText ts = runText ts' := by
  cases h with
  | nil => rfl
  | cons hfirst hothers => rw [runText, runText, hfirst.text, flatMap_spelled_eq hothers]

namespace Pair

variable {pair : Pair}

/-- The documents have the same tokens with the same gaps; their offsets may differ. -/
def Shifted (pair : Pair) : Prop :=
  List.Forall₂ Token.SameWithGap pair.left pair.right

namespace Shifted

theorem beside (h : pair.Shifted) : pair.Beside pair.left pair.right :=
  ⟨List.suffix_refl _, List.suffix_refl _,
    h.imp fun _ _ htoken => ⟨htoken.toSame, congrArg hasLineBreak htoken.gap⟩⟩

/-- The tokens behind the same place have the same gaps. -/
theorem of_beside (h : pair.Shifted) {ts ts' : List Token} (hplace : pair.Beside ts ts') :
    List.Forall₂ Token.SameWithGap ts ts' := by
  have hleft := List.suffix_iff_eq_drop.mp hplace.left
  have hright := List.suffix_iff_eq_drop.mp hplace.right
  rw [hleft, hright, ← hplace.same.length_eq, ← List.Forall₂.length_eq h]
  exact List.forall₂_drop _ h

theorem eq_text (h : pair.Shifted) {text text' : String} (hrun : pair.SameRun text text') :
    text = text' := by
  obtain ⟨ts, ts', count, hplace, rfl, rfl⟩ := hrun
  exact runText_eq (List.forall₂_take count (h.of_beside hplace))

/-! ## Declarations -/

mutual

theorem eq_type (h : pair.Shifted) : (type : TypeRef) → ∀ {type' : TypeRef},
    pair.SameType type type' → type = type'
  | .primitive _, _, .primitive _ => rfl
  | .named _, _, .named _ => rfl
  | .generic name args, _, .generic _ hargs =>
      congrArg (TypeRef.generic name) (eq_types h args hargs)
  | .arrayOf element, _, .arrayOf helement => congrArg TypeRef.arrayOf (eq_type h element helement)
  | .unsupported _, _, .unsupported _ => rfl
  | .unsupported _, _, .kept hrun => congrArg TypeRef.unsupported (h.eq_text hrun)
termination_by structural type => type

theorem eq_types (h : pair.Shifted) : (types : List TypeRef) → ∀ {types' : List TypeRef},
    List.Forall₂ pair.SameType types types' → types = types'
  | [], _, .nil => rfl
  | type :: types, _, .cons htype htypes =>
      congrArg₂ List.cons (eq_type h type htype) (eq_types h types htypes)
termination_by structural types => types

end

theorem eq_of_forall₂ {α : Type} {related : α → α → Prop}
    (heq : ∀ x x', related x x' → x = x') {xs xs' : List α} (h : List.Forall₂ related xs xs') :
    xs = xs' :=
  List.forall₂_eq_eq_eq ▸ h.imp heq

theorem eq_field (h : pair.Shifted) {field field' : Field} (hsame : pair.SameField field field') :
    field = field' := by
  obtain ⟨name, type, optional⟩ := field
  obtain ⟨rfl, htype, rfl⟩ := hsame
  rw [h.eq_type type htype]

theorem eq_member (h : pair.Shifted) {member member' : EnumMember}
    (hsame : pair.SameMember member member') : member = member' := by
  obtain ⟨name, value⟩ := member
  obtain ⟨name', value'⟩ := member'
  obtain ⟨hname, hvalue⟩ := hsame
  refine congrArg₂ EnumMember.mk hname ?_
  cases hvalue with
  | none => rfl
  | some hliteral =>
      cases hliteral with
      | written literal => rfl
      | computed hrun => rw [h.eq_text hrun]

theorem eq_body (h : pair.Shifted) {body body' : DeclarationBody} :
    pair.SameBody body body' → body = body'
  | .interface hfields =>
      congrArg DeclarationBody.interface (eq_of_forall₂ (fun _ _ => h.eq_field) hfields)
  | .alias htarget => congrArg DeclarationBody.alias (h.eq_type _ htarget)
  | .enumeration hmembers =>
      congrArg DeclarationBody.enumeration (eq_of_forall₂ (fun _ _ => h.eq_member) hmembers)
  | .namespace => rfl

theorem eq_declaration (h : pair.Shifted) {declaration declaration' : Declaration}
    (hsame : pair.SameDeclaration declaration declaration') : declaration = declaration' := by
  obtain ⟨name, body⟩ := declaration
  obtain ⟨name', body'⟩ := declaration'
  obtain ⟨hname, hbody⟩ := hsame
  exact congrArg₂ Declaration.mk hname (h.eq_body hbody)

/-- The declarations that are read from documents with the same tokens are equal. -/
theorem eq_declarations (h : pair.Shifted) {declarations declarations' : List Declaration}
    (hsame : List.Forall₂ pair.SameDeclaration declarations declarations') :
    declarations = declarations' :=
  eq_of_forall₂ (fun _ _ => h.eq_declaration) hsame

end Shifted

end Pair

end Specimen.Source
