import Mathlib
import Specimen.Proofs.Source.EndGap
import Specimen.Proofs.Source.RespacedBody

/-!
# Documents with other gaps

Blanks and comments do not change what is read: of two documents with the same tokens, and with
line breaks between the same ones, both are refused or both are read, and then as the same
declarations. The gap behind the last token may differ as well. That changes one thing: where a
document ends behind a property of an interface, the line break there decides which message
refuses it. Main statement: `declarationsOfText_of_sameTokens`.
-/

namespace Specimen.Source

/-- The documents have the same tokens, with line breaks between the same ones. What stands before
the first token and behind the last one does not count. -/
structure SameTokens (document document' : Tokens) : Prop where
  tokens : (document.tokens.map fun token => (token.kind, token.text))
    = document'.tokens.map fun token => (token.kind, token.text)
  lineBreaks : (document.tokens.tail.map fun token => hasLineBreak token.gap)
    = document'.tokens.tail.map fun token => hasLineBreak token.gap

namespace Pair

variable {pair : Pair} {ts ts' : List Token} {tail tail' : List Char}

theorem Beside.message_eq (h : pair.Beside ts ts') (cause : FaultCause) :
    Fault.message ⟨cause, ts⟩ = Fault.message ⟨cause, ts'⟩ := by
  cases h with
  | nil => rfl
  | cons _ htoken => simp only [Fault.message, htoken.text]

/-- The same place in both documents, which may be the start: nothing is said about the gap in front
of the first token. -/
inductive FromToken (pair : Pair) : List Token → List Token → Prop
  | nil : FromToken pair [] []
  | cons {first first' : Token} {rest rest' : List Token} (hfirst : first.Same first')
      (hrest : pair.Beside rest rest') : FromToken pair (first :: rest) (first' :: rest')

theorem Beside.fromToken (h : pair.Beside ts ts') : pair.FromToken ts ts' := by
  cases h with
  | nil => exact .nil
  | cons _ htoken hrest => exact .cons htoken.toSame hrest

section First

variable {first first' : Token} {rest rest' : List Token} (hfirst : first.Same first')
  (hrest : pair.Beside rest rest')

include hfirst hrest

theorem beside_skipTree_cons :
    pair.Beside (skipTree (first :: rest)) (skipTree (first' :: rest')) := by
  simp only [skipTree, closeGroup, hfirst.kind]
  split
  · exact hrest
  · exact hrest.closeGroup _

theorem sameResult_declaration? (hend : hasLineBreak tail = hasLineBreak tail') :
    Option.Rel (pair.SameResult (pair.SameTaken pair.SameDeclaration))
      (declaration? tail first rest) (declaration? tail' first' rest') := by
  simp only [declaration?, hfirst.kind, hrest.startsWithWord_eq, hrest.startsWith_eq]
  generalize first'.kind = kind
  split
  · exact .some ((hrest.interfaceDeclaration hend).map fun _ _ h => ⟨h.value, h.rest⟩)
  · split
    · exact .some (hrest.aliasDeclaration.map fun _ _ h => ⟨h.value, h.rest⟩)
    · exact .none
  · exact .some (hrest.enumDeclaration.map fun _ _ h => ⟨h.value, h.rest⟩)
  · cases hrest with
    | nil => exact .none
    | cons _ hsecond hafter =>
        simp only [hsecond.kind]
        split
        · exact .some (hafter.enumDeclaration.map fun _ _ h => ⟨h.value, h.rest⟩)
        · exact .none
  · split
    · exact .some (hrest.namespaceDeclaration.map fun _ _ h => ⟨h.value, h.rest⟩)
    · exact .none
  · split
    · exact .some (hrest.namespaceDeclaration.map fun _ _ h => ⟨h.value, h.rest⟩)
    · exact .none
  · exact .none

end First

theorem FromToken.declarationsOfTokens {ts ts' : List Token} (h : pair.FromToken ts ts')
    (hend : hasLineBreak tail = hasLineBreak tail') :
    pair.SameResult (List.Forall₂ pair.SameDeclaration) (declarationsOfTokens tail ts)
      (declarationsOfTokens tail' ts') := by
  cases h with
  | nil =>
      rw [Source.declarationsOfTokens, Source.declarationsOfTokens]
      exact .ok .nil
  | @cons first first' rest rest' hfirst hrest =>
      rw [declarationsOfTokens_cons, declarationsOfTokens_cons]
      have hdeclaration := sameResult_declaration? hfirst hrest hend
      generalize declaration? tail first rest = result? at hdeclaration ⊢
      generalize declaration? tail' first' rest' = result?' at hdeclaration ⊢
      cases hdeclaration with
      | none =>
          have := length_skipTree_cons_lt first rest
          exact (beside_skipTree_cons hfirst hrest).fromToken.declarationsOfTokens hend
      | some hresult =>
          refine hresult.bind fun read read' hread => ?_
          have := read.shorter
          refine (hread.rest.fromToken.declarationsOfTokens hend).map fun _ _ h => ?_
          exact .cons hread.value h
termination_by ts.length
decreasing_by all_goals subst_vars; assumption

end Pair

/-! ## Documents as a whole -/

/-- The tokens of two documents. -/
abbrev Tokens.pair (document document' : Tokens) : Pair :=
  ⟨document.tokens, document'.tokens⟩

section Documents

variable {document document' : Tokens} {text text' : String}

theorem forall₂_of_map_eq {α β : Type} {f : α → β} {xs xs' : List α} (h : xs.map f = xs'.map f) :
    List.Forall₂ (fun x x' => f x = f x') xs xs' := by
  rw [← List.forall₂_eq_eq_eq] at h
  exact List.forall₂_map_right_iff.mp (List.forall₂_map_left_iff.mp h)

theorem SameTokens.fromToken (h : SameTokens document document') :
    (document.pair document').FromToken document.tokens document'.tokens := by
  have htokens := forall₂_of_map_eq h.tokens
  have hbreaks := forall₂_of_map_eq h.lineBreaks
  obtain ⟨tokens, tail⟩ := document
  obtain ⟨tokens', tail'⟩ := document'
  cases htokens with
  | nil => exact .nil
  | cons hfirst hrest =>
      refine .cons ⟨congrArg Prod.fst hfirst, congrArg Prod.snd hfirst⟩
        ⟨List.suffix_cons _ _, List.suffix_cons _ _, hrest.mp ?_ hbreaks⟩
      exact fun _ _ hsame hbreak =>
        ⟨⟨congrArg Prod.fst hsame, congrArg Prod.snd hsame⟩, hbreak⟩

theorem Pair.SameResult.endGap_right {α α' : Type} {pair : Pair} {related : α → α' → Prop}
    {result : Except Fault α} {early late : Except Fault α'}
    (h : pair.SameResult related result early) (hgap : EndGap MissesBrace early late) :
    pair.SameResult related result late
      ∨ result = refuse (.token (.mark .semicolon)) [] ∧ MissesBrace late := by
  cases hgap with
  | same => exact .inl h
  | missed hbrace =>
      cases h with
      | error hplace =>
        exact .inr ⟨by rw [List.forall₂_nil_right_iff.mp hplace.same, refuse], hbrace⟩

theorem Pair.SameResult.endGap_left {α α' : Type} {pair : Pair} {related : α → α' → Prop}
    {result : Except Fault α'} {early late : Except Fault α}
    (h : pair.SameResult related early result) (hgap : EndGap MissesBrace early late) :
    pair.SameResult related late result
      ∨ result = refuse (.token (.mark .semicolon)) [] ∧ MissesBrace late := by
  cases hgap with
  | same => exact .inl h
  | missed hbrace =>
      cases h with
      | error hplace => exact .inr ⟨by rw [hplace.eq_nil, refuse], hbrace⟩

/-- Both readers are refused at the end: the first one, without a line break there, for a missing
separator, the second one, with a line break, for a missing brace. -/
structure RefusedAtEnd {α : Type} (tail tail' : List Char) (result result' : Except Fault α) :
    Prop where
  unbroken : hasLineBreak tail = false
  broken : hasLineBreak tail' = true
  separator : result = refuse (.token (.mark .semicolon)) []
  brace : MissesBrace result'

theorem SameTokens.declarationsOfTokens (h : SameTokens document document') :
    (document.pair document').SameResult
        (List.Forall₂ (document.pair document').SameDeclaration)
        (declarationsOfTokens document.tail document.tokens)
        (declarationsOfTokens document'.tail document'.tokens)
      ∨ RefusedAtEnd document.tail document'.tail
        (declarationsOfTokens document.tail document.tokens)
        (declarationsOfTokens document'.tail document'.tokens)
      ∨ RefusedAtEnd document'.tail document.tail
        (declarationsOfTokens document'.tail document'.tokens)
        (declarationsOfTokens document.tail document.tokens) := by
  have hsame (tail : List Char) :
      (document.pair document').SameResult
        (List.Forall₂ (document.pair document').SameDeclaration)
        (Source.declarationsOfTokens tail document.tokens)
        (Source.declarationsOfTokens tail document'.tokens) :=
    h.fromToken.declarationsOfTokens rfl
  -- with the same gap at the end first, and then with the other one
  cases hbreak : hasLineBreak document.tail <;> cases hbreak' : hasLineBreak document'.tail
  case false.false | true.true =>
    exact .inl (h.fromToken.declarationsOfTokens (hbreak.trans hbreak'.symm))
  case false.true =>
    have hgap := endGap_declarationsOfTokens hbreak hbreak' document'.tokens
    refine ((hsame document.tail).endGap_right hgap).imp id fun hend => .inl ?_
    exact ⟨hbreak, hbreak', hend.1, hend.2⟩
  case true.false =>
    have hgap := endGap_declarationsOfTokens hbreak' hbreak document.tokens
    refine ((hsame document'.tail).endGap_left hgap).imp id fun hend => .inr ?_
    exact ⟨hbreak', hbreak, hend.1, hend.2⟩

/-- The reports of documents that are refused at the end. The first document has no line break
there, the second one has one. -/
structure ReportedAtEnd (document document' : Tokens) (error error' : DocumentError) : Prop where
  unbroken : hasLineBreak document.tail = false
  broken : hasLineBreak document'.tail = true
  separator : error.message = "expected `;`, found end of input"
  brace : ∃ name, error'.message = "unclosed body of interface `" ++ name ++ "`"

/-- Both documents are read as the same declarations, up to the gaps in texts that are kept, or both
are refused, with the same message unless that happens at the end. -/
inductive SameOutcome (document document' : Tokens) :
    Except DocumentError (List Declaration) → Except DocumentError (List Declaration) → Prop
  | read {declarations declarations' : List Declaration}
      (h : List.Forall₂ (document.pair document').SameDeclaration declarations declarations') :
      SameOutcome document document' (.ok declarations) (.ok declarations')
  | refused {error error' : DocumentError} (h : error.message = error'.message) :
      SameOutcome document document' (.error error) (.error error')
  | refusedAtEnd {error error' : DocumentError}
      (h : ReportedAtEnd document document' error error'
        ∨ ReportedAtEnd document' document error' error) :
      SameOutcome document document' (.error error) (.error error')

/-- The declarations of a document depend on its tokens and on the line breaks between them. -/
theorem declarationsOfText_of_sameTokens
    (h : SameTokens (.ofText text.toList) (.ofText text'.toList)) :
    SameOutcome (.ofText text.toList) (.ofText text'.toList) (declarationsOfText text)
      (declarationsOfText text') := by
  have hcases := h.declarationsOfTokens
  unfold declarationsOfText
  dsimp only
  generalize Tokens.ofText text.toList = document at hcases ⊢
  generalize Tokens.ofText text'.toList = document' at hcases ⊢
  generalize declarationsOfTokens document.tail document.tokens = result at hcases ⊢
  generalize declarationsOfTokens document'.tail document'.tokens = result' at hcases ⊢
  rcases hcases with hsame | hend | hend
  · cases hsame with
    | ok h => exact .read h
    | error h => exact .refused (h.message_eq _)
  · obtain ⟨hbreak, hbreak', rfl, name, rfl⟩ := hend
    exact .refusedAtEnd (.inl ⟨hbreak, hbreak', rfl, name, rfl⟩)
  · obtain ⟨hbreak, hbreak', rfl, name, rfl⟩ := hend
    exact .refusedAtEnd (.inr ⟨hbreak, hbreak', rfl, name, rfl⟩)

end Documents

/-- A comment inside a union shows in its text only. -/
theorem declarationsOfText_of_sameTokens_union :
    let text := "type A=B|C"
    let text' := "type A = B/*or*/|C\n"
    SameTokens (.ofText text.toList) (.ofText text'.toList)
      ∧ declarationsOfText text = .ok [⟨"A", .alias (.unsupported "B|C")⟩]
      ∧ declarationsOfText text' = .ok [⟨"A", .alias (.unsupported "B/*or*/|C")⟩]
      ∧ SameOutcome (.ofText text.toList) (.ofText text'.toList) (declarationsOfText text)
        (declarationsOfText text') := by
  intro text text'
  have htokens : Tokens.ofText text.toList =
      ⟨[⟨.keyword .type, [], ['t', 'y', 'p', 'e'], 0⟩, ⟨.identifier, [' '], ['A'], 5⟩,
        ⟨.mark .equals, [], ['='], 6⟩, ⟨.identifier, [], ['B'], 7⟩, ⟨.mark .pipe, [], ['|'], 8⟩,
        ⟨.identifier, [], ['C'], 9⟩], []⟩ := by
    dsimp only [text]
    cbv
  have htokens' : Tokens.ofText text'.toList =
      ⟨[⟨.keyword .type, [], ['t', 'y', 'p', 'e'], 0⟩, ⟨.identifier, [' '], ['A'], 5⟩,
        ⟨.mark .equals, [' '], ['='], 7⟩, ⟨.identifier, [' '], ['B'], 9⟩,
        ⟨.mark .pipe, ['/', '*', 'o', 'r', '*', '/'], ['|'], 16⟩, ⟨.identifier, [], ['C'], 17⟩],
        ['\n']⟩ := by
    dsimp only [text']
    cbv
  have hsame : SameTokens (.ofText text.toList) (.ofText text'.toList) := by
    rw [htokens, htokens']
    exact ⟨rfl, rfl⟩
  refine ⟨hsame, ?_, ?_, declarationsOfText_of_sameTokens hsame⟩
  · rw [declarationsOfText, htokens]
    cbv
  · rw [declarationsOfText, htokens']
    cbv

/-- A line break behind the last token changes the message of a refused document. -/
theorem message_of_lineBreak_at_end :
    let text := "interface A \x7b x"
    let text' := "interface A \x7b x\n"
    SameTokens (.ofText text.toList) (.ofText text'.toList)
      ∧ declarationsOfText text = .error ⟨"expected `;`, found end of input", ⟨1, 16⟩⟩
      ∧ declarationsOfText text' = .error ⟨"unclosed body of interface `A`", ⟨2, 1⟩⟩ := by
  intro text text'
  let tokens : List Token :=
    [⟨.keyword .interface, [], ['i', 'n', 't', 'e', 'r', 'f', 'a', 'c', 'e'], 0⟩,
      ⟨.identifier, [' '], ['A'], 10⟩, ⟨.mark .openBrace, [' '], ['\x7b'], 12⟩,
      ⟨.identifier, [' '], ['x'], 14⟩]
  have htokens : Tokens.ofText text.toList = ⟨tokens, []⟩ := by
    dsimp only [text, tokens]
    cbv
  have htokens' : Tokens.ofText text'.toList = ⟨tokens, ['\n']⟩ := by
    dsimp only [text', tokens]
    cbv
  have hresult : declarationsOfTokens [] tokens
      = .error ⟨.expected (.token (.mark .semicolon)), []⟩ := by
    dsimp only [tokens]
    cbv
  have hresult' : declarationsOfTokens ['\n'] tokens
      = .error ⟨.unclosedInterface "A", []⟩ := by
    dsimp only [tokens]
    cbv
  simp only [declarationsOfText, htokens, htokens', hresult, hresult']
  exact ⟨⟨rfl, rfl⟩, congrArg Except.error (by decide +kernel),
    congrArg Except.error (by decide +kernel)⟩

end Specimen.Source
