import Specimen.Proofs.Source.ContinuedBody
import Specimen.Proofs.Source.RespacedDocument

/-!
# Declarations among other statements

Statements that declare no type may stand before, between and behind the declarations of a
document. They are passed over one token or one bracketed group at a time, without a notion of
where a statement ends; still no declaration is lost, because no declaration reads on into them
and the words that start a declaration do not occur outside their brackets. Main statement:
`declarationsOfText_of_interspersed`.
-/

namespace Specimen.Source

/-! ## Tokens that are passed over -/

/-- The words that start or modify a declaration, but for `const`, which stands in front of values,
too. -/
def declaringWords : List Keyword :=
  [.interface, .type, .enum, .namespace, .module, .export, .default, .declare]

/-- The tokens belong to other statements: their brackets are balanced and hold every word that
starts a declaration. -/
def IsOther (ts : List Token) : Prop :=
  IsBalanced (fun kind => !(declaringWords.map TokenKind.keyword).contains kind) ts

/-- Only `const` starts a declaration from among other statements. -/
theorem declaration?_of_isOther {tail : List Char} {token : Token} {rest : List Token}
    (h : IsOther (token :: rest)) (hconst : token.kind ≠ .keyword .const) (more : List Token) :
    declaration? tail token more = none := by
  have hallowed := h.allowed_head.2
  unfold declaration?
  split
  all_goals simp_all [declaringWords]

theorem skipTree_const {token : Token} (h : token.kind = .keyword .const) (ts : List Token) :
    skipTree (token :: ts) = ts :=
  skipTree_of_isOpening (by simp [h, TokenKind.isOpening]) ts

/-- The word `const` changes nothing: what it may stand in front of is a declaration without it,
too. -/
theorem declarationsOfTokens_const {tail : List Char} {token : Token}
    (h : token.kind = .keyword .const) (ts : List Token) :
    declarationsOfTokens tail (token :: ts) = declarationsOfTokens tail ts := by
  rw [declarationsOfTokens_cons, skipTree_const h]
  cases ts with
  | nil => simp [declaration?, h]
  | cons second rest =>
      by_cases henum : second.kind = .keyword .enum
      · rw [declarationsOfTokens_cons]
        simp only [declaration?, h, henum, if_true]
        cases enumDeclaration rest <;> rfl
      · simp [declaration?, h, henum]

/-- Other statements are passed over, whatever follows them. -/
theorem declarationsOfTokens_other {tail : List Char} {ts : List Token} (h : IsOther ts)
    (more : List Token) :
    declarationsOfTokens tail (ts ++ more) = declarationsOfTokens tail more := by
  cases ts with
  | nil => rfl
  | cons token rest =>
      obtain ⟨later, hskip, hother, hshort⟩ := h.exists_skipTree more
      have hlater : declarationsOfTokens tail (later ++ more) = declarationsOfTokens tail more :=
        declarationsOfTokens_other hother more
      rw [List.cons_append] at hskip ⊢
      by_cases hconst : token.kind = .keyword .const
      · rw [declarationsOfTokens_const hconst, ← hlater, ← hskip, skipTree_const hconst]
      · rw [declarationsOfTokens_cons, declaration?_of_isOther h hconst, ← hlater, ← hskip]
termination_by ts.length
decreasing_by subst_vars; exact hshort

/-! ## Declarations that are written to their end -/

/-- The last token of a declaration: the semicolon of an alias, the brace of any other body. -/
def endMark : DeclarationBody → Mark
  | .alias _ => .semicolon
  | _ => .closeBrace

theorem endMark_ne_dot (body : DeclarationBody) : endMark body ≠ .dot := by
  cases body <;> exact nofun

theorem endMark_of_aliasDeclaration {ts : List Token} {read : Taken ts Declaration}
    (h : aliasDeclaration ts = .ok read) : endMark read.value.body = .semicolon := by
  obtain ⟨name, -, h⟩ := exists_of_bind h
  obtain ⟨equals, -, h⟩ := exists_of_bind h
  obtain ⟨target, -, h⟩ := exists_of_bind h
  cases h
  rfl

theorem suffix_declaration? {tail : List Char} {first : Token} {rest : List Token}
    {read : Taken (first :: rest) Declaration}
    (h : declaration? tail first rest = some (.ok read)) : read.rest <:+ rest := by
  have hrest : Pair.Beside ⟨rest, rest⟩ rest rest :=
    ⟨List.suffix_refl _, List.suffix_refl _, List.forall₂_same.mpr fun _ _ => ⟨⟨rfl, rfl⟩, rfl⟩⟩
  have hfirst : first.Same first := ⟨rfl, rfl⟩
  have hsame := Pair.sameResult_declaration? hfirst hrest (rfl : hasLineBreak tail = _)
  rw [h] at hsame
  cases hsame with
  | some hsame =>
      cases hsame with
      | ok hsame => exact hsame.rest.left

/-- The same tokens, with `more` behind them in the second list. The first tokens may stand behind
different gaps. -/
inductive ContinuesFrom (more : List Token) : List Token → List Token → Prop
  | nil : ContinuesFrom more [] more
  | cons {first first' : Token} {rest rest' : List Token} (hfirst : first.Same first')
      (hrest : Continues more rest rest') : ContinuesFrom more (first :: rest) (first' :: rest')

theorem Continues.from {more ts ts' : List Token} (h : Continues more ts ts') :
    ContinuesFrom more ts ts' := by
  cases h with
  | nil => exact .nil
  | cons htoken _ hrest => exact .cons htoken.toSame hrest

/-- The declaration that the first reader gives is read in the same way by the second one, if its
last token is the given mark. -/
def ReadsOn (mark : Mark) (more : List Token) {ts ts' : List Token}
    (result : Except Fault (Taken ts Declaration))
    (result' : Except Fault (Taken ts' Declaration)) : Prop :=
  ∀ read, result = .ok read → endMark read.value.body = mark → Gives (SameRead more read) result'

theorem ReadsOn.behind {mark : Mark} {more ts ts' : List Token}
    {result : Except Fault (Taken ts Declaration)} {result' : Except Fault (Taken ts' Declaration)}
    (h : ReadsOn mark more result result') (first first' : Token) :
    ReadsOn mark more (result.map (·.behind first)) (result'.map (·.behind first')) := by
  intro read hread hmark
  obtain ⟨plain, hplain, rfl⟩ := exists_of_map hread
  exact (h plain hplain hmark).map fun _ hsame => ⟨hsame.value, hsame.rest⟩

section First

variable {more rest rest' : List Token} {first first' : Token} (hfirst : first.Same first')
  (hrest : Continues more rest rest')

include hfirst hrest

theorem continuesFrom_skipTree_cons (hends : endsGroup 0 (first :: rest) = true) :
    ContinuesFrom more (skipTree (first :: rest)) (skipTree (first' :: rest')) := by
  unfold skipTree
  by_cases hinner : first.kind.depthAfter 0 = 0
  · rw [closeGroup_cons_of_eq_zero hinner, closeGroup_cons_of_eq_zero (hfirst.kind ▸ hinner)]
    exact hrest.from
  · rw [closeGroup_cons_of_ne_zero hinner, closeGroup_cons_of_ne_zero (hfirst.kind ▸ hinner),
      ← hfirst.kind]
    refine (hrest.closeGroup ?_).from
    simpa [endsGroup, hinner] using hends

/-- A declaration starts in both lists or in neither, and it is read in the same way. -/
theorem rel_declaration? {mark : Mark} (tail tail' : List Char) (hclosed : IsClosed rest)
    (hlast : EndsIn mark (first :: rest)) :
    Option.Rel (ReadsOn mark more) (declaration? tail first rest)
      (declaration? tail' first' rest') := by
  have hne (hword : first.kind.isWord = true) : rest ≠ [] :=
    hlast.ne_nil (TokenKind.ne_mark_of_isWord hword mark)
  have hlater := hlast.of_suffix (List.suffix_cons first rest)
  have hnamespace : ReadsOn mark more (namespaceDeclaration rest) (namespaceDeclaration rest') :=
    fun _ hread _ => hrest.namespaceDeclaration hread hclosed hlater
  have halias : ReadsOn mark more (aliasDeclaration rest) (aliasDeclaration rest') := by
    intro read hread hmark
    rw [endMark_of_aliasDeclaration hread] at hmark
    subst hmark
    exact hrest.aliasDeclaration hread hclosed hlater
  simp only [declaration?, ← hfirst.kind]
  generalize first.kind = kind at hne ⊢
  split
  · have hread :
        ReadsOn mark more (interfaceDeclaration tail rest) (interfaceDeclaration tail' rest') :=
      fun _ hread _ => hrest.interfaceDeclaration tail' hread
    exact .some (hread.behind first first')
  · rw [← hrest.startsWithWord_eq (hne rfl)]
    split
    · exact .some (halias.behind first first')
    · exact .none
  · have hread : ReadsOn mark more (enumDeclaration rest) (enumDeclaration rest') :=
      fun _ hread _ => hrest.enumDeclaration hread
    exact .some (hread.behind first first')
  · cases hrest with
    | nil => exact absurd rfl (hne rfl)
    | cons hsecond _ hafter =>
        simp only [← hsecond.kind]
        split
        · refine .some fun read hread _ => ?_
          obtain ⟨plain, hplain, rfl⟩ := exists_of_map hread
          exact (hafter.enumDeclaration hplain).map fun _ hsame => ⟨hsame.value, hsame.rest⟩
        · exact .none
  · rw [← hrest.startsWithWord_eq (hne rfl), ← hrest.startsWith_eq (hne rfl)]
    split
    · exact .some (hnamespace.behind first first')
    · exact .none
  · rw [← hrest.startsWithWord_eq (hne rfl), ← hrest.startsWith_eq (hne rfl)]
    split
    · exact .some (hnamespace.behind first first')
    · exact .none
  · exact .none

end First

/-- Declarations that are written to their end are read in the same way when the list goes on, and
what is behind them is read from its start. -/
theorem ContinuesFrom.declarationsOfTokens {mark : Mark} {more ts ts' : List Token}
    {tail tail' : List Char} {declarations : List Declaration} (h : ContinuesFrom more ts ts')
    (hread : declarationsOfTokens tail ts = .ok declarations) (hclosed : IsClosed ts)
    (hlast : EndsIn mark ts)
    (hmark : ∀ declaration ∈ declarations, endMark declaration.body = mark) :
    declarationsOfTokens tail' ts'
      = (declarationsOfTokens tail' more).map (declarations ++ ·) := by
  cases h with
  | nil =>
      rw [Source.declarationsOfTokens] at hread
      cases hread
      cases Source.declarationsOfTokens tail' more <;> rfl
  | @cons first first' rest rest' hfirst hrest =>
      rw [declarationsOfTokens_cons] at hread ⊢
      have hafter : rest <:+ first :: rest := List.suffix_cons first rest
      have hrel := rel_declaration? hfirst hrest tail tail' (hclosed.of_suffix hafter) hlast
      cases hdeclaration : declaration? tail first rest with
      | none =>
          rw [hdeclaration] at hrel hread
          have hends : endsGroup 0 (first :: rest) = true := endsGroup_of_depthThrough hclosed
          have hsuffix := (closing_skipTree hends).suffix
          have := length_skipTree_cons_lt first rest
          generalize declaration? tail' first' rest' = result? at hrel ⊢
          cases hrel
          exact (continuesFrom_skipTree_cons hfirst hrest hends).declarationsOfTokens hread
            (hclosed.of_suffix hsuffix) (hlast.of_suffix hsuffix) hmark
      | some result =>
          rw [hdeclaration] at hrel hread
          obtain ⟨read, rfl, hread⟩ := exists_of_bind hread
          obtain ⟨others, hothers, rfl⟩ := exists_of_map hread
          have hsuffix := (suffix_declaration? hdeclaration).trans hafter
          have := read.shorter
          generalize declaration? tail' first' rest' = result? at hrel ⊢
          cases hrel with
          | some hgives =>
              cases hgives read rfl (hmark _ List.mem_cons_self) with
              | @ok read' hsame =>
                  have hlater : Source.declarationsOfTokens tail' read'.rest
                      = (Source.declarationsOfTokens tail' more).map (others ++ ·) :=
                    hsame.rest.from.declarationsOfTokens hothers (hclosed.of_suffix hsuffix)
                      (hlast.of_suffix hsuffix)
                      fun other hother => hmark other (List.mem_cons_of_mem _ hother)
                  show (Source.declarationsOfTokens tail' read'.rest).map (read'.value :: ·) = _
                  rw [hlater, ← hsame.value]
                  cases Source.declarationsOfTokens tail' more <;> rfl
termination_by ts.length

/-! ## Documents -/

/-- Tokens that are read by themselves as one declaration, with all brackets closed and with the
semicolon or the brace at their end. -/
structure Complete (ts : List Token) (declaration : Declaration) : Prop where
  read : ∃ tail, declarationsOfTokens tail ts = .ok [declaration]
  closed : IsClosed ts
  last : EndsIn (endMark declaration.body) ts

/-- The same tokens with the same gaps between them. They may stand at different places. -/
inductive SameInside : List Token → List Token → Prop
  | nil : SameInside [] []
  | cons {first first' : Token} {rest rest' : List Token} (hfirst : first.Same first')
      (hrest : List.Forall₂ Token.SameWithGap rest rest') :
      SameInside (first :: rest) (first' :: rest')

theorem SameInside.refl (ts : List Token) : SameInside ts ts := by
  cases ts with
  | nil => exact .nil
  | cons first rest =>
      exact .cons ⟨rfl, rfl⟩ (List.forall₂_same.mpr fun _ _ => ⟨⟨rfl, rfl⟩, rfl⟩)

/-- A declaration that is written to its end is read wherever it stands. -/
theorem Complete.declarationsOfTokens {front front' : List Token} {declaration : Declaration}
    (h : Complete front declaration) (hsame : SameInside front front') (tail : List Char)
    (more : List Token) :
    declarationsOfTokens tail (front' ++ more)
      = (declarationsOfTokens tail more).map (declaration :: ·) := by
  obtain ⟨⟨tail₀, hread⟩, hclosed, hlast⟩ := h
  have hcontinues : ContinuesFrom more front (front' ++ more) := by
    cases hsame with
    | nil => exact .nil
    | @cons first first' rest rest' hfirst hrest =>
        have hafter := hlast.of_suffix (List.suffix_cons first rest)
        exact .cons hfirst (continues_of_forall₂ hrest hafter (endMark_ne_dot _) more)
  refine hcontinues.declarationsOfTokens hread hclosed hlast fun other hother => ?_
  rw [List.mem_singleton.mp hother]

/-- The first list holds the declarations of the second one among other statements: before, between
and behind them. -/
inductive Interspersed : List Token → List Token → List Declaration → Prop
  | nil : Interspersed [] [] []
  | other {run ts us : List Token} {declarations : List Declaration} (hrun : IsOther run)
      (h : Interspersed ts us declarations) : Interspersed (run ++ ts) us declarations
  | declaration {front front' ts us : List Token} {declaration : Declaration}
      {declarations : List Declaration} (hfront : Complete front declaration)
      (hsame : SameInside front front') (h : Interspersed ts us declarations) :
      Interspersed (front' ++ ts) (front ++ us) (declaration :: declarations)

theorem Interspersed.declarationsOfTokens {ts us : List Token} {declarations : List Declaration}
    (h : Interspersed ts us declarations) (tail tail' : List Char) :
    declarationsOfTokens tail ts = .ok declarations
      ∧ declarationsOfTokens tail' us = .ok declarations := by
  induction h with
  | nil =>
      rw [Source.declarationsOfTokens, Source.declarationsOfTokens]
      exact ⟨rfl, rfl⟩
  | other hrun h ih =>
      rw [declarationsOfTokens_other hrun]
      exact ih
  | declaration hfront hsame h ih =>
      rw [hfront.declarationsOfTokens hsame, hfront.declarationsOfTokens (.refl _), ih.1, ih.2]
      exact ⟨rfl, rfl⟩

/-- Other statements among the declarations of a document change nothing: no declaration is lost,
and none is read that is not there without them. -/
theorem declarationsOfText_of_interspersed {text text' : String} {declarations : List Declaration}
    (h : Interspersed (Tokens.ofText text.toList).tokens (Tokens.ofText text'.toList).tokens
      declarations) :
    declarationsOfText text = .ok declarations ∧ declarationsOfText text' = .ok declarations := by
  obtain ⟨hread, hread'⟩ := h.declarationsOfTokens _ _
  unfold declarationsOfText
  dsimp only
  rw [hread, hread']
  exact ⟨rfl, rfl⟩

/-- A call in front of an interface, and the start of a value behind it. -/
theorem declarationsOfText_of_interspersed_call :
    let text := "f(\x7btype: 1\x7d) interface A \x7b\x7d const c"
    let text' := "interface A \x7b\x7d"
    let declarations : List Declaration := [⟨"A", .interface []⟩]
    Interspersed (Tokens.ofText text.toList).tokens (Tokens.ofText text'.toList).tokens declarations
      ∧ declarationsOfText text = .ok declarations
      ∧ declarationsOfText text' = .ok declarations := by
  intro text text' declarations
  let call : List Token :=
    [⟨.identifier, [], ['f'], 0⟩, ⟨.mark .openParen, [], ['('], 1⟩,
     ⟨.mark .openBrace, [], ['\x7b'], 2⟩,
      ⟨.keyword .type, [], ['t', 'y', 'p', 'e'], 3⟩, ⟨.mark .colon, [], [':'], 7⟩,
      ⟨.number, [' '], ['1'], 9⟩, ⟨.mark .closeBrace, [], ['\x7d'], 10⟩,
      ⟨.mark .closeParen, [], [')'], 11⟩]
  let value : List Token :=
    [⟨.keyword .const, [' '], ['c', 'o', 'n', 's', 't'], 28⟩, ⟨.identifier, [' '], ['c'], 34⟩]
  let inner : List Token :=
    [⟨.keyword .interface, [' '], ['i', 'n', 't', 'e', 'r', 'f', 'a', 'c', 'e'], 13⟩,
      ⟨.identifier, [' '], ['A'], 23⟩, ⟨.mark .openBrace, [' '], ['\x7b'], 25⟩,
      ⟨.mark .closeBrace, [], ['\x7d'], 26⟩]
  let alone : List Token :=
    [⟨.keyword .interface, [], ['i', 'n', 't', 'e', 'r', 'f', 'a', 'c', 'e'], 0⟩,
      ⟨.identifier, [' '], ['A'], 10⟩, ⟨.mark .openBrace, [' '], ['\x7b'], 12⟩,
      ⟨.mark .closeBrace, [], ['\x7d'], 13⟩]
  have htokens : (Tokens.ofText text.toList).tokens = call ++ (inner ++ (value ++ [])) := by
    dsimp only [text, call, inner, value]
    cbv
  have htokens' : (Tokens.ofText text'.toList).tokens = alone ++ [] := by
    dsimp only [text', alone]
    cbv
  have hread : declarationsOfTokens [] alone = .ok [⟨"A", .interface []⟩] := by
    dsimp only [alone]
    cbv
  have hcomplete : Complete alone ⟨"A", .interface []⟩ :=
    ⟨⟨[], hread⟩, rfl, by rintro token ⟨⟩; rfl⟩
  have hsame : SameInside alone inner :=
    .cons ⟨rfl, rfl⟩
      (.cons ⟨⟨rfl, rfl⟩, rfl⟩ (.cons ⟨⟨rfl, rfl⟩, rfl⟩ (.cons ⟨⟨rfl, rfl⟩, rfl⟩ .nil)))
  have h : Interspersed (Tokens.ofText text.toList).tokens (Tokens.ofText text'.toList).tokens
      declarations := by
    rw [htokens, htokens']
    exact .other rfl (.declaration hcomplete hsame (.other rfl .nil))
  exact ⟨h, declarationsOfText_of_interspersed h⟩

end Specimen.Source
