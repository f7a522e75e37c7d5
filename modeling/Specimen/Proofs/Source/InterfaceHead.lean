import Specimen.Proofs.Source.Interspersed
import Specimen.Proofs.Source.RoundTrip
import Specimen.Proofs.Source.Shifted

/-!
# Type parameters and heritage

Between the name of an interface and its body there may be a list of type parameters and the types
that the interface extends (`IsHeading`). Neither shows in the declaration. The list is passed over
by counting: angle brackets one by one, and other groups as a whole, so an angle bracket inside of a
group does not count, and neither does an arrow. The types are read, and they end where the body
begins. Main statement: `declarationsOfText_of_heading`.
-/

namespace Specimen.Source

/-! ## Headings -/

/-- Angle brackets are balanced outside of all other groups, and inside of these all other brackets
are. -/
inductive IsAngled : List Token → Prop
  | nil : IsAngled []
  | plain {token : Token} {rest : List Token} (hopen : token.kind.isOpening = false)
      (hclose : token.kind.isClosing = false) (hless : token.kind ≠ .mark .less)
      (hgreater : token.kind ≠ .mark .greater) (hrest : IsAngled rest) : IsAngled (token :: rest)
  | group {opening close : Token} {inner rest : List Token} (hopen : opening.kind.isOpening = true)
      (hinner : IsBalanced (fun _ => true) inner) (hclose : close.kind.isClosing = true)
      (hrest : IsAngled rest) : IsAngled (opening :: (inner ++ close :: rest))
  | angles {less greater : Token} {inner rest : List Token} (hless : less.kind = .mark .less)
      (hinner : IsAngled inner) (hgreater : greater.kind = .mark .greater) (hrest : IsAngled rest) :
      IsAngled (less :: (inner ++ greater :: rest))

/-- A list of type parameters in its angle brackets. -/
inductive IsParameters : List Token → Prop
  | angles {less greater : Token} {inner : List Token} (hless : less.kind = .mark .less)
      (hinner : IsAngled inner) (hgreater : greater.kind = .mark .greater) :
      IsParameters (less :: (inner ++ [greater]))

/-- The tokens of types with commas between them. -/
def typeListShapes : List TypeRef → List Shape
  | [] => []
  | [type] => typeShapes type
  | type :: types => typeShapes type ++ markShape .comma :: typeListShapes types

/-- The types that an interface extends, behind their keyword. -/
inductive IsClause : List Token → Prop
  | extends {word : Token} {ts : List Token} {types : List TypeRef}
      (hword : word.kind = .keyword .extends) (hsome : types ≠ [])
      (hplain : ∀ type ∈ types, isPlain type = true)
      (hts : ts.map Token.shape = typeListShapes types) : IsClause (word :: ts)

/-- What may stand between the name of an interface and its body. -/
inductive IsHeading : List Token → Prop
  | parts {parameters clause : List Token} (hparameters : parameters = [] ∨ IsParameters parameters)
      (hclause : clause = [] ∨ IsClause clause) : IsHeading (parameters ++ clause)

/-! ## Passing over type parameters -/

/-- From inside of a group one comes to its end. -/
theorem closeGroup_of_isBalancedFrom {allowed : TokenKind → Bool} {depth : Nat} {inner : List Token}
    {close : Token} (h : isBalancedFrom allowed depth inner = true)
    (hclose : close.kind.isClosing = true) (rest : List Token) :
    closeGroup (depth + 1) (inner ++ close :: rest) = rest := by
  induction inner generalizing depth with
  | nil =>
      obtain rfl : depth = 0 := by simpa [isBalancedFrom] using h
      refine closeGroup_cons_of_eq_zero ?_
      simp [TokenKind.depthAfter, TokenKind.isOpening_of_isClosing hclose, hclose]
  | cons token inner ih =>
      obtain ⟨houtside, hinner⟩ := Bool.and_eq_true_iff.mp h
      -- a closing bracket stands inside of another group only
      have hdepth : token.kind.depthAfter (depth + 1) = token.kind.depthAfter depth + 1 := by
        have hnested : 0 < depth ∨ token.kind.isClosing = false := by
          rcases Bool.or_eq_true_iff.mp houtside with hdepth | houtside
          · exact .inl (of_decide_eq_true hdepth)
          · exact .inr (by simpa using (Bool.and_eq_true_iff.mp houtside).1)
        unfold TokenKind.depthAfter
        grind
      rw [List.cons_append, closeGroup_cons_of_ne_zero (by simp [hdepth]), hdepth]
      exact ih hinner

theorem skipTree_group {opening close : Token} {inner : List Token}
    (hopen : opening.kind.isOpening = true) (hinner : IsBalanced (fun _ => true) inner)
    (hclose : close.kind.isClosing = true) (rest : List Token) :
    skipTree (opening :: (inner ++ close :: rest)) = rest := by
  rw [skipTree_opening hopen]
  exact closeGroup_of_isBalancedFrom hinner hclose rest

/-- A balanced list leaves one as deep in angle brackets as one was. -/
theorem skipAngles_append {inner : List Token} (h : IsAngled inner) (depth : Nat)
    (rest : List Token) : skipAngles (depth + 1) (inner ++ rest) = skipAngles (depth + 1) rest := by
  induction h generalizing depth rest with
  | nil => rfl
  | @plain token more hopen _ hless hgreater _ ih =>
      rw [List.cons_append, skipAngles, if_neg hless, if_neg hgreater,
        if_neg (Nat.succ_ne_zero depth), skipTree_of_isOpening hopen]
      exact ih depth rest
  | @group opening close inner more hopen hinner hclose _ ih =>
      have hless : opening.kind ≠ .mark .less := by
        rintro hkind
        simp [hkind, TokenKind.isOpening] at hopen
      have hgreater : opening.kind ≠ .mark .greater := by
        rintro hkind
        simp [hkind, TokenKind.isOpening] at hopen
      rw [List.cons_append, List.append_assoc, List.cons_append, skipAngles, if_neg hless,
        if_neg hgreater, if_neg (Nat.succ_ne_zero depth), skipTree_group hopen hinner hclose]
      exact ih depth rest
  | @angles less greater inner more hless _ hgreater _ ihinner ih =>
      have hne : greater.kind ≠ .mark .less := by simp [hgreater]
      rw [List.cons_append, List.append_assoc, List.cons_append, skipAngles, if_pos hless,
        ihinner (depth + 1), skipAngles, if_neg hne, if_pos hgreater, Nat.add_sub_cancel,
        if_neg (Nat.succ_ne_zero depth)]
      exact ih depth rest

theorem skipTypeParameters_append {parameters : List Token} (h : IsParameters parameters)
    (rest : List Token) : skipTypeParameters (parameters ++ rest) = rest := by
  cases h with
  | @angles less greater inner hless hinner hgreater =>
      have hne : greater.kind ≠ .mark .less := by simp [hgreater]
      rw [List.cons_append, List.append_assoc, List.cons_append, List.nil_append,
        skipTypeParameters, if_pos hless, skipAngles, if_pos hless, skipAngles_append hinner,
        skipAngles, if_neg hne, if_pos hgreater, if_pos rfl]

/-! ## Reading the types -/

/-- The types are read up to the brace behind them. -/
theorem reads_heritage {types : List TypeRef} (hsome : types ≠ [])
    (hplain : ∀ type ∈ types, isPlain type = true) {ts rest : List Token} {brace : Token}
    (hbrace : brace.kind = .mark .openBrace)
    (hts : Spells (typeListShapes types) ts (brace :: rest)) :
    Reads (heritage ts) () (brace :: rest) := by
  induction types generalizing ts with
  | nil => exact absurd rfl hsome
  | cons type types ih =>
      have htype := hplain type List.mem_cons_self
      rw [heritage]
      cases types with
      | nil =>
          have hends : EndsType type (brace :: rest) := endsType_of_mark hbrace (by decide)
          refine (reads_typeExpr htype hts hends).bind fun _ => ?_
          dsimp only
          rw [if_neg (by simp [hbrace])]
          exact Reads.ok rfl rfl
      | cons second types =>
          obtain ⟨middle, hfirst, hmore⟩ := Spells.append_iff.mp hts
          obtain ⟨comma, middle, rfl, hcomma, -, hmore⟩ := Spells.cons_iff.mp hmore
          have hends : EndsType type (comma :: middle) := endsType_of_mark hcomma (by decide)
          have hlater := ih (List.cons_ne_nil second types)
            (fun other hother => hplain other (List.mem_cons_of_mem _ hother)) hmore
          refine (reads_typeExpr htype hfirst hends).bind fun _ => ?_
          dsimp only
          rw [if_pos hcomma]
          exact hlater.bind fun _ => Reads.ok rfl rfl

/-- Behind the name one comes to the brace of the body. -/
theorem skipHeritage_of_heading {heading : List Token} (h : IsHeading heading) {brace : Token}
    (hbrace : brace.kind = .mark .openBrace) (body : List Token) :
    ∃ hle, skipHeritage (skipTypeParameters (heading ++ brace :: body))
      = .ok ⟨brace :: body, hle⟩ := by
  cases h with
  | @parts parameters clause hparameters hclause =>
      have hskip : skipTypeParameters (parameters ++ clause ++ brace :: body)
          = clause ++ brace :: body := by
        rcases hparameters with rfl | hparameters
        · rcases hclause with rfl | ⟨hword, -, -, -⟩
          · exact if_neg (by simp [hbrace])
          · exact if_neg (by simp [hword])
        · rw [List.append_assoc, skipTypeParameters_append hparameters]
      rw [hskip]
      rcases hclause with rfl | ⟨hword, hsome, hplain, hts⟩
      · exact ⟨_, if_neg (by simp [hbrace])⟩
      · obtain ⟨hshort, hread⟩ := reads_heritage hsome hplain hbrace ⟨_, rfl, hts⟩
        refine ⟨Nat.le_of_lt (Nat.lt_trans hshort (length_lt_cons _ _)), ?_⟩
        simp only [List.cons_append, skipHeritage, if_pos hword, hread]
        rfl

/-! ## Interfaces -/

/-- What a reader gives and what it leaves. -/
def outcome {α : Type} {ts : List Token} (result : Except Fault (Taken ts α)) :
    Except Fault (α × List Token) :=
  result.map fun read => (read.value, read.rest)

/-- Whatever stands between the name and the body, the body is read from its own brace on and gives
the declaration. -/
theorem interfaceDeclaration_of_heading {heading : List Token} (h : IsHeading heading)
    {name brace : Token} (hname : name.kind.isWord = true) (hbrace : brace.kind = .mark .openBrace)
    (tail : List Char) (body : List Token) :
    outcome (interfaceDeclaration tail (name :: (heading ++ brace :: body)))
      = (outcome (interfaceBody tail (String.ofList name.text) body)).map fun read =>
          (⟨String.ofList name.text, .interface read.1⟩, read.2) := by
  obtain ⟨hle, hskip⟩ := skipHeritage_of_heading h hbrace body
  rw [interfaceDeclaration, expectWord, if_pos hname]
  dsimp only [bind, Except.bind, Taken.skipping, Taken.upTo, Taken.ofRemaining, Taken.one]
  rw [hskip]
  dsimp only
  rw [expect, if_pos hbrace]
  dsimp only [Taken.one]
  cases interfaceBody tail (String.ofList name.text) body <;> rfl

theorem isHeading_nil : IsHeading [] :=
  .parts (.inl rfl) (.inl rfl)

/-! ## Documents -/

/-- The tokens are read as the declarations, and then one comes to the interface behind them. -/
def LeadsToInterface (tail : List Char) (before : List Token) (earlier : List Declaration) : Prop :=
  ∀ keyword rest, keyword.kind = .keyword .interface →
    declarationsOfTokens tail (before ++ keyword :: rest)
      = (declarationsOfTokens tail (keyword :: rest)).map (earlier ++ ·)

/-- In the second text a heading stands behind the name of an interface. Otherwise the tokens are
the same, at other offsets from there on. -/
inductive PutsHeading (heading : List Token) (text text' : List Char) : Prop
  | behind {before body body' : List Token} {keyword name brace brace' : Token} {tail : List Char}
      {earlier : List Declaration} (hbefore : LeadsToInterface tail before earlier)
      (hkeyword : keyword.kind = .keyword .interface) (hname : name.kind.isWord = true)
      (hbrace : brace.kind = .mark .openBrace) (hbrace' : brace'.kind = .mark .openBrace)
      (hbody : List.Forall₂ Token.SameWithGap body body')
      (htokens : Tokens.ofText text = ⟨before ++ keyword :: name :: brace :: body, tail⟩)
      (htokens' : Tokens.ofText text'
        = ⟨before ++ keyword :: name :: (heading ++ brace' :: body'), tail⟩)

section Documents

variable {tail : List Char} {before body body' : List Token} {keyword name brace : Token}
  {earlier : List Declaration}

theorem declarationsOfTokens_modifiers {modifiers : List Token}
    (h : ∀ word ∈ modifiers, ∃ modifier : Modifier, word.kind = .keyword modifier.keyword)
    (rest : List Token) :
    declarationsOfTokens tail (modifiers ++ rest) = declarationsOfTokens tail rest := by
  induction modifiers with
  | nil => rfl
  | cons word modifiers ih =>
      obtain ⟨modifier, hword⟩ := h word List.mem_cons_self
      rw [List.cons_append, declarationsOfTokens_modifier tail hword]
      exact ih fun other hother => h other (List.mem_cons_of_mem _ hother)

/-- Declarations and other statements, and modifiers behind them, are read by themselves. -/
theorem Interspersed.declarationsOfTokens_append {us modifiers : List Token}
    (h : Interspersed before us earlier)
    (hmodifiers : ∀ word ∈ modifiers, ∃ modifier : Modifier, word.kind = .keyword modifier.keyword)
    (tail : List Char) (rest : List Token) :
    Source.declarationsOfTokens tail (before ++ modifiers ++ rest)
      = (Source.declarationsOfTokens tail rest).map (earlier ++ ·) := by
  induction h with
  | nil =>
      rw [List.nil_append, declarationsOfTokens_modifiers hmodifiers]
      cases Source.declarationsOfTokens tail rest <;> rfl
  | other hrun _ ih =>
      rw [List.append_assoc] at ih ⊢
      rw [List.append_assoc, declarationsOfTokens_other hrun, ih]
  | declaration hfront hsame _ ih =>
      rw [List.append_assoc] at ih ⊢
      rw [List.append_assoc, hfront.declarationsOfTokens hsame, ih]
      cases Source.declarationsOfTokens tail rest <;> rfl

/-- Declarations and other statements in front of an interface and its modifiers lead to it. -/
theorem Interspersed.leadsToInterface {us modifiers : List Token}
    (h : Interspersed before us earlier)
    (hmodifiers : ∀ word ∈ modifiers, ∃ modifier : Modifier, word.kind = .keyword modifier.keyword)
    (tail : List Char) : LeadsToInterface tail (before ++ modifiers) earlier :=
  fun keyword rest _ => h.declarationsOfTokens_append hmodifiers tail (keyword :: rest)

theorem declarationsOfTokens_interface (h : keyword.kind = .keyword .interface) (ts : List Token) :
    declarationsOfTokens tail (keyword :: ts)
      = outcome (interfaceDeclaration tail ts) >>= fun read =>
          (declarationsOfTokens tail read.2).map (read.1 :: ·) := by
  rw [declarationsOfTokens_cons, declaration?_of_interface h]
  cases interfaceDeclaration tail ts <;> rfl

/-- An interface with a heading and the declarations behind it, told by the body alone. -/
theorem declarationsOfTokens_of_heading {heading : List Token} (h : IsHeading heading)
    (hkeyword : keyword.kind = .keyword .interface) (hname : name.kind.isWord = true)
    (hbrace : brace.kind = .mark .openBrace) (body : List Token) :
    declarationsOfTokens tail (keyword :: name :: (heading ++ brace :: body))
      = interfaceBody tail (String.ofList name.text) body >>= fun fields =>
          (declarationsOfTokens tail fields.rest).map
            (⟨String.ofList name.text, .interface fields.value⟩ :: ·) := by
  rw [declarationsOfTokens_interface hkeyword, interfaceDeclaration_of_heading h hname hbrace]
  cases interfaceBody tail (String.ofList name.text) body <;> rfl

/-- Bodies with the same tokens, and what is behind them, are read in the same way. -/
theorem sameResult_of_bodies (hbody : List.Forall₂ Token.SameWithGap body body')
    (tail : List Char) (name : String) :
    Pair.SameResult ⟨body, body'⟩ (List.Forall₂ (Pair.SameDeclaration ⟨body, body'⟩))
      (interfaceBody tail name body >>= fun fields =>
        (declarationsOfTokens tail fields.rest).map (⟨name, .interface fields.value⟩ :: ·))
      (interfaceBody tail name body' >>= fun fields =>
        (declarationsOfTokens tail fields.rest).map (⟨name, .interface fields.value⟩ :: ·)) := by
  have hshifted : Pair.Shifted ⟨body, body'⟩ := hbody
  refine (hshifted.beside.interfaceBody rfl name).bind fun fields fields' hfields => ?_
  refine (hfields.rest.fromToken.declarationsOfTokens rfl).map fun _ _ hothers => ?_
  exact .cons ⟨rfl, .interface hfields.value⟩ hothers

/-- Results for shifted documents that are the same are equal where they are declarations. -/
theorem Pair.SameResult.ok_iff {pair : Pair} (hshifted : pair.Shifted)
    {result result' : Except Fault (List Declaration)}
    (h : pair.SameResult (List.Forall₂ pair.SameDeclaration) result result')
    (declarations : List Declaration) : result = .ok declarations ↔ result' = .ok declarations := by
  cases h with
  | ok hsame => rw [hshifted.eq_declarations hsame]
  | error hplace => exact ⟨nofun, nofun⟩

theorem declarationsOfText_eq_ok_iff {text : String} {document : Tokens}
    (h : Tokens.ofText text.toList = document) (declarations : List Declaration) :
    declarationsOfText text = .ok declarations
      ↔ declarationsOfTokens document.tail document.tokens = .ok declarations := by
  subst h
  unfold declarationsOfText
  dsimp only
  split
  · rename_i found hfound
    rw [hfound, Except.ok.injEq, Except.ok.injEq]
  · rename_i fault hfault
    rw [hfault]
    exact ⟨nofun, nofun⟩

end Documents

/-- A heading changes nothing: the interface is what it is without the heading, read from the brace
of its body on, and a document that holds it is read as it is without the heading. -/
theorem declarationsOfText_of_heading {heading : List Token} (h : IsHeading heading) :
    (∀ name brace : Token, name.kind.isWord = true → brace.kind = .mark .openBrace → ∀ tail body,
      outcome (interfaceDeclaration tail (name :: (heading ++ brace :: body)))
          = outcome (interfaceDeclaration tail (name :: brace :: body))
        ∧ outcome (interfaceDeclaration tail (name :: (heading ++ brace :: body)))
          = (outcome (interfaceBody tail (String.ofList name.text) body)).map fun read =>
              (⟨String.ofList name.text, .interface read.1⟩, read.2))
      ∧ ∀ text text' : String, PutsHeading heading text.toList text'.toList →
        ∀ declarations, declarationsOfText text = .ok declarations
          ↔ declarationsOfText text' = .ok declarations := by
  refine ⟨fun name brace hname hbrace tail body => ?_, fun text text' hputs declarations => ?_⟩
  · have hwith := interfaceDeclaration_of_heading h hname hbrace tail body
    have hwithout := interfaceDeclaration_of_heading isHeading_nil hname hbrace tail body
    exact ⟨hwith.trans hwithout.symm, hwith⟩
  · cases hputs with
    | @behind before body body' keyword name brace brace' tail earlier hbefore hkeyword hname hbrace
        hbrace' hbody htokens htokens' =>
      have hwithout : declarationsOfTokens tail (keyword :: name :: brace :: body) = _ :=
        declarationsOfTokens_of_heading isHeading_nil hkeyword hname hbrace body
      have hwith :
          declarationsOfTokens tail (keyword :: name :: (heading ++ brace' :: body')) = _ :=
        declarationsOfTokens_of_heading h hkeyword hname hbrace' body'
      have hshifted : Pair.Shifted ⟨body, body'⟩ := hbody
      have hiff := (sameResult_of_bodies hbody tail (String.ofList name.text)).ok_iff hshifted
      rw [← hwithout, ← hwith] at hiff
      rw [declarationsOfText_eq_ok_iff htokens, declarationsOfText_eq_ok_iff htokens']
      dsimp only
      rw [hbefore _ _ hkeyword, hbefore _ _ hkeyword]
      constructor
      · intro hread
        obtain ⟨others, hothers, rfl⟩ := exists_of_map hread
        rw [(hiff others).mp hothers]
        rfl
      · intro hread
        obtain ⟨others, hothers, rfl⟩ := exists_of_map hread
        rw [(hiff others).mpr hothers]
        rfl

set_option maxRecDepth 1024 in
/-- Type parameters with brackets and an arrow in a default, and two types behind `extends`. -/
theorem declarationsOfText_of_heading_default :
    let heading : List Token :=
      [⟨.mark .less, [], ['<'], 18⟩, ⟨.identifier, [], ['F'], 19⟩, ⟨.mark .equals, [], ['='], 20⟩,
        ⟨.mark .openParen, [], ['('], 21⟩, ⟨.identifier, [], ['a'], 22⟩,
        ⟨.mark .greater, [], ['>'], 23⟩, ⟨.identifier, [], ['b'], 24⟩,
        ⟨.mark .closeParen, [], [')'], 25⟩, ⟨.mark .arrow, [], ['=', '>'], 26⟩,
        ⟨.identifier, [], ['T'], 28⟩, ⟨.mark .greater, [], ['>'], 29⟩,
        ⟨.keyword .extends, [], ['e', 'x', 't', 'e', 'n', 'd', 's'], 30⟩,
        ⟨.identifier, [' '], ['c'], 38⟩, ⟨.mark .dot, [], ['.'], 39⟩, ⟨.identifier, [], ['D'], 40⟩,
        ⟨.mark .less, [], ['<'], 41⟩, ⟨.identifier, [], ['T'], 42⟩, ⟨.mark .greater, [], ['>'], 43⟩,
        ⟨.mark .openBracket, [], ['['], 44⟩, ⟨.mark .closeBracket, [], [']'], 45⟩,
        ⟨.mark .comma, [], [','], 46⟩, ⟨.identifier, [], ['E'], 47⟩]
    let name : Token := ⟨.identifier, [' '], ['A'], 17⟩
    let brace : Token := ⟨.mark .openBrace, [], ['\x7b'], 48⟩
    let body : List Token :=
      [⟨.identifier, [], ['x'], 49⟩, ⟨.mark .colon, [], [':'], 50⟩, ⟨.identifier, [], ['T'], 51⟩,
        ⟨.mark .closeBrace, [], ['\x7d'], 52⟩]
    let text := "export interface A\x7bx:T\x7d"
    let text' := "export interface A<F=(a>b)=>T>extends c.D<T>[],E\x7bx:T\x7d"
    let declarations : List Declaration := [⟨"A", .interface [⟨"x", .named "T", false⟩]⟩]
    IsHeading heading
      ∧ outcome (interfaceDeclaration [] (name :: (heading ++ brace :: body)))
        = outcome (interfaceDeclaration [] (name :: brace :: body))
      ∧ PutsHeading heading text.toList text'.toList
      ∧ declarationsOfText text = .ok declarations
      ∧ declarationsOfText text' = .ok declarations := by
  intro heading name brace body text text' declarations
  have hgroup : IsBalanced (fun _ => true) ((heading.drop 4).take 3) := rfl
  have hresult : IsAngled ((heading.drop 8).take 2) :=
    .plain rfl rfl (by decide) (by decide) (.plain rfl rfl (by decide) (by decide) .nil)
  have hinner : IsAngled ((heading.drop 1).take 9) :=
    .plain rfl rfl (by decide) (by decide)
      (.plain rfl rfl (by decide) (by decide) (.group rfl hgroup rfl hresult))
  have hparameters : IsParameters (heading.take 11) := .angles rfl hinner rfl
  have hclause : IsClause (heading.drop 11) := by
    let types : List TypeRef := [.arrayOf (.generic "c.D" [.named "T"]), .named "E"]
    have hplain : ∀ type ∈ types, isPlain type = true := by decide
    exact .extends rfl (List.cons_ne_nil _ _) hplain (by decide)
  have hheading : IsHeading heading := .parts (.inr hparameters) (.inr hclause)
  let before : List Token := [⟨.keyword .export, [], ['e', 'x', 'p', 'o', 'r', 't'], 0⟩]
  let keyword : Token :=
    ⟨.keyword .interface, [' '], ['i', 'n', 't', 'e', 'r', 'f', 'a', 'c', 'e'], 7⟩
  let brace₀ : Token := ⟨.mark .openBrace, [], ['\x7b'], 18⟩
  let body₀ : List Token :=
    [⟨.identifier, [], ['x'], 19⟩, ⟨.mark .colon, [], [':'], 20⟩, ⟨.identifier, [], ['T'], 21⟩,
      ⟨.mark .closeBrace, [], ['\x7d'], 22⟩]
  have htokens : Tokens.ofText text.toList
      = ⟨before ++ keyword :: name :: brace₀ :: body₀, []⟩ := by
    dsimp only [text, before, keyword, name, brace₀, body₀]
    cbv
  have htokens' : Tokens.ofText text'.toList
      = ⟨before ++ keyword :: name :: (heading ++ brace :: body), []⟩ := by
    dsimp only [text', before, keyword, name, heading, brace, body]
    cbv
  have hbefore : LeadsToInterface [] before [] :=
    Interspersed.nil.leadsToInterface (by simpa [before] using ⟨.export, rfl⟩) []
  have hbody : List.Forall₂ Token.SameWithGap body₀ body :=
    .cons ⟨⟨rfl, rfl⟩, rfl⟩ (.cons ⟨⟨rfl, rfl⟩, rfl⟩ (.cons ⟨⟨rfl, rfl⟩, rfl⟩
      (.cons ⟨⟨rfl, rfl⟩, rfl⟩ .nil)))
  have hputs : PutsHeading heading text.toList text'.toList :=
    .behind hbefore rfl rfl rfl rfl hbody htokens htokens'
  have hread : declarationsOfText text = .ok declarations := by
    rw [declarationsOfText_eq_ok_iff htokens]
    dsimp only [before, keyword, name, brace₀, body₀, declarations]
    cbv
  have h := declarationsOfText_of_heading hheading
  exact ⟨hheading, (h.1 name brace rfl rfl [] body).1, hputs, hread,
    (h.2 text text' hputs declarations).mp hread⟩

end Specimen.Source
