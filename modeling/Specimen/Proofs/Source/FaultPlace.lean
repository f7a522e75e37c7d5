import Specimen.Proofs.Source.Advance
import Specimen.Proofs.Source.Tiling

/-!
# Where faults are reported

A reader that does not find what it is looking for refuses the token that stands there, before it
uses it, so the report points at the start of that token or at the end of the document. A body or a
written value that is not closed is reported at the end.

A number that cannot be read is found out when its token has been used already. So the report points
at the start of the token behind the number, and not at the number
(`declarationsOfText_invalidNumber`). Main statement: `declarationsOfText_faultPlace`.
-/

namespace Specimen.Source

/-! ## Faults of readers -/

section Faults

variable {α β : Type} {property : Fault → Prop} {result : Except Fault α}

/-- If the result is a fault, it has the property. -/
def FaultsAs (property : Fault → Prop) (result : Except Fault α) : Prop :=
  ∀ fault, result = .error fault → property fault

theorem faultsAs_ok (x : α) : FaultsAs property (.ok x) :=
  nofun

theorem faultsAs_error {fault : Fault} (h : property fault) :
    FaultsAs property (.error fault : Except Fault α) := by
  rintro other hother
  cases hother
  exact h

theorem FaultsAs.bind {next : α → Except Fault β} (h : FaultsAs property result)
    (hnext : ∀ x, result = .ok x → FaultsAs property (next x)) :
    FaultsAs property (result >>= next) := by
  cases result with
  | error fault => exact faultsAs_error (h fault rfl)
  | ok x => exact hnext x rfl

theorem FaultsAs.map (f : α → β) (h : FaultsAs property result) :
    FaultsAs property (result.map f) := by
  cases result with
  | error fault => exact faultsAs_error (h fault rfl)
  | ok x => exact faultsAs_ok (f x)

/-- Something else stands where a reader was looking for something. -/
def Fault.IsExpected (fault : Fault) : Prop :=
  ∃ wanted, fault.cause = .expected wanted

theorem faultsAs_refuse (wanted : Wanted) (ts : List Token) :
    FaultsAs Fault.IsExpected (refuse wanted ts : Except Fault α) :=
  faultsAs_error ⟨wanted, rfl⟩

theorem faultsAs_expect (kind : TokenKind) (ts : List Token) :
    FaultsAs Fault.IsExpected (expect kind ts) := by
  cases ts with
  | nil => exact faultsAs_refuse _ _
  | cons token rest =>
      rw [expect]
      split
      · exact faultsAs_ok _
      · exact faultsAs_refuse _ _

theorem faultsAs_expectWord (ts : List Token) : FaultsAs Fault.IsExpected (expectWord ts) := by
  cases ts with
  | nil => exact faultsAs_refuse _ _
  | cons token rest =>
      rw [expectWord]
      split
      · exact faultsAs_ok _
      · exact faultsAs_refuse _ _

theorem faultsAs_signatureHead (ts : List Token) :
    FaultsAs Fault.IsExpected (signatureHead ts) := by
  cases ts with
  | nil => exact faultsAs_refuse _ _
  | cons token rest =>
      rw [signatureHead]
      split
      · exact (faultsAs_expect _ _).map _
      · exact faultsAs_refuse _ _

end Faults

/-! ## Types

The lengths that are noted between two readers show that the readers end, as in their definitions.
-/

mutual

theorem faultsAs_typeExpr (ts : List Token) : FaultsAs Fault.IsExpected (typeExpr ts) := by
  rw [typeExpr]
  have hle := length_dropJoint_le ts
  refine (faultsAs_operands _).bind fun chain _ => ?_
  have hshort := chain.shorter
  split
  · have := length_tail_le chain.rest
    refine (faultsAs_typeExpr _).bind fun bound _ => ?_
    have := bound.shorter
    refine (faultsAs_expect _ _).bind fun question _ => ?_
    have := question.shorter
    refine (faultsAs_typeExpr _).bind fun whenTrue _ => ?_
    have := whenTrue.shorter
    refine (faultsAs_expect _ _).bind fun colon _ => ?_
    have := colon.shorter
    exact (faultsAs_typeExpr _).bind fun whenFalse _ => faultsAs_ok _
  · exact faultsAs_ok _
termination_by 5 * ts.length + 3
decreasing_by all_goals omega

theorem faultsAs_operands (ts : List Token) : FaultsAs Fault.IsExpected (operands ts) := by
  rw [operands]
  refine (faultsAs_postfixType _).bind fun first _ => ?_
  obtain ⟨type, rest, hshort⟩ := first
  cases rest with
  | nil => exact faultsAs_ok _
  | cons joint after =>
      have hlater := Nat.lt_trans (length_lt_cons joint after) hshort
      dsimp only
      split
      · exact (faultsAs_operands _).bind fun more _ => faultsAs_ok _
      · exact faultsAs_ok _
termination_by 5 * ts.length + 2

theorem faultsAs_postfixType (ts : List Token) : FaultsAs Fault.IsExpected (postfixType ts) := by
  rw [postfixType]
  exact (faultsAs_primaryType _).bind fun first _ => faultsAs_ok _
termination_by 5 * ts.length + 1

theorem faultsAs_primaryType (ts : List Token) : FaultsAs Fault.IsExpected (primaryType ts) := by
  cases ts with
  | nil =>
      rw [primaryType]
      exact faultsAs_refuse _ _
  | cons token rest =>
      rw [primaryType]
      split
      · exact (faultsAs_postfixType _).bind fun type _ => faultsAs_ok _
      · exact faultsAs_ok _
      · exact faultsAs_ok _
      · exact faultsAs_ok _
      · split
        · exact faultsAs_ok _
        · exact faultsAs_refuse _ _
      · exact faultsAs_ok _
      · exact faultsAs_ok _
      · -- a function type with type parameters
        have := length_skipAngles_le 0 (token :: rest)
        refine (faultsAs_signatureHead _).bind fun head _ => ?_
        have := head.shorter
        exact (faultsAs_typeExpr _).bind fun result _ => faultsAs_ok _
      · -- a function type, or a type in brackets
        split
        · refine (faultsAs_signatureHead _).bind fun head _ => ?_
          have := head.shorter
          exact (faultsAs_typeExpr _).bind fun result _ => faultsAs_ok _
        · refine (faultsAs_typeExpr _).bind fun inner _ => ?_
          exact (faultsAs_expect _ _).bind fun close _ => faultsAs_ok _
      · -- a word: an operator before a type, a type of its own, or a name
        split
        · dsimp only
          split
          · exact (faultsAs_postfixType _).bind fun operand _ => faultsAs_ok _
          split
          · exact faultsAs_ok _
          have := length_dottedTail_le rest
          have := length_tail_le (dottedTail rest).2
          split
          · exact (faultsAs_typeArgs _).bind fun args _ => faultsAs_ok _
          · exact faultsAs_ok _
        · exact faultsAs_refuse _ _
termination_by 5 * ts.length
decreasing_by all_goals subst_vars; simp only [List.length_cons] at *; omega

theorem faultsAs_typeArgs (ts : List Token) : FaultsAs Fault.IsExpected (typeArgs ts) := by
  cases ts with
  | nil =>
      rw [typeArgs]
      exact faultsAs_refuse _ _
  | cons token rest =>
      rw [typeArgs]
      split
      · exact faultsAs_ok _
      refine (faultsAs_typeExpr _).bind fun first _ => ?_
      obtain ⟨type, left, hshort⟩ := first
      cases left with
      | nil => exact faultsAs_refuse _ _
      | cons separator after =>
          have hlater := Nat.lt_trans (length_lt_cons separator after) hshort
          dsimp only
          split
          · exact (faultsAs_typeArgs _).bind fun more _ => faultsAs_ok _
          split
          · exact faultsAs_ok _
          · exact faultsAs_refuse _ _
termination_by 5 * ts.length + 4
decreasing_by all_goals subst_vars; simp only [List.length_cons] at *; omega

end

/-! ## Members and headings -/

section Members

variable (tail : List Char) (ts : List Token)

theorem faultsAs_endProperty : FaultsAs Fault.IsExpected (endProperty tail ts) := by
  cases ts with
  | nil =>
      rw [endProperty]
      split
      · exact faultsAs_ok _
      · exact faultsAs_refuse _ _
  | cons token rest =>
      rw [endProperty]
      split
      · exact faultsAs_ok _
      split
      · exact faultsAs_ok _
      · exact faultsAs_refuse _ _

theorem faultsAs_propertyType : FaultsAs Fault.IsExpected (propertyType ts) := by
  cases ts with
  | nil => exact faultsAs_ok _
  | cons token rest =>
      rw [propertyType]
      split
      · exact (faultsAs_typeExpr rest).bind fun type _ => faultsAs_ok _
      · exact faultsAs_ok _

theorem faultsAs_property (name : List Char) :
    FaultsAs Fault.IsExpected (property tail name ts) := by
  rw [property]
  dsimp only
  split
  · exact faultsAs_ok _
  · refine (faultsAs_propertyType _).bind fun type _ => ?_
    exact (faultsAs_endProperty tail _).bind fun rest _ => faultsAs_ok _

theorem faultsAs_member : FaultsAs Fault.IsExpected (member tail ts) := by
  refine FaultsAs.map _ ?_
  generalize dropReadonly ts = ts
  cases ts with
  | nil => exact faultsAs_refuse _ _
  | cons token rest =>
      have hnamed (name : List Char) : FaultsAs Fault.IsExpected
          (plainMember.named tail name : Except Fault (Taken (token :: rest) (Option Field))) :=
        (faultsAs_property tail rest name).bind fun field _ => faultsAs_ok _
      rw [plainMember]
      split
      · exact hnamed _
      · exact hnamed _
      · exact faultsAs_ok _
      · exact faultsAs_ok _
      · exact faultsAs_ok _
      · exact faultsAs_ok _
      · exact faultsAs_ok _
      · split
        · exact hnamed _
        · exact faultsAs_refuse _ _

theorem faultsAs_heritage (ts : List Token) : FaultsAs Fault.IsExpected (heritage ts) := by
  rw [heritage]
  refine (faultsAs_typeExpr ts).bind fun first _ => ?_
  obtain ⟨type, left, hshort⟩ := first
  cases left with
  | nil => exact faultsAs_ok _
  | cons token rest =>
      have hlater := Nat.lt_trans (length_lt_cons token rest) hshort
      dsimp only
      split
      · exact (faultsAs_heritage rest).bind fun more _ => faultsAs_ok _
      · exact faultsAs_ok _
termination_by ts.length

theorem faultsAs_skipHeritage : FaultsAs Fault.IsExpected (skipHeritage ts) := by
  cases ts with
  | nil => exact faultsAs_ok _
  | cons token rest =>
      rw [skipHeritage]
      split
      · exact (faultsAs_heritage rest).bind fun types _ => faultsAs_ok _
      · exact faultsAs_ok _

theorem faultsAs_skipDottedWords (ts : List Token) :
    FaultsAs Fault.IsExpected (skipDottedWords ts) := by
  cases ts with
  | nil =>
      rw [skipDottedWords]
      exact faultsAs_ok _
  | cons token rest =>
      rw [skipDottedWords]
      split
      · refine (faultsAs_expectWord rest).bind fun word _ => ?_
        have := Nat.lt_trans word.shorter (length_lt_cons token rest)
        exact (faultsAs_skipDottedWords word.rest).bind fun after _ => faultsAs_ok _
      · exact faultsAs_ok _
termination_by ts.length
decreasing_by subst_vars; assumption

theorem faultsAs_aliasDeclaration : FaultsAs Fault.IsExpected (aliasDeclaration ts) := by
  refine (faultsAs_expectWord ts).bind fun name _ => ?_
  refine (faultsAs_expect _ _).bind fun equals _ => ?_
  exact (faultsAs_typeExpr _).bind fun target _ => faultsAs_ok _

theorem faultsAs_namespaceDeclaration : FaultsAs Fault.IsExpected (namespaceDeclaration ts) := by
  have hname : FaultsAs Fault.IsExpected (namespaceName ts) := by
    cases ts with
    | nil => exact faultsAs_refuse _ _
    | cons token rest =>
        rw [namespaceName]
        split
        · exact faultsAs_ok _
        · exact faultsAs_expectWord _
  refine hname.bind fun name _ => ?_
  exact (faultsAs_skipDottedWords name.rest).bind fun words _ => faultsAs_ok _

end Members

/-! ## Places -/

/-- The place of a fault among the tokens, as its cause tells it. What is left at a number that
cannot be read starts behind the number. -/
inductive Fault.StandsIn (ts : List Token) : Fault → Prop
  | expected (wanted : Wanted) {rest : List Token} (hrest : rest <:+ ts) :
      StandsIn ts ⟨.expected wanted, rest⟩
  | unclosedInterface (name : String) : StandsIn ts ⟨.unclosedInterface name, []⟩
  | unterminatedInitializer : StandsIn ts ⟨.unterminatedInitializer, []⟩
  | invalidNumber {literal next : Token} {after : List Token} (hkind : literal.kind = .number)
      (hvalue : numberValue? literal.text = none) (hrest : literal :: next :: after <:+ ts) :
      StandsIn ts ⟨.invalidNumber (String.ofList literal.text), next :: after⟩

section Places

variable {α : Type} {ts us : List Token} {result : Except Fault α}

/-- A reader that only refuses what stands at a place does so among the tokens. -/
theorem FaultsAs.standsIn {related : α → α → Prop} (h : FaultsAs Fault.IsExpected result)
    (hself : Pair.SameResult ⟨ts, ts⟩ related result result) :
    FaultsAs (Fault.StandsIn ts) result := by
  intro fault hfault
  have hplace := hself.beside_rest hfault
  obtain ⟨wanted, hcause⟩ := h fault hfault
  obtain ⟨cause, rest⟩ := fault
  obtain rfl := hcause
  exact .expected wanted hplace.left

/-- Behind such a reader one is at a place again. -/
theorem FaultsAs.standsIn_bind {β : Type} {related : α → α → Prop} {next : α → Except Fault β}
    (h : FaultsAs Fault.IsExpected result)
    (hself : Pair.SameResult ⟨ts, ts⟩ related result result)
    (hnext : ∀ x, related x x → FaultsAs (Fault.StandsIn ts) (next x)) :
    FaultsAs (Fault.StandsIn ts) (result >>= next) :=
  (h.standsIn hself).bind fun x hx => hnext x (hself.of_ok hx)

theorem standsIn_refuse {rest : List Token} (wanted : Wanted) (hrest : rest <:+ ts) :
    FaultsAs (Fault.StandsIn ts) (refuse wanted rest : Except Fault α) :=
  faultsAs_error (.expected wanted hrest)

end Places

section Declarations

variable {tokens ts : List Token} (tail : List Char)

theorem standsIn_interfaceBody {ts : List Token} (h : Pair.Beside ⟨tokens, tokens⟩ ts ts)
    (name : String) : FaultsAs (Fault.StandsIn tokens) (interfaceBody tail name ts) := by
  cases ts with
  | nil =>
      rw [interfaceBody]
      exact faultsAs_error (.unclosedInterface name)
  | cons token rest =>
      rw [interfaceBody]
      split
      · exact faultsAs_ok _
      refine (faultsAs_member tail _).standsIn_bind (h.member rfl) fun first hfirst => ?_
      have := first.shorter
      exact (standsIn_interfaceBody hfirst.rest name).bind fun more _ => faultsAs_ok _
termination_by ts.length
decreasing_by subst_vars; assumption

theorem standsIn_interfaceDeclaration (h : Pair.Beside ⟨tokens, tokens⟩ ts ts) :
    FaultsAs (Fault.StandsIn tokens) (interfaceDeclaration tail ts) := by
  refine (faultsAs_expectWord ts).standsIn_bind h.expectWord fun name hname => ?_
  have hhead := hname.rest.skipTypeParameters.skipHeritage
  refine (faultsAs_skipHeritage _).standsIn_bind hhead fun heritage hheritage => ?_
  refine (faultsAs_expect _ _).standsIn_bind (hheritage.expect _) fun brace hbrace => ?_
  exact (standsIn_interfaceBody tail hbrace.rest _).bind fun fields _ => faultsAs_ok _

theorem standsIn_numberLiteral {literal : Token} {rest : List Token}
    (hkind : literal.kind = .number) (hrest : literal :: rest <:+ tokens)
    (hend : atMemberEnd rest = true) :
    FaultsAs (Fault.StandsIn tokens) (numberLiteral literal.text rest) := by
  cases rest with
  | nil => cases hend
  | cons next after =>
      unfold numberLiteral
      split
      · exact faultsAs_ok _
      · rename_i hvalue
        exact faultsAs_error (.invalidNumber hkind hvalue hrest)

theorem standsIn_computedInitializer (ts : List Token) :
    FaultsAs (Fault.StandsIn tokens) (computedInitializer ts) := by
  rw [computedInitializer]
  split
  · exact faultsAs_error .unterminatedInitializer
  · exact faultsAs_ok _

theorem standsIn_initializer (h : ts <:+ tokens) :
    FaultsAs (Fault.StandsIn tokens) (initializer ts) := by
  cases ts with
  | nil => exact standsIn_computedInitializer []
  | cons token rest =>
      simp only [initializer]
      split
      · exact faultsAs_ok _
      split
      · rename_i hnumber
        exact (standsIn_numberLiteral hnumber.1 h hnumber.2).bind fun value _ => faultsAs_ok _
      split
      · cases rest with
        | nil => exact standsIn_computedInitializer [token]
        | cons literal after =>
            dsimp only
            split
            · rename_i hnumber
              have hliteral := (List.suffix_cons token (literal :: after)).trans h
              exact (standsIn_numberLiteral hnumber.1 hliteral hnumber.2).bind
                fun value _ => faultsAs_ok _
            · exact standsIn_computedInitializer _
      · exact standsIn_computedInitializer _

theorem standsIn_enumMember (h : Pair.Beside ⟨tokens, tokens⟩ ts ts) (enumeration : String) :
    FaultsAs (Fault.StandsIn tokens) (enumMember enumeration ts) := by
  have hname : FaultsAs Fault.IsExpected (enumMemberName enumeration ts) := by
    cases ts with
    | nil => exact faultsAs_refuse _ _
    | cons token rest =>
        rw [enumMemberName]
        split
        · exact faultsAs_ok _
        split
        · exact faultsAs_ok _
        · exact faultsAs_refuse _ _
  refine hname.standsIn_bind (h.enumMemberName enumeration) fun name hname => ?_
  obtain ⟨name, left, hshort⟩ := name
  have hleft := hname.rest.left
  cases left with
  | nil => exact faultsAs_ok _
  | cons token rest =>
      dsimp only
      split
      · have hrest := (List.suffix_cons token rest).trans hleft
        exact (standsIn_initializer hrest).bind fun value _ => faultsAs_ok _
      · exact faultsAs_ok _

theorem standsIn_enumBody {ts : List Token} (h : Pair.Beside ⟨tokens, tokens⟩ ts ts)
    (enumeration : String) : FaultsAs (Fault.StandsIn tokens) (enumBody enumeration ts) := by
  cases ts with
  | nil =>
      rw [enumBody]
      exact standsIn_refuse _ h.left
  | cons token rest =>
      rw [enumBody]
      split
      · exact faultsAs_ok _
      refine (standsIn_enumMember h enumeration).bind fun first hfirst => ?_
      have hplace := ((h.enumMember enumeration).of_ok hfirst).rest
      obtain ⟨member, left, hshort⟩ := first
      cases left with
      | nil => exact standsIn_refuse _ hplace.left
      | cons separator after =>
          have hlater := Nat.lt_trans (length_lt_cons separator after) hshort
          dsimp only
          split
          · exact (standsIn_enumBody hplace.tail enumeration).bind fun more _ => faultsAs_ok _
          split
          · exact faultsAs_ok _
          · exact standsIn_refuse _ hplace.left
termination_by ts.length
decreasing_by subst_vars; assumption

theorem standsIn_enumDeclaration (h : Pair.Beside ⟨tokens, tokens⟩ ts ts) :
    FaultsAs (Fault.StandsIn tokens) (enumDeclaration ts) := by
  refine (faultsAs_expectWord ts).standsIn_bind h.expectWord fun name hname => ?_
  refine (faultsAs_expect _ _).standsIn_bind (hname.rest.expect _) fun brace hbrace => ?_
  exact (standsIn_enumBody hbrace.rest name.value).bind fun members _ => faultsAs_ok _

theorem standsIn_declaration? {first : Token} {rest : List Token}
    {result : Except Fault (Taken (first :: rest) Declaration)}
    (h : Pair.Beside ⟨tokens, tokens⟩ rest rest)
    (hresult : declaration? tail first rest = some result) :
    FaultsAs (Fault.StandsIn tokens) result := by
  have halias := (faultsAs_aliasDeclaration rest).standsIn h.aliasDeclaration
  have hnamespace := (faultsAs_namespaceDeclaration rest).standsIn h.namespaceDeclaration
  unfold declaration? at hresult
  split at hresult
  case h_1 =>
    cases hresult
    exact (standsIn_interfaceDeclaration tail h).map _
  case h_2 =>
    split at hresult
    · cases hresult
      exact halias.map _
    · cases hresult
  case h_3 =>
    cases hresult
    exact (standsIn_enumDeclaration h).map _
  case h_4 =>
    split at hresult
    · split at hresult
      · cases hresult
        exact (standsIn_enumDeclaration h.tail).map _
      · cases hresult
    · cases hresult
  case h_5 | h_6 =>
    split at hresult
    · cases hresult
      exact hnamespace.map _
    · cases hresult
  case h_7 => cases hresult

theorem standsIn_declarationsOfTokens {ts : List Token} (h : Pair.Beside ⟨tokens, tokens⟩ ts ts) :
    FaultsAs (Fault.StandsIn tokens) (declarationsOfTokens tail ts) := by
  cases ts with
  | nil =>
      rw [declarationsOfTokens]
      exact faultsAs_ok _
  | cons first rest =>
      rw [declarationsOfTokens_cons]
      cases hresult : declaration? tail first rest with
      | none =>
          have := length_skipTree_cons_lt first rest
          exact standsIn_declarationsOfTokens h.skipTree
      | some result =>
          refine (standsIn_declaration? tail h.tail hresult).bind fun read hread => ?_
          have := read.shorter
          have hplace := ((h.tail.declaration? hresult).of_ok hread).rest
          exact (standsIn_declarationsOfTokens hplace).map _
termination_by ts.length
decreasing_by all_goals subst_vars; assumption

end Declarations

/-! ## Reports -/

/-- A token of the text starts at the position, and the text of the token stands there. -/
structure Token.StartsAt (text : List Char) (token : Token) (position : Position) : Prop where
  mem : token ∈ (Tokens.ofText text).tokens
  place : ∃ front back, text = front ++ (token.text ++ back) ∧ token.start = byteSize front
  position : position = .ofOffset text token.start

/-- The end of a text. -/
def endOf (text : List Char) : Position :=
  .ofOffset text (byteSize text)

/-- The report points at the start of the token that it says was found, or at the end of the text if
it says that the text has ended. Where it tells of a number that cannot be read, it points at the
token behind the number. -/
inductive DocumentError.PointsInto (text : List Char) : DocumentError → Prop
  | found (wanted : Wanted) {token : Token} {position : Position}
      (hstarts : token.StartsAt text position) :
      PointsInto text
        ⟨"expected " ++ wanted.describe ++ ", found `" ++ String.ofList token.text ++ "`", position⟩
  | foundEnd (wanted : Wanted) :
      PointsInto text ⟨"expected " ++ wanted.describe ++ ", found end of input", endOf text⟩
  | unclosedInterface (name : String) :
      PointsInto text ⟨"unclosed body of interface `" ++ name ++ "`", endOf text⟩
  | unterminatedInitializer : PointsInto text ⟨"unterminated enum initializer", endOf text⟩
  | invalidNumber {before after : List Token} {literal next : Token} {position : Position}
      (htokens : (Tokens.ofText text).tokens = before ++ literal :: next :: after)
      (hkind : literal.kind = .number) (hvalue : numberValue? literal.text = none)
      (hstarts : next.StartsAt text position) :
      PointsInto text
        ⟨"invalid number literal `" ++ String.ofList literal.text ++ "`", position⟩

section Reports

variable {text : List Char}

theorem startsAt_of_mem {token : Token} (h : token ∈ (Tokens.ofText text).tokens) :
    token.StartsAt text (.ofOffset text token.start) := by
  have hmunched : Munched 0 [] text (Tokens.ofText text) := munched_scan 0 [] text
  obtain ⟨before, after, hsplit⟩ := List.append_of_mem h
  obtain ⟨-, hstart, hwhole⟩ := (hmunched.placed rfl).cut (text_ofText text) hsplit
  exact ⟨h, ⟨_, _, hwhole.trans (List.append_assoc _ _ _).symm,
    hstart.trans (byteSize_append _ _).symm⟩, rfl⟩

theorem startsAt_of_suffix {token : Token} {rest : List Token}
    (h : token :: rest <:+ (Tokens.ofText text).tokens) :
    token.StartsAt text (.ofOffset text token.start) :=
  startsAt_of_mem (h.subset List.mem_cons_self)

theorem message_expected_nil (wanted : Wanted) :
    Fault.message ⟨.expected wanted, []⟩
      = "expected " ++ wanted.describe ++ ", found end of input" :=
  String.append_assoc

theorem message_expected_cons (wanted : Wanted) (token : Token) (rest : List Token) :
    Fault.message ⟨.expected wanted, token :: rest⟩
      = "expected " ++ wanted.describe ++ ", found `" ++ String.ofList token.text ++ "`" := by
  simp only [Fault.message, String.append_assoc]
  rfl

/-- A fault among the tokens of a text is reported where its cause tells. -/
theorem Fault.StandsIn.pointsInto {fault : Fault} (h : fault.StandsIn (Tokens.ofText text).tokens) :
    (fault.report text).PointsInto text := by
  cases h with
  | @expected wanted rest hrest =>
      cases rest with
      | nil =>
          rw [Fault.report, message_expected_nil]
          exact .foundEnd wanted
      | cons token rest =>
          rw [Fault.report, message_expected_cons]
          exact .found wanted (startsAt_of_suffix hrest)
  | unclosedInterface name => exact .unclosedInterface name
  | unterminatedInitializer => exact .unterminatedInitializer
  | @invalidNumber literal next after hkind hvalue hrest =>
      have hstarts := startsAt_of_suffix ((List.suffix_cons literal (next :: after)).trans hrest)
      obtain ⟨before, hsplit⟩ := hrest
      exact .invalidNumber hsplit.symm hkind hvalue hstarts

end Reports

/-- Every refused document is reported at the start of one of its tokens or at its end. -/
theorem declarationsOfText_faultPlace (text : String) (error : DocumentError)
    (h : declarationsOfText text = .error error) : error.PointsInto text.toList := by
  unfold declarationsOfText at h
  dsimp only at h
  split at h
  · cases h
  · rename_i fault hfault
    cases h
    have hplace := Pair.beside_self (Tokens.ofText text.toList).tokens
    exact (standsIn_declarationsOfTokens _ hplace fault hfault).pointsInto

/-- A heading without its name, behind a line break. -/
theorem declarationsOfText_faultPlace_heading :
    let text := "type A = B;\ninterface \x7b \x7d"
    let error : DocumentError := ⟨"expected identifier, found `\x7b`", ⟨2, 11⟩⟩
    declarationsOfText text = .error error ∧ error.PointsInto text.toList := by
  intro text error
  let rest : List Token := [⟨.mark .openBrace, [' '], ['\x7b'], 22⟩,
    ⟨.mark .closeBrace, [' '], ['\x7d'], 24⟩]
  let tokens : List Token :=
    [⟨.keyword .type, [], ['t', 'y', 'p', 'e'], 0⟩, ⟨.identifier, [' '], ['A'], 5⟩,
      ⟨.mark .equals, [' '], ['='], 7⟩, ⟨.identifier, [' '], ['B'], 9⟩,
      ⟨.mark .semicolon, [], [';'], 10⟩,
      ⟨.keyword .interface, ['\n'], ['i', 'n', 't', 'e', 'r', 'f', 'a', 'c', 'e'], 12⟩] ++ rest
  have htokens : Tokens.ofText text.toList = ⟨tokens, []⟩ := by
    dsimp only [text, tokens, rest]
    cbv
  have hresult :
      declarationsOfTokens [] tokens = .error ⟨.expected (.token .identifier), rest⟩ := by
    dsimp only [tokens, rest]
    cbv
  have hread : declarationsOfText text = .error error := by
    simp only [declarationsOfText, htokens, hresult]
    exact congrArg Except.error (by decide +kernel)
  exact ⟨hread, declarationsOfText_faultPlace text error hread⟩

/-- A number that cannot be read is reported at the brace behind it, and not where the number is. -/
theorem declarationsOfText_invalidNumber :
    let text := "enum E \x7b A = 1e_ \x7d"
    declarationsOfText text = .error ⟨"invalid number literal `1e_`", ⟨1, 18⟩⟩
      ∧ ((Tokens.ofText text.toList).tokens.filter fun token => token.text == "1e_".toList).map
          (fun token => Position.ofOffset text.toList token.start) = [⟨1, 14⟩] := by
  intro text
  let rest : List Token := [⟨.mark .closeBrace, [' '], ['\x7d'], 17⟩]
  let tokens : List Token :=
    [⟨.keyword .enum, [], ['e', 'n', 'u', 'm'], 0⟩, ⟨.identifier, [' '], ['E'], 5⟩,
      ⟨.mark .openBrace, [' '], ['\x7b'], 7⟩, ⟨.identifier, [' '], ['A'], 9⟩,
      ⟨.mark .equals, [' '], ['='], 11⟩, ⟨.number, [' '], ['1', 'e', '_'], 13⟩] ++ rest
  have htokens : Tokens.ofText text.toList = ⟨tokens, []⟩ := by
    dsimp only [text, tokens, rest]
    cbv
  have hresult : declarationsOfTokens [] tokens = .error ⟨.invalidNumber "1e_", rest⟩ := by
    dsimp only [tokens, rest]
    cbv
  simp only [declarationsOfText, htokens, hresult]
  exact ⟨congrArg Except.error (by decide +kernel), by decide +kernel⟩

end Specimen.Source
