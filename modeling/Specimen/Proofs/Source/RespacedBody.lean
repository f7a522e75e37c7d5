import Specimen.Proofs.Source.RespacedType
import Specimen.Source.Document

/-!
# Declarations with other gaps

The bodies of interfaces and enumerations, and the declarations around them, read from the same
tokens with other gaps. A property may end at a line break, so it matters here that line breaks
stand at the same places; for the gap behind the last token this is the hypothesis `hend`. Main
statement: `Pair.Beside.interfaceDeclaration` and its siblings for the other kinds of declaration.
-/

namespace Specimen.Source

namespace Pair

variable {pair : Pair} {ts ts' : List Token} {tail tail' : List Char}

/-! ## The same declarations -/

/-- The same field, up to the gaps in a text that its type keeps. -/
structure SameField (pair : Pair) (field field' : Field) : Prop where
  name : field.name = field'.name
  type : pair.SameType field.type field'.type
  optional : field.optional = field'.optional

/-- The same written value, up to the gaps in the text of a computed one. -/
inductive SameLiteral (pair : Pair) : EnumLiteral → EnumLiteral → Prop
  | written (literal : EnumLiteral) : SameLiteral pair literal literal
  | computed {text text' : String} (h : pair.SameRun text text') :
      SameLiteral pair (.string text) (.string text')

/-- The same member of an enumeration, up to the gaps in a computed value. -/
structure SameMember (pair : Pair) (member member' : EnumMember) : Prop where
  name : member.name = member'.name
  value : Option.Rel pair.SameLiteral member.value member'.value

/-- The same body, up to the gaps in texts that are kept. -/
inductive SameBody (pair : Pair) : DeclarationBody → DeclarationBody → Prop
  | interface {fields fields' : List Field} (h : List.Forall₂ pair.SameField fields fields') :
      SameBody pair (.interface fields) (.interface fields')
  | alias {target target' : TypeRef} (h : pair.SameType target target') :
      SameBody pair (.alias target) (.alias target')
  | enumeration {members members' : List EnumMember}
      (h : List.Forall₂ pair.SameMember members members') :
      SameBody pair (.enumeration members) (.enumeration members')
  | namespace : SameBody pair .namespace .namespace

/-- The same declaration, up to the gaps in texts that are kept. -/
structure SameDeclaration (pair : Pair) (declaration declaration' : Declaration) : Prop where
  name : declaration.name = declaration'.name
  body : pair.SameBody declaration.body declaration'.body

/-- The results are related, and what remains is the same place. -/
def SameRemaining {α : Type} (pair : Pair) (related : α → α → Prop) (read : α × Remaining ts)
    (read' : α × Remaining ts') : Prop :=
  related read.1 read'.1 ∧ pair.Beside read.2.val read'.2.val

theorem forall₂_toList_append {α : Type} {related : α → α → Prop} {x x' : Option α}
    {xs xs' : List α} (h : Option.Rel related x x') (hs : List.Forall₂ related xs xs') :
    List.Forall₂ related (x.toList ++ xs) (x'.toList ++ xs') := by
  cases h with
  | some h => exact .cons h hs
  | none => exact hs

namespace Beside

/-! ## Interfaces -/

theorem endProperty (h : pair.Beside ts ts') (hend : hasLineBreak tail = hasLineBreak tail') :
    pair.SameResult (fun rest rest' => pair.Beside rest.val rest'.val) (endProperty tail ts)
      (endProperty tail' ts') := by
  cases h with
  | nil h =>
      simp only [Source.endProperty, hend]
      split
      · exact .ok h
      · exact h.refuse _
  | cons h htoken hrest =>
      simp only [Source.endProperty, htoken.kind, htoken.lineBreak]
      split
      · exact .ok hrest
      split
      · exact .ok h
      · exact h.refuse _

theorem propertyType (h : pair.Beside ts ts') :
    pair.SameResult (pair.SameRemaining pair.SameType) (propertyType ts) (propertyType ts') := by
  cases h with
  | nil h => exact .ok ⟨.unsupported _, h⟩
  | cons h htoken hrest =>
      simp only [Source.propertyType, htoken.kind]
      split
      · exact hrest.typeExpr.bind fun type type' htype => .ok ⟨htype.value, htype.rest⟩
      · exact .ok ⟨.unsupported _, h⟩

theorem property (h : pair.Beside ts ts') (hend : hasLineBreak tail = hasLineBreak tail')
    (name : List Char) :
    pair.SameResult (pair.SameRemaining (Option.Rel pair.SameField)) (property tail name ts)
      (property tail' name ts') := by
  have hafter := h.dropOptional (.mark .question)
  have hmethod :=
    congrArg₂ or (hafter.startsWith_eq (.mark .openParen)) (hafter.startsWith_eq (.mark .less))
  refine SameResult.ite (Bool.eq_iff_iff.mp hmethod) ?_ ?_
  · exact .ok ⟨.none, hafter.skipMember⟩
  · refine hafter.propertyType.bind fun type type' htype => ?_
    refine (htype.2.endProperty hend).bind fun rest rest' hrest => ?_
    exact .ok ⟨.some ⟨rfl, htype.1, h.startsWith_eq _⟩, hrest⟩

theorem dropReadonly (h : pair.Beside ts ts') :
    pair.Beside (dropReadonly ts) (dropReadonly ts') := by
  cases h with
  | nil h => exact h
  | cons h htoken hrest =>
      simp only [Source.dropReadonly, htoken.kind, hrest.startsWith_eq]
      split
      · exact hrest
      · exact h

theorem plainMember (h : pair.Beside ts ts') (hend : hasLineBreak tail = hasLineBreak tail') :
    pair.SameResult (pair.SameTaken (Option.Rel pair.SameField)) (plainMember tail ts)
      (plainMember tail' ts') := by
  cases h with
  | nil h => exact h.refuse _
  | @cons token token' rest rest' h htoken hrest =>
      have hnamed (name : List Char) :
          pair.SameResult (pair.SameTaken (Option.Rel pair.SameField))
            (plainMember.named tail name : Except Fault (Taken (token :: rest) (Option Field)))
            (plainMember.named tail' name :
                Except Fault (Taken (token' :: rest') (Option Field))) :=
        (hrest.property hend name).bind fun field field' hfield => .ok ⟨hfield.1, hfield.2⟩
      simp only [Source.plainMember, htoken.kind, htoken.text]
      generalize token'.kind = kind
      split
      · exact hnamed _
      · exact hnamed _
      · exact .ok ⟨.none, h.skipTree.skipMember⟩
      · exact .ok ⟨.none, h.skipTree.skipMember⟩
      · exact .ok ⟨.none, h.skipTree.skipMember⟩
      · exact .ok ⟨.none, hrest⟩
      · exact .ok ⟨.none, hrest⟩
      · split
        · exact hnamed _
        · exact h.refuse _

theorem member (h : pair.Beside ts ts') (hend : hasLineBreak tail = hasLineBreak tail') :
    pair.SameResult (pair.SameTaken (Option.Rel pair.SameField)) (member tail ts)
      (member tail' ts') :=
  (h.dropReadonly.plainMember hend).map fun _ _ hread => ⟨hread.value, hread.rest⟩

theorem interfaceBody {ts ts' : List Token} (h : pair.Beside ts ts')
    (hend : hasLineBreak tail = hasLineBreak tail') (name : String) :
    pair.SameResult (pair.SameTaken (List.Forall₂ pair.SameField)) (interfaceBody tail name ts)
      (interfaceBody tail' name ts') := by
  cases ts with
  | nil =>
      obtain rfl := h.eq_nil
      rw [Source.interfaceBody, Source.interfaceBody]
      exact .error h
  | cons token rest =>
      obtain ⟨token', rest', rfl, htoken, hrest⟩ := h.eq_cons
      rw [Source.interfaceBody, Source.interfaceBody, htoken.kind]
      split
      · exact .ok ⟨.nil, hrest⟩
      · refine (h.member hend).bind fun first first' hfirst => ?_
        have := first.shorter
        refine (hfirst.rest.interfaceBody hend name).bind fun more more' hmore => ?_
        exact .ok ⟨forall₂_toList_append hfirst.value hmore.value, hmore.rest⟩
termination_by ts.length
decreasing_by subst_vars; assumption

/-! ## Enumerations -/

theorem atMemberEnd_eq (h : pair.Beside ts ts') : atMemberEnd ts = atMemberEnd ts' := by
  simp only [atMemberEnd, h.startsWith_eq]

theorem skipInitializer (h : pair.Beside ts ts') :
    pair.Beside (skipInitializer ts) (skipInitializer ts') := by
  fun_induction Source.skipInitializer ts generalizing ts' with
  | case1 => rwa [h.eq_nil, Source.skipInitializer] at *
  | case2 token rest hmember =>
      obtain ⟨token', rest', rfl, -, -⟩ := h.eq_cons
      rw [Source.skipInitializer, if_pos (h.atMemberEnd_eq ▸ hmember)]
      exact h
  | case3 token rest hmember _ ih =>
      obtain ⟨token', rest', rfl, -, -⟩ := h.eq_cons
      rw [Source.skipInitializer, if_neg (h.atMemberEnd_eq ▸ hmember)]
      exact ih h.skipTree

theorem numberLiteral (h : pair.Beside ts ts') (literal : List Char) :
    pair.SameResult Eq (numberLiteral literal ts) (numberLiteral literal ts') := by
  unfold Source.numberLiteral
  split
  · exact .ok rfl
  · exact .error h

theorem isEmpty_eq (h : pair.Beside ts ts') : ts.isEmpty = ts'.isEmpty := by
  cases h with
  | nil => rfl
  | cons => rfl

theorem computedInitializer (h : pair.Beside ts ts') :
    pair.SameResult (pair.SameRemaining pair.SameLiteral) (computedInitializer ts)
      (computedInitializer ts') := by
  simp only [Source.computedInitializer, h.skipInitializer.isEmpty_eq]
  split
  · exact .error ⟨List.nil_suffix, List.nil_suffix, .nil⟩
  · exact .ok ⟨.computed (h.spanText h.skipInitializer), h.skipInitializer⟩

theorem initializer (h : pair.Beside ts ts') :
    pair.SameResult (pair.SameRemaining pair.SameLiteral) (initializer ts) (initializer ts') := by
  cases h with
  | nil h => exact h.computedInitializer
  | cons h htoken hrest =>
      simp only [Source.initializer, htoken.kind, htoken.text, hrest.atMemberEnd_eq]
      split
      · exact .ok ⟨.written _, hrest⟩
      split
      · refine (hrest.numberLiteral _).bind fun value value' hvalue => ?_
        exact .ok ⟨hvalue ▸ .written _, hrest⟩
      split
      · cases hrest with
        | nil => exact h.computedInitializer
        | cons _ hliteral hafter =>
            simp only [hliteral.kind, hliteral.text, hafter.atMemberEnd_eq]
            split
            · refine (hafter.numberLiteral _).bind fun value value' hvalue => ?_
              exact .ok ⟨hvalue ▸ .written _, hafter⟩
            · exact h.computedInitializer
      · exact h.computedInitializer

theorem enumMemberName (h : pair.Beside ts ts') (enumeration : String) :
    pair.SameResult (pair.SameTaken Eq) (enumMemberName enumeration ts)
      (enumMemberName enumeration ts') := by
  cases h with
  | nil h => exact h.refuse _
  | cons h htoken hrest =>
      simp only [Source.enumMemberName, htoken.kind, htoken.text]
      split
      · exact .ok ⟨rfl, hrest⟩
      split
      · exact .ok ⟨rfl, hrest⟩
      · exact h.refuse _

theorem enumMember (h : pair.Beside ts ts') (enumeration : String) :
    pair.SameResult (pair.SameTaken pair.SameMember) (enumMember enumeration ts)
      (enumMember enumeration ts') := by
  unfold Source.enumMember
  refine (h.enumMemberName enumeration).bind fun name name' hname => ?_
  obtain ⟨name, rest, hshort⟩ := name
  obtain ⟨name', rest', hshort'⟩ := name'
  obtain ⟨hname, hrest⟩ := hname
  cases hrest with
  | nil hrest => exact .ok ⟨⟨hname, .none⟩, hrest⟩
  | cons hrest htoken hafter =>
      simp only [htoken.kind]
      split
      · exact hafter.initializer.bind fun value value' hvalue =>
          .ok ⟨⟨hname, .some hvalue.1⟩, hvalue.2⟩
      · exact .ok ⟨⟨hname, .none⟩, hrest⟩

theorem enumBody {ts ts' : List Token} (h : pair.Beside ts ts') (enumeration : String) :
    pair.SameResult (pair.SameTaken (List.Forall₂ pair.SameMember)) (enumBody enumeration ts)
      (enumBody enumeration ts') := by
  cases ts with
  | nil =>
      obtain rfl := h.eq_nil
      rw [Source.enumBody]
      exact h.refuse _
  | cons token rest =>
      obtain ⟨token', rest', rfl, htoken, hrest⟩ := h.eq_cons
      rw [Source.enumBody, Source.enumBody, htoken.kind]
      split
      · exact .ok ⟨.nil, hrest⟩
      refine (h.enumMember enumeration).bind fun first first' hfirst => ?_
      obtain ⟨member, rest, hshort⟩ := first
      obtain ⟨member', rest', hshort'⟩ := first'
      obtain ⟨hmember, hrest⟩ := hfirst
      cases rest with
      | nil =>
          obtain rfl := hrest.eq_nil
          exact hrest.refuse _
      | cons separator after =>
          obtain ⟨separator', after', rfl, hseparator, hafter⟩ := hrest.eq_cons
          have hlater := Nat.lt_trans (length_lt_cons separator after) hshort
          simp only [hseparator.kind]
          split
          · exact (hafter.enumBody enumeration).bind fun more more' hmore =>
              .ok ⟨.cons hmember hmore.value, hmore.rest⟩
          split
          · exact .ok ⟨.cons hmember .nil, hafter⟩
          · exact hrest.refuse _
termination_by ts.length
decreasing_by subst_vars; assumption

/-! ## Declarations -/

theorem heritage {ts ts' : List Token} (h : pair.Beside ts ts') :
    pair.SameResult (pair.SameTaken Eq) (heritage ts) (heritage ts') := by
  rw [Source.heritage, Source.heritage]
  refine h.typeExpr.bind fun first first' hfirst => ?_
  obtain ⟨type, rest, hshort⟩ := first
  obtain ⟨type', rest', hshort'⟩ := first'
  obtain ⟨-, hrest⟩ := hfirst
  cases rest with
  | nil =>
      obtain rfl := hrest.eq_nil
      exact .ok ⟨rfl, hrest⟩
  | cons token after =>
      obtain ⟨token', after', rfl, htoken, hafter⟩ := hrest.eq_cons
      have hlater := Nat.lt_trans (length_lt_cons token after) hshort
      simp only [htoken.kind]
      split
      · exact hafter.heritage.bind fun more more' hmore => .ok ⟨rfl, hmore.rest⟩
      · exact .ok ⟨rfl, hrest⟩
termination_by ts.length

theorem skipHeritage (h : pair.Beside ts ts') :
    pair.SameResult (fun rest rest' => pair.Beside rest.val rest'.val) (skipHeritage ts)
      (skipHeritage ts') := by
  cases h with
  | nil h => exact .ok h
  | cons h htoken hrest =>
      simp only [Source.skipHeritage, htoken.kind]
      split
      · exact hrest.heritage.bind fun types types' htypes => .ok htypes.rest
      · exact .ok h

theorem interfaceDeclaration (h : pair.Beside ts ts')
    (hend : hasLineBreak tail = hasLineBreak tail') :
    pair.SameResult (pair.SameTaken pair.SameDeclaration) (interfaceDeclaration tail ts)
      (interfaceDeclaration tail' ts') := by
  refine h.expectWord.bind fun name name' hname => ?_
  refine hname.rest.skipTypeParameters.skipHeritage.bind fun heritage heritage' hheritage => ?_
  refine (hheritage.expect _).bind fun brace brace' hbrace => ?_
  rw [hname.value]
  refine (hbrace.rest.interfaceBody hend _).bind fun fields fields' hfields => ?_
  exact .ok ⟨⟨rfl, .interface hfields.value⟩, hfields.rest⟩

theorem aliasDeclaration (h : pair.Beside ts ts') :
    pair.SameResult (pair.SameTaken pair.SameDeclaration) (aliasDeclaration ts)
      (aliasDeclaration ts') := by
  refine h.expectWord.bind fun name name' hname => ?_
  refine (hname.rest.skipTypeParameters.expect _).bind fun equals equals' hequals => ?_
  refine hequals.rest.typeExpr.bind fun target target' htarget => ?_
  exact .ok ⟨⟨hname.value, .alias htarget.value⟩, htarget.rest.dropOptional _⟩

theorem enumDeclaration (h : pair.Beside ts ts') :
    pair.SameResult (pair.SameTaken pair.SameDeclaration) (enumDeclaration ts)
      (enumDeclaration ts') := by
  refine h.expectWord.bind fun name name' hname => ?_
  refine (hname.rest.expect _).bind fun brace brace' hbrace => ?_
  rw [hname.value]
  refine (hbrace.rest.enumBody _).bind fun members members' hmembers => ?_
  exact .ok ⟨⟨rfl, .enumeration hmembers.value⟩, hmembers.rest⟩

theorem skipDottedWords {ts ts' : List Token} (h : pair.Beside ts ts') :
    pair.SameResult (fun rest rest' => pair.Beside rest.val rest'.val) (skipDottedWords ts)
      (skipDottedWords ts') := by
  cases ts with
  | nil =>
      obtain rfl := h.eq_nil
      rw [Source.skipDottedWords]
      exact .ok h
  | cons token rest =>
      obtain ⟨token', rest', rfl, htoken, hrest⟩ := h.eq_cons
      rw [Source.skipDottedWords, Source.skipDottedWords, htoken.kind]
      split
      · refine hrest.expectWord.bind fun word word' hword => ?_
        have := Nat.lt_trans word.shorter (length_lt_cons token rest)
        exact hword.rest.skipDottedWords.bind fun after after' hafter => .ok hafter
      · exact .ok h
termination_by ts.length
decreasing_by subst_vars; assumption

theorem namespaceName (h : pair.Beside ts ts') :
    pair.SameResult (pair.SameTaken Eq) (namespaceName ts) (namespaceName ts') := by
  cases h with
  | nil h => exact h.refuse _
  | cons h htoken hrest =>
      simp only [Source.namespaceName, htoken.kind, htoken.text]
      split
      · exact .ok ⟨rfl, hrest⟩
      · exact h.expectWord

theorem skipNamespaceBody (h : pair.Beside ts ts') :
    pair.Beside (skipNamespaceBody ts) (skipNamespaceBody ts') := by
  simp only [Source.skipNamespaceBody, h.startsWith_eq]
  split
  · exact h.skipTree
  · exact h.dropOptional _

theorem namespaceDeclaration (h : pair.Beside ts ts') :
    pair.SameResult (pair.SameTaken pair.SameDeclaration) (namespaceDeclaration ts)
      (namespaceDeclaration ts') := by
  refine h.namespaceName.bind fun name name' hname => ?_
  refine hname.rest.skipDottedWords.bind fun words words' hwords => ?_
  exact .ok ⟨⟨hname.value, .namespace⟩, hwords.skipNamespaceBody⟩

end Beside

end Pair

end Specimen.Source
