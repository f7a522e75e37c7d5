import Specimen.Proofs.Source.Respacing

/-!
# Types with other gaps

The same tokens are read as the same type, however the gaps between them change. Only the text
that an unsupported type keeps shows the gaps: it is the text of the same run of tokens in both
documents. The statements follow the readers, which call each other. Main statement:
`Pair.Beside.typeExpr`.
-/

namespace Specimen.Source

namespace Pair

variable {pair : Pair} {ts ts' : List Token}

/-- The same type, up to the gaps in texts that are kept. -/
inductive SameType (pair : Pair) : TypeRef → TypeRef → Prop
  | primitive (type : Primitive) : SameType pair (.primitive type) (.primitive type)
  | named (name : String) : SameType pair (.named name) (.named name)
  | generic (name : String) {args args' : List TypeRef}
      (h : List.Forall₂ (SameType pair) args args') :
      SameType pair (.generic name args) (.generic name args')
  | arrayOf {element element' : TypeRef} (h : SameType pair element element') :
      SameType pair (.arrayOf element) (.arrayOf element')
  | unsupported (text : String) : SameType pair (.unsupported text) (.unsupported text)
  | kept {text text' : String} (h : pair.SameRun text text') :
      SameType pair (.unsupported text) (.unsupported text')

theorem getD_of_rel {α : Type} {related : α → α → Prop} {x x' : Option α} {default default' : α}
    (h : Option.Rel related x x') (hdefault : related default default') :
    related (x.getD default) (x'.getD default') := by
  cases h with
  | some h => exact h
  | none => exact hdefault

theorem sameType_typeOfName (name : String) :
    pair.SameType (typeOfName name) (typeOfName name) := by
  unfold typeOfName
  split
  · exact .primitive _
  · exact .named _

namespace Beside

theorem dropJoint (h : pair.Beside ts ts') : pair.Beside (dropJoint ts) (dropJoint ts') := by
  cases h with
  | nil h => exact h
  | cons h htoken hrest =>
      simp only [Source.dropJoint, htoken.kind]
      split
      · exact hrest
      · exact h

/-- A dotted name is made of texts of tokens, so it is the same in both documents. -/
theorem dottedTail (h : pair.Beside ts ts') :
    (dottedTail ts).1 = (dottedTail ts').1
      ∧ pair.Beside (Source.dottedTail ts).2 (Source.dottedTail ts').2 := by
  fun_induction Source.dottedTail ts generalizing ts' with
  | case1 dot word rest hdot name after hname ih =>
      obtain ⟨dot', rest', rfl, hsame, h⟩ := h.eq_cons
      obtain ⟨word', rest', rfl, hsameWord, h⟩ := h.eq_cons
      rw [hsame.kind, hsameWord.kind] at hdot
      obtain ⟨hvalue, hrest⟩ := ih h
      rw [hname] at hvalue hrest
      rw [Source.dottedTail, if_pos hdot, hsameWord.text]
      exact ⟨congrArg ('.' :: word'.text ++ ·) hvalue, hrest⟩
  | case2 dot word rest hdot =>
      obtain ⟨dot', rest', rfl, hsame, hrest⟩ := h.eq_cons
      obtain ⟨word', rest', rfl, hsameWord, -⟩ := hrest.eq_cons
      rw [hsame.kind, hsameWord.kind] at hdot
      rw [Source.dottedTail, if_neg hdot]
      exact ⟨rfl, h⟩
  | case3 ts hshort =>
      match ts, hshort with
      | [], _ =>
          obtain rfl := h.eq_nil
          exact ⟨rfl, h⟩
      | [token], _ =>
          obtain ⟨token', rest', rfl, -, hrest⟩ := h.eq_cons
          obtain rfl := hrest.eq_nil
          exact ⟨rfl, h⟩
      | dot :: word :: rest, hshort => exact (hshort dot word rest rfl).elim

theorem arraySuffixes {start start' : List Token} {type type' : TypeRef}
    (hstart : pair.Beside start start') (htype : pair.SameType type type')
    (h : pair.Beside ts ts') :
    pair.SameType (arraySuffixes start type ts).1 (arraySuffixes start' type' ts').1
      ∧ pair.Beside (Source.arraySuffixes start type ts).2
        (Source.arraySuffixes start' type' ts').2 := by
  fun_induction Source.arraySuffixes start type ts generalizing type' ts' with
  | case1 type =>
      rw [h.eq_nil, Source.arraySuffixes] at *
      exact ⟨htype, h⟩
  | case2 type token rest hopen hclose ih =>
      obtain ⟨token', rest', rfl, htoken, hrest⟩ := h.eq_cons
      rw [hrest.startsWith_eq] at hclose
      rw [Source.arraySuffixes, if_pos (htoken.kind ▸ hopen), if_pos hclose]
      exact ih (.arrayOf htype) hrest.tail
  | case3 type token rest hopen hclose hshort after =>
      rename_i ih
      obtain ⟨token', rest', rfl, htoken, hrest⟩ := h.eq_cons
      rw [hrest.startsWith_eq] at hclose
      rw [Source.arraySuffixes, if_pos (htoken.kind ▸ hopen), if_neg hclose]
      exact ih (.kept (hstart.spanText h.skipTree)) h.skipTree
  | case4 type token rest hopen =>
      obtain ⟨token', rest', rfl, htoken, -⟩ := h.eq_cons
      rw [Source.arraySuffixes, if_neg (htoken.kind ▸ hopen)]
      exact ⟨htype, h⟩

theorem arrowAhead_eq (h : pair.Beside ts ts') (depth : Nat) :
    arrowAhead depth ts = arrowAhead depth ts' := by
  induction ts generalizing ts' depth with
  | nil => rw [h.eq_nil]
  | cons token rest ih =>
      obtain ⟨token', rest', rfl, htoken, hrest⟩ := h.eq_cons
      simp only [arrowAhead, htoken.kind, hrest.startsWith_eq, ih hrest]

theorem arrowFollowsGroup_eq (h : pair.Beside ts ts') :
    arrowFollowsGroup ts = arrowFollowsGroup ts' :=
  h.arrowAhead_eq 0

theorem signatureHead (h : pair.Beside ts ts') :
    pair.SameResult (pair.SameTaken Eq) (signatureHead ts) (signatureHead ts') := by
  cases h with
  | nil h => exact h.refuse _
  | cons h htoken hrest =>
      simp only [Source.signatureHead, htoken.kind]
      split
      · exact (h.skipTree.expect _).map fun _ _ hread => ⟨hread.value, hread.rest⟩
      · exact h.refuse _

end Beside

/-! ## The readers of types

The lengths that are noted between two readers show that the readers end, as in their definitions.
-/

mutual

theorem Beside.typeExpr {ts ts' : List Token} (h : pair.Beside ts ts') :
    pair.SameResult (pair.SameTaken pair.SameType) (typeExpr ts) (typeExpr ts') := by
  rw [Source.typeExpr, Source.typeExpr]
  have hle := length_dropJoint_le ts
  refine h.dropJoint.operands.bind fun chain chain' hchain => ?_
  have hshort := chain.shorter
  rw [hchain.rest.startsWith_eq]
  split
  · have := length_tail_le chain.rest
    refine hchain.rest.tail.typeExpr.bind fun bound bound' hbound => ?_
    have := bound.shorter
    refine (hbound.rest.expect _).bind fun question question' hquestion => ?_
    have := question.shorter
    refine hquestion.rest.typeExpr.bind fun whenTrue whenTrue' hwhenTrue => ?_
    have := whenTrue.shorter
    refine (hwhenTrue.rest.expect _).bind fun colon colon' hcolon => ?_
    have := colon.shorter
    refine hcolon.rest.typeExpr.bind fun whenFalse whenFalse' hwhenFalse => ?_
    exact .ok ⟨.kept (h.spanText hwhenFalse.rest), hwhenFalse.rest⟩
  · refine .ok ⟨?_, hchain.rest⟩
    exact getD_of_rel hchain.value (.kept (h.spanText hchain.rest))
termination_by 5 * ts.length + 3
decreasing_by all_goals omega

theorem Beside.operands {ts ts' : List Token} (h : pair.Beside ts ts') :
    pair.SameResult (pair.SameTaken (Option.Rel pair.SameType)) (operands ts) (operands ts') := by
  rw [Source.operands, Source.operands]
  refine h.postfixType.bind fun first first' hfirst => ?_
  obtain ⟨type, rest, hshort⟩ := first
  obtain ⟨type', rest', hshort'⟩ := first'
  obtain ⟨htype, hrest⟩ := hfirst
  cases rest with
  | nil =>
      obtain rfl := hrest.eq_nil
      exact .ok ⟨.some htype, hrest⟩
  | cons joint after =>
      obtain ⟨joint', after', rfl, hjoint, hafter⟩ := hrest.eq_cons
      have hlater : after.length < ts.length := Nat.lt_trans (length_lt_cons joint after) hshort
      simp only [hjoint.kind]
      split
      · exact hafter.operands.bind fun more more' hmore => .ok ⟨.none, hmore.rest⟩
      · exact .ok ⟨.some htype, hrest⟩
termination_by 5 * ts.length + 2

theorem Beside.postfixType {ts ts' : List Token} (h : pair.Beside ts ts') :
    pair.SameResult (pair.SameTaken pair.SameType) (postfixType ts) (postfixType ts') := by
  rw [Source.postfixType, Source.postfixType]
  refine h.primaryType.bind fun first first' hfirst => ?_
  have hsuffixed := h.arraySuffixes hfirst.value hfirst.rest
  exact .ok ⟨hsuffixed.1, hsuffixed.2⟩
termination_by 5 * ts.length + 1

theorem Beside.primaryType {ts ts' : List Token} (h : pair.Beside ts ts') :
    pair.SameResult (pair.SameTaken pair.SameType) (primaryType ts) (primaryType ts') := by
  cases ts with
  | nil =>
      obtain rfl := h.eq_nil
      rw [Source.primaryType]
      exact h.refuse _
  | cons token rest =>
      obtain ⟨token', rest', rfl, htoken, hrest⟩ := h.eq_cons
      rw [Source.primaryType, Source.primaryType, htoken.kind, htoken.text]
      -- both readers look at one kind now, and one split serves both
      generalize token'.kind = kind
      split
      · exact hrest.postfixType.bind fun type type' htype => .ok ⟨htype.value, htype.rest⟩
      · exact .ok ⟨.kept (h.spanText hrest), hrest⟩
      · exact .ok ⟨.kept (h.spanText hrest), hrest⟩
      · exact .ok ⟨.kept (h.spanText hrest), hrest⟩
      · rw [hrest.startsWith_eq]
        split
        · exact .ok ⟨.kept (h.spanText hrest.tail), hrest.tail⟩
        · exact h.refuse _
      · exact .ok ⟨.kept (h.spanText h.skipTree), h.skipTree⟩
      · exact .ok ⟨.kept (h.spanText h.skipTree), h.skipTree⟩
      · -- a function type with type parameters
        have := length_skipAngles_le 0 (token :: rest)
        refine (h.skipAngles 0).signatureHead.bind fun head head' hhead => ?_
        have := head.shorter
        refine hhead.rest.typeExpr.bind fun result result' hresult => ?_
        exact .ok ⟨.kept (h.spanText hresult.rest), hresult.rest⟩
      · -- a function type, or a type in brackets
        rw [h.arrowFollowsGroup_eq]
        split
        · refine h.signatureHead.bind fun head head' hhead => ?_
          have := head.shorter
          refine hhead.rest.typeExpr.bind fun result result' hresult => ?_
          exact .ok ⟨.kept (h.spanText hresult.rest), hresult.rest⟩
        · refine hrest.typeExpr.bind fun inner inner' hinner => ?_
          refine (hinner.rest.expect _).bind fun close close' hclose => ?_
          exact .ok ⟨hinner.value, hclose.rest⟩
      · -- a word: an operator before a type, a type of its own, or a name
        split
        · dsimp only
          rw [hrest.startsWithWord_eq]
          split
          · refine hrest.postfixType.bind fun operand operand' hoperand => ?_
            exact .ok ⟨.kept (h.spanText hoperand.rest), hoperand.rest⟩
          split
          · exact .ok ⟨.unsupported _, hrest⟩
          obtain ⟨hname, hafter⟩ := hrest.dottedTail
          have := length_dottedTail_le rest
          have := length_tail_le (Source.dottedTail rest).2
          rw [hname, hafter.startsWith_eq]
          split
          · refine hafter.tail.typeArgs.bind fun args args' hargs => ?_
            exact .ok ⟨.generic _ hargs.value, hargs.rest⟩
          · exact .ok ⟨sameType_typeOfName _, hafter⟩
        · exact h.refuse _
termination_by 5 * ts.length
decreasing_by all_goals subst_vars; simp only [List.length_cons] at *; omega

theorem Beside.typeArgs {ts ts' : List Token} (h : pair.Beside ts ts') :
    pair.SameResult (pair.SameTaken (List.Forall₂ pair.SameType)) (typeArgs ts) (typeArgs ts') := by
  cases ts with
  | nil =>
      obtain rfl := h.eq_nil
      rw [Source.typeArgs]
      exact h.refuse _
  | cons token rest =>
      obtain ⟨token', rest', rfl, htoken, hrest⟩ := h.eq_cons
      rw [Source.typeArgs, Source.typeArgs, htoken.kind]
      split
      · exact .ok ⟨.nil, hrest⟩
      refine h.typeExpr.bind fun first first' hfirst => ?_
      obtain ⟨type, rest, hshort⟩ := first
      obtain ⟨type', rest', hshort'⟩ := first'
      obtain ⟨htype, hrest⟩ := hfirst
      cases rest with
      | nil =>
          obtain rfl := hrest.eq_nil
          exact hrest.refuse _
      | cons separator after =>
          obtain ⟨separator', after', rfl, hseparator, hafter⟩ := hrest.eq_cons
          have hlater := Nat.lt_trans (length_lt_cons separator after) hshort
          simp only [hseparator.kind]
          split
          · exact hafter.typeArgs.bind fun more more' hmore =>
              .ok ⟨.cons htype hmore.value, hmore.rest⟩
          split
          · exact .ok ⟨.cons htype .nil, hafter⟩
          · exact hrest.refuse _
termination_by 5 * ts.length + 4
decreasing_by all_goals subst_vars; simp only [List.length_cons] at *; omega

end

end Pair

end Specimen.Source
