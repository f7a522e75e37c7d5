import Specimen.Source.Group

/-!
# Closed runs of tokens

Round, square and curly brackets are counted together. A run of tokens is closed if as many brackets
are closed behind each bracket that it opens; of which kind they are makes no difference, so a brace
may close a parenthesis. A closing bracket too many does no harm, because the count stops at zero.
Closed runs can be put together, and the end of a closed run is closed.

`endsGroup` says that a group comes to its end before the tokens do. What `closeGroup` passes over
is closed then. Main statement: `closing_skipTree`, and its siblings for the other ways of passing
over tokens.
-/

namespace Specimen.Source

/-- Where less is left than here, something is left here. -/
theorem ne_nil_of_length_le {left ts : List Token} (h : left.length ≤ ts.length)
    (hleft : left ≠ []) : ts ≠ [] :=
  List.ne_nil_of_length_pos (Nat.lt_of_lt_of_le (List.length_pos_iff.mpr hleft) h)

/-! ## Depth -/

/-- How deep inside brackets one is after tokens. -/
def depthThrough (depth : Nat) : List Token → Nat
  | [] => depth
  | token :: rest => depthThrough (token.kind.depthAfter depth) rest

theorem depthThrough_append (depth : Nat) (front rest : List Token) :
    depthThrough depth (front ++ rest) = depthThrough (depthThrough depth front) rest := by
  induction front generalizing depth with
  | nil => rfl
  | cons token front ih => exact ih _

theorem TokenKind.depthAfter_mono (kind : TokenKind) {depth depth' : Nat} (h : depth ≤ depth') :
    kind.depthAfter depth ≤ kind.depthAfter depth' := by
  unfold depthAfter
  split
  · omega
  split <;> omega

theorem TokenKind.depthAfter_add_le (kind : TokenKind) (depth more : Nat) :
    kind.depthAfter (depth + more) ≤ kind.depthAfter depth + more := by
  unfold depthAfter
  split
  · omega
  split <;> omega

theorem TokenKind.isOpening_of_isClosing {kind : TokenKind} (h : kind.isClosing = true) :
    kind.isOpening = false := by
  cases kind with
  | mark mark => cases mark <;> simp_all [isOpening, isClosing]
  | _ => rfl

theorem TokenKind.depthAfter_opening {kind : TokenKind} (h : kind.isOpening = true) (depth : Nat) :
    kind.depthAfter depth = depth + 1 := by
  rw [depthAfter, if_pos h]

theorem TokenKind.depthAfter_zero {kind : TokenKind} (h : kind.isOpening = false) :
    kind.depthAfter 0 = 0 := by
  simp [depthAfter, h]

/-- Only a closing bracket takes one out of all brackets. -/
theorem TokenKind.isClosing_of_depthAfter {kind : TokenKind} {depth : Nat}
    (h : kind.depthAfter depth = 0) (hdepth : depth ≠ 0) : kind.isClosing = true := by
  unfold depthAfter at h
  split at h
  · omega
  split at h
  · assumption
  · exact absurd h hdepth

theorem depthThrough_mono (ts : List Token) {depth depth' : Nat} (h : depth ≤ depth') :
    depthThrough depth ts ≤ depthThrough depth' ts := by
  induction ts generalizing depth depth' with
  | nil => exact h
  | cons token rest ih => exact ih (token.kind.depthAfter_mono h)

theorem depthThrough_add_le (ts : List Token) (depth more : Nat) :
    depthThrough (depth + more) ts ≤ depthThrough depth ts + more := by
  induction ts generalizing depth with
  | nil => exact Nat.le_refl _
  | cons token rest ih =>
      exact Nat.le_trans (depthThrough_mono rest (token.kind.depthAfter_add_le depth more)) (ih _)

/-! ## Closed runs -/

/-- Every bracket that the tokens open is closed by one of them. The three kinds of brackets are
counted together: a bracket of one kind may be closed by one of another. -/
def IsClosed (ts : List Token) : Prop :=
  depthThrough 0 ts = 0

theorem IsClosed.append {front rest : List Token} (hfront : IsClosed front)
    (hrest : IsClosed rest) : IsClosed (front ++ rest) := by
  unfold IsClosed at *
  rw [depthThrough_append, hfront, hrest]

/-- The end of a closed run is closed: without what comes before it one is not deeper. -/
theorem IsClosed.of_append {front rest : List Token} (h : IsClosed (front ++ rest)) :
    IsClosed rest := by
  unfold IsClosed at *
  rw [depthThrough_append] at h
  have := depthThrough_mono rest (Nat.zero_le (depthThrough 0 front))
  omega

theorem IsClosed.of_suffix {ts rest : List Token} (h : IsClosed ts) (hsuffix : rest <:+ ts) :
    IsClosed rest := by
  obtain ⟨front, rfl⟩ := hsuffix
  exact h.of_append

theorem isClosed_singleton {token : Token} (h : token.kind.isOpening = false) :
    IsClosed [token] :=
  TokenKind.depthAfter_zero h

/-- Between a closed run and its brackets one comes back to where one was. -/
theorem IsClosed.depthThrough_le {ts : List Token} (h : IsClosed ts) (depth : Nat) :
    depthThrough depth ts ≤ depth := by
  have := depthThrough_add_le ts 0 depth
  rw [Nat.zero_add, h, Nat.zero_add] at this
  exact this

/-- A bracket, a closed run and a closing bracket are a closed run. -/
theorem IsClosed.group {opening close : Token} {ts : List Token}
    (hopen : opening.kind.isOpening = true) (hclose : close.kind.isClosing = true)
    (h : IsClosed ts) : IsClosed (opening :: ts ++ [close]) := by
  have hdepth := h.depthThrough_le 1
  have hnot : close.kind.isOpening = false := TokenKind.isOpening_of_isClosing hclose
  simp only [IsClosed, List.cons_append, depthThrough, depthThrough_append, TokenKind.depthAfter,
    hopen, hclose, hnot, if_true, Bool.false_eq_true, if_false]
  exact Nat.sub_eq_zero_of_le hdepth

/-- From one place to the other the tokens are closed. -/
def Closing (ts rest : List Token) : Prop :=
  ∃ front, ts = front ++ rest ∧ IsClosed front

namespace Closing

variable {ts middle rest : List Token}

theorem refl (ts : List Token) : Closing ts ts :=
  ⟨[], rfl, rfl⟩

theorem trans (h : Closing ts middle) (hrest : Closing middle rest) : Closing ts rest := by
  obtain ⟨front, rfl, hfront⟩ := h
  obtain ⟨front', rfl, hfront'⟩ := hrest
  exact ⟨front ++ front', (List.append_assoc _ _ _).symm, hfront.append hfront'⟩

theorem cons {token : Token} (h : token.kind.isOpening = false) :
    Closing (token :: rest) rest :=
  ⟨[token], rfl, isClosed_singleton h⟩

theorem suffix (h : Closing ts rest) : rest <:+ ts := by
  obtain ⟨front, rfl, -⟩ := h
  exact List.suffix_append front rest

theorem group {opening close : Token} (hopen : opening.kind.isOpening = true)
    (hclose : close.kind.isClosing = true) (h : Closing ts (close :: rest)) :
    Closing (opening :: ts) rest := by
  obtain ⟨front, rfl, hfront⟩ := h
  exact ⟨opening :: front ++ [close], by simp, hfront.group hopen hclose⟩

end Closing

/-- A reader has come to a place before the end, or the tokens that it reads are closed. So no group
inside what it has read was cut off by the end. -/
def Settled (ts rest : List Token) : Prop :=
  rest ≠ [] ∨ IsClosed ts

theorem Settled.of_closing {ts middle rest : List Token} (h : Settled ts rest)
    (hmiddle : Closing ts middle) : Settled middle rest :=
  h.imp id fun hclosed => hclosed.of_suffix hmiddle.suffix

/-! ## Groups -/

/-- The depth becomes zero at one of the tokens. -/
def endsGroup (depth : Nat) : List Token → Bool
  | [] => false
  | token :: rest =>
      let inner := token.kind.depthAfter depth
      inner == 0 || endsGroup inner rest

theorem closeGroup_cons_of_eq_zero {depth : Nat} {token : Token} {rest : List Token}
    (h : token.kind.depthAfter depth = 0) : closeGroup depth (token :: rest) = rest := by
  simp only [closeGroup, h, if_true]

theorem closeGroup_cons_of_ne_zero {depth : Nat} {token : Token} {rest : List Token}
    (h : token.kind.depthAfter depth ≠ 0) :
    closeGroup depth (token :: rest) = closeGroup (token.kind.depthAfter depth) rest := by
  simp only [closeGroup, h, if_false]

/-- A token that opens no group is passed over by itself. -/
theorem skipTree_of_isOpening {token : Token} (h : token.kind.isOpening = false)
    (rest : List Token) : skipTree (token :: rest) = rest :=
  closeGroup_cons_of_eq_zero (TokenKind.depthAfter_zero h)

/-- A group is passed over from behind its opening bracket. -/
theorem skipTree_opening {opening : Token} (h : opening.kind.isOpening = true) (rest : List Token) :
    skipTree (opening :: rest) = closeGroup 1 rest := by
  have hdepth : opening.kind.depthAfter 0 = 1 := TokenKind.depthAfter_opening h 0
  rw [skipTree, closeGroup_cons_of_ne_zero (by omega), hdepth]

theorem endsGroup_of_ne_nil {depth : Nat} {ts : List Token} (h : closeGroup depth ts ≠ []) :
    endsGroup depth ts = true := by
  induction ts generalizing depth with
  | nil => exact absurd rfl h
  | cons token rest ih =>
      by_cases hinner : token.kind.depthAfter depth = 0
      · simp [endsGroup, hinner]
      · rw [closeGroup_cons_of_ne_zero hinner] at h
        simp [endsGroup, ih h]

theorem endsGroup_of_depthThrough {depth : Nat} {token : Token} {rest : List Token}
    (h : depthThrough depth (token :: rest) = 0) : endsGroup depth (token :: rest) = true := by
  induction rest generalizing depth token with
  | nil =>
      have hinner : token.kind.depthAfter depth = 0 := h
      simp [endsGroup, hinner]
  | cons next rest ih =>
      have hrest : endsGroup (token.kind.depthAfter depth) (next :: rest) = true := ih h
      rw [endsGroup, hrest, Bool.or_true]

/-- A group that comes to its end takes the depth back to zero. It ends with a closing bracket
unless it is one token. -/
theorem exists_front_of_endsGroup {depth : Nat} {ts : List Token}
    (h : endsGroup depth ts = true) :
    ∃ front last, ts = front ++ [last] ++ closeGroup depth ts
      ∧ depthThrough depth (front ++ [last]) = 0
      ∧ (last.kind.isClosing = true ∨ front = []) := by
  induction ts generalizing depth with
  | nil => cases h
  | cons token rest ih =>
      by_cases hinner : token.kind.depthAfter depth = 0
      · refine ⟨[], token, ?_, hinner, .inr rfl⟩
        rw [closeGroup_cons_of_eq_zero hinner]
        rfl
      · have hrest : endsGroup (token.kind.depthAfter depth) rest = true := by
          simpa [endsGroup, hinner] using h
        obtain ⟨front, last, hsplit, hdepth, hlast⟩ := ih hrest
        refine ⟨token :: front, last, ?_, hdepth, .inl ?_⟩
        · rw [closeGroup_cons_of_ne_zero hinner, List.cons_append, List.cons_append, ← hsplit]
        · rcases hlast with hlast | rfl
          · exact hlast
          · exact TokenKind.isClosing_of_depthAfter hdepth hinner

/-- What follows a group that comes to its end does not matter for it. -/
theorem closeGroup_append {depth : Nat} {front : List Token} (h : endsGroup depth front = true)
    (rest : List Token) : closeGroup depth (front ++ rest) = closeGroup depth front ++ rest := by
  induction front generalizing depth with
  | nil => cases h
  | cons token front ih =>
      rw [List.cons_append]
      by_cases hinner : token.kind.depthAfter depth = 0
      · rw [closeGroup_cons_of_eq_zero hinner, closeGroup_cons_of_eq_zero hinner]
      · rw [closeGroup_cons_of_ne_zero hinner, closeGroup_cons_of_ne_zero hinner]
        refine ih ?_
        simpa [endsGroup, hinner] using h

/-- A run is closed exactly if every group that starts in it comes to its end. -/
theorem isClosed_iff {ts : List Token} : IsClosed ts ↔ ∀ front opening rest,
    ts = front ++ opening :: rest → opening.kind.isOpening = true →
    endsGroup 0 (opening :: rest) = true := by
  constructor
  · rintro hclosed front opening rest rfl -
    exact endsGroup_of_depthThrough hclosed.of_append
  · intro hends
    cases ts with
    | nil => rfl
    | cons token after =>
        by_cases hopen : token.kind.isOpening = true
        · -- the group ends, and what follows it is shorter
          have hgroup := hends [] token after rfl hopen
          obtain ⟨before, last, hsplit, hclosed, -⟩ := exists_front_of_endsGroup hgroup
          have := length_closeGroup_cons_lt 0 token after
          have hrest : IsClosed (closeGroup 0 (token :: after)) := isClosed_iff.mpr
            fun front opening rest hrest => hends (before ++ [last] ++ front) opening rest
              (by rw [List.append_assoc, ← hrest]; exact hsplit)
          rw [hsplit]
          exact IsClosed.append hclosed hrest
        · have hrest : IsClosed after := isClosed_iff.mpr fun front opening rest hrest =>
            hends (token :: front) opening rest (by rw [hrest, List.cons_append])
          exact (isClosed_singleton (Bool.eq_false_iff.mpr hopen)).append hrest
termination_by ts.length
decreasing_by all_goals subst_vars; simp only [List.length_cons] at *; omega

/-- The tokens end inside a curly or square group. In front of the group they are closed. -/
def CutOff (ts : List Token) : Prop :=
  ∃ front opening rest, ts = front ++ opening :: rest ∧ IsClosed front
    ∧ (opening.kind = .mark .openBrace ∨ opening.kind = .mark .openBracket)
    ∧ endsGroup 0 (opening :: rest) = false

theorem CutOff.not_isClosed {ts : List Token} (h : CutOff ts) : ¬ IsClosed ts := by
  obtain ⟨front, opening, rest, rfl, -, -, hgroup⟩ := h
  intro hclosed
  rw [endsGroup_of_depthThrough hclosed.of_append] at hgroup
  cases hgroup

theorem CutOff.ne_nil {ts : List Token} (h : CutOff ts) : ts ≠ [] := by
  rintro rfl
  exact h.not_isClosed rfl

theorem Closing.cutOff {ts rest : List Token} (h : Closing ts rest) (hrest : CutOff rest) :
    CutOff ts := by
  obtain ⟨before, rfl, hbefore⟩ := h
  obtain ⟨front, opening, rest, rfl, hfront, hkind, hgroup⟩ := hrest
  exact ⟨before ++ front, opening, rest, (List.append_assoc _ _ _).symm, hbefore.append hfront,
    hkind, hgroup⟩

theorem closeGroup_eq_nil {depth : Nat} {ts : List Token} (h : endsGroup depth ts = false) :
    closeGroup depth ts = [] := by
  cases hleft : closeGroup depth ts with
  | nil => rfl
  | cons token rest =>
      rw [endsGroup_of_ne_nil (hleft ▸ List.cons_ne_nil token rest)] at h
      cases h

theorem endsGroup_of_settled {token : Token} {rest left : List Token}
    (h : Settled (token :: rest) left) (hle : left.length ≤ (skipTree (token :: rest)).length) :
    endsGroup 0 (token :: rest) = true := by
  rcases h with hleft | hclosed
  · exact endsGroup_of_ne_nil (ne_nil_of_length_le hle hleft)
  · exact endsGroup_of_depthThrough hclosed

/-! ## Balanced runs -/

/-- The tokens lead from `depth` brackets to the outside of all brackets, with no closing bracket
too many and with tokens of allowed kinds only where there is no bracket around. -/
def isBalancedFrom (allowed : TokenKind → Bool) (depth : Nat) : List Token → Bool
  | [] => depth == 0
  | token :: rest =>
      (0 < depth || !token.kind.isClosing && allowed token.kind)
        && isBalancedFrom allowed (token.kind.depthAfter depth) rest

/-- All brackets are balanced, and outside of them there are tokens of allowed kinds only. -/
def IsBalanced (allowed : TokenKind → Bool) (ts : List Token) : Prop :=
  isBalancedFrom allowed 0 ts = true

section Balanced

variable {allowed : TokenKind → Bool} {token : Token} {rest : List Token}

/-- Only the kinds of the tokens count. -/
theorem isBalancedFrom_of_kinds {ts us : List Token} (h : ts.map Token.kind = us.map Token.kind)
    (depth : Nat) : isBalancedFrom allowed depth ts = isBalancedFrom allowed depth us := by
  induction ts generalizing us depth with
  | nil =>
      obtain rfl := List.map_eq_nil_iff.mp h.symm
      rfl
  | cons token ts ih =>
      obtain ⟨other, us, rfl, hkind, hkinds⟩ := List.map_eq_cons_iff.mp h.symm
      simp only [isBalancedFrom, hkind]
      rw [ih hkinds.symm]

theorem IsBalanced.allowed_head (h : IsBalanced allowed (token :: rest)) :
    token.kind.isClosing = false ∧ allowed token.kind = true := by
  have houtside := (Bool.and_eq_true_iff.mp h).1
  simpa using houtside

/-- A group in a balanced run ends inside it, and a balanced run is left. -/
theorem exists_closeGroup_of_isBalancedFrom {depth : Nat}
    (h : isBalancedFrom allowed depth (token :: rest) = true) (more : List Token) :
    ∃ later, closeGroup depth (token :: rest ++ more) = later ++ more ∧ IsBalanced allowed later
      ∧ later.length ≤ rest.length := by
  induction rest generalizing depth token with
  | nil =>
      have hinner : token.kind.depthAfter depth = 0 := by
        simpa [isBalancedFrom] using (Bool.and_eq_true_iff.mp h).2
      refine ⟨[], ?_, rfl, Nat.le_refl _⟩
      rw [List.cons_append, closeGroup_cons_of_eq_zero hinner]
  | cons next rest ih =>
      have hrest := (Bool.and_eq_true_iff.mp h).2
      rw [List.cons_append]
      by_cases hinner : token.kind.depthAfter depth = 0
      · rw [closeGroup_cons_of_eq_zero hinner]
        rw [hinner] at hrest
        exact ⟨next :: rest, rfl, hrest, Nat.le_refl _⟩
      · rw [closeGroup_cons_of_ne_zero hinner]
        obtain ⟨later, hgroup, hlater, hle⟩ := ih hrest
        exact ⟨later, hgroup, hlater, Nat.le_succ_of_le hle⟩

theorem IsBalanced.exists_skipTree (h : IsBalanced allowed (token :: rest)) (more : List Token) :
    ∃ later, skipTree (token :: rest ++ more) = later ++ more ∧ IsBalanced allowed later
      ∧ later.length < (token :: rest).length := by
  obtain ⟨later, hskip, hlater, hle⟩ := exists_closeGroup_of_isBalancedFrom h more
  exact ⟨later, hskip, hlater, Nat.lt_succ_of_le hle⟩

end Balanced

/-! ## Passing over closed runs -/

theorem closing_skipTree {ts : List Token} (h : endsGroup 0 ts = true) :
    Closing ts (skipTree ts) := by
  obtain ⟨front, last, hsplit, hclosed, -⟩ := exists_front_of_endsGroup h
  exact ⟨front ++ [last], hsplit, hclosed⟩

theorem closing_skipAngles {depth : Nat} {ts : List Token}
    (h : Settled ts (skipAngles depth ts)) : Closing ts (skipAngles depth ts) := by
  fun_induction skipAngles depth ts with
  | case1 => exact .refl _
  | case2 depth token rest hless ih =>
      have hfirst : Closing (token :: rest) rest := .cons (by simp [hless, TokenKind.isOpening])
      exact hfirst.trans (ih (h.of_closing hfirst))
  | case3 depth token rest _ hgreater _ =>
      exact .cons (by simp [hgreater, TokenKind.isOpening])
  | case4 depth token rest _ hgreater _ ih =>
      have hfirst : Closing (token :: rest) rest := .cons (by simp [hgreater, TokenKind.isOpening])
      exact hfirst.trans (ih (h.of_closing hfirst))
  | case5 token rest _ _ _ => exact closing_skipTree (endsGroup_of_settled h (Nat.le_refl _))
  | case6 depth token rest _ _ _ _ ih =>
      have hgroup := closing_skipTree (endsGroup_of_settled h (length_skipAngles_le depth _))
      exact hgroup.trans (ih (h.of_closing hgroup))

theorem closing_skipTypeParameters {ts : List Token} (h : Settled ts (skipTypeParameters ts)) :
    Closing ts (skipTypeParameters ts) := by
  cases ts with
  | nil => exact .refl _
  | cons token rest =>
      by_cases hless : token.kind = .mark .less
      · simp only [skipTypeParameters, if_pos hless] at h ⊢
        exact closing_skipAngles h
      · simp only [skipTypeParameters, if_neg hless]
        exact .refl _

end Specimen.Source
