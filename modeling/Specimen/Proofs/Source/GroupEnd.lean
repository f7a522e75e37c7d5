import Specimen.Proofs.Source.TypeExtent

/-!
# Where a group ends

A bracketed group is passed over by `closeGroup`, and `arrowAhead` looks ahead for the arrow
behind a group. Each counts brackets on its own and in its own way: the one stops at any token
where the depth is zero, the other at a closing bracket only.

The depth is counted here without either of them (`excess`): all brackets that are opened, less
all that are closed. Inside a group no closing bracket is one too many, so the depth of the
readers is this number (`depthAfter_eq_add`), and the group ends at the first token behind which
it is zero (`EndsAfter`). Main statements: `EndsAfter.closeGroup` and `arrowAhead_eq_startsWith`.
-/

namespace Specimen.Source

/-! ## Counting brackets -/

/-- How many more brackets a run opens than it closes. -/
def excess (ts : List Token) : Int :=
  ts.countP (·.kind.isOpening) - ts.countP (·.kind.isClosing)

theorem excess_nil : excess [] = 0 :=
  rfl

theorem excess_cons (token : Token) (ts : List Token) :
    excess (token :: ts) = excess [token] + excess ts := by
  simp only [excess, List.countP_cons, List.countP_nil]
  push_cast
  omega

theorem excess_opening {token : Token} (h : token.kind.isOpening = true) : excess [token] = 1 := by
  have hclose : token.kind.isClosing = false := by
    rw [← Bool.not_eq_true]
    intro hclose
    rw [TokenKind.isOpening_of_isClosing hclose] at h
    cases h
  simp [excess, h, hclose]

/-- Inside brackets the depth goes up and down with the brackets. -/
theorem depthAfter_eq_add {token : Token} {depth : Nat} (hdepth : 0 < depth) :
    (token.kind.depthAfter depth : Int) = depth + excess [token] := by
  by_cases hopen : token.kind.isOpening = true
  · rw [excess_opening hopen, TokenKind.depthAfter_opening hopen]
    rfl
  · by_cases hclose : token.kind.isClosing = true
    · simp [TokenKind.depthAfter, excess, hopen, hclose]
      omega
    · simp [TokenKind.depthAfter, excess, hopen, hclose]

/-! ## The token that ends a group -/

/-- The token at `n` is the first one behind which one is outside, where one begins `depth` brackets
deep. -/
structure EndsAfter (depth : Nat) (ts : List Token) (n : Nat) : Prop where
  inside : n < ts.length
  zero : (depth : Int) + excess (ts.take (n + 1)) = 0
  first : ∀ k < n, (depth : Int) + excess (ts.take (k + 1)) ≠ 0

section Step

variable {depth : Nat} {token : Token} {rest : List Token}

theorem excess_take_succ (hdepth : 0 < depth) (n : Nat) :
    (depth : Int) + excess ((token :: rest).take (n + 1))
      = (token.kind.depthAfter depth : Int) + excess (rest.take n) := by
  rw [List.take_succ_cons, excess_cons, depthAfter_eq_add hdepth, Int.add_assoc]

theorem endsAfter_zero_iff (hdepth : 0 < depth) :
    EndsAfter depth (token :: rest) 0 ↔ token.kind.depthAfter depth = 0 := by
  have hzero : (depth : Int) + excess ((token :: rest).take (0 + 1))
      = (token.kind.depthAfter depth : Int) := by
    rw [excess_take_succ hdepth, List.take_zero, excess_nil, Int.add_zero]
  constructor
  · intro h
    exact Int.ofNat_eq_zero.mp (hzero ▸ h.zero)
  · intro h
    refine ⟨Nat.zero_lt_succ _, ?_, fun k hk => absurd hk (Nat.not_lt_zero k)⟩
    rw [hzero, h]
    rfl

theorem endsAfter_succ_iff (hdepth : 0 < depth) (n : Nat) :
    EndsAfter depth (token :: rest) (n + 1)
      ↔ token.kind.depthAfter depth ≠ 0 ∧ EndsAfter (token.kind.depthAfter depth) rest n := by
  constructor
  · rintro ⟨hinside, hzero, hfirst⟩
    refine ⟨?_, Nat.lt_of_succ_lt_succ hinside, ?_, ?_⟩
    · have := hfirst 0 (Nat.zero_lt_succ n)
      rw [excess_take_succ hdepth, List.take_zero, excess_nil] at this
      omega
    · rwa [excess_take_succ hdepth] at hzero
    · intro k hk
      have := hfirst (k + 1) (Nat.succ_lt_succ hk)
      rwa [excess_take_succ hdepth] at this
  · rintro ⟨hinner, hinside, hzero, hfirst⟩
    refine ⟨Nat.succ_lt_succ hinside, ?_, ?_⟩
    · rwa [excess_take_succ hdepth]
    · intro k hk
      rw [excess_take_succ hdepth]
      cases k with
      | zero =>
          rw [List.take_zero, excess_nil]
          omega
      | succ k => exact hfirst k (Nat.lt_of_succ_lt_succ hk)

end Step

/-- A group is passed over up to the token that ends it. -/
theorem EndsAfter.closeGroup {depth n : Nat} {ts : List Token} (h : EndsAfter depth ts n)
    (hdepth : 0 < depth) : closeGroup depth ts = ts.drop (n + 1) := by
  induction ts generalizing depth n with
  | nil => exact absurd h.inside (Nat.not_lt_zero n)
  | cons token rest ih =>
      cases n with
      | zero =>
          rw [closeGroup_cons_of_eq_zero ((endsAfter_zero_iff hdepth).mp h)]
          rfl
      | succ n =>
          obtain ⟨hinner, hrest⟩ := (endsAfter_succ_iff hdepth n).mp h
          rw [closeGroup_cons_of_ne_zero hinner, ih hrest (Nat.pos_of_ne_zero hinner)]
          rfl

/-- A group that comes to its end is ended by one of the tokens. -/
theorem exists_endsAfter {depth : Nat} {ts : List Token} (hdepth : 0 < depth)
    (h : endsGroup depth ts = true) : ∃ n, EndsAfter depth ts n := by
  induction ts generalizing depth with
  | nil => cases h
  | cons token rest ih =>
      by_cases hinner : token.kind.depthAfter depth = 0
      · exact ⟨0, (endsAfter_zero_iff hdepth).mpr hinner⟩
      · have hrest : endsGroup (token.kind.depthAfter depth) rest = true := by
          simpa [endsGroup, hinner] using h
        obtain ⟨n, hn⟩ := ih (Nat.pos_of_ne_zero hinner) hrest
        exact ⟨n + 1, (endsAfter_succ_iff hdepth n).mpr ⟨hinner, hn⟩⟩

/-- Without such a token everything is passed over. -/
theorem closeGroup_of_not_endsAfter {depth : Nat} {ts : List Token} (hdepth : 0 < depth)
    (h : ¬ ∃ n, EndsAfter depth ts n) : closeGroup depth ts = [] := by
  apply closeGroup_eq_nil
  rw [← Bool.not_eq_true]
  intro hends
  exact h (exists_endsAfter hdepth hends)

/-! ## Looking ahead -/

/-- Inside brackets the depth becomes zero at a closing bracket only, so both ways of counting
stop at the same token. -/
theorem arrowAhead_eq_startsWith {depth : Nat} (hdepth : 0 < depth) (ts : List Token) :
    arrowAhead depth ts = startsWith (.mark .arrow) (closeGroup depth ts) := by
  induction ts generalizing depth with
  | nil => rfl
  | cons token rest ih =>
      by_cases hinner : token.kind.depthAfter depth = 0
      · have hclosing : token.kind.isClosing = true :=
          TokenKind.isClosing_of_depthAfter hinner (Nat.ne_of_gt hdepth)
        rw [closeGroup_cons_of_eq_zero hinner, arrowAhead, if_pos ⟨hclosing, hinner⟩]
      · rw [closeGroup_cons_of_ne_zero hinner, arrowAhead, if_neg fun h => hinner h.2]
        exact ih (Nat.pos_of_ne_zero hinner)

/-- At an opening bracket the look ahead sees what is left when the group is passed over. -/
theorem arrowFollowsGroup_opening {opening : Token} (hopen : opening.kind.isOpening = true)
    (rest : List Token) :
    arrowFollowsGroup (opening :: rest)
      = startsWith (.mark .arrow) (skipTree (opening :: rest)) := by
  have hdepth : opening.kind.depthAfter 0 = 1 := TokenKind.depthAfter_opening hopen 0
  rw [arrowFollowsGroup, arrowAhead, if_neg (by omega), hdepth,
    arrowAhead_eq_startsWith Nat.one_pos, skipTree_opening hopen]

end Specimen.Source
