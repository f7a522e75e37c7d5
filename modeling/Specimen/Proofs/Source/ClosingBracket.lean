import Mathlib
import Specimen.Proofs.Source.GroupEnd

/-!
# Closing brackets

`ClosesAt` says of two places among the tokens of a document that the bracket at the one is closed
at the other: there the running depth is back at zero for the first time, whatever brackets stand
in between. A group is passed over exactly up to this token. The look ahead for a function type
finds the same token, so where it sees an arrow the parameters and the arrow are found again when
they are read. Main statement: `groupEnd_exact`.
-/

namespace Specimen.Source

/-! ## Brackets among all tokens -/

/-- How deep one is behind the token at `j`, counted from the token at `i` on: the brackets of all
three kinds that are opened, less those that are closed. -/
def runningDepth (tokens : List Token) (i j : Nat) : Int :=
  excess (tokens.extract i (j + 1))

/-- The bracket that is opened at `i` is closed at `j`: the first later token at which the running
depth is back at zero. -/
structure ClosesAt (tokens : List Token) (i j : Nat) : Prop where
  later : i < j
  inside : j < tokens.length
  zero : runningDepth tokens i j = 0
  first : ∀ k, i < k → k < j → runningDepth tokens i k ≠ 0

section Places

variable {tokens rest : List Token} {i : Nat} {opening : Token}

theorem runningDepth_eq (hplace : tokens.drop i = opening :: rest)
    (hopen : opening.kind.isOpening = true) (n : Nat) :
    runningDepth tokens i (i + 1 + n) = ((1 : Nat) : Int) + excess (rest.take (n + 1)) := by
  have hlength : i + 1 + n + 1 - i = n + 1 + 1 := by omega
  rw [runningDepth, List.extract_eq_take_drop, hplace, hlength, List.take_succ_cons, excess_cons,
    excess_opening hopen]
  rfl

theorem closesAt_iff (hplace : tokens.drop i = opening :: rest)
    (hopen : opening.kind.isOpening = true) (n : Nat) :
    ClosesAt tokens i (i + 1 + n) ↔ EndsAfter 1 rest n := by
  have hlength : tokens.length - i = rest.length + 1 := by
    rw [← List.length_drop, hplace, List.length_cons]
  constructor
  · rintro ⟨-, hinside, hzero, hfirst⟩
    refine ⟨by omega, ?_, ?_⟩
    · rwa [← runningDepth_eq hplace hopen]
    · intro k hk
      rw [← runningDepth_eq hplace hopen]
      exact hfirst (i + 1 + k) (by omega) (by omega)
  · rintro ⟨hinside, hzero, hfirst⟩
    refine ⟨by omega, by omega, ?_, ?_⟩
    · rwa [runningDepth_eq hplace hopen]
    · intro k hi hk
      obtain ⟨m, rfl⟩ := Nat.exists_eq_add_of_le (Nat.succ_le_of_lt hi)
      rw [Nat.succ_eq_add_one, runningDepth_eq hplace hopen]
      exact hfirst m (by omega)

theorem ClosesAt.endsAfter {j : Nat} (h : ClosesAt tokens i j)
    (hplace : tokens.drop i = opening :: rest) (hopen : opening.kind.isOpening = true) :
    ∃ n, j = i + 1 + n ∧ EndsAfter 1 rest n := by
  obtain ⟨n, rfl⟩ := Nat.exists_eq_add_of_le (Nat.succ_le_of_lt h.later)
  exact ⟨n, rfl, (closesAt_iff hplace hopen n).mp h⟩

/-- A group is passed over up to its closing bracket. -/
theorem ClosesAt.skipTree {j : Nat} (h : ClosesAt tokens i j)
    (hplace : tokens.drop i = opening :: rest) (hopen : opening.kind.isOpening = true) :
    skipTree (tokens.drop i) = tokens.drop (j + 1) := by
  obtain ⟨n, rfl, hn⟩ := h.endsAfter hplace hopen
  have hrest : tokens.drop (i + 1) = rest := by
    rw [← List.drop_drop, hplace]
    rfl
  rw [hplace, skipTree_opening hopen, hn.closeGroup Nat.one_pos, ← hrest, List.drop_drop]
  rfl

/-- A group without a closing bracket is passed over up to the end. -/
theorem skipTree_of_not_closesAt (hplace : tokens.drop i = opening :: rest)
    (hopen : opening.kind.isOpening = true) (h : ¬ ∃ j, ClosesAt tokens i j) :
    Source.skipTree (tokens.drop i) = [] := by
  rw [hplace, skipTree_opening hopen]
  apply closeGroup_of_not_endsAfter Nat.one_pos
  rintro ⟨n, hn⟩
  exact h ⟨_, (closesAt_iff hplace hopen n).mpr hn⟩

end Places

/-! ## Function types -/

theorem startsWith_drop {kind : TokenKind} {ts : List Token} {n : Nat} :
    startsWith kind (ts.drop n) = true ↔ ∃ token, ts[n]? = some token ∧ token.kind = kind := by
  rw [← List.head?_drop]
  cases ts.drop n with
  | nil => simp [startsWith]
  | cons token rest => simp [startsWith]

theorem exists_expect {kind : TokenKind} {ts : List Token} (h : startsWith kind ts = true) :
    ∃ read, expect kind ts = .ok read ∧ read.rest = ts.tail := by
  obtain ⟨token, rest, rfl, hkind⟩ := startsWith_eq_true h
  exact ⟨.one token rest (), by rw [expect, if_pos hkind], rfl⟩

section Function

variable {opening : Token} {rest : List Token} (hopen : opening.kind = .mark .openParen)
  (harrow : arrowFollowsGroup (opening :: rest) = true)
include hopen harrow

/-- Where an arrow follows the group, the parameters of a function type and its arrow are found. -/
theorem exists_signatureHead :
    ∃ head, signatureHead (opening :: rest) = .ok head
      ∧ head.rest = (skipTree (opening :: rest)).tail := by
  rw [arrowFollowsGroup_opening (by simp [hopen, TokenKind.isOpening])] at harrow
  obtain ⟨arrow, hread, hrest⟩ := exists_expect harrow
  rw [signatureHead, if_pos hopen, hread]
  exact ⟨_, rfl, hrest⟩

/-- So the type at the group fails where the type behind the arrow fails, and nowhere else. -/
theorem primaryType_eq_error_iff (fault : Fault) :
    primaryType (opening :: rest) = .error fault
      ↔ typeExpr (skipTree (opening :: rest)).tail = .error fault := by
  obtain ⟨head, hhead, hrest⟩ := exists_signatureHead hopen harrow
  rw [primaryType, hopen, ← hrest]
  dsimp only
  rw [if_pos harrow, hhead]
  cases hresult : typeExpr head.rest with
  | error other => simp only [bind, Except.bind, hresult, Except.error.injEq]
  | ok result => simp only [bind, Except.bind, hresult, pure, Except.pure, reduceCtorEq]

end Function

/-! ## The two readers of groups -/

/-- A group is passed over exactly up to its closing bracket, or up to the end if it has none. The
look ahead sees an arrow exactly if the group in round brackets has a closing bracket and an arrow
comes next, and then the type there is a function type: its parameters and its arrow are found,
and it fails only where the type behind the arrow fails. -/
theorem groupEnd_exact (tokens : List Token) (i : Nat) (opening : Token)
    (hplace : tokens[i]? = some opening) (hopen : opening.kind.isOpening = true) :
    (∀ j, ClosesAt tokens i j → skipTree (tokens.drop i) = tokens.drop (j + 1))
    ∧ ((¬ ∃ j, ClosesAt tokens i j) → skipTree (tokens.drop i) = [])
    ∧ (opening.kind = .mark .openParen →
        (arrowFollowsGroup (tokens.drop i) = true
          ↔ ∃ j, ClosesAt tokens i j
              ∧ ∃ arrow, tokens[j + 1]? = some arrow ∧ arrow.kind = .mark .arrow)
        ∧ ∀ j, ClosesAt tokens i j → arrowFollowsGroup (tokens.drop i) = true →
            (∃ head, signatureHead (tokens.drop i) = .ok head ∧ head.rest = tokens.drop (j + 2))
            ∧ ∀ fault, primaryType (tokens.drop i) = .error fault
                ↔ typeExpr (tokens.drop (j + 2)) = .error fault) := by
  obtain ⟨hi, rfl⟩ := List.getElem?_eq_some_iff.mp hplace
  have hdrop : tokens.drop i = tokens[i] :: tokens.drop (i + 1) := List.drop_eq_getElem_cons hi
  refine ⟨fun j hj => hj.skipTree hdrop hopen, skipTree_of_not_closesAt hdrop hopen, ?_⟩
  intro hparen
  have hlook : arrowFollowsGroup (tokens.drop i)
      = startsWith (.mark .arrow) (skipTree (tokens.drop i)) := by
    rw [hdrop]
    exact arrowFollowsGroup_opening hopen _
  have hnext : ∀ j, ClosesAt tokens i j → (arrowFollowsGroup (tokens.drop i) = true
      ↔ ∃ arrow, tokens[j + 1]? = some arrow ∧ arrow.kind = .mark .arrow) := by
    intro j hj
    rw [hlook, hj.skipTree hdrop hopen, startsWith_drop]
  refine ⟨⟨?_, ?_⟩, ?_⟩
  · intro harrow
    by_cases hend : ∃ j, ClosesAt tokens i j
    · obtain ⟨j, hj⟩ := hend
      exact ⟨j, hj, (hnext j hj).mp harrow⟩
    · -- nothing is left behind a group without an end
      rw [hlook, skipTree_of_not_closesAt hdrop hopen hend] at harrow
      cases harrow
  · rintro ⟨j, hj, harrow⟩
    exact (hnext j hj).mpr harrow
  · intro j hj harrow
    have hbehind : (skipTree (tokens.drop i)).tail = tokens.drop (j + 2) := by
      rw [hj.skipTree hdrop hopen, List.tail_drop]
    rw [hdrop] at harrow hbehind ⊢
    rw [← hbehind]
    exact ⟨exists_signatureHead hparen harrow, primaryType_eq_error_iff hparen harrow⟩

/-- Brackets of different kinds are counted together: the group is closed by the second round
bracket, and the arrow behind it is seen. -/
theorem groupEnd_exact_crossed :
    let tokens := (Tokens.ofText "type F = (a: [K)) => T".toList).tokens
    tokens[3]?.map Token.kind = some (.mark .openParen)
      ∧ ClosesAt tokens 3 9
      ∧ skipTree (tokens.drop 3) = tokens.drop 10
      ∧ arrowFollowsGroup (tokens.drop 3) = true
      ∧ ∃ head, signatureHead (tokens.drop 3) = .ok head ∧ head.rest = tokens.drop 11 := by
  intro tokens
  let opening : Token := ⟨.mark .openParen, [' '], ['('], 9⟩
  let arrow : Token := ⟨.mark .arrow, [' '], ['=', '>'], 18⟩
  have htokens : tokens =
      [⟨.keyword .type, [], ['t', 'y', 'p', 'e'], 0⟩, ⟨.identifier, [' '], ['F'], 5⟩,
        ⟨.mark .equals, [' '], ['='], 7⟩, opening, ⟨.identifier, [], ['a'], 10⟩,
        ⟨.mark .colon, [], [':'], 11⟩, ⟨.mark .openBracket, [' '], ['['], 13⟩,
        ⟨.identifier, [], ['K'], 14⟩, ⟨.mark .closeParen, [], [')'], 15⟩,
        ⟨.mark .closeParen, [], [')'], 16⟩, arrow, ⟨.identifier, [' '], ['T'], 21⟩] := by
    dsimp only [tokens, opening, arrow]
    cbv
  have hplace : tokens[3]? = some opening := by
    rw [htokens]
    rfl
  have harrow : tokens[10]? = some arrow := by
    rw [htokens]
    rfl
  have hcloses : ClosesAt tokens 3 9 := by
    rw [htokens]
    refine ⟨by decide, by simp, rfl, ?_⟩
    intro k hlow hhigh
    interval_cases k <;> decide
  obtain ⟨hskip, -, hparen⟩ := groupEnd_exact tokens 3 opening hplace rfl
  obtain ⟨hlook, hfunction⟩ := hparen rfl
  have hfollows : arrowFollowsGroup (tokens.drop 3) = true :=
    hlook.mpr ⟨9, hcloses, arrow, harrow, rfl⟩
  rw [hplace]
  exact ⟨rfl, hcloses, hskip 9 hcloses, hfollows, (hfunction 9 hcloses hfollows).1⟩

end Specimen.Source
