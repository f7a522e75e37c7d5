import Specimen.Proofs.Source.Overlap

/-!
# Tokens by longest texts

`Munched` says how a document is split into tokens, with the patterns of the rules alone: at each
place stands the longest text of all rules (`IsLongest`), a keyword rather than a name. Where that
starts a block comment, the comment goes on to its first end, and without an end it is a token up to
the end of the document. Where no rule has a text stands an unrecognized token (`IsStray`).

Main statement: `munched_iff_eq_ofText`, that the tokens of a document are split in this way and
that there is no other way.
-/

namespace Specimen.Source

open Pattern

/-! ## What stands at the front -/

/-- The piece has the longest text at the front of the input, and is preferred to every other piece
with the same text. -/
structure IsLongest (input : List Char) (piece : Piece) (length : Nat) : Prop where
  pos : 0 < length
  fits : ∃ pattern, (piece, pattern) ∈ rules ∧ Fits pattern input length
  longest : ∀ rule ∈ rules, ∀ m, Fits rule.2 input m → m ≤ length
  preferred : ∀ rule ∈ rules, Fits rule.2 input length → piece.isPreferredTo rule.1 = true

/-- No rule has a text at the front of the input. -/
def Unmatched (input : List Char) : Prop :=
  ∀ rule ∈ rules, ∀ m, 0 < m → ¬ Fits rule.2 input m

/-- The first end of a block comment comes right behind the text. -/
def EndsFirst (body : List Char) : Prop :=
  ¬ ['*', '/'] <:+: body ++ ['*']

/-- What may stand behind an opening quote. -/
def insideQuotes (quote : Char) : Pattern :=
  .many (.either (noneOf (if quote = '`' then ['`', '\\'] else [quote, '\\', '\n'])) protectedChar)

/-- How far an unrecognized token goes: it is one character, or a quote and the longest text behind
it that may stand between quotes. -/
inductive IsStray : (input : List Char) → (length : Nat) → Prop
  | single {first : Char} {rest : List Char} (hfirst : first ∉ ['"', '\'', '`']) :
      IsStray (first :: rest) 1
  | quote {first : Char} {rest : List Char} {length : Nat} (hfirst : first ∈ ['"', '\'', '`'])
      (hfits : Fits (insideQuotes first) rest length)
      (hlongest : ∀ m, Fits (insideQuotes first) rest m → m ≤ length) :
      IsStray (first :: rest) (length + 1)

/-- A token of a kind, or a gap, of a certain length stands at the front of the input. -/
inductive IsPiece (input : List Char) : (kind? : Option TokenKind) → (length : Nat) → Prop
  | token {kind : TokenKind} {length : Nat} (h : IsLongest input (.token kind) length) :
      IsPiece input (some kind) length
  | blank {length : Nat} (h : IsLongest input .blank length) : IsPiece input none length
  | comment {start body after : List Char} (h : IsLongest input .openComment start.length)
      (hinput : input = start ++ (body ++ '*' :: '/' :: after)) (hend : EndsFirst body) :
      IsPiece input none (start.length + (body.length + 2))
  | unclosed {length : Nat} (h : IsLongest input .openComment length)
      (hend : ¬ ['*', '/'] <:+: input.drop length) :
      IsPiece input (some .unclosedComment) input.length
  | unrecognized {length : Nat} (h : Unmatched input) (hlength : IsStray input length) :
      IsPiece input (some .unrecognized) length

/-- A document that is split piece by piece. The input stands at byte `offset`, and `gap` stands
between the token before and the input. -/
inductive Munched : (offset : Nat) → (gap input : List Char) → (document : Tokens) → Prop
  | done {offset : Nat} {gap : List Char} : Munched offset gap [] ⟨[], gap⟩
  | gap {offset : Nat} {gap text rest : List Char} {document : Tokens}
      (hpiece : IsPiece (text ++ rest) none text.length)
      (hlater : Munched (offset + byteSize text) (gap ++ text) rest document) :
      Munched offset gap (text ++ rest) document
  | token {offset : Nat} {gap text rest : List Char} {kind : TokenKind} {later : Tokens}
      (hpiece : IsPiece (text ++ rest) (some kind) text.length)
      (hlater : Munched (offset + byteSize text) [] rest later) :
      Munched offset gap (text ++ rest) ⟨⟨kind, gap, text, offset⟩ :: later.tokens, later.tail⟩

/-! ## The longest text -/

/-- The rules of keywords stand before the rule of names. -/
theorem keywords_first : rules.Pairwise fun rule later =>
    ¬ (rule.1 = .token .identifier ∧ later.1.isKeyword = true) := by
  decide +kernel

theorem Fits.ne_nil {p : Pattern} {input : List Char} {n : Nat} (h : Fits p input n)
    (hn : 0 < n) : input.take n ≠ [] := by
  intro hnil
  have := congrArg List.length hnil
  rw [List.length_take, Nat.min_eq_left h.1, List.length_nil] at this
  omega

theorem isLongest_of_longestRule? {input : List Char} {piece : Piece} {n : Nat} (hn : 0 < n)
    (h : longestRule? input rules = some (piece, n)) : IsLongest input piece n := by
  have hfirst : Chosen input piece n rules := chosen_of_longestRule? h
  obtain ⟨before, pattern, after, hrules, hfits, hbefore⟩ := hfirst.exists_split
  have hchosen : (piece, pattern) ∈ rules := by simp [hrules]
  refine ⟨hn, ⟨pattern, hchosen, hfits⟩, hfirst.le, ?_⟩
  intro rule hrule hother
  rcases overlap hchosen hrule (Fits.ne_nil hfits hn) hfits.2 hother.2 with hpreferred | hpreferred
  · exact hpreferred
  · simp only [Piece.isPreferredTo, Bool.or_eq_true, beq_iff_eq, Bool.and_eq_true] at hpreferred ⊢
    rcases hpreferred with rfl | ⟨hkeyword, hname⟩
    · exact .inl rfl
    · -- a keyword would have been chosen before the names
      exfalso
      have hpairs := hrules ▸ keywords_first
      rcases List.mem_append.mp (hrules ▸ hrule) with hmem | hmem
      · exact absurd (hbefore rule hmem n hother) (Nat.lt_irrefl n)
      · rcases List.mem_cons.mp hmem with rfl | hmem
        · rw [hname] at hkeyword
          cases hkeyword
        · have hlater := (List.pairwise_cons.mp (List.pairwise_append.mp hpairs).2.1).1 rule hmem
          exact hlater ⟨hname, hkeyword⟩

theorem IsLongest.unique {input : List Char} {piece piece' : Piece} {n n' : Nat}
    (h : IsLongest input piece n) (h' : IsLongest input piece' n') : piece = piece' ∧ n = n' := by
  obtain ⟨pattern, hrule, hfits⟩ := h.fits
  obtain ⟨pattern', hrule', hfits'⟩ := h'.fits
  obtain rfl : n = n' := Nat.le_antisymm (h'.longest _ hrule n hfits) (h.longest _ hrule' n' hfits')
  have hpreferred := h.preferred _ hrule' hfits'
  have hpreferred' := h'.preferred _ hrule hfits
  simp only [Piece.isPreferredTo, Bool.or_eq_true, beq_iff_eq, Bool.and_eq_true]
    at hpreferred hpreferred'
  rcases hpreferred with rfl | ⟨hkeyword, rfl⟩
  · exact ⟨rfl, rfl⟩
  · rcases hpreferred' with rfl | ⟨hkeyword', -⟩
    · exact ⟨rfl, rfl⟩
    · cases hkeyword'

theorem longestRule?_of_isLongest {input : List Char} {piece : Piece} {n : Nat}
    (h : IsLongest input piece n) : longestRule? input rules = some (piece, n) := by
  obtain ⟨pattern, hrule, hfits⟩ := h.fits
  cases hlongest : longestRule? input rules with
  | none => exact absurd hfits (longestRule?_eq_none_iff.mp hlongest _ hrule n)
  | some found =>
      obtain ⟨piece', n'⟩ := found
      have hfirst := chosen_of_longestRule? hlongest
      have hpos : 0 < n' := Nat.lt_of_lt_of_le h.pos (hfirst.le _ hrule n hfits)
      obtain ⟨rfl, rfl⟩ := h.unique (isLongest_of_longestRule? hpos hlongest)
      rfl

/-- Rules that match no text but the empty one leave the input unmatched. -/
theorem unmatched_of_longestRule? {input : List Char}
    (h : ∀ piece n, longestRule? input rules ≠ some (piece, n + 1)) : Unmatched input := by
  intro rule hrule m hm hfits
  cases hlongest : longestRule? input rules with
  | none => exact longestRule?_eq_none_iff.mp hlongest rule hrule m hfits
  | some found =>
      obtain ⟨piece, n⟩ := found
      have hle := (chosen_of_longestRule? hlongest).le rule hrule m hfits
      obtain ⟨n, rfl⟩ := Nat.exists_eq_succ_of_ne_zero (by omega : n ≠ 0)
      exact h piece n hlongest

theorem longestRule?_of_unmatched {input : List Char} (h : Unmatched input) (piece : Piece)
    (n : Nat) : longestRule? input rules ≠ some (piece, n + 1) := by
  intro hlongest
  obtain ⟨pattern, hrule, hfits⟩ := (isLongest_of_longestRule? (Nat.succ_pos n) hlongest).fits
  exact h _ hrule (n + 1) (Nat.succ_pos n) hfits

/-! ## Block comments -/

theorem isPrefix_star_slash_iff {c : Char} {text : List Char} :
    ['*', '/'] <+: c :: text ↔ c = '*' ∧ ∃ rest, text = '/' :: rest := by
  rw [List.cons_prefix_cons, eq_comm]
  cases text with
  | nil => simp
  | cons d text => simp [List.cons_prefix_cons, eq_comm]

theorem endsFirst_nil : EndsFirst [] := by
  intro hinfix
  have := hinfix.length_le
  simp at this

theorem endsFirst_cons_iff {c : Char} {body : List Char} :
    EndsFirst (c :: body) ↔ ¬ ['*', '/'] <+: c :: body ∧ EndsFirst body := by
  rw [EndsFirst, List.cons_append, List.infix_cons_iff, not_or, isPrefix_star_slash_iff,
    isPrefix_star_slash_iff]
  refine and_congr_left fun _ => not_congr (and_congr_right fun _ => ?_)
  cases body <;> simp

/-- The length of a comment behind its start reaches to the first end. -/
theorem commentLength?_eq_some_iff {input : List Char} {n : Nat} :
    commentLength? input = some n ↔
      ∃ body after, input = body ++ '*' :: '/' :: after ∧ EndsFirst body ∧ n = body.length + 2 := by
  fun_induction commentLength? input generalizing n with
  | case1 rest =>
      constructor
      · intro h
        cases h
        exact ⟨[], rest, rfl, endsFirst_nil, rfl⟩
      · rintro ⟨body, after, hinput, hend, rfl⟩
        cases body with
        | nil => rfl
        | cons c body =>
            refine absurd (isPrefix_star_slash_iff.mpr ?_) (endsFirst_cons_iff.mp hend).1
            obtain ⟨rfl, htail⟩ := List.cons.inj hinput
            cases body with
            | nil => cases htail
            | cons d body =>
                obtain ⟨rfl, -⟩ := List.cons.inj htail
                exact ⟨rfl, body, rfl⟩
  | case2 c rest hnot ih =>
      rw [Option.map_eq_some_iff]
      constructor
      · rintro ⟨m, hm, rfl⟩
        obtain ⟨body, after, rfl, hend, rfl⟩ := ih.mp hm
        refine ⟨c :: body, after, rfl, endsFirst_cons_iff.mpr ⟨?_, hend⟩, by simp⟩
        rw [isPrefix_star_slash_iff]
        rintro ⟨rfl, more, rfl⟩
        exact hnot _ rfl rfl
      · rintro ⟨body, after, hinput, hend, rfl⟩
        cases body with
        | nil =>
            obtain ⟨rfl, rfl⟩ := List.cons.inj hinput
            exact absurd rfl (hnot after rfl)
        | cons d body =>
            obtain ⟨rfl, rfl⟩ := List.cons.inj hinput
            exact ⟨body.length + 2, ih.mpr ⟨body, after, rfl, (endsFirst_cons_iff.mp hend).2, rfl⟩,
              by simp⟩
  | case3 => simp

theorem commentLength?_eq_none_iff {input : List Char} :
    commentLength? input = none ↔ ¬ ['*', '/'] <:+: input := by
  fun_induction commentLength? input with
  | case1 rest =>
      refine ⟨nofun, fun h => absurd ?_ h⟩
      exact ⟨[], rest, rfl⟩
  | case2 c rest hnot ih =>
      rw [Option.map_eq_none_iff, ih, List.infix_cons_iff, not_or, isPrefix_star_slash_iff]
      refine ⟨fun h => ⟨?_, h⟩, fun h => h.2⟩
      rintro ⟨rfl, more, rfl⟩
      exact hnot more rfl rfl
  | case3 => simp

/-! ## Unrecognized tokens -/

theorem matches_insideQuotes_nil (quote : Char) : Matches (insideQuotes quote) [] := .done

theorem matches_insideQuotes_cons_iff {quote c : Char} {s : List Char} :
    Matches (insideQuotes quote) (c :: s) ↔
      (c ≠ quote ∧ c ≠ '\\' ∧ (c = '\n' → quote = '`') ∧ Matches (insideQuotes quote) s)
        ∨ (c = '\\' ∧ ∃ d t, s = d :: t ∧ d ≠ '\n' ∧ Matches (insideQuotes quote) t) := by
  have hplain : (!(if quote = '`' then ['`', '\\'] else [quote, '\\', '\n']).contains c) = true
      ↔ c ≠ quote ∧ c ≠ '\\' ∧ (c = '\n' → quote = '`') := by
    split
    · rename_i hquote
      simp [hquote]
    · rename_i hquote
      simp [hquote]
  constructor
  · intro h
    obtain ⟨t, u, rfl, hfirst, hrest⟩ := matches_many_cons h
    rcases matches_either_iff.mp hfirst with hone | hprotected
    · obtain ⟨d, hd, heq⟩ := matches_one_iff.mp hone
      cases heq
      obtain ⟨hquote, hbackslash, hnewline⟩ := hplain.mp hd
      exact .inl ⟨hquote, hbackslash, hnewline, hrest⟩
    · obtain ⟨x, y, heq, hx, hy⟩ := matches_seq_iff.mp hprotected
      obtain ⟨b, hb, rfl⟩ := matches_one_iff.mp hx
      obtain ⟨d, hd, rfl⟩ := matches_one_iff.mp hy
      cases heq
      exact .inr ⟨by simpa using hb, d, u, rfl, by simpa using hd, hrest⟩
  · rintro (⟨hquote, hbackslash, hnewline, hrest⟩ | ⟨rfl, d, t, rfl, hd, hrest⟩)
    · exact .more (.left (.one (hplain.mpr ⟨hquote, hbackslash, hnewline⟩))) hrest
    · have hprotected : Matches protectedChar ['\\', d] :=
        .seq (s := ['\\']) (t := [d]) (.one (by decide)) (.one (by simpa using hd))
      exact .more (.right hprotected) hrest

/-- A text between quotes goes on with a plain character, or with a backslash and one more. -/
theorem fits_insideQuotes_cons_iff {quote c : Char} {rest : List Char} {m : Nat} :
    Fits (insideQuotes quote) (c :: rest) (m + 1) ↔
      (c ≠ quote ∧ c ≠ '\\' ∧ (c = '\n' → quote = '`') ∧ Fits (insideQuotes quote) rest m)
        ∨ (c = '\\' ∧ ∃ d t k, rest = d :: t ∧ m = k + 1 ∧ d ≠ '\n'
            ∧ Fits (insideQuotes quote) t k) := by
  simp only [Fits, List.take_succ_cons, matches_insideQuotes_cons_iff, List.length_cons,
    Nat.add_le_add_iff_right]
  constructor
  · rintro ⟨hlength, ⟨hquote, hbackslash, hnewline, hmatch⟩ | ⟨hc, d, t, htake, hd, hmatch⟩⟩
    · exact .inl ⟨hquote, hbackslash, hnewline, hlength, hmatch⟩
    · cases rest with
      | nil => simp at htake
      | cons e rest =>
          cases m with
          | zero => simp at htake
          | succ k =>
              obtain ⟨rfl, rfl⟩ := List.cons.inj htake
              exact .inr ⟨hc, e, rest, k, rfl, rfl, hd, Nat.le_of_succ_le_succ hlength, hmatch⟩
  · rintro (⟨hquote, hbackslash, hnewline, hlength, hmatch⟩ |
      ⟨hc, d, t, k, rfl, rfl, hd, hlength, hmatch⟩)
    · exact ⟨hlength, .inl ⟨hquote, hbackslash, hnewline, hmatch⟩⟩
    · exact ⟨Nat.succ_le_succ hlength, .inr ⟨hc, d, t.take k, rfl, hd, hmatch⟩⟩

/-! ### Quotes that are never closed -/

/-- No text that may stand between quotes leads to a closing quote. -/
def NeverClosed (quote : Char) (rest : List Char) : Prop :=
  ∀ s after, rest = s ++ quote :: after → ¬ Matches (insideQuotes quote) s

section NeverClosed

variable {quote c : Char} {rest : List Char} {n : Nat}

theorem NeverClosed.ne_quote (h : NeverClosed quote (c :: rest)) : c ≠ quote := by
  rintro rfl
  exact h [] rest rfl (matches_insideQuotes_nil c)

theorem NeverClosed.behind_plain (h : NeverClosed quote (c :: rest)) (hbackslash : c ≠ '\\')
    (hnewline : c = '\n' → quote = '`') : NeverClosed quote rest := by
  rintro s after rfl hmatch
  refine h (c :: s) after rfl ?_
  exact matches_insideQuotes_cons_iff.mpr (.inl ⟨h.ne_quote, hbackslash, hnewline, hmatch⟩)

theorem NeverClosed.behind_backslash (h : NeverClosed quote ('\\' :: c :: rest)) (hc : c ≠ '\n') :
    NeverClosed quote rest := by
  rintro s after rfl hmatch
  refine h ('\\' :: c :: s) after rfl ?_
  exact matches_insideQuotes_cons_iff.mpr (.inr ⟨rfl, c, s, rfl, hc, hmatch⟩)

theorem fitsMost_insideQuotes_zero
    (hstop : ∀ m, ¬ Fits (insideQuotes quote) rest (m + 1)) :
    FitsMost (insideQuotes quote) rest 0 where
  fits := ⟨Nat.zero_le _, matches_insideQuotes_nil quote⟩
  le m hm := by
    cases m with
    | zero => exact Nat.le_refl 0
    | succ m => exact absurd hm (hstop m)

theorem Pattern.FitsMost.behind_plain (h : FitsMost (insideQuotes quote) rest n)
    (hquote : c ≠ quote) (hbackslash : c ≠ '\\') (hnewline : c = '\n' → quote = '`') :
    FitsMost (insideQuotes quote) (c :: rest) (n + 1) where
  fits := fits_insideQuotes_cons_iff.mpr (.inl ⟨hquote, hbackslash, hnewline, h.fits⟩)
  le m hm := by
    cases m with
    | zero => exact Nat.zero_le _
    | succ m =>
        rcases fits_insideQuotes_cons_iff.mp hm with ⟨-, -, -, hm⟩ | ⟨hc, -⟩
        · exact Nat.succ_le_succ (h.le m hm)
        · exact absurd hc hbackslash

theorem Pattern.FitsMost.behind_backslash (h : FitsMost (insideQuotes quote) rest n)
    (hc : c ≠ '\n') : FitsMost (insideQuotes quote) ('\\' :: c :: rest) (n + 2) where
  fits := fits_insideQuotes_cons_iff.mpr (.inr ⟨rfl, c, rest, _, rfl, rfl, hc, h.fits⟩)
  le m hm := by
    cases m with
    | zero => exact Nat.zero_le _
    | succ m =>
        rcases fits_insideQuotes_cons_iff.mp hm with
          ⟨-, hbackslash, -⟩ | ⟨-, d, t, k, hrest, rfl, -, hm⟩
        · exact absurd rfl hbackslash
        · obtain ⟨rfl, rfl⟩ := List.cons.inj hrest
          exact Nat.add_le_add_right (h.le k hm) 2

end NeverClosed

/-- A quote that is never closed takes along the longest text that may stand between quotes. -/
theorem fitsMost_unclosedLength {quote : Char} {rest : List Char} (h : NeverClosed quote rest) :
    FitsMost (insideQuotes quote) rest (unclosedLength quote rest) := by
  fun_induction unclosedLength quote rest with
  | case1 =>
      -- the end of the input
      exact fitsMost_insideQuotes_zero fun m hm => Nat.not_succ_le_zero m hm.1
  | case2 =>
      -- a backslash at the end
      refine fitsMost_insideQuotes_zero fun m hm => ?_
      rcases fits_insideQuotes_cons_iff.mp hm with ⟨-, hbackslash, -⟩ | ⟨-, d, t, k, hrest, -⟩
      · exact hbackslash rfl
      · cases hrest
  | case3 rest =>
      -- a backslash before a line break
      refine fitsMost_insideQuotes_zero fun m hm => ?_
      rcases fits_insideQuotes_cons_iff.mp hm with
        ⟨-, hbackslash, -⟩ | ⟨-, d, t, k, hrest, -, hd, -⟩
      · exact hbackslash rfl
      · obtain ⟨rfl, rfl⟩ := List.cons.inj hrest
        exact hd rfl
  | case4 c rest hc ih => exact (ih (h.behind_backslash hc)).behind_backslash hc
  | case5 c rest _ _ hstop =>
      -- a line break between quotes of one line
      obtain ⟨rfl, hquote⟩ := hstop
      refine fitsMost_insideQuotes_zero fun m hm => ?_
      rcases fits_insideQuotes_cons_iff.mp hm with ⟨-, -, hnewline, -⟩ | ⟨hc, -⟩
      · exact hquote (hnewline rfl)
      · cases hc
  | case6 c rest hlast hprotects hgo ih =>
      have hbackslash : c ≠ '\\' := by
        rintro rfl
        cases rest with
        | nil => exact hlast rfl rfl
        | cons d rest => exact hprotects d rest rfl rfl
      have hnewline : c = '\n' → quote = '`' := by
        intro hc
        exact Decidable.of_not_not fun hother => hgo ⟨hc, hother⟩
      exact (ih (h.behind_plain hbackslash hnewline)).behind_plain h.ne_quote hbackslash hnewline

theorem matches_quoted {quote : Char} {excluded s : List Char}
    (h : Matches (.many (.either (noneOf excluded) protectedChar)) s) :
    Matches (quoted quote excluded) (quote :: (s ++ [quote])) := by
  have hmark : Matches (anyOf [quote]) [quote] := .one (by simp)
  have hquoted := Matches.seq hmark (.seq h (.seq hmark .empty))
  simpa [quoted, Pattern.sequence] using hquoted

/-- A quote that no rule accepts is never closed. -/
theorem neverClosed_of_unmatched {quote : Char} {rest : List Char}
    (hquote : quote ∈ ['"', '\'', '`']) (h : Unmatched (quote :: rest)) :
    NeverClosed quote rest := by
  intro s after hrest hmatch
  obtain ⟨-, -, -, hstring, htemplate, -⟩ := forall_mem_rules.mp fun rule hrule => hrule
  have hfits : ∀ p, Matches p (quote :: (s ++ [quote]))
      → Fits p (quote :: rest) (s.length + 2) := by
    intro p hp
    have hsplit : quote :: rest = (quote :: (s ++ [quote])) ++ after := by simp [hrest]
    have htake : (quote :: rest).take (s.length + 2) = quote :: (s ++ [quote]) := by
      rw [hsplit]
      exact List.take_left' (by simp)
    exact ⟨by simp [hrest], htake ▸ hp⟩
  simp only [List.mem_cons, List.not_mem_nil, or_false] at hquote
  rcases hquote with rfl | rfl | rfl
  · exact h _ hstring _ (Nat.succ_pos _) (hfits _ (.left (matches_quoted hmatch)))
  · exact h _ hstring _ (Nat.succ_pos _) (hfits _ (.right (matches_quoted hmatch)))
  · exact h _ htemplate _ (Nat.succ_pos _) (hfits _ (matches_quoted hmatch))

theorem isStray_unrecognizedLength {first : Char} {rest : List Char}
    (h : Unmatched (first :: rest)) :
    IsStray (first :: rest) (unrecognizedLength first rest + 1) := by
  rw [unrecognizedLength]
  split
  · rename_i hfirst
    have hquote : first ∈ ['"', '\'', '`'] := by simpa using hfirst
    have hmost := fitsMost_unclosedLength (neverClosed_of_unmatched hquote h)
    exact .quote hquote hmost.fits hmost.le
  · rename_i hfirst
    exact .single (by simpa using hfirst)

theorem IsStray.unique {input : List Char} {n n' : Nat} (h : IsStray input n)
    (h' : IsStray input n') : n = n' := by
  cases h with
  | single hfirst =>
      cases h' with
      | single => rfl
      | quote hfirst' => exact absurd hfirst' hfirst
  | quote hfirst hfits hlongest =>
      cases h' with
      | single hfirst' => exact absurd hfirst hfirst'
      | quote _ hfits' hlongest' =>
          rw [Nat.le_antisymm (hlongest' _ hfits) (hlongest _ hfits')]

/-! ## Pieces -/

theorem IsStray.length_le {input : List Char} {n : Nat} (h : IsStray input n) :
    n ≤ input.length := by
  cases h with
  | single => simp
  | quote _ hfits => exact Nat.succ_le_succ hfits.1

theorem IsLongest.length_le {input : List Char} {piece : Piece} {n : Nat}
    (h : IsLongest input piece n) : n ≤ input.length := by
  obtain ⟨pattern, -, hfits⟩ := h.fits
  exact hfits.1

theorem IsPiece.length_le {input : List Char} {kind? : Option TokenKind} {n : Nat}
    (h : IsPiece input kind? n) : n ≤ input.length := by
  cases h with
  | token h => exact h.length_le
  | blank h => exact h.length_le
  | comment h hinput => simp only [hinput, List.length_append, List.length_cons]; omega
  | unclosed => exact Nat.le_refl _
  | unrecognized _ hlength => exact hlength.length_le

theorem isPiece_pieceAt (first : Char) (rest : List Char) :
    IsPiece (first :: rest) (pieceAt first rest).1 ((pieceAt first rest).2 + 1) := by
  rw [pieceAt]
  split
  · rename_i kind length hlongest
    exact .token (isLongest_of_longestRule? (Nat.succ_pos length) hlongest)
  · rename_i length hlongest
    exact .blank (isLongest_of_longestRule? (Nat.succ_pos length) hlongest)
  · rename_i length hlongest
    have h := isLongest_of_longestRule? (Nat.succ_pos length) hlongest
    obtain ⟨pattern, -, hfits⟩ := h.fits
    split
    · rename_i more hmore
      obtain ⟨body, after, hdrop, hend, rfl⟩ := commentLength?_eq_some_iff.mp hmore
      have hlength : (first :: rest.take length).length = length + 1 := by
        have := hfits.1
        simp only [List.length_cons] at this ⊢
        rw [List.length_take, Nat.min_eq_left (Nat.le_of_succ_le_succ this)]
      have hinput : first :: rest
          = (first :: rest.take length) ++ (body ++ '*' :: '/' :: after) := by
        rw [← hdrop, List.cons_append, List.take_append_drop]
      have hcomment := IsPiece.comment (hlength ▸ h) hinput hend
      rw [hlength] at hcomment
      have hsum : length + (body.length + 2) + 1 = length + 1 + (body.length + 2) := by omega
      exact hsum ▸ hcomment
    · rename_i hnone
      exact .unclosed h (commentLength?_eq_none_iff.mp hnone)
  · rename_i hother₁ hother₂ hother₃
    have hunmatched : Unmatched (first :: rest) := by
      refine unmatched_of_longestRule? fun piece n hlongest => ?_
      cases piece with
      | token kind => exact hother₁ kind n hlongest
      | blank => exact hother₂ n hlongest
      | openComment => exact hother₃ n hlongest
    exact .unrecognized hunmatched (isStray_unrecognizedLength hunmatched)

/-- The same, with the text of the piece and what follows it. -/
theorem isPiece_of_pieceAt {first : Char} {rest : List Char} {kind? : Option TokenKind} {n : Nat}
    (h : pieceAt first rest = (kind?, n)) :
    IsPiece ((first :: rest.take n) ++ rest.drop n) kind? (first :: rest.take n).length := by
  have hpiece := isPiece_pieceAt first rest
  rw [h] at hpiece
  have hlength : (first :: rest.take n).length = n + 1 := by
    simp [Nat.le_of_succ_le_succ hpiece.length_le]
  rw [hlength, List.cons_append, List.take_append_drop]
  exact hpiece

/-- Only one piece stands at the front of an input. -/
theorem IsPiece.eq_pieceAt {first : Char} {rest : List Char} {kind? : Option TokenKind} {n : Nat}
    (h : IsPiece (first :: rest) kind? n) :
    kind? = (pieceAt first rest).1 ∧ n = (pieceAt first rest).2 + 1 := by
  rw [pieceAt]
  cases h with
  | token h =>
      obtain ⟨n, rfl⟩ := Nat.exists_eq_succ_of_ne_zero (Nat.ne_of_gt h.pos)
      rw [longestRule?_of_isLongest h]
      exact ⟨rfl, rfl⟩
  | blank h =>
      obtain ⟨n, rfl⟩ := Nat.exists_eq_succ_of_ne_zero (Nat.ne_of_gt h.pos)
      rw [longestRule?_of_isLongest h]
      exact ⟨rfl, rfl⟩
  | @comment start body after h hinput hend =>
      cases start with
      | nil => exact absurd h.pos (Nat.lt_irrefl 0)
      | cons c start =>
          have hinput : first :: rest = c :: (start ++ (body ++ '*' :: '/' :: after)) := hinput
          obtain ⟨rfl, rfl⟩ := List.cons.inj hinput
          have hmore : commentLength? ((start ++ (body ++ '*' :: '/' :: after)).drop start.length)
              = some (body.length + 2) := by
            rw [List.drop_left]
            exact commentLength?_eq_some_iff.mpr ⟨body, after, rfl, hend, rfl⟩
          rw [longestRule?_of_isLongest h, List.length_cons]
          dsimp only
          rw [hmore]
          exact ⟨rfl, by dsimp only; omega⟩
  | unclosed h hend =>
      obtain ⟨n, rfl⟩ := Nat.exists_eq_succ_of_ne_zero (Nat.ne_of_gt h.pos)
      have hnone : commentLength? (rest.drop n) = none := commentLength?_eq_none_iff.mpr hend
      rw [longestRule?_of_isLongest h]
      dsimp only
      rw [hnone]
      exact ⟨rfl, rfl⟩
  | unrecognized h hlength =>
      have hnot := longestRule?_of_unmatched h
      split
      · rename_i hlongest
        exact absurd hlongest (hnot _ _)
      · rename_i hlongest
        exact absurd hlongest (hnot _ _)
      · rename_i hlongest
        exact absurd hlongest (hnot _ _)
      · exact ⟨rfl, hlength.unique (isStray_unrecognizedLength h)⟩

theorem IsPiece.pos {input : List Char} {kind? : Option TokenKind} {n : Nat}
    (h : IsPiece input kind? n) : 0 < n := by
  cases h with
  | token h => exact h.pos
  | blank h => exact h.pos
  | comment => omega
  | unclosed h => exact Nat.lt_of_lt_of_le h.pos h.length_le
  | unrecognized _ hlength => cases hlength <;> exact Nat.succ_pos _

/-- A text that is a piece is what the scanner finds. -/
theorem IsPiece.pieceAt_eq {text rest : List Char} {kind? : Option TokenKind}
    (h : IsPiece (text ++ rest) kind? text.length) :
    ∃ first more, text = first :: more ∧ pieceAt first (more ++ rest) = (kind?, more.length) := by
  cases text with
  | nil => exact absurd h.pos (Nat.lt_irrefl 0)
  | cons first more =>
      obtain ⟨hkind, hlength⟩ := h.eq_pieceAt
      exact ⟨first, more, rfl, Prod.ext hkind.symm (Nat.succ.inj hlength).symm⟩

/-! ## Documents -/

/-- The scanner splits its input piece by piece. -/
theorem munched_scan (offset : Nat) (gap input : List Char) :
    Munched offset gap input (scan offset gap input) := by
  fun_induction scan offset gap input with
  | case1 => exact .done
  | case2 offset gap first rest length text after hpiece ih =>
      have hinput : first :: rest = text ++ after := by simp [text, after]
      rw [hinput]
      exact .gap (isPiece_of_pieceAt hpiece) ih
  | case3 offset gap first rest length text after kind later hpiece ih =>
      have hinput : first :: rest = text ++ after := by simp [text, after]
      rw [hinput]
      exact .token (isPiece_of_pieceAt hpiece) ih

/-- There is no other way of splitting an input piece by piece. -/
theorem Munched.eq_scan {offset : Nat} {gap input : List Char} {document : Tokens}
    (h : Munched offset gap input document) : document = scan offset gap input := by
  induction h with
  | done => rw [scan]
  | gap hpiece _ ih =>
      obtain ⟨first, more, rfl, hpieceAt⟩ := hpiece.pieceAt_eq
      rw [List.cons_append, scan, hpieceAt]
      simpa using ih
  | token hpiece _ ih =>
      obtain ⟨first, more, rfl, hpieceAt⟩ := hpiece.pieceAt_eq
      rw [List.cons_append, scan, hpieceAt]
      simp [← ih]

/-- The tokens of a document are those of the longest texts at each place, and no others. -/
theorem munched_iff_eq_ofText (text : List Char) (document : Tokens) :
    Munched 0 [] text document ↔ document = Tokens.ofText text := by
  constructor
  · intro h
    exact h.eq_scan
  · rintro rfl
    exact munched_scan 0 [] text

end Specimen.Source
