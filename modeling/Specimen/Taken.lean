/-!
# Reading from the front of a list

A reader takes a list and gives a value together with what it has not used. `Taken input α` is such
an answer for the input `input`; it carries the proof that something was used, so a reader that
calls itself on the rest of an answer needs no other argument for its end. A reader that may use
nothing gives a `Remaining input`.

Answers are put together by `andThen` and `upTo`: what is an answer for the rest of an answer is an
answer for the whole.
-/

namespace Specimen

/-- The end of a list without its first element is shorter. -/
theorem length_lt_cons {τ : Type} (x : τ) (rest : List τ) : rest.length < (x :: rest).length :=
  Nat.lt_succ_self rest.length

/-- Dropping elements from the front leaves no more than there was. -/
theorem length_dropWhile_le {τ : Type} (p : τ → Bool) (input : List τ) :
    (input.dropWhile p).length ≤ input.length := by
  induction input with
  | nil => simp
  | cons x xs ih =>
      by_cases hx : p x
      · simp only [List.dropWhile_cons_of_pos hx, List.length_cons]
        omega
      · simp [List.dropWhile_cons_of_neg hx]

section Skipping

variable {τ : Type} {skip : List τ → List τ} (hskip : ∀ rest, (skip rest).length ≤ rest.length)
include hskip

/-- What a function leaves that passes over something is not longer than what it was given. -/
theorem length_le_of_skipping {input left : List τ} (h : skip input = left) :
    left.length ≤ input.length :=
  h ▸ hskip input

/-- Without its first element it is shorter. -/
theorem length_lt_of_skipping {input rest : List τ} {x : τ} (h : skip input = x :: rest) :
    rest.length < input.length :=
  Nat.lt_of_lt_of_le (length_lt_cons x rest) (length_le_of_skipping hskip h)

end Skipping

/-- What is left of `input`, which may be all of it. -/
abbrev Remaining {τ : Type} (input : List τ) :=
  { rest : List τ // rest.length ≤ input.length }

/-- A value read from the front of `input`, with the strictly shorter rest. -/
structure Taken {τ : Type} (input : List τ) (α : Type) where
  value : α
  rest : List τ
  shorter : rest.length < input.length

namespace Taken

variable {τ α β : Type} {input longer : List τ}

/-- The same answer with another value. -/
def map (f : α → β) (t : Taken input α) : Taken input β :=
  ⟨f t.value, t.rest, t.shorter⟩

/-- An answer for the end of a list is an answer for the whole list. -/
def widen (t : Taken input α) (h : input.length ≤ longer.length) : Taken longer α :=
  ⟨t.value, t.rest, Nat.lt_of_lt_of_le t.shorter h⟩

/-- An answer for a proper end of a list is an answer for the whole list. -/
def inside (t : Taken input α) (h : input.length < longer.length) : Taken longer α :=
  t.widen (Nat.le_of_lt h)

/-- A value read from one element. -/
def one (x : τ) (rest : List τ) (value : α) : Taken (x :: rest) α :=
  ⟨value, rest, length_lt_cons x rest⟩

/-- An answer behind one element more. -/
def behind {rest : List τ} (x : τ) (t : Taken rest α) : Taken (x :: rest) α :=
  t.inside (length_lt_cons x rest)

/-- A value with what remains of a proper end of a list. -/
def ofRemaining {rest : List τ} (value : α) (remaining : Remaining rest)
    (h : rest.length < input.length) : Taken input α :=
  ⟨value, remaining.val, Nat.lt_of_le_of_lt remaining.property h⟩

/-- The value of the second of two answers, one after the other. -/
def andThen (t : Taken input α) (next : Taken t.rest β) : Taken input β :=
  next.inside t.shorter

/-- An answer, with something passed over behind it. -/
def upTo (t : Taken input α) (remaining : Remaining t.rest) : Taken input α :=
  .ofRemaining t.value remaining t.shorter

/-- An answer, with what a function passes over behind it. -/
def skipping (t : Taken input α) (skip : List τ → List τ)
    (h : ∀ rest, (skip rest).length ≤ rest.length) : Taken input α :=
  t.upTo ⟨skip t.rest, h t.rest⟩

/-- What follows the first element of the rest is shorter than the input, too. -/
theorem length_lt_of_rest (t : Taken input α) {x : τ} {rest : List τ} (h : t.rest = x :: rest) :
    rest.length < input.length := by
  have := t.shorter
  rw [h] at this
  exact Nat.lt_trans (length_lt_cons x rest) this

/-- Nothing is read from nothing. -/
theorem ne_nil (t : Taken input α) : input ≠ [] :=
  List.ne_nil_of_length_pos (Nat.zero_lt_of_lt t.shorter)

/-- The same for the rest after something was passed over. -/
theorem length_lt_of_skipping (t : Taken input α) {skip : List τ → List τ}
    (hskip : ∀ rest, (skip rest).length ≤ rest.length) {x : τ} {rest : List τ}
    (h : skip t.rest = x :: rest) : rest.length < input.length :=
  Nat.lt_trans (Specimen.length_lt_of_skipping hskip h) t.shorter

@[simp] theorem map_value (f : α → β) (t : Taken input α) : (t.map f).value = f t.value := rfl

@[simp] theorem map_rest (f : α → β) (t : Taken input α) : (t.map f).rest = t.rest := rfl

@[simp] theorem widen_value (t : Taken input α) (h : input.length ≤ longer.length) :
    (t.widen h).value = t.value := rfl

@[simp] theorem widen_rest (t : Taken input α) (h : input.length ≤ longer.length) :
    (t.widen h).rest = t.rest := rfl

end Taken

namespace Remaining

variable {τ α : Type} {input : List τ}

/-- All of a list. -/
def all (input : List τ) : Remaining input :=
  ⟨input, Nat.le_refl input.length⟩

/-- All but the first element. -/
def tail (x : τ) (rest : List τ) : Remaining (x :: rest) :=
  ⟨rest, Nat.le_of_lt (length_lt_cons x rest)⟩

/-- What an answer leaves. -/
def ofTaken (t : Taken input α) : Remaining input :=
  ⟨t.rest, Nat.le_of_lt t.shorter⟩

/-- What remains of what remains. -/
def andThen (remaining : Remaining input) (next : Remaining remaining.val) : Remaining input :=
  ⟨next.val, Nat.le_trans next.property remaining.property⟩

/-- What remains after a function has passed over something. -/
def skipping (remaining : Remaining input) (skip : List τ → List τ)
    (h : ∀ rest, (skip rest).length ≤ rest.length) : Remaining input :=
  remaining.andThen ⟨skip remaining.val, h remaining.val⟩

end Remaining

end Specimen
