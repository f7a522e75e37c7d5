import Specimen.Source.Document

/-!
# The gap at the end of a document

A line break ends a property, and the gap behind the last token may hold one. This matters only to a
document that ends behind a property, and such a document is refused either way: without the line
break for the missing separator, with it for the missing brace. Main statement:
`endGap_declarationsOfTokens`.
-/

namespace Specimen.Source

variable {α β : Type}

/-- The results are the same, or the first reader misses a separator at the end and the second one
does something else. -/
inductive EndGap (other : Except Fault α → Prop) : Except Fault α → Except Fault α → Prop
  | same (result : Except Fault α) : EndGap other result result
  | missed {result' : Except Fault α} (h : other result') :
      EndGap other (refuse (.token (.mark .semicolon)) []) result'

/-- The reader comes to the end. -/
def ReadsAll (rest : α → List Token) (result : Except Fault α) : Prop :=
  ∃ x, result = .ok x ∧ rest x = []

/-- The reader misses the closing brace of an interface at the end. -/
def MissesBrace (result : Except Fault α) : Prop :=
  ∃ name, result = .error ⟨.unclosedInterface name, []⟩

section Results

variable {other : Except Fault α → Prop} {other' : Except Fault β → Prop}
  {result result' : Except Fault α}

theorem ReadsAll.map {rest : α → List Token} {rest' : β → List Token} (h : ReadsAll rest result)
    {f : α → β} (hf : ∀ x, rest x = [] → rest' (f x) = []) : ReadsAll rest' (result.map f) := by
  obtain ⟨x, rfl, hx⟩ := h
  exact ⟨f x, rfl, hf x hx⟩

theorem MissesBrace.map (h : MissesBrace result) (f : α → β) : MissesBrace (result.map f) := by
  obtain ⟨name, rfl⟩ := h
  exact ⟨name, rfl⟩

theorem MissesBrace.bind (h : MissesBrace result) (next : α → Except Fault β) :
    MissesBrace (result >>= next) := by
  obtain ⟨name, rfl⟩ := h
  exact ⟨name, rfl⟩

theorem EndGap.map (h : EndGap other result result') {f : α → β}
    (hmissed : ∀ result', other result' → other' (result'.map f)) :
    EndGap other' (result.map f) (result'.map f) := by
  cases h with
  | same => exact .same _
  | missed h => exact .missed (hmissed _ h)

theorem EndGap.behind {next next' : α → Except Fault β} (result : Except Fault α)
    (h : ∀ x, EndGap other' (next x) (next' x)) :
    EndGap other' (result >>= next) (result >>= next') := by
  cases result with
  | error fault => exact .same _
  | ok x => exact h x

theorem EndGap.bind {next next' : α → Except Fault β} (h : EndGap other result result')
    (hsame : ∀ x, EndGap other' (next x) (next' x))
    (hmissed : ∀ result', other result' → other' (result' >>= next')) :
    EndGap other' (result >>= next) (result' >>= next') := by
  cases h with
  | same => exact .behind result hsame
  | missed h => exact .missed (hmissed _ h)

end Results

/-! ## Declarations -/

theorem declaration?_of_interface {tail : List Char} {first : Token} {rest : List Token}
    (h : first.kind = .keyword .interface) :
    declaration? tail first rest
      = some ((interfaceDeclaration tail rest).map (·.behind first)) := by
  unfold declaration?
  rw [h]

/-- The gap at the end is looked at inside interfaces only. -/
theorem declaration?_of_ne_interface (tail tail' : List Char) {first : Token} {rest : List Token}
    (h : first.kind ≠ .keyword .interface) :
    declaration? tail first rest = declaration? tail' first rest := by
  unfold declaration?
  split
  · exact absurd ‹_› h
  all_goals rfl

/-- The declarations behind a declaration are read where it ends. -/
theorem declarationsOfTokens_cons (tail : List Char) (first : Token) (rest : List Token) :
    declarationsOfTokens tail (first :: rest) =
      match declaration? tail first rest with
      | none => declarationsOfTokens tail (skipTree (first :: rest))
      | some result =>
          result >>= fun read => (declarationsOfTokens tail read.rest).map (read.value :: ·) := by
  rw [declarationsOfTokens]
  rcases declaration? tail first rest with _ | (_ | _) <;> rfl

section Readers

variable {tail tail' : List Char} (hopen : hasLineBreak tail = false)
  (hbroken : hasLineBreak tail' = true)

include hopen hbroken

theorem endGap_endProperty (ts : List Token) :
    EndGap (ReadsAll Subtype.val) (endProperty tail ts) (endProperty tail' ts) := by
  cases ts with
  | nil =>
      rw [endProperty, endProperty, if_neg (by rw [hopen]; decide), if_pos hbroken]
      exact .missed ⟨_, rfl, rfl⟩
  | cons token rest => exact .same _

theorem endGap_property (name : List Char) (ts : List Token) :
    EndGap (ReadsAll fun read => read.2.val) (property tail name ts) (property tail' name ts) := by
  unfold property
  dsimp only
  split
  · exact .same _
  · refine .behind _ fun type => ?_
    exact (endGap_endProperty hopen hbroken _).map fun _ h => h.map fun _ hrest => hrest

theorem endGap_plainMember (ts : List Token) :
    EndGap (ReadsAll Taken.rest) (plainMember tail ts) (plainMember tail' ts) := by
  cases ts with
  | nil => exact .same _
  | cons token rest =>
      have hnamed (name : List Char) :
          EndGap (ReadsAll Taken.rest)
            (plainMember.named tail name : Except Fault (Taken (token :: rest) (Option Field)))
            (plainMember.named tail' name) :=
        (endGap_property hopen hbroken name rest).map
          fun _ h => h.map fun _ hfield => hfield
      unfold plainMember
      dsimp only
      split
      · exact hnamed _
      · exact hnamed _
      · exact .same _
      · exact .same _
      · exact .same _
      · exact .same _
      · exact .same _
      · split
        · exact hnamed _
        · exact .same _

theorem endGap_member (ts : List Token) :
    EndGap (ReadsAll Taken.rest) (member tail ts) (member tail' ts) :=
  (endGap_plainMember hopen hbroken (dropReadonly ts)).map
    fun _ h => h.map fun _ hread => hread

theorem endGap_interfaceBody (name : String) (ts : List Token) :
    EndGap MissesBrace (interfaceBody tail name ts) (interfaceBody tail' name ts) := by
  cases ts with
  | nil =>
      rw [interfaceBody, interfaceBody]
      exact .same _
  | cons token rest =>
      rw [interfaceBody, interfaceBody]
      split
      · exact .same _
      · refine (endGap_member hopen hbroken (token :: rest)).bind (fun first => ?_) ?_
        · have := first.shorter
          refine (endGap_interfaceBody name first.rest).bind (fun more => .same _) ?_
          exact fun _ h => h.bind _
        · -- nothing is left behind the property, so the brace is missing
          rintro _ ⟨⟨field, rest, hshort⟩, rfl, rfl⟩
          have hmissed : MissesBrace (interfaceBody tail' name []) :=
            ⟨name, by rw [interfaceBody]⟩
          exact hmissed.bind _
termination_by ts.length
decreasing_by subst_vars; assumption

theorem endGap_interfaceDeclaration (ts : List Token) :
    EndGap MissesBrace (interfaceDeclaration tail ts) (interfaceDeclaration tail' ts) := by
  refine .behind _ fun name => .behind _ fun heritage => .behind _ fun brace => ?_
  refine (endGap_interfaceBody hopen hbroken _ _).bind (fun fields => .same _) ?_
  exact fun _ h => h.bind _

theorem endGap_declarationsOfTokens (ts : List Token) :
    EndGap MissesBrace (declarationsOfTokens tail ts) (declarationsOfTokens tail' ts) := by
  cases ts with
  | nil =>
      rw [declarationsOfTokens, declarationsOfTokens]
      exact .same _
  | cons first rest =>
      rw [declarationsOfTokens_cons, declarationsOfTokens_cons]
      have hnext (read : Taken (first :: rest) Declaration) :
          EndGap MissesBrace ((declarationsOfTokens tail read.rest).map (read.value :: ·))
            ((declarationsOfTokens tail' read.rest).map (read.value :: ·)) := by
        have := read.shorter
        exact (endGap_declarationsOfTokens read.rest).map fun _ h => h.map _
      by_cases hkind : first.kind = .keyword .interface
      · rw [declaration?_of_interface hkind, declaration?_of_interface hkind]
        have hinterface :
            EndGap MissesBrace ((interfaceDeclaration tail rest).map (·.behind first))
              ((interfaceDeclaration tail' rest).map (·.behind first)) :=
          (endGap_interfaceDeclaration hopen hbroken rest).map fun _ h => h.map _
        exact hinterface.bind hnext fun _ h => h.bind _
      · rw [declaration?_of_ne_interface tail tail' hkind]
        split
        · have := length_skipTree_cons_lt first rest
          exact endGap_declarationsOfTokens _
        · exact .behind _ hnext
termination_by ts.length
decreasing_by all_goals subst_vars; assumption

end Readers

end Specimen.Source
