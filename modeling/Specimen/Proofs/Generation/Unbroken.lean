import Specimen.Proofs.Generation.Texts

/-!
# Runs that do not break off

A run breaks off in texts only. So it comes to its end if there is room for every text that the
rules ask for: every step leaves the record of a watched source as it is (`Attempt.Steady`), and
by induction on the limit of nesting so does a declaration (`steady_declared`). Texts that no rule
asks for are short. Main statement: `generate_unbroken`.
-/

namespace Specimen

/-! ## The rules of options -/

/-- All rules have the property, at any depth. -/
inductive FieldOption.Each (P : FieldRule → Prop) : FieldOption → Prop
  | rule {rule : FieldRule} (h : P rule) : Each P (.rule rule)
  | nested {entries : List (String × FieldOption)}
      (h : ∀ name option, Entries.find? name entries = some option → Each P option) :
      Each P (.nested entries)

/-- All rules have the property, at any depth. -/
def Options.Each (P : FieldRule → Prop) (options : Options) : Prop :=
  ∀ name option, options.find? name = some option → option.Each P

theorem Options.each_empty (P : FieldRule → Prop) : Options.empty.Each P :=
  fun _ _ h => nomatch h

/-! ## Steps -/

variable {σ α β : Type}

/-- Whatever comes of the attempt, the record of the source is the same afterwards. -/
def Attempt.Steady (attempt : Attempt (Watched σ) α) : Prop :=
  ∀ source result, attempt source = some result → result.2.brokenOff = source.brokenOff

namespace Attempt.Steady

theorem pure (value : α) : Attempt.Steady (σ := σ) (Pure.pure value) := by
  rintro source result ⟨⟩
  rfl

theorem draw {draw : Draw (Watched σ) α} (h : draw.Steady) : Attempt.Steady draw.attempt := by
  rintro source result ⟨⟩
  exact h source

theorem bind {attempt : Attempt (Watched σ) α} {next : α → Attempt (Watched σ) β}
    (h : Attempt.Steady attempt) (hnext : ∀ value, Attempt.Steady (next value)) :
    Attempt.Steady (attempt >>= next) := by
  intro source result hresult
  obtain ⟨⟨value, between⟩, hfirst, hsecond⟩ := Option.bind_eq_some_iff.mp hresult
  exact (hnext value between result hsecond).trans (h source _ hfirst)

theorem map {attempt : Attempt (Watched σ) α} (h : Attempt.Steady attempt) (f : α → β) :
    Attempt.Steady (f <$> attempt) :=
  h.bind fun value => pure (f value)

theorem gather {attempt : Attempt (Watched σ) α} (h : Attempt.Steady attempt) (count : Nat) :
    Attempt.Steady (gather attempt count) := by
  induction count with
  | zero => exact pure []
  | succ count ih => exact h.bind fun _ => ih.bind fun _ => pure _

end Attempt.Steady

namespace Leaf

variable [WordSource σ]

/-- A text whose greatest length has room does not break the run off. -/
theorem steady_text {bound other : Nat} {alphabet : Alphabet}
    (hroom : max bound other ≤ room alphabet) :
    Draw.Steady (σ := σ) (text bound other alphabet) := by
  intro source
  have hsize : max bound other < UInt64.size := Nat.lt_of_le_of_lt hroom (room_lt alphabet)
  obtain ⟨-, hmost, hallows⟩ := textForm_spec alphabet hsize source
  have hform := Nat.le_trans hmost (Nat.le_trans hroom (room_le_roomFor hallows))
  rw [text_eq]
  exact (steady_textOfForm hform _).trans (steady_textForm bound other alphabet source)

theorem steady_integer (bound other : Float) : Draw.Steady (σ := σ) (integer bound other) := by
  unfold integer
  dsimp only
  split
  · exact .pure _
  · exact (Draw.Steady.integer _ _).bind fun _ => .pure _

theorem steady_float (bound other : Float) (places : Nat) :
    Draw.Steady (σ := σ) (float bound other places) := by
  unfold float
  dsimp only
  split
  · exact .pure _
  · exact Draw.Steady.fraction.bind fun _ => .pure _

theorem steady_number : Draw.Steady (σ := σ) number := by
  refine Draw.Steady.coin.bind fun heads => ?_
  cases heads with
  | true => exact (steady_integer _ _).bind fun _ => .pure _
  | false => exact (steady_float _ _ _).bind fun _ => .pure _

theorem steady_ofPrimitive (type : Primitive) : Draw.Steady (σ := σ) (ofPrimitive type) := by
  cases type with
  | string =>
      have hroom : max defaultLeastLength defaultGreatestLength ≤ room .mixed := by decide
      exact (steady_text hroom).bind fun _ => .pure _
  | number => exact steady_number
  | boolean => exact Draw.Steady.coin.bind fun _ => .pure _

end Leaf

namespace Generation

open Attempt (Steady)

/-! ## Containers -/

section Containers

variable {key value : Attempt (Watched σ) Sample}

theorem steady_mapEntries (hkey : Steady key) (hvalue : Steady value) (count : Nat)
    (entries : List (Sample × Sample)) : Steady (mapEntries key value count entries) := by
  induction count generalizing entries with
  | zero => exact .pure entries
  | succ count ih => exact hkey.bind fun _ => hvalue.bind fun _ => ih _

theorem steady_enumEntries (hvalue : Steady value) (members : List EnumMember)
    (entries : List (Sample × Sample)) : Steady (enumEntries value members entries) := by
  induction members generalizing entries with
  | nil => exact .pure entries
  | cons member members ih => exact hvalue.bind fun _ => ih _

theorem steady_setMembers (hkey : Steady key) (count : Nat) (members : List Sample) :
    Steady (setMembers key count members) := by
  induction count generalizing members with
  | zero => exact .pure members
  | succ count ih => exact hkey.bind fun _ => ih _

theorem steady_container (name : String) (enumKeys : Option (List EnumMember))
    {args : List (Attempt (Watched σ) Sample)} (hargs : ∀ arg ∈ args, Steady arg) (length : Nat) :
    Steady (container name enumKeys args length) := by
  have harg : ∀ place : Nat, Steady (args[place]?.getD (pure .null)) := by
    intro place
    cases hplace : args[place]? with
    | none => exact .pure _
    | some arg => exact hargs arg (List.mem_of_getElem? hplace)
  unfold container
  split
  · split
    · exact (steady_enumEntries (harg 1) _ _).map _
    · exact (steady_mapEntries (harg 0) (harg 1) _ _).map _
  · exact (steady_setMembers (harg 0) _ _).map _
  · exact ((harg 0).gather _).map _
  · exact .pure _

end Containers

/-! ## Types and fields -/

section Types

variable [WordSource σ] {index : Index} {enter : Enter (Watched σ)} {guard : Guard}
  {options : Options}

mutual

theorem steady_ofType (henter : ∀ guard declaration, Steady (enter options guard declaration)) :
    (type : TypeRef) → Steady (ofType index enter options guard type)
  | .primitive type => by
      unfold ofType
      split
      · exact .pure _
      · exact .draw (Leaf.steady_ofPrimitive type)
  | .named name => by
      unfold ofType
      split
      · exact .pure _
      · split
        · exact henter _ _
        · exact steady_container name none (by simp) _
  | .generic name args => by
      unfold ofType
      split
      · exact .pure _
      · exact steady_container name _ (steady_ofArgs henter args) _
  | .arrayOf element => by
      unfold ofType
      split
      · exact .pure _
      · exact ((steady_ofType henter element).gather _).map _
  | .unsupported text => by
      unfold ofType
      split <;> exact .pure _
termination_by structural type => type

theorem steady_ofArgs (henter : ∀ guard declaration, Steady (enter options guard declaration)) :
    (args : List TypeRef) → ∀ arg ∈ ofArgs index enter options guard args, Steady arg
  | [] => fun _ h => nomatch h
  | arg :: args =>
      List.forall_mem_cons.mpr ⟨steady_ofType henter arg, steady_ofArgs henter args⟩
termination_by structural args => args

end

/-- There is room for every text that the rule may give. -/
def HasRoom (rule : FieldRule) : Prop :=
  rule.kind = .string →
    max (lengthBound rule.least 1) (lengthBound rule.greatest 10)
      ≤ Leaf.room (rule.alphabet.getD .mixed)

/-- Whatever the options are, if all their rules have room, then entering a declaration does not
break the run off. -/
def EntersSteadily (enter : Enter (Watched σ)) : Prop :=
  ∀ options guard declaration, options.Each HasRoom → Steady (enter options guard declaration)

variable (henter : EntersSteadily enter)
include henter

theorem steady_ruleArray (length : Nat) (type : TypeRef) :
    Steady (ruleArray index enter length type) := by
  have hempty := fun guard declaration =>
    henter .empty guard declaration (Options.each_empty HasRoom)
  unfold ruleArray
  split
  · exact steady_container _ _ (steady_ofArgs hempty _) _
  · split
    · exact steady_container _ none (by simp) _
    · exact .pure _
  · exact ((steady_ofType hempty _).gather _).map _
  · exact .pure _

theorem steady_ruleValue {rule : FieldRule} (hroom : HasRoom rule) (type : TypeRef) :
    Steady (ruleValue index enter rule type) := by
  unfold ruleValue
  split
  · rename_i hkind
    exact .draw ((Leaf.steady_text (hroom hkind)).map _)
  · exact .draw ((Leaf.steady_integer _ _).map _)
  · exact .draw ((Leaf.steady_float _ _ _).map _)
  · exact steady_ruleArray henter _ _

theorem steady_fieldValue (hoptions : options.Each HasRoom) (field : Field) :
    Steady (fieldValue index enter options guard field) := by
  unfold fieldValue
  split
  · rename_i rule hrule
    cases hoptions _ _ hrule with
    | rule hroom => exact (steady_ruleValue henter hroom _).bind fun _ => .pure _
  · rename_i entries hnested
    cases hoptions _ _ hnested with
    | nested hentries =>
        exact steady_ofType (fun guard declaration => henter _ guard declaration hentries) _
  · exact steady_ofType (fun guard declaration => henter _ guard declaration hoptions) _

theorem steady_fieldValues (hoptions : options.Each HasRoom) (fields : List Field)
    (values : List (String × Sample)) :
    Steady (fieldValues index enter options guard fields values) := by
  induction fields generalizing values with
  | nil => exact .pure values
  | cons field fields ih => exact (steady_fieldValue henter hoptions field).bind fun _ => ih _

end Types

/-! ## Declarations -/

variable [WordSource σ]

theorem steady_enumValue (members : List EnumMember) :
    Draw.Steady (σ := σ) (enumValue members) := by
  unfold enumValue
  split
  · exact .pure _
  · exact (Draw.Steady.place _).bind fun _ => .pure _

/-- However deep declarations may nest, none of them breaks the run off. -/
theorem steady_declared (index : Index) (limit : Nat) :
    EntersSteadily (declared (σ := Watched σ) index limit) := by
  induction limit with
  | zero =>
      intro options guard declaration _ source result hresult
      cases hresult
  | succ limit ih =>
      intro options guard declaration hoptions
      unfold declared
      split
      · exact (steady_fieldValues ih hoptions _ _).map _
      · exact .draw (steady_enumValue _)
      · exact .pure _
      · exact .pure _

/-- If there is room for every text that the rules of the options may give, at any depth, then the
run does not break off, and the sample that it ends with counts. -/
theorem generate_unbroken (index : Index) (name : String) {options : Options} {source : σ}
    {sample : Sample} {rest : Watched σ} (hoptions : options.Each HasRoom)
    (h : generate index name options (Watched.start source) = .ok (sample, rest)) :
    rest.brokenOff = false := by
  unfold generate generateWithin at h
  split at h
  · cases h
  · split at h
    · rename_i declaration _ _ result hresult
      cases h
      exact steady_declared index _ options .start declaration hoptions _ _ hresult
    · cases h

end Generation

end Specimen
