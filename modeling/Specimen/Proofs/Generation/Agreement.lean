import Specimen.Proofs.Generation.Pairing

/-!
# Agreeing attempts

Two attempts agree if both succeed, from every source with the same result. An attempt that agrees
with anything succeeds. Agreeing attempts are paired up to equality, and neither gives up. So every
step of the generation keeps agreement: `ofType` with two ways of entering declarations agrees as
soon as the two ways agree on the declarations that the type mentions.
-/

namespace Specimen.Generation

variable {σ α β : Type}

/-- Both attempts succeed with the same result. -/
def Agree (first second : Attempt σ α) : Prop :=
  ∀ source, ∃ result, first source = some result ∧ second source = some result

theorem agree_iff_paired {first second : Attempt σ α} :
    Agree first second ↔ Paired False Eq first second := by
  constructor
  · intro h source
    obtain ⟨⟨value, next⟩, hfirst, hsecond⟩ := h source
    rw [hfirst, hsecond]
    exact .ended next rfl
  · intro h source
    have hboth := h source
    generalize first source = result at hboth ⊢
    generalize second source = result' at hboth ⊢
    cases hboth with
    | ended next heq => exact ⟨_, rfl, by rw [heq]⟩
    | stopped hstop => exact hstop.elim

namespace Agree

theorem pure (value : α) : Agree (σ := σ) (Pure.pure value) (Pure.pure value) :=
  agree_iff_paired.mpr (.pure rfl)

theorem draw (draw : Draw σ α) : Agree draw.attempt draw.attempt :=
  agree_iff_paired.mpr (.draw (fun _ => rfl) draw)

theorem map (f : α → β) {first second : Attempt σ α} (h : Agree first second) :
    Agree (f <$> first) (f <$> second) :=
  agree_iff_paired.mpr ((agree_iff_paired.mp h).map fun _ _ => congrArg f)

end Agree

variable {index : Index} {enter enter' : Enter σ} {options : Options}
  {guard : Guard}

/-- The two ways agree on entering a name below a guard that is not exhausted. -/
def AgreeOn (index : Index) (enter enter' : Enter σ) (options : Options) (guard : Guard)
    (name : String) : Prop :=
  guard.isExhausted = false → ∀ declaration, index.find? name = some declaration →
    Agree (enter options (guard.descend (.named name)) declaration)
      (enter' options (guard.descend (.named name)) declaration)

theorem AgreeOn.paired {name : String} (h : AgreeOn index enter enter' options guard name) :
    PairedOn False .equality index index enter enter' options options guard name :=
  ⟨rfl, fun hopen declaration hfind => agree_iff_paired.mp (h hopen declaration hfind)⟩

variable [WordSource σ]

theorem agree_ofType (type : TypeRef)
    (h : ∀ name ∈ type.mentions, AgreeOn index enter enter' options guard name) :
    Agree (ofType index enter options guard type) (ofType index enter' options guard type) :=
  agree_iff_paired.mpr (paired_ofType type fun name hname => (h name hname).paired)

theorem agree_fieldValue (field : Field)
    (hbelow : ∀ options, ∀ name ∈ field.type.mentions,
      AgreeOn index enter enter' options guard name)
    (hanew : ∀ name ∈ field.type.mentions, AgreeOn index enter enter' .empty .start name) :
    Agree (fieldValue index enter options guard field)
      (fieldValue index enter' options guard field) := by
  unfold fieldValue
  split
  · rename_i rule _
    have hrule : Paired False Eq (ruleValue index enter rule field.type)
        (ruleValue index enter' rule field.type) :=
      paired_ruleValue rule field.type fun name hname => (hanew name hname).paired
    refine agree_iff_paired.mpr (hrule.bind fun generated generated' heq => .pure ?_)
    rw [heq]
  · exact agree_ofType _ (hbelow _)
  · exact agree_ofType _ (hbelow _)

theorem agree_fieldValues (fields : List Field)
    (h : ∀ field ∈ fields, Agree (fieldValue index enter options guard field)
      (fieldValue index enter' options guard field)) (values : List (String × Sample)) :
    Agree (fieldValues index enter options guard fields values)
      (fieldValues index enter' options guard fields values) := by
  have hrefl : Likeness.equality.LikeFields values values :=
    List.forall₂_same.mpr fun _ _ => ⟨rfl, rfl⟩
  have hpaired : Paired False Likeness.equality.LikeFields
      (fieldValues index enter options guard fields values)
      (fieldValues index enter' options guard fields values) :=
    paired_fieldValues fields (fun field hfield => agree_iff_paired.mp (h field hfield)) hrefl
  exact agree_iff_paired.mpr (hpaired.mono fun _ _ => eq_of_forall₂_pairs)

/-- Without options every field is of its type. -/
theorem fieldValue_empty (index : Index) (enter : Enter σ) (guard : Guard) (field : Field) :
    fieldValue index enter .empty guard field = ofType index enter .empty guard field.type :=
  rfl

end Specimen.Generation
