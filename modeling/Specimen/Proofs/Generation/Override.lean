import Specimen.Proofs.Generation.Lockstep

/-!
# Overrides stay in their fields

A rule generates the value of its field first and applies its override then. An overridden value
sits in an object, and an object is never the same key or the same member as anything. So an
override changes neither what is drawn nor how many entries a container has: two runs whose
options differ only in overrides end with the same source, and with the same sample apart from the
fields of the names under which the overrides differ. Main statement: `generate_without_eq`.
-/

namespace Specimen

namespace Sample

mutual

/-- The sample without the dropped fields, in every object inside it. -/
def without (dropped : String → Bool) : Sample → Sample
  | .undefined => .undefined
  | .null => .null
  | .bool value => .bool value
  | .int value => .int value
  | .float value => .float value
  | .string value => .string value
  | .array items => .array (withoutItems dropped items)
  | .object fields => .object (withoutFields dropped fields)
  | .map entries => .map (withoutEntries dropped entries)
  | .set members => .set (withoutItems dropped members)
termination_by structural sample => sample

/-- The items of a list without the dropped fields. -/
def withoutItems (dropped : String → Bool) : List Sample → List Sample
  | [] => []
  | item :: items => without dropped item :: withoutItems dropped items
termination_by structural items => items

/-- The fields of an object that are not dropped. -/
def withoutFields (dropped : String → Bool) : List (String × Sample) → List (String × Sample)
  | [] => []
  | (name, value) :: fields =>
      if dropped name then withoutFields dropped fields
      else (name, without dropped value) :: withoutFields dropped fields
termination_by structural fields => fields

/-- The entries of a map without the dropped fields. -/
def withoutEntries (dropped : String → Bool) : List (Sample × Sample) → List (Sample × Sample)
  | [] => []
  | (key, value) :: entries =>
      (without dropped key, without dropped value) :: withoutEntries dropped entries
termination_by structural entries => entries

end

/-- Scalars have no fields, and nothing else counts as the same. -/
theorem sameScalar_without (dropped : String → Bool) (a b : Sample) :
    sameScalar (a.without dropped) (b.without dropped) = sameScalar a b := by
  cases a <;> cases b <;> rfl

variable {dropped : String → Bool}

theorem withoutItems_eq {items items' : List Sample}
    (h : List.Forall₂ (fun item item' => item.without dropped = item'.without dropped)
      items items') : withoutItems dropped items = withoutItems dropped items' := by
  induction h with
  | nil => rfl
  | cons hitem _ ih => rw [withoutItems, withoutItems, hitem, ih]

theorem withoutEntries_eq {entries entries' : List (Sample × Sample)}
    (h : List.Forall₂ (fun entry entry' => entry.1.without dropped = entry'.1.without dropped
      ∧ entry.2.without dropped = entry'.2.without dropped) entries entries') :
    withoutEntries dropped entries = withoutEntries dropped entries' := by
  induction h with
  | nil => rfl
  | @cons entry entry' _ _ hentry _ ih =>
      obtain ⟨key, value⟩ := entry
      obtain ⟨key', value'⟩ := entry'
      rw [withoutEntries, withoutEntries, hentry.1, hentry.2, ih]

theorem withoutFields_eq {fields fields' : List (String × Sample)}
    (h : List.Forall₂ (fun field field' => field.1 = field'.1
      ∧ (dropped field.1 = false → field.2.without dropped = field'.2.without dropped))
      fields fields') : withoutFields dropped fields = withoutFields dropped fields' := by
  induction h with
  | nil => rfl
  | @cons field field' _ _ hfield _ ih =>
      obtain ⟨name, value⟩ := field
      obtain ⟨name', value'⟩ := field'
      obtain ⟨rfl, hvalue⟩ := hfield
      rw [withoutFields, withoutFields, ih]
      split
      · rfl
      · rename_i hkept
        rw [hvalue (by simpa using hkept)]

end Sample

namespace Generation

/-- Samples that are equal apart from the dropped fields. -/
def Likeness.apartFrom (dropped : String → Bool) : Likeness where
  like sample sample' := sample.without dropped = sample'.without dropped
  likeField name sample sample' :=
    dropped name = false → sample.without dropped = sample'.without dropped
  refl _ := rfl
  field h _ := h
  sameScalar ha hb := by
    rw [← Sample.sameScalar_without dropped, ha, hb, Sample.sameScalar_without]
  array h := congrArg Sample.array (Sample.withoutItems_eq h)
  set h := congrArg Sample.set (Sample.withoutItems_eq h)
  map h := congrArg Sample.map (Sample.withoutEntries_eq h)
  object h := congrArg Sample.object (Sample.withoutFields_eq h)

/-- Options that are the same but for overrides give alike rules, if the names under which the
overrides differ are dropped. -/
theorem alike_of_sameButOverrides {dropped : String → Bool} {options options' : Options}
    (hoptions : options.SameButOverrides options')
    (hdropped : ∀ name, options.DifferAt options' name → dropped name = true) :
    options.Alike (fun _ => True) (Likeness.apartFrom dropped).LikeRule options' := by
  refine hoptions.of_differAt (fun name first second hdraw hdiffer => ⟨hdraw, ?_⟩) hdropped
  intro generated hkept
  have hsame : first.override = second.override := by
    apply Classical.not_not.mp
    intro hne
    rw [hdiffer hne] at hkept
    cases hkept
  rw [FieldRule.finish_congr hsame]

/-- Options that are the same but for overrides leave the source in the same state, and give the
same sample apart from the fields of the names under which overrides differ. -/
theorem generate_without_eq {σ : Type} [WordSource σ] (declarations : List Declaration)
    (root : String) (options options' : Options) (dropped : String → Bool) (source : σ)
    (hcycle : (Index.ofList declarations).reachableCycle? root = none)
    (hoptions : options.SameButOverrides options')
    (hdropped : ∀ name, options.DifferAt options' name → dropped name = true) :
    let index := Index.ofList declarations
    (index.find? root = none
        ∧ generate index root options source = .error (.notFound root)
        ∧ generate index root options' source = .error (.notFound root))
      ∨ ∃ sample sample' next, generate index root options source = .ok (sample, next)
        ∧ generate index root options' source = .ok (sample', next)
        ∧ sample.without dropped = sample'.without dropped := by
  intro index
  have halike := alike_of_sameButOverrides hoptions hdropped
  rcases paired_generate (Likeness.apartFrom dropped) hcycle (fun _ _ => rfl) (fun _ _ => trivial)
    halike source with hmissing | ⟨sample, sample', next, hlike, hfirst, hsecond⟩
  · exact .inl hmissing
  · exact .inr ⟨sample, sample', next, hfirst, hsecond, hlike⟩

/-- The pets of an owner get a fixed name in one run and a random one in the other. -/
theorem generate_without_eq_owner :
    let declarations : List Declaration :=
      [⟨"Owner", .interface [⟨"name", .primitive .string, false⟩,
          ⟨"pets", .generic "Set" [.named "Pet"], false⟩]⟩,
        ⟨"Pet", .interface [⟨"name", .primitive .string, false⟩,
          ⟨"age", .primitive .number, false⟩]⟩]
    let rule (override : Option Override) : FieldRule :=
      ⟨.string, none, none, none, none, none, override⟩
    let bag (override : Option Override) : Options :=
      ⟨[("pets", .nested [("name", .rule (rule override))])]⟩
    let options := bag (some (.literal (.string "Rex")))
    let index := Index.ofList declarations
    index.reachableCycle? "Owner" = none ∧ options.SameButOverrides (bag none)
      ∧ ∃ sample sample' next,
        generate index "Owner" options (WordCycle.ofList [1, 2, 3]) = .ok (sample, next)
          ∧ generate index "Owner" (bag none) (WordCycle.ofList [1, 2, 3]) = .ok (sample', next)
          ∧ sample.without (· == "name") = sample'.without (· == "name") := by
  intro declarations rule bag options index
  have hcycle : index.reachableCycle? "Owner" = none := by cbv
  have hoptions : options.SameButOverrides (bag none) := by
    refine .intro fun name _ => ?_
    by_cases hpets : "pets" = name
    · subst hpets
      refine .nested (.intro fun name _ => ?_)
      by_cases hname : "name" = name
      · subst hname
        exact .rule rfl
      · simp only [Options.find?, Entries.find?, hname, if_false]
        exact .absent name
    · simp only [options, bag, Options.find?, Entries.find?, hpets, if_false]
      exact .absent name
  have hdropped : ∀ name, options.DifferAt (bag none) name → (name == "name") = true := by
    intro name hdiffer
    cases hdiffer with
    | here hfirst =>
        simp only [options, bag, Options.find?, Entries.find?] at hfirst
        split at hfirst <;> cases hfirst
    | inBag hfirst _ hbag =>
        simp only [options, bag, Options.find?, Entries.find?] at hfirst
        split at hfirst <;> cases hfirst
        cases hbag with
        | here hfirst =>
            simp only [Options.find?, Entries.find?] at hfirst
            split at hfirst
            · rename_i hname
              simp [hname]
            · cases hfirst
        | inBag hfirst =>
            simp only [Options.find?, Entries.find?] at hfirst
            split at hfirst <;> cases hfirst
  have hfind : index.find? "Owner" ≠ none := by decide
  refine ⟨hcycle, hoptions, ?_⟩
  exact (generate_without_eq declarations "Owner" options (bag none) (· == "name")
    (WordCycle.ofList [1, 2, 3]) hcycle hoptions hdropped).resolve_left fun h => hfind h.1

end Generation

end Specimen
