import Specimen.Options.Basic

/-!
# Options that say alike things

Two options are alike if they say alike things about the relevant field names, and if the bags that
they hold under such a name are alike again. What two rules have to have in common is left open:
`Options.AgreeOn` asks for the same rules, `Options.SameButOverrides` for rules that differ in their
overrides only, and `Options.OverrideFree` for rules without overrides. `Options.DifferAt` finds the
names whose overrides do differ, at any depth.
-/

namespace Specimen

section Alike

variable (relevant : String → Prop) (rule : String → FieldRule → FieldRule → Prop)

mutual

/-- The options say alike things about the relevant names. -/
inductive Options.Alike : Options → Options → Prop
  | intro {options options' : Options}
      (each : ∀ name, relevant name →
        FieldOption.Alike name (options.find? name) (options'.find? name)) :
      Options.Alike options options'

/-- What two options say about a name is alike. -/
inductive FieldOption.Alike : String → Option FieldOption → Option FieldOption → Prop
  | absent (name : String) : FieldOption.Alike name none none
  | rule {name : String} {first second : FieldRule} (h : rule name first second) :
      FieldOption.Alike name (some (.rule first)) (some (.rule second))
  | nested {name : String} {entries entries' : List (String × FieldOption)}
      (h : Options.Alike ⟨entries⟩ ⟨entries'⟩) :
      FieldOption.Alike name (some (.nested entries)) (some (.nested entries'))

end

end Alike

/-- The rule without its override. -/
def FieldRule.withoutOverride (rule : FieldRule) : FieldRule :=
  { rule with override := none }

/-- The final value of a field, from what its rule has generated. -/
def FieldRule.finish (rule : FieldRule) (generated : Sample) : Sample :=
  match rule.override with
  | some override => override.apply generated
  | none => generated

theorem FieldRule.finish_congr {first second : FieldRule} (h : first.override = second.override) :
    first.finish = second.finish := by
  funext generated
  simp only [finish, h]

namespace Options

/-- The options agree on the relevant names, and so do their bags. -/
def AgreeOn (relevant : String → Prop) : Options → Options → Prop :=
  Alike relevant fun _ first second => first = second

/-- The options are the same apart from the overrides of rules. -/
def SameButOverrides : Options → Options → Prop :=
  Alike (fun _ => True) fun _ first second => first.withoutOverride = second.withoutOverride

/-- No rule of the options has an override. -/
def OverrideFree (options : Options) : Prop :=
  Alike (fun _ => True) (fun _ rule _ => rule.override = none) options options

/-- Somewhere the options have rules with different overrides under the name. -/
inductive DifferAt : Options → Options → String → Prop
  | here {options options' : Options} {name : String} {first second : FieldRule}
      (hfirst : options.find? name = some (.rule first))
      (hsecond : options'.find? name = some (.rule second))
      (hne : first.override ≠ second.override) : DifferAt options options' name
  | inBag {options options' : Options} {bag name : String}
      {entries entries' : List (String × FieldOption)}
      (hfirst : options.find? bag = some (.nested entries))
      (hsecond : options'.find? bag = some (.nested entries'))
      (h : DifferAt ⟨entries⟩ ⟨entries'⟩ name) : DifferAt options options' name

variable {relevant : String → Prop} {rule rule' : String → FieldRule → FieldRule → Prop}

/-- Options that say nothing are alike. -/
theorem alike_empty : Alike relevant rule empty empty :=
  .intro fun name _ => .absent name

theorem OverrideFree.nested {options : Options} (h : options.OverrideFree) {name : String}
    {entries : List (String × FieldOption)}
    (hnested : options.find? name = some (.nested entries)) : OverrideFree ⟨entries⟩ := by
  obtain ⟨each⟩ := h
  have hsame := each name trivial
  rw [hnested] at hsame
  cases hsame with
  | nested h => exact h

end Options

variable {relevant : String → Prop} {rule rule' : String → FieldRule → FieldRule → Prop}
  {differ : String → Prop}

/-- Two rules of alike options are known to have the same override, unless their name is one of
those where the options differ. -/
theorem FieldOption.Alike.of_differAt {options options' : Options} {name : String}
    {option option' : Option FieldOption}
    (himp : ∀ name first second, rule name first second →
      (first.override ≠ second.override → differ name) → rule' name first second) :
    FieldOption.Alike relevant rule name option option' →
    options.find? name = option → options'.find? name = option' →
    (∀ name, options.DifferAt options' name → differ name) →
    FieldOption.Alike relevant rule' name option option'
  | .absent name, _, _, _ => .absent name
  | .rule h, hfirst, hsecond, hdiffer =>
      .rule (himp _ _ _ h fun hne => hdiffer _ (.here hfirst hsecond hne))
  | .nested (.intro each), hfirst, hsecond, hdiffer =>
      .nested (.intro fun name hname => (each name hname).of_differAt himp rfl rfl
        fun name hbag => hdiffer name (.inBag hfirst hsecond hbag))
termination_by structural h => h

theorem Options.Alike.of_differAt {options options' : Options}
    (h : Options.Alike relevant rule options options')
    (himp : ∀ name first second, rule name first second →
      (first.override ≠ second.override → differ name) → rule' name first second)
    (hdiffer : ∀ name, options.DifferAt options' name → differ name) :
    Options.Alike relevant rule' options options' := by
  obtain ⟨each⟩ := h
  refine .intro fun name hname => ?_
  exact (each name hname).of_differAt himp rfl rfl hdiffer

end Specimen
