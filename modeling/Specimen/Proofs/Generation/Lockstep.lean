import Specimen.Proofs.Generation.Nesting
import Specimen.Proofs.Options.Alike
import Specimen.Proofs.Reference.Need

/-!
# Runs in lockstep

Two runs of the generation from one root draw the same from their sources, if the indexes mean the
same by the names that the root needs, and if the options say alike things about the fields that it
needs. A rule has to draw the same in both runs; its override only has to give values that the
likeness does not tell apart. `paired_declared` goes through one declaration after the other, by
induction on the limit of nesting; both runs give up at the same places, so nothing has to be known
about cycles there. Main statement: `paired_generate`.
-/

namespace Specimen.Generation

open Index

variable {σ : Type} [WordSource σ]

/-- The two rules generate the same value under the name, and finish it alike. -/
structure Likeness.LikeRule (likeness : Likeness) (name : String) (first second : FieldRule) :
    Prop where
  draw : first.withoutOverride = second.withoutOverride
  finish : ∀ generated,
    likeness.likeField name (first.finish generated) (second.finish generated)

/-- What a rule generates does not depend on its override. -/
theorem ruleValue_congr {first second : FieldRule}
    (h : first.withoutOverride = second.withoutOverride) (index : Index) (enter : Enter σ)
    (type : TypeRef) : ruleValue index enter first type = ruleValue index enter second type := by
  have hfirst : ruleValue index enter first.withoutOverride type
      = ruleValue index enter first type := rfl
  rw [← hfirst, h]
  rfl

section Fields

variable {mayStop : Prop} {likeness : Likeness} {relevant : String → Prop}
  {index index' : Index} {enter enter' : Enter σ} {options options' : Options} {guard : Guard}

/-- Alike options give alike values of a field. Below an array rule, the two runs have to be equal,
because an override may look at what was generated. -/
theorem paired_fieldValue {field : Field} (hrelevant : relevant field.name)
    (hoptions : options.Alike relevant likeness.LikeRule options')
    (hbelow : ∀ options options' : Options, options.Alike relevant likeness.LikeRule options' →
      ∀ name ∈ field.type.mentions,
        PairedOn mayStop likeness index index' enter enter' options options' guard name)
    (hanew : ∀ name ∈ field.type.mentions,
      PairedOn mayStop .equality index index' enter enter' .empty .empty .start name) :
    Paired mayStop (likeness.likeField field.name) (fieldValue index enter options guard field)
      (fieldValue index' enter' options' guard field) := by
  have htype : ∀ options options' : Options, options.Alike relevant likeness.LikeRule options' →
      Paired mayStop (likeness.likeField field.name) (ofType index enter options guard field.type)
        (ofType index' enter' options' guard field.type) := fun options options' h =>
    (paired_ofType field.type (hbelow options options' h)).mono fun _ _ => likeness.field
  have hfield : FieldOption.Alike relevant likeness.LikeRule field.name
      (options.find? field.name) (options'.find? field.name) := by
    obtain ⟨each⟩ := hoptions
    exact each field.name hrelevant
  unfold fieldValue
  generalize options.find? field.name = option at hfield
  generalize options'.find? field.name = option' at hfield
  cases hfield with
  | absent => exact htype _ _ hoptions
  | @rule _ first second hrule =>
      have hdrawn : Paired mayStop Eq (ruleValue index enter first field.type)
          (ruleValue index' enter' second field.type) := by
        rw [ruleValue_congr hrule.draw]
        exact paired_ruleValue second field.type hanew
      refine hdrawn.bind fun generated generated' heq => .pure ?_
      exact heq ▸ hrule.finish generated
  | nested h => exact htype _ _ h

end Fields

section Declared

variable {relevant : String → Prop} {index index' : Index} {root : String}
  (hnamed : index.IsNamed)
  (hfind : ∀ name, index.Needs root name → index.find? name = index'.find? name)
  (hrelevant : ∀ name, index.NeedsField root name → relevant name)
include hnamed hfind hrelevant

/-- With the same limit of nesting, the two runs stay together below every declaration that the root
needs. -/
theorem paired_declared (limit : Nat) (likeness : Likeness) {options options' : Options}
    (hoptions : options.Alike relevant likeness.LikeRule options') (guard : Guard)
    {declaration : Declaration} (hdeclared : index.find? declaration.name = some declaration)
    (hneeded : index.Needs root declaration.name) :
    Paired True likeness.like (declared (σ := σ) index limit options guard declaration)
      (declared index' limit options' guard declaration) := by
  induction limit generalizing likeness options options' guard declaration with
  | zero =>
      intro source
      exact .stopped trivial
  | succ limit ih =>
      cases hbody : declaration.body with
      | interface fields =>
          simp only [declared, hbody]
          have hfields : index.interfaceFields? declaration.name = some fields := by
            simp [interfaceFields?, hdeclared, hbody]
          -- what a field mentions is needed too, and entered with one level less
          have henter : ∀ field ∈ fields, ∀ (likeness : Likeness) (options options' : Options)
              (guard : Guard), options.Alike relevant likeness.LikeRule options' →
              ∀ name ∈ field.type.mentions, PairedOn True likeness index index'
                (declared (σ := σ) index limit) (declared index' limit) options options' guard
                name := by
            intro field hfield likeness options options' guard hoptions name hname
            have hbelow : index.Needs root name :=
              hneeded.tail ⟨fields, hfields, field, hfield, hname⟩
            refine ⟨hfind name hbelow, fun _ inner hinner => ?_⟩
            have hsame : inner.name = name := hnamed name inner hinner
            exact ih likeness hoptions _ (hsame ▸ hinner) (hsame ▸ hbelow)
          have hvalues : Paired True likeness.LikeFields
              (fieldValues index (declared (σ := σ) index limit) options
                (guard.inside declaration.name) fields [])
              (fieldValues index' (declared index' limit) options'
                (guard.inside declaration.name) fields []) := by
            refine paired_fieldValues fields (fun field hfield => ?_) .nil
            have hname : relevant field.name :=
              hrelevant _ ⟨_, fields, hneeded, hfields, field, hfield, rfl⟩
            refine paired_fieldValue hname hoptions (fun options options' h => ?_) ?_
            · exact henter field hfield likeness options options' _ h
            · exact henter field hfield .equality .empty .empty .start Options.alike_empty
          exact hvalues.map fun _ _ => likeness.object
      | enumeration members =>
          simp only [declared, hbody]
          exact .draw likeness.refl _
      | «alias» target =>
          simp only [declared, hbody]
          exact .pure (likeness.refl _)
      | «namespace» =>
          simp only [declared, hbody]
          exact .pure (likeness.refl _)

end Declared

/-- From a root that reaches no cycle, the two runs end in the same way: the root is missing in both
indexes, or there are alike samples with the same source behind them. -/
theorem paired_generate {declarations declarations' : List Declaration} {root : String}
    {relevant : String → Prop} (likeness : Likeness) {options options' : Options}
    (hcycle : (Index.ofList declarations).reachableCycle? root = none)
    (hfind : ∀ name, (Index.ofList declarations).Needs root name →
      (Index.ofList declarations).find? name = (Index.ofList declarations').find? name)
    (hrelevant : ∀ name, (Index.ofList declarations).NeedsField root name → relevant name)
    (hoptions : options.Alike relevant likeness.LikeRule options') (source : σ) :
    ((Index.ofList declarations).find? root = none
        ∧ generate (Index.ofList declarations) root options source = .error (.notFound root)
        ∧ generate (Index.ofList declarations') root options' source = .error (.notFound root))
      ∨ ∃ sample sample' next, likeness.like sample sample'
        ∧ generate (Index.ofList declarations) root options source = .ok (sample, next)
        ∧ generate (Index.ofList declarations') root options' source = .ok (sample', next) := by
  have hnamed : (Index.ofList declarations).IsNamed := Index.isNamed_ofList declarations
  have hsame := hfind root .refl
  have hcycle' : (Index.ofList declarations').reachableCycle? root = none :=
    reachableCycle?_congr hfind ▸ hcycle
  cases hroot : (Index.ofList declarations).find? root with
  | none =>
      have hroot' := hsame ▸ hroot
      exact .inl ⟨rfl, by simp only [generate, generateWithin, hroot],
        by simp only [generate, generateWithin, hroot']⟩
  | some declaration =>
      have hroot' := hsame ▸ hroot
      have hname : declaration.name = root := hnamed root declaration hroot
      obtain ⟨⟨sample, next⟩, hended⟩ := exists_declared hcycle hroot options source
      obtain ⟨⟨sample', next'⟩, hended'⟩ := exists_declared hcycle' hroot' options' source
      -- a limit that is large enough for both runs
      let limit := max (nestingBound (Index.ofList declarations))
        (nestingBound (Index.ofList declarations'))
      have hpaired := paired_declared hnamed hfind hrelevant limit likeness hoptions .start
        (hname.symm ▸ hroot) (hname.symm ▸ .refl) source
      rw [hended limit (Nat.le_max_left _ _), hended' limit (Nat.le_max_right _ _)] at hpaired
      cases hpaired with
      | ended next hlike =>
          refine .inr ⟨sample, sample', next, hlike, ?_, ?_⟩
          · simp only [generate, generateWithin, hroot, hended _ (Nat.le_refl _)]
          · simp only [generate, generateWithin, hroot', hended' _ (Nat.le_refl _)]

end Specimen.Generation
