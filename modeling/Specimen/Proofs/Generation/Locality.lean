import Mathlib
import Specimen.Proofs.Generation.Lockstep

/-!
# Generation is local

Only the names that a root needs are looked up, and options matter only under the field names of
the interfaces among them. So a declaration that the root does not need, or an option for a field
that occurs nowhere, changes neither the answer about cycles nor the sample nor the source behind
it. Main statement: `generate_eq_of_agreeOn`.
-/

namespace Specimen.Generation

open Index

/-- Equal rules generate and finish in the same way. -/
theorem alike_of_agreeOn {relevant : String → Prop} {options options' : Options}
    (h : options.AgreeOn relevant options') :
    options.Alike relevant Likeness.equality.LikeRule options' :=
  h.of_differAt (fun _ _ _ heq _ => ⟨congrArg _ heq, fun _ => heq ▸ rfl⟩) fun _ hdiffer => hdiffer

/-- Two indexes that agree on the names that the root needs, and two options that agree on the
fields that it needs, give the same answer about cycles and, if there is none, the same result. -/
theorem generate_eq_of_agreeOn (declarations declarations' : List Declaration) (root : String)
    (options options' : Options)
    (hindex : ∀ name, (Index.ofList declarations).Needs root name →
      (Index.ofList declarations).find? name = (Index.ofList declarations').find? name)
    (hoptions : options.AgreeOn ((Index.ofList declarations).NeedsField root) options') :
    let index := Index.ofList declarations
    let index' := Index.ofList declarations'
    index.reachableCycle? root = index'.reachableCycle? root
      ∧ (index.reachableCycle? root = none →
        ∀ (σ : Type) [WordSource σ] (source : σ),
          (index.find? root = none
              ∧ generate index root options source = .error (.notFound root)
              ∧ generate index' root options' source = .error (.notFound root))
            ∨ ∃ sample next, generate index root options source = .ok (sample, next)
                ∧ generate index' root options' source = .ok (sample, next)) := by
  intro index index'
  refine ⟨reachableCycle?_congr hindex, ?_⟩
  intro hcycle σ _ source
  rcases paired_generate .equality hcycle hindex (fun _ => id) (alike_of_agreeOn hoptions) source
    with hmissing | ⟨sample, sample', next, heq, hfirst, hsecond⟩
  · exact .inl hmissing
  · obtain rfl : sample = sample' := heq
    exact .inr ⟨sample, next, hfirst, hsecond⟩

/-- A shop and a rule for its weight do not matter to an owner of pets. -/
theorem generate_eq_of_agreeOn_owner :
    let owner : Declaration :=
      ⟨"Owner", .interface [⟨"pets", .generic "Set" [.named "Pet"], false⟩]⟩
    let pet : Declaration := ⟨"Pet", .enumeration [⟨"Cat", none⟩, ⟨"Dog", none⟩]⟩
    let shop : Declaration := ⟨"Shop", .interface [⟨"owner", .named "Owner", false⟩]⟩
    let rule : FieldRule := ⟨.array, none, none, none, none, some 2, none⟩
    let options : Options := ⟨[("pets", .rule rule)]⟩
    let options' : Options := ⟨[("owner", .nested []), ("pets", .rule rule)]⟩
    (Index.ofList [owner, pet]).reachableCycle? "Owner" = none
      ∧ ∃ sample next,
        generate (Index.ofList [owner, pet]) "Owner" options (WordCycle.ofList [1, 2, 3])
            = .ok (sample, next)
          ∧ generate (Index.ofList [shop, pet, owner]) "Owner" options' (WordCycle.ofList [1, 2, 3])
            = .ok (sample, next) := by
  intro owner pet shop rule options options'
  have howner : (Index.ofList [owner, pet]).interfaceFields? "Owner"
      = some [⟨"pets", .generic "Set" [.named "Pet"], false⟩] := by rfl
  have hpet : (Index.ofList [owner, pet]).interfaceFields? "Pet" = none := by rfl
  have hneeds : ∀ name, (Index.ofList [owner, pet]).Needs "Owner" name →
      name = "Owner" ∨ name = "Pet" := by
    refine Needs.of_closed (.inl rfl) ?_
    rintro name fields (rfl | rfl) hfields field hfield target htarget
    · obtain rfl := Option.some.inj (howner.symm.trans hfields)
      obtain rfl := List.mem_singleton.mp hfield
      exact .inr (by simpa [TypeRef.mentions, TypeRef.argMentions] using htarget)
    · rw [hpet] at hfields
      cases hfields
  have hindex : ∀ name, (Index.ofList [owner, pet]).Needs "Owner" name →
      (Index.ofList [owner, pet]).find? name = (Index.ofList [shop, pet, owner]).find? name := by
    intro name hname
    rcases hneeds name hname with rfl | rfl <;> rfl
  have hoptions : options.AgreeOn ((Index.ofList [owner, pet]).NeedsField "Owner") options' := by
    refine .intro ?_
    rintro _ ⟨name, fields, hname, hfields, field, hfield, rfl⟩
    rcases hneeds name hname with rfl | rfl
    · obtain rfl := Option.some.inj (howner.symm.trans hfields)
      obtain rfl := List.mem_singleton.mp hfield
      exact .rule rfl
    · rw [hpet] at hfields
      cases hfields
  have hcycle : (Index.ofList [owner, pet]).reachableCycle? "Owner" = none := by cbv
  have hfind : (Index.ofList [owner, pet]).find? "Owner" ≠ none := by decide
  refine ⟨hcycle, ?_⟩
  exact ((generate_eq_of_agreeOn [owner, pet] [shop, pet, owner] "Owner" options options' hindex
    hoptions).2 hcycle WordCycle (WordCycle.ofList [1, 2, 3])).resolve_left fun h => hfind h.1

end Specimen.Generation
