import Mathlib
import Specimen.Proofs.Declaration.Index
import Specimen.Proofs.Generation.Agreement

/-!
# Cycles that generation cannot leave

Not every name that a type mentions is entered: a map with the members of an enumeration as keys
generates its values only, and a container ignores further arguments. `TypeRef.followed` lists the
names that are entered without options. If such names lead from a root around a cycle through at
least two interfaces, generation from the root gives up under every limit and for every source.

The guard is no help there. It counts steps from an interface to itself only, and from every
interface on the way there is a step to another one from which the way goes on
(`Endless.exists_step`). On the branch that takes these steps the count stays where it was, so the
branch comes to an end by the limit only. Main statement: `generateWithin_eq_tooDeep`.
-/

namespace Specimen

/-! ## Followed names -/

/-- The names that a container enters, from those that its arguments enter. -/
def followedInContainer (name : String) (enumKeys : Option (List EnumMember))
    (args : List (List String)) : List String :=
  let first := args[0]?.getD []
  let second := args[1]?.getD []
  match name with
  | "Map" =>
      match enumKeys with
      | some members => if members.isEmpty then [] else second
      | none => first ++ second
  | "Set" => first
  | "Array" => first
  | _ => []

mutual

/-- The names that are entered when a type is generated without options. -/
def TypeRef.followed (index : Index) : TypeRef → List String
  | .primitive _ => []
  | .named name => [name]
  | .generic name args =>
      followedInContainer name (Generation.enumKeys? index args) (followedArgs index args)
  | .arrayOf element => followed index element
  | .unsupported _ => []
termination_by structural type => type

/-- The names that are entered for each type argument. -/
def TypeRef.followedArgs (index : Index) : List TypeRef → List (List String)
  | [] => []
  | arg :: args => followed index arg :: followedArgs index args
termination_by structural args => args

end

namespace Index

variable {index : Index} {root : String}

/-- A field of the interface enters the name. -/
def Follows (index : Index) (name target : String) : Prop :=
  ∃ fields, index.interfaceFields? name = some fields
    ∧ ∃ field ∈ fields, target ∈ field.type.followed index

/-- The root leads along followed names to two different names that lead to each other, so to a
cycle through at least two interfaces. -/
def Endless (index : Index) (root : String) : Prop :=
  ∃ a b, a ≠ b ∧ Relation.ReflTransGen index.Follows root a
    ∧ Relation.ReflTransGen index.Follows a b ∧ Relation.ReflTransGen index.Follows b a

/-- A walk to another name leaves its first name at some point. -/
theorem exists_step_of_ne {a b : String} (hwalk : Relation.ReflTransGen index.Follows a b)
    (hne : a ≠ b) :
    ∃ c, c ≠ a ∧ index.Follows a c ∧ Relation.ReflTransGen index.Follows c b := by
  induction hwalk using Relation.ReflTransGen.head_induction_on with
  | refl => exact absurd rfl hne
  | @head a c hstep hrest ih =>
      by_cases hsame : c = a
      · subst hsame
        exact ih hne
      · exact ⟨c, hsame, hstep, hrest⟩

/-- From an endless name there is a step to another endless name. -/
theorem Endless.exists_step (h : index.Endless root) :
    ∃ next, next ≠ root ∧ index.Follows root next ∧ index.Endless next := by
  obtain ⟨a, b, hne, hroot, hab, hba⟩ := h
  by_cases heq : root = a
  · subst heq
    obtain ⟨next, hother, hstep, hrest⟩ := exists_step_of_ne hab hne
    exact ⟨next, hother, hstep, b, root, hne.symm, hrest, hba, hab⟩
  · obtain ⟨next, hother, hstep, hrest⟩ := exists_step_of_ne hroot heq
    exact ⟨next, hother, hstep, a, b, hne, hrest, hab, hba⟩

theorem Endless.exists_find? (h : index.Endless root) :
    ∃ declaration, index.find? root = some declaration := by
  obtain ⟨_, -, ⟨fields, hfields, -⟩, -⟩ := h.exists_step
  obtain ⟨declaration, hfind, -⟩ := interfaceFields?_eq_some_iff.mp hfields
  exact ⟨declaration, hfind⟩

end Index

namespace Generation

variable {σ α β : Type}

/-! ## Attempts that give up -/

/-- The attempt gives up, whatever the source. -/
def GivesUp (attempt : Attempt σ α) : Prop :=
  ∀ source, attempt source = none

namespace GivesUp

theorem bind {attempt : Attempt σ α} (h : GivesUp attempt) (next : α → Attempt σ β) :
    GivesUp (attempt >>= next) := by
  intro source
  simp only [Bind.bind, StateT.bind, h source, Option.bind]

/-- An attempt before one that gives up does not help: it gives up itself, or the other one does. -/
theorem behind {next : α → Attempt σ β} (attempt : Attempt σ α)
    (h : ∀ value, GivesUp (next value)) : GivesUp (attempt >>= next) := by
  intro source
  simp only [Bind.bind, StateT.bind]
  cases attempt source with
  | none => rfl
  | some result => exact h result.1 result.2

theorem map {attempt : Attempt σ α} (h : GivesUp attempt) (f : α → β) :
    GivesUp (f <$> attempt) := by
  intro source
  simp only [Functor.map, StateT.map, Bind.bind, h source, Option.bind]

theorem gather {attempt : Attempt σ α} (h : GivesUp attempt) (count : Nat) :
    GivesUp (Specimen.gather attempt (count + 1)) :=
  h.bind _

theorem mapEntries {key value : Attempt σ Sample} (h : GivesUp key ∨ GivesUp value) (count : Nat)
    (entries : List (Sample × Sample)) :
    GivesUp (Generation.mapEntries key value (count + 1) entries) := by
  rcases h with h | h
  · exact h.bind _
  · exact behind key fun _ => h.bind _

theorem enumEntries {value : Attempt σ Sample} (h : GivesUp value) {members : List EnumMember}
    (hmembers : members.isEmpty = false) (entries : List (Sample × Sample)) :
    GivesUp (Generation.enumEntries value members entries) := by
  cases members with
  | nil => cases hmembers
  | cons member members => exact h.bind _

theorem setMembers {member : Attempt σ Sample} (h : GivesUp member) (count : Nat)
    (members : List Sample) : GivesUp (Generation.setMembers member (count + 1) members) :=
  h.bind _

theorem getD {target : String} {names : List (List String)} {args : List (Attempt σ Sample)}
    (h : List.Forall₂ (fun names arg => target ∈ names → GivesUp arg) names args) (place : Nat)
    (htarget : target ∈ names[place]?.getD []) : GivesUp (args[place]?.getD (Pure.pure .null)) := by
  induction h generalizing place with
  | nil => simp at htarget
  | cons harg _ ih =>
      cases place with
      | zero => exact harg htarget
      | succ place => exact ih place htarget

/-- A container that enters a name gives up with every argument that enters it. -/
theorem container {target : String} {names : List (List String)} {args : List (Attempt σ Sample)}
    (h : List.Forall₂ (fun names arg => target ∈ names → GivesUp arg) names args) {name : String}
    {enumKeys : Option (List EnumMember)}
    (htarget : target ∈ followedInContainer name enumKeys names) (length : Nat) :
    GivesUp (Generation.container name enumKeys args (length + 1)) := by
  unfold followedInContainer at htarget
  unfold Generation.container
  dsimp only at htarget ⊢
  split at htarget
  · -- a map gives up with its values, or with its keys where they are generated
    cases enumKeys with
    | some members =>
        dsimp only at htarget
        split at htarget
        · cases htarget
        · rename_i hmembers
          exact ((getD h 1 htarget).enumEntries (Bool.eq_false_iff.mpr hmembers) []).map _
    | none =>
        refine (mapEntries ?_ length []).map _
        exact (List.mem_append.mp htarget).imp (getD h 0) (getD h 1)
  · exact ((getD h 0 htarget).setMembers length []).map _
  · exact ((getD h 0 htarget).gather length).map _
  · cases htarget

end GivesUp

variable [WordSource σ] {index : Index} {enter : Enter σ} {guard : Guard}

mutual

/-- Where a name that a type enters gives up, the type gives up. -/
theorem givesUp_ofType {target : String} {declaration : Declaration}
    (hopen : guard.isExhausted = false) (hfind : index.find? target = some declaration)
    (henter : GivesUp (enter .empty (guard.descend (.named target)) declaration))
    (type : TypeRef) (htarget : target ∈ type.followed index) :
    GivesUp (ofType index enter .empty guard type) :=
  match type, htarget with
  | .named name, htarget => by
      obtain rfl := List.mem_singleton.mp htarget
      simp only [ofType, hopen, hfind]
      exact henter
  | .generic name args, htarget => by
      simp only [ofType, hopen]
      exact GivesUp.container (givesUp_ofArgs hopen hfind henter args) htarget _
  | .arrayOf element, htarget => by
      simp only [ofType, hopen]
      exact ((givesUp_ofType hopen hfind henter element htarget).gather _).map _
termination_by structural type

theorem givesUp_ofArgs {target : String} {declaration : Declaration}
    (hopen : guard.isExhausted = false) (hfind : index.find? target = some declaration)
    (henter : GivesUp (enter .empty (guard.descend (.named target)) declaration))
    (args : List TypeRef) :
    List.Forall₂ (fun names arg => target ∈ names → GivesUp arg)
      (TypeRef.followedArgs index args) (ofArgs index enter .empty guard args) :=
  match args with
  | [] => .nil
  | arg :: args =>
      .cons (givesUp_ofType hopen hfind henter arg) (givesUp_ofArgs hopen hfind henter args)
termination_by structural args

end

/-- An interface gives up with one of its fields. -/
theorem givesUp_fieldValues {options : Options} {fields : List Field} {field : Field}
    (hfield : field ∈ fields) (h : GivesUp (fieldValue index enter options guard field))
    (values : List (String × Sample)) :
    GivesUp (fieldValues index enter options guard fields values) := by
  induction fields generalizing values with
  | nil => cases hfield
  | cons first fields ih =>
      rcases List.mem_cons.mp hfield with rfl | hfield
      · exact h.bind _
      · exact .behind _ fun value => ih hfield _

/-- An endless declaration gives up under every limit, as long as the guard is open. -/
theorem givesUp_declared (hnamed : index.IsNamed) {limit : Nat} {root : String}
    (hendless : index.Endless root) {declaration : Declaration}
    (hfind : index.find? root = some declaration) (hopen : guard.isExhausted = false) :
    GivesUp (declared (σ := σ) index limit .empty guard declaration) := by
  induction limit generalizing root declaration guard with
  | zero => exact fun _ => rfl
  | succ limit ih =>
      obtain ⟨next, hother, ⟨fields, hfields, field, hfield, hfollowed⟩, hnext⟩ :=
        hendless.exists_step
      obtain ⟨below, hbelow⟩ := hnext.exists_find?
      obtain ⟨same, hsame, hbody⟩ := Index.interfaceFields?_eq_some_iff.mp hfields
      obtain rfl := Option.some.inj (hfind.symm.trans hsame)
      -- the step goes to another interface, so the guard does not count it
      have hguard : (guard.inside declaration.name).descend (.named next)
          = guard.inside declaration.name := by
        have hpivot : ¬ declaration.name = next := by
          rw [hnamed root declaration hfind]
          exact hother.symm
        simp [Guard.descend, Guard.inside, hpivot]
      have hinside : (guard.inside declaration.name).isExhausted = false := hopen
      have hvalue : GivesUp (fieldValue index (declared (σ := σ) index limit) .empty
          (guard.inside declaration.name) field) := by
        rw [fieldValue_empty]
        refine givesUp_ofType hinside hbelow ?_ field.type hfollowed
        rw [hguard]
        exact ih hnext hbelow hinside
      simp only [declared, hbody]
      exact (givesUp_fieldValues hfield hvalue []).map _

/-- Where followed names lead from the root around a cycle through at least two interfaces,
generation without options comes to no end: under every limit on how deep declarations nest and
from every source it is too deep. -/
theorem generateWithin_eq_tooDeep (declarations : List Declaration) (root : String) (limit : Nat)
    (source : σ) (h : (Index.ofList declarations).Endless root) :
    generateWithin limit (Index.ofList declarations) root .empty source
      = .error (.tooDeep root) := by
  obtain ⟨declaration, hfind⟩ := h.exists_find?
  have hgivesUp : GivesUp (declared (σ := σ) (Index.ofList declarations) limit .empty .start
      declaration) :=
    givesUp_declared (σ := σ) (Index.isNamed_ofList declarations) h hfind (by decide)
  simp only [generateWithin, hfind, hgivesUp source]

/-- A person has friends, and a person's city has citizens under its districts. -/
theorem generateWithin_eq_tooDeep_person :
    let declarations : List Declaration :=
      [⟨"Guide", .interface [⟨"author", .named "Person", false⟩]⟩,
        ⟨"Person", .interface [⟨"friends", .arrayOf (.named "Person"), false⟩,
          ⟨"city", .named "City", true⟩]⟩,
        ⟨"City", .interface [⟨"citizens",
          .generic "Map" [.named "District", .generic "Set" [.named "Person"]], false⟩]⟩,
        ⟨"District", .enumeration [⟨"North", none⟩, ⟨"South", none⟩]⟩]
    let index := Index.ofList declarations
    index.Endless "Guide"
      ∧ ∀ limit, generateWithin limit index "Guide" .empty (WordCycle.ofList [1, 2, 3])
          = .error (.tooDeep "Guide") := by
  intro declarations index
  have hguide : index.Follows "Guide" "Person" :=
    ⟨[⟨"author", .named "Person", false⟩], by rfl, _, List.mem_cons_self, by decide⟩
  have hperson : index.Follows "Person" "City" :=
    ⟨[⟨"friends", .arrayOf (.named "Person"), false⟩, ⟨"city", .named "City", true⟩], by rfl, _,
      List.mem_cons_of_mem _ List.mem_cons_self, by decide⟩
  have hcity : index.Follows "City" "Person" := by
    have hfollowed : TypeRef.followed index
        (.generic "Map" [.named "District", .generic "Set" [.named "Person"]]) = ["Person"] := by
      cbv
    refine ⟨[⟨"citizens", .generic "Map" [.named "District", .generic "Set" [.named "Person"]],
      false⟩], by rfl, _, List.mem_cons_self, ?_⟩
    exact hfollowed ▸ List.mem_singleton_self "Person"
  have hendless : index.Endless "Guide" :=
    ⟨"Person", "City", by decide, .single hguide, .single hperson, .single hcity⟩
  exact ⟨hendless, fun limit => generateWithin_eq_tooDeep declarations "Guide" limit _ hendless⟩

end Generation

end Specimen
