import Specimen.Proofs.Declaration.Index
import Specimen.Proofs.Generation.Agreement
import Specimen.Proofs.Reference.Search

/-!
# How deep declarations nest

Below a root that reaches no cycle, generation ends. The declarations that are inside each other
form a chain. `Chain` keeps the interfaces above the last one of it, each once: a chain that steps
to another interface makes its path longer, and one that steps back to the same interface uses up
the guard. So `room`, the declared names off the path together with what is left of the guard,
shrinks with every step (`Chain.descend`).

An array rule starts anew: with a fresh guard and an empty path, but also without options, hence
without a further rule. `inChains` is the generation with a limit of its own for each of the two
chains. Main statement: `generateWithin_eq_inChains`.
-/

namespace Specimen

namespace Guard

@[simp] theorem pivot_descend (guard : Guard) (type : TypeRef) :
    (guard.descend type).pivot = guard.pivot := by
  cases type with
  | named name =>
      simp only [descend]
      split <;> rfl
  | _ => rfl

@[simp] theorem pivot_inside (guard : Guard) (name : String) :
    (guard.inside name).pivot = some name := rfl

@[simp] theorem pivot_start : start.pivot = none := rfl

end Guard

namespace Generation

open Index

variable {σ : Type} [WordSource σ] {index : Index} {root : String}

/-! ## Chains of nested declarations -/

/-- What is known about a declaration and the interfaces that it is inside of. -/
structure Chain (index : Index) (root : String) (path : List String) (name : String) : Prop where
  declared : name ∈ index.names
  fresh : name ∉ path
  interfaces : ∀ above ∈ path, index.IsInterface above
  reached : index.IsInterface name →
    index.Reaches root name ∧ ∀ above ∈ path, index.Reaches above name

/-- How many declarations may still be inside a declaration and its repetitions. -/
def room (index : Index) (path : List String) (guard : Guard) : Nat :=
  index.freshCount path + (Guard.limit - guard.count)

theorem Chain.start {name : String} (hdeclared : name ∈ index.names)
    (hreach : index.IsInterface name → index.Reaches root name) :
    Chain index root [] name :=
  ⟨hdeclared, by simp, by simp, fun hinterface => ⟨hreach hinterface, by simp⟩⟩

theorem freshCount_nil (index : Index) : index.freshCount [] = index.size := by
  simp [freshCount, names, Entries.names, size]

theorem room_start (index : Index) (guard : Guard) :
    room index [] guard ≤ index.size + Guard.limit := by
  rw [room, freshCount_nil]
  omega

theorem Chain.room_pos {path : List String} {name : String}
    (h : Chain index root path name) (guard : Guard) : 0 < room index path guard := by
  have := freshCount_append_lt h.declared h.fresh
  unfold room
  omega

/-- Another declaration that an interface mentions is not above it. -/
theorem Chain.step {path : List String} {name target : String}
    (hfree : ¬ index.Entangled root) (h : Chain index root path name)
    (hmentions : index.Mentions name target) (hdeclared : target ∈ index.names)
    (hother : target ≠ name) : Chain index root (path ++ [name]) target := by
  have hname : index.IsInterface name := by
    obtain ⟨fields, hfields, -⟩ := hmentions
    simp [IsInterface, hfields]
  obtain ⟨hreach, habove⟩ := h.reached hname
  have hlink : index.IsInterface target → index.Leads name target :=
    fun hinterface => ⟨hmentions, hinterface, hother⟩
  refine ⟨hdeclared, ?_, ?_, ?_⟩
  · intro hmem
    rcases List.mem_append.mp hmem with hmem | hmem
    · -- the target would lead down to the interface again
      have hback := Relation.TransGen.head' (hlink (h.interfaces target hmem)) (habove target hmem)
      exact not_transGen_self hfree hreach hback
    · exact hother (List.mem_singleton.mp hmem)
  · intro above hmem
    rcases List.mem_append.mp hmem with hmem | hmem
    · exact h.interfaces above hmem
    · exact List.mem_singleton.mp hmem ▸ hname
  · intro hinterface
    refine ⟨hreach.tail (hlink hinterface), ?_⟩
    intro above hmem
    rcases List.mem_append.mp hmem with hmem | hmem
    · exact (habove above hmem).tail (hlink hinterface)
    · exact List.mem_singleton.mp hmem ▸ .single (hlink hinterface)

/-- One step down a chain leaves less room. -/
theorem Chain.descend {path : List String} {name target : String} {guard : Guard}
    (hfree : ¬ index.Entangled root) (h : Chain index root path name)
    (hmentions : index.Mentions name target) (hdeclared : target ∈ index.names)
    (hopen : guard.isExhausted = false) :
    ∃ below, Chain index root below target
      ∧ room index below ((guard.inside name).descend (.named target)) < room index path guard := by
  by_cases hself : target = name
  · subst hself
    refine ⟨path, h, ?_⟩
    simp only [Guard.isExhausted, decide_eq_false_iff_not, Nat.not_le] at hopen
    simp only [room, Guard.descend, Guard.inside, if_true]
    omega
  · refine ⟨path ++ [name], h.step hfree hmentions hdeclared hself, ?_⟩
    have := freshCount_append_lt h.declared h.fresh
    simp only [room, Guard.descend, Guard.inside, Option.some.injEq, Ne.symm hself, if_false]
    omega

/-- A chain that starts anew below an interface. -/
theorem Chain.anew {path : List String} {name target : String} (h : Chain index root path name)
    (hmentions : index.Mentions name target) (hdeclared : target ∈ index.names) :
    Chain index root [] target := by
  apply Chain.start hdeclared
  intro hinterface
  by_cases hself : target = name
  · exact (h.reached (hself ▸ hinterface)).1 |> fun hreach => hself ▸ hreach
  · have hlink : index.Leads name target := ⟨hmentions, hinterface, hself⟩
    exact (h.reached hlink.isInterface).1.tail hlink

/-! ## The two chains -/

/-- Generation with a limit of its own for each chain: `first` bounds the declarations inside each
other under the options of the caller, `second` those below an array that started anew. Inside an
interface the guard has a pivot, so an entry without one is below such an array. -/
def inChains (index : Index) (second : Nat) : (first : Nat) → Enter σ
  | 0, _, _, _ => fun _ => none
  | first + 1, options, guard, declaration =>
      match declaration.body with
      | .interface fields =>
          let enter : Enter σ := fun options guard declaration =>
            match guard.pivot with
            | some _ => inChains index second first options guard declaration
            | none => declared index second options guard declaration
          Sample.object <$>
            fieldValues index enter options (guard.inside declaration.name) fields []
      | .enumeration members => (enumValue members).attempt
      | .alias _ => pure (.object [])
      | .namespace => pure (.object [])

/-- A declaration under its own name, with fields, is an interface that mentions what they do. -/
theorem mentions_of_interface {declaration : Declaration} {fields : List Field} {field : Field}
    {target : String} (hfind : index.find? declaration.name = some declaration)
    (hbody : declaration.body = .interface fields) (hfield : field ∈ fields)
    (htarget : target ∈ field.type.mentions) : index.Mentions declaration.name target :=
  ⟨fields, by simp [interfaceFields?, hfind, hbody], field, hfield, htarget⟩

/-- Without options, one chain is enough: with any two limits that leave it room the results are
the same. -/
theorem agree_declared_empty (hnamed : index.IsNamed) (hfree : ¬ index.Entangled root)
    {path : List String} {declaration : Declaration} {guard : Guard} {limit limit' : Nat}
    (hfind : index.find? declaration.name = some declaration)
    (hchain : Chain index root path declaration.name)
    (hlimit : room index path guard ≤ limit) (hlimit' : room index path guard ≤ limit') :
    Agree (declared (σ := σ) index limit .empty guard declaration)
      (declared index limit' .empty guard declaration) := by
  induction limit generalizing limit' path guard declaration with
  | zero =>
      have := hchain.room_pos guard
      omega
  | succ limit ih =>
      obtain _ | limit' := limit'
      · have := hchain.room_pos guard
        omega
      cases hbody : declaration.body with
      | interface fields =>
          simp only [declared, hbody]
          refine .map _ (agree_fieldValues fields ?_ [])
          intro field hfield
          rw [fieldValue_empty, fieldValue_empty]
          apply agree_ofType
          intro target htarget hopen inner hinner
          have hopen : guard.isExhausted = false := hopen
          have hname : inner.name = target := hnamed target inner hinner
          obtain ⟨below, hbelow, hless⟩ :=
            hchain.descend hfree (mentions_of_interface hfind hbody hfield htarget)
              (mem_names_of_find? hinner) hopen
          exact ih (hname ▸ hinner) (hname ▸ hbelow) (by omega) (by omega)
      | enumeration members =>
          simp only [declared, hbody]
          exact .draw (enumValue members)
      | «alias» target =>
          simp only [declared, hbody]
          exact .pure (Sample.object [])
      | «namespace» =>
          simp only [declared, hbody]
          exact .pure (Sample.object [])

/-- With room for the first chain, and for a second one behind it, the limits do not matter. -/
theorem agree_inChains (hnamed : index.IsNamed) (hfree : ¬ index.Entangled root)
    {path : List String} {declaration : Declaration} {options : Options} {guard : Guard}
    {first second limit : Nat}
    (hfind : index.find? declaration.name = some declaration)
    (hchain : Chain index root path declaration.name)
    (hfirst : room index path guard ≤ first)
    (hsecond : index.size + Guard.limit ≤ second)
    (hlimit : room index path guard + (index.size + Guard.limit) ≤ limit) :
    Agree (inChains (σ := σ) index second first options guard declaration)
      (declared index limit options guard declaration) := by
  induction first generalizing limit path options guard declaration with
  | zero =>
      have := hchain.room_pos guard
      omega
  | succ first ih =>
      have hroom := hchain.room_pos guard
      obtain _ | limit := limit
      · omega
      cases hbody : declaration.body with
      | interface fields =>
          simp only [inChains, declared, hbody]
          refine .map _ (agree_fieldValues fields ?_ [])
          intro field hfield
          have hmentions : ∀ target ∈ field.type.mentions, index.Mentions declaration.name target :=
            fun target htarget => mentions_of_interface hfind hbody hfield htarget
          apply agree_fieldValue
          · -- the chain goes on under some options, with the interface as pivot
            intro options target htarget hopen inner hinner
            have hopen : guard.isExhausted = false := hopen
            have hname : inner.name = target := hnamed target inner hinner
            obtain ⟨below, hbelow, hless⟩ :=
              hchain.descend hfree (hmentions target htarget) (mem_names_of_find? hinner) hopen
            simp only [Guard.pivot_descend, Guard.pivot_inside]
            exact ih (hname ▸ hinner) (hname ▸ hbelow) (by omega) (by omega)
          · -- an array rule starts a chain anew, without options and without a pivot
            intro target htarget _ inner hinner
            have hname : inner.name = target := hnamed target inner hinner
            have hanew := hchain.anew (hmentions target htarget) (mem_names_of_find? hinner)
            have hstart := room_start index (Guard.start.descend (.named target))
            simp only [Guard.pivot_descend, Guard.pivot_start]
            exact agree_declared_empty hnamed hfree (hname ▸ hinner) (hname ▸ hanew) (by omega)
              (by omega)
      | enumeration members =>
          simp only [inChains, declared, hbody]
          exact .draw (enumValue members)
      | «alias» target =>
          simp only [inChains, declared, hbody]
          exact .pure (Sample.object [])
      | «namespace» =>
          simp only [inChains, declared, hbody]
          exact .pure (Sample.object [])

/-! ## The whole -/

section Root

variable {declarations : List Declaration} {declaration : Declaration}
  (hcycle : (Index.ofList declarations).reachableCycle? root = none)
  (hfind : (Index.ofList declarations).find? root = some declaration)
include hcycle hfind

/-- From a root that reaches no cycle, all limits that leave room for two chains agree. -/
theorem agree_root (options : Options) {limit : Nat}
    (hlimit : nestingBound (Index.ofList declarations) ≤ limit) :
    Agree (inChains (σ := σ) (Index.ofList declarations)
        ((Index.ofList declarations).size + Guard.limit)
        ((Index.ofList declarations).size + Guard.limit) options .start declaration)
      (declared (Index.ofList declarations) limit options .start declaration) := by
  have hnamed : (Index.ofList declarations).IsNamed := Index.isNamed_ofList declarations
  have hname : declaration.name = root := hnamed root declaration hfind
  have hfree : ¬ (Index.ofList declarations).Entangled root :=
    not_entangled_of_reachableCycle? hcycle
  have hchain : Chain (Index.ofList declarations) root [] declaration.name :=
    hname.symm ▸ .start (mem_names_of_find? hfind) fun _ => .refl
  have hroom := room_start (Index.ofList declarations) .start
  unfold nestingBound at hlimit
  exact agree_inChains hnamed hfree (hname.symm ▸ hfind) hchain hroom (Nat.le_refl _) (by omega)

/-- From a root that reaches no cycle, generation ends, and further limits change nothing. -/
theorem exists_declared (options : Options) (source : σ) :
    ∃ result, ∀ limit, nestingBound (Index.ofList declarations) ≤ limit →
      declared (Index.ofList declarations) limit options .start declaration source
        = some result := by
  obtain ⟨result, hresult, -⟩ := agree_root hcycle hfind options (Nat.le_refl _) source
  refine ⟨result, fun limit hlimit => ?_⟩
  obtain ⟨result', hresult', hdeclared⟩ := agree_root hcycle hfind options hlimit source
  rw [hdeclared, ← hresult', hresult]

end Root

/-- Below a root that reaches no cycle, generation ends with a sample. On every branch at most
`index.size + Guard.limit` declarations are inside each other under the options of the caller, and
at most as many below an array that starts anew; so every limit of twice that many gives the same
sample. -/
theorem generateWithin_eq_inChains (declarations : List Declaration) (root : String)
    (options : Options) (source : σ)
    (hcycle : (Index.ofList declarations).reachableCycle? root = none) :
    let index := Index.ofList declarations
    let bound := index.size + Guard.limit
    (index.find? root = none →
        ∀ limit, generateWithin limit index root options source = .error (.notFound root))
      ∧ ∀ declaration, index.find? root = some declaration →
          ∃ result, inChains index bound bound options .start declaration source = some result
            ∧ ∀ limit, 2 * bound ≤ limit →
                generateWithin limit index root options source = .ok result := by
  intro index bound
  constructor
  · intro hfind limit
    simp only [generateWithin, hfind]
  · intro declaration hfind
    obtain ⟨result, hresult, -⟩ := agree_root hcycle hfind options (Nat.le_refl _) source
    refine ⟨result, hresult, ?_⟩
    intro limit hlimit
    obtain ⟨result', hresult', hdeclared⟩ := agree_root hcycle hfind options hlimit source
    have hsame : result' = result := Option.some.inj (hresult'.symm.trans hresult)
    have hended : declared index limit options .start declaration source = some result :=
      hsame ▸ hdeclared
    simp only [generateWithin, hfind, hended]

/-- A person with a spouse and with posts that a rule asks for. -/
theorem generateWithin_eq_inChains_person :
    let declarations : List Declaration :=
      [⟨"Person", .interface [⟨"spouse", .named "Person", false⟩,
          ⟨"posts", .arrayOf (.named "Post"), false⟩]⟩,
        ⟨"Post", .interface [⟨"likes", .generic "Set" [.named "Post"], true⟩]⟩]
    let rule : FieldRule := ⟨.array, none, none, none, none, some 2, none⟩
    let options : Options := ⟨[("posts", .rule rule)]⟩
    let index := Index.ofList declarations
    index.reachableCycle? "Person" = none
      ∧ ∃ result, ∀ limit, 2 * (index.size + Guard.limit) ≤ limit →
          generateWithin limit index "Person" options (WordCycle.ofList [1, 2, 3])
            = .ok result := by
  intro declarations rule options index
  have hcycle : index.reachableCycle? "Person" = none := by cbv
  refine ⟨hcycle, ?_⟩
  obtain ⟨result, -, hresult⟩ :=
    (generateWithin_eq_inChains declarations "Person" options (WordCycle.ofList [1, 2, 3]) hcycle).2
      ⟨"Person", .interface [⟨"spouse", .named "Person", false⟩,
          ⟨"posts", .arrayOf (.named "Post"), false⟩]⟩ (by rfl)
  exact ⟨result, hresult⟩

end Generation

end Specimen
