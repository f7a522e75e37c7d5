import Mathlib
import Specimen.Proofs.Generation.Conformance
import Specimen.Proofs.Reference.Caught
import Specimen.Proofs.Reference.Need

/-!
# Where null comes from

Without options, `null` stands for a name that is neither declared nor a container, for a type of
an unsupported form, for a generic type that is no container, for an argument that a container
misses and for a member of an enumeration without members. The first of these are the dangling
references of the report; `TypeRef.isGenerated` and `Index.Clean` exclude the others for
everything that a root needs. What conforms is free of `null` then. Main statement:
`generate_isNullFree`.
-/

namespace Specimen

/-! ## Samples without null -/

namespace Sample

mutual

/-- Neither the sample nor anything inside it is `null`. -/
def isNullFree : Sample → Bool
  | .undefined => true
  | .null => false
  | .bool _ => true
  | .int _ => true
  | .float _ => true
  | .string _ => true
  | .array items => areNullFree items
  | .object fields => fieldsAreNullFree fields
  | .map entries => entriesAreNullFree entries
  | .set members => areNullFree members
termination_by structural sample => sample

/-- None of the samples is or has a `null`. -/
def areNullFree : List Sample → Bool
  | [] => true
  | sample :: samples => isNullFree sample && areNullFree samples
termination_by structural samples => samples

/-- None of the values of fields is or has a `null`. -/
def fieldsAreNullFree : List (String × Sample) → Bool
  | [] => true
  | (_, value) :: fields => isNullFree value && fieldsAreNullFree fields
termination_by structural fields => fields

/-- None of the keys and values is or has a `null`. -/
def entriesAreNullFree : List (Sample × Sample) → Bool
  | [] => true
  | (key, value) :: entries => isNullFree key && isNullFree value && entriesAreNullFree entries
termination_by structural entries => entries

end

theorem areNullFree_iff {samples : List Sample} :
    areNullFree samples = true ↔ ∀ sample ∈ samples, sample.isNullFree = true := by
  induction samples with
  | nil => simp [areNullFree]
  | cons sample samples ih => simp [areNullFree, ih]

theorem fieldsAreNullFree_iff {fields : List (String × Sample)} :
    fieldsAreNullFree fields = true ↔ ∀ field ∈ fields, field.2.isNullFree = true := by
  induction fields with
  | nil => simp [fieldsAreNullFree]
  | cons field fields ih =>
      obtain ⟨name, value⟩ := field
      simp [fieldsAreNullFree, ih]

theorem entriesAreNullFree_iff {entries : List (Sample × Sample)} :
    entriesAreNullFree entries = true
      ↔ ∀ entry ∈ entries, entry.1.isNullFree = true ∧ entry.2.isNullFree = true := by
  induction entries with
  | nil => simp [entriesAreNullFree]
  | cons entry entries ih =>
      obtain ⟨key, value⟩ := entry
      simp [entriesAreNullFree, ih]

theorem isNullFree_ofEnumLiteral (value : EnumLiteral) :
    (ofEnumLiteral value).isNullFree = true := by
  unfold ofEnumLiteral
  split
  · rfl
  · dsimp only
    split <;> rfl

end Sample

/-! ## Types that are generated -/

/-- How many type arguments a container needs. -/
def containerArity? : String → Option Nat
  | "Array" => some 1
  | "Set" => some 1
  | "Map" => some 2
  | _ => none

namespace TypeRef

mutual

/-- The type has no unsupported part, its generic types are containers with enough arguments, and no
container stands in it by its bare name, unless that is declared. -/
def isGenerated (index : Index) : TypeRef → Bool
  | .primitive _ => true
  | .named name => index.contains name || !isContainer name
  | .generic name args =>
      (containerArity? name).any (fun arity => decide (arity ≤ args.length))
        && areGenerated index args
  | .arrayOf element => isGenerated index element
  | .unsupported _ => false
termination_by structural type => type

/-- See `isGenerated`, for type arguments. -/
def areGenerated (index : Index) : List TypeRef → Bool
  | [] => true
  | arg :: args => isGenerated index arg && areGenerated index args
termination_by structural args => args

end

theorem areGenerated_iff {index : Index} {args : List TypeRef} :
    areGenerated index args = true ↔ ∀ arg ∈ args, arg.isGenerated index = true := by
  induction args with
  | nil => simp [areGenerated]
  | cons arg args ih => simp [areGenerated, ih]

end TypeRef

namespace Index

/-- Everything that the root needs can be generated: the types of fields are, the enumerations have
members, and the report has no dangling reference of an interface among it. -/
structure Clean (index : Index) (root : String) : Prop where
  types : ∀ name fields, index.Needs root name → index.interfaceFields? name = some fields →
    ∀ field ∈ fields, field.type.isGenerated index = true
  enumerations : ∀ name members, index.Needs root name → index.enumMembers? name = some members →
    members ≠ []
  references : ∀ reference ∈ index.referenceReport.dangling,
    index.Needs root reference.declaration → ¬ index.IsInterface reference.declaration

variable {index : Index} {root : String}

/-- What a field mentions is declared or a container; otherwise the report would list it. -/
theorem Clean.contains_or_isContainer (hclean : index.Clean root) (hnamed : index.IsNamed)
    {name target : String} {fields : List Field} {field : Field} (hneeds : index.Needs root name)
    (hfields : index.interfaceFields? name = some fields) (hfield : field ∈ fields)
    (htarget : target ∈ field.type.mentions) :
    index.contains target = true ∨ isContainer target = true := by
  by_contra hneither
  simp only [not_or, Bool.not_eq_true] at hneither
  obtain ⟨declaration, hfind, hbody⟩ : ∃ declaration, index.find? name = some declaration
      ∧ declaration.body = .interface fields := by
    unfold interfaceFields? at hfields
    split at hfields
    · rename_i hbody
      obtain ⟨declaration, hfind, hbody⟩ := Option.map_eq_some_iff.mp hbody
      cases hfields
      exact ⟨declaration, hfind, hbody⟩
    · cases hfields
  have hname : declaration.name = name := hnamed name declaration hfind
  have hother : target ≠ declaration.name := by
    rintro rfl
    simp [contains, hname, hfind] at hneither
  have hdangling : (⟨name, some field.name, target⟩ : DanglingReference)
      ∈ index.referenceReport.dangling := by
    refine List.mem_flatMap.mpr ⟨declaration, ?_, ?_⟩
    · exact List.mem_map.mpr ⟨_, Entries.mem_of_find? hfind, rfl⟩
    · refine List.mem_flatMap.mpr ⟨(some field.name, field.type), ?_, ?_⟩
      · simp only [Declaration.parts, hbody]
        exact List.mem_map.mpr ⟨field, hfield, rfl⟩
      · refine List.mem_map.mpr ⟨target, List.mem_filter.mpr ⟨htarget, ?_⟩, by rw [hname]⟩
        simp [hother, hneither]
  exact hclean.references _ hdangling hneeds (by simp [IsInterface, hfields])

end Index

namespace Generation

/-! ## What conforms -/

/-- The names are needed, and each is declared or a container. -/
def Resolved (index : Index) (root : String) (names : List String) : Prop :=
  ∀ name ∈ names, index.Needs root name
    ∧ (index.contains name = true ∨ isContainer name = true)

section Conforms

variable {index : Index} {root : String}

/-- An argument that a container does not miss. -/
theorem exists_arg {args : List TypeRef} (hargs : TypeRef.areGenerated index args = true)
    (hnames : Resolved index root (TypeRef.argMentions args)) {place : Nat}
    (hplace : place < args.length) :
    ∃ type, args[place]? = some type ∧ type.isGenerated index = true
      ∧ Resolved index root type.mentions := by
  refine ⟨args[place], List.getElem?_eq_getElem hplace, ?_, ?_⟩
  · exact TypeRef.areGenerated_iff.mp hargs _ (List.getElem_mem hplace)
  · intro name hname
    apply hnames
    rw [TypeRef.argMentions_eq_flatMap]
    exact List.mem_flatMap.mpr ⟨_, List.getElem_mem hplace, hname⟩

theorem isNullFree_of_fitsPrimitive {type : Primitive} {sample : Sample}
    (h : Leaf.FitsPrimitive type sample) : sample.isNullFree = true := by
  cases h <;> rfl

theorem mem_of_mem_distinct {samples : List Sample} {sample : Sample}
    (h : sample ∈ Sample.distinct samples) : sample ∈ samples := by
  induction samples using List.reverseRecOn with
  | nil => cases h
  | append_singleton samples last ih =>
      rw [Sample.distinct_concat, Sample.insertMember] at h
      split at h
      · exact List.mem_append_left _ (ih h)
      · rcases List.mem_append.mp h with h | h
        · exact List.mem_append_left _ (ih h)
        · exact List.mem_append_right _ h

theorem isContainer_of_any_containerArity? {name : String} {count : Nat}
    (h : (containerArity? name).any (fun arity => decide (arity ≤ count)) = true) :
    isContainer name = true := by
  unfold containerArity? at h
  split at h
  · decide
  · decide
  · decide
  · cases h

mutual

/-- What conforms to a type that is generated, and whose names are all resolved, is free of null. -/
theorem isNullFree_of_conforms (hclean : index.Clean root) (hnamed : index.IsNamed) {level : Nat}
    {pivot : Option String} {type : TypeRef} {sample : Sample} :
    Conforms index level pivot type sample →
    type.isGenerated index = true → Resolved index root type.mentions →
    sample.isNullFree = true
  | .cutOff _ _, _, _ => rfl
  | .primitive _ fits, _, _ => isNullFree_of_fitsPrimitive fits
  | @Conforms.declared _ _ _ name declaration _ _ found inner, _, hnames => by
      have hsame : declaration.name = name := hnamed name declaration found
      have hneeds := (hnames name (by simp [TypeRef.mentions])).1
      exact isNullFree_of_conformsDeclaration hclean hnamed inner (hsame ▸ found)
        (hsame ▸ hneeds)
  | @Conforms.undeclared _ _ _ name _ _ missing _, hgenerated, hnames => by
      have hcontains : index.contains name = false := by simp [Index.contains, missing]
      have hcontainer : isContainer name = false := by
        simpa [TypeRef.isGenerated, hcontains] using hgenerated
      have hresolved := (hnames name (by simp [TypeRef.mentions])).2
      simp [hcontains, hcontainer] at hresolved
  | .generic _ inner, hgenerated, hnames => by
      simp only [TypeRef.isGenerated, Bool.and_eq_true] at hgenerated
      exact isNullFree_of_conformsContainer hclean hnamed inner hgenerated.1 hgenerated.2 hnames
  | .arrayOf _ _ each, hgenerated, hnames =>
      Sample.areNullFree_iff.mpr fun item hitem =>
        isNullFree_of_conforms hclean hnamed (each item hitem) hgenerated hnames
  | .unsupported _ _, hgenerated, _ => nomatch hgenerated
termination_by structural h => h

theorem isNullFree_of_conformsArg (hclean : index.Clean root) (hnamed : index.IsNamed)
    {level : Nat} {pivot : Option String} {arg : Option TypeRef} {sample : Sample} :
    ConformsArg index level pivot arg sample →
    (∃ type, arg = some type ∧ type.isGenerated index = true
      ∧ Resolved index root type.mentions) →
    sample.isNullFree = true
  | .given inner, ⟨_, heq, hgenerated, hnames⟩ => by
      cases heq
      exact isNullFree_of_conforms hclean hnamed inner hgenerated hnames
  | .missing _ _, ⟨_, heq, _⟩ => nomatch heq
termination_by structural h => h

theorem isNullFree_of_conformsContainer (hclean : index.Clean root) (hnamed : index.IsNamed)
    {level : Nat} {pivot : Option String} {name : String} {args : List TypeRef}
    {sample : Sample} : ConformsContainer index level pivot name args sample →
    (containerArity? name).any (fun arity => decide (arity ≤ args.length)) = true →
    TypeRef.areGenerated index args = true → Resolved index root (TypeRef.argMentions args) →
    sample.isNullFree = true
  | .array _ each, harity, hargs, hnames => by
      have hlength : 1 ≤ args.length := of_decide_eq_true harity
      refine Sample.areNullFree_iff.mpr fun item hitem => ?_
      exact isNullFree_of_conformsArg hclean hnamed (each item hitem)
        (exists_arg hargs hnames hlength)
  | .set _ _ _ each, harity, hargs, hnames => by
      have hlength : 1 ≤ args.length := of_decide_eq_true harity
      refine Sample.areNullFree_iff.mpr fun member hmember => ?_
      exact isNullFree_of_conformsArg hclean hnamed (each member hmember)
        (exists_arg hargs hnames hlength)
  | @ConformsContainer.enumMap _ _ _ key args members entries _ keys values, harity, hargs,
      hnames => by
      have hlength : 2 ≤ (TypeRef.named key :: args).length := of_decide_eq_true harity
      refine Sample.entriesAreNullFree_iff.mpr fun entry hentry => ⟨?_, ?_⟩
      · have hkey := mem_of_mem_distinct (keys ▸ List.mem_map_of_mem hentry)
        obtain ⟨member, -, hmember⟩ := List.mem_map.mp hkey
        exact hmember ▸ Sample.isNullFree_ofEnumLiteral member.resolved
      · exact isNullFree_of_conformsArg hclean hnamed (values entry hentry)
          (exists_arg hargs hnames hlength)
  | .map _ _ _ _ keys values, harity, hargs, hnames => by
      have hlength : 2 ≤ args.length := of_decide_eq_true harity
      refine Sample.entriesAreNullFree_iff.mpr fun entry hentry => ⟨?_, ?_⟩
      · exact isNullFree_of_conformsArg hclean hnamed (keys entry hentry)
          (exists_arg hargs hnames (Nat.lt_of_lt_of_le Nat.zero_lt_two hlength))
      · exact isNullFree_of_conformsArg hclean hnamed (values entry hentry)
          (exists_arg hargs hnames hlength)
  | .other unknown, harity, _, _ => by
      rw [isContainer_of_any_containerArity? harity] at unknown
      cases unknown
termination_by structural h => h

theorem isNullFree_of_conformsDeclaration (hclean : index.Clean root) (hnamed : index.IsNamed)
    {level : Nat} {declaration : Declaration} {sample : Sample} :
    ConformsDeclaration index level declaration sample →
    index.find? declaration.name = some declaration → index.Needs root declaration.name →
    sample.isNullFree = true
  | @ConformsDeclaration.interface _ _ _ fields values body names each, hfind, hneeds => by
      have hfields : index.interfaceFields? declaration.name = some fields := by
        simp [Index.interfaceFields?, hfind, body]
      refine Sample.fieldsAreNullFree_iff.mpr fun entry hentry => ?_
      have hname : entry.1 ∈ fields.map Field.name := by
        rw [← List.mem_eraseDups, ← names]
        exact List.mem_map_of_mem hentry
      obtain ⟨field, hfield, hlast⟩ := exists_lastField? hname
      have hnodup : (Entries.names values).Nodup := names ▸ Index.nodup_eraseDups _
      have hvalue := (Entries.find?_eq_some_iff_mem hnodup).mpr hentry
      refine isNullFree_of_conforms hclean hnamed (each entry.1 entry.2 field hvalue hlast)
        (hclean.types _ fields hneeds hfields field hfield) fun target htarget => ⟨?_, ?_⟩
      · exact hneeds.tail ⟨fields, hfields, field, hfield, htarget⟩
      · exact hclean.contains_or_isContainer hnamed hneeds hfields hfield htarget
  | .member _ _, _, _ => Sample.isNullFree_ofEnumLiteral _
  | .noMember body, hfind, hneeds => by
      have hmembers : index.enumMembers? declaration.name = some [] := by
        simp [Index.enumMembers?, hfind, body]
      exact absurd rfl (hclean.enumerations _ _ hneeds hmembers)
  | .alias _, _, _ => rfl
  | .namespace _, _, _ => rfl
termination_by structural h => h

end

end Conforms

/-! ## The whole -/

/-- Below a declared root that reaches no cycle and needs only what can be generated, whatever the
source, there is a sample without options, and `null` occurs nowhere in it. -/
theorem generate_isNullFree {σ : Type} [WordSource σ] (declarations : List Declaration)
    (root : String) (source : σ)
    (hcycle : (Index.ofList declarations).reachableCycle? root = none)
    (hdeclared : (Index.ofList declarations).contains root = true)
    (hclean : (Index.ofList declarations).Clean root) :
    ∃ sample next, generate (Index.ofList declarations) root .empty source = .ok (sample, next)
      ∧ sample.isNullFree = true := by
  have hnamed : (Index.ofList declarations).IsNamed := Index.isNamed_ofList declarations
  obtain ⟨declaration, hfind⟩ := Option.isSome_iff_exists.mp hdeclared
  have hname : declaration.name = root := hnamed root declaration hfind
  obtain ⟨⟨sample, next⟩, hresult⟩ := exists_declared hcycle hfind .empty source
  have hended := hresult _ (Nat.le_refl _)
  refine ⟨sample, next, ?_, ?_⟩
  · simp only [generate, generateWithin, hfind, hended]
  · have hconforms : ConformsDeclaration (Index.ofList declarations) 0 declaration sample :=
      declared_conforms _ _ .start declaration (by decide) source _ hended
    exact isNullFree_of_conformsDeclaration hclean hnamed hconforms (hname.symm ▸ hfind)
      (hname.symm ▸ .refl)

/-- A person with a spouse and with numbers under colors. -/
theorem generate_isNullFree_person :
    let declarations : List Declaration :=
      [⟨"Person", .interface [⟨"spouse", .named "Person", true⟩,
          ⟨"scores", .generic "Map" [.named "Color", .arrayOf (.primitive .number)], false⟩]⟩,
        ⟨"Color", .enumeration [⟨"Red", none⟩, ⟨"Green", none⟩]⟩]
    let index := Index.ofList declarations
    index.reachableCycle? "Person" = none ∧ index.contains "Person" = true ∧ index.Clean "Person"
      ∧ ∃ sample next, generate index "Person" .empty (WordCycle.ofList [1, 2, 3])
            = .ok (sample, next)
          ∧ sample.isNullFree = true := by
  intro declarations index
  have hperson : index.interfaceFields? "Person" = some [⟨"spouse", .named "Person", true⟩,
      ⟨"scores", .generic "Map" [.named "Color", .arrayOf (.primitive .number)], false⟩] := by rfl
  have hcolor : index.interfaceFields? "Color" = none := by rfl
  have hneeds : ∀ name, index.Needs "Person" name → name = "Person" ∨ name = "Color" := by
    refine Index.Needs.of_closed (.inl rfl) ?_
    rintro name fields (rfl | rfl) hfields field hfield target htarget
    · obtain rfl := Option.some.inj (hperson.symm.trans hfields)
      simp only [List.mem_cons, List.not_mem_nil, or_false] at hfield
      rcases hfield with rfl | rfl
      · exact .inl (by simpa [TypeRef.mentions] using htarget)
      · exact .inr (by simpa [TypeRef.mentions, TypeRef.argMentions] using htarget)
    · rw [hcolor] at hfields
      cases hfields
  have hdangling : index.referenceReport.dangling = [] := by cbv
  have hclean : index.Clean "Person" := by
    refine ⟨?_, ?_, by simp [hdangling]⟩
    · intro name fields hname hfields field hfield
      rcases hneeds name hname with rfl | rfl
      · obtain rfl := Option.some.inj (hperson.symm.trans hfields)
        simp only [List.mem_cons, List.not_mem_nil, or_false] at hfield
        rcases hfield with rfl | rfl <;> rfl
      · rw [hcolor] at hfields
        cases hfields
    · rintro name members hname hmembers rfl
      rcases hneeds name hname with rfl | rfl <;> cases hmembers
  have hcycle : index.reachableCycle? "Person" = none := by cbv
  have hdeclared : index.contains "Person" = true := by rfl
  exact ⟨hcycle, hdeclared, hclean,
    generate_isNullFree declarations "Person" _ hcycle hdeclared hclean⟩

end Generation

end Specimen
