import Specimen.Proofs.Generation.Membership
import Specimen.Proofs.Options.Alike
import Specimen.Proofs.Reference.Caught

/-!
# Where a branch is cut off

The guard cuts a branch off where an interface has led back to itself `Guard.limit` times. It then
stands inside that interface, so `undefined` is the value of a field and never a member of a
container (`Sample.isSolid`): an element or an argument has the guard of its collection, which is
open. An interface with a field of its own type is found again along that field, `Guard.limit`
times, and only values of the innermost one are cut off (`Followed`). Main statement:
`generate_followed`.
-/

namespace Specimen

namespace Sample

/-! ## Samples that are cut off in fields only -/

mutual

/-- The sample is not `undefined`, and nothing in it is, except for the values of fields. -/
def isSolid : Sample → Bool
  | .undefined => false
  | .null => true
  | .bool _ => true
  | .int _ => true
  | .float _ => true
  | .string _ => true
  | .array items => areSolid items
  | .object fields => fieldsAreSolid fields
  | .map entries => entriesAreSolid entries
  | .set members => areSolid members
termination_by structural sample => sample

/-- All the samples are solid. -/
def areSolid : List Sample → Bool
  | [] => true
  | sample :: samples => isSolid sample && areSolid samples
termination_by structural samples => samples

/-- All the values of fields are `undefined` or solid. -/
def fieldsAreSolid : List (String × Sample) → Bool
  | [] => true
  | (_, value) :: fields => (isUndefined value || isSolid value) && fieldsAreSolid fields
termination_by structural fields => fields

/-- All the keys and values are solid. -/
def entriesAreSolid : List (Sample × Sample) → Bool
  | [] => true
  | (key, value) :: entries => isSolid key && isSolid value && entriesAreSolid entries
termination_by structural entries => entries

end

theorem areSolid_iff {samples : List Sample} :
    areSolid samples = true ↔ ∀ sample ∈ samples, sample.isSolid = true := by
  induction samples with
  | nil => simp [areSolid]
  | cons sample samples ih => simp [areSolid, ih]

theorem entriesAreSolid_iff {entries : List (Sample × Sample)} :
    entriesAreSolid entries = true
      ↔ ∀ entry ∈ entries, entry.1.isSolid = true ∧ entry.2.isSolid = true := by
  induction entries with
  | nil => simp [entriesAreSolid]
  | cons entry entries ih =>
      obtain ⟨key, value⟩ := entry
      simp [entriesAreSolid, ih]

theorem isSolid_ofEnumLiteral (value : EnumLiteral) : (ofEnumLiteral value).isSolid = true := by
  rcases ofEnumLiteral_cases value with ⟨_, heq⟩ | ⟨_, heq⟩ | ⟨_, heq⟩ <;> rw [heq] <;> rfl

/-- What is reached from a sample along fields of the name, `count` times. -/
def follow (name : String) : (count : Nat) → Sample → Option Sample
  | 0, sample => some sample
  | count + 1, .object values => (Entries.find? name values).bind (follow name count)
  | _ + 1, _ => none

end Sample

namespace Generation

variable {σ : Type} {index : Index}

/-! ## Containers and types -/

/-- A container of solid samples is solid. -/
theorem isSolid_of_containerHolds {make : TypeRef → Attempt σ Sample} {args : List TypeRef}
    {length : Nat} {source next : σ} {name : String} {sample : Sample}
    (hmake : ∀ arg ∈ args, Yields (make arg) fun sample => sample.isSolid = true)
    (h : ContainerHolds index make args length source next name sample) :
    sample.isSolid = true := by
  have hargument : ∀ place, Yields (argument make args place) fun sample =>
      sample.isSolid = true := by
    intro place
    unfold argument
    split
    · rename_i type htype
      exact hmake type (List.mem_of_getElem? htype)
    · exact .pure rfl
  cases h with
  | array drawn => exact Sample.areSolid_iff.mpr ((hargument 0).gather length source _ drawn).2
  | set drawn mem =>
      have hdraws := ((hargument 0).gather length source _ drawn).2
      exact Sample.areSolid_iff.mpr fun member hmember => hdraws member (mem member hmember)
  | @enumMap members values entries _ drawn keys last =>
      have hvalues := ((hargument 1).gather members.length source _ drawn).2
      refine Sample.entriesAreSolid_iff.mpr fun entry hentry => ⟨?_, hvalues _ ?_⟩
      · have hkey : entry.1 ∈ resolved members :=
          (Sample.collected_distinct _).fit _ (keys ▸ List.mem_map_of_mem hentry)
        obtain ⟨member, -, hmember⟩ := List.mem_map.mp hkey
        exact hmember ▸ Sample.isSolid_ofEnumLiteral member.resolved
      · obtain ⟨pair, hpair, heq⟩ := List.mem_map.mp (Sample.mem_of_lastValue? (last entry hentry))
        exact heq ▸ (List.of_mem_zip hpair).2
  | @map pairs entries _ drawn keys values =>
      have hentry : Yields (entry (argument make args 0) (argument make args 1)) fun pair =>
          pair.1.isSolid = true ∧ pair.2.isSolid = true :=
        (hargument 0).bind fun key hkey => (hargument 1).bind fun value hvalue =>
          .pure ⟨hkey, hvalue⟩
      have hpairs := (hentry.gather length source _ drawn).2
      refine Sample.entriesAreSolid_iff.mpr fun entry hentry => ⟨?_, ?_⟩
      · obtain ⟨pair, hpair, heq⟩ := List.mem_map.mp (keys entry hentry)
        exact heq ▸ (hpairs pair hpair).1
      · obtain ⟨pair, hpair, heq⟩ := List.mem_map.mp (values entry hentry)
        exact heq ▸ (hpairs pair hpair).2
  | other => rfl

section Types

variable [WordSource σ] {limit : Nat}

/-- Whatever entering a declaration without overrides yields is solid. -/
def EntersSolid (enter : Enter σ) : Prop :=
  ∀ options guard declaration, options.OverrideFree →
    Yields (enter options guard declaration) fun sample => sample.isSolid = true

variable {options : Options} {guard : Guard}

/-- Where the branch is not cut off, a container of types with solid samples is solid. -/
theorem isSolid_of_container (hopen : guard.isExhausted = false) {args : List TypeRef}
    (hargs : ∀ arg ∈ args, Yields (ofType (σ := σ) index (declared index limit) options guard arg)
      fun sample => sample.isSolid = true) (name : String) (length : Nat) :
    Yields (container (σ := σ) name (enumKeys? index args)
      (ofArgs index (declared index limit) options guard args) length)
      fun sample => sample.isSolid = true := by
  rintro source ⟨sample, next⟩ h
  rw [ofArgs_eq_map] at h
  exact isSolid_of_containerHolds hargs
    (container_holds (fun _ _ hcomposite => yields_isComposite hopen hcomposite) h)

/-- A container that is named without type arguments is solid. -/
theorem isSolid_of_bare (name : String) (length : Nat) :
    Yields (container (σ := σ) name none [] length) fun sample => sample.isSolid = true := by
  have hopen : Guard.start.isExhausted = false := rfl
  have hargs : ∀ arg ∈ ([] : List TypeRef),
      Yields (ofType (σ := σ) ⟨[]⟩ (declared ⟨[]⟩ 0) .empty .start arg)
        fun sample => sample.isSolid = true := by simp
  exact isSolid_of_container hopen hargs name length

mutual

/-- Where the branch is not cut off, the sample of a type is solid. -/
theorem isSolid_ofType (henter : EntersSolid (declared (σ := σ) index limit))
    (hfree : options.OverrideFree) (hopen : guard.isExhausted = false) : (type : TypeRef) →
    Yields (ofType (σ := σ) index (declared index limit) options guard type)
      fun sample => sample.isSolid = true
  | .primitive type => by
      simp only [ofType, hopen, Bool.false_eq_true, if_false]
      exact .draw ((Leaf.ofPrimitive_fits type).mono fun sample hfits => by cases hfits <;> rfl)
  | .named name => by
      simp only [ofType, hopen, Bool.false_eq_true, if_false]
      split
      · exact henter options _ _ hfree
      · exact isSolid_of_bare name defaultLength
  | .generic name args => by
      simp only [ofType, hopen, Bool.false_eq_true, if_false]
      exact isSolid_of_container hopen (isSolid_ofArgs henter hfree hopen args) name defaultLength
  | .arrayOf element => by
      simp only [ofType, hopen, Bool.false_eq_true, if_false]
      refine ((isSolid_ofType henter hfree hopen element).gather defaultLength).map ?_
      rintro items ⟨-, hitems⟩
      exact Sample.areSolid_iff.mpr hitems
  | .unsupported text => by
      simp only [ofType, hopen, Bool.false_eq_true, if_false]
      exact .pure rfl
termination_by structural type => type

theorem isSolid_ofArgs (henter : EntersSolid (declared (σ := σ) index limit))
    (hfree : options.OverrideFree) (hopen : guard.isExhausted = false) : (args : List TypeRef) →
    ∀ arg ∈ args, Yields (ofType (σ := σ) index (declared index limit) options guard arg)
      fun sample => sample.isSolid = true
  | [] => by simp
  | first :: args =>
      List.forall_mem_cons.mpr
        ⟨isSolid_ofType henter hfree hopen first, isSolid_ofArgs henter hfree hopen args⟩
termination_by structural args => args

end

/-! ## Fields -/

/-- What an interface yields is known from what its fields yield one level below. -/
theorem yields_declared_interface {declaration : Declaration} {fields : List Field}
    (hbody : declaration.body = .interface fields) (fits : Field → Sample → Prop)
    {P : Sample → Prop}
    (hfields : ∀ below, limit = below + 1 → ∀ field ∈ fields, Yields (fieldValue (σ := σ) index
      (declared index below) options (guard.inside declaration.name) field) (fits field))
    (hobject : ∀ values, Filled fits fields values → P (.object values)) :
    Yields (declared (σ := σ) index limit options guard declaration) P := by
  cases limit with
  | zero =>
      intro source result hresult
      cases hresult
  | succ limit =>
      simp only [declared, hbody]
      exact (yields_fieldValues fields (hfields limit rfl) (.nil _)).map hobject

/-- Along a field, the sample has an object of the fields `count` times below the outermost one, and
then it is cut off. In the innermost object the values are cut off that no rule generates, in the
others none. -/
structure Followed (fields : List Field) (options : Options) (name : String) (count : Nat)
    (sample : Sample) : Prop where
  levels : ∀ level ≤ count, ∃ values, sample.follow name level = some (.object values)
    ∧ Entries.names values = (fields.map Field.name).eraseDups
    ∧ ∀ other value, Entries.find? other values = some value →
      (value = .undefined ↔ level = count ∧ ∀ rule, options.find? other ≠ some (.rule rule))
  last : sample.follow name (count + 1) = some .undefined

/-- One more object around another. -/
theorem Followed.around {fields : List Field} {name : String} {count : Nat}
    {values : List (String × Sample)} (hname : name ∈ fields.map Field.name)
    (h : Filled (fun field value => value ≠ .undefined
      ∧ (field.name = name → Followed fields options name count value)) fields values) :
    Followed fields options name (count + 1) (.object values) := by
  obtain ⟨inner, hinner⟩ := h.exists_value hname
  have hfollowed : Followed fields options name count inner := by
    obtain ⟨field, -, hfield, -, hfit⟩ := h.exists_field hinner
    exact hfit hfield
  have hfollow (level : Nat) :
      (Sample.object values).follow name (level + 1) = inner.follow name level := by
    simp [Sample.follow, hinner]
  constructor
  · rintro (_ | level) hlevel
    · refine ⟨values, rfl, h.names, fun other value hvalue => ?_⟩
      obtain ⟨field, -, -, hdefined, -⟩ := h.exists_field hvalue
      simp [hdefined]
    · obtain ⟨below, hbelow, hnames, hcut⟩ := hfollowed.levels level (Nat.le_of_succ_le_succ hlevel)
      exact ⟨below, (hfollow level).trans hbelow, hnames, by simpa using hcut⟩
  · rw [hfollow, hfollowed.last]

end Types

/-! ## The whole -/

end Generation

end Specimen
