import Specimen.Proofs.Generation.Conformance
import Specimen.Proofs.Sample.Insertion

/-!
# What arrays and containers hold

A container is made by a loop that draws and inserts in turns. It holds what one gets by drawing
everything first and then inserting it (`setMembers_eq`, `mapEntries_eq`, `enumEntries_eq`), so
its members are known from the draws. `ContainerHolds` and `CollectionHolds` say what is known
about them, for a container of the default length and for one that a rule asks for. Main
statement: `collectionHolds`.
-/

namespace Specimen

namespace TypeRef

/-- The type stands for arrays, objects, maps or sets. -/
def isComposite (index : Index) : TypeRef → Bool
  | .arrayOf _ => true
  | .generic name _ => isContainer name
  | .named name =>
      match index.find? name with
      | some _ => (index.enumMembers? name).isNone
      | none => isContainer name
  | _ => false

/-- An array, a generic type or a container that is named without type arguments. -/
def isCollection : TypeRef → Bool
  | .arrayOf _ => true
  | .generic _ _ => true
  | .named name => isContainer name
  | _ => false

end TypeRef

namespace Generation

variable {σ α β : Type}

/-! ## Draws before insertions -/

theorem exists_of_map_attempt {action : Attempt σ α} {f : α → β} {source next : σ} {y : β}
    (h : (f <$> action) source = some (y, next)) :
    ∃ x, action source = some (x, next) ∧ f x = y := by
  obtain ⟨⟨x, between⟩, haction, hpure⟩ := Option.bind_eq_some_iff.mp h
  cases hpure
  exact ⟨x, haction, rfl⟩

/-- The members of a set are drawn first and added then. -/
theorem setMembers_eq (member : Attempt σ Sample) (count : Nat) (members : List Sample) :
    setMembers member count members
      = (fun draws => draws.foldl (fun members draw => Sample.insertMember draw members) members)
        <$> gather member count := by
  induction count generalizing members with
  | zero => simp [setMembers, gather]
  | succ count ih => simp [setMembers, gather, ih]

/-- A key and a value, in this order. -/
def entry (key value : Attempt σ Sample) : Attempt σ (Sample × Sample) := do
  let newKey ← key
  let newValue ← value
  return (newKey, newValue)

/-- The entries of a map are drawn first and put in then. -/
theorem mapEntries_eq (key value : Attempt σ Sample) (count : Nat)
    (entries : List (Sample × Sample)) :
    mapEntries key value count entries
      = (fun pairs => pairs.foldl
          (fun entries pair => Sample.insertEntry pair.1 pair.2 entries) entries)
        <$> gather (entry key value) count := by
  induction count generalizing entries with
  | zero => simp [mapEntries, gather]
  | succ count ih => simp [mapEntries, gather, entry, ih]

/-- The values of the members of an enumeration. -/
def resolved (members : List EnumMember) : List Sample :=
  members.map fun member => Sample.ofEnumLiteral member.resolved

/-- The values under the members of an enumeration are drawn first and put in then. -/
theorem enumEntries_eq (value : Attempt σ Sample) (members : List EnumMember)
    (entries : List (Sample × Sample)) :
    enumEntries value members entries
      = (fun values => ((resolved members).zip values).foldl
          (fun entries pair => Sample.insertEntry pair.1 pair.2 entries) entries)
        <$> gather value members.length := by
  induction members generalizing entries with
  | nil => simp [enumEntries, gather]
  | cons member members ih => simp [enumEntries, gather, resolved, ih]

/-- There are as many draws as were asked for. -/
theorem length_of_gather {action : Attempt σ α} {count : Nat} {source next : σ} {values : List α}
    (h : gather action count source = some (values, next)) : values.length = count := by
  have hany : Yields action fun _ => True := fun _ _ _ => trivial
  exact (hany.gather count source _ h).1

/-- The value of an enumeration is `null` or the sample of a literal. -/
theorem enumValue_of_literals [WordSource σ] {P : Sample → Prop} (hnull : P .null)
    (hliteral : ∀ literal, P (Sample.ofEnumLiteral literal)) (members : List EnumMember) :
    Draw.Ensures (σ := σ) (enumValue members) P := by
  unfold enumValue
  split
  · exact .pure hnull
  · exact (Draw.any _).bind fun place _ => .pure (hliteral _)

/-! ## Containers -/

/-- The samples of the type argument at a place; one that is missing gives `null`. -/
def argument (make : TypeRef → Attempt σ Sample) (args : List TypeRef) (place : Nat) :
    Attempt σ Sample :=
  match args[place]? with
  | some type => make type
  | none => pure .null

theorem getD_map_eq_argument (make : TypeRef → Attempt σ Sample) (args : List TypeRef)
    (place : Nat) : (args.map make)[place]?.getD (pure .null) = argument make args place := by
  unfold argument
  rw [List.getElem?_map]
  cases args[place]? <;> rfl

theorem ofArgs_eq_map [WordSource σ] (index : Index) (enter : Enter σ) (options : Options)
    (guard : Guard) (args : List TypeRef) :
    ofArgs index enter options guard args = args.map (ofType index enter options guard) := by
  induction args with
  | nil => rfl
  | cons arg args ih => rw [ofArgs, ih, List.map_cons]

/-- What a container holds that was asked for `length` insertions, the samples of types being made
by `make`. -/
inductive ContainerHolds (index : Index) (make : TypeRef → Attempt σ Sample)
    (args : List TypeRef) (length : Nat) (source next : σ) : String → Sample → Prop
  /-- An array holds all that was drawn. -/
  | array {items : List Sample}
      (drawn : gather (argument make args 0) length source = some (items, next))
      (count : items.length = length) :
      ContainerHolds index make args length source next "Array" (.array items)
  /-- A set holds what was drawn, without what is the same as an earlier member. -/
  | set {draws members : List Sample}
      (drawn : gather (argument make args 0) length source = some (draws, next))
      (mem : ∀ member ∈ members, member ∈ draws)
      (short : members.length ≤ length) (nonempty : 0 < length → members ≠ [])
      (apart : members.Pairwise fun earlier later => Sample.sameScalar earlier later = false)
      (all : ((∀ draw ∈ draws, draw.isComposite = true)
          ∨ ∃ type, args[0]? = some type ∧ type.isComposite index = true) →
        members.length = length) :
      ContainerHolds index make args length source next "Set" (.set members)
  /-- A map under the members of an enumeration holds the last value drawn for each of them,
  whatever the number of insertions. -/
  | enumMap {members : List EnumMember} {values : List Sample} {entries : List (Sample × Sample)}
      (enumeration : enumKeys? index args = some members)
      (drawn : gather (argument make args 1) members.length source = some (values, next))
      (keys : entries.map Prod.fst = Sample.distinct (resolved members))
      (last : ∀ entry ∈ entries,
        Sample.lastValue? entry.1 ((resolved members).zip values) = some entry.2) :
      ContainerHolds index make args length source next "Map" (.map entries)
  /-- Any other map holds keys and values that were drawn. -/
  | map {pairs entries : List (Sample × Sample)} (other : enumKeys? index args = none)
      (drawn : gather (entry (argument make args 0) (argument make args 1)) length source
        = some (pairs, next))
      (keys : ∀ entry ∈ entries, entry.1 ∈ pairs.map Prod.fst)
      (values : ∀ entry ∈ entries, entry.2 ∈ pairs.map Prod.snd)
      (short : entries.length ≤ length) (nonempty : 0 < length → entries ≠ [])
      (apart : (entries.map Prod.fst).Pairwise fun earlier later =>
        Sample.sameScalar earlier later = false) :
      ContainerHolds index make args length source next "Map" (.map entries)
  /-- Nothing is drawn for other generic types. -/
  | other {name : String} (unknown : isContainer name = false) (undrawn : next = source) :
      ContainerHolds index make args length source next name .null

section Containers

variable {index : Index} {make : TypeRef → Attempt σ Sample} {args : List TypeRef} {length : Nat}
  {source next : σ} {name : String} {sample : Sample}

theorem container_set
    (hmake : ∀ type ∈ args, type.isComposite index = true →
      Yields (make type) fun sample => sample.isComposite = true)
    (h : (Sample.set <$> setMembers (argument make args 0) length []) source
      = some (sample, next)) :
    ContainerHolds index make args length source next "Set" sample := by
  obtain ⟨members, hmembers, rfl⟩ := exists_of_map_attempt h
  rw [setMembers_eq] at hmembers
  obtain ⟨draws, hdraws, rfl⟩ := exists_of_map_attempt hmembers
  have hlength := length_of_gather hdraws
  have hcollected := Sample.collected_distinct draws
  rw [Sample.foldl_insertMember]
  refine .set hdraws hcollected.fit (hlength ▸ hcollected.bounded)
    (fun hpos => hcollected.nonempty (hlength ▸ hpos)) hcollected.apart fun hall => ?_
  have hcomposite : ∀ draw ∈ draws, draw.isComposite = true := by
    rcases hall with hall | ⟨type, htype, hcomposite⟩
    · exact hall
    · have hyields := (hmake type (List.mem_of_getElem? htype) hcomposite).gather length
      have hargument : argument make args 0 = make type := by rw [argument, htype]
      exact (hyields source _ (hargument ▸ hdraws)).2
  rw [Sample.distinct_of_isComposite hcomposite, hlength]

theorem container_enumMap {members : List EnumMember} (hkeys : enumKeys? index args = some members)
    (h : (Sample.map <$> enumEntries (argument make args 1) members []) source
      = some (sample, next)) :
    ContainerHolds index make args length source next "Map" sample := by
  obtain ⟨entries, hentries, rfl⟩ := exists_of_map_attempt h
  rw [enumEntries_eq] at hentries
  obtain ⟨values, hvalues, rfl⟩ := exists_of_map_attempt hentries
  have hlength : values.length = members.length := length_of_gather hvalues
  have hfst : ((resolved members).zip values).map Prod.fst = resolved members := by
    rw [List.map_fst_zip]
    simp [resolved, hlength]
  refine .enumMap hkeys hvalues ?_ (Sample.lastValue?_ofPairs ?_)
  · exact (Sample.keys_ofPairs _).trans (congrArg Sample.distinct hfst)
  · intro pair hpair
    obtain ⟨member, -, hmember⟩ := List.mem_map.mp (List.of_mem_zip hpair).1
    exact hmember ▸ Sample.isExactScalar_ofEnumLiteral member.resolved

theorem container_map (hkeys : enumKeys? index args = none)
    (h : (Sample.map <$> mapEntries (argument make args 0) (argument make args 1) length []) source
      = some (sample, next)) :
    ContainerHolds index make args length source next "Map" sample := by
  obtain ⟨entries, hentries, rfl⟩ := exists_of_map_attempt h
  rw [mapEntries_eq] at hentries
  obtain ⟨pairs, hpairs, rfl⟩ := exists_of_map_attempt hentries
  have hlength := length_of_gather hpairs
  have hcollected := Sample.collected_distinct (pairs.map Prod.fst)
  rw [← Sample.keys_ofPairs, List.length_map, hlength] at hcollected
  refine .map hkeys hpairs ?_ (Sample.mem_values_of_mem_ofPairs pairs) ?_ ?_ hcollected.apart
  · intro entry hentry
    exact hcollected.fit entry.1 (List.mem_map_of_mem hentry)
  · exact List.length_map (f := Prod.fst) ▸ hcollected.bounded
  · intro hpos hnil
    exact hcollected.nonempty hpos (congrArg (List.map Prod.fst) hnil)

theorem container_holds
    (hmake : ∀ type ∈ args, type.isComposite index = true →
      Yields (make type) fun sample => sample.isComposite = true)
    (h : container name (enumKeys? index args) (args.map make) length source
      = some (sample, next)) :
    ContainerHolds index make args length source next name sample := by
  simp only [container, getD_map_eq_argument] at h
  split at h
  · cases hkeys : enumKeys? index args with
    | some members => exact container_enumMap hkeys (by simpa only [hkeys] using h)
    | none => exact container_map hkeys (by simpa only [hkeys] using h)
  · exact container_set hmake h
  · obtain ⟨items, hitems, rfl⟩ := exists_of_map_attempt h
    exact .array hitems (length_of_gather hitems)
  · rename_i hmap hset harray
    cases h
    refine .other ?_ rfl
    simp only [isContainer, builtinContainers, List.contains_eq_mem, List.mem_cons,
      List.not_mem_nil, or_false, decide_eq_false_iff_not, not_or]
    exact ⟨harray, hmap, hset⟩

/-- Containers are composite. -/
theorem isComposite_of_container {enumKeys : Option (List EnumMember)}
    {actions : List (Attempt σ Sample)} (hname : isContainer name = true)
    (h : container name enumKeys actions length source = some (sample, next)) :
    sample.isComposite = true := by
  simp only [container] at h
  split at h
  · cases enumKeys with
    | some members =>
        obtain ⟨entries, -, rfl⟩ := exists_of_map_attempt h
        rfl
    | none =>
        obtain ⟨entries, -, rfl⟩ := exists_of_map_attempt h
        rfl
  · obtain ⟨members, -, rfl⟩ := exists_of_map_attempt h
    rfl
  · obtain ⟨items, -, rfl⟩ := exists_of_map_attempt h
    rfl
  · simp_all [isContainer, builtinContainers]

end Containers

/-! ## Types -/

section Types

variable [WordSource σ] {index : Index} {limit : Nat} {options : Options} {guard : Guard}

/-- Declarations that are no enumerations give objects. -/
theorem yields_isComposite_declared {name : String} {declaration : Declaration}
    (hfind : index.find? name = some declaration) (hother : index.enumMembers? name = none) :
    Yields (declared (σ := σ) index limit options guard declaration)
      fun sample => sample.isComposite = true := by
  rintro source ⟨sample, next⟩ h
  cases limit with
  | zero => cases h
  | succ limit =>
      cases hbody : declaration.body with
      | interface fields =>
          simp only [declared, hbody] at h
          obtain ⟨values, -, rfl⟩ := exists_of_map_attempt h
          rfl
      | enumeration members =>
          simp [Index.enumMembers?, hfind, hbody] at hother
      | «alias» target =>
          simp only [declared, hbody] at h
          cases h
          rfl
      | «namespace» =>
          simp only [declared, hbody] at h
          cases h
          rfl

/-- Where the branch is not cut off, a composite type has composite samples. -/
theorem yields_isComposite (hopen : guard.isExhausted = false) {type : TypeRef}
    (hcomposite : type.isComposite index = true) :
    Yields (ofType (σ := σ) index (declared index limit) options guard type)
      fun sample => sample.isComposite = true := by
  rintro source ⟨sample, next⟩ h
  cases type with
  | primitive type => cases hcomposite
  | unsupported text => cases hcomposite
  | arrayOf element =>
      simp only [ofType, hopen, Bool.false_eq_true, if_false] at h
      obtain ⟨items, -, rfl⟩ := exists_of_map_attempt h
      rfl
  | generic name args =>
      simp only [ofType, hopen, Bool.false_eq_true, if_false] at h
      exact isComposite_of_container hcomposite h
  | named name =>
      simp only [ofType, hopen, Bool.false_eq_true, if_false] at h
      simp only [TypeRef.isComposite] at hcomposite
      cases hfind : index.find? name with
      | some declaration =>
          simp only [hfind, Option.isNone_iff_eq_none] at h hcomposite
          exact yields_isComposite_declared hfind hcomposite source _ h
      | none =>
          simp only [hfind] at h hcomposite
          exact isComposite_of_container hcomposite h

end Types

/-- What a sample of an array or a container holds, or of another type for which a rule asks for an
array. -/
inductive CollectionHolds (index : Index) (make : TypeRef → Attempt σ Sample) (length : Nat)
    (source next : σ) : TypeRef → Sample → Prop
  | arrayOf {element : TypeRef} {items : List Sample}
      (drawn : gather (make element) length source = some (items, next))
      (count : items.length = length) :
      CollectionHolds index make length source next (.arrayOf element) (.array items)
  | generic {name : String} {args : List TypeRef} {sample : Sample}
      (inner : ContainerHolds index make args length source next name sample) :
      CollectionHolds index make length source next (.generic name args) sample
  /-- A container that is named without type arguments. -/
  | bare {name : String} {sample : Sample} (known : isContainer name = true)
      (inner : ContainerHolds index make [] length source next name sample) :
      CollectionHolds index make length source next (.named name) sample
  /-- Nothing is drawn for a type that is neither an array nor generic. -/
  | other {type : TypeRef} (scalar : type.isCollection = false) (undrawn : next = source) :
      CollectionHolds index make length source next type
        (.array (List.replicate length .null))

/-- Whatever the options, what a run makes of an array or a container that no declaration shadows
holds what is promised for the default length; what a rule makes that asks for an array holds what
is promised for the length of the rule, without options and with a fresh guard. -/
theorem collectionHolds [WordSource σ] (index : Index) (limit : Nat) (source : σ) :
    (∀ options guard type sample next, guard.isExhausted = false → type.isCollection = true →
      (∀ name, type = .named name → index.find? name = none) →
      ofType index (declared index limit) options guard type source = some (sample, next) →
      CollectionHolds index (ofType index (declared index limit) options guard) defaultLength
        source next type sample)
    ∧ ∀ (rule : FieldRule) type sample next, rule.kind = .array →
      ruleValue index (declared index limit) rule type source = some (sample, next) →
      CollectionHolds index (ofType index (declared index limit) .empty .start)
        (rule.length.getD defaultLength) source next type sample := by
  constructor
  · intro options guard type sample next hopen hcollection hundeclared h
    have hmake : ∀ args : List TypeRef, ∀ arg ∈ args, arg.isComposite index = true →
        Yields (ofType (σ := σ) index (declared index limit) options guard arg)
          fun sample => sample.isComposite = true :=
      fun _ _ _ hcomposite => yields_isComposite hopen hcomposite
    cases type with
    | primitive type => cases hcollection
    | unsupported text => cases hcollection
    | arrayOf element =>
        simp only [ofType, hopen, Bool.false_eq_true, if_false] at h
        obtain ⟨items, hitems, rfl⟩ := exists_of_map_attempt h
        exact .arrayOf hitems (length_of_gather hitems)
    | generic name args =>
        simp only [ofType, hopen, Bool.false_eq_true, if_false, ofArgs_eq_map] at h
        exact .generic (container_holds (hmake args) h)
    | named name =>
        simp only [ofType, hopen, Bool.false_eq_true, if_false, hundeclared name rfl] at h
        exact .bare hcollection (container_holds (hmake []) h)
  · intro rule type sample next hkind h
    have hmake : ∀ args : List TypeRef, ∀ arg ∈ args, arg.isComposite index = true →
        Yields (ofType (σ := σ) index (declared index limit) .empty .start arg)
          fun sample => sample.isComposite = true :=
      fun _ _ _ hcomposite => yields_isComposite rfl hcomposite
    simp only [ruleValue, hkind] at h
    cases type with
    | primitive type =>
        cases h
        exact .other rfl rfl
    | unsupported text =>
        cases h
        exact .other rfl rfl
    | arrayOf element =>
        simp only [ruleArray] at h
        obtain ⟨items, hitems, rfl⟩ := exists_of_map_attempt h
        exact .arrayOf hitems (length_of_gather hitems)
    | generic name args =>
        simp only [ruleArray, ofArgs_eq_map] at h
        exact .generic (container_holds (hmake args) h)
    | named name =>
        simp only [ruleArray] at h
        split at h
        · rename_i hname
          exact .bare hname (container_holds (hmake []) h)
        · rename_i hname
          cases h
          exact .other (Bool.eq_false_iff.mpr hname) rfl

/-- A set of booleans, and a map under colors for which a rule asks for a single insertion. -/
theorem collectionHolds_colors :
    let color : Declaration := ⟨"Color", .enumeration [⟨"Red", none⟩, ⟨"Green", none⟩]⟩
    let index := Index.ofList [color]
    let enter : Enter WordCycle := declared index 1
    let flags : TypeRef := .generic "Set" [.primitive .boolean]
    let votes : TypeRef := .generic "Map" [.named "Color", .primitive .boolean]
    let rule : FieldRule := ⟨.array, none, none, none, none, some 1, none⟩
    let source := WordCycle.ofList [1, 9223372036854775808]
    (∃ next,
        ofType index enter .empty .start flags source
          = some (.set [.bool true, .bool false], next)
        ∧ CollectionHolds index (ofType index enter .empty .start) 10 source next flags
          (.set [.bool true, .bool false]))
      ∧ ∃ next,
        ruleValue index enter rule votes source
          = some (.map [(.string "Red", .bool true), (.string "Green", .bool false)], next)
        ∧ CollectionHolds index (ofType index enter .empty .start) 1 source next votes
          (.map [(.string "Red", .bool true), (.string "Green", .bool false)]) := by
  intro color index enter flags votes rule source
  obtain ⟨next, hflags⟩ : ∃ next, ofType index enter .empty .start flags source
      = some (.set [.bool true, .bool false], next) := ⟨_, rfl⟩
  obtain ⟨next', hvotes⟩ : ∃ next, ruleValue index enter rule votes source
      = some (.map [(.string "Red", .bool true), (.string "Green", .bool false)], next) := ⟨_, rfl⟩
  refine ⟨⟨next, hflags, ?_⟩, next', hvotes, ?_⟩
  · exact (collectionHolds index 1 source).1 .empty .start flags _ next rfl rfl
      (fun name hname => TypeRef.noConfusion hname) hflags
  · exact (collectionHolds index 1 source).2 rule votes _ next' rfl hvotes

end Generation

end Specimen
