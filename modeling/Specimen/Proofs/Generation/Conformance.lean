import Specimen.Proofs.Generation.Leaf
import Specimen.Proofs.Generation.Nesting
import Specimen.Proofs.Sample.Collection

/-!
# Samples conform to their declarations

`Conforms`, `ConformsArg`, `ConformsContainer` and `ConformsDeclaration` say what a sample of a type
is, without options. They carry a level, which counts how often an interface has led directly back
to itself, and the pivot, the interface that the type is inside of.

Whatever an attempt yields conforms (`declared_conforms`, by induction on the limit of nesting), and
below a root that reaches no cycle there is a sample. Main statement: `generate_conforms`.
-/

namespace Specimen

/-- The field that gives the value under a name: the last one of the name. -/
def lastField? (fields : List Field) (name : String) : Option Field :=
  fields.reverse.find? fun field => field.name == name

theorem exists_lastField? {fields : List Field} {name : String}
    (h : name ∈ fields.map Field.name) :
    ∃ field ∈ fields, lastField? fields name = some field := by
  obtain ⟨field, hfield, rfl⟩ := List.mem_map.mp h
  have hsome : (lastField? fields field.name).isSome := by
    rw [lastField?, List.find?_isSome]
    exact ⟨field, List.mem_reverse.mpr hfield, by simp⟩
  obtain ⟨last, hlast⟩ := Option.isSome_iff_exists.mp hsome
  exact ⟨last, List.mem_reverse.mp (List.mem_of_find?_eq_some hlast), hlast⟩

namespace Generation

open Leaf

/-! ## Conformance -/

mutual

/-- The sample is of the type. -/
inductive Conforms (index : Index) : Nat → Option String → TypeRef → Sample → Prop
  | cutOff (pivot : Option String) (type : TypeRef) :
      Conforms index Guard.limit pivot type .undefined
  | primitive {level : Nat} {pivot : Option String} {type : Primitive} {sample : Sample}
      (below : level < Guard.limit) (fits : FitsPrimitive type sample) :
      Conforms index level pivot (.primitive type) sample
  | declared {level : Nat} {pivot : Option String} {name : String} {declaration : Declaration}
      {sample : Sample} (below : level < Guard.limit)
      (found : index.find? name = some declaration)
      (inner : ConformsDeclaration index (if pivot = some name then level + 1 else level)
        declaration sample) :
      Conforms index level pivot (.named name) sample
  | undeclared {level : Nat} {pivot : Option String} {name : String} {sample : Sample}
      (below : level < Guard.limit) (missing : index.find? name = none)
      (inner : ConformsContainer index level pivot name [] sample) :
      Conforms index level pivot (.named name) sample
  | generic {level : Nat} {pivot : Option String} {name : String} {args : List TypeRef}
      {sample : Sample} (below : level < Guard.limit)
      (inner : ConformsContainer index level pivot name args sample) :
      Conforms index level pivot (.generic name args) sample
  | arrayOf {level : Nat} {pivot : Option String} {element : TypeRef} {items : List Sample}
      (below : level < Guard.limit) (length : items.length = 10)
      (each : ∀ item ∈ items, Conforms index level pivot element item) :
      Conforms index level pivot (.arrayOf element) (.array items)
  | unsupported {level : Nat} {pivot : Option String} (below : level < Guard.limit)
      (text : String) :
      Conforms index level pivot (.unsupported text) .null

/-- The sample is of a type argument; one that is missing gives `null`. -/
inductive ConformsArg (index : Index) : Nat → Option String → Option TypeRef → Sample → Prop
  | given {level : Nat} {pivot : Option String} {type : TypeRef} {sample : Sample}
      (inner : Conforms index level pivot type sample) :
      ConformsArg index level pivot (some type) sample
  | missing (level : Nat) (pivot : Option String) : ConformsArg index level pivot none .null

/-- The sample is a container of its type arguments. Sets and the keys of maps keep only members
that are not the same scalar as an earlier one. Other generic types give `null`. -/
inductive ConformsContainer (index : Index) :
    Nat → Option String → String → List TypeRef → Sample → Prop
  | array {level : Nat} {pivot : Option String} {args : List TypeRef} {items : List Sample}
      (length : items.length = 10)
      (each : ∀ item ∈ items, ConformsArg index level pivot args[0]? item) :
      ConformsContainer index level pivot "Array" args (.array items)
  | set {level : Nat} {pivot : Option String} {args : List TypeRef} {members : List Sample}
      (nonempty : members ≠ []) (short : members.length ≤ 10)
      (apart : members.Pairwise fun earlier later => Sample.sameScalar earlier later = false)
      (each : ∀ member ∈ members, ConformsArg index level pivot args[0]? member) :
      ConformsContainer index level pivot "Set" args (.set members)
  | enumMap {level : Nat} {pivot : Option String} {name : String} {args : List TypeRef}
      {members : List EnumMember} {entries : List (Sample × Sample)}
      (enumeration : index.enumMembers? name = some members)
      (keys : entries.map Prod.fst
        = Sample.distinct (members.map fun member => Sample.ofEnumLiteral member.resolved))
      (values : ∀ entry ∈ entries, ConformsArg index level pivot args[0]? entry.2) :
      ConformsContainer index level pivot "Map" (.named name :: args) (.map entries)
  | map {level : Nat} {pivot : Option String} {args : List TypeRef}
      {entries : List (Sample × Sample)} (other : enumKeys? index args = none)
      (nonempty : entries ≠ []) (short : entries.length ≤ 10)
      (apart : (entries.map Prod.fst).Pairwise fun earlier later =>
        Sample.sameScalar earlier later = false)
      (keys : ∀ entry ∈ entries, ConformsArg index level pivot args[0]? entry.1)
      (values : ∀ entry ∈ entries, ConformsArg index level pivot args[1]? entry.2) :
      ConformsContainer index level pivot "Map" args (.map entries)
  | other {level : Nat} {pivot : Option String} {name : String} {args : List TypeRef}
      (unknown : isContainer name = false) :
      ConformsContainer index level pivot name args .null

/-- The sample is of the declaration. The fields of an interface are in order of first occurrence;
the last field of a name gives its type. -/
inductive ConformsDeclaration (index : Index) : Nat → Declaration → Sample → Prop
  | interface {level : Nat} {declaration : Declaration} {fields : List Field}
      {values : List (String × Sample)} (body : declaration.body = .interface fields)
      (names : Entries.names values = (fields.map Field.name).eraseDups)
      (each : ∀ name value field, Entries.find? name values = some value →
        lastField? fields name = some field →
        Conforms index level (some declaration.name) field.type value) :
      ConformsDeclaration index level declaration (.object values)
  | member {level : Nat} {declaration : Declaration} {members : List EnumMember}
      {member : EnumMember} (body : declaration.body = .enumeration members)
      (mem : member ∈ members) :
      ConformsDeclaration index level declaration (Sample.ofEnumLiteral member.resolved)
  | noMember {level : Nat} {declaration : Declaration} (body : declaration.body = .enumeration []) :
      ConformsDeclaration index level declaration .null
  | «alias» {level : Nat} {declaration : Declaration} {target : TypeRef}
      (body : declaration.body = .alias target) :
      ConformsDeclaration index level declaration (.object [])
  | «namespace» {level : Nat} {declaration : Declaration} (body : declaration.body = .namespace) :
      ConformsDeclaration index level declaration (.object [])

end

variable {σ α β : Type}

/-! ## What an attempt yields -/

/-- Whatever the attempt yields has the property. -/
def Yields (action : Attempt σ α) (P : α → Prop) : Prop :=
  ∀ source result, action source = some result → P result.1

namespace Yields

theorem pure {P : α → Prop} {value : α} (h : P value) :
    Yields (σ := σ) (Pure.pure value) P := by
  rintro source result hresult
  cases hresult
  exact h

theorem draw {draw : Draw σ α} {P : α → Prop} (h : draw.Ensures P) : Yields draw.attempt P := by
  rintro source result hresult
  cases hresult
  exact h source

theorem bind {action : Attempt σ α} {next : α → Attempt σ β} {P : α → Prop} {Q : β → Prop}
    (h : Yields action P) (hnext : ∀ value, P value → Yields (next value) Q) :
    Yields (action >>= next) Q := by
  intro source result hresult
  obtain ⟨⟨value, between⟩, hfirst, hsecond⟩ := Option.bind_eq_some_iff.mp hresult
  exact hnext value (h source _ hfirst) between result hsecond

theorem map {action : Attempt σ α} {f : α → β} {P : α → Prop} {Q : β → Prop}
    (h : Yields action P) (himp : ∀ value, P value → Q (f value)) : Yields (f <$> action) Q :=
  h.bind fun value hvalue => pure (himp value hvalue)

theorem gather {action : Attempt σ α} {P : α → Prop} (h : Yields action P) (count : Nat) :
    Yields (gather action count) fun values =>
      values.length = count ∧ ∀ value ∈ values, P value := by
  induction count with
  | zero => exact pure ⟨rfl, by simp⟩
  | succ count ih =>
      refine h.bind fun value hvalue => ih.bind fun others hothers => pure ?_
      obtain ⟨hlength, hall⟩ := hothers
      refine ⟨by simp [hlength], ?_⟩
      intro other hother
      rcases List.mem_cons.mp hother with rfl | hother
      · exact hvalue
      · exact hall other hother

end Yields

/-! ## Containers -/

section Containers

variable {key value : Attempt σ Sample} {keyFits valueFits : Sample → Prop}

theorem yields_mapEntries (hkey : Yields key keyFits) (hvalue : Yields value valueFits)
    {before : Nat} {entries : List (Sample × Sample)}
    (hkeys : Sample.Collected keyFits before (entries.map Prod.fst))
    (hvalues : ∀ entry ∈ entries, valueFits entry.2) (count : Nat) :
    Yields (mapEntries key value count entries) fun result =>
      Sample.Collected keyFits (before + count) (result.map Prod.fst)
        ∧ ∀ entry ∈ result, valueFits entry.2 := by
  induction count generalizing before entries with
  | zero => exact .pure ⟨hkeys, hvalues⟩
  | succ count ih =>
      refine hkey.bind fun newKey hnewKey => hvalue.bind fun newValue hnewValue => ?_
      have hkeys : Sample.Collected keyFits (before + 1)
          ((Sample.insertEntry newKey newValue entries).map Prod.fst) := by
        rw [Sample.keys_insertEntry]
        exact hkeys.insert hnewKey
      have hcount : before + (count + 1) = before + 1 + count := by omega
      rw [hcount]
      exact ih hkeys (Sample.values_insertEntry hnewValue hvalues)

theorem yields_enumEntries (hvalue : Yields value valueFits) {before : List EnumMember}
    {entries : List (Sample × Sample)}
    (hkeys : entries.map Prod.fst
      = Sample.distinct (before.map fun member => Sample.ofEnumLiteral member.resolved))
    (hvalues : ∀ entry ∈ entries, valueFits entry.2) (members : List EnumMember) :
    Yields (enumEntries value members entries) fun result =>
      result.map Prod.fst = Sample.distinct
          ((before ++ members).map fun member => Sample.ofEnumLiteral member.resolved)
        ∧ ∀ entry ∈ result, valueFits entry.2 := by
  induction members generalizing before entries with
  | nil => exact .pure ⟨by rw [List.append_nil, hkeys], hvalues⟩
  | cons member members ih =>
      refine hvalue.bind fun newValue hnewValue => ?_
      have hkeys : (Sample.insertEntry (Sample.ofEnumLiteral member.resolved) newValue
          entries).map Prod.fst = Sample.distinct
            ((before ++ [member]).map fun member => Sample.ofEnumLiteral member.resolved) := by
        rw [Sample.keys_insertEntry, hkeys, List.map_append, List.map_singleton,
          Sample.distinct_concat]
      rw [List.append_cons]
      exact ih hkeys (Sample.values_insertEntry hnewValue hvalues)

theorem yields_setMembers (hkey : Yields key keyFits) {before : Nat} {members : List Sample}
    (hmembers : Sample.Collected keyFits before members) (count : Nat) :
    Yields (setMembers key count members) (Sample.Collected keyFits (before + count)) := by
  induction count generalizing before members with
  | zero => exact .pure hmembers
  | succ count ih =>
      refine hkey.bind fun new hnew => ?_
      have hcount : before + (count + 1) = before + 1 + count := by omega
      rw [hcount]
      exact ih (hmembers.insert hnew)

variable {index : Index} {level : Nat} {pivot : Option String}

theorem yields_arg {actions : List (Attempt σ Sample)} {args : List TypeRef}
    (h : List.Forall₂ (fun action type => Yields action (Conforms index level pivot type))
      actions args) (place : Nat) :
    Yields (actions[place]?.getD (pure .null)) (ConformsArg index level pivot args[place]?) := by
  induction h generalizing place with
  | nil => exact .pure (.missing level pivot)
  | cons hfirst _ ih =>
      cases place with
      | zero =>
          intro source result hresult
          exact .given (hfirst source result hresult)
      | succ place => exact ih place

/-- A container of the default length conforms. -/
theorem yields_container {actions : List (Attempt σ Sample)} {args : List TypeRef}
    (h : List.Forall₂ (fun action type => Yields action (Conforms index level pivot type))
      actions args) (name : String) :
    Yields (container name (enumKeys? index args) actions defaultLength)
      (ConformsContainer index level pivot name args) := by
  have hfirst := yields_arg h 0
  have hsecond := yields_arg h 1
  unfold container
  split
  · split
    · rename_i members hkeys
      obtain ⟨name, rest, rfl, hmembers⟩ : ∃ name rest, args = .named name :: rest
          ∧ index.enumMembers? name = some members := by
        unfold enumKeys? at hkeys
        split at hkeys
        · exact ⟨_, _, rfl, hkeys⟩
        · cases hkeys
      have hempty : ([] : List (Sample × Sample)).map Prod.fst = Sample.distinct
          (([] : List EnumMember).map fun member => Sample.ofEnumLiteral member.resolved) := rfl
      refine (yields_enumEntries hsecond hempty (by simp) members).map ?_
      rintro entries ⟨hentries, hvalues⟩
      exact .enumMap hmembers hentries hvalues
    · rename_i hkeys
      refine (yields_mapEntries hfirst hsecond (.nil _) (by simp) defaultLength).map ?_
      rintro entries ⟨hentries, hvalues⟩
      refine .map hkeys ?_ ?_ hentries.apart ?_ hvalues
      · rintro rfl
        exact hentries.nonempty (by decide) rfl
      · simpa [defaultLength] using hentries.bounded
      · intro entry hentry
        exact hentries.fit _ (List.mem_map_of_mem hentry)
  · refine (yields_setMembers hfirst (.nil _) defaultLength).map ?_
    intro members hmembers
    exact .set (hmembers.nonempty (by decide)) (by simpa [defaultLength] using hmembers.bounded)
      hmembers.apart hmembers.fit
  · refine (hfirst.gather defaultLength).map ?_
    rintro items ⟨hlength, hitems⟩
    exact .array hlength hitems
  · rename_i hmap hset harray
    refine .pure (.other ?_)
    simp only [isContainer, builtinContainers, List.contains_eq_mem, List.mem_cons,
      List.not_mem_nil, or_false, decide_eq_false_iff_not, not_or]
    exact ⟨harray, hmap, hset⟩

end Containers

/-! ## Types and fields -/

section Types

variable {index : Index} {enter : Enter σ} {guard : Guard}

/-- Whatever entering a declaration without options yields conforms to it. -/
def EntersConforming (index : Index) (enter : Enter σ) : Prop :=
  ∀ guard declaration, guard.count ≤ Guard.limit →
    Yields (enter .empty guard declaration) (ConformsDeclaration index guard.count declaration)

theorem yields_cutOff (hguard : guard.count ≤ Guard.limit) (hcut : guard.isExhausted = true)
    (type : TypeRef) :
    Yields (σ := σ) (pure .undefined) (Conforms index guard.count guard.pivot type) := by
  have hcount : guard.count = Guard.limit := by
    simp only [Guard.isExhausted, decide_eq_true_eq] at hcut
    omega
  rw [hcount]
  exact .pure (.cutOff guard.pivot type)

theorem count_lt_of_not_isExhausted (hopen : ¬ guard.isExhausted = true) :
    guard.count < Guard.limit := by
  simp only [Guard.isExhausted, decide_eq_true_eq] at hopen
  omega

theorem count_descend_named (guard : Guard) (name : String) :
    (guard.descend (.named name)).count
      = if guard.pivot = some name then guard.count + 1 else guard.count := by
  simp only [Guard.descend]
  split <;> rfl

variable [WordSource σ]

mutual

theorem yields_ofType (henter : EntersConforming index enter) (hguard : guard.count ≤ Guard.limit) :
    (type : TypeRef) →
    Yields (ofType index enter .empty guard type) (Conforms index guard.count guard.pivot type)
  | .primitive type => by
      unfold ofType
      split
      · rename_i hcut
        exact yields_cutOff hguard hcut _
      · rename_i hopen
        refine .draw ((ofPrimitive_fits type).mono ?_)
        intro sample hsample
        exact .primitive (count_lt_of_not_isExhausted hopen) hsample
  | .named name => by
      unfold ofType
      split
      · rename_i hcut
        exact yields_cutOff hguard hcut _
      · rename_i hopen
        have hbelow := count_lt_of_not_isExhausted hopen
        split
        · rename_i declaration hfind
          have hcount := count_descend_named guard name
          have hinner := henter (guard.descend (.named name)) declaration
            (by rw [hcount]; split <;> omega)
          intro source result hresult
          exact .declared hbelow hfind (hcount ▸ hinner source result hresult)
        · rename_i hfind
          have hinner : Yields (σ := σ) (container name none [] defaultLength)
              (ConformsContainer index guard.count guard.pivot name []) :=
            yields_container .nil name
          intro source result hresult
          exact .undeclared hbelow hfind (hinner source result hresult)
  | .generic name args => by
      unfold ofType
      split
      · rename_i hcut
        exact yields_cutOff hguard hcut _
      · rename_i hopen
        intro source result hresult
        exact .generic (count_lt_of_not_isExhausted hopen)
          (yields_container (yields_ofArgs henter hguard args) name source result hresult)
  | .arrayOf element => by
      unfold ofType
      split
      · rename_i hcut
        exact yields_cutOff hguard hcut _
      · rename_i hopen
        refine ((yields_ofType henter hguard element).gather defaultLength).map ?_
        rintro items ⟨hlength, hitems⟩
        exact .arrayOf (count_lt_of_not_isExhausted hopen) hlength hitems
  | .unsupported text => by
      unfold ofType
      split
      · rename_i hcut
        exact yields_cutOff hguard hcut _
      · rename_i hopen
        exact .pure (.unsupported (count_lt_of_not_isExhausted hopen) text)
termination_by structural type => type

theorem yields_ofArgs (henter : EntersConforming index enter) (hguard : guard.count ≤ Guard.limit) :
    (args : List TypeRef) →
    List.Forall₂ (fun action type => Yields action (Conforms index guard.count guard.pivot type))
      (ofArgs index enter .empty guard args) args
  | [] => .nil
  | arg :: args => .cons (yields_ofType henter hguard arg) (yields_ofArgs henter hguard args)
termination_by structural args => args

end

/-- The values under the names of fields: each name once, in order of first occurrence, with a value
of its last field. -/
structure Filled (fits : Field → Sample → Prop) (fields : List Field)
    (values : List (String × Sample)) : Prop where
  names : Entries.names values = (fields.map Field.name).eraseDups
  each : ∀ name value field, Entries.find? name values = some value →
    lastField? fields name = some field → fits field value

theorem Filled.nil (fits : Field → Sample → Prop) : Filled fits [] [] := by
  constructor
  · rfl
  · intro name value field hfound
    cases hfound

/-- Every value is the value of one of the fields. -/
theorem Filled.exists_field {fits : Field → Sample → Prop} {fields : List Field}
    {values : List (String × Sample)} (h : Filled fits fields values) {name : String}
    {value : Sample} (hvalue : Entries.find? name values = some value) :
    ∃ field ∈ fields, field.name = name ∧ fits field value := by
  have hname : name ∈ fields.map Field.name := by
    rw [← List.mem_eraseDups, ← h.names, ← Entries.isSome_find?_iff, hvalue]
    rfl
  obtain ⟨field, hfield, hlast⟩ := exists_lastField? hname
  have hfound : fields.reverse.find? (·.name == name) = some field := hlast
  have hsame := List.find?_some hfound
  exact ⟨field, hfield, beq_iff_eq.mp hsame, h.each name value field hvalue hlast⟩

/-- Every name has a value. -/
theorem Filled.exists_value {fits : Field → Sample → Prop} {fields : List Field}
    {values : List (String × Sample)} (h : Filled fits fields values) {name : String}
    (hname : name ∈ fields.map Field.name) : ∃ value, Entries.find? name values = some value := by
  rw [← Option.isSome_iff_exists, Entries.isSome_find?_iff, h.names, List.mem_eraseDups]
  exact hname

theorem lastField?_concat (fields : List Field) (field : Field) (name : String) :
    lastField? (fields ++ [field]) name
      = if field.name = name then some field else lastField? fields name := by
  simp only [lastField?, List.reverse_append, List.reverse_singleton, List.singleton_append,
    List.find?_cons]
  by_cases hname : field.name = name
  · simp [hname]
  · simp [beq_eq_false_iff_ne.mpr hname, hname]

/-- Setting the value of one more field keeps the values filled. -/
theorem Filled.set {fits : Field → Sample → Prop} {fields : List Field} {field : Field}
    {values : List (String × Sample)} {value : Sample} (h : Filled fits fields values)
    (hvalue : fits field value) :
    Filled fits (fields ++ [field]) (Entries.set field.name value values) := by
  constructor
  · rw [List.map_append, List.map_singleton]
    exact Entries.names_set_of_eraseDups value h.names
  · intro name found last hfound hlast
    rw [Entries.find?_set] at hfound
    rw [lastField?_concat] at hlast
    split at hfound
    · rename_i hname
      rw [if_pos hname] at hlast
      cases hfound
      cases hlast
      exact hvalue
    · rename_i hname
      rw [if_neg hname] at hlast
      exact h.each name found last hfound hlast

theorem yields_fieldValues {fits : Field → Sample → Prop} {options : Options}
    (fields : List Field)
    (hfits : ∀ field ∈ fields, Yields (fieldValue index enter options guard field) (fits field))
    {before : List Field} {values : List (String × Sample)} (h : Filled fits before values) :
    Yields (fieldValues index enter options guard fields values)
      (Filled fits (before ++ fields)) := by
  induction fields generalizing before values with
  | nil =>
      rw [List.append_nil]
      exact .pure h
  | cons field fields ih =>
      refine (hfits field List.mem_cons_self).bind fun value hvalue => ?_
      rw [List.append_cons]
      refine ih ?_ (h.set hvalue)
      intro other hother
      exact hfits other (List.mem_cons_of_mem _ hother)

end Types

/-! ## Declarations -/

theorem enumValue_conforms [WordSource σ] {index : Index} {level : Nat} {declaration : Declaration}
    {members : List EnumMember} (hbody : declaration.body = .enumeration members) :
    Draw.Ensures (σ := σ) (enumValue members) (ConformsDeclaration index level declaration) := by
  unfold enumValue
  split
  · exact .pure (.noMember hbody)
  · rename_i first rest
    refine (Draw.any _).bind fun place _ => .pure (.member hbody ?_)
    cases hplace : (first :: rest)[place]? with
    | none => exact List.mem_cons_self
    | some member => exact List.mem_of_getElem? hplace

/-- Whatever the limit, what generation without options yields conforms. -/
theorem declared_conforms [WordSource σ] (index : Index) (limit : Nat) :
    EntersConforming index (declared (σ := σ) index limit) := by
  induction limit with
  | zero =>
      intro guard declaration _ source result hresult
      cases hresult
  | succ limit ih =>
      intro guard declaration hguard
      cases hbody : declaration.body with
      | interface fields =>
          simp only [declared, hbody]
          have hfields : ∀ field ∈ fields, Yields
              (fieldValue index (declared (σ := σ) index limit) .empty
                (guard.inside declaration.name) field)
              (Conforms index guard.count (some declaration.name) field.type) := by
            intro field _
            rw [fieldValue_empty]
            have hinside : (guard.inside declaration.name).count ≤ Guard.limit := hguard
            exact yields_ofType ih hinside field.type
          refine (yields_fieldValues fields hfields (.nil _)).map ?_
          intro values hvalues
          exact .interface hbody hvalues.names hvalues.each
      | enumeration members =>
          simp only [declared, hbody]
          exact .draw (enumValue_conforms hbody)
      | «alias» target =>
          simp only [declared, hbody]
          exact .pure (.alias hbody)
      | «namespace» =>
          simp only [declared, hbody]
          exact .pure (.namespace hbody)

/-! ## The whole -/

/-- Below a declared root that reaches no cycle, whatever the source, there is a sample without
options, and it conforms to the root. -/
theorem generate_conforms [WordSource σ] (declarations : List Declaration) (root : String)
    (declaration : Declaration) (source : σ)
    (hcycle : (Index.ofList declarations).reachableCycle? root = none)
    (hfind : (Index.ofList declarations).find? root = some declaration) :
    ∃ sample next,
      generate (Index.ofList declarations) root .empty source = .ok (sample, next)
        ∧ ConformsDeclaration (Index.ofList declarations) 0 declaration sample := by
  obtain ⟨⟨sample, next⟩, hresult⟩ := exists_declared hcycle hfind .empty source
  have hdeclared := hresult _ (Nat.le_refl _)
  refine ⟨sample, next, ?_, ?_⟩
  · simp only [generate, generateWithin, hfind, hdeclared]
  · exact declared_conforms _ _ .start declaration (by decide) source _ hdeclared

/-- A person with a spouse and with colors. -/
theorem generate_conforms_person :
    let person : Declaration :=
      ⟨"Person", .interface [⟨"name", .primitive .string, false⟩,
          ⟨"spouse", .named "Person", true⟩, ⟨"colors", .generic "Set" [.named "Color"], false⟩]⟩
    let color : Declaration := ⟨"Color", .enumeration [⟨"Red", none⟩, ⟨"Green", none⟩]⟩
    let index := Index.ofList [person, color]
    index.reachableCycle? "Person" = none ∧ index.find? "Person" = some person
      ∧ ∃ sample next, generate index "Person" .empty (WordCycle.ofList [1, 2, 3])
            = .ok (sample, next)
          ∧ ConformsDeclaration index 0 person sample := by
  intro person color index
  have hcycle : index.reachableCycle? "Person" = none := by cbv
  have hfind : index.find? "Person" = some person := by rfl
  exact ⟨hcycle, hfind, generate_conforms [person, color] "Person" person _ hcycle hfind⟩

end Generation

end Specimen
