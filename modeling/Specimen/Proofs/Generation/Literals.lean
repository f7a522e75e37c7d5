import Specimen.Proofs.Generation.Recurrence

/-!
# Literals at every depth

Options without bags go down unchanged, through containers and declarations alike. A sample that is
no object therefore has whatever property its parts have (`InheritedFromParts`), and an object has
under each name what the options fix for it, or else a value that was made with the same options. If
the options fix everything they mention, then every object that is found in a sample without going
into literals has their literals (`HoldsLiterals`). So have objects whose other fields are cut off,
since the guard is asked behind the options. Main statement: `generate_holdsLiterals`.
-/

namespace Specimen

/-- The options fix the fields of a name to a literal. -/
def Options.Fixes (options : Options) (name : String) (literal : Sample) : Prop :=
  ∃ rule, options.find? name = some (.rule rule) ∧ rule.override = some (.literal literal)

/-- All that the options say about names is literals, and these are true. -/
def Options.OnlyFixes (options : Options) : Prop :=
  ∀ name option, options.find? name = some option →
    ∃ literal, options.Fixes name literal ∧ literal.isTruthy = true

namespace Sample

/-- The part is found in a sample without going into fields that the options mention. -/
inductive Reaches (options : Options) (part : Sample) : Sample → Prop
  | here : Reaches options part part
  | item {items : List Sample} {item : Sample} (mem : item ∈ items)
      (inner : Reaches options part item) : Reaches options part (.array items)
  | field {fields : List (String × Sample)} {name : String} {value : Sample}
      (mem : (name, value) ∈ fields) (unnamed : options.find? name = none)
      (inner : Reaches options part value) : Reaches options part (.object fields)
  | key {entries : List (Sample × Sample)} {entry : Sample × Sample} (mem : entry ∈ entries)
      (inner : Reaches options part entry.1) : Reaches options part (.map entries)
  | value {entries : List (Sample × Sample)} {entry : Sample × Sample} (mem : entry ∈ entries)
      (inner : Reaches options part entry.2) : Reaches options part (.map entries)
  | member {members : List Sample} {member : Sample} (mem : member ∈ members)
      (inner : Reaches options part member) : Reaches options part (.set members)

/-- Every object in the sample has the literals of the options under their names. -/
def HoldsLiterals (options : Options) (sample : Sample) : Prop :=
  ∀ fields, Reaches options (.object fields) sample →
    ∀ name value literal, (name, value) ∈ fields → options.Fixes name literal → value = literal

/-- A property that all samples but objects have if their parts have it. -/
structure InheritedFromParts (P : Sample → Prop) : Prop where
  simple : ∀ sample, sample.isComposite = false → P sample
  array : ∀ items, (∀ item ∈ items, P item) → P (.array items)
  map : ∀ entries, (∀ entry ∈ entries, P entry.1 ∧ P entry.2) → P (.map entries)
  set : ∀ members, (∀ member ∈ members, P member) → P (.set members)

variable {options : Options}

theorem inheritedFromParts_holdsLiterals : InheritedFromParts (HoldsLiterals options) where
  simple sample hsimple fields hreaches := by
    cases hreaches <;> cases hsimple
  array items hitems fields hreaches := by
    cases hreaches with
    | item hmem hinner => exact hitems _ hmem fields hinner
  map entries hentries fields hreaches := by
    cases hreaches with
    | key hmem hinner => exact (hentries _ hmem).1 fields hinner
    | value hmem hinner => exact (hentries _ hmem).2 fields hinner
  set members hmembers fields hreaches := by
    cases hreaches with
    | member hmem hinner => exact hmembers _ hmem fields hinner

theorem holdsLiterals_object {fields : List (String × Sample)}
    (hfixed : ∀ name value literal, (name, value) ∈ fields → options.Fixes name literal →
      value = literal)
    (hothers : ∀ name value, (name, value) ∈ fields → options.find? name = none →
      value.HoldsLiterals options) : HoldsLiterals options (.object fields) := by
  intro part hreaches
  cases hreaches with
  | here => exact hfixed
  | field hmem hunnamed hinner => exact hothers _ _ hmem hunnamed part hinner

theorem isComposite_ofEnumLiteral (value : EnumLiteral) :
    (ofEnumLiteral value).isComposite = false := by
  rcases ofEnumLiteral_cases value with ⟨_, heq⟩ | ⟨_, heq⟩ | ⟨_, heq⟩ <;> rw [heq] <;> rfl

end Sample

namespace Generation

open Sample

variable {σ : Type} {index : Index} {P : Sample → Prop}

/-! ## Containers and types -/

/-- A container has a property that its arguments hand down. -/
theorem yields_container_of_parts (hparts : InheritedFromParts P)
    {actions : List (Attempt σ Sample)} (hactions : ∀ action ∈ actions, Yields action P)
    (name : String) (enumKeys : Option (List EnumMember)) (length : Nat) :
    Yields (container name enumKeys actions length) P := by
  have hargument : ∀ place : Nat, Yields (actions[place]?.getD (pure .null)) P := by
    intro place
    cases haction : actions[place]? with
    | none => exact .pure (hparts.simple .null rfl)
    | some action => exact hactions action (List.mem_of_getElem? haction)
  unfold container
  split
  · split
    · rename_i members
      have hempty : ([] : List (Sample × Sample)).map Prod.fst
          = distinct (([] : List EnumMember).map fun member => ofEnumLiteral member.resolved) := rfl
      refine (yields_enumEntries (hargument 1) hempty (by simp) members).map ?_
      rintro entries ⟨hkeys, hvalues⟩
      refine hparts.map entries fun entry hentry => ⟨hparts.simple _ ?_, hvalues entry hentry⟩
      have hkey := (collected_distinct _).fit _ (hkeys ▸ List.mem_map_of_mem hentry)
      obtain ⟨member, -, hmember⟩ := List.mem_map.mp hkey
      exact hmember ▸ isComposite_ofEnumLiteral member.resolved
    · refine (yields_mapEntries (hargument 0) (hargument 1) (.nil _) (by simp) length).map ?_
      rintro entries ⟨hkeys, hvalues⟩
      exact hparts.map entries fun entry hentry =>
        ⟨hkeys.fit _ (List.mem_map_of_mem hentry), hvalues entry hentry⟩
  · exact (yields_setMembers (hargument 0) (.nil _) length).map fun members hmembers =>
      hparts.set members hmembers.fit
  · exact ((hargument 0).gather length).map fun items hitems => hparts.array items hitems.2
  · exact .pure (hparts.simple .null rfl)

section Types

variable [WordSource σ] {enter : Enter σ} {options : Options} {guard : Guard}

mutual

/-- A sample of a type has a property that declarations have under the same options. -/
theorem yields_ofType_of_parts (hparts : InheritedFromParts P)
    (henter : ∀ guard declaration, Yields (enter options guard declaration) P) :
    (type : TypeRef) → Yields (ofType index enter options guard type) P
  | .primitive type => by
      unfold ofType
      split
      · exact .pure (hparts.simple .undefined rfl)
      · refine .draw ((Leaf.ofPrimitive_fits type).mono fun sample hfits => ?_)
        exact hparts.simple sample (by cases hfits <;> rfl)
  | .named name => by
      unfold ofType
      split
      · exact .pure (hparts.simple .undefined rfl)
      · split
        · exact henter _ _
        · exact yields_container_of_parts hparts (by simp) name none defaultLength
  | .generic name args => by
      unfold ofType
      split
      · exact .pure (hparts.simple .undefined rfl)
      · exact yields_container_of_parts hparts (yields_ofArgs_of_parts hparts henter args) name _ _
  | .arrayOf element => by
      unfold ofType
      split
      · exact .pure (hparts.simple .undefined rfl)
      · have helement := yields_ofType_of_parts hparts henter element
        exact (helement.gather _).map fun items hitems => hparts.array items hitems.2
  | .unsupported text => by
      unfold ofType
      split
      · exact .pure (hparts.simple .undefined rfl)
      · exact .pure (hparts.simple .null rfl)
termination_by structural type => type

theorem yields_ofArgs_of_parts (hparts : InheritedFromParts P)
    (henter : ∀ guard declaration, Yields (enter options guard declaration) P) :
    (args : List TypeRef) → ∀ action ∈ ofArgs index enter options guard args, Yields action P
  | [] => by simp [ofArgs]
  | arg :: args => by
      rw [ofArgs]
      exact List.forall_mem_cons.mpr
        ⟨yields_ofType_of_parts hparts henter arg, yields_ofArgs_of_parts hparts henter args⟩
termination_by structural args => args

end

/-! ## Declarations -/

/-- A field that the options mention has its literal, whatever was generated before. A field that
they do not mention is generated with the same options. -/
theorem holdsLiterals_fieldValue (honly : options.OnlyFixes)
    (henter : ∀ guard declaration, Yields (enter options guard declaration) (HoldsLiterals options))
    (field : Field) :
    Yields (fieldValue index enter options guard field) fun value =>
      (∀ literal, options.Fixes field.name literal → value = literal)
        ∧ (options.find? field.name = none → value.HoldsLiterals options) := by
  unfold fieldValue
  split
  · rename_i rule hrule
    obtain ⟨literal, ⟨rule', hrule', hliteral⟩, htrue⟩ := honly field.name _ hrule
    obtain rfl : rule = rule' := by simpa [hrule] using hrule'
    -- the literal is true, so it takes the place of whatever was generated
    have hany : Yields (ruleValue index enter rule field.type) fun _ => True :=
      fun _ _ _ => trivial
    refine hany.bind fun generated _ => .pure ⟨?_, by simp [hrule]⟩
    rintro literal' ⟨rule', hrule', hliteral'⟩
    obtain rfl : rule = rule' := by simpa [hrule] using hrule'
    obtain rfl : literal = literal' := by simpa [hliteral] using hliteral'
    simp [hliteral, Override.apply, htrue]
  · rename_i entries hnested
    obtain ⟨literal, ⟨rule, hrule, -⟩, -⟩ := honly field.name _ hnested
    simp [hnested] at hrule
  · rename_i hnone
    intro source result hresult
    refine ⟨?_, fun _ => ?_⟩
    · rintro literal ⟨rule, hrule, -⟩
      simp [hnone] at hrule
    · exact yields_ofType_of_parts inheritedFromParts_holdsLiterals henter field.type source result
        hresult

/-- Whatever the limit and the guard, every object in the sample of a declaration has the
literals. -/
theorem holdsLiterals_declared (honly : options.OnlyFixes) (limit : Nat) (guard : Guard)
    (declaration : Declaration) :
    Yields (declared (σ := σ) index limit options guard declaration) (HoldsLiterals options) := by
  have hempty : HoldsLiterals options (.object []) := holdsLiterals_object (by simp) (by simp)
  induction limit generalizing guard declaration with
  | zero =>
      intro source result hresult
      cases hresult
  | succ limit ih =>
      cases hbody : declaration.body with
      | interface fields =>
          refine yields_declared_interface hbody (fun field value =>
            (∀ literal, options.Fixes field.name literal → value = literal)
              ∧ (options.find? field.name = none → value.HoldsLiterals options)) ?_ ?_
          · intro below hbelow field _
            obtain rfl := Nat.succ_inj.mp hbelow
            exact holdsLiterals_fieldValue honly ih field
          · intro values hvalues
            have hnodup : (Entries.names values).Nodup := hvalues.names ▸ Index.nodup_eraseDups _
            have heach : ∀ name value, (name, value) ∈ values →
                (∀ literal, options.Fixes name literal → value = literal)
                  ∧ (options.find? name = none → value.HoldsLiterals options) := by
              intro name value hmem
              obtain ⟨field, -, rfl, hvalue⟩ :=
                hvalues.exists_field ((Entries.find?_eq_some_iff_mem hnodup).mpr hmem)
              exact hvalue
            exact holdsLiterals_object
              (fun name value literal hmem => (heach name value hmem).1 literal)
              (fun name value hmem => (heach name value hmem).2)
      | enumeration members =>
          simp only [declared, hbody]
          have hsimple : ∀ sample : Sample, sample.isComposite = false →
              sample.HoldsLiterals options := inheritedFromParts_holdsLiterals.simple
          exact .draw (enumValue_of_literals (hsimple .null rfl)
            (fun literal => hsimple _ (isComposite_ofEnumLiteral literal)) members)
      | «alias» target =>
          simp only [declared, hbody]
          exact .pure hempty
      | «namespace» =>
          simp only [declared, hbody]
          exact .pure hempty

end Types

/-! ## The whole -/

/-- Below a declared root that reaches no cycle, with options that fix everything they mention,
there is a sample, and every object in it has the literals of the options under their names. -/
theorem generate_holdsLiterals [WordSource σ] (declarations : List Declaration) (root : String)
    (declaration : Declaration) (options : Options) (source : σ)
    (hcycle : (Index.ofList declarations).reachableCycle? root = none)
    (hfind : (Index.ofList declarations).find? root = some declaration)
    (honly : options.OnlyFixes) :
    ∃ sample next, generate (Index.ofList declarations) root options source = .ok (sample, next)
      ∧ sample.HoldsLiterals options := by
  obtain ⟨⟨sample, next⟩, hresult⟩ := exists_declared hcycle hfind options source
  have hended := hresult _ (Nat.le_refl _)
  refine ⟨sample, next, ?_, ?_⟩
  · simp only [generate, generateWithin, hfind, hended]
  · exact holdsLiterals_declared honly _ .start declaration source _ hended

/-- A person with a spouse and with friends under the members of an enumeration, all of one name and
age. -/
theorem generate_holdsLiterals_person :
    let person : Declaration := ⟨"Person", .interface
      [⟨"name", .primitive .string, false⟩, ⟨"age", .primitive .number, false⟩,
        ⟨"spouse", .named "Person", true⟩,
        ⟨"friends", .generic "Map" [.named "Since", .arrayOf (.named "Person")], false⟩]⟩
    let since : Declaration := ⟨"Since", .enumeration [⟨"School", none⟩, ⟨"Work", none⟩]⟩
    let index := Index.ofList [person, since]
    let rule (kind : RuleKind) (literal : Sample) : FieldOption :=
      .rule ⟨kind, none, none, none, none, none, some (.literal literal)⟩
    let options : Options :=
      ⟨[("age", rule .integer (.int 30)), ("name", rule .string (.string "Ada"))]⟩
    index.reachableCycle? "Person" = none ∧ index.find? "Person" = some person ∧ options.OnlyFixes
      ∧ ∃ sample next, generate index "Person" options (WordCycle.ofList [1, 2, 3])
            = .ok (sample, next)
          ∧ sample.HoldsLiterals options := by
  intro person since index rule options
  have hcycle : index.reachableCycle? "Person" = none := by cbv
  have hfind : index.find? "Person" = some person := by rfl
  have honly : options.OnlyFixes := by
    intro name option hoption
    simp only [options, Options.find?, Entries.find?] at hoption
    split at hoption
    · rename_i hname
      subst hname
      exact ⟨.int 30, ⟨_, rfl, rfl⟩, rfl⟩
    · split at hoption
      · rename_i hname
        subst hname
        exact ⟨.string "Ada", ⟨_, rfl, rfl⟩, rfl⟩
      · cases hoption
  exact ⟨hcycle, hfind, honly,
    generate_holdsLiterals [person, since] "Person" person options _ hcycle
    hfind honly⟩

end Generation

end Specimen
