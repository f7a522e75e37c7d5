import Specimen.Proofs.Generation.Membership
import Specimen.Proofs.Sample.KeyText

/-!
# Maps under an enumeration as JSON

A map whose keys are the members of an enumeration has a value for every member, and none of them
is missing (`isUndefined_ofType`). If the members are told apart as keys, flattening the map keeps
one entry for each member exactly where their names are different: `FlattensUnder`. Two members
with one name are in `toJson_of_equal_texts`. Main statement: `flattensUnder_members`.
-/

namespace Specimen.Generation

open Sample

variable {σ : Type} {index : Index} {limit : Nat} {options : Options} {guard : Guard}

/-! ## Maps -/

/-- Members that are told apart have one entry each, in order. -/
theorem exists_of_enumEntries {value : Attempt σ Sample} {members : List EnumMember}
    {source next : σ} {sample : Sample}
    (hapart : (resolved members).Pairwise fun earlier later => sameScalar earlier later = false)
    (h : (Sample.map <$> enumEntries value members []) source = some (sample, next)) :
    ∃ pairs, pairs.map Prod.fst = resolved members
      ∧ gather value members.length source = some (pairs.map Prod.snd, next)
      ∧ sample = .map pairs := by
  obtain ⟨entries, hentries, rfl⟩ := exists_of_map_attempt h
  rw [enumEntries_eq] at hentries
  obtain ⟨values, hvalues, rfl⟩ := exists_of_map_attempt hentries
  have hlength : values.length = (resolved members).length := by
    rw [length_of_gather hvalues, resolved, List.length_map]
  have hfst : ((resolved members).zip values).map Prod.fst = resolved members :=
    List.map_fst_zip (Nat.le_of_eq hlength.symm)
  have hsnd : ((resolved members).zip values).map Prod.snd = values :=
    List.map_snd_zip (Nat.le_of_eq hlength)
  refine ⟨(resolved members).zip values, hfst, hsnd.symm ▸ hvalues, ?_⟩
  exact congrArg Sample.map (ofPairs_of_apart (hfst.symm ▸ hapart))

/-- The sample is a map with an entry for every member, in order, under values that `make` draws.
Flattening it keeps all entries, or loses some, as the members have different names or not. -/
structure FlattensUnder (members : List EnumMember) (make : Attempt σ Sample) (source next : σ)
    (sample : Sample) (pairs : List (Sample × Sample)) (entries : List (String × Json)) : Prop where
  keys : pairs.map Prod.fst = resolved members
  drawn : gather make members.length source = some (pairs.map Prod.snd, next)
  map : sample = .map pairs
  object : sample.toJson = .object entries
  kept : TextsApart (resolved members) → Flattened pairs entries
  lost : ¬TextsApart (resolved members) → entries.length < members.length

/-- The map that is made with the given action. -/
theorem exists_flattensUnder {make : Attempt σ Sample} {members : List EnumMember}
    {source next : σ} {sample : Sample}
    (hdefined : Yields make fun sample => sample.isUndefined = false)
    (hapart : (resolved members).Pairwise fun earlier later => sameScalar earlier later = false)
    (h : (Sample.map <$> enumEntries make members []) source = some (sample, next)) :
    ∃ pairs entries, FlattensUnder members make source next sample pairs entries := by
  obtain ⟨pairs, hkeys, hdrawn, rfl⟩ := exists_of_enumEntries hapart h
  have hvalues : ∀ pair ∈ pairs, pair.2.isUndefined = false := fun pair hpair =>
    (hdefined.gather _ source _ hdrawn).2 pair.2 (List.mem_map_of_mem hpair)
  have hnames : pairs.map (fun pair => keyText pair.1) = (resolved members).map keyText := by
    rw [← hkeys, List.map_map]
    rfl
  have hmembers : ∀ key ∈ resolved members, key.IsTextOrNumber := by
    intro key hkey
    obtain ⟨member, -, rfl⟩ := List.mem_map.mp hkey
    exact isTextOrNumber_ofEnumLiteral member.resolved
  have hlength : pairs.length = members.length := by
    simpa [resolved] using congrArg List.length hkeys
  have hiff := nodup_keyText_iff hmembers hapart
  obtain ⟨entries, hobject, hkept, hlost⟩ := exists_toJson_map hvalues
  rw [hnames, hiff] at hkept hlost
  exact ⟨pairs, entries, hkeys, hdrawn, rfl, hobject, hkept, hlength ▸ hlost⟩

/-! ## Values that are there -/

theorem isUndefined_ofEnumLiteral (value : EnumLiteral) :
    (ofEnumLiteral value).isUndefined = false := by
  rcases ofEnumLiteral_cases value with ⟨_, heq⟩ | ⟨_, heq⟩ | ⟨_, heq⟩ <;> rw [heq] <;> rfl

/-- No container is `undefined`. -/
theorem isUndefined_container (name : String) (enumKeys : Option (List EnumMember))
    (actions : List (Attempt σ Sample)) (length : Nat) :
    Yields (container name enumKeys actions length) fun sample => sample.isUndefined = false := by
  rintro source ⟨sample, next⟩ h
  cases hname : isContainer name with
  | true =>
      have hcomposite := isComposite_of_container hname h
      dsimp only at hcomposite ⊢
      cases sample <;> first | rfl | cases hcomposite
  | false =>
      have hother : container name enumKeys actions length = pure .null := by
        simp only [container]
        split <;> first | rfl | simp [isContainer, builtinContainers] at hname
      rw [hother] at h
      cases h
      rfl

variable [WordSource σ]

theorem isUndefined_declared (declaration : Declaration) :
    Yields (declared (σ := σ) index limit options guard declaration)
      fun sample => sample.isUndefined = false := by
  rintro source ⟨sample, next⟩ h
  cases limit with
  | zero => cases h
  | succ limit =>
      cases hbody : declaration.body with
      | interface fields =>
          simp only [declared, hbody] at h
          obtain ⟨values, -, rfl⟩ := exists_of_map_attempt h
          rfl
      | enumeration members =>
          simp only [declared, hbody] at h
          have hvalue : Draw.Ensures (σ := σ) (enumValue members) fun sample =>
              sample.isUndefined = false :=
                enumValue_of_literals (by rfl) isUndefined_ofEnumLiteral _
          exact (Yields.draw hvalue) source _ h
      | «alias» target =>
          simp only [declared, hbody] at h
          cases h
          rfl
      | «namespace» =>
          simp only [declared, hbody] at h
          cases h
          rfl

/-- Where the branch is not cut off, a sample of a type is there. -/
theorem isUndefined_ofType (hopen : guard.isExhausted = false) (type : TypeRef) :
    Yields (ofType (σ := σ) index (declared index limit) options guard type)
      fun sample => sample.isUndefined = false := by
  cases type with
  | primitive type =>
      simp only [ofType, hopen, Bool.false_eq_true, if_false]
      exact .draw ((Leaf.ofPrimitive_fits type).mono fun sample hfits => by cases hfits <;> rfl)
  | named name =>
      simp only [ofType, hopen, Bool.false_eq_true, if_false]
      split
      · exact isUndefined_declared _
      · exact isUndefined_container _ _ _ _
  | generic name args =>
      simp only [ofType, hopen, Bool.false_eq_true, if_false]
      exact isUndefined_container _ _ _ _
  | arrayOf element =>
      simp only [ofType, hopen, Bool.false_eq_true, if_false]
      intro source result h
      obtain ⟨items, -, heq⟩ := exists_of_map_attempt h
      exact heq ▸ rfl
  | unsupported text =>
      simp only [ofType, hopen, Bool.false_eq_true, if_false]
      exact .pure rfl

/-- The generated map under the members of an enumeration that are told apart as keys, by default or
where a rule asks for it. -/
theorem flattensUnder_members (index : Index) (limit : Nat) (enumeration : String)
    (members : List EnumMember) (type : TypeRef) (source : σ)
    (hmembers : index.enumMembers? enumeration = some members)
    (hapart : (resolved members).Pairwise fun earlier later => sameScalar earlier later = false) :
    (∀ options guard sample next, guard.isExhausted = false →
      ofType index (declared index limit) options guard (.generic "Map" [.named enumeration, type])
        source = some (sample, next) →
      ∃ pairs entries, FlattensUnder members
        (ofType index (declared index limit) options guard type) source next sample pairs entries)
    ∧ ∀ (rule : FieldRule) sample next, rule.kind = .array →
      ruleValue index (declared index limit) rule (.generic "Map" [.named enumeration, type])
        source = some (sample, next) →
      ∃ pairs entries, FlattensUnder members
        (ofType index (declared index limit) .empty .start type)
        source next sample pairs entries := by
  constructor
  · intro options guard sample next hopen h
    simp only [ofType, hopen, Bool.false_eq_true, if_false, container, enumKeys?, hmembers] at h
    exact exists_flattensUnder (isUndefined_ofType hopen type) hapart h
  · intro rule sample next hkind h
    simp only [ruleValue, hkind, ruleArray, container, enumKeys?, hmembers] at h
    exact exists_flattensUnder (isUndefined_ofType rfl type) hapart h

/-- A text, an integer and another number. -/
theorem flattensUnder_members_sizes :
    let members : List EnumMember := [⟨"Half", some (.number (Float.ofBits 0x3FE0000000000000))⟩,
      ⟨"One", some (.number (Float.ofBits 0x3FF0000000000000))⟩, ⟨"Two", none⟩]
    let index := Index.ofList [⟨"Size", .enumeration members⟩]
    let enter : Enter WordCycle := declared index 1
    let stock : TypeRef := .generic "Map" [.named "Size", .primitive .boolean]
    let rule : FieldRule := ⟨.array, none, none, none, none, some 1, none⟩
    let source := WordCycle.ofList [1, 9223372036854775808]
    let sample : Sample := .map [(.float (Float.ofBits 0x3FE0000000000000), .bool true),
      (.int 1, .bool false), (.string "Two", .bool true)]
    index.enumMembers? "Size" = some members
      ∧ ((resolved members).Pairwise fun earlier later => sameScalar earlier later = false)
      ∧ (∃ next, ofType index enter .empty .start stock source = some (sample, next)
        ∧ ∃ pairs entries, FlattensUnder members
          (ofType index enter .empty .start (.primitive .boolean)) source next sample pairs entries)
      ∧ ∃ next, ruleValue index enter rule stock source = some (sample, next)
        ∧ ∃ pairs entries, FlattensUnder members
          (ofType index enter .empty .start (.primitive .boolean)) source next sample pairs
            entries := by
  intro members index enter stock rule source sample
  have hmembers : index.enumMembers? "Size" = some members := rfl
  have hapart : (resolved members).Pairwise fun earlier later =>
      sameScalar earlier later = false := by decide
  obtain ⟨next, hstock⟩ : ∃ next, ofType index enter .empty .start stock source
      = some (sample, next) := ⟨_, rfl⟩
  obtain ⟨next', hrule⟩ : ∃ next, ruleValue index enter rule stock source
      = some (sample, next) := ⟨_, rfl⟩
  refine ⟨hmembers, hapart, ⟨next, hstock, ?_⟩, next', hrule, ?_⟩
  · exact (flattensUnder_members index 1 "Size" members (.primitive .boolean) source hmembers
      hapart).1 .empty .start sample next rfl hstock
  · exact (flattensUnder_members index 1 "Size" members (.primitive .boolean) source hmembers
      hapart).2 rule sample next' rfl hrule

/-- A text that is the JSON text of another member takes its place. -/
theorem toJson_of_equal_texts :
    let members : List EnumMember := [⟨"A", some (.string "1")⟩,
      ⟨"B", some (.number (Float.ofBits 0x3FF0000000000000))⟩]
    let index := Index.ofList [⟨"E", .enumeration members⟩]
    let pairs : List (Sample × Sample) := [(.string "1", .bool true), (.int 1, .bool false)]
    index.enumMembers? "E" = some members
      ∧ ((resolved members).Pairwise fun earlier later => sameScalar earlier later = false)
      ∧ (∃ next, ofType index (declared index 1) .empty .start
          (.generic "Map" [.named "E", .primitive .boolean])
          (WordCycle.ofList [1, 9223372036854775808]) = some (.map pairs, next))
      ∧ (Sample.map pairs).toJson = .object [("1", .bool false)]
      ∧ ¬Flattened pairs [("1", .bool false)] := by
  intro members index pairs
  refine ⟨rfl, by decide, ⟨_, rfl⟩, rfl, fun h => ?_⟩
  exact absurd h.names.length_eq (by decide)

end Specimen.Generation
