import Specimen.Generation.Basic
import Specimen.Proofs.Json.Order
import Specimen.Proofs.Options.Rule

/-!
# The format of options

Which JSON trees are options: `IsOptions`. Below a bag every entry is a rule or a bag, and the key
`type` tells which of the two. What is read from options has their fields in their order, with bags
for bags and rules for rules (`AreOptionsOf`). Where a tree is refused, a trail of names leads to an
entry that offends (`RootOffence`), and no other such trail comes before it, as one goes through the
tree from its front to its end (`Earlier`). Main statement: `ofJson_spec`.
-/

namespace Specimen.Options

open FieldRule

/-! ## Formats -/

/-- The tree is what may stand under the name of a field: a rule or a bag. -/
inductive IsOption : Json → Prop
  | rule {entries : List (String × Json)} (typed : "type" ∈ Entries.names entries)
      (each : ∀ entry ∈ entries, IsParameter entry.1 entry.2) : IsOption (.object entries)
  | bag {entries : List (String × Json)} (untyped : "type" ∉ Entries.names entries)
      (each : ∀ entry ∈ entries, IsOption entry.2) : IsOption (.object entries)

/-- The tree is an object of options, whatever the names of its fields. -/
def IsOptions (json : Json) : Prop :=
  ∃ entries, json = .object entries ∧ ∀ entry ∈ entries, IsOption entry.2

mutual

/-- The option says what the tree says. -/
inductive IsOptionOf : Json → FieldOption → Prop
  | rule {entries : List (String × Json)} {rule : FieldRule}
      (typed : "type" ∈ Entries.names entries) (given : IsRuleOf entries rule) :
      IsOptionOf (.object entries) (.rule rule)
  | bag {entries : List (String × Json)} {options : List (String × FieldOption)}
      (untyped : "type" ∉ Entries.names entries) (inner : AreOptionsOf entries options) :
      IsOptionOf (.object entries) (.nested options)

/-- The options are those of the entries, name by name. -/
inductive AreOptionsOf : List (String × Json) → List (String × FieldOption) → Prop
  | nil : AreOptionsOf [] []
  | cons {name : String} {value : Json} {option : FieldOption} {entries : List (String × Json)}
      {options : List (String × FieldOption)} (head : IsOptionOf value option)
      (tail : AreOptionsOf entries options) :
      AreOptionsOf ((name, value) :: entries) ((name, option) :: options)

end

/-- The trail leads from the value of a field to a value that is no option, for the cause: it is no
object, or has a type and is no rule (`FieldRule.exists_offends_iff`). -/
inductive Offence : List String → Json → OptionsCause → Prop
  | notObject {value : Json} (h : value.object? = none) : Offence [] value .notObject
  | rule {entries : List (String × Json)} {cause : OptionsCause}
      (typed : "type" ∈ Entries.names entries) (offends : Offends entries cause) :
      Offence [] (.object entries) cause
  | inBag {entries : List (String × Json)} {name : String} {value : Json} {trail : List String}
      {cause : OptionsCause} (untyped : "type" ∉ Entries.names entries)
      (mem : (name, value) ∈ entries) (inner : Offence trail value cause) :
      Offence (name :: trail) (.object entries) cause

/-- The trail leads to a value that is no option, from one of the entries. -/
inductive EntryOffence (entries : List (String × Json)) : List String → OptionsCause → Prop
  | intro {name : String} {value : Json} {trail : List String} {cause : OptionsCause}
      (mem : (name, value) ∈ entries) (inner : Offence trail value cause) :
      EntryOffence entries (name :: trail) cause

/-- The trail leads from the root to a value that is no option, or the root is no object. -/
inductive RootOffence : Json → List String → OptionsCause → Prop
  | notObject {json : Json} (h : json.object? = none) : RootOffence json [] .notObject
  | entry {entries : List (String × Json)} {trail : List String} {cause : OptionsCause}
      (h : EntryOffence entries trail cause) : RootOffence (.object entries) trail cause

/-- The order in which the places of a tree are met: from above, and by name. -/
def Earlier : List String → List String → Prop :=
  List.Lex fun first second => namePrecedes first second = true

/-- The path of a trail that starts from a path. -/
def pathText (path : String) (trail : List String) : String :=
  trail.foldl (fun path name => path ++ "." ++ name) path

/-- What reading comes to: an accepted value, or the fault of the first trail that leads to one. -/
inductive Outcome {α : Type} (accepts : α → Prop) (offence : List String → OptionsCause → Prop)
    (path : String) : Except OptionsFault α → Prop
  | accepted {value : α} (h : accepts value) : Outcome accepts offence path (.ok value)
  | refused {trail : List String} {cause : OptionsCause} (h : offence trail cause)
      (first : ∀ other cause', offence other cause' → other = trail ∨ Earlier trail other) :
      Outcome accepts offence path (.error ⟨pathText path trail, cause⟩)

/-- Nothing offends in an option. -/
theorem IsOption.not_offence {value : Json} {trail : List String} {cause : OptionsCause}
    (hoption : IsOption value) : ¬Offence trail value cause := by
  intro h
  induction h with
  | notObject h => cases hoption <;> cases h
  | rule typed offends =>
      cases hoption with
      | rule _ each => exact offends.not_each each
      | bag untyped _ => exact untyped typed
  | inBag untyped mem _ ih =>
      cases hoption with
      | rule typed _ => exact untyped typed
      | bag _ each => exact ih (each _ mem)

/-! ## One entry -/

/-- The option of the value of a field. -/
def optionOfJson (path : String) : Json → Except OptionsFault FieldOption
  | .object entries =>
      if (Entries.find? "type" entries).isSome then (ofObject path entries).map .rule
      else (entriesOfJson path entries).map .nested
  | _ => .error ⟨path, .notObject⟩

theorem entriesOfJson_cons (path name : String) (value : Json) (rest : List (String × Json)) :
    entriesOfJson path ((name, value) :: rest) = (do
      let option ← optionOfJson (path ++ "." ++ name) value
      let others ← entriesOfJson path rest
      return (name, option) :: others) := by
  cases value <;> simp only [entriesOfJson, optionOfJson]
  case object entries => split <;> rfl
  all_goals rfl

/-- What reading the value of a field comes to. -/
abbrev OptionOutcome (path : String) (value : Json) : Except OptionsFault FieldOption → Prop :=
  Outcome (fun option => IsOption value ∧ IsOptionOf value option)
    (fun trail cause => Offence trail value cause) path

/-- What reading entries comes to. -/
abbrev EntriesOutcome (path : String) (entries : List (String × Json)) :
    Except OptionsFault (List (String × FieldOption)) → Prop :=
  Outcome (fun options => (∀ entry ∈ entries, IsOption entry.2) ∧ AreOptionsOf entries options)
    (EntryOffence entries) path

theorem outcome_notObject {path : String} {value : Json} (h : value.object? = none) :
    OptionOutcome path value (optionOfJson path value) := by
  have hread : optionOfJson path value = .error ⟨pathText path [], .notObject⟩ := by
    cases value <;> first | rfl | cases h
  rw [hread]
  refine .refused (.notObject h) fun other cause hother => ?_
  cases hother with
  | notObject => exact .inl rfl
  | rule | inBag => cases h

theorem outcome_rule {path : String} {entries : List (String × Json)}
    (htyped : "type" ∈ Entries.names entries) (hnodup : (Entries.names entries).Nodup) :
    OptionOutcome path (.object entries) (optionOfJson path (.object entries)) := by
  have hread := readAs_ofObject path htyped hnodup
  simp only [optionOfJson, Entries.isSome_find?_iff.mpr htyped, if_true]
  generalize ofObject path entries = result at hread
  cases hread with
  | accepted each given => exact .accepted ⟨.rule htyped each, .rule htyped given⟩
  | @refused cause offends =>
      show OptionOutcome path (.object entries) (.error ⟨pathText path [], cause⟩)
      refine .refused (.rule htyped offends) fun other cause hother => ?_
      cases hother with
      | notObject h => cases h
      | rule => exact .inl rfl
      | inBag untyped => exact absurd htyped untyped

theorem outcome_bag {path : String} {entries : List (String × Json)}
    (huntyped : "type" ∉ Entries.names entries)
    (h : EntriesOutcome path entries (entriesOfJson path entries)) :
    OptionOutcome path (.object entries) (optionOfJson path (.object entries)) := by
  rw [optionOfJson, if_neg (Entries.isSome_find?_iff.not.mpr huntyped)]
  generalize entriesOfJson path entries = result at h
  cases h with
  | accepted h => exact .accepted ⟨.bag huntyped h.1, .bag huntyped h.2⟩
  | refused h first =>
      obtain ⟨mem, inner⟩ := h
      refine .refused (.inBag huntyped mem inner) fun other cause hother => ?_
      cases hother with
      | notObject h => cases h
      | rule typed => exact absurd typed huntyped
      | inBag _ mem inner => exact first _ _ (EntryOffence.intro mem inner)

/-! ## All entries -/

/-- One entry before others whose names come after it. The others count if it is an option. -/
theorem outcome_cons {path name : String} {value : Json} {rest : List (String × Json)}
    (hlater : ∀ entry ∈ rest, namePrecedes name entry.1 = true)
    (hhead : OptionOutcome (path ++ "." ++ name) value (optionOfJson (path ++ "." ++ name) value))
    (htail : IsOption value → EntriesOutcome path rest (entriesOfJson path rest)) :
    EntriesOutcome path ((name, value) :: rest) (entriesOfJson path ((name, value) :: rest)) := by
  rw [entriesOfJson_cons]
  generalize optionOfJson (path ++ "." ++ name) value = head at hhead
  cases hhead with
  | @refused trail cause h first =>
      show EntriesOutcome path _ (.error ⟨pathText path (name :: trail), cause⟩)
      refine .refused (.intro List.mem_cons_self h) fun other cause' hother => ?_
      obtain ⟨mem, inner⟩ := hother
      rcases List.mem_cons.mp mem with heq | mem
      · cases heq
        rcases first _ _ inner with rfl | hearlier
        · exact .inl rfl
        · exact .inr (.cons hearlier)
      · -- whatever is wrong further on stands under a later name
        exact .inr (.rel (hlater _ mem))
  | accepted h =>
      obtain ⟨hoption, hof⟩ := h
      replace htail := htail hoption
      generalize entriesOfJson path rest = tail at htail
      cases htail with
      | accepted h => exact .accepted ⟨List.forall_mem_cons.mpr ⟨hoption, h.1⟩, .cons hof h.2⟩
      | refused h first =>
          obtain ⟨mem, inner⟩ := h
          refine .refused (.intro (List.mem_cons_of_mem _ mem) inner) fun other cause' hother => ?_
          obtain ⟨mem, inner⟩ := hother
          rcases List.mem_cons.mp mem with heq | mem
          · cases heq
            exact absurd inner hoption.not_offence
          · exact first _ _ (EntryOffence.intro mem inner)

/-- Whatever the path, entries in order are read if they are options, and else refused for the first
that is none. -/
theorem outcome_entries (path : String) (entries : List (String × Json))
    (hordered : (Json.object entries).Ordered) :
    EntriesOutcome path entries (entriesOfJson path entries) := by
  induction path, entries using entriesOfJson.induct with
  | case1 path =>
      rw [entriesOfJson]
      exact .accepted ⟨by simp, .nil⟩
  | case2 path name entries rest htyped ih =>
      obtain ⟨hentries, hlater, hrest⟩ := Json.ordered_cons hordered
      have hnodup := (Json.ordered_object_iff.mp hentries).1.nodup
      exact outcome_cons hlater (outcome_rule (Entries.isSome_find?_iff.mp htyped) hnodup)
        fun _ => ih hrest
  | case3 path name entries rest inner huntyped ih ih' =>
      obtain ⟨hentries, hlater, hrest⟩ := Json.ordered_cons hordered
      have huntyped := Entries.isSome_find?_iff.not.mp huntyped
      exact outcome_cons hlater (outcome_bag huntyped (ih' hentries)) fun _ => ih hrest
  | case4 path name value rest hother =>
      obtain ⟨-, hlater, -⟩ := Json.ordered_cons hordered
      have hvalue : value.object? = none := by
        cases value with
        | object entries => exact absurd rfl (hother entries)
        | _ => rfl
      -- the others are not looked at, so nothing is known about them
      exact outcome_cons hlater (outcome_notObject hvalue) fun hoption =>
        absurd (.notObject hvalue) hoption.not_offence

/-! ## The whole -/

/-- The options say what the tree says. -/
def AreOptionsOfTree (json : Json) (options : Options) : Prop :=
  ∃ entries, json = .object entries ∧ AreOptionsOf entries options.entries

/-- What reading a tree in order comes to. -/
theorem outcome_ofJson (json : Json) (hordered : json.Ordered) :
    Outcome (fun options => IsOptions json ∧ AreOptionsOfTree json options) (RootOffence json)
      "options" (ofJson json) := by
  cases hobject : json.object? with
  | none =>
      have hread : ofJson json = .error ⟨pathText "options" [], .notObject⟩ := by
        cases json <;> first | rfl | cases hobject
      rw [hread]
      refine .refused (.notObject hobject) fun other cause hother => ?_
      cases hother with
      | notObject => exact .inl rfl
      | entry => cases hobject
  | some entries =>
      obtain rfl : json = .object entries := by
        cases json <;> cases hobject
        rfl
      have hentries := outcome_entries "options" entries hordered
      rw [ofJson]
      generalize entriesOfJson "options" entries = result at hentries
      cases hentries with
      | accepted h => exact .accepted ⟨⟨entries, rfl, h.1⟩, entries, rfl, h.2⟩
      | refused h first =>
          refine .refused (.entry h) fun other cause hother => ?_
          cases hother with
          | notObject h => cases h
          | entry h => exact first _ _ h

theorem IsOptions.not_rootOffence {json : Json} {trail : List String} {cause : OptionsCause}
    (h : IsOptions json) : ¬RootOffence json trail cause := by
  obtain ⟨entries, rfl, heach⟩ := h
  intro hoffence
  cases hoffence with
  | notObject h => cases h
  | entry h =>
      obtain ⟨mem, inner⟩ := h
      exact (heach _ mem).not_offence inner

/-- Exactly the trees that are options are read. What is read says what the tree says. The fault of
any other tree names the trail to its first entry that offends, and what is wrong there. Every tree
that is read from a text is in order: `Json.of_readWithin?`. -/
theorem ofJson_spec (json : Json) (hordered : json.Ordered) :
    ((∃ options, ofJson json = .ok options) ↔ IsOptions json)
      ∧ (∀ options, ofJson json = .ok options → AreOptionsOfTree json options)
      ∧ ∀ fault, ofJson json = .error fault →
        ∃ trail, RootOffence json trail fault.cause
          ∧ (∀ other cause, RootOffence json other cause → other = trail ∨ Earlier trail other)
          ∧ fault.path = pathText "options" trail
          ∧ (GenerationError.invalidOptions fault).message = "invalid options: "
            ++ (pathText "options" trail ++ ": " ++ OptionsFault.causeText fault.cause) := by
  have houtcome := outcome_ofJson json hordered
  generalize ofJson json = result at houtcome
  cases houtcome with
  | accepted h =>
      refine ⟨⟨fun _ => h.1, fun _ => ⟨_, rfl⟩⟩, ?_, by simp⟩
      rintro options heq
      cases heq
      exact h.2
  | @refused trail cause h first =>
      refine ⟨⟨by simp, fun hoptions => absurd h hoptions.not_rootOffence⟩, by simp, ?_⟩
      rintro fault heq
      cases heq
      exact ⟨trail, h, first, rfl, rfl⟩

/-- Options of an owner with and without a known key; without it, what follows is not looked at. -/
theorem ofJson_spec_owner :
    let tree (key : String) (last : Json) : Json := .object
      [("name", .object [("language", .string "en"), ("type", .string "string")]),
        ("pet", .object [("age", .object [(key, .integer 4), ("type", .string "number")])]),
        ("town", last)]
    let good := tree "max" (.object [])
    let bad := tree "most" .null
    good.Ordered ∧ bad.Ordered
      ∧ (∃ options, ofJson good = .ok options ∧ AreOptionsOfTree good options)
      ∧ ∃ fault, ofJson bad = .error fault ∧ fault = ⟨"options.pet.age", .unknownKey "most"⟩
        ∧ ∃ trail, RootOffence bad trail fault.cause
          ∧ (∀ other cause, RootOffence bad other cause → other = trail ∨ Earlier trail other)
          ∧ fault.path = pathText "options" trail := by
  intro tree good bad
  have htree {key : String} {last : Json} (hkey : namePrecedes key "type" = true)
      (hlast : last.Ordered) : (tree key last).Ordered := by
    have hname : (Json.object [("language", .string "en"), ("type", .string "string")]).Ordered :=
      .object (List.pairwise_pair.mpr (by decide)) (by simp [Json.Ordered.string])
    have hage : (Json.object [(key, .integer 4), ("type", .string "number")]).Ordered :=
      .object (List.pairwise_pair.mpr hkey) (by simp [Json.Ordered.string, Json.Ordered.integer])
    have hpet : (Json.object
        [("age", .object [(key, .integer 4), ("type", .string "number")])]).Ordered :=
      .object (List.pairwise_singleton _ _) (List.forall_mem_singleton.mpr hage)
    refine .object (by simp [Ascending, Entries.names]; decide) ?_
    exact List.forall_mem_cons.mpr ⟨hname, List.forall_mem_cons.mpr
      ⟨hpet, List.forall_mem_singleton.mpr hlast⟩⟩
  have hgood : good.Ordered := htree (by decide) (.object .nil (by simp))
  have hbad : bad.Ordered := htree (by decide) .null
  have hoptions : IsOptions good := by
    have hname : IsOption (.object [("language", .string "en"), ("type", .string "string")]) :=
      .rule (by simp [Entries.names]) (List.forall_mem_cons.mpr ⟨.language (by simp),
        List.forall_mem_singleton.mpr (.type (by simp))⟩)
    have hage : IsOption (.object [("max", .integer 4), ("type", .string "number")]) :=
      .rule (by simp [Entries.names]) (List.forall_mem_cons.mpr ⟨.max rfl (by decide +kernel),
        List.forall_mem_singleton.mpr (.type (by simp))⟩)
    have hpet : IsOption (.object
        [("age", .object [("max", .integer 4), ("type", .string "number")])]) :=
      .bag (by simp [Entries.names]) (List.forall_mem_singleton.mpr hage)
    have htown : IsOption (.object []) := .bag (by simp [Entries.names]) (by simp)
    exact ⟨_, rfl, List.forall_mem_cons.mpr ⟨hname, List.forall_mem_cons.mpr
      ⟨hpet, List.forall_mem_singleton.mpr htown⟩⟩⟩
  have hread : ofJson bad = .error ⟨"options.pet.age", .unknownKey "most"⟩ := by cbv
  obtain ⟨options, heq⟩ := (ofJson_spec good hgood).1.mpr hoptions
  obtain ⟨trail, htrail, hfirst, hpath, -⟩ := (ofJson_spec bad hbad).2.2 _ hread
  exact ⟨hgood, hbad, ⟨options, heq, (ofJson_spec good hgood).2.1 options heq⟩,
    _, hread, rfl, trail, htrail, hfirst, hpath⟩

end Specimen.Options
