import Specimen.Options.Json
import Specimen.Proofs.Entries

/-!
# The format of rules

Which objects are rules: `IsParameter` lists the keys with the values that they may have. The keys
and the kinds of their values are looked at first, the names of types and languages afterwards.
Whatever passes both is taken over as it stands (`IsRuleOf`), and whatever does not is refused for
something that is wrong with it (`Offends`). Main statement: `readAs_ofObject`.
-/

namespace Specimen

theorem RuleKind.name_of_ofName? {name : String} {kind : RuleKind} (h : ofName? name = some kind) :
    kind.name = name := by
  unfold ofName? at h
  split at h <;> cases h <;> rfl

theorem RuleKind.isSome_ofName?_iff {name : String} :
    (ofName? name).isSome ↔ name ∈ ["string", "number", "number_float", "array"] := by
  unfold ofName?
  split <;> simp_all

theorem Alphabet.code_of_ofCode? {code : String} {alphabet : Alphabet}
    (h : ofCode? code = some alphabet) : alphabet.code = code := by
  unfold ofCode? at h
  split at h <;> cases h <;> rfl

theorem Alphabet.isSome_ofCode?_iff {code : String} :
    (ofCode? code).isSome ↔ code ∈ ["en", "zh", "zh_en"] := by
  unfold ofCode?
  split <;> simp_all

/-! ## The kinds of values -/

namespace ParameterKind

variable {value : Json}

theorem admits_text_iff : text.admits value = true ↔ ∃ string, value = .string string := by
  cases value <;> simp [admits, Json.string?]

theorem admits_number_iff : number.admits value = true
    ↔ ∃ bound, value.number? = some bound ∧ bound.isFinite = true := by
  rw [admits, Option.any_eq_true]

theorem admits_count_iff : count.admits value = true
    ↔ ∃ n : Nat, n < UInt32.size ∧ value = .integer n := by
  cases value with
  | integer value =>
      simp only [admits, Json.natural?, Option.any_eq_true, Json.integer.injEq, decide_eq_true_eq,
        UInt32.size]
      constructor
      · rintro ⟨n, hn, hsmall⟩
        split at hn
        · cases hn
          exact ⟨_, hsmall, by omega⟩
        · cases hn
      · rintro ⟨n, hsmall, rfl⟩
        exact ⟨n, by simp, hsmall⟩
  | _ => simp [admits, Json.natural?]

end ParameterKind

namespace FieldRule

/-- A key of a rule with a value that it may have. -/
inductive IsParameter : String → Json → Prop
  | type {name : String} (known : name ∈ ["string", "number", "number_float", "array"]) :
      IsParameter "type" (.string name)
  | min {value : Json} {bound : Float} (number : value.number? = some bound)
      (finite : bound.isFinite = true) : IsParameter "min" value
  | max {value : Json} {bound : Float} (number : value.number? = some bound)
      (finite : bound.isFinite = true) : IsParameter "max" value
  | fixed {places : Nat} (small : places < UInt32.size) : IsParameter "fixed" (.integer places)
  | language {code : String} (known : code ∈ ["en", "zh", "zh_en"]) :
      IsParameter "language" (.string code)
  | length {count : Nat} (small : count < UInt32.size) : IsParameter "length" (.integer count)
  | value (value : Json) : IsParameter "value" value

/-- The object is no rule, for the cause. -/
inductive Offends (entries : List (String × Json)) : OptionsCause → Prop
  | unknownKey {key : String} {value : Json} (mem : (key, value) ∈ entries)
      (unknown : ∀ other, ¬IsParameter key other) : Offends entries (.unknownKey key)
  | invalidValue {key : String} {value : Json} (mem : (key, value) ∈ entries)
      (known : ∃ other, IsParameter key other) (wrong : ¬IsParameter key value) :
      Offends entries (.invalidValue key)
  | unknownType {name : String} (mem : ("type", .string name) ∈ entries)
      (wrong : ¬IsParameter "type" (.string name)) : Offends entries (.unknownType name)
  | unknownLanguage {code : String} (mem : ("language", .string code) ∈ entries)
      (wrong : ¬IsParameter "language" (.string code)) : Offends entries (.unknownLanguage code)

/-- A parameter is there exactly if its key is, and is what the value of the key means. -/
inductive Given {α : Type} (means : Json → α → Prop) (entries : List (String × Json))
    (key : String) : Option α → Prop
  | absent (missing : key ∉ Entries.names entries) : Given means entries key none
  | present {value : Json} {parameter : α} (mem : (key, value) ∈ entries)
      (meant : means value parameter) : Given means entries key (some parameter)

/-- The rule has what the entries give, and nothing else. -/
structure IsRuleOf (entries : List (String × Json)) (rule : FieldRule) : Prop where
  kind : ("type", .string rule.kind.name) ∈ entries
  least : Given (fun value bound => value.number? = some bound) entries "min" rule.least
  greatest : Given (fun value bound => value.number? = some bound) entries "max" rule.greatest
  places : Given (fun value (n : Nat) => value = .integer n) entries "fixed" rule.places
  alphabet : Given (fun value (alphabet : Alphabet) => value = .string alphabet.code) entries
    "language" rule.alphabet
  length : Given (fun value (n : Nat) => value = .integer n) entries "length" rule.length
  override : Given (fun value override => override = .literal (Sample.ofJson value)) entries
    "value" rule.override

/-- What reading an object as a rule comes to. -/
inductive ReadAs (path : String) (entries : List (String × Json)) :
    Except OptionsFault FieldRule → Prop
  | accepted {rule : FieldRule} (each : ∀ entry ∈ entries, IsParameter entry.1 entry.2)
      (given : IsRuleOf entries rule) : ReadAs path entries (.ok rule)
  | refused {cause : OptionsCause} (offends : Offends entries cause) :
      ReadAs path entries (.error ⟨path, cause⟩)

variable {key : String} {value : Json} {entries : List (String × Json)}

theorem Offends.not_each {cause : OptionsCause} (h : Offends entries cause) :
    ¬∀ entry ∈ entries, IsParameter entry.1 entry.2 := by
  intro heach
  cases h with
  | unknownKey mem unknown => exact unknown _ (heach _ mem)
  | invalidValue mem _ wrong => exact wrong (heach _ mem)
  | unknownType mem wrong => exact wrong (heach _ mem)
  | unknownLanguage mem wrong => exact wrong (heach _ mem)

/-- An entry more takes nothing away from an offence. -/
theorem Offends.cons {cause : OptionsCause} (h : Offends entries cause) (entry : String × Json) :
    Offends (entry :: entries) cause := by
  cases h with
  | unknownKey mem unknown => exact .unknownKey (List.mem_cons_of_mem _ mem) unknown
  | invalidValue mem known wrong => exact .invalidValue (List.mem_cons_of_mem _ mem) known wrong
  | unknownType mem wrong => exact .unknownType (List.mem_cons_of_mem _ mem) wrong
  | unknownLanguage mem wrong => exact .unknownLanguage (List.mem_cons_of_mem _ mem) wrong

/-! ## Keys and kinds -/

/-- The value is of the kind of its key. -/
def IsAdmitted (key : String) (value : Json) : Prop :=
  ∃ kind, Entries.find? key parameters = some kind ∧ kind.admits value = true

theorem isAdmitted_iff {kind : ParameterKind} (hkind : Entries.find? key parameters = some kind) :
    IsAdmitted key value ↔ kind.admits value = true := by
  simp [IsAdmitted, hkind]

/-- A parameter is of the kind of its key. Only types and languages have to be known as well. -/
theorem isParameter_iff : IsParameter key value ↔ IsAdmitted key value
    ∧ (∀ name, key = "type" → value = .string name → (RuleKind.ofName? name).isSome)
    ∧ ∀ code, key = "language" → value = .string code → (Alphabet.ofCode? code).isSome := by
  constructor
  · intro h
    cases h with
    | type known =>
        refine ⟨⟨.text, rfl, rfl⟩, ?_, by simp⟩
        rintro name - heq
        cases heq
        exact RuleKind.isSome_ofName?_iff.mpr known
    | language known =>
        refine ⟨⟨.text, rfl, rfl⟩, by simp, ?_⟩
        rintro code - heq
        cases heq
        exact Alphabet.isSome_ofCode?_iff.mpr known
    | min number finite =>
        exact ⟨⟨.number, rfl, ParameterKind.admits_number_iff.mpr ⟨_, number, finite⟩⟩, by simp,
          by simp⟩
    | max number finite =>
        exact ⟨⟨.number, rfl, ParameterKind.admits_number_iff.mpr ⟨_, number, finite⟩⟩, by simp,
          by simp⟩
    | fixed small =>
        exact ⟨⟨.count, rfl, ParameterKind.admits_count_iff.mpr ⟨_, small, rfl⟩⟩, by simp, by simp⟩
    | length small =>
        exact ⟨⟨.count, rfl, ParameterKind.admits_count_iff.mpr ⟨_, small, rfl⟩⟩, by simp, by simp⟩
    | value => exact ⟨⟨.any, rfl, rfl⟩, by simp, by simp⟩
  · rintro ⟨⟨kind, hkind, hadmits⟩, htype, hlanguage⟩
    have hmem := Entries.mem_of_find? hkind
    simp only [parameters, List.mem_cons, Prod.mk.injEq, List.not_mem_nil, or_false] at hmem
    rcases hmem with ⟨rfl, rfl⟩ | ⟨rfl, rfl⟩ | ⟨rfl, rfl⟩ | ⟨rfl, rfl⟩ | ⟨rfl, rfl⟩ | ⟨rfl, rfl⟩
      | ⟨rfl, rfl⟩
    · obtain ⟨name, rfl⟩ := ParameterKind.admits_text_iff.mp hadmits
      exact .type (RuleKind.isSome_ofName?_iff.mp (htype name rfl rfl))
    · obtain ⟨bound, hnumber, hfinite⟩ := ParameterKind.admits_number_iff.mp hadmits
      exact .min hnumber hfinite
    · obtain ⟨bound, hnumber, hfinite⟩ := ParameterKind.admits_number_iff.mp hadmits
      exact .max hnumber hfinite
    · obtain ⟨n, hsmall, rfl⟩ := ParameterKind.admits_count_iff.mp hadmits
      exact .fixed hsmall
    · obtain ⟨code, rfl⟩ := ParameterKind.admits_text_iff.mp hadmits
      exact .language (Alphabet.isSome_ofCode?_iff.mp (hlanguage code rfl rfl))
    · obtain ⟨n, hsmall, rfl⟩ := ParameterKind.admits_count_iff.mp hadmits
      exact .length hsmall
    · exact .value value

/-- The keys that are looked up are those that have a parameter. -/
theorem exists_isParameter_iff :
    (∃ value, IsParameter key value) ↔ key ∈ Entries.names parameters := by
  constructor
  · rintro ⟨value, h⟩
    obtain ⟨⟨kind, hkind, -⟩, -, -⟩ := isParameter_iff.mp h
    exact Entries.isSome_find?_iff.mp (hkind ▸ rfl)
  · intro h
    simp only [Entries.names, parameters, List.map_cons, List.map_nil, List.mem_cons,
      List.not_mem_nil, or_false] at h
    rcases h with rfl | rfl | rfl | rfl | rfl | rfl | rfl
    · exact ⟨_, .type (List.mem_cons_self)⟩
    · exact ⟨.double 0, .min rfl rfl⟩
    · exact ⟨.double 0, .max rfl rfl⟩
    · exact ⟨_, .fixed (by decide : 0 < UInt32.size)⟩
    · exact ⟨_, .language (List.mem_cons_self)⟩
    · exact ⟨_, .length (by decide : 0 < UInt32.size)⟩
    · exact ⟨.null, .value .null⟩

/-- The first bad key is one that offends; without one every value is of the kind of its key. -/
theorem firstBadKey?_spec (entries : List (String × Json)) :
    (firstBadKey? entries = none ∧ ∀ entry ∈ entries, IsAdmitted entry.1 entry.2)
      ∨ ∃ cause, firstBadKey? entries = some cause ∧ Offends entries cause := by
  induction entries with
  | nil => exact .inl ⟨rfl, by simp⟩
  | cons entry rest ih =>
      obtain ⟨key, value⟩ := entry
      cases hkind : Entries.find? key parameters with
      | none =>
          refine .inr ⟨.unknownKey key, by simp [firstBadKey?, hkind], ?_⟩
          refine .unknownKey List.mem_cons_self fun other hother => ?_
          have hmem := exists_isParameter_iff.mp ⟨other, hother⟩
          rw [← Entries.isSome_find?_iff, hkind] at hmem
          cases hmem
      | some kind =>
          have hknown : ∃ other, IsParameter key other :=
            exists_isParameter_iff.mpr (Entries.isSome_find?_iff.mp (hkind ▸ rfl))
          cases hadmits : kind.admits value with
          | false =>
              refine .inr ⟨.invalidValue key, by simp [firstBadKey?, hkind, hadmits], ?_⟩
              refine .invalidValue List.mem_cons_self hknown fun hparameter => ?_
              have hadmitted := (isAdmitted_iff hkind).mp (isParameter_iff.mp hparameter).1
              rw [hadmits] at hadmitted
              cases hadmitted
          | true =>
              have hstep : firstBadKey? ((key, value) :: rest) = firstBadKey? rest := by
                simp [firstBadKey?, hkind, hadmits]
              rw [hstep]
              rcases ih with ⟨hnone, hrest⟩ | ⟨cause, hsome, hoffends⟩
              · exact .inl ⟨hnone, List.forall_mem_cons.mpr ⟨⟨kind, hkind, hadmits⟩, hrest⟩⟩
              · exact .inr ⟨cause, hsome, hoffends.cons (key, value)⟩

/-! ## The rule of an object -/

/-- What is read from a key that is there is given. -/
theorem given_of_bind {α : Type} {means : Json → α → Prop} {read? : Json → Option α}
    (hread : ∀ value, (key, value) ∈ entries → ∃ parameter, read? value = some parameter
      ∧ means value parameter) :
    Given means entries key ((Entries.find? key entries).bind read?) := by
  cases hfind : Entries.find? key entries with
  | none =>
      refine .absent fun hmem => ?_
      rw [← Entries.isSome_find?_iff, hfind] at hmem
      cases hmem
  | some value =>
      have hmem := Entries.mem_of_find? hfind
      obtain ⟨parameter, hparameter, hmeans⟩ := hread value hmem
      rw [Option.bind_some, hparameter]
      exact .present hmem hmeans

/-- The rule of a kind and an alphabet with the other parameters of an object. -/
def ofParameters (entries : List (String × Json)) (kind : RuleKind) (alphabet : Option Alphabet) :
    FieldRule where
  kind := kind
  least := (Entries.find? "min" entries).bind Json.number?
  greatest := (Entries.find? "max" entries).bind Json.number?
  places := (Entries.find? "fixed" entries).bind Json.natural?
  alphabet := alphabet
  length := (Entries.find? "length" entries).bind Json.natural?
  override := (Entries.find? "value" entries).map fun value => .literal (Sample.ofJson value)

/-- With the name of a type at hand, the type is looked up and then the language. -/
theorem ofEntries_eq {name : String}
    (htype : (Entries.find? "type" entries).bind Json.string? = some name) :
    ofEntries entries = match RuleKind.ofName? name with
      | none => .error (.unknownType name)
      | some kind =>
          match (Entries.find? "language" entries).bind Json.string? with
          | none => .ok (ofParameters entries kind none)
          | some code =>
              match Alphabet.ofCode? code with
              | none => .error (.unknownLanguage code)
              | some alphabet => .ok (ofParameters entries kind (some alphabet)) := by
  cases hkind : RuleKind.ofName? name with
  | none => simp [ofEntries, htype, hkind, bind, Except.bind]
  | some kind =>
      cases hlanguage : (Entries.find? "language" entries).bind Json.string? with
      | none =>
          simp [ofEntries, ofParameters, htype, hkind, hlanguage, bind, Except.bind, pure,
            Except.pure]
      | some code =>
          cases halphabet : Alphabet.ofCode? code <;>
            simp [ofEntries, ofParameters, htype, hkind, hlanguage, halphabet, bind, Except.bind,
              pure, Except.pure]

/-- The text under a key. -/
theorem text_eq_some_iff (hnodup : (Entries.names entries).Nodup) {text : String} :
    (Entries.find? key entries).bind Json.string? = some text ↔ (key, .string text) ∈ entries := by
  rw [← Entries.find?_eq_some_iff_mem hnodup]
  cases Entries.find? key entries with
  | none => simp
  | some value => cases value <;> simp [Json.string?]

section Admitted

variable (hadmitted : ∀ entry ∈ entries, IsAdmitted entry.1 entry.2)
include hadmitted

theorem admits_of_mem {kind : ParameterKind} (hkind : Entries.find? key parameters = some kind)
    (hmem : (key, value) ∈ entries) : kind.admits value = true :=
  (isAdmitted_iff hkind).mp (hadmitted _ hmem)

theorem given_number (hkind : Entries.find? key parameters = some .number) :
    Given (fun value bound => value.number? = some bound) entries key
      ((Entries.find? key entries).bind Json.number?) := by
  refine given_of_bind fun value hmem => ?_
  have hadmits := admits_of_mem hadmitted hkind hmem
  obtain ⟨bound, hbound, -⟩ := ParameterKind.admits_number_iff.mp hadmits
  exact ⟨bound, hbound, hbound⟩

theorem given_count (hkind : Entries.find? key parameters = some .count) :
    Given (fun value (n : Nat) => value = .integer n) entries key
      ((Entries.find? key entries).bind Json.natural?) := by
  refine given_of_bind fun value hmem => ?_
  have hadmits := admits_of_mem hadmitted hkind hmem
  obtain ⟨n, -, rfl⟩ := ParameterKind.admits_count_iff.mp hadmits
  exact ⟨n, by simp [Json.natural?], rfl⟩

/-- Where a text has to be and there is none, there is no key either. -/
theorem notMem_of_text_eq_none (hkind : Entries.find? key parameters = some .text)
    (hnone : (Entries.find? key entries).bind Json.string? = none) :
    key ∉ Entries.names entries := by
  rw [← Entries.isSome_find?_iff]
  intro hsome
  obtain ⟨value, hvalue⟩ := Option.isSome_iff_exists.mp hsome
  have hadmits := admits_of_mem hadmitted hkind (Entries.mem_of_find? hvalue)
  obtain ⟨text, rfl⟩ := ParameterKind.admits_text_iff.mp hadmits
  rw [hvalue] at hnone
  cases hnone

theorem isRuleOf_ofParameters {kind : RuleKind} {alphabet : Option Alphabet}
    (hkind : ("type", .string kind.name) ∈ entries)
    (halphabet : Given (fun value (alphabet : Alphabet) => value = .string alphabet.code) entries
      "language" alphabet) : IsRuleOf entries (ofParameters entries kind alphabet) where
  kind := hkind
  least := given_number hadmitted rfl
  greatest := given_number hadmitted rfl
  places := given_count hadmitted rfl
  alphabet := halphabet
  length := given_count hadmitted rfl
  override := by
    rw [ofParameters, Option.map_eq_bind]
    exact given_of_bind fun value _ => ⟨_, rfl, rfl⟩

/-- Values of the right kinds are those of a rule, if the type is known and the language, if there
is one. -/
theorem isParameter_of_known
    (htype : ∀ name, ("type", Json.string name) ∈ entries → (RuleKind.ofName? name).isSome)
    (hlanguage : ∀ code, ("language", Json.string code) ∈ entries →
      (Alphabet.ofCode? code).isSome) :
    ∀ entry ∈ entries, IsParameter entry.1 entry.2 := by
  rintro ⟨key, value⟩ hmem
  refine isParameter_iff.mpr ⟨hadmitted _ hmem, ?_, ?_⟩
  · rintro name rfl rfl
    exact htype name hmem
  · rintro code rfl rfl
    exact hlanguage code hmem

/-- Where all values are of the kinds of their keys, the entries give a rule, or the type or the
language is not known. -/
theorem ofEntries_spec (htyped : "type" ∈ Entries.names entries)
    (hnodup : (Entries.names entries).Nodup) :
    (∃ rule, ofEntries entries = .ok rule ∧ (∀ entry ∈ entries, IsParameter entry.1 entry.2)
        ∧ IsRuleOf entries rule)
      ∨ ∃ cause, ofEntries entries = .error cause ∧ Offends entries cause := by
  cases htype : (Entries.find? "type" entries).bind Json.string? with
  | none => exact absurd htyped (notMem_of_text_eq_none hadmitted rfl htype)
  | some name =>
      have htypeMem := (text_eq_some_iff hnodup).mp htype
      rw [ofEntries_eq htype]
      cases hkind : RuleKind.ofName? name with
      | none =>
          refine .inr ⟨_, rfl, .unknownType htypeMem fun h => ?_⟩
          simpa [hkind] using (isParameter_iff.mp h).2.1 name rfl rfl
      | some kind =>
          have hknown : ∀ other, ("type", Json.string other) ∈ entries →
              (RuleKind.ofName? other).isSome := by
            intro other hother
            rw [← text_eq_some_iff hnodup, htype] at hother
            rw [← Option.some.inj hother, hkind]
            rfl
          have hkindMem : ("type", Json.string kind.name) ∈ entries := by
            rwa [RuleKind.name_of_ofName? hkind]
          cases hlanguage : (Entries.find? "language" entries).bind Json.string? with
          | none =>
              have hmissing := notMem_of_text_eq_none hadmitted rfl hlanguage
              refine .inl ⟨_, rfl, isParameter_of_known hadmitted hknown fun code hcode => ?_,
                isRuleOf_ofParameters hadmitted hkindMem (.absent hmissing)⟩
              exact absurd (List.mem_map_of_mem hcode) hmissing
          | some code =>
              have hcodeMem := (text_eq_some_iff hnodup).mp hlanguage
              dsimp only
              cases halphabet : Alphabet.ofCode? code with
              | none =>
                  refine .inr ⟨_, rfl, .unknownLanguage hcodeMem fun h => ?_⟩
                  simpa [halphabet] using (isParameter_iff.mp h).2.2 code rfl rfl
              | some alphabet =>
                  have halphabetMem : ("language", Json.string alphabet.code) ∈ entries := by
                    rwa [Alphabet.code_of_ofCode? halphabet]
                  refine .inl ⟨_, rfl, isParameter_of_known hadmitted hknown fun other hother => ?_,
                    isRuleOf_ofParameters hadmitted hkindMem (.present halphabetMem rfl)⟩
                  rw [← text_eq_some_iff hnodup, hlanguage] at hother
                  rw [← Option.some.inj hother, halphabet]
                  rfl

end Admitted

/-- An object with a type is read as a rule exactly if it has only parameters of rules; otherwise
something is wrong with it, and the fault is at its path. -/
theorem readAs_ofObject (path : String) (htyped : "type" ∈ Entries.names entries)
    (hnodup : (Entries.names entries).Nodup) : ReadAs path entries (ofObject path entries) := by
  unfold ofObject
  rcases firstBadKey?_spec entries with ⟨hnone, hadmitted⟩ | ⟨cause, hsome, hoffends⟩
  · rw [hnone]
    rcases ofEntries_spec hadmitted htyped hnodup with
      ⟨rule, hrule, heach, hgiven⟩ | ⟨cause, herror, hoffends⟩
    · rw [hrule]
      exact .accepted heach hgiven
    · rw [herror]
      exact .refused hoffends
  · rw [hsome]
    exact .refused hoffends

/-- There is a cause for every object with a type that is no rule. -/
theorem exists_offends_iff (htyped : "type" ∈ Entries.names entries)
    (hnodup : (Entries.names entries).Nodup) :
    (∃ cause, Offends entries cause) ↔ ¬∀ entry ∈ entries, IsParameter entry.1 entry.2 := by
  constructor
  · rintro ⟨cause, hoffends⟩
    exact hoffends.not_each
  · intro hwrong
    have hread := readAs_ofObject "" htyped hnodup
    generalize ofObject "" entries = result at hread
    cases hread with
    | accepted each => exact absurd each hwrong
    | refused offends => exact ⟨_, offends⟩

end FieldRule

end Specimen
