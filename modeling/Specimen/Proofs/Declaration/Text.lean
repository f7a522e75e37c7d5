import Specimen.Proofs.Declaration.Json
import Specimen.Proofs.Declaration.Nesting
import Specimen.Proofs.Json.Text

/-!
# Declarations as text

Declarations are read back from the compact text of their JSON form, if their numbers are finite and
the form does not nest too deeply. What was read has both properties, so it can be written and read
again as often as one likes. In both cases it is assumed that the text of a number is read as that
number: strings come back without an assumption, but a double is rounded twice when it is read, and
some come back as their neighbours. Main statement: `Declaration.text_roundTrip`.
-/

namespace Specimen

namespace Declaration

open Json (Written)

/-- Reading looks at all entries of a form that has no others. -/
theorem lookedAt_eq_self {written : Written} {n : Nat} {form : Json}
    (h : written.toJson? Json.readDouble n = some form)
    (hnames : ∀ entries, form = .object entries →
      ∀ name ∈ Entries.names entries, name ∈ ["name", "kind"]) :
    lookedAt written = written := by
  match written, n with
  | .object parts, n + 1 =>
      obtain ⟨entries, hentries, rfl⟩ := Option.map_eq_some_iff.mp h
      refine congrArg Written.object (List.filter_eq_self.mpr fun part hpart => ?_)
      obtain ⟨name, hname, hmem⟩ := Written.exists_mem_of_entriesToJson? hentries part hpart
      rw [hname]
      exact List.contains_iff_mem.mpr (hnames entries rfl _ hmem)
  | .object parts, 0 => cases h
  | .null, _ => rfl
  | .bool _, _ => rfl
  | .number _, _ => rfl
  | .string _, _ => rfl
  | .array _, _ => rfl

/-- From the compact text of forms the same is read as from the forms, if all their entries are
looked at. -/
theorem listOfText?_compact {forms : List Json}
    (hlegible : (Json.array forms).Legible Json.readDouble)
    (hlevels : (Json.array forms).levels ≤ Json.nestingLimit)
    (hnames : ∀ entries, .object entries ∈ forms →
      ∀ name ∈ Entries.names entries, name ∈ ["name", "kind"]) :
    listOfText? (Json.array forms).compact = listOfJson? (.array forms) := by
  obtain ⟨written, hwritten, hspelled⟩ := Json.exists_written?_compact hlegible
  have htree := hspelled.toJson? _ hlevels
  obtain ⟨items, n, rfl, hitems⟩ := Written.array_of_toJson? htree
  have hlooked : items.map lookedAt = items := by
    refine (List.map_congr_left fun item hitem => ?_).trans (List.map_id items)
    obtain ⟨form, hform, hread⟩ := Written.exists_mem_of_itemsToJson? hitems item hitem
    exact lookedAt_eq_self hread fun entries heq => hnames entries (heq ▸ hform)
  rw [listOfText?, hwritten, Option.bind_some, listOfWritten?, hlooked]
  simp only [htree, Option.bind_some]

/-- Finite numbers that are reproduced and few levels are enough for declarations to be read back
from their text. -/
theorem listOfText?_listToJson {declarations : List Declaration}
    (hfinite : ∀ declaration ∈ declarations, ∀ value ∈ declaration.numbers,
      value.isFinite = true)
    (hnumbers : ∀ declaration ∈ declarations, ∀ value ∈ declaration.numbers,
      Json.Reproduced value)
    (hlevels : (listToJson declarations).levels ≤ Json.nestingLimit) :
    listOfText? (listToJson declarations).compact = some declarations := by
  have hlegible : (listToJson declarations).Legible Json.readDouble := by
    refine legible_listToJson fun declaration hdeclaration value hvalue => ?_
    have hvalueFinite := hfinite declaration hdeclaration value hvalue
    exact ⟨hvalueFinite,
      (Json.reproduced_iff hvalueFinite).mp (hnumbers declaration hdeclaration value hvalue)⟩
  refine (listOfText?_compact hlegible hlevels ?_).trans (listOfJson?_listToJson declarations)
  intro entries hentries
  obtain ⟨declaration, -, heq⟩ := List.mem_map.mp hentries
  obtain rfl := Json.object.inj heq
  exact fun name hname => hname

/-- Declarations that are read from a text have finite numbers, and their form does not nest too
deeply. -/
theorem of_listOfText? {text : String} {declarations : List Declaration}
    (h : listOfText? text = some declarations) :
    (∀ declaration ∈ declarations, ∀ value ∈ declaration.numbers, value.isFinite = true)
      ∧ (listToJson declarations).levels ≤ Json.nestingLimit := by
  obtain ⟨written, -, hread⟩ := Option.bind_eq_some_iff.mp h
  unfold listOfWritten? at hread
  split at hread
  · obtain ⟨json, hjson, hlist⟩ := Option.bind_eq_some_iff.mp hread
    obtain ⟨hwritable, hlevels⟩ := Json.writable_of_toJson? _ hjson
    exact ⟨isFinite_of_mem_numbers hlist hwritable,
      Nat.le_trans (levels_listToJson_le hlist) hlevels⟩
  · cases hread

/-- Writing declarations and reading them gives the declarations back, if every number of an
enumeration is finite, the written form has at most the levels that are read, and the text layer
reproduces the numbers. Of all declarations that were read from a text the same holds where the text
layer reproduces their numbers. -/
theorem text_roundTrip :
    (∀ declarations : List Declaration,
      (∀ declaration ∈ declarations, ∀ value ∈ declaration.numbers, value.isFinite = true) →
      (∀ declaration ∈ declarations, ∀ value ∈ declaration.numbers, Json.Reproduced value) →
      (listToJson declarations).levels ≤ Json.nestingLimit →
      listOfText? (listToJson declarations).compact = some declarations)
    ∧ ∀ (text : String) (declarations : List Declaration),
      listOfText? text = some declarations →
      (∀ declaration ∈ declarations, ∀ value ∈ declaration.numbers, Json.Reproduced value) →
      listOfText? (listToJson declarations).compact = some declarations :=
  ⟨fun _ hfinite hnumbers hlevels => listOfText?_listToJson hfinite hnumbers hlevels,
    fun _ _ h hnumbers =>
      listOfText?_listToJson (of_listOfText? h).1 hnumbers (of_listOfText? h).2⟩

/-- An enumeration with values of all kinds. -/
def sizes : List Declaration :=
  [⟨"Size", .enumeration [⟨"Half", some (.number (Float.ofBits 0x3FE0000000000000))⟩,
    ⟨"Full", some (.string "1")⟩, ⟨"Other", none⟩]⟩]

/-- Forms without names, with an integer for a number. -/
def unnamedForms : List Json :=
  [.array [.string "Size", .array [.string "enum",
    .array [.array [.string "Double", .integer 2]]]]]

theorem text_roundTrip_sizes :
    ((∀ declaration ∈ sizes, ∀ value ∈ declaration.numbers, value.isFinite = true)
      ∧ (∀ declaration ∈ sizes, ∀ value ∈ declaration.numbers, Json.Reproduced value)
      ∧ (listToJson sizes).levels ≤ Json.nestingLimit
      ∧ listOfText? (listToJson sizes).compact = some sizes)
    ∧ ∃ declarations, listOfText? (Json.array unnamedForms).compact = some declarations
      ∧ declarations ≠ []
      ∧ (∀ declaration ∈ declarations, ∀ value ∈ declaration.numbers, Json.Reproduced value)
      ∧ listOfText? (listToJson declarations).compact = some declarations := by
  have hfinite : ∀ declaration ∈ sizes, ∀ value ∈ declaration.numbers,
      value.isFinite = true := by
    decide +kernel
  have hnumbers : ∀ declaration ∈ sizes, ∀ value ∈ declaration.numbers,
      Json.Reproduced value := by
    have hrounded : ∀ declaration ∈ sizes, ∀ value ∈ declaration.numbers,
        Json.Reproduces Json.readDouble value := by
      decide +kernel
    exact fun declaration hdeclaration value hvalue =>
      (Json.reproduced_iff (hfinite declaration hdeclaration value hvalue)).mpr
        (hrounded declaration hdeclaration value hvalue)
  have hlevels : (listToJson sizes).levels ≤ Json.nestingLimit := by decide
  have hread : listOfText? (Json.array unnamedForms).compact
      = some [⟨"Size", .enumeration [⟨"Double", some (.number (Binary64.ofInt 2))⟩]⟩] := by
    refine (listOfText?_compact ?_ (by decide) ?_).trans rfl
    · have hleast : Json.leastInteger ≤ 2 := by decide
      simpa [unnamedForms] using Json.Legible.integer hleast (by decide)
    · intro entries hentries
      simp [unnamedForms] at hentries
  have htwo : Json.Reproduced (Binary64.ofInt 2) :=
    (Json.reproduced_iff (by decide +kernel)).mpr (by decide +kernel)
  refine ⟨⟨hfinite, hnumbers, hlevels, text_roundTrip.1 sizes hfinite hnumbers hlevels⟩, _, hread,
    List.cons_ne_nil _ _, ?_, text_roundTrip.2 _ _ hread ?_⟩ <;>
    simpa [numbers, DeclarationBody.numbers, EnumMember.number?] using htwo

end Declaration

end Specimen
