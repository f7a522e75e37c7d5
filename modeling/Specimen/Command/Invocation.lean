import Specimen.Radix

/-!
# Command lines

What the words of a command line ask for. An option is a word with two dashes and a name, or with
one dash and a letter; its value stands behind an equals sign or in the next word, and behind the
letter also without a sign. Letters may be joined behind one dash. After the word `--` there are no
options any more.

The words are understood one after the other (`Mark`), and the first thing that is wrong ends the
matter, unless help or the version was asked for before it.
-/

namespace Specimen

/-! ## What can be asked for -/

/-- Which samples to generate, and what to do with them. -/
structure GenerateOrder where
  /-- The file with the declarations. -/
  source : String
  typeName : String
  options : Option String
  seed : Option UInt64
  count : Option Nat
  pretty : Bool
  /-- The file to write to instead of printing. -/
  out : Option String
deriving DecidableEq, Repr

/-- Which declarations to report on, and how. -/
structure InspectOrder where
  source : String
  json : Bool
deriving DecidableEq, Repr

/-- The two things that the program does. -/
inductive Task where
  | generate (order : GenerateOrder)
  | inspect (order : InspectOrder)
deriving DecidableEq, Repr

/-- What a command line asks for. -/
inductive Invocation where
  | help
  | version
  | run (settings : Option String) (task : Task)
deriving DecidableEq, Repr

namespace Command

/-! ## Options -/

/-- What the value of an option has to be. -/
inductive ValueKind where
  /-- A path, which is not empty. -/
  | path
  | text
  /-- A number that fits sixty-four bits. -/
  | number
deriving DecidableEq, Repr

/-- An option: its names and, if it has a value, the kind of the value. -/
structure OptionForm where
  name : String
  letter : Option Char
  value : Option ValueKind
deriving DecidableEq, Repr

/-- The option that shows help. -/
def helpForm : OptionForm := ⟨"help", some 'h', none⟩

/-- The option that names the settings file. -/
def settingsForm : OptionForm := ⟨"config", none, some .path⟩

/-- The options before the name of the task. -/
def outerForms : List OptionForm :=
  [settingsForm, helpForm, ⟨"version", some 'V', none⟩]

/-- The options of generation. -/
def generateForms : List OptionForm :=
  [⟨"type", some 't', some .text⟩, ⟨"options", none, some .path⟩, ⟨"seed", none, some .number⟩,
    ⟨"count", none, some .number⟩, ⟨"pretty", none, none⟩, ⟨"out", none, some .path⟩,
    settingsForm, helpForm]

/-- The options of inspection. -/
def inspectForms : List OptionForm :=
  [⟨"json", none, none⟩, settingsForm, helpForm]

/-! ## Words -/

/-- One thing that the words of a command line say. -/
inductive Mark where
  | flag (name : String)
  | value (name : String) (kind : ValueKind) (text : String)
  /-- A word that is neither an option nor a value of one. -/
  | operand (text : String)
  /-- Something is wrong here. -/
  | wrong
deriving DecidableEq, Repr

/-- The number of a text of digits, which may have a plus sign, if it fits sixty-four bits. -/
def number? (text : String) : Option Nat :=
  let digits :=
    match text.toList with
    | '+' :: digits => digits
    | digits => digits
  (Radix.natOfDigits? 10 digits).filter fun n => decide (n < UInt64.size)

/-- The text is a value of the kind. -/
def ValueKind.admits : ValueKind → String → Bool
  | .path, value => value != ""
  | .text, _ => true
  | .number, value => (number? value).isSome

/-- A word that starts with a dash and is longer than that. -/
def isOptionWord (word : String) : Bool :=
  match word.toList with
  | '-' :: _ :: _ => true
  | _ => false

/-- An option with its value: the attached one, or the next word, which must not look like an
option itself. -/
def withValue (name : String) (kind : ValueKind) (attached : Option (List Char))
    (words : List String) : Mark × List String :=
  match attached, words with
  | some text, words => (.value name kind (String.ofList text), words)
  | none, word :: words =>
      if isOptionWord word then (.wrong, word :: words) else (.value name kind word, words)
  | none, [] => (.wrong, [])

theorem length_withValue_le (name : String) (kind : ValueKind) (attached : Option (List Char))
    (words : List String) : (withValue name kind attached words).2.length ≤ words.length := by
  unfold withValue
  split
  · exact Nat.le_refl _
  · split
    · exact Nat.le_refl _
    · exact Nat.le_succ _
  · exact Nat.le_refl _

/-- What stands behind an equals sign, if there is one. -/
def behindEquals? (body : List Char) : Option (List Char) :=
  match body.dropWhile (· != '=') with
  | _ :: text => some text
  | [] => none

/-- The option of a name behind two dashes. -/
def longMark (forms : List OptionForm) (body : List Char) (words : List String) :
    Mark × List String :=
  match forms.find? (·.name == String.ofList (body.takeWhile (· != '='))) with
  | none => (.wrong, words)
  | some form =>
      match form.value with
      | some kind => withValue form.name kind (behindEquals? body) words
      | none => (if (behindEquals? body).isSome then .wrong else .flag form.name, words)

/-- The options of the letters behind one dash. -/
def letterMarks (forms : List OptionForm) (words : List String) :
    List Char → List Mark × List String
  | [] => ([], words)
  | letter :: letters =>
      match forms.find? (·.letter == some letter) with
      | none => ([.wrong], words)
      | some form =>
          match form.value with
          | some kind =>
              let attached :=
                match letters with
                | [] => none
                | '=' :: text => some text
                | text => some text
              let (mark, words) := withValue form.name kind attached words
              ([mark], words)
          | none =>
              let (marks, words) := letterMarks forms words letters
              (.flag form.name :: marks, words)

/-- What the options in a word say, and the words that are left then. None if the word has no
options. -/
def optionMarks? (forms : List OptionForm) (word : String) (words : List String) :
    Option (List Mark × List String) :=
  match word.toList with
  | '-' :: '-' :: body =>
      let (mark, words) := longMark forms body words
      some ([mark], words)
  | '-' :: letter :: letters => some (letterMarks forms words (letter :: letters))
  | _ => none

theorem length_letterMarks_le (forms : List OptionForm) (words : List String)
    (letters : List Char) : (letterMarks forms words letters).2.length ≤ words.length := by
  induction letters with
  | nil => exact Nat.le_refl _
  | cons letter letters ih =>
      simp only [letterMarks]
      split
      · exact Nat.le_refl _
      · split
        · exact length_withValue_le ..
        · exact ih

theorem length_optionMarks?_le {forms : List OptionForm} {word : String}
    {words left : List String} {marks : List Mark}
    (h : optionMarks? forms word words = some (marks, left)) : left.length ≤ words.length := by
  unfold optionMarks? at h
  split at h
  · simp only [Option.some.injEq, Prod.mk.injEq] at h
    rw [← h.2]
    unfold longMark
    split
    · exact Nat.le_refl _
    · split
      · exact length_withValue_le ..
      · exact Nat.le_refl _
  · rename_i _ letter letters _ _
    simp only [Option.some.injEq] at h
    have := length_letterMarks_le forms words (letter :: letters)
    rw [h] at this
    exact this
  · simp at h

/-- What the words behind the name of a task say. -/
def marks (forms : List OptionForm) (words : List String) : List Mark :=
  match words with
  | [] => []
  | word :: words =>
      if word = "--" then words.map Mark.operand
      else
        match h : optionMarks? forms word words with
        | none => .operand word :: marks forms words
        | some (found, left) =>
            have := length_optionMarks?_le h
            found ++ marks forms left
termination_by words.length
decreasing_by all_goals simp only [List.length_cons]; omega

/-! ## Orders -/

/-- Why there is no order: the command line is wrong, or it asks for something else. -/
inductive Refusal where
  | usage
  | help
  | version
deriving DecidableEq, Repr

/-- What was said so far: the names of flags, and names with their values. -/
abbrev Said := List (String × String)

/-- The name under which an operand is kept. -/
def operandName : String := "source"

/-- The value of a name. -/
def said? (name : String) (said : Said) : Option String :=
  (said.find? (·.1 == name)).map Prod.snd

/-- Nothing is said twice. -/
def sayOnce (name text : String) (said : Said) : Except Refusal Said :=
  if (said? name said).isSome then .error .usage else .ok ((name, text) :: said)

/-- One thing more is said. -/
def hear (said : Said) : Mark → Except Refusal Said
  | .flag "help" => .error .help
  | .flag "version" => .error .version
  | .flag name => sayOnce name "" said
  | .value name kind text => if kind.admits text then sayOnce name text said else .error .usage
  | .operand text =>
      if ValueKind.path.admits text then sayOnce operandName text said else .error .usage
  | .wrong => .error .usage

/-- What a value must be there for. -/
def required (value : Option String) : Except Refusal String :=
  (value.map Except.ok).getD (.error .usage)

/-- The settings file that the words behind the name of a task give, or the one before it. -/
def settingsOf (outer inner : Said) : Option String :=
  (said? settingsForm.name inner).or (said? settingsForm.name outer)

/-- The order for a generation. -/
def generateOrder (said : Said) : Except Refusal GenerateOrder := do
  return {
    source := ← required (said? operandName said)
    typeName := ← required (said? "type" said)
    options := said? "options" said
    seed := ((said? "seed" said).bind number?).map UInt64.ofNat
    count := (said? "count" said).bind number?
    pretty := (said? "pretty" said).isSome
    out := said? "out" said }

/-- The order for an inspection. -/
def inspectOrder (said : Said) : Except Refusal InspectOrder := do
  return { source := ← required (said? operandName said), json := (said? "json" said).isSome }

/-- What the word for a task and the words behind it ask for. -/
def taskInvocation (outer : Said) (word : String) (words : List String) :
    Except Refusal Invocation := do
  match word with
  | "generate" =>
      let said ← (marks generateForms words).foldlM hear []
      return .run (settingsOf outer said) (.generate (← generateOrder said))
  | "inspect" =>
      let said ← (marks inspectForms words).foldlM hear []
      return .run (settingsOf outer said) (.inspect (← inspectOrder said))
  | "help" =>
      match words with
      | [] | ["generate"] | ["inspect"] | ["help"] => .error .help
      | _ => .error .usage
  | _ => .error .usage

/-- What the words of a command line ask for, after what was said before them. -/
def invocationAfter (outer : Said) (words : List String) : Except Refusal Invocation :=
  match words with
  | [] => .error .usage
  | word :: words =>
      if word = "--" then .error .usage
      else
        match h : optionMarks? outerForms word words with
        | none => taskInvocation outer word words
        | some (found, left) =>
            have := length_optionMarks?_le h
            match found.foldlM hear outer with
            | .error refusal => .error refusal
            | .ok outer => invocationAfter outer left
termination_by words.length
decreasing_by simp only [List.length_cons]; omega

end Command

/-- What the words of a command line ask for; none if they are no command line. -/
def Invocation.ofWords? (words : List String) : Option Invocation :=
  match Command.invocationAfter [] words with
  | .ok invocation => some invocation
  | .error .help => some .help
  | .error .version => some .version
  | .error .usage => none

end Specimen
