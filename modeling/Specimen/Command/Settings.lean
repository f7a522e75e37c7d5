import Specimen.Toml.Reader

/-!
# Settings

What a settings file may set: one entry a setting, and a default for every setting that is left
out. `Settings.ofText` refuses a text that is not written as settings are, a name that is no
setting, and a value of the wrong kind.
-/

namespace Specimen

/-- How log lines are written. -/
inductive LogFormat where
  | text
  | json
deriving DecidableEq, Repr

/-- The format of a name. -/
def LogFormat.ofName? : String → Option LogFormat
  | "text" => some .text
  | "json" => some .json
  | _ => none

/-- What can be set for all runs. -/
structure Settings where
  /-- The seed of the random words. -/
  seed : Option UInt64
  /-- How many samples are generated. -/
  count : Nat
  /-- The output is laid out over several lines. -/
  pretty : Bool
  logFilter : String
  logFormat : LogFormat
  /-- The file with the options for fields. -/
  options : Option String
deriving DecidableEq, Repr

/-- What is wrong with a settings file. -/
inductive SettingsFault where
  | malformed
  | unknownKey (key : String)
  | invalidValue (key : String)
deriving DecidableEq, Repr

/-- The wording of a fault. -/
def SettingsFault.text : SettingsFault → String
  | .malformed => "malformed settings"
  | .unknownKey key => "unknown key '" ++ key ++ "'"
  | .invalidValue key => "invalid value for key '" ++ key ++ "'"

namespace Settings

/-- The settings without a settings file. -/
def standard : Settings :=
  { seed := none, count := 1, pretty := false, logFilter := "info", logFormat := .text,
    options := none }

/-- An integer that is not negative. -/
def natural? : Toml → Option Nat
  | .integer n => if 0 ≤ n then some n.toNat else none
  | _ => none

/-- A truth value. -/
def truth? : Toml → Option Bool
  | .boolean b => some b
  | _ => none

/-- A text. -/
def text? : Toml → Option String
  | .string text => some text
  | _ => none

/-- A log format: its name, or a table in which the name has an empty value. -/
def logFormat? : Toml → Option LogFormat
  | .string name => LogFormat.ofName? name
  | .table _ [(name, value)] => if value.isEmpty then LogFormat.ofName? name else none
  | _ => none

/-- The settings with another value of a setting; none if the value is of the wrong kind, and none
at all if there is no such setting. -/
def assign? (settings : Settings) (key : String) (value : Toml) : Option (Option Settings) :=
  match key with
  | "seed" => some ((natural? value).map fun n => { settings with seed := some (UInt64.ofNat n) })
  | "count" => some ((natural? value).map fun n => { settings with count := n })
  | "pretty" => some ((truth? value).map fun b => { settings with pretty := b })
  | "log_level" => some ((text? value).map fun t => { settings with logFilter := t })
  | "log_format" => some ((logFormat? value).map fun f => { settings with logFormat := f })
  | "options" => some ((text? value).map fun t => { settings with options := some t })
  | _ => none

/-- The settings of the entries of a settings file. -/
def ofEntries (settings : Settings) : List (String × Toml) → Except SettingsFault Settings
  | [] => .ok settings
  | (key, value) :: entries =>
      match settings.assign? key value with
      | none => .error (.unknownKey key)
      | some none => .error (.invalidValue key)
      | some (some settings) => ofEntries settings entries

/-- The settings of a settings file. -/
def ofText (text : String) : Except SettingsFault Settings :=
  match Toml.read? text with
  | none => .error .malformed
  | some entries => ofEntries standard entries

end Settings

end Specimen
