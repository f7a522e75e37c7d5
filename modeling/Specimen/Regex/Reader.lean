import Specimen.Blank
import Specimen.Letters
import Specimen.Radix
import Specimen.Regex.Basic
import Specimen.Taken

/-!
# Reading regular expressions

`Regex.read?` reads a text as a regular expression. A text whose groups are spaced
(`RegexFlag.spaced`) may have blanks and comments between its parts; a group that ends takes the
spacing that was set inside it back.

An expression is read for a place in which a closing brace ends it, so no form with braces can be
complete: a repetition with counts, a code point in braces and a property of characters are refused
at their start.
-/

namespace Specimen

namespace Regex

/-! ## Spacing -/

/-- Drops blanks and comments; `inComment` tells whether a comment is open. -/
def dropSpacing : (inComment : Bool) → List Char → List Char
  | _, [] => []
  | true, c :: rest => if c = '\n' then dropSpacing false rest else dropSpacing true rest
  | false, c :: rest =>
      if isBlank c then dropSpacing false rest
      else if c = '#' then dropSpacing true rest
      else c :: rest

theorem length_dropSpacing_le (inComment : Bool) (input : List Char) :
    (dropSpacing inComment input).length ≤ input.length := by
  fun_induction dropSpacing inComment input with
  | case1 => exact Nat.le_refl _
  | case2 rest ih => exact Nat.le_succ_of_le ih
  | case3 c rest _ ih => exact Nat.le_succ_of_le ih
  | case4 c rest _ ih => exact Nat.le_succ_of_le ih
  | case5 rest _ ih => exact Nat.le_succ_of_le ih
  | case6 c rest _ _ => exact Nat.le_refl _

/-- Drops what means nothing. -/
def skipSpacing (spaced : Bool) (input : List Char) : List Char :=
  if spaced then dropSpacing false input else input

theorem length_skipSpacing_le (spaced : Bool) (input : List Char) :
    (skipSpacing spaced input).length ≤ input.length := by
  unfold skipSpacing
  split
  · exact length_dropSpacing_le false input
  · exact Nat.le_refl _

/-- The character that is looked at to tell what a dash means. Of a comment no more than its mark
is passed over. -/
def nextAfterDash? (spaced : Bool) (input : List Char) : Option Char :=
  if spaced then
    match input.dropWhile isBlank with
    | '#' :: rest => (rest.dropWhile isBlank).head?
    | rest => rest.head?
  else input.head?

/-! ## Single characters -/

/-- The characters that have a meaning of their own somewhere in an expression. -/
def metaChars : List Char :=
  ['\\', '.', '+', '*', '?', '(', ')', '|', '[', ']', '\x7b', '\x7d', '^', '$', '#', '&', '-', '~']

/-- The character stands for itself behind a backslash. -/
def isEscapable (c : Char) : Bool :=
  metaChars.contains c
    || (decide (c.toNat < 128) && !c.isAlphanum && c != '<' && c != '>')

/-- The control character of a letter behind a backslash. -/
def controlOf? : Char → Option Char
  | 'a' => some '\x07'
  | 'f' => some '\x0c'
  | 't' => some '\t'
  | 'n' => some '\n'
  | 'r' => some '\r'
  | 'v' => some '\x0b'
  | _ => none

/-- The number of hexadecimal digits after a letter behind a backslash. -/
def digitCount? : Char → Option Nat
  | 'x' => some 2
  | 'u' => some 4
  | 'U' => some 8
  | _ => none

/-- A number of `more + 1` hexadecimal digits, which goes on from `value`. -/
def hexNumber? (spaced : Bool) : (more value : Nat) → (input : List Char) → Option (Taken input Nat)
  | more, value, input =>
      match h : skipSpacing spaced input with
      | [] => none
      | c :: rest =>
          match Radix.digit? 16 c with
          | none => none
          | some digit =>
              have shorter := length_lt_of_skipping (length_skipSpacing_le spaced) h
              match more with
              | 0 => some ⟨value * 16 + digit, rest, shorter⟩
              | more + 1 =>
                  (hexNumber? spaced more (value * 16 + digit) rest).map (·.inside shorter)

/-- A code point in hexadecimal digits. -/
def hexLiteral? (spaced : Bool) (count : Nat) (input : List Char) : Option (Taken input Regex) :=
  match hexNumber? spaced (count - 1) 0 input with
  | none => none
  | some number =>
      (Radix.character? number.value).map fun c => number.map fun _ => .one ⟨c, count == 2⟩

/-- What a letter behind a backslash stands for that is no character. -/
def classOrPlace? : Char → Option Regex
  | 'd' | 's' | 'w' => some (.shorthand false)
  | 'D' | 'S' | 'W' => some (.shorthand true)
  | 'A' | 'z' => some .edge
  | 'b' | 'B' | '<' | '>' => some .boundary
  | _ => none

/-- What stands behind a backslash. -/
def escape? (spaced : Bool) : (input : List Char) → Option (Taken input Regex)
  | [] => none
  | c :: rest =>
      match digitCount? c with
      | some count => (hexLiteral? spaced count rest).map (·.behind c)
      | none =>
          if isEscapable c then some (.one c rest (.one ⟨c, false⟩))
          else
            match controlOf? c, classOrPlace? c with
            | some meant, _ => some (.one c rest (.one ⟨meant, false⟩))
            | none, some meant =>
                if c = 'b' ∧ rest.head? = some '\x7b' then none else some (.one c rest meant)
            | none, none => none

/-! ## Classes -/

/-- A class whose end has not been read. -/
structure OpenClass where
  negated : Bool
  /-- What stands before the last operator. -/
  left : Option CharClass
  /-- What stands after it, the last item first. -/
  items : List CharClass

namespace OpenClass

/-- With one item more. -/
def push (current : OpenClass) (item : CharClass) : OpenClass :=
  { current with items := item :: current.items }

/-- What has been read of the class. -/
def content (current : OpenClass) : CharClass :=
  match current.left with
  | none => .union current.items.reverse
  | some left => .operation left (.union current.items.reverse)

/-- Behind an operator. -/
def operated (current : OpenClass) : OpenClass :=
  { current with left := some current.content, items := [] }

end OpenClass

/-- The dashes at the start of a class, which stand for themselves. -/
def leadingDashes (spaced : Bool) (input : List Char) : List CharClass × Remaining input :=
  match h : skipSpacing spaced input with
  | '-' :: rest =>
      have shorter := length_lt_of_skipping (length_skipSpacing_le spaced) h
      let (items, remaining) := leadingDashes spaced rest
      (.one ⟨'-', false⟩ :: items,
        ⟨remaining.val, Nat.le_of_lt (Nat.lt_of_le_of_lt remaining.property shorter)⟩)
  | _ => ([], .all input)
termination_by input.length
decreasing_by exact length_lt_of_skipping (length_skipSpacing_le spaced) h

/-- The mark of a class that is the opposite of what it lists. -/
def negation (spaced : Bool) (input : List Char) : Bool × Remaining input :=
  match h : skipSpacing spaced input with
  | '^' :: rest =>
      (true, ⟨rest, Nat.le_of_lt (length_lt_of_skipping (length_skipSpacing_le spaced) h)⟩)
  | _ => (false, .all input)

/-- A closing bracket at the start of a class, which stands for itself. -/
def leadingBracket (spaced : Bool) (input : List Char) : List CharClass × Remaining input :=
  match h : skipSpacing spaced input with
  | ']' :: rest =>
      ([.one ⟨']', false⟩],
        ⟨rest, Nat.le_of_lt (length_lt_of_skipping (length_skipSpacing_le spaced) h)⟩)
  | _ => ([], .all input)

/-- The start of a class behind its opening bracket. -/
def openClass (spaced : Bool) (input : List Char) : OpenClass × Remaining input :=
  let (negated, behindSign) := negation spaced input
  let (dashes, behindDashes) := leadingDashes spaced behindSign.val
  if dashes.isEmpty then
    let (bracket, behindBracket) := leadingBracket spaced behindDashes.val
    (⟨negated, none, bracket⟩, behindSign.andThen (behindDashes.andThen behindBracket))
  else (⟨negated, none, dashes⟩, behindSign.andThen behindDashes)

/-- The names of classes of ASCII. -/
def classNames : List String :=
  ["alnum", "alpha", "ascii", "blank", "cntrl", "digit", "graph", "lower", "print", "punct",
    "space", "upper", "word", "xdigit"]

/-- The rest of a named class behind its opening bracket: colons around a name, and a bracket. -/
def namedClass? (input : List Char) : Option (Bool × Remaining input) :=
  match input with
  | ':' :: '^' :: rest => named true rest (Nat.le_succ_of_le (Nat.le_succ _))
  | ':' :: rest => named false rest (Nat.le_succ _)
  | _ => none
where
  /-- The rest behind the mark of the opposite. -/
  named {input : List Char} (negated : Bool) (rest : List Char)
      (h : rest.length ≤ input.length) : Option (Bool × Remaining input) :=
    let name := rest.takeWhile (· != ':')
    if classNames.contains (String.ofList name) && (rest.drop name.length).take 2 == [':', ']'] then
      some (negated, ⟨rest.drop (name.length + 2),
        Nat.le_trans (List.length_drop ▸ Nat.sub_le _ _) h⟩)
    else none

/-- One character or shorthand in a class. -/
def classAtom? (spaced : Bool) : (input : List Char) → Option (Taken input Regex)
  | [] => none
  | c :: rest =>
      if c = '\\' then (escape? spaced rest).map (·.behind c)
      else some (.one c rest (.one ⟨c, false⟩))

/-- An atom as an item of a class; a place is none. -/
def classItem? : Regex → Option CharClass
  | .one literal => some (.one literal)
  | .shorthand negated => some (.shorthand negated)
  | _ => none

/-- Two atoms as the ends of a range. -/
def classRange? : Regex → Regex → Option CharClass
  | .one first, .one last =>
      if first.char.toNat ≤ last.char.toNat then some (.range first last) else none
  | _, _ => none

/-- An item of a class: an atom, or two with a dash between them. -/
def classPart? (spaced : Bool) (input : List Char) : Option (Taken input CharClass) :=
  match classAtom? spaced input with
  | none => none
  | some first =>
      match h : skipSpacing spaced first.rest with
      | '-' :: rest =>
          let next? := nextAfterDash? spaced rest
          if next? = some ']' ∨ next? = some '-' then
            (classItem? first.value).map fun item => first.map fun _ => item
          else
            match classAtom? spaced (skipSpacing spaced rest) with
            | none => none
            | some last =>
                (classRange? first.value last.value).map fun item =>
                  (last.map fun _ => item).inside (Nat.lt_of_le_of_lt
                    (length_skipSpacing_le spaced rest)
                    (first.length_lt_of_skipping (length_skipSpacing_le spaced) h))
      | _ => (classItem? first.value).map fun item => first.map fun _ => item

/-- The rest of a class; `outer` are the classes around it, the innermost first. -/
def classTail? (spaced : Bool) (outer : List OpenClass) (current : OpenClass) (input : List Char) :
    Option (Taken input Regex) :=
  match h : skipSpacing spaced input with
  | [] => none
  | c :: rest =>
      have shorter : rest.length < input.length :=
        length_lt_of_skipping (length_skipSpacing_le spaced) h
      if c = ']' then
        match outer with
        | [] => some ⟨.charClass current.negated current.content, rest, shorter⟩
        | parent :: outer =>
            (classTail? spaced outer (parent.push (.nested current.negated current.content))
              rest).map (·.inside shorter)
      else if c = '[' then
        match namedClass? rest with
        | some (negated, behind) =>
            have shorter := Nat.lt_of_le_of_lt behind.property shorter
            (classTail? spaced outer (current.push (.named negated)) behind.val).map
              (·.inside shorter)
        | none =>
            have shorter := Nat.lt_of_le_of_lt (openClass spaced rest).2.property shorter
            (classTail? spaced (current :: outer) (openClass spaced rest).1
              (openClass spaced rest).2.val).map (·.inside shorter)
      else if (c = '&' ∨ c = '-' ∨ c = '~') ∧ rest.head? = some c then
        have shorter := Nat.lt_of_le_of_lt (List.length_drop ▸ Nat.sub_le rest.length 1) shorter
        (classTail? spaced outer current.operated (rest.drop 1)).map (·.inside shorter)
      else
        match classPart? spaced (c :: rest) with
        | none => none
        | some part =>
            have shorter := Nat.lt_of_lt_of_le part.shorter
              (length_le_of_skipping (length_skipSpacing_le spaced) h)
            (classTail? spaced outer (current.push part.value) part.rest).map (·.inside shorter)
termination_by input.length
decreasing_by all_goals exact shorter

/-- A class behind its opening bracket. -/
def class? (spaced : Bool) (input : List Char) : Option (Taken input Regex) :=
  let (current, behind) := openClass spaced input
  (classTail? spaced [] current behind.val).map (·.widen behind.property)

/-! ## Groups -/

/-- What an opening parenthesis begins. -/
inductive GroupHead where
  /-- A group, perhaps with a name. -/
  | opened (change : FlagChange) (name : Option String)
  /-- A change of flags for the rest of the group around it; this is complete. -/
  | complete (change : FlagChange)

/-- Flags up to what ends them. `clearing` tells whether the mark of clearing has been read, and
`dangling` whether it was the last thing read. -/
def flagsTail? (change : FlagChange) (clearing dangling : Bool) :
    (input : List Char) → Option (GroupHead × Remaining input)
  | [] => none
  | c :: rest =>
      if c = ':' then
        if dangling then none else some (.opened change none, .tail c rest)
      else if c = ')' then
        if dangling || change == .nothing then none else some (.complete change, .tail c rest)
      else if c = '-' then
        if clearing then none
        else (flagsTail? change true true rest).map fun (head, behind) => (head, step c behind)
      else
        match RegexFlag.ofLetter? c with
        | none => none
        | some flag =>
            if change.names flag then none
            else
              let change :=
                if clearing then { change with cleared := flag :: change.cleared }
                else { change with set := flag :: change.set }
              (flagsTail? change clearing false rest).map fun (head, behind) =>
                (head, step c behind)
where
  /-- What remains behind one character more. -/
  step {rest : List Char} (c : Char) (behind : Remaining rest) : Remaining (c :: rest) :=
    ⟨behind.val, Nat.le_succ_of_le behind.property⟩

/-- The character can stand at the start of the name of a group. -/
def startsName (c : Char) : Bool :=
  c == '_' || isLetter c

/-- The character can stand further on in the name of a group. -/
def continuesName (c : Char) : Bool :=
  c == '_' || c == '.' || c == '[' || c == ']' || isLetterOrNumber c

/-- The text is the name of a group. -/
def isGroupName : List Char → Bool
  | [] => false
  | c :: rest => startsName c && rest.all continuesName

/-- The name of a group up to its closing angle bracket. No two groups have the same name. -/
def groupName? (names : List String) (input : List Char) : Option (GroupHead × Remaining input) :=
  let name := input.takeWhile (· != '>')
  let text := String.ofList name
  if isGroupName name && !names.contains text && name.length < input.length then
    some (.opened .nothing (some text),
      ⟨input.drop (name.length + 1), List.length_drop ▸ Nat.sub_le _ _⟩)
  else none

/-- What an opening parenthesis begins, read behind it. -/
def groupHead? (names : List String) (input : List Char) : Option (GroupHead × Remaining input) :=
  match input with
  | '?' :: 'P' :: '<' :: rest =>
      (groupName? names rest).map fun (head, behind) =>
        (head, ⟨behind.val, Nat.le_trans behind.property (Nat.le_add_right rest.length 3)⟩)
  | '?' :: '<' :: rest =>
      (groupName? names rest).map fun (head, behind) =>
        (head, ⟨behind.val, Nat.le_trans behind.property (Nat.le_add_right rest.length 2)⟩)
  | '?' :: rest =>
      (flagsTail? .nothing false false rest).map fun (head, behind) =>
        (head, ⟨behind.val, Nat.le_trans behind.property (Nat.le_add_right rest.length 1)⟩)
  | rest => some (.opened .nothing none, .all rest)

/-! ## Expressions -/

/-- A group whose end has not been read. -/
structure OpenGroup where
  spaced : Bool
  /-- The alternatives before this one, the last first. -/
  alternatives : List Regex
  /-- What has been read of this alternative, the last item first. -/
  items : List Regex

namespace OpenGroup

/-- A group of which nothing has been read. -/
def start (spaced : Bool) : OpenGroup := ⟨spaced, [], []⟩

/-- With one item more. -/
def push (current : OpenGroup) (item : Regex) : OpenGroup :=
  { current with items := item :: current.items }

/-- With other flags from here on. -/
def changed (current : OpenGroup) (change : FlagChange) : OpenGroup :=
  { current.push (.flags change) with spaced := change.apply .spaced current.spaced }

/-- At the start of another alternative. -/
def alternated (current : OpenGroup) : OpenGroup :=
  ⟨current.spaced, .sequence current.items.reverse :: current.alternatives, []⟩

/-- With the last item repeated. There has to be one, and a change of flags cannot be repeated. -/
def repeated? (current : OpenGroup) : Option OpenGroup :=
  match current.items with
  | [] => none
  | .flags _ :: _ => none
  | item :: items => some { current with items := .repeated item :: items }

/-- What has been read of the group. -/
def content (current : OpenGroup) : Regex :=
  .choice (current.alternated.alternatives.reverse)

end OpenGroup

/-- What follows the sign of a repetition: a question mark belongs to it. -/
def afterRepetition (input : List Char) : List Char :=
  match input with
  | '?' :: rest => rest
  | rest => rest

theorem length_afterRepetition_le (input : List Char) :
    (afterRepetition input).length ≤ input.length := by
  unfold afterRepetition
  split
  · exact Nat.le_succ _
  · exact Nat.le_refl _

/-- A part of an expression that is neither a group nor a repetition. -/
def atom? (spaced : Bool) : (input : List Char) → Option (Taken input Regex)
  | [] => none
  | c :: rest =>
      if c = '[' then (class? spaced rest).map (·.behind c)
      else if c = '\\' then (escape? spaced rest).map (·.behind c)
      else if c = '.' then some (.one c rest .any)
      else if c = '^' ∨ c = '$' then some (.one c rest .edge)
      else if c = '\x7b' then none
      else some (.one c rest (.one ⟨c, false⟩))

/-- The expression of the rest of a text; `outer` are the groups around it with their changes of
flags, the innermost first, and `names` the names of groups that have been used. -/
def readTail? (outer : List (OpenGroup × FlagChange)) (names : List String) (current : OpenGroup)
    (input : List Char) : Option Regex :=
  match h : skipSpacing current.spaced input with
  | [] => if outer.isEmpty then some current.content else none
  | c :: rest =>
      have shorter : rest.length < input.length :=
        length_lt_of_skipping (length_skipSpacing_le current.spaced) h
      if c = '(' then
        have shorter := Nat.lt_of_le_of_lt (length_skipSpacing_le current.spaced rest) shorter
        match groupHead? names (skipSpacing current.spaced rest) with
        | none => none
        | some (.opened change name, behind) =>
            have _ := Nat.lt_of_le_of_lt behind.property shorter
            readTail? ((current, change) :: outer) (name.toList ++ names)
              (.start (change.apply .spaced current.spaced)) behind.val
        | some (.complete change, behind) =>
            have _ := Nat.lt_of_le_of_lt behind.property shorter
            readTail? outer names (current.changed change) behind.val
      else if c = ')' then
        match outer with
        | [] => none
        | (parent, change) :: outer =>
            readTail? outer names (parent.push (.group change current.content)) rest
      else if c = '|' then readTail? outer names current.alternated rest
      else if c = '?' ∨ c = '*' ∨ c = '+' then
        have _ := Nat.lt_of_le_of_lt (length_afterRepetition_le rest) shorter
        match current.repeated? with
        | none => none
        | some current => readTail? outer names current (afterRepetition rest)
      else
        match atom? current.spaced (c :: rest) with
        | none => none
        | some atom =>
            have _ := Nat.lt_of_lt_of_le atom.shorter
              (length_le_of_skipping (length_skipSpacing_le current.spaced) h)
            readTail? outer names (current.push atom.value) atom.rest
termination_by input.length
decreasing_by all_goals assumption

/-- The expression of a text. -/
def read? (text : List Char) : Option Regex :=
  readTail? [] [] (.start false) text

/-- The text is a regular expression that can be used. -/
def isRegex (text : List Char) : Bool :=
  (read? text).any isUsable

end Regex

end Specimen
