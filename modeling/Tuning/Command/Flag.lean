import Tuning.Decimal.Literal
import Tuning.Decimal.Text
import Tuning.Text.Plain
import Tuning.Text.Quoted
import Tuning.Time.Duration

/-! # Flags

A flag is an argument of a command line with a name. It changes a record of settings by its value,
which follows it or stands behind an equals sign. A switch needs no value. -/

namespace Tuning

/-- A flag for settings. -/
structure Flag (σ : Type) where
  name : String
  /-- The letter that stands for the name. -/
  letter : Option Char := none
  /-- Whether the flag alone means true. -/
  isSwitch : Bool := false
  /-- Takes in a value, or tells what is wrong with it. -/
  set : String → σ → Except String σ
  /-- What the flag is for. -/
  help : String := ""
  /-- What a value of the flag is called; a switch needs no value. -/
  valueName : String := ""
  /-- The value in settings as the help shows it; zero and the empty text are not shown. -/
  shown : σ → String := fun _ => ""

/-- Why flags are not understood. -/
inductive FlagError where
  | badForm (argument : String)
  | unknown (name : String)
  /-- A group of letters begins with one that is no flag. -/
  | unknownLetter (letter : Char) (group : String)
  | noValue (name : String)
  | badValue (value flag reason : String)
  deriving DecidableEq, Repr

/-- The words for flags that are not understood. -/
def FlagError.message : FlagError → String
  | badForm argument => "bad flag syntax: " ++ argument
  | unknown name => "unknown flag: --" ++ name
  | unknownLetter letter group => "unknown shorthand flag: " ++ Text.quotedChar letter ++ " in -" ++ group
  | noValue name => "flag needs an argument: --" ++ name
  | badValue value flag reason =>
    "invalid argument " ++ Text.quoted value ++ " for " ++ Text.quoted flag ++ " flag: " ++ reason

namespace Flag

variable {σ : Type}

/-- What is wrong with the text of a number. -/
def numberReason (reader text : String) (fault : LiteralFault) : String :=
  "strconv." ++ reader ++ ": parsing " ++ Text.quoted text ++ ": " ++ fault.message

/-- What is wrong with the text of a duration. -/
def durationReason (text : String) : DurationFault → String
  | .malformed => "time: invalid duration " ++ Text.plainQuoted text
  | .noUnit => "time: missing unit in duration " ++ Text.plainQuoted text
  | .unknownUnit name =>
    "time: unknown unit " ++ Text.plainQuoted name ++ " in duration " ++ Text.plainQuoted text

/-- The texts of truth values. -/
def truth? (text : String) : Option Bool :=
  if ["1", "t", "T", "true", "TRUE", "True"].contains text then some true
  else if ["0", "f", "F", "false", "FALSE", "False"].contains text then some false
  else none

/-- A flag with any text as its value. -/
def text (name help : String) (get : σ → String) (put : String → σ → σ) : Flag σ :=
  { name, help, valueName := "string"
    shown := fun s => if get s = "" then "" else Text.quoted (get s)
    set := fun value s => .ok (put value s) }

/-- A flag with a whole number as its value. -/
def word (name help : String) (get : σ → Int64) (put : Int64 → σ → σ) : Flag σ :=
  { name, help, valueName := "int"
    shown := fun s => if get s = 0 then "" else toString (get s).toInt
    set := fun value s => match Literal.word value with
      | .ok n => .ok (put n s)
      | .error fault => .error (numberReason "ParseInt" value fault) }

/-- A flag with a number as its value. -/
def float (name help : String) (get : σ → Float) (put : Float → σ → σ) : Flag σ :=
  { name, help, valueName := "float"
    shown := fun s => if get s == 0 then "" else messageNumber (get s)
    set := fun value s => match Literal.float value with
      | .ok x => .ok (put x s)
      | .error fault => .error (numberReason "ParseFloat" value fault) }

/-- A flag with a duration as its value. -/
def duration (name help : String) (get : σ → Duration) (put : Duration → σ → σ) : Flag σ :=
  { name, help, valueName := "duration"
    shown := fun s => if (get s).nanoseconds = 0 then "" else (get s).toText
    set := fun value s => match Duration.parse value with
      | .ok d => .ok (put d s)
      | .error fault => .error (durationReason value fault) }

/-- A flag that is on or off. -/
def switch (name help : String) (letter : Option Char) (put : Bool → σ → σ) : Flag σ :=
  { name, help, letter, isSwitch := true
    set := fun value s => match truth? value with
      | some b => .ok (put b s)
      | none => .error (numberReason "ParseBool" value .malformed) }

/-- How a flag is called in messages. -/
def label (f : Flag σ) : String :=
  match f.letter with
  | some c => "-" ++ c.toString ++ ", --" ++ f.name
  | none => "--" ++ f.name

/-- How a flag is written in the help. -/
def heading (f : Flag σ) : String :=
  (if f.letter.isSome then "  " else "      ") ++ f.label
    ++ (if f.valueName = "" then "" else " " ++ f.valueName)

/-- What the help says on a flag, given the settings without flags. -/
def explanation (f : Flag σ) (standard : σ) : String :=
  let value := f.shown standard
  f.help ++ (if value = "" then "" else " (default " ++ value ++ ")")

/-- The lines of the help on flags, by name. -/
def lines (flags : List (Flag σ)) (standard : σ) : List String :=
  let width := flags.foldl (fun n f => max n f.heading.length) 0
  (flags.mergeSort fun f g => f.name ≤ g.name).map fun f =>
    f.heading.pushn ' ' (width + 3 - f.heading.length) ++ f.explanation standard

end Flag

/-- What a command line has led to. -/
structure Parsed (σ : Type) where
  settings : σ
  /-- The names of the flags that were set. -/
  seen : List String := []
  /-- The arguments that are no flags, in reverse. -/
  words : List String := []

namespace Parsed

variable {σ : Type}

/-- Takes in the value of a flag. -/
def assign (p : Parsed σ) (f : Flag σ) (value : String) : Except FlagError (Parsed σ) :=
  match f.set value p.settings with
  | .ok settings => .ok { p with settings, seen := f.name :: p.seen }
  | .error reason => .error (.badValue value f.label reason)

/-- A letter in a message; the letters beyond ASCII all look the same there. -/
def shownLetter (c : Char) : Char :=
  if c.toNat < 128 then c else 'Ã'

/-- Takes in a group of letters that stand for switches. What is meant for a test bench is passed
over. -/
def letters (flags : List (Flag σ)) : List Char → Parsed σ → Except FlagError (Parsed σ)
  | [], p | 't' :: 'e' :: 's' :: 't' :: '.' :: _, p => .ok p
  | c :: rest, p =>
    match flags.find? (·.letter = some c) with
    | none => .error (.unknownLetter (shownLetter c) (String.ofList (c :: rest)))
    | some f =>
      match rest with
      | '=' :: d :: value => p.assign f (String.ofList (d :: value))
      | _ => (p.assign f "true").bind (letters flags rest)

/-- The name and the value of `name=value`. -/
def splitValue (cs : List Char) : String × Option String :=
  let name := String.ofList (cs.takeWhile (· ≠ '='))
  match cs.dropWhile (· ≠ '=') with
  | _ :: value => (name, some (String.ofList value))
  | [] => (name, none)

/-- Takes in arguments one after another. Two dashes alone end the flags. -/
def arguments (flags : List (Flag σ)) : List String → Parsed σ → Except FlagError (Parsed σ)
  | [], p => .ok p
  | argument :: rest, p =>
    match argument.toList with
    | ['-', '-'] => .ok { p with words := rest.reverse ++ p.words }
    | '-' :: '-' :: '-' :: _ | '-' :: '-' :: '=' :: _ => .error (.badForm argument)
    | '-' :: '-' :: cs =>
      let (name, value) := splitValue cs
      match flags.find? (·.name = name) with
      | none => .error (.unknown name)
      | some f =>
        match value with
        | some value =>
          match p.assign f value with
          | .ok p => arguments flags rest p
          | .error error => .error error
        | none =>
          if f.isSwitch then
            match p.assign f "true" with
            | .ok p => arguments flags rest p
            | .error error => .error error
          else
            match rest with
            | [] => .error (.noValue name)
            | value :: rest =>
              match p.assign f value with
              | .ok p => arguments flags rest p
              | .error error => .error error
    | '-' :: c :: cs =>
      match letters flags (c :: cs) p with
      | .ok p => arguments flags rest p
      | .error error => .error error
    | _ => arguments flags rest { p with words := argument :: p.words }

end Parsed

end Tuning
