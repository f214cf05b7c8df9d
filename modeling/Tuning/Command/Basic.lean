import Tuning.Command.Console
import Tuning.Command.Settings

/-! # Commands

A command stands below the words that lead to it. Its help tells how it is called and which flags it
knows. -/

namespace Tuning

/-- What a command does with its settings and words. -/
inductive Action where
  /-- Only holds other commands. -/
  | hold
  | perform (action : Settings → List String → Console Unit)
  /-- Shows the help of the command that the words lead to. -/
  | explain

/-- A command. -/
structure Command where
  /-- The words that lead to it. -/
  path : List String
  /-- What it is for, in a line. -/
  summary : String
  /-- What it is for, if a line does not tell. -/
  description : String := ""
  /-- How its words are called. -/
  operands : String := ""
  flags : List (Flag Settings) := []
  /-- The names of the flags that have to be set. -/
  required : List String := []
  /-- The number of words, if it matters. -/
  count : Option Nat := none
  action : Action := .hold

namespace Command

/-- The name of a command, where the one that holds all others is named like the program. -/
def name (c : Command) : String :=
  c.path.getLast?.getD "opevo"

/-- The flags of a command with those of all commands. -/
def knownFlags (c : Command) : List (Flag Settings) :=
  c.flags ++ Settings.shared

/-- The flags of a command with those of all commands and the one that asks for help. -/
def allFlags (c : Command) : List (Flag Settings) :=
  c.knownFlags ++ [Settings.helpFlag c.name]

/-- The line by which a command is called. -/
def callLine (c : Command) : String :=
  " ".intercalate ("opevo" :: c.path)

/-- A heading and lines below it; nothing without lines. -/
def titled (heading : String) (lines : List String) : String :=
  if lines.isEmpty then "" else "\n\n" ++ heading ++ String.join (lines.map ("\n" ++ ·))

/-- How a command is used, given the commands below it. -/
def usage (c : Command) (below : List Command) : String :=
  let called := match c.action with
    | .hold => ""
    | _ => "\n  " ++ c.callLine ++ (if c.operands = "" then "" else " " ++ c.operands) ++ " [flags]"
  let held := if below.isEmpty then "" else "\n  " ++ c.callLine ++ " [command]"
  let names := (below.mergeSort fun d e => d.name ≤ e.name).map fun d =>
    "  " ++ d.name.pushn ' ' (12 - d.name.length) ++ d.summary
  let isRoot := c.path.isEmpty
  let help := Settings.helpFlag c.name
  "Usage:" ++ called ++ held
    ++ titled "Available Commands:" names
    ++ titled "Flags:" (Flag.lines (if isRoot then help :: Settings.shared else help :: c.flags) {})
    ++ titled "Global Flags:" (if isRoot then [] else Flag.lines Settings.shared {})
    ++ (if below.isEmpty then ""
      else "\n\nUse \"" ++ c.callLine ++ " [command] --help\" for more information about a command.")
    ++ "\n"

/-- The help of a command, given the commands below it. -/
def help (c : Command) (below : List Command) : String :=
  (if c.description = "" then c.summary else c.description) ++ "\n\n" ++ c.usage below

end Command

end Tuning
