import Tuning.Json.Reader

/-! # Raw fields

The fields of an object with the texts of their values, for a reader that hands a value on unread. -/

namespace Tuning.Json

/-- The characters in front of a rest. -/
def textBefore (cs rest : List Char) : String :=
  String.ofList (cs.take (cs.length - rest.length))

/-- Reads the fields of an object up to its end; the fields read so far are kept in reverse. -/
def rawFieldsFrom? :
    (fuel : Nat) → (done : List (String × String)) → List Char → Option (List (String × String))
  | 0, _, _ => none
  | fuel + 1, done, cs =>
    match skipBlanks cs with
    | '"' :: rest =>
      match stringTail none [] rest with
      | none => none
      | some (name, rest) =>
        match skipBlanks rest with
        | ':' :: rest =>
          let start := skipBlanks rest
          match first? start with
          | none => none
          | some (_, rest) =>
            let done := (String.ofList name, textBefore start rest) :: done
            match skipBlanks rest with
            | ',' :: rest => rawFieldsFrom? fuel done rest
            | '\x7d' :: _ => some done.reverse
            | _ => none
        | _ => none
    | _ => none

/-- The names and the texts of the fields of the object that a text begins with. -/
def rawFields? (cs : List Char) : Option (List (String × String)) :=
  match skipBlanks cs with
  | '\x7b' :: rest =>
    match skipBlanks rest with
    | '\x7d' :: _ => some []
    | rest => rawFieldsFrom? rest.length [] rest
  | _ => none

end Tuning.Json
