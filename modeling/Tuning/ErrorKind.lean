import Tuning.Baseline.Basic
import Tuning.Objective.Registry
import Tuning.Session.Run
import Tuning.Space.Document

/-! # Kinds of errors

Every part of the library has errors of its own. A caller that only has to react to an error, such as
a front end, sorts it by its kind. An error that wraps another one has the kind of the wrapped error. -/

namespace Tuning

/-- What an error is about. -/
inductive ErrorKind where
  | unsupportedKind
  | invalidParameter
  /-- There is no session of the wanted name. -/
  | notFound
  | invalidReport
  | missingParameter
  | invalidConfig
  /-- Every candidate has been recorded. -/
  | exhausted
  /-- The work was told to end, or ran out of time. -/
  | ended (ending : Ending)
  /-- A YAML text could not be read. -/
  | yaml
  /-- A JSON text could not be read or written. -/
  | json
  /-- The file system refused, or the network did. -/
  | system
  /-- The work broke down. -/
  | breakdown
  | other
  deriving DecidableEq, Repr

/-- Errors with a kind and words. -/
class Explained (ε : Type) where
  kind : ε → ErrorKind
  message : ε → String

/-- The kind of an error. -/
def errorKind {ε : Type} [Explained ε] (e : ε) : ErrorKind :=
  Explained.kind e

instance : Explained ParameterError where
  kind
    | .unsupportedKind .. => .unsupportedKind
    | .invalid .. => .invalidParameter
    | .tooManySlots .. => .breakdown
  message e := e.message

/-- A fault of a domain that belongs to no named parameter. -/
instance : Explained DomainFault where
  kind
    | .tooManySlots _ => .breakdown
    | _ => .invalidParameter
  message e := (ParameterError.invalid "" e.message).message

instance : Explained SpaceFault where
  kind _ := .other
  message e := e.message

instance : Explained SpaceError where
  kind
    | .malformed | .undecodable _ | .undecodableField .. => .yaml
    | .unhashable => .breakdown
    | .parameter e => errorKind e
    | .notMapping _ | .fault _ => .other
  message e := e.message

instance : Explained RequestedSpaceError where
  kind
    | .badString => .json
    | .invalid e => errorKind e
    | .missing => .other
  message e := e.message

instance : Explained PopulationError where
  kind
    | .parameter e => errorKind e
    | _ => .other
  message e := e.message

instance : Explained BreedError where
  kind
    | .exhausted .. => .exhausted
    | .seed e => errorKind e
    | .tooMany _ => .breakdown
    | .sizes .. => .other
  message e := e.message

instance : Explained UnknownMode where
  kind _ := .other
  message e := e.message

instance : Explained UnknownObjective where
  kind _ := .other
  message e := e.message

instance : Explained EncodeError where
  kind
    | .notFinite _ | .unsupported _ => .other
    | .timeRange | .tooDeep => .json
  message e := e.message

instance : Explained Failure where
  kind
    | .missingParameter .. => .missingParameter
    | .ended ending => .ended ending
    | .unencodable e => errorKind e
    | _ => .other
  message e := e.message

instance : Explained BaselineError where
  kind
    | .template e => errorKind e
    | .ended ending => .ended ending
    | .unbounded => .breakdown
    | _ => .other
  message e := e.message

instance : Explained ConfigError where
  kind _ := .invalidConfig
  message e := e.message

instance : Explained ReportFault where
  kind _ := .invalidReport
  message e := e.message

instance : Explained StoreError where
  kind
    | .notFound _ => .notFound
    | .file _ => .system
    | .undecodable => .json
    | .unencodable e => errorKind e
    | .emptyId | .noReport => .other
  message e := e.message

instance : Explained TraceError where
  kind
    | .store e => errorKind e
    | .malformed => .json
    | .unencodable e => errorKind e
    | .unreadable => .system
    | .tooLong => .other
  message e := e.message

instance : Explained SessionError where
  kind
    | .config e => errorKind e
    | .mode e => errorKind e
    | .population e => errorKind e
    | .offspring e => errorKind e
    | .interrupted ending _ => .ended ending
    | .trace e => errorKind e
    | .report e => errorKind e
    | .store e => errorKind e
    | .stuck => .other
  message e := e.message

end Tuning
