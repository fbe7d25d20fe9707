import SelectionQuery.Json.Reader
import SelectionQuery.Walk

/-! # Validation

A document is accepted when its walk meets no violation, and rejected with the first one
otherwise. The log of a validation lists the property nodes entered up to there.
-/
namespace SelectionQuery

def Event.violation? : Event → Option Violation
  | .visit _ _ => none
  | .violation found => some found

/-- Accepts a document, or gives the error of its first violation. -/
def validate (config : Config) (schema : Schema) (document : Json) : Except ValidationError Unit :=
  match (Walk.document config schema document).findSome? Event.violation? with
  | none => .ok ()
  | some violation => .error violation.error

/-- The number of containers that may be open at once in a text. -/
def maxDepth : Nat := 127

inductive TextError where
  | invalidJson
  | rejected (error : ValidationError)
  deriving DecidableEq, Repr

def TextError.message : TextError → String
  | .invalidJson => "query document is not valid JSON"
  | .rejected error => error.message

def validateText (config : Config) (schema : Schema) (source : String) : Except TextError Unit :=
  match Json.parse? maxDepth source with
  | none => .error .invalidJson
  | some document => (validate config schema document).mapError .rejected

inductive LogRecord where
  /-- A validation begins. -/
  | span
  /-- A property node is entered. -/
  | evaluating (path : Path) (label : Option String)
  /-- A validation ends with an error. -/
  | rejected (error : ValidationError)

namespace LogRecord

def spanName : String := "validate_query"

def level : LogRecord → String
  | .span => "DEBUG"
  | .evaluating _ _ => "TRACE"
  | .rejected _ => "DEBUG"

def message : LogRecord → String
  | .span => spanName
  | .evaluating _ _ => "evaluating property"
  | .rejected _ => "query rejected"

def ofEvents : List Event → List LogRecord
  | [] => []
  | .visit path label :: events => .evaluating path label :: ofEvents events
  | .violation violation :: _ => [.rejected violation.error]

end LogRecord

def log (config : Config) (schema : Schema) (document : Json) : List LogRecord :=
  .span :: LogRecord.ofEvents (Walk.document config schema document)

def logText (config : Config) (schema : Schema) (source : String) : List LogRecord :=
  match Json.parse? maxDepth source with
  | none => []
  | some document => log config schema document

end SelectionQuery
