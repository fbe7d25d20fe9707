import SelectionQuery.Diagnostic
import SelectionQuery.Json.Writer
import SelectionQuery.Schema.TypeDef

/-! # Violations

The causes for which a document is rejected, with the data that their details show. A violation is
a cause at a place.
-/
namespace SelectionQuery

/-- The parts of a document that have to be objects. -/
inductive Part where
  | document | node | listArguments | arguments | acceptedTypes | branch | selection
  deriving DecidableEq, Repr

def Part.text : Part → String
  | .document => "query document"
  | .node => "query node"
  | .listArguments => "list arguments"
  | .arguments => "arguments"
  | .acceptedTypes => "accepted types"
  | .branch => "accepted type selection"
  | .selection => "selection"

inductive Fault where
  /-- A part of the document is not an object. -/
  | notAnObject (part : Part) (found : Json.Kind)
  /-- A top-level key is neither a root property nor an allowed aliased selector. -/
  | invalidSelector (key : String)
  /-- An aliased selector names no root property. -/
  | undefinedRootProperty (key : String)
  | undefinedArgument (name : String)
  | undefinedSelection (name : String)
  | undefinedField (name type : String)
  | unexpectedAttribute (key : String)
  | unknownListArgument (key : String)
  | missingListArguments
  | missingPageLimit
  /-- Identifiers are mixed with a page; the keys are those given, in document order. -/
  | mixedListArguments (keys : List String)
  | invalidPageLimit (value : Json)
  | notAnIdentifierList (value : Json)
  /-- A list element without identifier type is addressed by something else than a string. -/
  | notAnIdentifier (element : String) (value : Json)
  | emptyAcceptance
  | emptySelection
  | undefinedType (name : String)
  | nullForRequired (type : String)
  | notAList (type : String) (value : Json)
  | notAStruct (type : String) (value : Json)
  | notALiteral (kind : TypeKind) (type : String)
  | illegalIdentifier (type : String)
  | illegalValue (type : String) (value : Json)

namespace Fault

def kind : Fault → ErrorKind
  | .notAnObject _ _ => .mismatchingTypes
  | .invalidSelector _ => .invalidPropertySelector
  | .undefinedRootProperty _ => .undefinedProperty
  | .undefinedArgument _ => .undefinedProperty
  | .undefinedSelection _ => .undefinedProperty
  | .undefinedField _ _ => .undefinedProperty
  | .unexpectedAttribute _ => .unexpectedAttribute
  | .unknownListArgument _ => .unknownListArgument
  | .missingListArguments => .missingListArguments
  | .missingPageLimit => .missingPageLimitArgument
  | .mixedListArguments _ => .illegalListArgumentsCombination
  | .invalidPageLimit _ => .mismatchingTypes
  | .notAnIdentifierList _ => .mismatchingTypes
  | .notAnIdentifier _ _ => .mismatchingTypes
  | .emptyAcceptance => .missingSelector
  | .emptySelection => .missingSelector
  | .undefinedType _ => .undefinedType
  | .nullForRequired _ => .mismatchingTypes
  | .notAList _ _ => .mismatchingTypes
  | .notAStruct _ _ => .mismatchingTypes
  | .notALiteral _ _ => .mismatchingTypes
  | .illegalIdentifier _ => .mismatchingTypes
  | .illegalValue _ _ => .mismatchingTypes

def detail : Fault → String
  | .notAnObject part found => "expected an object for the " ++ part.text ++ ", got " ++ found.name
  | .invalidSelector key => "invalid property name: '" ++ key ++ "'"
  | .undefinedRootProperty key => "undefined property: '" ++ key ++ "'"
  | .undefinedArgument name => "undefined argument: '" ++ name ++ "'"
  | .undefinedSelection name => "unexpected selection: " ++ name
  | .undefinedField name type => "undefined field '" ++ name ++ "' on " ++ type
  | .unexpectedAttribute key => "unexpected attribute " ++ key
  | .unknownListArgument key => "unknown list argument: " ++ key
  | .missingListArguments => "missing list arguments"
  | .missingPageLimit => "missing page limit argument"
  | .mixedListArguments keys =>
    "illegal combination of list arguments: " ++ ",".intercalate keys
  | .invalidPageLimit value => "page limit must be a positive integer, got " ++ value.text
  | .notAnIdentifierList value => "expected a list of identifiers, got " ++ value.text
  | .notAnIdentifier element value =>
    "expected an identifier of " ++ element ++ ", got " ++ value.text
  | .emptyAcceptance => "empty type acceptance"
  | .emptySelection => "empty selector"
  | .undefinedType name => "undefined type: " ++ name
  | .nullForRequired type => "null given for required " ++ type
  | .notAList type value => "expected a list of " ++ type ++ ", got " ++ value.text
  | .notAStruct type value => "expected " ++ type ++ " object, got " ++ value.text
  | .notALiteral kind type => kind.name ++ " " ++ type ++ " cannot be given as a literal"
  | .illegalIdentifier type => "illegal value for " ++ type
  | .illegalValue type value => "illegal value for " ++ type ++ ": " ++ value.text

end Fault

/-- A cause of rejection at a place. -/
structure Violation where
  path : Path
  fault : Fault

def Violation.error (violation : Violation) : ValidationError :=
  .ofPath violation.path violation.fault.kind violation.fault.detail

end SelectionQuery
