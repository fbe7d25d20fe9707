import SelectionQuery.Path

/-! # Validation errors

What the caller of a validation sees: the kind of violation, the rendered path to it, and a
detail. Each kind has a stable code and a line of advice.
-/
namespace SelectionQuery

inductive ErrorKind where
  | invalidPropertySelector
  | undefinedProperty
  | unknownListArgument
  | missingListArguments
  | missingPageLimitArgument
  | illegalListArgumentsCombination
  | missingSelector
  | undefinedType
  | mismatchingTypes
  | unexpectedAttribute
  deriving DecidableEq, Repr

namespace ErrorKind

def all : List ErrorKind :=
  [.invalidPropertySelector, .undefinedProperty, .unknownListArgument, .missingListArguments,
    .missingPageLimitArgument, .illegalListArgumentsCombination, .missingSelector, .undefinedType,
    .mismatchingTypes, .unexpectedAttribute]

def name : ErrorKind → String
  | .invalidPropertySelector => "InvalidPropertySelector"
  | .undefinedProperty => "UndefinedProperty"
  | .unknownListArgument => "UnknownListArgument"
  | .missingListArguments => "MissingListArguments"
  | .missingPageLimitArgument => "MissingPageLimitArgument"
  | .illegalListArgumentsCombination => "IllegalListArgumentsCombination"
  | .missingSelector => "MissingSelector"
  | .undefinedType => "UndefinedType"
  | .mismatchingTypes => "MismatchingTypes"
  | .unexpectedAttribute => "UnexpectedAttribute"

def code : ErrorKind → String
  | .invalidPropertySelector => "query::invalid_property_selector"
  | .undefinedProperty => "query::undefined_property"
  | .unknownListArgument => "query::unknown_list_argument"
  | .missingListArguments => "query::missing_list_arguments"
  | .missingPageLimitArgument => "query::missing_page_limit_argument"
  | .illegalListArgumentsCombination => "query::illegal_list_arguments_combination"
  | .missingSelector => "query::missing_selector"
  | .undefinedType => "query::undefined_type"
  | .mismatchingTypes => "query::mismatching_types"
  | .unexpectedAttribute => "query::unexpected_attribute"

def help : ErrorKind → String
  | .invalidPropertySelector =>
    "top-level keys must be a root property or of the form `property = @alias`"
  | .undefinedProperty => "check the property name against the schema"
  | .unknownListArgument => "list arguments are `ids`, `after`, and `limit`"
  | .missingListArguments => "provide either `ids` or `limit`"
  | .missingPageLimitArgument => "`after` requires `limit`"
  | .illegalListArgumentsCombination => "`ids` cannot be combined with `after` or `limit`"
  | .missingSelector => "select at least one property"
  | .undefinedType => "only member types of the union can be accepted"
  | .mismatchingTypes => "the value does not fit the declared type"
  | .unexpectedAttribute => "remove the attribute; the property does not support it"

end ErrorKind

inductive Severity where
  | advice | warning | error
  deriving DecidableEq, Repr

structure ValidationError where
  kind : ErrorKind
  /-- The tokens from the top of the document to the violation, joined by dots. -/
  path : String
  detail : String
  deriving DecidableEq, Repr

namespace ValidationError

def ofPath (path : Path) (kind : ErrorKind) (detail : String) : ValidationError :=
  ⟨kind, path.render, detail⟩

def is (error : ValidationError) (kind : ErrorKind) : Bool := error.kind = kind

def message (error : ValidationError) : String := error.path ++ ": " ++ error.detail

/-- A violation is never less than an error. -/
def severity (_ : ValidationError) : Severity := .error

end ValidationError
end SelectionQuery
