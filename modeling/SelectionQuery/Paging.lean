import SelectionQuery.Literal

/-! # Paging arguments

A list property is paged by explicit identifiers, or by a page size with an optional cursor. The
two do not mix. An argument that is `null` counts as not given.
-/
namespace SelectionQuery.Paging

def ids : String := "ids"
def after : String := "after"
def limit : String := "limit"

def keys : List String := [ids, after, limit]

def given (fields : List (String × Json)) : List (String × Json) :=
  fields.filter fun field => field.2.isPresent

def isGiven (fields : List (String × Json)) (key : String) : Bool :=
  (fields.lookup key).any Json.isPresent

/-- What is wrong with the choice of arguments. An unrecognized key comes first. -/
def integrityViolation? (path : Path) (fields : List (String × Json)) : Option Violation :=
  match fields.find? fun field => !keys.contains field.1 with
  | some (key, _) => some ⟨path.extend key, .unknownListArgument key⟩
  | none =>
    if !isGiven fields ids && !isGiven fields limit then
      if isGiven fields after then some ⟨path, .missingPageLimit⟩
      else some ⟨path, .missingListArguments⟩
    else if isGiven fields ids && (isGiven fields after || isGiven fields limit) then
      some ⟨path, .mixedListArguments ((given fields).map (·.1))⟩
    else none

/-- What is wrong with the address of an element of the list: it satisfies the identifier type of
the element, if there is one, and is a string otherwise. -/
def cursorFault? (element : TypeDef) (identifier : Option TypeDef) (value : Json) : Option Fault :=
  match identifier with
  | some type => Literal.identifierFault? type value
  | none => if value.string?.isSome then none else some (.notAnIdentifier element.name value)

/-- The first wrong address of a list, whose items are counted from `index`. -/
def cursorsViolation? (path : Path) (element : TypeDef) (identifier : Option TypeDef)
    (index : Nat) : List Json → Option Violation
  | [] => none
  | value :: values =>
    (cursorFault? element identifier value).map (Violation.mk (path.extend (Nat.repr index))) <|>
    cursorsViolation? path element identifier (index + 1) values

/-- The value is an integer of 64 bits above zero. -/
def isPageLimit (value : Json) : Bool :=
  value.integer?.any fun n => 0 < n && n ≤ Json.Number.greatestInteger

def valueViolation? (path : Path) (element : TypeDef) (identifier : Option TypeDef)
    (key : String) (value : Json) : Option Violation :=
  if key = limit then
    if isPageLimit value then none else some ⟨path, .invalidPageLimit value⟩
  else if key = ids then
    match value.items? with
    | none => some ⟨path, .notAnIdentifierList value⟩
    | some items => cursorsViolation? path element identifier 0 items
  else (cursorFault? element identifier value).map (Violation.mk path)

def valuesViolation? (path : Path) (element : TypeDef) (identifier : Option TypeDef)
    (fields : List (String × Json)) : Option Violation :=
  (given fields).findSome? fun (key, value) =>
    valueViolation? (path.extend key) element identifier key value

end SelectionQuery.Paging
