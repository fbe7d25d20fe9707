import SelectionQuery.Config
import SelectionQuery.Paging
import SelectionQuery.Selector

/-! # The walk through a document

A walk lists, in order, the property nodes it enters and the violations it meets. It goes on after
a violation where the next check does not depend on it: what a validation reports is the part up
to the first violation. The walk recurses on the document alone, so a schema may be cyclic.
-/
namespace SelectionQuery

inductive Event where
  /-- A property node is entered, under a label if it is aliased. -/
  | visit (path : Path) (label : Option String)
  | violation (found : Violation)

/-- What a node of a document is checked against: a property, or a member of a union. -/
inductive Site where
  | property (declaration : Property)
  | branch (member : TypeId)

namespace Site

def target (schema : Schema) : Site → TypeDef
  | .property declaration => schema.typeAt declaration.target
  | .branch member => schema.typeAt member

def attributes (schema : Schema) : Site → AttributeSet
  | .property declaration => schema.applicable declaration
  | .branch member => (schema.typeAt member).branchAttributes

def part : Site → Part
  | .property _ => .node
  | .branch _ => .branch

/-- Entering a property is an event of its own; entering a branch is not. -/
def entry (path : Path) : Site → List Event
  | .property _ => [.visit path none]
  | .branch _ => []

end Site

/-- The two attributes under which further nodes stand. -/
inductive Descent where
  | accept | select
  deriving DecidableEq, Repr

namespace Descent

def key : Descent → String
  | .accept => Attribute.accept.key
  | .select => Attribute.select.key

def part : Descent → Part
  | .accept => .acceptedTypes
  | .select => .selection

/-- The site that a name leads to from a type. -/
def site? (schema : Schema) (type : TypeDef) (name : String) : Descent → Option Site
  | .accept => (schema.unionMember? type name).map .branch
  | .select => (type.property? name).map .property

def emptyFault : Descent → Fault
  | .accept => .emptyAcceptance
  | .select => .emptySelection

def undeclaredFault (name : String) : Descent → Fault
  | .accept => .undefinedType name
  | .select => .undefinedSelection name

end Descent

namespace Walk

/-- The first violation of the paging arguments of a property. Their values are checked only
when literals are. -/
def pagingViolation? (config : Config) (schema : Schema) (property : Property) (path : Path)
    (value : Json) : Option Violation :=
  match value with
  | .object fields =>
    Paging.integrityViolation? path fields <|>
    if config.checkLiterals then
      Paging.valuesViolation? path (schema.typeAt property.target)
        (schema.identifierFor? property.target) fields
    else none
  | _ => some ⟨path, .notAnObject .listArguments value.kind⟩

def argumentsViolation? (config : Config) (schema : Schema) (property : Property) (path : Path)
    (value : Json) : Option Violation :=
  match value with
  | .object fields =>
    fields.findSome? fun (name, value) =>
      match property.arguments.get? name with
      | none => some ⟨path.extend name, .undefinedArgument name⟩
      | some argument =>
        if config.checkLiterals then
          Literal.argumentViolation? schema argument (path.extend name) value
        else none
  | _ => some ⟨path, .notAnObject .arguments value.kind⟩

def ownViolation? (config : Config) (schema : Schema) (path : Path)
    (fields : List (String × Json)) : Site → Option Violation
  | .property property =>
    ((fields.lookup Attribute.listArgs.key).bind (pagingViolation? config schema property path)) <|>
    ((fields.lookup Attribute.args.key).bind (argumentsViolation? config schema property path))
  | .branch _ => none

def unexpectedKey? (attributes : AttributeSet) (fields : List (String × Json)) : Option String :=
  (fields.map (·.1)).find? fun key => !attributes.allows key

def undeclaredName? (schema : Schema) (type : TypeDef) (descent : Descent)
    (fields : List (String × Json)) : Option String :=
  (fields.map (·.1)).find? fun name => (descent.site? schema type name).isNone

mutual
/-- The events at a node: its keys, its arguments, then its branches and its selection. -/
def node (config : Config) (schema : Schema) (site : Site) (path : Path) : Json → List Event
  | .object fields =>
    match unexpectedKey? (site.attributes schema) fields with
    | some key => [.violation ⟨path.extend key, .unexpectedAttribute key⟩]
    | none =>
      (ownViolation? config schema path fields site).toList.map .violation ++
      below config schema .accept (site.target schema) path fields ++
      below config schema .select (site.target schema) path fields
  | value => [.violation ⟨path, .notAnObject site.part value.kind⟩]

def below (config : Config) (schema : Schema) (descent : Descent) (type : TypeDef) (path : Path) :
    List (String × Json) → List Event
  | [] => []
  | (key, value) :: fields =>
    if key = descent.key then names config schema descent type path value
    else below config schema descent type path fields

/-- The events at a value that names properties or members. All names are checked before any of
the nodes under them. -/
def names (config : Config) (schema : Schema) (descent : Descent) (type : TypeDef) (path : Path) :
    Json → List Event
  | .object fields =>
    if fields.isEmpty then [.violation ⟨path, descent.emptyFault⟩]
    else
      match undeclaredName? schema type descent fields with
      | some name => [.violation ⟨path.extend name, descent.undeclaredFault name⟩]
      | none => nodes config schema descent type path fields
  | value => [.violation ⟨path, .notAnObject descent.part value.kind⟩]

def nodes (config : Config) (schema : Schema) (descent : Descent) (type : TypeDef) (path : Path) :
    List (String × Json) → List Event
  | [] => []
  | (name, value) :: fields =>
    (match descent.site? schema type name with
      | none => []
      | some site =>
        site.entry (path.extend name) ++ node config schema site (path.extend name) value) ++
    nodes config schema descent type path fields
end

/-- The events at a property that is requested at the top, under a label if it is aliased. -/
def request (config : Config) (schema : Schema) (property : Property) (name : String)
    (label : Option String) (value : Json) : List Event :=
  .visit (Path.root.extend name) label ::
    node config schema (.property property) (Path.root.extend name) value

/-- The aliased selector that a top-level key writes, if such keys are allowed. -/
def aliased? (config : Config) (key : String) : Option Selector.Aliased :=
  if config.allowAliases then Selector.parseAliased? key else none

/-- The events at one top-level entry. A root property of that very name comes before an aliased
selector. -/
def entry (config : Config) (schema : Schema) (key : String) (value : Json) : List Event :=
  match schema.rootProperty? key with
  | some property => request config schema property key none value
  | none =>
    match aliased? config key with
    | none => [.violation ⟨Path.root.extend key, .invalidSelector key⟩]
    | some selector =>
      match schema.rootProperty? selector.property with
      | none =>
        [.violation ⟨Path.root.extend selector.property, .undefinedRootProperty key⟩]
      | some property => request config schema property selector.property selector.label value

def document (config : Config) (schema : Schema) : Json → List Event
  | .object fields => fields.flatMap fun (key, value) => entry config schema key value
  | value => [.violation ⟨Path.root, .notAnObject .document value.kind⟩]

end Walk
end SelectionQuery
