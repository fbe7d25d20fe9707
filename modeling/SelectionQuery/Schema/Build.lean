import SelectionQuery.Schema.Basic
import SelectionQuery.Schema.Error

/-! # Building a schema

A schema is built from steps: types are declared, which gives them the next handle, and contents
are attached to declared types. A step may be wrong on its own; the references between types are
checked at the end, because they may point forward. The first problem found is the answer.
-/
namespace SelectionQuery.Schema

/-- What one step attaches to a type. -/
structure Contents where
  properties : List (String × Property) := []
  members : List TypeId := []
  variants : List String := []

inductive Step where
  /-- Declares a type that has no contents yet. -/
  | declare (name : String) (kind : TypeKind)
  /-- Declares a built-in type under its own name. -/
  | primitive (primitive : Primitive)
  /-- Declares the identifier type of an entity. -/
  | entityId (name : String) (identifier : Identifier)
  /-- Attaches contents to a declared type. -/
  | define (id : TypeId) (contents : Contents)

def Step.declares : Step → Bool
  | .define _ _ => false
  | _ => true

/-- The types declared so far. -/
abbrev Draft := List TypeDef

namespace Draft

def initial : Draft := [⟨rootName, .record .root .empty⟩]

def insert (draft : Draft) (type : TypeDef) : Except SchemaError Draft :=
  if draft.any fun earlier => earlier.name == type.name then .error (.duplicateType type.name)
  else .ok (draft ++ [type])

/-- The draft with a type of a kind that needs nothing but a name. There is one root type, and
primitives and identifier types have steps of their own. -/
def declare (draft : Draft) (name : String) : TypeKind → Except SchemaError Draft
  | .root => .error (.secondRoot name)
  | .primitive => .error (.bareDeclaration name .primitive)
  | .entityId => .error (.bareDeclaration name .entityId)
  | .scalar => draft.insert ⟨name, .scalar⟩
  | .enumeration => draft.insert ⟨name, .enumeration []⟩
  | .struct => draft.insert ⟨name, .record .struct .empty⟩
  | .entity => draft.insert ⟨name, .record .entity .empty⟩
  | .union => draft.insert ⟨name, .union []⟩
  | .trait => draft.insert ⟨name, .trait⟩

end Draft

/-- Properties added in turn to those of a type, each under a new name. -/
def addProperties (type : String) (properties : NameMap Property) :
    List (String × Property) → Except SchemaError (NameMap Property)
  | [] => .ok properties
  | (name, property) :: rest =>
    if properties.contains name then .error (.duplicateProperty type name)
    else addProperties type (properties.insert name property) rest

def misplaced? (type : TypeDef) (contents : Contents) : Option SchemaError :=
  if !contents.properties.isEmpty && !type.kind.ownsProperties then
    some (.misplacedProperties type.name type.kind)
  else if !contents.members.isEmpty && type.kind ≠ .union then
    some (.misplacedMembers type.name type.kind)
  else if !contents.variants.isEmpty && type.kind ≠ .enumeration then
    some (.misplacedVariants type.name type.kind)
  else none

def attach (type : TypeDef) (contents : Contents) : Except SchemaError TypeDef :=
  match misplaced? type contents with
  | some problem => .error problem
  | none =>
    match type.shape with
    | .record role properties =>
      (addProperties type.name properties contents.properties).map fun properties =>
        { type with shape := .record role properties }
    | .enumeration variants =>
      .ok { type with shape := .enumeration (variants ++ contents.variants) }
    | .union members => .ok { type with shape := .union (members ++ contents.members) }
    | _ => .ok type

def apply (draft : Draft) : Step → Except SchemaError Draft
  | .declare name kind => draft.declare name kind
  | .primitive primitive => draft.insert ⟨primitive.name, .primitive primitive⟩
  | .entityId name identifier => draft.insert ⟨name, .entityId identifier⟩
  | .define id contents =>
    match draft[id]? with
    | none => .error (.unknownHandle id)
    | some type => (attach type contents).map fun type => draft.set id type

/-- The draft after steps taken in order, or the first problem among them. -/
def replay (draft : Draft) : List Step → Except SchemaError Draft
  | [] => .ok draft
  | step :: steps =>
    match apply draft step with
    | .error problem => .error problem
    | .ok draft => replay draft steps

/-- A handle outside a table of `size` types, or a union that no value can have. -/
def referenceProblem? (size : Nat) (type : TypeDef) : Option SchemaError :=
  match type.references.find? (size ≤ ·) with
  | some id => some (.unknownHandle id)
  | none =>
    if type.kind = .union ∧ type.members = [] then some (.emptyUnion type.name) else none

/-- The first identifier type among `types` that addresses no entity, or an entity that is
addressed already. -/
def identifierProblem? (schema : Schema) (addressed : List TypeId) :
    List TypeDef → Option SchemaError
  | [] => none
  | type :: types =>
    match type.identifier? with
    | none => identifierProblem? schema addressed types
    | some identifier =>
      let target := schema.typeAt identifier.target
      if target.kind ≠ .entity then some (.invalidIdentifierTarget type.name target.name)
      else if identifier.target ∈ addressed then some (.duplicateIdentifier target.name)
      else identifierProblem? schema (identifier.target :: addressed) types

def linkProblem? (draft : Draft) : Option SchemaError :=
  match draft.findSome? (referenceProblem? draft.length) with
  | some problem => some problem
  | none => identifierProblem? ⟨draft⟩ [] draft

/-- The schema that the steps declare, or the first problem. -/
def build (steps : List Step) : Except SchemaError Schema :=
  match replay Draft.initial steps with
  | .error problem => .error problem
  | .ok draft =>
    match linkProblem? draft with
    | some problem => .error problem
    | none => .ok ⟨draft⟩

/-- The handle that each step gives, where `next` is the first free one. A step that is wrong
still uses up its handle. -/
def handlesFrom (next : TypeId) : List Step → List (Option TypeId)
  | [] => []
  | step :: steps =>
    if step.declares then some next :: handlesFrom (next + 1) steps
    else none :: handlesFrom next steps

def handles (steps : List Step) : List (Option TypeId) := handlesFrom 1 steps

end SelectionQuery.Schema
