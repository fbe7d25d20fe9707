import SelectionQuery.Attribute
import SelectionQuery.NameMap

/-! # Types of a schema

A type is a name and a shape. Types refer to each other by handles, the positions in the table of
their schema, so that a type may refer to itself or to a type declared later.
-/
namespace SelectionQuery

/-- The position of a type in its schema. -/
abbrev TypeId := Nat

inductive TypeKind where
  | root | primitive | scalar | enumeration | struct | entity | entityId | union | trait
  deriving DecidableEq, Repr

namespace TypeKind

def all : List TypeKind :=
  [.root, .primitive, .scalar, .enumeration, .struct, .entity, .entityId, .union, .trait]

def name : TypeKind → String
  | .root => "root"
  | .primitive => "primitive"
  | .scalar => "scalar"
  | .enumeration => "enum"
  | .struct => "struct"
  | .entity => "entity"
  | .entityId => "entity-id"
  | .union => "union"
  | .trait => "trait"

def ownsProperties : TypeKind → Bool
  | .root | .struct | .entity => true
  | _ => false

end TypeKind

inductive Primitive where
  | bool | float64 | uint32 | int32 | string | text | time
  deriving DecidableEq, Repr

namespace Primitive

def all : List Primitive := [.bool, .float64, .uint32, .int32, .string, .text, .time]

def name : Primitive → String
  | .bool => "Bool"
  | .float64 => "Float64"
  | .uint32 => "Uint32"
  | .int32 => "Int32"
  | .string => "String"
  | .text => "Text"
  | .time => "Time"

end Primitive

/-- Decides which literals are identifiers of an entity. -/
structure IdentifierRule where
  accepts : String → Bool

namespace IdentifierRule

def text (_ : IdentifierRule) : String := "IdentifierRule(..)"

def hex32 : IdentifierRule where
  accepts literal := literal.utf8ByteSize = 32 && literal.toList.all Char.isHexDigit

end IdentifierRule

structure Argument where
  type : TypeId
  optional : Bool := false
  list : Bool := false
  deriving DecidableEq, Repr

/-- A property of a root, struct or entity type. -/
structure Property where
  target : TypeId
  list : Bool := false
  optional : Bool := false
  arguments : NameMap Argument := .empty

/-- The declaration that a field of a struct literal is checked against: the property as an
optional argument. -/
def Property.asField (property : Property) : Argument :=
  { type := property.target, optional := true, list := property.list }

/-- What an entity-id type says: which entity it addresses, and by which literals. -/
structure Identifier where
  target : TypeId
  rule : IdentifierRule

inductive Role where
  | root | struct | entity
  deriving DecidableEq, Repr

def Role.kind : Role → TypeKind
  | .root => .root
  | .struct => .struct
  | .entity => .entity

/-- A kind of type with the contents that only this kind has. -/
inductive Shape where
  | record (role : Role) (properties : NameMap Property)
  | primitive (primitive : Primitive)
  | scalar
  | enumeration (variants : List String)
  | entityId (identifier : Identifier)
  | union (members : List TypeId)
  | trait

def Shape.kind : Shape → TypeKind
  | .record role _ => role.kind
  | .primitive _ => .primitive
  | .scalar => .scalar
  | .enumeration _ => .enumeration
  | .entityId _ => .entityId
  | .union _ => .union
  | .trait => .trait

structure TypeDef where
  name : String
  shape : Shape

namespace TypeDef

def kind (type : TypeDef) : TypeKind := type.shape.kind

def properties (type : TypeDef) : NameMap Property :=
  match type.shape with
  | .record _ properties => properties
  | _ => .empty

def property? (type : TypeDef) (name : String) : Option Property := type.properties.get? name

/-- The members of a union in the order of their declaration, repetitions included. -/
def members (type : TypeDef) : List TypeId :=
  match type.shape with
  | .union members => members
  | _ => []

/-- The variants of an enum in the order of their declaration, repetitions included. -/
def variants (type : TypeDef) : List String :=
  match type.shape with
  | .enumeration variants => variants
  | _ => []

def primitive? (type : TypeDef) : Option Primitive :=
  match type.shape with
  | .primitive primitive => some primitive
  | _ => none

def identifier? (type : TypeDef) : Option Identifier :=
  match type.shape with
  | .entityId identifier => some identifier
  | _ => none

/-- The literal is an identifier of this type. A type that is no entity-id has none. -/
def acceptsIdentifier (type : TypeDef) (literal : String) : Bool :=
  type.identifier?.any fun identifier => identifier.rule.accepts literal

def isSelectable (type : TypeDef) : Bool := !type.properties.isEmpty

def isUnion (type : TypeDef) : Bool := !type.members.isEmpty

def branchAttributes (type : TypeDef) : AttributeSet :=
  { AttributeSet.empty with select := type.isSelectable, accept := type.isUnion }

/-- The attributes of a node of a property with this target: arguments always, paging arguments on
a list, and those of the target. -/
def nodeAttributes (type : TypeDef) (list : Bool) : AttributeSet :=
  { type.branchAttributes with args := true, listArgs := list }

/-- All handles that the type mentions: for each property its target and the types of its
arguments, then members, then the entity it identifies. -/
def references (type : TypeDef) : List TypeId :=
  (type.properties.values.flatMap fun property =>
    property.target :: property.arguments.values.map Argument.type) ++
  type.members ++ (type.identifier?.map Identifier.target).toList

end TypeDef
end SelectionQuery
