import SelectionQuery.Schema.TypeDef

/-! # Schemas

A schema is a table of types with the root type in first place. All lookups read the table: names,
members and identifier types are found by searching it.
-/
namespace SelectionQuery

structure Schema where
  types : List TypeDef

namespace Schema

def rootName : String := "root"

def rootId : TypeId := 0

/-- The type behind a handle. A handle outside the table stands for a trait without a name, which
has nothing to select and accepts no literal. -/
def typeAt (schema : Schema) (id : TypeId) : TypeDef := schema.types.getD id ⟨"", .trait⟩

def size (schema : Schema) : Nat := schema.types.length

def isEmpty (schema : Schema) : Bool := schema.types.isEmpty

def root (schema : Schema) : TypeDef := schema.typeAt rootId

def rootProperty? (schema : Schema) (name : String) : Option Property :=
  schema.root.property? name

def typeId? (schema : Schema) (name : String) : Option TypeId :=
  schema.types.findIdx? fun type => type.name == name

def type? (schema : Schema) (name : String) : Option TypeDef :=
  (schema.typeId? name).map schema.typeAt

def isKnown (schema : Schema) (name : String) : Bool := (schema.typeId? name).isSome

/-- The entity-id type that addresses an entity. -/
def identifierFor? (schema : Schema) (entity : TypeId) : Option TypeDef :=
  schema.types.find? fun type => type.identifier?.any fun identifier => identifier.target == entity

/-- The first member of a union that has this name. -/
def unionMember? (schema : Schema) (union : TypeDef) (name : String) : Option TypeId :=
  union.members.find? fun member => (schema.typeAt member).name == name

def applicable (schema : Schema) (property : Property) : AttributeSet :=
  (schema.typeAt property.target).nodeAttributes property.list

end Schema
end SelectionQuery
