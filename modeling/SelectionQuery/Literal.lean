import SelectionQuery.Schema.Basic
import SelectionQuery.Timestamp
import SelectionQuery.Violation

/-! # Literals

Argument values are checked against the types that arguments declare. The check follows the value:
a struct is checked field by field, a list item by item. A union keeps the value and asks whether
some type that it reaches through members accepts it; nothing of a member's refusal is shown.
-/
namespace SelectionQuery

/-- The value is one of a built-in type. A float is no integer, whatever its value. -/
def Primitive.fits : Primitive → Json → Bool
  | .bool, .bool _ => true
  | .float64, .number _ => true
  | .int32, .number (.integer n) => -2147483648 ≤ n && n ≤ 2147483647
  | .uint32, .number (.integer n) => 0 ≤ n && n ≤ 4294967295
  | .string, .string _ => true
  | .text, .string _ => true
  | .time, .string s => (Timestamp.parse? s).isSome
  | _, _ => false

def Json.isScalar : Json → Bool
  | .bool _ | .number _ | .string _ => true
  | _ => false

/-- Some type that is no union, reached from `type` by less than `steps` steps from a union to a
member, has the property. -/
def Schema.anyLeaf (schema : Schema) (holds : TypeDef → Bool) : (steps : Nat) → TypeDef → Bool
  | 0, _ => false
  | steps + 1, type =>
    match type.shape with
    | .union members => members.any fun member => schema.anyLeaf holds steps (schema.typeAt member)
    | _ => holds type

namespace Literal

def identifierFault? (type : TypeDef) (value : Json) : Option Fault :=
  if value.string?.any type.acceptsIdentifier then none else some (.illegalIdentifier type.name)

/-- What is wrong with a value for a type that is no union, where a struct takes no value: the
fields of an object are checked elsewhere. -/
def plainFault? (type : TypeDef) (value : Json) : Option Fault :=
  let require (fits : Bool) : Option Fault :=
    if fits then none else some (.illegalValue type.name value)
  match type.shape with
  | .primitive primitive => require (primitive.fits value)
  | .scalar => require value.isScalar
  | .enumeration variants => require (value.string?.any variants.contains)
  | .entityId _ => identifierFault? type value
  | .record .struct _ => some (.notAStruct type.name value)
  | .union _ => some (.illegalValue type.name value)
  | _ => some (.notALiteral type.kind type.name)

/-- The check of a value by the types that are no unions, carried over to all types. A chain of
distinct types is no longer than the table, which bounds the search through members. -/
def throughUnions (schema : Schema) (path : Path) (type : TypeDef) (value : Json)
    (check : TypeDef → Option Violation) : Option Violation :=
  match type.shape with
  | .union _ =>
    if schema.anyLeaf (fun leaf => (check leaf).isNone) schema.size type then none
    else some ⟨path, .illegalValue type.name value⟩
  | _ => check type

/-- The check of a value against a declaration, given the check of the value as one literal and
the check of its items. -/
def declared (schema : Schema) (argument : Argument) (path : Path) (value : Json)
    (single items : Unit → Option Violation) : Option Violation :=
  let type := schema.typeAt argument.type
  match value with
  | .null => if argument.optional then none else some ⟨path, .nullForRequired type.name⟩
  | .array _ => if argument.list then items () else single ()
  | _ => if argument.list then some ⟨path, .notAList type.name value⟩ else single ()

mutual
def violation? (schema : Schema) (path : Path) (type : TypeDef) : Json → Option Violation
  | .object fields =>
    throughUnions schema path type (.object fields) fun leaf =>
      match leaf.shape with
      | .record .struct _ => fieldViolation? schema path leaf fields
      | _ => (plainFault? leaf (.object fields)).map (Violation.mk path)
  | value =>
    throughUnions schema path type value fun leaf =>
      (plainFault? leaf value).map (Violation.mk path)

def fieldViolation? (schema : Schema) (path : Path) (struct : TypeDef) :
    List (String × Json) → Option Violation
  | [] => none
  | (name, value) :: fields =>
    (match struct.property? name with
      | none => some ⟨path.extend name, .undefinedField name struct.name⟩
      | some property =>
        declared schema property.asField (path.extend name) value
          (fun _ => violation? schema (path.extend name) (schema.typeAt property.target) value)
          (fun _ =>
            listViolation? schema (path.extend name) (schema.typeAt property.target) value)) <|>
    fieldViolation? schema path struct fields

def listViolation? (schema : Schema) (path : Path) (type : TypeDef) : Json → Option Violation
  | .array items => itemViolation? schema path type 0 items
  | _ => none

def itemViolation? (schema : Schema) (path : Path) (type : TypeDef) (index : Nat) :
    List Json → Option Violation
  | [] => none
  | item :: items =>
    violation? schema (path.extend (Nat.repr index)) type item <|>
    itemViolation? schema path type (index + 1) items
end

def argumentViolation? (schema : Schema) (argument : Argument) (path : Path) (value : Json) :
    Option Violation :=
  declared schema argument path value
    (fun _ => violation? schema path (schema.typeAt argument.type) value)
    (fun _ => listViolation? schema path (schema.typeAt argument.type) value)

end Literal
end SelectionQuery
