import SelectionQuery.Schema.TypeDef

/-! # Inconsistent declarations

Why a list of declarations is no schema, with the text, the code and the advice shown for it.
-/
namespace SelectionQuery

inductive SchemaError where
  | duplicateType (name : String)
  | duplicateProperty (type property : String)
  | unknownHandle (id : TypeId)
  | misplacedProperties (type : String) (kind : TypeKind)
  | misplacedMembers (type : String) (kind : TypeKind)
  | misplacedVariants (type : String) (kind : TypeKind)
  | emptyUnion (type : String)
  | secondRoot (type : String)
  | invalidIdentifierTarget (type target : String)
  | duplicateIdentifier (entity : String)
  | bareDeclaration (type : String) (kind : TypeKind)
  deriving DecidableEq, Repr

namespace SchemaError

def name : SchemaError → String
  | .duplicateType _ => "DuplicateType"
  | .duplicateProperty _ _ => "DuplicateProperty"
  | .unknownHandle _ => "UnknownHandle"
  | .misplacedProperties _ _ => "MisplacedProperties"
  | .misplacedMembers _ _ => "MisplacedMembers"
  | .misplacedVariants _ _ => "MisplacedVariants"
  | .emptyUnion _ => "EmptyUnion"
  | .secondRoot _ => "SecondRoot"
  | .invalidIdentifierTarget _ _ => "InvalidIdentifierTarget"
  | .duplicateIdentifier _ => "DuplicateIdentifier"
  | .bareDeclaration _ _ => "BareDeclaration"

def code : SchemaError → String
  | .duplicateType _ => "schema::duplicate_type"
  | .duplicateProperty _ _ => "schema::duplicate_property"
  | .unknownHandle _ => "schema::unknown_handle"
  | .misplacedProperties _ _ => "schema::misplaced_properties"
  | .misplacedMembers _ _ => "schema::misplaced_members"
  | .misplacedVariants _ _ => "schema::misplaced_variants"
  | .emptyUnion _ => "schema::empty_union"
  | .secondRoot _ => "schema::second_root"
  | .invalidIdentifierTarget _ _ => "schema::invalid_identifier_target"
  | .duplicateIdentifier _ => "schema::duplicate_identifier"
  | .bareDeclaration _ _ => "schema::bare_declaration"

def message : SchemaError → String
  | .duplicateType name => "type '" ++ name ++ "' is declared more than once"
  | .duplicateProperty type property =>
    "type '" ++ type ++ "' declares property '" ++ property ++ "' more than once"
  | .unknownHandle id => "type handle #" ++ Nat.repr id ++ " does not belong to this schema"
  | .misplacedProperties type kind =>
    kind.name ++ " type '" ++ type ++ "' cannot declare properties"
  | .misplacedMembers type kind =>
    kind.name ++ " type '" ++ type ++ "' cannot declare union members"
  | .misplacedVariants type kind =>
    kind.name ++ " type '" ++ type ++ "' cannot declare enum variants"
  | .emptyUnion type => "union '" ++ type ++ "' has no member types"
  | .secondRoot type => "only one root type may be declared, found '" ++ type ++ "'"
  | .invalidIdentifierTarget type target =>
    "identifier '" ++ type ++ "' targets '" ++ target ++ "', which is not an entity"
  | .duplicateIdentifier entity =>
    "entity '" ++ entity ++ "' has more than one identifier type"
  | .bareDeclaration type kind =>
    kind.name ++ " type '" ++ type ++ "' must be declared through its dedicated constructor"

def help? : SchemaError → Option String
  | .misplacedProperties _ _ => some "only root, struct, and entity types own properties"
  | .bareDeclaration _ _ =>
    some "use `SchemaBuilder::primitive` or `SchemaBuilder::entity_id`"
  | _ => none

end SchemaError
end SelectionQuery
