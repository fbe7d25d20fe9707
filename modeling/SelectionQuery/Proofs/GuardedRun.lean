import SelectionQuery.Proofs.FrozenTables
import SelectionQuery.Validation

/-! # Guarded runs

A guarded run of a validation reads the frozen table wherever the types of a document lead it. Unions
are followed from member to member without a bound, and attributes are those that were stored.
-/
namespace SelectionQuery
open Schema

def Site.handle : Site → TypeId
  | .property declaration => declaration.target
  | .branch member => member

namespace Guarded
open Outcome

mutual
def argument (schema : Schema) (declaration : Argument) (path : Path) (value : Json) :
    (calls : Nat) → Outcome (Option Violation)
  | 0 => .exhausted .literal
  | calls + 1 => do
    let type ← read schema.types declaration.type
    match value with
    | .null =>
      .done (if declaration.optional then none else some ⟨path, .nullForRequired type.name⟩)
    | .array items =>
      if declaration.list then
        first <| items.zipIdx.map fun (item, index) =>
          literal schema type (path.extend (Nat.repr index)) item calls
      else literal schema type path (.array items) calls
    | value =>
      if declaration.list then .done (some ⟨path, .notAList type.name value⟩)
      else literal schema type path value calls

/-- The check of a value as one literal. The members of a union get the value one after the other,
until one accepts it. -/
def literal (schema : Schema) (type : TypeDef) (path : Path) (value : Json) :
    (calls : Nat) → Outcome (Option Violation)
  | 0 => .exhausted .literal
  | calls + 1 =>
    match type.shape with
    | .union members => do
      let accepting ← first <| members.map fun id => do
        let member ← read schema.types id
        let refusal ← literal schema member path value calls
        .done (Option.guard (fun _ => refusal.isNone) id)
      .done (if accepting.isSome then none else some ⟨path, .illegalValue type.name value⟩)
    | .record .struct _ => struct schema type path value calls
    | _ => .done ((Literal.plainFault? type value).map (Violation.mk path))

def struct (schema : Schema) (type : TypeDef) (path : Path) (value : Json) :
    (calls : Nat) → Outcome (Option Violation)
  | 0 => .exhausted .literal
  | calls + 1 =>
    match value with
    | .object fields => first <| fields.map fun (name, field) =>
      match type.property? name with
      | none => .done (some ⟨path.extend name, .undefinedField name type.name⟩)
      | some property => argument schema property.asField (path.extend name) field calls
    | _ => .done (some ⟨path, .notAStruct type.name value⟩)
end

/-- A validation: its configuration, its table, and the nested calls that the check of one argument
may use. -/
structure Run where
  config : Config
  frozen : Frozen
  literalCalls : Nat

namespace Run

def schema (run : Run) : Schema := run.frozen.schema

def identifierFor? (run : Run) (entity : TypeId) : Outcome (Option TypeDef) :=
  match run.frozen.identifiers.lookup entity with
  | none => .done none
  | some id => do
    let type ← read run.frozen.types id
    .done (some type.type)

def unionMember? (run : Run) (union : FrozenType) (name : String) : Outcome (Option TypeId) :=
  first <| union.members.map fun id => do
    let member ← read run.frozen.types id
    .done (Option.guard (fun _ => member.name == name) id)

/-- The site that a name leads to, with the attributes that are stored for it. -/
def site? (run : Run) (type : FrozenType) (name : String) :
    Descent → Outcome (Option (Site × AttributeSet))
  | .accept => do
    match ← run.unionMember? type name with
    | none => .done none
    | some id => do
      let member ← read run.frozen.types id
      .done (some (.branch id, member.branch))
  | .select => .done ((type.properties.get? name).map fun property =>
      (.property property, type.nodeAttributes name))

def paging (run : Run) (property : Property) (target : FrozenType) (path : Path) (value : Json) :
    Outcome (Option Violation) :=
  match value with
  | .object fields =>
    first [.done (Paging.integrityViolation? path fields),
      if run.config.checkLiterals then do
        let identifier ← run.identifierFor? property.target
        .done (Paging.valuesViolation? path target.type identifier fields)
      else .done none]
  | _ => .done (some ⟨path, .notAnObject .listArguments value.kind⟩)

def arguments (run : Run) (property : Property) (path : Path) (value : Json) :
    Outcome (Option Violation) :=
  match value with
  | .object fields => first <| fields.map fun (name, value) =>
    match property.arguments.get? name with
    | none => .done (some ⟨path.extend name, .undefinedArgument name⟩)
    | some declaration =>
      if run.config.checkLiterals then
        argument run.schema declaration (path.extend name) value run.literalCalls
      else .done none
  | _ => .done (some ⟨path, .notAnObject .arguments value.kind⟩)

def under (fields : List (String × Json)) (key : String) (check : Json → Outcome (Option Violation)) :
    Outcome (Option Violation) :=
  match fields.lookup key with
  | none => .done none
  | some value => check value

def own (run : Run) (target : FrozenType) (path : Path) (fields : List (String × Json)) :
    Site → Outcome (Option Violation)
  | .property property =>
    first [under fields Attribute.listArgs.key (run.paging property target path),
      under fields Attribute.args.key (run.arguments property path)]
  | .branch _ => .done none

mutual
/-- The check of a node: its keys by the attributes that are stored for it, its arguments, then what
stands below it. -/
def node (run : Run) (site : Site) (attributes : AttributeSet) (path : Path) (value : Json) :
    (calls : Nat) → Outcome (Option Violation)
  | 0 => .exhausted .walk
  | calls + 1 =>
    match value with
    | .object fields =>
      match Walk.unexpectedKey? attributes fields with
      | some key => .done (some ⟨path.extend key, .unexpectedAttribute key⟩)
      | none => do
        let target ← read run.frozen.types site.handle
        first [run.own target path fields site, shape run target path fields calls]
    | _ => .done (some ⟨path, .notAnObject site.part value.kind⟩)

def shape (run : Run) (type : FrozenType) (path : Path) (fields : List (String × Json)) :
    (calls : Nat) → Outcome (Option Violation)
  | 0 => .exhausted .walk
  | calls + 1 =>
    first [under fields Descent.accept.key fun value => names run .accept type path value calls,
      under fields Descent.select.key fun value => names run .select type path value calls]

/-- The check of a value that names properties or members: first of all its names, then of the
nodes under them. -/
def names (run : Run) (descent : Descent) (type : FrozenType) (path : Path) (value : Json) :
    (calls : Nat) → Outcome (Option Violation)
  | 0 => .exhausted .walk
  | calls + 1 =>
    match value with
    | .object fields =>
      if fields.isEmpty then .done (some ⟨path, descent.emptyFault⟩)
      else
        first [
          first <| fields.map fun (name, _) => do
            let site ← run.site? type name descent
            .done (if site.isNone then some ⟨path.extend name, descent.undeclaredFault name⟩
              else none),
          first <| fields.map fun (name, value) => do
            match ← run.site? type name descent with
            | none => .done none
            | some (site, attributes) => node run site attributes (path.extend name) value calls]
    | _ => .done (some ⟨path, .notAnObject descent.part value.kind⟩)
end

def rootProperty? (run : Run) (name : String) : Outcome (Option (Property × AttributeSet)) := do
  let root ← read run.frozen.types Schema.rootId
  .done ((root.properties.get? name).map fun property => (property, root.nodeAttributes name))

def entry (run : Run) (key : String) (value : Json) (calls : Nat) : Outcome (Option Violation) := do
  match ← run.rootProperty? key with
  | some (property, attributes) =>
    run.node (.property property) attributes (Path.root.extend key) value calls
  | none =>
    match Walk.aliased? run.config key with
    | none => .done (some ⟨Path.root.extend key, .invalidSelector key⟩)
    | some selector => do
      match ← run.rootProperty? selector.property with
      | none => .done (some ⟨Path.root.extend selector.property, .undefinedRootProperty key⟩)
      | some (property, attributes) =>
        run.node (.property property) attributes (Path.root.extend selector.property) value calls

def document (run : Run) (value : Json) (calls : Nat) : Outcome (Option Violation) :=
  match value with
  | .object fields => first <| fields.map fun (key, value) => run.entry key value calls
  | _ => .done (some ⟨Path.root, .notAnObject .document value.kind⟩)

def validate (run : Run) (value : Json) (calls : Nat) : Outcome (Except ValidationError Unit) := do
  match ← run.document value calls with
  | none => .done (.ok ())
  | some violation => .done (.error violation.error)

end Run
end Guarded
end SelectionQuery
