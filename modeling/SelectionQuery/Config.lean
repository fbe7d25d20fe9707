import SelectionQuery.Json.Basic

/-! # Configuration

Two switches, both on by default, and their reading from JSON.
-/
namespace SelectionQuery

structure Config where
  /-- Values of arguments and paging arguments are checked. -/
  checkLiterals : Bool := true
  /-- Aliased selectors are accepted at the top level. -/
  allowAliases : Bool := true
  deriving DecidableEq, Repr

namespace Config

/-- A switch of an object: on if it is missing, and refused if it is no boolean. -/
def switch? (fields : List (String × Json)) (key : String) : Option Bool :=
  match fields.lookup key with
  | none => some true
  | some value => value.bool?

/-- The configuration that a value describes: an object, whose other keys do not matter, or an
array of at most the two switches in order. -/
def ofJson? : Json → Option Config
  | .object fields => do
    let checkLiterals ← switch? fields "check_literals"
    let allowAliases ← switch? fields "allow_aliases"
    some { checkLiterals, allowAliases }
  | .array [] => some {}
  | .array [.bool checkLiterals] => some { checkLiterals }
  | .array [.bool checkLiterals, .bool allowAliases] => some { checkLiterals, allowAliases }
  | _ => none

end Config
end SelectionQuery
