import SelectionQuery.Decimal.Binary64

/-! # JSON values

Objects keep their entries in document order. A reader never produces an object with a repeated
key, and a search by key takes the first entry.
-/
namespace SelectionQuery

/-- An integer written without fraction and exponent, or a double. -/
inductive Json.Number where
  | integer (value : Int)
  | float (value : Binary64)
  deriving DecidableEq, Repr

def Json.Number.leastInteger : Int := -9223372036854775808

def Json.Number.greatestInteger : Int := 18446744073709551615

inductive Json where
  | null
  | bool (value : Bool)
  | number (value : Json.Number)
  | string (value : String)
  | array (items : List Json)
  | object (fields : List (String × Json))
  deriving Inhabited

namespace Json

inductive Kind where
  | null | boolean | number | string | array | object
  deriving DecidableEq, Repr

def Kind.name : Kind → String
  | .null => "null"
  | .boolean => "boolean"
  | .number => "number"
  | .string => "string"
  | .array => "array"
  | .object => "object"

def kind : Json → Kind
  | .null => .null
  | .bool _ => .boolean
  | .number _ => .number
  | .string _ => .string
  | .array _ => .array
  | .object _ => .object

def isPresent : Json → Bool
  | .null => false
  | _ => true

def string? : Json → Option String
  | .string s => some s
  | _ => none

def bool? : Json → Option Bool
  | .bool b => some b
  | _ => none

def integer? : Json → Option Int
  | .number (.integer n) => some n
  | _ => none

def items? : Json → Option (List Json)
  | .array items => some items
  | _ => none

def get? (key : String) : Json → Option Json
  | .object fields => fields.lookup key
  | _ => none

end Json
end SelectionQuery
