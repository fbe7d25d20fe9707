/-! # Node attributes

A query node is an object whose keys are attributes. Which attributes apply to a node depends on
the declaration it is checked against.
-/
namespace SelectionQuery

/-- A recognized key of a query node: argument values, paging arguments, a selection of
properties, or accepted members of a union. -/
inductive Attribute where
  | args | listArgs | select | accept
  deriving DecidableEq, Repr

namespace Attribute

def all : List Attribute := [.args, .listArgs, .select, .accept]

def key : Attribute → String
  | .args => "args"
  | .listArgs => "listArgs"
  | .select => "select"
  | .accept => "accept"

def ofKey? (key : String) : Option Attribute := all.find? (·.key == key)

end Attribute

structure AttributeSet where
  args : Bool
  listArgs : Bool
  select : Bool
  accept : Bool
  deriving DecidableEq, Repr

namespace AttributeSet

def empty : AttributeSet := ⟨false, false, false, false⟩

def contains (set : AttributeSet) : Attribute → Bool
  | .args => set.args
  | .listArgs => set.listArgs
  | .select => set.select
  | .accept => set.accept

def insert (set : AttributeSet) : Attribute → AttributeSet
  | .args => { set with args := true }
  | .listArgs => { set with listArgs := true }
  | .select => { set with select := true }
  | .accept => { set with accept := true }

def ofList (attributes : List Attribute) : AttributeSet := attributes.foldl insert empty

def toList (set : AttributeSet) : List Attribute := Attribute.all.filter set.contains

def isEmpty (set : AttributeSet) : Bool := set.toList.isEmpty

def text (set : AttributeSet) : String :=
  if set.isEmpty then "none" else ", ".intercalate (set.toList.map Attribute.key)

def allows (set : AttributeSet) (key : String) : Bool :=
  (Attribute.ofKey? key).any set.contains

end AttributeSet
end SelectionQuery
