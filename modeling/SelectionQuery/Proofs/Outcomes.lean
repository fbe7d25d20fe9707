import SelectionQuery.Schema.TypeDef

/-! # Outcomes of guarded runs

The functions of the library are total: a handle outside the table reads as a trait without a name,
and the search through members is bounded. Guarded runs make no such provision. A handle outside the
table stops them, and each recursion has a number of nested calls to spend, so that one which does not
end uses up any number. An outcome settles if it is the result of the total function, or if it is for
want of calls that it is not.
-/
namespace SelectionQuery.Guarded

/-- The two recursions of a validation: through the nodes of a document, and through the values of
arguments. -/
inductive Recursion where
  | walk | literal
  deriving DecidableEq, Repr

inductive Outcome (α : Type) where
  | done (result : α)
  /-- A handle outside the table was read. -/
  | stray (id : TypeId)
  /-- A recursion had no call left. -/
  | exhausted (recursion : Recursion)

namespace Outcome
variable {α β : Type}

def bind (outcome : Outcome α) (next : α → Outcome β) : Outcome β :=
  match outcome with
  | .done result => next result
  | .stray id => .stray id
  | .exhausted recursion => .exhausted recursion

instance : Monad Outcome where
  pure := .done
  bind := bind

@[simp] theorem done_bind (result : α) (next : α → Outcome β) :
    (done result >>= next) = next result := rfl

/-- What the first step that finds something finds. The steps after it are not taken. -/
def first : List (Outcome (Option α)) → Outcome (Option α)
  | [] => .done none
  | step :: steps => do
    match ← step with
    | some found => .done (some found)
    | none => first steps

def collect : List (Outcome α) → Outcome (List α)
  | [] => .done []
  | step :: steps => do
    let result ← step
    let results ← collect steps
    .done (result :: results)

theorem collect_eq {items : List β} {step : β → Outcome α} (result : β → α)
    (h : ∀ item ∈ items, step item = .done (result item)) :
    collect (items.map step) = .done (items.map result) := by
  induction items with
  | nil => rfl
  | cons item items ih =>
    have hitem := h item List.mem_cons_self
    have hitems := ih fun other hm => h other (List.mem_cons_of_mem item hm)
    rw [List.map_cons, collect, hitem, hitems]
    rfl

/-- The outcome is `result`, unless a recursion that has not enough calls is exhausted. A stray
handle is never read. -/
def Settles (enough : Recursion → Prop) (result : α) : Outcome α → Prop
  | .done found => found = result
  | .stray _ => False
  | .exhausted recursion => ¬enough recursion

variable {enough : Recursion → Prop} {outcome : Outcome α} {result : α}

theorem settles_done (result : α) : (done result).Settles enough result := rfl

theorem Settles.bind (h : outcome.Settles enough result) {next : α → Outcome β} {answer : β}
    (hnext : (next result).Settles enough answer) : (outcome >>= next).Settles enough answer := by
  cases outcome with
  | done found =>
    cases h
    exact hnext
  | stray id => exact h
  | exhausted recursion => exact h

theorem Settles.ne_stray (h : outcome.Settles enough result) (id : TypeId) :
    outcome ≠ .stray id := by
  rintro rfl
  exact h

theorem Settles.ne_exhausted (h : outcome.Settles enough result) {recursion : Recursion}
    (henough : enough recursion) : outcome ≠ .exhausted recursion := by
  rintro rfl
  exact h henough

theorem Settles.eq_done (h : outcome.Settles enough result) (henough : ∀ r, enough r) :
    outcome = .done result := by
  cases outcome with
  | done found => exact congrArg done h
  | stray id => exact absurd rfl (h.ne_stray id)
  | exhausted recursion => exact absurd rfl (h.ne_exhausted (henough recursion))

theorem Settles.first_cons {step : Outcome (Option α)} {found : Option α}
    (h : step.Settles enough found) {steps : List (Outcome (Option α))} {rest : Option α}
    (hsteps : (first steps).Settles enough rest) :
    (first (step :: steps)).Settles enough (found.or rest) := by
  refine h.bind ?_
  cases found with
  | none => exact hsteps
  | some found => exact settles_done _

theorem Settles.first_pair {step next : Outcome (Option α)} {found rest : Option α}
    (h : step.Settles enough found) (hnext : next.Settles enough rest) :
    (first [step, next]).Settles enough (found.or rest) := by
  have hlast : (first [next]).Settles enough (rest.or none) := hnext.first_cons (settles_done none)
  rw [Option.or_none] at hlast
  exact h.first_cons hlast

theorem settles_first {items : List β} {step : β → Outcome (Option α)} (found : β → Option α)
    (h : ∀ item ∈ items, (step item).Settles enough (found item)) :
    (first (items.map step)).Settles enough (items.findSome? found) := by
  induction items with
  | nil => exact settles_done none
  | cons item items ih =>
    have hitem := h item List.mem_cons_self
    have hitems := ih fun other hm => h other (List.mem_cons_of_mem item hm)
    have heq : (item :: items).findSome? found = (found item).or (items.findSome? found) := by
      rw [List.findSome?_cons]
      cases found item <;> rfl
    rw [heq]
    exact hitem.first_cons hitems

end Outcome

/-- What a table holds at a handle, which must be in it. -/
def read {α : Type} (table : List α) (id : TypeId) : Outcome α :=
  match table[id]? with
  | some entry => .done entry
  | none => .stray id

theorem read_of_getElem? {α : Type} {table : List α} {id : TypeId} {entry : α}
    (h : table[id]? = some entry) : read table id = .done entry := by
  rw [read, h]

end SelectionQuery.Guarded
