import SelectionQuery.Json.Basic

/-! # Induction over JSON values

The values inside an array or an object are reached by membership, so the hypothesis of an
induction is stated for every item and for every entry. The height of a value is a measure for
recursions that go into it.
-/
namespace SelectionQuery.Json

@[elab_as_elim]
theorem induction {motive : Json → Prop} (null : motive .null)
    (bool : ∀ value, motive (.bool value)) (number : ∀ value, motive (.number value))
    (string : ∀ value, motive (.string value))
    (array : ∀ items, (∀ item ∈ items, motive item) → motive (.array items))
    (object : ∀ fields, (∀ key value, (key, value) ∈ fields → motive value) →
      motive (.object fields)) (value : Json) : motive value := by
  refine @Json.rec motive (fun items => ∀ item ∈ items, motive item)
    (fun fields => ∀ key value, (key, value) ∈ fields → motive value) (fun entry => motive entry.2)
    null bool number string array object (by simp) ?_ (by simp) ?_ (fun _ _ h => h) value
  · intro first rest hfirst hrest item hm
    rcases List.mem_cons.mp hm with rfl | hm
    · exact hfirst
    · exact hrest item hm
  · intro first rest hfirst hrest key value hm
    rcases List.mem_cons.mp hm with rfl | hm
    · exact hfirst
    · exact hrest key value hm

mutual
/-- The number of containers around the deepest place of a value. -/
def height : Json → Nat
  | .array items => itemsHeight items + 1
  | .object fields => fieldsHeight fields + 1
  | _ => 0

def itemsHeight : List Json → Nat
  | [] => 0
  | item :: items => max (height item) (itemsHeight items)

def fieldsHeight : List (String × Json) → Nat
  | [] => 0
  | (_, value) :: fields => max (height value) (fieldsHeight fields)
end

theorem height_lt_of_mem_items {items : List Json} {item : Json} (h : item ∈ items) :
    item.height < (Json.array items).height := by
  rw [height, Nat.lt_succ_iff]
  induction items with
  | nil => cases h
  | cons first rest ih =>
    rw [itemsHeight]
    rcases List.mem_cons.mp h with rfl | h
    · exact Nat.le_max_left _ _
    · exact Nat.le_trans (ih h) (Nat.le_max_right _ _)

theorem height_lt_of_mem_fields {fields : List (String × Json)} {name : String} {value : Json}
    (h : (name, value) ∈ fields) : value.height < (Json.object fields).height := by
  rw [height, Nat.lt_succ_iff]
  induction fields with
  | nil => cases h
  | cons first rest ih =>
    rcases first with ⟨key, other⟩
    rw [fieldsHeight]
    rcases List.mem_cons.mp h with heq | h
    · cases heq
      exact Nat.le_max_left _ _
    · exact Nat.le_trans (ih h) (Nat.le_max_right _ _)

end SelectionQuery.Json
