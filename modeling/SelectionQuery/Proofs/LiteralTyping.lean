import SelectionQuery.Proofs.JsonInduction
import SelectionQuery.Proofs.UnionLeaves

/-! # Typing of literals

A value has a type, or fits a declaration, by rules that say nothing of the order in which fields,
items or members are tried. The checks of literals find no violation exactly when the value follows
the rules.
-/
namespace SelectionQuery

/-- The values of the built-in types. A float is no integer. -/
inductive PrimitiveValue : Primitive → Json → Prop
  | bool (b : Bool) : PrimitiveValue .bool (.bool b)
  | float64 (n : Json.Number) : PrimitiveValue .float64 (.number n)
  | int32 (n : Int) (lower : -2147483648 ≤ n) (upper : n ≤ 2147483647) :
      PrimitiveValue .int32 (.number (.integer n))
  | uint32 (n : Int) (lower : 0 ≤ n) (upper : n ≤ 4294967295) :
      PrimitiveValue .uint32 (.number (.integer n))
  | string (s : String) : PrimitiveValue .string (.string s)
  | text (s : String) : PrimitiveValue .text (.string s)
  | time (s : String) (stamp : (Timestamp.parse? s).isSome = true) : PrimitiveValue .time (.string s)

/-- The values of a scalar type. -/
inductive ScalarValue : Json → Prop
  | bool (b : Bool) : ScalarValue (.bool b)
  | number (n : Json.Number) : ScalarValue (.number n)
  | string (s : String) : ScalarValue (.string s)

mutual
/-- The value has the type behind the handle. Roots, entities and traits have no values. -/
inductive HasType (schema : Schema) : TypeId → Json → Prop
  | primitive {id : TypeId} {primitive : Primitive} {value : Json}
      (shape : (schema.typeAt id).shape = .primitive primitive)
      (fits : PrimitiveValue primitive value) : HasType schema id value
  | scalar {id : TypeId} {value : Json} (shape : (schema.typeAt id).shape = .scalar)
      (fits : ScalarValue value) : HasType schema id value
  | variant {id : TypeId} {variants : List String} {s : String}
      (shape : (schema.typeAt id).shape = .enumeration variants) (declared : s ∈ variants) :
      HasType schema id (.string s)
  | identifier {id : TypeId} {identifier : Identifier} {s : String}
      (shape : (schema.typeAt id).shape = .entityId identifier)
      (accepted : identifier.rule.accepts s = true) : HasType schema id (.string s)
  /-- Every field is declared and fits its declaration; fields may be missing. -/
  | struct {id : TypeId} {properties : NameMap Property} {fields : List (String × Json)}
      (shape : (schema.typeAt id).shape = .record .struct properties)
      (declared : ∀ name value, (name, value) ∈ fields → (properties.get? name).isSome = true)
      (fits : ∀ name value property, (name, value) ∈ fields →
        properties.get? name = some property →
        Fits schema { type := property.target, list := property.list, optional := true } value) :
      HasType schema id (.object fields)
  | member {id member : TypeId} {value : Json} (step : schema.MemberStep id member)
      (fits : HasType schema member value) : HasType schema id value

/-- The value fits the declaration of an argument. -/
inductive Fits (schema : Schema) : Argument → Json → Prop
  | null {argument : Argument} (optional : argument.optional = true) : Fits schema argument .null
  | single {argument : Argument} {value : Json} (present : value ≠ .null)
      (list : argument.list = false) (fits : HasType schema argument.type value) :
      Fits schema argument value
  | list {argument : Argument} {items : List Json} (list : argument.list = true)
      (fits : ∀ item ∈ items, HasType schema argument.type item) : Fits schema argument (.array items)
end

theorem PrimitiveValue.iff_fits {primitive : Primitive} {value : Json} :
    PrimitiveValue primitive value ↔ primitive.fits value = true := by
  constructor
  · intro h
    cases h with
    | bool | float64 | string | text => rfl
    | int32 n lower upper => simp [Primitive.fits, lower, upper]
    | uint32 n lower upper => simp [Primitive.fits, lower, upper]
    | time s stamp => exact stamp
  · intro h
    unfold Primitive.fits at h
    split at h
    · exact .bool _
    · exact .float64 _
    · simp only [Bool.and_eq_true, decide_eq_true_eq] at h
      exact .int32 _ h.1 h.2
    · simp only [Bool.and_eq_true, decide_eq_true_eq] at h
      exact .uint32 _ h.1 h.2
    · exact .string _
    · exact .text _
    · exact .time _ h
    · cases h

example : PrimitiveValue .time (.string "2024-02-29T23:59:59.5+05:30") :=
  PrimitiveValue.iff_fits.mpr (by decide +kernel)

example : ¬PrimitiveValue .time (.string "2023-02-29T12:00:00Z") :=
  PrimitiveValue.iff_fits.not.mpr (by decide +kernel)

theorem ScalarValue.iff_isScalar {value : Json} : ScalarValue value ↔ value.isScalar = true := by
  constructor
  · intro h
    cases h <;> rfl
  · intro h
    cases value with
    | bool b => exact .bool b
    | number n => exact .number n
    | string s => exact .string s
    | null | array | object => cases h

/-- What a value of a type of this shape looks like. -/
def Shape.Holds (schema : Schema) (value : Json) : Shape → Prop
  | .primitive builtin => PrimitiveValue builtin value
  | .scalar => ScalarValue value
  | .enumeration variants => ∃ s, value = .string s ∧ s ∈ variants
  | .entityId identifier => ∃ s, value = .string s ∧ identifier.rule.accepts s = true
  | .record .struct properties => ∃ fields, value = .object fields ∧
      ∀ name value, (name, value) ∈ fields → ∃ property, properties.get? name = some property ∧
        Fits schema property.asField value
  | .union members => ∃ member ∈ members, HasType schema member value
  | .record _ _ | .trait => False

variable {schema : Schema} {id : TypeId} {value : Json}

theorem hasType_iff_holds :
    HasType schema id value ↔ (schema.typeAt id).shape.Holds schema value := by
  constructor
  · intro h
    cases h with
    | primitive shape fits => rw [shape]; exact fits
    | scalar shape fits => rw [shape]; exact fits
    | variant shape declared => rw [shape]; exact ⟨_, rfl, declared⟩
    | identifier shape accepted => rw [shape]; exact ⟨_, rfl, accepted⟩
    | struct shape declared fits =>
      rw [shape]
      refine ⟨_, rfl, fun name value hm => ?_⟩
      obtain ⟨property, hp⟩ := Option.isSome_iff_exists.mp (declared name value hm)
      exact ⟨property, hp, fits name value property hm hp⟩
    | member step fits =>
      obtain ⟨members, shape, hm⟩ := step.shape
      rw [shape]
      exact ⟨_, hm, fits⟩
  · intro h
    cases hs : (schema.typeAt id).shape with
    | primitive primitive => rw [hs] at h; exact .primitive hs h
    | scalar => rw [hs] at h; exact .scalar hs h
    | enumeration variants =>
      rw [hs] at h
      obtain ⟨s, rfl, hm⟩ := h
      exact .variant hs hm
    | entityId identifier =>
      rw [hs] at h
      obtain ⟨s, rfl, ha⟩ := h
      exact .identifier hs ha
    | record role properties =>
      rw [hs] at h
      cases role with
      | struct =>
        obtain ⟨fields, rfl, hf⟩ := h
        refine .struct hs (fun name value hm => ?_) (fun name value property hm hp => ?_)
        · obtain ⟨property, hp, _⟩ := hf name value hm
          exact Option.isSome_iff_exists.mpr ⟨property, hp⟩
        · obtain ⟨found, hfound, hfits⟩ := hf name value hm
          rw [hp] at hfound
          cases hfound
          exact hfits
      | root | entity => cases h
    | union members =>
      rw [hs] at h
      obtain ⟨member, hm, hv⟩ := h
      exact .member (Schema.memberStep_of_shape hs hm) hv
    | trait => rw [hs] at h; cases h

/-- A value has a type exactly if it has the type of one of its leaves. -/
theorem hasType_iff_leaf :
    HasType schema id value ↔ ∃ leaf, schema.Leaf id leaf ∧ HasType schema leaf value := by
  constructor
  · intro h
    refine @HasType.rec schema (fun id value _ => ∃ leaf, schema.Leaf id leaf ∧
      HasType schema leaf value) (fun _ _ _ => True) ?_ ?_ ?_ ?_ ?_ ?_ (fun _ => trivial)
      (fun _ _ _ _ => trivial) (fun _ _ _ => trivial) id value h
    · intro id primitive value shape fits
      exact ⟨id, Schema.leaf_self (by simp [TypeDef.kind, shape, Shape.kind]), .primitive shape fits⟩
    · intro id value shape fits
      exact ⟨id, Schema.leaf_self (by simp [TypeDef.kind, shape, Shape.kind]), .scalar shape fits⟩
    · intro id variants s shape declared
      exact ⟨id, Schema.leaf_self (by simp [TypeDef.kind, shape, Shape.kind]), .variant shape declared⟩
    · intro id identifier s shape accepted
      exact ⟨id, Schema.leaf_self (by simp [TypeDef.kind, shape, Shape.kind]),
        .identifier shape accepted⟩
    · intro id properties fields shape declared fits _
      exact ⟨id, Schema.leaf_self (by simp [TypeDef.kind, shape, Shape.kind, Role.kind]),
        .struct shape declared fits⟩
    · rintro id member value step _ ⟨leaf, ⟨hreach, hk⟩, hv⟩
      exact ⟨leaf, ⟨.head step hreach, hk⟩, hv⟩
  · rintro ⟨leaf, ⟨hreach, _⟩, hv⟩
    induction hreach using Relation.ReflTransGen.head_induction_on with
    | refl => exact hv
    | head hstep _ ih => exact .member hstep ih

section Fitting
variable {argument : Argument}

theorem fits_null_iff : Fits schema argument .null ↔ argument.optional = true := by
  constructor
  · intro h
    cases h with
    | null optional => exact optional
    | single present => exact absurd rfl present
  · exact .null

theorem fits_plain_iff (hn : value ≠ .null) (ha : ∀ items, value ≠ .array items) :
    Fits schema argument value ↔ argument.list = false ∧ HasType schema argument.type value := by
  constructor
  · intro h
    cases h with
    | null => exact absurd rfl hn
    | single _ list fits => exact ⟨list, fits⟩
    | list => exact absurd rfl (ha _)
  · rintro ⟨list, fits⟩
    exact .single hn list fits

theorem fits_array_iff {items : List Json} :
    Fits schema argument (.array items) ↔
      (argument.list = false ∧ HasType schema argument.type (.array items)) ∨
      (argument.list = true ∧ ∀ item ∈ items, HasType schema argument.type item) := by
  constructor
  · intro h
    cases h with
    | single _ list fits => exact .inl ⟨list, fits⟩
    | list list fits => exact .inr ⟨list, fits⟩
  · rintro (⟨list, fits⟩ | ⟨list, fits⟩)
    · exact .single nofun list fits
    · exact .list list fits

end Fitting

end SelectionQuery
