import SelectionQuery.Proofs.LiteralVerdicts

/-! # Shapes of accepted values

No type has `null` or an array among its values, whatever unions and structs stand between it and
them: `null` comes only from a declaration that is optional and an array only from one that is a list.
Hence lists in accepted values have one level, at any depth, and what is optional in a struct is never
optional in a list.
-/
namespace SelectionQuery
open Schema

/-- The value occurs in another one at some depth, or is it. -/
inductive Json.Occurs (part : Json) : Json → Prop
  | here : Occurs part part
  | item {item : Json} {items : List Json} (listed : item ∈ items) (inside : Occurs part item) :
      Occurs part (.array items)
  | field {name : String} {value : Json} {fields : List (String × Json)}
      (given : (name, value) ∈ fields) (inside : Occurs part value) : Occurs part (.object fields)

/-- The value is neither `null` nor an array. -/
def Json.Single (value : Json) : Prop := value.kind ≠ .null ∧ value.kind ≠ .array

/-- No array that occurs in the value has `null` or an array among its items. -/
def Json.FlatLists (value : Json) : Prop :=
  ∀ items, Json.Occurs (.array items) value → ∀ item ∈ items, item.Single

namespace Json

theorem flatLists_of_plain {value : Json} (harray : ∀ items, value ≠ .array items)
    (hobject : ∀ fields, value ≠ .object fields) : value.FlatLists := by
  intro items hoccurs
  cases hoccurs with
  | here => exact absurd rfl (harray items)
  | item => exact absurd rfl (harray _)
  | field => exact absurd rfl (hobject _)

theorem flatLists_array {items : List Json} (hsingle : ∀ item ∈ items, item.Single)
    (hitems : ∀ item ∈ items, item.FlatLists) : (Json.array items).FlatLists := by
  intro found hoccurs
  cases hoccurs with
  | here => exact hsingle
  | item listed inside => exact hitems _ listed found inside

theorem flatLists_object {fields : List (String × Json)}
    (hfields : ∀ name value, (name, value) ∈ fields → value.FlatLists) :
    (Json.object fields).FlatLists := by
  intro found hoccurs
  cases hoccurs with
  | field given inside => exact hfields _ _ given found inside

end Json

variable {schema : Schema} {value : Json}

theorem PrimitiveValue.single {primitive : Primitive} (h : PrimitiveValue primitive value) :
    value.Single := by
  cases h <;> exact ⟨nofun, nofun⟩

theorem ScalarValue.single (h : ScalarValue value) : value.Single := by
  cases h <;> exact ⟨nofun, nofun⟩

theorem Shape.Holds.single {shape : Shape} (hshape : shape.kind ≠ .union)
    (h : shape.Holds schema value) : value.Single := by
  cases shape with
  | primitive builtin => exact PrimitiveValue.single h
  | scalar => exact ScalarValue.single h
  | enumeration variants =>
    obtain ⟨s, rfl, _⟩ := h
    exact ⟨nofun, nofun⟩
  | entityId identifier =>
    obtain ⟨s, rfl, _⟩ := h
    exact ⟨nofun, nofun⟩
  | record role properties =>
    cases role with
    | struct =>
      obtain ⟨fields, rfl, _⟩ := h
      exact ⟨nofun, nofun⟩
    | root | entity => cases h
  | union members => exact absurd rfl hshape
  | trait => cases h

/-- A union has the values of its leaves, so it takes neither of the two as well. -/
theorem HasType.single {id : TypeId} (h : HasType schema id value) : value.Single := by
  obtain ⟨leaf, ⟨_, hkind⟩, hvalue⟩ := hasType_iff_leaf.mp h
  exact (hasType_iff_holds.mp hvalue).single hkind

/-- Lists have one level, by the derivation that a value fits: a list has items of a type, and these
are single; a struct passes on what holds of its fields, and a union what holds of its member. -/
theorem Fits.flatLists {argument : Argument} (h : Fits schema argument value) : value.FlatLists := by
  refine @Fits.rec schema (fun _ value _ => value.FlatLists) (fun _ value _ => value.FlatLists)
    ?primitive ?scalar ?variant ?identifier ?struct ?member ?null ?single ?list argument value h
  case primitive =>
    intro id primitive value _ fits
    cases fits <;> exact Json.flatLists_of_plain nofun nofun
  case scalar =>
    intro id value _ fits
    cases fits <;> exact Json.flatLists_of_plain nofun nofun
  case variant => exact fun _ _ => Json.flatLists_of_plain nofun nofun
  case identifier => exact fun _ _ => Json.flatLists_of_plain nofun nofun
  case struct =>
    intro id properties fields _ declared _ ih
    refine Json.flatLists_object fun name value hm => ?_
    obtain ⟨property, hp⟩ := Option.isSome_iff_exists.mp (declared name value hm)
    exact ih name value property hm hp
  case member => exact fun _ _ ih => ih
  case null => exact fun _ => Json.flatLists_of_plain nofun nofun
  case single => exact fun _ _ _ ih => ih
  case list => exact fun _ fits ih => Json.flatLists_array (fun item hm => (fits item hm).single) ih

/-- A value that fits is `null` only where that is allowed, and otherwise an array exactly where a list
is declared. -/
theorem Fits.kind {argument : Argument} (h : Fits schema argument value) :
    (value.kind = .null → argument.optional = true) ∧
    (value.kind ≠ .null → (value.kind = .array ↔ argument.list = true)) := by
  cases h with
  | null optional => exact ⟨fun _ => optional, fun hne => absurd rfl hne⟩
  | single present list fits =>
    have hsingle := fits.single
    exact ⟨fun hnull => absurd hnull hsingle.1,
      fun _ => ⟨fun harray => absurd harray hsingle.2, fun hlist => by simp [list] at hlist⟩⟩
  | list list fits => exact ⟨nofun, fun _ => ⟨fun _ => list, fun _ => rfl⟩⟩

/-- An accepted argument is `null` only if it is optional and otherwise an array exactly if it is a
list, and no array at any depth of it has `null` or an array among its items. For no type accepts
either of these as a literal. -/
theorem accepted_argument_shape {steps : List Step} (h : build steps = .ok schema)
    (hac : schema.UnionAcyclic) :
    (∀ argument, argument.type < schema.size → ∀ path value,
      Literal.argumentViolation? schema argument path value = none →
      (value.kind = .null → argument.optional = true) ∧
      (value.kind ≠ .null → (value.kind = .array ↔ argument.list = true)) ∧
      ∀ items, Json.Occurs (.array items) value →
        ∀ item ∈ items, item.kind ≠ .null ∧ item.kind ≠ .array) ∧
    ∀ id < schema.size, ∀ path value,
      Literal.violation? schema path (schema.typeAt id) value = none →
        value.kind ≠ .null ∧ value.kind ≠ .array := by
  have hl := linked_of_build h
  constructor
  · intro argument hid path value haccepted
    have hfits := (Literal.argumentViolation?_eq_none_iff_fits hl hac hid path value).mp haccepted
    exact ⟨hfits.kind.1, hfits.kind.2, hfits.flatLists⟩
  · intro id hid path value haccepted
    exact ((Literal.violation?_eq_none_iff_hasType hl hac hid path value).mp haccepted).single

/-- A filter that is accepted holds `null` as a field and tags in a list two levels down, while a list
of tags is no condition and one with `null` is no list of tags. -/
theorem nestedFilter_shape :
    build filterSteps = .ok filterGraph ∧ filterGraph.UnionAcyclic ∧
      Literal.argumentViolation? filterGraph { type := 4 } .root (nestedFilter 0 "new") = none ∧
      (∀ items, Json.Occurs (.array items) (nestedFilter 0 "new") →
        ∀ item ∈ items, item.kind ≠ .null ∧ item.kind ≠ .array) ∧
      Literal.violation? filterGraph .root (filterGraph.typeAt 4) (.array [.string "new"]) ≠ none ∧
      Literal.argumentViolation? filterGraph { type := 1, optional := true, list := true } .root
        (.array [.string "new", .null]) ≠ none := by
  have hbuilt : build filterSteps = .ok filterGraph := rfl
  have hac : filterGraph.UnionAcyclic := unionAcyclic_of_lt (by decide)
  have haccepted : Literal.argumentViolation? filterGraph { type := 4 } .root (nestedFilter 0 "new") =
      none := Option.isNone_iff_eq_none.mp (by decide +kernel)
  obtain ⟨harguments, htypes⟩ := accepted_argument_shape hbuilt hac
  refine ⟨hbuilt, hac, haccepted, (harguments _ (by decide) .root _ haccepted).2.2, ?_, ?_⟩
  · intro hnone
    exact (htypes 4 (by decide) .root _ hnone).2 rfl
  · intro hnone
    exact ((harguments _ (by decide) .root _ hnone).2.2 _ .here .null (by simp)).1 rfl

end SelectionQuery
