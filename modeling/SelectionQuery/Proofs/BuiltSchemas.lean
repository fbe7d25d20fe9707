import SelectionQuery.Proofs.FrozenTables

/-! # The invariant of built schemas

While steps are taken a draft may hold handles that lead nowhere, unions without members and
identifier types without an entity. A schema that comes out of a build holds none of these: its
searches by name and by entity find the one type that they should, and the attributes of nodes
reflect the final contents of the types. The table that the passes of a build leave has all this
stored, and no contents but those that belong to the kinds of its types.
-/
namespace SelectionQuery

namespace Schema

/-- What holds of a schema whatever steps it was built from. -/
structure WellFormed (schema : Schema) : Prop where
  target_known : ∀ type ∈ schema.types, ∀ name property,
    type.property? name = some property → property.target < schema.size
  argument_known : ∀ type ∈ schema.types, ∀ name property, type.property? name = some property →
    ∀ key argument, property.arguments.get? key = some argument → argument.type < schema.size
  member_known : ∀ type ∈ schema.types, ∀ member ∈ type.members, member < schema.size
  entity_known : ∀ type ∈ schema.types, ∀ entity, type.Addresses entity → entity < schema.size
  /-- There is a first type, and it is the only root. -/
  root_first : 0 < schema.size ∧
    ∀ (id : TypeId) (type : TypeDef), schema.types[id]? = some type →
      (type.kind = .root ↔ id = rootId)
  names_distinct : (schema.types.map TypeDef.name).Nodup
  name_index : ∀ name id,
    schema.typeId? name = some id ↔ ∃ type, schema.types[id]? = some type ∧ type.name = name
  properties_owned : ∀ type ∈ schema.types, type.properties.entries ≠ [] →
    type.kind = .root ∨ type.kind = .struct ∨ type.kind = .entity
  variants_owned : ∀ type ∈ schema.types, type.variants ≠ [] → type.kind = .enumeration
  members_iff : ∀ type ∈ schema.types, type.members ≠ [] ↔ type.kind = .union
  primitive_iff : ∀ type ∈ schema.types, type.primitive?.isSome = true ↔ type.kind = .primitive
  identifier_iff : ∀ type ∈ schema.types, type.identifier?.isSome = true ↔ type.kind = .entityId
  /-- The search by entity finds a type exactly if it is the one identifier type of the entity. -/
  identifier_index : ∀ entity type, schema.identifierFor? entity = some type ↔
    ∃ id : TypeId, schema.types[id]? = some type ∧ type.Addresses entity ∧
      ∀ (other : TypeId) (found : TypeDef), schema.types[other]? = some found →
        found.Addresses entity → other = id
  /-- Only entities have identifier types. -/
  entity_kind : ∀ type ∈ schema.types, ∀ entity, type.Addresses entity →
    (schema.typeAt entity).kind = .entity
  /-- A node of a property takes arguments, paging arguments on a list, a selection if the target
  has properties, and branches if it is a union. -/
  node_attributes : ∀ type ∈ schema.types, ∀ name property, type.property? name = some property →
    (schema.applicable property).contains .args = true ∧
    ((schema.applicable property).contains .listArgs = true ↔ property.list = true) ∧
    ((schema.applicable property).contains .select = true ↔
      (schema.typeAt property.target).properties.entries ≠ []) ∧
    ((schema.applicable property).contains .accept = true ↔
      (schema.typeAt property.target).kind = .union)
  /-- A branch takes a selection if its type has properties, branches if it is a union, and
  nothing else. -/
  branch_attributes : ∀ type ∈ schema.types,
    type.branchAttributes.contains .args = false ∧
    type.branchAttributes.contains .listArgs = false ∧
    (type.branchAttributes.contains .select = true ↔ type.properties.entries ≠ []) ∧
    (type.branchAttributes.contains .accept = true ↔ type.kind = .union)

theorem wellFormed_of_build {steps : List Step} {schema : Schema} (h : build steps = .ok schema) :
    schema.WellFormed := by
  have hl := linked_of_build h
  have hd := nodup_names_of_build h
  have hknown : ∀ type ∈ schema.types, ∀ id ∈ type.references, id < schema.size := hl.known
  have hunion := fun type hm => TypeDef.members_ne_nil_iff (hl.inhabited type hm)
  refine
    { target_known := ?_
      argument_known := ?_
      member_known := ?_
      entity_known := ?_
      root_first := ⟨size_pos_of_build h, fun id type => kind_eq_root_iff_of_build h⟩
      names_distinct := hd
      name_index := fun name id => typeId?_eq_some_iff hd
      properties_owned := fun type _ => TypeDef.kind_of_properties
      variants_owned := fun type _ => TypeDef.kind_of_variants
      members_iff := hunion
      primitive_iff := fun type _ => TypeDef.primitive?_isSome_iff
      identifier_iff := fun type _ => TypeDef.identifier?_isSome_iff
      identifier_index := fun entity type => ?_
      entity_kind := ?_
      node_attributes := ?_
      branch_attributes := fun type hm =>
        ⟨rfl, rfl, TypeDef.isSelectable_iff, TypeDef.isUnion_iff.trans (hunion type hm)⟩ }
  · intro type hm name property hp
    exact hknown type hm _ (mem_references_iff.mpr (.inl ⟨name, property, hp, .inl rfl⟩))
  · intro type hm name property hp key argument ha
    exact hknown type hm _
      (mem_references_iff.mpr (.inl ⟨name, property, hp, .inr ⟨key, argument, ha, rfl⟩⟩))
  · intro type hm member hin
    exact hknown type hm member (mem_references_iff.mpr (.inr (.inl hin)))
  · intro type hm entity ha
    exact hknown type hm entity (mem_references_iff.mpr (.inr (.inr ha)))
  · rw [identifierFor?_eq_some_iff hl.single]
    constructor
    · rintro ⟨hm, ha⟩
      obtain ⟨id, hid⟩ := List.mem_iff_getElem?.mp hm
      exact ⟨id, hid, ha, fun other found ho hf => index_eq_of_addresses hl.single ho hid hf ha⟩
    · rintro ⟨id, hid, ha, _⟩
      exact ⟨List.mem_of_getElem? hid, ha⟩
  · intro type hm entity ha
    exact hl.entities entity (mem_identifierTargets.mpr ⟨type, hm, ha⟩)
  · intro type hm name property hp
    have ht := hknown type hm _ (mem_references_iff.mpr (.inl ⟨name, property, hp, .inl rfl⟩))
    exact ⟨rfl, Iff.rfl, TypeDef.isSelectable_iff,
      TypeDef.isUnion_iff.trans (hunion _ (typeAt_mem ht))⟩

end Schema

namespace Guarded
open Schema Outcome

/-- What holds of the table that a build leaves, and of all that is stored in it. -/
structure Frozen.WellFormed (frozen : Frozen) : Prop where
  properties_owned : ∀ type ∈ frozen.types, type.properties.entries ≠ [] →
    type.kind = .root ∨ type.kind = .struct ∨ type.kind = .entity
  variants_owned : ∀ type ∈ frozen.types, type.variants ≠ [] → type.kind = .enumeration
  members_iff : ∀ type ∈ frozen.types, type.members ≠ [] ↔ type.kind = .union
  primitive_iff : ∀ type ∈ frozen.types, type.primitive?.isSome = true ↔ type.kind = .primitive
  identifier_iff : ∀ type ∈ frozen.types, type.identifier?.isSome = true ↔ type.kind = .entityId
  name_index : ∀ name id, frozen.names.get? name = some id ↔
    ∃ type, frozen.types[id]? = some type ∧ type.name = name
  identifier_index : ∀ entity id, frozen.identifiers.lookup entity = some id ↔
    ∃ type identifier, frozen.types[id]? = some type ∧ type.identifier? = some identifier ∧
      identifier.target = entity
  node_attributes : ∀ type ∈ frozen.types, ∀ name property,
    type.properties.get? name = some property →
    ∃ target, frozen.types[property.target]? = some target ∧
      (type.nodeAttributes name).contains .args = true ∧
      ((type.nodeAttributes name).contains .listArgs = true ↔ property.list = true) ∧
      ((type.nodeAttributes name).contains .select = true ↔ target.properties.entries ≠ []) ∧
      ((type.nodeAttributes name).contains .accept = true ↔ target.kind = .union)
  branch_attributes : ∀ type ∈ frozen.types,
    type.branch.contains .args = false ∧ type.branch.contains .listArgs = false ∧
    (type.branch.contains .select = true ↔ type.properties.entries ≠ []) ∧
    (type.branch.contains .accept = true ↔ type.kind = .union)

variable {schema : Schema}

theorem getElem?_freeze {id : TypeId} {type : FrozenType} :
    (freeze schema).types[id]? = some type ↔
      ∃ original, schema.types[id]? = some original ∧ freezeType schema original = type := by
  rw [freeze, List.getElem?_map, Option.map_eq_some_iff]

theorem wellFormed_freeze (hl : Linked schema.types) (h : schema.WellFormed) :
    (freeze schema).WellFormed := by
  constructor
  case properties_owned => exact forall_mem_freeze.mpr h.properties_owned
  case variants_owned => exact forall_mem_freeze.mpr h.variants_owned
  case members_iff => exact forall_mem_freeze.mpr h.members_iff
  case primitive_iff => exact forall_mem_freeze.mpr h.primitive_iff
  case identifier_iff => exact forall_mem_freeze.mpr h.identifier_iff
  case name_index =>
    intro name id
    rw [get?_names_freeze h.names_distinct, h.name_index]
    constructor
    · rintro ⟨type, ht, hname⟩
      exact ⟨freezeType schema type, getElem?_freeze.mpr ⟨type, ht, rfl⟩, hname⟩
    · rintro ⟨type, ht, hname⟩
      obtain ⟨original, ho, rfl⟩ := getElem?_freeze.mp ht
      exact ⟨original, ho, hname⟩
  case identifier_index =>
    intro entity id
    rw [lookup_identifiers_freeze hl.single]
    constructor
    · rintro ⟨type, ht, identifier, hi, htarget⟩
      exact ⟨freezeType schema type, identifier, getElem?_freeze.mpr ⟨type, ht, rfl⟩, hi, htarget⟩
    · rintro ⟨type, identifier, ht, hi, htarget⟩
      obtain ⟨original, ho, rfl⟩ := getElem?_freeze.mp ht
      exact ⟨original, ho, identifier, hi, htarget⟩
  case node_attributes =>
    refine forall_mem_freeze.mpr fun type ht name property hp => ?_
    have hknown := h.target_known type ht name property hp
    refine ⟨_, getElem?_freeze.mpr ⟨_, getElem?_typeAt hknown, rfl⟩, ?_⟩
    rw [nodeAttributes_freezeType hp]
    exact h.node_attributes type ht name property hp
  case branch_attributes => exact forall_mem_freeze.mpr h.branch_attributes

end Guarded

namespace Schema

/-- Whatever the steps and their order, a schema that they build is well-formed, and so is the table
that the passes of the build leave of it. -/
theorem build_wellFormed {steps : List Step} {schema : Schema} (h : build steps = .ok schema) :
    schema.WellFormed ∧ ∃ frozen, Guarded.build steps = .done (.ok frozen) ∧
      frozen.schema = schema ∧ frozen.WellFormed := by
  have hschema := wellFormed_of_build h
  refine ⟨hschema, Guarded.freeze schema, ?_, Guarded.schema_freeze schema,
    Guarded.wellFormed_freeze (linked_of_build h) hschema⟩
  rw [Guarded.build_eq, h]
  rfl

theorem userGraph_wellFormed :
    build UserGraph.steps = .ok userGraph ∧ userGraph.WellFormed ∧
    userGraph.types.map TypeDef.name = ["root", "Bool", "Float64", "Uint32", "Int32", "String", "Text",
      "Time", "PersonName", "User", "ID<User>", "UserOrString"] ∧
    (userGraph.typeAt UserGraph.user).property? "friends" =
      some { target := UserGraph.user, list := true } ∧
    (userGraph.typeAt UserGraph.userOrString).shape = .union [UserGraph.user, UserGraph.string] ∧
    ∃ frozen, Guarded.build UserGraph.steps = .done (.ok frozen) ∧ frozen.schema = userGraph ∧
      frozen.WellFormed ∧ frozen.names.get? "User" = some UserGraph.user ∧
      frozen.identifiers = [(UserGraph.user, UserGraph.userId)] ∧
      frozen.types[UserGraph.user]?.map (·.nodeAttributes "friends") = some ⟨true, true, true, false⟩ ∧
      frozen.types[UserGraph.userOrString]?.map (·.branch) = some ⟨false, false, false, true⟩ := by
  obtain ⟨hschema, frozen, hbuilt, hview, hfrozen⟩ :=
    build_wellFormed (rfl : build UserGraph.steps = .ok userGraph)
  refine ⟨rfl, hschema, by decide, rfl, rfl, frozen, hbuilt, hview, hfrozen, ?_⟩
  rw [Guarded.build_eq] at hbuilt
  cases hbuilt
  exact ⟨by decide, by decide, by decide, by decide⟩

end Schema
end SelectionQuery
