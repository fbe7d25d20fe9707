import SelectionQuery.Proofs.SchemaLinks

/-! # Searches of built schemas

In a schema that comes out of a build no two types have one name, no entity has two identifier types
and every handle leads to a type. So its searches by name, by entity and among members find the one
type that they should.
-/
namespace SelectionQuery

def TypeDef.Addresses (type : TypeDef) (entity : TypeId) : Prop :=
  ∃ identifier, type.identifier? = some identifier ∧ identifier.target = entity

namespace TypeDef
variable {type : TypeDef}

theorem kind_of_properties (h : type.properties.entries ≠ []) :
    type.kind = .root ∨ type.kind = .struct ∨ type.kind = .entity := by
  rcases type with ⟨name, shape⟩
  cases shape with
  | record role properties => cases role <;> simp [kind, Shape.kind, Role.kind]
  | primitive | scalar | enumeration | entityId | union | trait => exact absurd rfl h

theorem kind_of_variants (h : type.variants ≠ []) : type.kind = .enumeration := by
  rcases type with ⟨name, shape⟩
  cases shape with
  | enumeration variants => rfl
  | record | primitive | scalar | entityId | union | trait => exact absurd rfl h

theorem members_ne_nil_iff (hin : type.kind = .union → type.members ≠ []) :
    type.members ≠ [] ↔ type.kind = .union := by
  refine ⟨fun h => ?_, hin⟩
  rcases type with ⟨name, shape⟩
  cases shape with
  | union members => rfl
  | record | primitive | scalar | enumeration | entityId | trait => exact absurd rfl h

theorem primitive?_isSome_iff : type.primitive?.isSome = true ↔ type.kind = .primitive := by
  rcases type with ⟨name, shape⟩
  cases shape with
  | primitive primitive => exact ⟨fun _ => rfl, fun _ => rfl⟩
  | record role properties => cases role <;> exact ⟨nofun, nofun⟩
  | scalar | enumeration | entityId | union | trait => exact ⟨nofun, nofun⟩

theorem identifier?_isSome_iff : type.identifier?.isSome = true ↔ type.kind = .entityId := by
  rcases type with ⟨name, shape⟩
  cases shape with
  | entityId identifier => exact ⟨fun _ => rfl, fun _ => rfl⟩
  | record role properties => cases role <;> exact ⟨nofun, nofun⟩
  | primitive | scalar | enumeration | union | trait => exact ⟨nofun, nofun⟩

theorem isSelectable_iff : type.isSelectable = true ↔ type.properties.entries ≠ [] := by
  rw [isSelectable, Bool.not_eq_true', NameMap.isEmpty_eq_false_iff]

theorem isUnion_iff : type.isUnion = true ↔ type.members ≠ [] := by
  simp [isUnion]

end TypeDef

namespace Schema

section Positions
variable {types : List TypeDef} {i j : TypeId} {a b : TypeDef}

theorem index_eq_of_name (hd : (types.map TypeDef.name).Nodup) (hi : types[i]? = some a)
    (hj : types[j]? = some b) (h : a.name = b.name) : i = j := by
  have hlt : i < (types.map TypeDef.name).length := by
    simpa using (List.getElem?_eq_some_iff.mp hi).1
  refine (List.getElem?_inj hlt hd).mp ?_
  rw [List.getElem?_map, List.getElem?_map, hi, hj, Option.map_some, Option.map_some, h]

theorem mem_identifierTargets {entity : TypeId} :
    entity ∈ identifierTargets types ↔ ∃ type ∈ types, type.Addresses entity := by
  simp [identifierTargets, TypeDef.Addresses]

theorem index_eq_of_addresses (hd : (identifierTargets types).Nodup) {entity : TypeId}
    (hi : types[i]? = some a) (hj : types[j]? = some b) (ha : a.Addresses entity)
    (hb : b.Addresses entity) : i = j := by
  obtain ⟨first, hf, hfe⟩ := ha
  obtain ⟨second, hs, hse⟩ := hb
  obtain ⟨hil, rfl⟩ := List.getElem?_eq_some_iff.mp hi
  obtain ⟨hjl, rfl⟩ := List.getElem?_eq_some_iff.mp hj
  have hp := List.pairwise_iff_getElem.mp (List.pairwise_filterMap.mp hd)
  rcases lt_trichotomy i j with h | h | h
  · exact absurd (hfe.trans hse.symm) (hp i j hil hjl h _ (by simp [hf]) _ (by simp [hs]))
  · exact h
  · exact absurd (hse.trans hfe.symm) (hp j i hjl hil h _ (by simp [hs]) _ (by simp [hf]))

end Positions

section Built
variable {steps : List Step} {schema : Schema}

theorem linked_of_build (h : build steps = .ok schema) : Linked schema.types := by
  obtain ⟨_, hl, rfl⟩ := build_eq_ok_iff.mp h
  exact hl

theorem nodup_names_of_build (h : build steps = .ok schema) :
    (schema.types.map TypeDef.name).Nodup := by
  obtain ⟨hs, _, rfl⟩ := build_eq_ok_iff.mp h
  rw [map_name_assemble]
  exact hs.nodup_names

theorem kind_of_declared {step : Step} {type : TypeDef} (h : step.declared? = some type) :
    type.kind ≠ .root := by
  cases step with
  | declare name kind => cases kind <;> cases h <;> nofun
  | primitive | entityId => cases h; nofun
  | define => cases h

theorem kind_eq_root_iff_of_build (h : build steps = .ok schema) {id : TypeId} {type : TypeDef}
    (ht : schema.types[id]? = some type) : type.kind = .root ↔ id = rootId := by
  obtain ⟨_, _, rfl⟩ := build_eq_ok_iff.mp h
  rw [assemble_getElem?] at ht
  obtain ⟨declared, hd, rfl⟩ := Option.map_eq_some_iff.mp ht
  rw [complete_kind]
  cases id with
  | zero =>
    cases hd
    exact ⟨fun _ => rfl, fun _ => rfl⟩
  | succ i =>
    have hm : declared ∈ steps.filterMap Step.declared? := List.mem_of_getElem? hd
    obtain ⟨step, _, hstep⟩ := List.mem_filterMap.mp hm
    exact ⟨fun hk => absurd hk (kind_of_declared hstep), nofun⟩

theorem size_pos_of_build (h : build steps = .ok schema) : 0 < schema.size := by
  obtain ⟨_, _, rfl⟩ := build_eq_ok_iff.mp h
  simp [size, declaredTypes, Draft.initial]

end Built

theorem typeId?_eq_some_iff {schema : Schema} (hd : (schema.types.map TypeDef.name).Nodup)
    {name : String} {id : TypeId} :
    schema.typeId? name = some id ↔ ∃ type, schema.types[id]? = some type ∧ type.name = name := by
  rw [typeId?, List.findIdx?_eq_some_iff_getElem]
  constructor
  · rintro ⟨hid, hn, _⟩
    exact ⟨_, List.getElem?_eq_getElem hid, by simpa using hn⟩
  · rintro ⟨type, ht, hn⟩
    obtain ⟨hid, hget⟩ := List.getElem?_eq_some_iff.mp ht
    refine ⟨hid, by simpa [hget] using hn, ?_⟩
    intro j hj hjn
    have hjt := List.getElem?_eq_getElem (l := schema.types) (hj.trans hid)
    have heq := index_eq_of_name hd hjt ht ((by simpa using hjn : _ = name).trans hn.symm)
    exact hj.ne heq

theorem any_target_iff {type : TypeDef} {entity : TypeId} :
    (type.identifier?.any fun identifier => identifier.target == entity) = true ↔
      type.Addresses entity := by
  simp [Option.any_eq_true, TypeDef.Addresses]

theorem identifierFor?_eq_some {schema : Schema} {entity : TypeId} {type : TypeDef}
    (h : schema.identifierFor? entity = some type) : type ∈ schema.types ∧ type.Addresses entity := by
  have ht := List.find?_some h
  exact ⟨List.mem_of_find?_eq_some h, any_target_iff.mp ht⟩

theorem identifierFor?_eq_none_iff {schema : Schema} {entity : TypeId} :
    schema.identifierFor? entity = none ↔ ∀ type ∈ schema.types, ¬type.Addresses entity := by
  simp only [identifierFor?, List.find?_eq_none, any_target_iff]

/-- The search by entity finds the one identifier type of the entity. -/
theorem identifierFor?_eq_some_iff {schema : Schema} (hd : (identifierTargets schema.types).Nodup)
    {entity : TypeId} {type : TypeDef} :
    schema.identifierFor? entity = some type ↔ type ∈ schema.types ∧ type.Addresses entity := by
  refine ⟨identifierFor?_eq_some, fun ⟨hm, ha⟩ => ?_⟩
  obtain ⟨found, hf⟩ := Option.ne_none_iff_exists'.mp fun hnone =>
    identifierFor?_eq_none_iff.mp hnone type hm ha
  obtain ⟨hfm, hfa⟩ := identifierFor?_eq_some hf
  obtain ⟨i, hi⟩ := List.mem_iff_getElem?.mp hm
  obtain ⟨j, hj⟩ := List.mem_iff_getElem?.mp hfm
  cases index_eq_of_addresses hd hi hj ha hfa
  rw [hf, ← hj, hi]

/-- The scan for a member finds the one of that name, since no two types have one name. -/
theorem unionMember?_eq_some_iff {schema : Schema} (hl : Linked schema.types)
    (hd : (schema.types.map TypeDef.name).Nodup) {union : TypeDef} (hu : union ∈ schema.types)
    {name : String} {id : TypeId} : schema.unionMember? union name = some id ↔
      id ∈ union.members ∧ (schema.typeAt id).name = name := by
  have hlt : ∀ member ∈ union.members, member < schema.size := fun member hm =>
    hl.known union hu member (mem_references_iff.mpr (.inr (.inl hm)))
  constructor
  · intro hfind
    exact ⟨List.mem_of_find?_eq_some hfind, by simpa using List.find?_some hfind⟩
  · rintro ⟨hm, rfl⟩
    cases hfind : schema.unionMember? union (schema.typeAt id).name with
    | none => simpa using List.find?_eq_none.mp hfind id hm
    | some other =>
      have hother := hlt other (List.mem_of_find?_eq_some hfind)
      have hname : (schema.typeAt other).name = (schema.typeAt id).name := by
        simpa using List.find?_some hfind
      have heq : other = id :=
        index_eq_of_name hd (getElem?_typeAt hother) (getElem?_typeAt (hlt id hm)) hname
      rw [heq]

end Schema
end SelectionQuery
