import SelectionQuery.Proofs.StepAssembly

/-! # Links between the types of a table

The checks made at the end of a build look for the first handle that leads nowhere, the first union
without members and the first identifier type that addresses no entity or a second time. They find
nothing exactly when the table is linked, so a build succeeds exactly when all steps are admissible
and the table that they assemble is linked.
-/
namespace SelectionQuery.Schema

theorem typeAt_of_getElem? {schema : Schema} {id : TypeId} {type : TypeDef}
    (h : schema.types[id]? = some type) : schema.typeAt id = type := by
  simp [typeAt, List.getD_eq_getElem?_getD, h]

theorem getElem?_typeAt {schema : Schema} {id : TypeId} (h : id < schema.size) :
    schema.types[id]? = some (schema.typeAt id) := by
  have hget := List.getElem?_eq_getElem (l := schema.types) h
  rw [typeAt_of_getElem? hget, hget]

theorem typeAt_mem {schema : Schema} {id : TypeId} (h : id < schema.size) :
    schema.typeAt id ∈ schema.types := List.mem_of_getElem? (getElem?_typeAt h)

theorem kind_typeAt_eq_entity_iff {schema : Schema} {id : TypeId} :
    (schema.typeAt id).kind = .entity ↔
      ∃ entity, schema.types[id]? = some entity ∧ entity.kind = .entity := by
  constructor
  · intro h
    by_cases hid : id < schema.size
    · exact ⟨_, getElem?_typeAt hid, h⟩
    · have hnone : schema.types[id]? = none := List.getElem?_eq_none (Nat.not_lt.mp hid)
      rw [typeAt, List.getD_eq_getElem?_getD, hnone] at h
      cases h
  · rintro ⟨entity, he, hk⟩
    rw [typeAt_of_getElem? he, hk]

/-- The handles that a type mentions: targets of properties, types of arguments, members, and the
entity that it identifies. -/
theorem mem_references_iff {type : TypeDef} {id : TypeId} :
    id ∈ type.references ↔
      (∃ name property, type.property? name = some property ∧ (id = property.target ∨
        ∃ key argument, property.arguments.get? key = some argument ∧ id = argument.type)) ∨
      id ∈ type.members ∨
      ∃ identifier, type.identifier? = some identifier ∧ identifier.target = id := by
  simp only [TypeDef.references, List.mem_append, List.mem_flatMap, NameMap.mem_values_iff,
    List.mem_cons, List.mem_map, Option.mem_toList, Option.map_eq_some_iff, TypeDef.property?,
    or_assoc]
  apply or_congr_left
  constructor
  · rintro ⟨property, ⟨name, hp⟩, rfl | ⟨argument, ⟨key, ha⟩, rfl⟩⟩
    · exact ⟨name, property, hp, .inl rfl⟩
    · exact ⟨name, property, hp, .inr ⟨key, argument, ha, rfl⟩⟩
  · rintro ⟨name, property, hp, rfl | ⟨key, argument, ha, rfl⟩⟩
    · exact ⟨property, ⟨name, hp⟩, .inl rfl⟩
    · exact ⟨property, ⟨name, hp⟩, .inr ⟨argument, ⟨key, ha⟩, rfl⟩⟩

/-- The entities that identifier types address, in the order of these types. -/
def identifierTargets (types : List TypeDef) : List TypeId :=
  types.filterMap fun type => type.identifier?.map Identifier.target

theorem referenceProblem?_eq_none_iff {size : Nat} {type : TypeDef} :
    referenceProblem? size type = none ↔
      (∀ id ∈ type.references, id < size) ∧ (type.kind = .union → type.members ≠ []) := by
  unfold referenceProblem?
  split
  next id h =>
    have hm := List.mem_of_find?_eq_some h
    have hle : size ≤ id := by simpa using List.find?_some h
    exact ⟨nofun, fun hall => absurd (hall.1 id hm) (Nat.not_lt.mpr hle)⟩
  next h =>
    have hlt : ∀ id ∈ type.references, id < size := by simpa using h
    rw [and_iff_right hlt]
    simp

theorem identifierProblem?_eq_none_iff {schema : Schema} {addressed : List TypeId}
    {types : List TypeDef} :
    identifierProblem? schema addressed types = none ↔
      (∀ target ∈ identifierTargets types, (schema.typeAt target).kind = .entity) ∧
      (identifierTargets types).Nodup ∧ ∀ target ∈ identifierTargets types, target ∉ addressed := by
  induction types generalizing addressed with
  | nil => simp [identifierProblem?, identifierTargets]
  | cons type types ih =>
    rw [identifierProblem?]
    cases hi : type.identifier? with
    | none =>
      have ht : identifierTargets (type :: types) = identifierTargets types := by
        simp [identifierTargets, hi]
      rw [ht]
      exact ih
    | some identifier =>
      have ht : identifierTargets (type :: types) =
          identifier.target :: identifierTargets types := by
        simp [identifierTargets, hi]
      simp only [ht, List.forall_mem_cons, List.nodup_cons]
      split
      next hk => exact ⟨nofun, fun h => absurd h.1.1 hk⟩
      next hk =>
        split
        next hm => exact ⟨nofun, fun h => absurd hm h.2.2.1⟩
        next hm =>
          rw [ih]
          simp only [List.mem_cons, not_or]
          constructor
          · rintro ⟨hkinds, hd, hnew⟩
            exact ⟨⟨not_not.mp hk, hkinds⟩, ⟨fun hin => (hnew _ hin).1 rfl, hd⟩, hm,
              fun target hin => (hnew target hin).2⟩
          · rintro ⟨⟨_, hkinds⟩, ⟨hout, hd⟩, _, hnew⟩
            exact ⟨hkinds, hd, fun target hin => ⟨fun he => hout (he ▸ hin), hnew target hin⟩⟩

/-- The types of a table refer to each other as the end of a build demands. -/
structure Linked (draft : Draft) : Prop where
  /-- Every handle that a type mentions lies in the table. -/
  known : ∀ type ∈ draft, ∀ id ∈ type.references, id < draft.length
  inhabited : ∀ type ∈ draft, type.kind = .union → type.members ≠ []
  entities : ∀ target ∈ identifierTargets draft, ((Schema.mk draft).typeAt target).kind = .entity
  /-- No entity is addressed by two identifier types. -/
  single : (identifierTargets draft).Nodup

theorem linkProblem?_eq_none_iff {draft : Draft} : linkProblem? draft = none ↔ Linked draft := by
  unfold linkProblem?
  split
  next problem h =>
    refine ⟨nofun, fun hl => ?_⟩
    obtain ⟨type, hm, hp⟩ := List.exists_of_findSome?_eq_some h
    have hnone := referenceProblem?_eq_none_iff.mpr ⟨hl.known type hm, hl.inhabited type hm⟩
    rw [hnone] at hp
    cases hp
  next h =>
    have href := fun type hm => referenceProblem?_eq_none_iff.mp (List.findSome?_eq_none_iff.mp h type hm)
    rw [identifierProblem?_eq_none_iff]
    constructor
    · rintro ⟨hkinds, hd, _⟩
      exact ⟨fun type hm => (href type hm).1, fun type hm => (href type hm).2, hkinds, hd⟩
    · intro hl
      exact ⟨hl.entities, hl.single, by simp⟩

/-- A build succeeds exactly when every step is admissible and the assembled table is linked, and
then this table is the schema. -/
theorem build_eq_ok_iff {steps : List Step} {schema : Schema} :
    build steps = .ok schema ↔
      AdmissibleAll steps ∧ Linked (assemble steps) ∧ schema = ⟨assemble steps⟩ := by
  unfold build
  split
  next problem h =>
    refine ⟨nofun, fun hs => ?_⟩
    have hok := (replay_initial steps _).mpr ⟨hs.1, rfl⟩
    rw [h] at hok
    cases hok
  next draft h =>
    obtain ⟨ha, rfl⟩ := (replay_initial steps draft).mp h
    split
    next problem hp =>
      refine ⟨nofun, fun hs => ?_⟩
      rw [linkProblem?_eq_none_iff.mpr hs.2.1] at hp
      cases hp
    next hp =>
      simp only [ha, linkProblem?_eq_none_iff.mp hp, true_and, Except.ok.injEq]
      exact eq_comm

end SelectionQuery.Schema
