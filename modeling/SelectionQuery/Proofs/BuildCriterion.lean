import SelectionQuery.Proofs.SchemaLinks
import SelectionQuery.Schema.UserGraph

/-! # Which steps build

Some problems are found when a step is taken and some only at the end, when every type is known.
Both are restated as conditions on the list of steps alone: how types are declared and filled, and
how they refer to each other. A build succeeds exactly when both hold.
-/
namespace SelectionQuery.Schema

def Step.name? : Step → Option String
  | .declare name _ => some name
  | .primitive builtin => some builtin.name
  | .entityId name _ => some name
  | .define _ _ => none

def Step.kind? : Step → Option TypeKind
  | .declare _ kind => some kind
  | .primitive _ => some .primitive
  | .entityId _ _ => some .entityId
  | .define _ _ => none

def Step.entity? : Step → Option TypeId
  | .entityId _ identifier => some identifier.target
  | _ => none

/-- The name of the root type and of each declared type, by handle. -/
def declaredNames (steps : List Step) : List String := rootName :: steps.filterMap Step.name?

def declaredKinds (steps : List Step) : List TypeKind := .root :: steps.filterMap Step.kind?

/-- The types are declared and filled without contradiction. -/
structure WellDeclared (steps : List Step) : Prop where
  names : (declaredNames steps).Nodup
  /-- There is one root type, and primitives and identifier types have steps of their own. -/
  kinds : ∀ name kind, .declare name kind ∈ steps →
    kind ≠ .root ∧ kind ≠ .primitive ∧ kind ≠ .entityId
  /-- A definition comes after the declaration that it addresses. -/
  addressed : ∀ before id contents after, steps = before ++ .define id contents :: after →
    id < (declaredNames before).length
  properties : ∀ id contents, .define id contents ∈ steps → contents.properties ≠ [] →
    (declaredKinds steps)[id]? = some .root ∨ (declaredKinds steps)[id]? = some .struct ∨
      (declaredKinds steps)[id]? = some .entity
  members : ∀ id contents, .define id contents ∈ steps → contents.members ≠ [] →
    (declaredKinds steps)[id]? = some .union
  variants : ∀ id contents, .define id contents ∈ steps → contents.variants ≠ [] →
    (declaredKinds steps)[id]? = some .enumeration
  /-- Over all definitions of a type no property name comes twice. -/
  single : ∀ id, ((suppliedProperties id steps).map Prod.fst).Nodup

/-- The types refer to types that are declared, at whatever step. -/
structure WellReferring (steps : List Step) : Prop where
  targets : ∀ id contents, .define id contents ∈ steps →
    ∀ name property, (name, property) ∈ contents.properties →
      property.target < (declaredNames steps).length
  /-- Of the arguments that are given under one name only the last counts. -/
  arguments : ∀ id contents, .define id contents ∈ steps →
    ∀ name property, (name, property) ∈ contents.properties →
      ∀ given, property.arguments = .ofList given →
        ∀ key argument, given.reverse.lookup key = some argument →
          argument.type < (declaredNames steps).length
  members : ∀ id contents, .define id contents ∈ steps →
    ∀ member ∈ contents.members, member < (declaredNames steps).length
  inhabited : ∀ id : TypeId, (declaredKinds steps)[id]? = some .union →
    suppliedMembers id steps ≠ []
  entities : ∀ name identifier, .entityId name identifier ∈ steps →
    identifier.target < (declaredNames steps).length ∧
    (declaredKinds steps)[identifier.target]? = some .entity
  /-- No entity has two identifier types. -/
  single : (steps.filterMap Step.entity?).Nodup

theorem blank?_isSome_iff {kind : TypeKind} :
    (blank? kind).isSome = true ↔ kind ≠ .root ∧ kind ≠ .primitive ∧ kind ≠ .entityId := by
  cases kind <;> simp [blank?]

theorem kind_blank {kind : TypeKind} {shape : Shape} (h : blank? kind = some shape) :
    shape.kind = kind := by
  cases kind <;> cases h <;> rfl

/-- Every declaration by name and kind is of a kind that needs nothing more. -/
def Plain (steps : List Step) : Prop :=
  ∀ name kind, .declare name kind ∈ steps → (blank? kind).isSome = true

theorem map_declaredTypes {α : Type} {part : TypeDef → α} {part? : Step → Option α}
    {steps : List Step} (h : ∀ step ∈ steps, step.declared?.map part = part? step) :
    (declaredTypes steps).map part =
      Draft.initial.map part ++ steps.filterMap part? := by
  rw [declaredTypes, List.map_append, List.map_filterMap]
  exact congrArg _ (List.filterMap_congr h)

theorem Plain.names {steps : List Step} (h : Plain steps) :
    (declaredTypes steps).map TypeDef.name = declaredNames steps := by
  refine map_declaredTypes fun step hs => ?_
  cases step with
  | declare name kind =>
    obtain ⟨shape, hb⟩ := Option.isSome_iff_exists.mp (h name kind hs)
    simp [Step.declared?, Step.name?, hb]
  | primitive | entityId | define => rfl

theorem Plain.kinds {steps : List Step} (h : Plain steps) :
    (declaredTypes steps).map TypeDef.kind = declaredKinds steps := by
  refine map_declaredTypes fun step hs => ?_
  cases step with
  | declare name kind =>
    obtain ⟨shape, hb⟩ := Option.isSome_iff_exists.mp (h name kind hs)
    simp [Step.declared?, Step.kind?, hb, TypeDef.kind, kind_blank hb]
  | primitive | entityId | define => rfl

theorem Plain.length {steps : List Step} (h : Plain steps) :
    (declaredTypes steps).length = (declaredNames steps).length := by
  rw [← h.names, List.length_map]

theorem Plain.before {before after : List Step} (h : Plain (before ++ after)) : Plain before :=
  fun name kind hs => h name kind (List.mem_append_left _ hs)

theorem AdmissibleAll.plain {steps : List Step} (hs : AdmissibleAll steps) : Plain steps := by
  intro name kind hm
  obtain ⟨before, after, rfl⟩ := List.append_of_mem hm
  exact (hs before _ after rfl).1

theorem WellDeclared.plain {steps : List Step} (hw : WellDeclared steps) : Plain steps :=
  fun name kind hm => blank?_isSome_iff.mpr (hw.kinds name kind hm)

theorem identifierTargets_assemble (steps : List Step) :
    identifierTargets (assemble steps) = steps.filterMap Step.entity? := by
  have hmap : (assemble steps).map TypeDef.identifier? =
      (declaredTypes steps).map TypeDef.identifier? := by
    apply List.ext_getElem?
    intro id
    simp [assemble_getElem?, Function.comp_def]
  have hparts : (declaredTypes steps).map TypeDef.identifier? =
      Draft.initial.map TypeDef.identifier? ++
        steps.filterMap fun step => step.declared?.map TypeDef.identifier? :=
    map_declaredTypes fun _ _ => rfl
  have htargets : ∀ types : List TypeDef, identifierTargets types =
      (types.map TypeDef.identifier?).filterMap (Option.map Identifier.target) := by
    intro types
    rw [identifierTargets, List.filterMap_map]
    rfl
  rw [htargets, hmap, hparts, List.filterMap_append, List.filterMap_filterMap]
  refine List.filterMap_congr fun step _ => ?_
  cases step with
  | declare name kind => cases kind <;> rfl
  | primitive | entityId | define => rfl

theorem ownsProperties_iff {kind : TypeKind} :
    kind.ownsProperties = true ↔ kind = .root ∨ kind = .struct ∨ kind = .entity := by
  cases kind <;> simp [TypeKind.ownsProperties]

theorem Plain.kindAt {steps : List Step} (h : Plain steps) {id : TypeId} {type : TypeDef}
    (ht : (declaredTypes steps)[id]? = some type) : (declaredKinds steps)[id]? = some type.kind := by
  rw [← h.kinds, List.getElem?_map, ht]
  rfl

theorem AdmissibleAll.wellDeclared {steps : List Step} (hs : AdmissibleAll steps) :
    WellDeclared steps := by
  have hplain := hs.plain
  have hdefine : ∀ id contents, .define id contents ∈ steps →
      ∃ kind, (declaredKinds steps)[id]? = some kind ∧ Placed kind contents := by
    intro id contents hm
    obtain ⟨type, ht, hp⟩ := hs.define hm
    exact ⟨type.kind, hplain.kindAt ht, hp⟩
  refine ⟨?_, ?_, ?_, ?_, ?_, ?_, fun id => hs.nodup_properties⟩
  · rw [← hplain.names]
    exact hs.nodup_names
  · intro name kind hm
    exact blank?_isSome_iff.mp (hplain name kind hm)
  · rintro before id contents after rfl
    obtain ⟨⟨type, ht, _⟩, _⟩ := hs before _ after rfl
    rw [← hplain.before.length]
    exact (List.getElem?_eq_some_iff.mp ht).1
  · intro id contents hm hne
    obtain ⟨kind, hk, hp⟩ := hdefine id contents hm
    simpa [hk] using ownsProperties_iff.mp (hp.1 hne)
  · intro id contents hm hne
    obtain ⟨kind, hk, hp⟩ := hdefine id contents hm
    rw [hk, hp.2.1 hne]
  · intro id contents hm hne
    obtain ⟨kind, hk, hp⟩ := hdefine id contents hm
    rw [hk, hp.2.2 hne]

theorem WellDeclared.fresh {before after : List Step} {step : Step} {name : String}
    (hw : WellDeclared (before ++ step :: after)) (hn : step.name? = some name) :
    Fresh before name := by
  have hsplit : declaredNames (before ++ step :: after) =
      declaredNames before ++ name :: after.filterMap Step.name? := by
    simp [declaredNames, hn]
  have hd := hw.names
  rw [hsplit] at hd
  rw [Fresh, hw.plain.before.names]
  exact fun hm => (List.nodup_append.mp hd).2.2 name hm name List.mem_cons_self rfl

theorem WellDeclared.admissibleAll {steps : List Step} (hw : WellDeclared steps) :
    AdmissibleAll steps := by
  rintro before step after rfl
  cases step with
  | declare name kind => exact ⟨hw.plain name kind (by simp), hw.fresh rfl⟩
  | primitive primitive => exact hw.fresh rfl
  | entityId name identifier => exact hw.fresh rfl
  | define id contents =>
    have hm : Step.define id contents ∈ before ++ .define id contents :: after := by simp
    have hid := hw.addressed before id contents after rfl
    rw [← hw.plain.before.length] at hid
    have ht := List.getElem?_eq_getElem hid
    have hk := hw.plain.kindAt (declaredTypes_getElem?_append ht)
    refine ⟨⟨_, ht, ?_, ?_, ?_⟩, ?_⟩
    · intro hne
      have hp := hw.properties id contents hm hne
      simp only [hk, Option.some.injEq] at hp
      exact ownsProperties_iff.mpr hp
    · intro hne
      have hp := hw.members id contents hm hne
      rwa [hk, Option.some.injEq] at hp
    · intro hne
      have hp := hw.variants id contents hm hne
      rwa [hk, Option.some.injEq] at hp
    · have hd := hw.single id
      have hsplit : suppliedProperties id (before ++ .define id contents :: after) =
          suppliedProperties id before ++ (contents.properties ++ suppliedProperties id after) := by
        simp [suppliedProperties, Step.contentsFor]
      rw [hsplit, List.map_append, List.map_append] at hd
      obtain ⟨_, hrest, hapart⟩ := List.nodup_append.mp hd
      refine ⟨(List.nodup_append.mp hrest).1, fun name hin hold => ?_⟩
      exact hapart name hold name (List.mem_append_left _ hin) rfl

theorem mem_assemble {steps : List Step} {type : TypeDef} :
    type ∈ assemble steps ↔
      ∃ id declared, (declaredTypes steps)[id]? = some declared ∧
        complete declared (supplied id steps) = type := by
  simp only [List.mem_iff_getElem?, assemble_getElem?, Option.map_eq_some_iff]

theorem AdmissibleAll.length_assemble {steps : List Step} (hs : AdmissibleAll steps) :
    (assemble steps).length = (declaredNames steps).length := by
  rw [Schema.length_assemble, hs.plain.length]

/-- Behind the handle of a definition stands a type whose references all lie in the table. -/
theorem AdmissibleAll.references_lt {steps : List Step} (hs : AdmissibleAll steps)
    (hl : Linked (assemble steps)) {id : TypeId} {contents : Contents}
    (hm : .define id contents ∈ steps) :
    ∃ declared, (declaredTypes steps)[id]? = some declared ∧
      ∀ ref ∈ (complete declared (supplied id steps)).references,
        ref < (declaredNames steps).length := by
  obtain ⟨declared, hd, _⟩ := hs.define hm
  refine ⟨declared, hd, fun ref href => ?_⟩
  rw [← hs.length_assemble]
  exact hl.known _ (mem_assemble.mpr ⟨id, declared, hd, rfl⟩) ref href

/-- A property that a definition supplies is in the completed type, and so are its references. -/
theorem AdmissibleAll.property_references_lt {steps : List Step} (hs : AdmissibleAll steps)
    (hl : Linked (assemble steps)) {id : TypeId} {contents : Contents}
    (hm : .define id contents ∈ steps) {name : String} {property : Property}
    (hp : (name, property) ∈ contents.properties) :
    property.target < (declaredNames steps).length ∧
      ∀ key argument, property.arguments.get? key = some argument →
        argument.type < (declaredNames steps).length := by
  obtain ⟨declared, hd, hk⟩ := hs.references_lt hl hm
  have hget : (complete declared (supplied id steps)).property? name = some property :=
    (hs.property?_complete hd name property).mpr (mem_suppliedProperties.mpr ⟨contents, hm, hp⟩)
  refine ⟨hk _ (mem_references_iff.mpr (.inl ⟨name, property, hget, .inl rfl⟩)), ?_⟩
  intro key argument ha
  exact hk _ (mem_references_iff.mpr (.inl ⟨name, property, hget, .inr ⟨key, argument, ha, rfl⟩⟩))

theorem mem_identifierTargets_assemble {steps : List Step} {target : TypeId} :
    target ∈ identifierTargets (assemble steps) ↔
      ∃ name identifier, .entityId name identifier ∈ steps ∧ identifier.target = target := by
  rw [identifierTargets_assemble, List.mem_filterMap]
  constructor
  · rintro ⟨step, hm, he⟩
    cases step with
    | entityId name identifier => exact ⟨name, identifier, hm, Option.some.inj he⟩
    | declare | primitive | define => cases he
  · rintro ⟨name, identifier, hm, rfl⟩
    exact ⟨_, hm, rfl⟩

theorem AdmissibleAll.wellReferring {steps : List Step} (hs : AdmissibleAll steps)
    (hl : Linked (assemble steps)) : WellReferring steps := by
  have hplain := hs.plain
  refine ⟨?_, ?_, ?_, ?_, ?_, ?_⟩
  · intro id contents hm name property hp
    exact (hs.property_references_lt hl hm hp).1
  · intro id contents hm name property hp given hg key argument ha
    have harg : property.arguments.get? key = some argument := by
      rw [hg, NameMap.get?_ofList, ha]
    exact (hs.property_references_lt hl hm hp).2 key argument harg
  · intro id contents hm member hin
    obtain ⟨declared, hd, hk⟩ := hs.references_lt hl hm
    refine hk member (mem_references_iff.mpr (.inr (.inl ?_)))
    rw [hs.members_complete hd]
    exact mem_suppliedMembers.mpr ⟨contents, hm, hin⟩
  · intro id hu
    rw [← hplain.kinds, List.getElem?_map] at hu
    obtain ⟨declared, hd, hk⟩ := Option.map_eq_some_iff.mp hu
    rw [← hs.members_complete hd]
    exact hl.inhabited _ (mem_assemble.mpr ⟨id, declared, hd, rfl⟩) (by rw [complete_kind, hk])
  · intro name identifier hm
    have htarget := mem_identifierTargets_assemble.mpr ⟨name, identifier, hm, rfl⟩
    obtain ⟨entity, he, hk⟩ := kind_typeAt_eq_entity_iff.mp (hl.entities _ htarget)
    rw [assemble_getElem?] at he
    obtain ⟨declared, hd, rfl⟩ := Option.map_eq_some_iff.mp he
    rw [complete_kind] at hk
    rw [hplain.kindAt hd, hk, ← hplain.length]
    exact ⟨(List.getElem?_eq_some_iff.mp hd).1, rfl⟩
  · rw [← identifierTargets_assemble]
    exact hl.single

/-- Whatever a completed type mentions was supplied by a step, and lies in the table. -/
theorem WellReferring.known {steps : List Step} (hw : WellReferring steps)
    (hs : AdmissibleAll steps) {type : TypeDef} (hm : type ∈ assemble steps) {ref : TypeId}
    (href : ref ∈ type.references) : ref < (declaredNames steps).length := by
  have hmem := hm
  obtain ⟨id, declared, hd, rfl⟩ := mem_assemble.mp hm
  rcases mem_references_iff.mp href with ⟨name, property, hp, hcase⟩ | hin | ⟨identifier, hi, rfl⟩
  · obtain ⟨contents, hdef, hin⟩ :=
      mem_suppliedProperties.mp ((hs.property?_complete hd name property).mp hp)
    rcases hcase with rfl | ⟨key, argument, ha, rfl⟩
    · exact hw.targets id contents hdef name property hin
    · refine hw.arguments id contents hdef name property hin property.arguments.entries
        (NameMap.ofList_entries _).symm key argument ?_
      rw [← NameMap.get?_ofList, NameMap.ofList_entries, ha]
  · rw [hs.members_complete hd] at hin
    obtain ⟨contents, hdef, hin⟩ := mem_suppliedMembers.mp hin
    exact hw.members id contents hdef ref hin
  · have htarget : identifier.target ∈ identifierTargets (assemble steps) :=
      List.mem_filterMap.mpr ⟨_, hmem, by rw [hi]; rfl⟩
    obtain ⟨name, found, hin, heq⟩ := mem_identifierTargets_assemble.mp htarget
    rw [← heq]
    exact (hw.entities name found hin).1

theorem WellReferring.linked {steps : List Step} (hw : WellReferring steps)
    (hs : AdmissibleAll steps) : Linked (assemble steps) := by
  have hplain := hs.plain
  refine ⟨?_, ?_, ?_, ?_⟩
  · intro type hm ref href
    rw [hs.length_assemble]
    exact hw.known hs hm href
  · intro type hm hk
    obtain ⟨id, declared, hd, rfl⟩ := mem_assemble.mp hm
    rw [complete_kind] at hk
    rw [hs.members_complete hd]
    exact hw.inhabited id (by rw [hplain.kindAt hd, hk])
  · intro target hm
    obtain ⟨name, identifier, hin, rfl⟩ := mem_identifierTargets_assemble.mp hm
    have hk := (hw.entities name identifier hin).2
    rw [← hplain.kinds, List.getElem?_map] at hk
    obtain ⟨declared, hd, hkind⟩ := Option.map_eq_some_iff.mp hk
    have hget := assemble_getElem? steps identifier.target
    rw [hd] at hget
    exact kind_typeAt_eq_entity_iff.mpr ⟨_, hget, by rw [complete_kind, hkind]⟩
  · rw [identifierTargets_assemble]
    exact hw.single

/-- Steps build a schema exactly when they declare types without contradiction and refer only to
declared types, and give a problem otherwise. -/
theorem build_succeeds_iff (steps : List Step) :
    ((∃ schema, build steps = .ok schema) ↔ WellDeclared steps ∧ WellReferring steps) ∧
    ((∃ problem, build steps = .error problem) ↔ ¬(WellDeclared steps ∧ WellReferring steps)) := by
  have hok : (∃ schema, build steps = .ok schema) ↔ WellDeclared steps ∧ WellReferring steps := by
    simp only [build_eq_ok_iff]
    constructor
    · rintro ⟨_, hs, hl, _⟩
      exact ⟨hs.wellDeclared, hs.wellReferring hl⟩
    · rintro ⟨hd, hr⟩
      exact ⟨_, hd.admissibleAll, hr.linked hd.admissibleAll, rfl⟩
  refine ⟨hok, ?_⟩
  rw [← hok]
  cases build steps with
  | ok schema => simp
  | error problem => simp

end SelectionQuery.Schema
