import SelectionQuery.Proofs.Outcomes
import SelectionQuery.Proofs.ProblemLedger
import SelectionQuery.Proofs.SchemaSearches

/-! # Frozen tables

A ledger without problems is frozen by three passes. The first checks every handle that a type
mentions, the second links entities to their identifier types, and the third stores with each type the
attributes of its branches and of the nodes of its properties. The passes after the first read the
table where the handles point. What they leave is what the total build gives, with an index of names and
the links and attributes that it would compute.
-/
namespace SelectionQuery

namespace Schema.Sketch

def references (type : Sketch) : List TypeId :=
  (type.properties.values.flatMap fun property =>
    property.target :: property.arguments.values.map Argument.type) ++
  type.members ++ (type.identifier?.map Identifier.target).toList

def referenceProblem? (size : Nat) (type : Sketch) : Option SchemaError :=
  match type.references.find? (size ≤ ·) with
  | some id => some (.unknownHandle id)
  | none =>
    if type.kind = .union ∧ type.members = [] then some (.emptyUnion type.name) else none

def branchAttributes (type : Sketch) : AttributeSet :=
  { AttributeSet.empty with select := !type.properties.isEmpty, accept := !type.members.isEmpty }

def nodeAttributes (type : Sketch) (list : Bool) : AttributeSet :=
  { type.branchAttributes with args := true, listArgs := list }

/-- The type that is written down, if nothing is attached to it but what its kind takes. -/
def type (sketch : Sketch) : TypeDef where
  name := sketch.name
  shape :=
    match sketch.kind with
    | .root => .record .root sketch.properties
    | .struct => .record .struct sketch.properties
    | .entity => .record .entity sketch.properties
    | .primitive => (sketch.primitive?.map .primitive).getD .trait
    | .scalar => .scalar
    | .enumeration => .enumeration sketch.variants
    | .entityId => (sketch.identifier?.map .entityId).getD .trait
    | .union => .union sketch.members
    | .trait => .trait

section
variable (type : TypeDef)

@[simp] theorem name_ofType : (ofType type).name = type.name := rfl

@[simp] theorem kind_ofType : (ofType type).kind = type.kind := rfl

@[simp] theorem identifier?_ofType : (ofType type).identifier? = type.identifier? := rfl

end

@[simp] theorem type_ofType (type : TypeDef) : (ofType type).type = type := by
  rcases type with ⟨name, shape⟩
  cases shape with
  | record role properties => cases role <;> rfl
  | primitive | scalar | enumeration | entityId | union | trait => rfl

end Schema.Sketch

namespace Guarded
open Schema Outcome

/-- A type with the attributes that are stored for it. -/
structure FrozenType extends Sketch where
  /-- The attributes of the nodes of each property. -/
  nodes : List (String × AttributeSet)
  branch : AttributeSet

def FrozenType.nodeAttributes (type : FrozenType) (name : String) : AttributeSet :=
  (type.nodes.lookup name).getD .empty

/-- What a build leaves to validations. -/
structure Frozen where
  types : List FrozenType
  names : NameMap TypeId
  /-- The entities that have an identifier type, each with the handle of this type. -/
  identifiers : List (TypeId × TypeId)

def Frozen.schema (frozen : Frozen) : Schema := ⟨frozen.types.map fun type => type.type⟩

def linkIdentifiers (table : List Sketch) (linked : List (TypeId × TypeId)) :
    List (Sketch × TypeId) → Outcome (Except SchemaError (List (TypeId × TypeId)))
  | [] => .done (.ok linked)
  | (type, id) :: types =>
    match type.identifier? with
    | none => linkIdentifiers table linked types
    | some identifier => do
      let target ← read table identifier.target
      if target.kind ≠ .entity then .done (.error (.invalidIdentifierTarget type.name target.name))
      else if (linked.lookup identifier.target).isSome then
        .done (.error (.duplicateIdentifier target.name))
      else linkIdentifiers table ((identifier.target, id) :: linked) types

def storeAttributes (table : List Sketch) : Outcome (List FrozenType) :=
  collect <| table.map fun type => do
    let nodes ← collect <| type.properties.entries.map fun (name, property) => do
      let target ← read table property.target
      .done (name, target.nodeAttributes property.list)
    .done { type with nodes, branch := type.branchAttributes }

def finish (ledger : Ledger) : Outcome (Except SchemaError Frozen) :=
  match ledger.problems with
  | problem :: _ => .done (.error problem)
  | [] =>
    match ledger.types.findSome? (Sketch.referenceProblem? ledger.types.length) with
    | some problem => .done (.error problem)
    | none => do
      match ← linkIdentifiers ledger.types [] ledger.types.zipIdx with
      | .error problem => .done (.error problem)
      | .ok identifiers =>
        let types ← storeAttributes ledger.types
        .done (.ok { types, names := ledger.names, identifiers })

def build (steps : List Step) : Outcome (Except SchemaError Frozen) := finish (Ledger.ofSteps steps)

def identifierLinks (types : List (TypeDef × TypeId)) : List (TypeId × TypeId) :=
  types.filterMap fun entry => entry.1.identifier?.map fun identifier => (identifier.target, entry.2)

def freezeType (schema : Schema) (type : TypeDef) : FrozenType where
  __ := Sketch.ofType type
  nodes := type.properties.entries.map fun entry => (entry.1, schema.applicable entry.2)
  branch := type.branchAttributes

/-- What a build leaves of its schema. -/
def freeze (schema : Schema) : Frozen where
  types := schema.types.map (freezeType schema)
  names := .ofList (schema.types.zipIdx.map fun entry => (entry.1.name, entry.2))
  identifiers := (identifierLinks schema.types.zipIdx).reverse

variable {schema : Schema}

@[simp] theorem type_freezeType (type : TypeDef) : (freezeType schema type).type = type :=
  Sketch.type_ofType type

theorem forall_mem_freeze {holds : FrozenType → Prop} :
    (∀ type ∈ (freeze schema).types, holds type) ↔
      ∀ type ∈ schema.types, holds (freezeType schema type) := List.forall_mem_map

@[simp] theorem schema_freeze (schema : Schema) : (freeze schema).schema = schema := by
  have htypes : (freeze schema).types.map (fun type => type.type) = schema.types.map id := by
    rw [freeze, List.map_map]
    exact List.map_congr_left fun type _ => type_freezeType type
  rw [Frozen.schema, htypes, List.map_id]

theorem nodeAttributes_freezeType {type : TypeDef} {name : String} {property : Property}
    (h : type.property? name = some property) :
    (freezeType schema type).nodeAttributes name = schema.applicable property := by
  have hnames : (type.properties.entries.map fun entry => (entry.1, schema.applicable entry.2)).map
      Prod.fst = type.properties.entries.map Prod.fst := by
    rw [List.map_map]
    rfl
  have hstored : (freezeType schema type).nodes.lookup name = some (schema.applicable property) :=
    (lookup_eq_some_iff_mem (hnames ▸ type.properties.nodup_names)).mpr
      (List.mem_map.mpr ⟨(name, property), NameMap.mem_entries_iff.mpr h, rfl⟩)
  rw [FrozenType.nodeAttributes, hstored, Option.getD_some]

theorem mem_identifierLinks {entity id : TypeId} :
    (entity, id) ∈ identifierLinks schema.types.zipIdx ↔
      ∃ type, schema.types[id]? = some type ∧ type.Addresses entity := by
  simp only [identifierLinks, List.mem_filterMap, Prod.exists, List.mem_zipIdx_iff_getElem?,
    Option.map_eq_some_iff, Prod.mk.injEq, TypeDef.Addresses]
  constructor
  · rintro ⟨type, id', ht, identifier, hi, htarget, rfl⟩
    exact ⟨type, ht, identifier, hi, htarget⟩
  · rintro ⟨type, ht, identifier, hi, htarget⟩
    exact ⟨type, id, ht, identifier, hi, htarget, rfl⟩

/-- The links of a table in which no entity is addressed twice lead to its identifier types. -/
theorem lookup_identifiers_freeze (hd : (identifierTargets schema.types).Nodup) {entity id : TypeId} :
    (freeze schema).identifiers.lookup entity = some id ↔
      ∃ type, schema.types[id]? = some type ∧ type.Addresses entity := by
  have hlink : ∀ id, (freeze schema).identifiers.lookup entity = some id →
      ∃ type, schema.types[id]? = some type ∧ type.Addresses entity := fun id hid =>
    mem_identifierLinks.mp (List.mem_reverse.mp (mem_of_lookup hid))
  refine ⟨hlink id, fun ⟨type, ht, ha⟩ => ?_⟩
  cases hid : (freeze schema).identifiers.lookup entity with
  | none =>
    have hm : (entity, id) ∈ (freeze schema).identifiers :=
      List.mem_reverse.mpr (mem_identifierLinks.mpr ⟨type, ht, ha⟩)
    have hnone := List.lookup_eq_none_iff.mp hid _ hm
    simp at hnone
  | some found =>
    obtain ⟨other, ho, hoa⟩ := hlink found hid
    rw [index_eq_of_addresses hd ho ht hoa ha]

theorem read_sketch {id : TypeId} (h : id < schema.size) :
    read (schema.types.map Sketch.ofType) id = .done (Sketch.ofType (schema.typeAt id)) :=
  read_of_getElem? (by rw [List.getElem?_map, getElem?_typeAt h, Option.map_some])

/-- The index of a table without repeated names is the search by name. -/
theorem get?_names_freeze (hd : (schema.types.map TypeDef.name).Nodup) (name : String) :
    (freeze schema).names.get? name = schema.typeId? name := by
  have hnames : (schema.types.zipIdx.map fun entry => (entry.1.name, entry.2)).map Prod.fst =
      schema.types.map TypeDef.name := by
    rw [List.map_map, ← List.zipIdx_map_fst 0 schema.types, List.map_map, List.zipIdx_map_fst]
    rfl
  ext id
  rw [freeze, NameMap.get?_ofList_eq_some_iff (hnames ▸ hd), typeId?_eq_some_iff hd]
  simp only [List.mem_map, Prod.exists, Prod.mk.injEq, List.mem_zipIdx_iff_getElem?]
  constructor
  · rintro ⟨type, id, ht, hname, rfl⟩
    exact ⟨type, ht, hname⟩
  · rintro ⟨type, ht, hname⟩
    exact ⟨type, id, ht, hname, rfl⟩

theorem linkIdentifiers_eq {types : List (TypeDef × TypeId)} (linked : List (TypeId × TypeId))
    (h : ∀ target ∈ identifierTargets (types.map Prod.fst), target < schema.size) :
    linkIdentifiers (schema.types.map Sketch.ofType) linked
        (types.map (Prod.map Sketch.ofType id)) =
      .done (match identifierProblem? schema (linked.map Prod.fst) (types.map Prod.fst) with
        | some problem => .error problem
        | none => .ok ((identifierLinks types).reverse ++ linked)) := by
  induction types generalizing linked with
  | nil => rfl
  | cons entry types ih =>
    rcases entry with ⟨type, id⟩
    rw [List.map_cons, Prod.map_apply, id_eq, linkIdentifiers, Sketch.identifier?_ofType, List.map_cons,
      identifierProblem?]
    cases hi : type.identifier? with
    | none =>
      have htargets : identifierTargets (type :: types.map Prod.fst) =
          identifierTargets (types.map Prod.fst) := by simp [identifierTargets, hi]
      have hlinks : identifierLinks ((type, id) :: types) = identifierLinks types := by
        simp [identifierLinks, hi]
      rw [List.map_cons, htargets] at h
      rw [hlinks]
      exact ih linked h
    | some identifier =>
      have htargets : identifierTargets (type :: types.map Prod.fst) =
          identifier.target :: identifierTargets (types.map Prod.fst) := by
        simp [identifierTargets, hi]
      have hlinks : identifierLinks ((type, id) :: types) =
          (identifier.target, id) :: identifierLinks types := by simp [identifierLinks, hi]
      rw [List.map_cons, htargets, List.forall_mem_cons] at h
      have hrest := ih ((identifier.target, id) :: linked) h.2
      have hlinked : (linked.lookup identifier.target).isSome = true ↔
          identifier.target ∈ linked.map Prod.fst := by simp [List.lookup_isSome_iff]
      simp only [read_sketch h.1, done_bind, hlinks, Sketch.kind_ofType, Sketch.name_ofType]
      by_cases hk : (schema.typeAt identifier.target).kind = .entity
      · by_cases hm : identifier.target ∈ linked.map Prod.fst
        · simp only [hk, hlinked, hm, ne_eq, not_true_eq_false, if_false, if_true]
        · simp only [hk, hlinked, hm, ne_eq, not_true_eq_false, if_false, hrest, List.map_cons,
            List.reverse_cons, List.append_assoc, List.singleton_append]
      · simp only [hk, ne_eq, not_false_eq_true, if_true]

theorem storeAttributes_eq (hl : Linked schema.types) :
    storeAttributes (schema.types.map Sketch.ofType) = .done (freeze schema).types := by
  rw [storeAttributes, List.map_map]
  refine collect_eq _ fun type ht => ?_
  have hnodes : (collect <| type.properties.entries.map fun (name, property) => do
      let target ← read (schema.types.map Sketch.ofType) property.target
      .done (name, target.nodeAttributes property.list)) =
      .done (type.properties.entries.map fun entry => (entry.1, schema.applicable entry.2)) := by
    refine collect_eq _ fun entry hp => ?_
    rcases entry with ⟨name, property⟩
    have hproperty : type.property? name = some property := NameMap.mem_entries_iff.mp hp
    have hlt := hl.known type ht property.target
      (mem_references_iff.mpr (.inl ⟨name, property, hproperty, .inl rfl⟩))
    simp only [read_sketch hlt, done_bind]
    rfl
  exact congrArg (· >>= _) hnodes

/-- A ledger that has a draft and no problem is finished as the draft is linked. -/
theorem finish_eq {ledger : Ledger} {draft : Draft} (hproblems : ledger.problems = [])
    (h : ledger.Mirrors draft) (hd : (draft.map TypeDef.name).Nodup) :
    finish ledger = .done (match linkProblem? draft with
      | some problem => .error problem
      | none => .ok (freeze ⟨draft⟩)) := by
  have hreferences : (draft.map Sketch.ofType).findSome?
      (Sketch.referenceProblem? (draft.map Sketch.ofType).length) =
        draft.findSome? (referenceProblem? draft.length) := by
    rw [List.findSome?_map, List.length_map]
    rfl
  simp only [finish, hproblems, h.types, hreferences]
  cases href : draft.findSome? (referenceProblem? draft.length) with
  | some problem => simp only [linkProblem?, href]
  | none =>
    have hknown : ∀ type ∈ draft, ∀ id ∈ type.references, id < draft.length := fun type hm =>
      (referenceProblem?_eq_none_iff.mp (List.findSome?_eq_none_iff.mp href type hm)).1
    have htargets : ∀ target ∈ identifierTargets (draft.zipIdx.map Prod.fst),
        target < (Schema.mk draft).size := by
      intro target hm
      rw [List.zipIdx_map_fst, mem_identifierTargets] at hm
      obtain ⟨type, ht, ha⟩ := hm
      exact hknown type ht target (mem_references_iff.mpr (.inr (.inr ha)))
    have hlinks := linkIdentifiers_eq [] htargets
    rw [← List.zipIdx_map] at hlinks
    simp only [hlinks, done_bind, List.zipIdx_map_fst, List.map_nil]
    cases hproblem : identifierProblem? ⟨draft⟩ [] draft with
    | some problem => simp only [linkProblem?, href, hproblem]
    | none =>
      have hlink : linkProblem? draft = none := by simp only [linkProblem?, href, hproblem]
      have hl : Linked (Schema.mk draft).types := linkProblem?_eq_none_iff.mp hlink
      have hnames : ledger.names = (freeze ⟨draft⟩).names :=
        NameMap.ext_get? fun name => (h.names name).trans (get?_names_freeze hd name).symm
      simp only [storeAttributes_eq hl, done_bind, hnames, hlink, List.append_nil]
      rfl

/-- The passes over a ledger leave what the total build leaves, with everything stored, and read no
handle outside the table, whatever the steps are. -/
theorem build_eq (steps : List Step) : build steps = .done ((Schema.build steps).map freeze) := by
  have hrun := Ledger.initial_mirrors.replay steps
  rw [Schema.build]
  cases hreplay : replay Draft.initial steps with
  | error problem =>
    rw [hreplay] at hrun
    obtain ⟨more, hmore⟩ := hrun
    have hproblems : (Ledger.ofSteps steps).problems = problem :: more := hmore
    rw [build, finish, hproblems]
    rfl
  | ok draft =>
    rw [hreplay] at hrun
    obtain ⟨hs, hdraft⟩ := (replay_initial steps draft).mp hreplay
    have hd : (draft.map TypeDef.name).Nodup := by
      rw [hdraft, map_name_assemble]
      exact hs.nodup_names
    rw [build, Ledger.ofSteps, finish_eq hrun.1 hrun.2 hd]
    dsimp only
    cases linkProblem? draft <;> rfl

end Guarded
end SelectionQuery
