import SelectionQuery.Proofs.FailFast
import SelectionQuery.Proofs.ProblemLedger
import SelectionQuery.Proofs.Relocation

/-! # Lookup of union members

Members of a union are found by a scan of the union for a name, types by an index of names that is kept
while a schema is built. In a built schema no two types have one name and every member is a type, so the
scan finds what the index holds, as far as it is a member. What a union does not find is a name that no
type has or the name of another type, and such a name is refused where types are accepted.
-/
namespace SelectionQuery

namespace Schema
variable {schema : Schema} {union : TypeDef} {name : String} {id : TypeId}

theorem typeId?_eq_some_iff_typeAt (hd : (schema.types.map TypeDef.name).Nodup) :
    schema.typeId? name = some id ↔ id < schema.size ∧ (schema.typeAt id).name = name := by
  rw [typeId?_eq_some_iff hd]
  constructor
  · rintro ⟨type, ht, hn⟩
    exact ⟨(List.getElem?_eq_some_iff.mp ht).1, by rw [typeAt_of_getElem? ht, hn]⟩
  · rintro ⟨hid, hn⟩
    exact ⟨schema.typeAt id, getElem?_typeAt hid, hn⟩

/-- The scan is for a name, and the name has one handle, so the first member that it meets is the only
one. -/
theorem unionMember?_eq_some_iff_typeId? (hd : (schema.types.map TypeDef.name).Nodup)
    (hknown : ∀ member ∈ union.members, member < schema.size) :
    schema.unionMember? union name = some id ↔
      schema.typeId? name = some id ∧ id ∈ union.members := by
  have hfound : ∀ member, schema.unionMember? union name = some member →
      schema.typeId? name = some member ∧ member ∈ union.members := by
    intro member hscan
    have hm := List.mem_of_find?_eq_some hscan
    have hn : (schema.typeAt member).name = name := by simpa using List.find?_some hscan
    exact ⟨(typeId?_eq_some_iff_typeAt hd).mpr ⟨hknown member hm, hn⟩, hm⟩
  refine ⟨hfound id, fun ⟨hindex, hm⟩ => ?_⟩
  cases hscan : schema.unionMember? union name with
  | none =>
    have hn := ((typeId?_eq_some_iff_typeAt hd).mp hindex).2
    simpa [hn] using List.find?_eq_none.mp hscan id hm
  | some member =>
    rw [← (hfound member hscan).1, hindex]

/-- No member of the union has the name: no type has it, or a type that is not a member. -/
inductive Outside (schema : Schema) (union : TypeDef) (name : String) : Prop
  | unknown (missing : schema.typeId? name = none)
  | foreign {id : TypeId} (named : schema.typeId? name = some id) (outside : id ∉ union.members)

theorem not_outside_of_mem (hindex : schema.typeId? name = some id) (hm : id ∈ union.members) :
    ¬Outside schema union name := by
  rintro (missing | ⟨named, outside⟩)
  · simp [hindex] at missing
  · cases hindex.symm.trans named
    exact outside hm

theorem unionMember?_eq_none_iff_outside (hd : (schema.types.map TypeDef.name).Nodup)
    (hknown : ∀ member ∈ union.members, member < schema.size) :
    schema.unionMember? union name = none ↔ Outside schema union name := by
  have hscan : ∀ id, schema.unionMember? union name = some id ↔
      schema.typeId? name = some id ∧ id ∈ union.members :=
    fun id => unionMember?_eq_some_iff_typeId? hd hknown
  rw [Option.eq_none_iff_forall_ne_some]
  constructor
  · intro hnone
    cases hindex : schema.typeId? name with
    | none => exact .unknown hindex
    | some id => exact .foreign hindex fun hm => hnone id ((hscan id).mpr ⟨hindex, hm⟩)
  · intro hout id hsome
    obtain ⟨hindex, hm⟩ := (hscan id).mp hsome
    exact not_outside_of_mem hindex hm hout

/-- What a union finds depends on the handles of names and on which types are members, and on nothing
else. -/
theorem unionMember?_eq_of_members {other : Schema} {listed : TypeDef}
    (hd : (schema.types.map TypeDef.name).Nodup) (hother : (other.types.map TypeDef.name).Nodup)
    (hknown : ∀ member ∈ union.members, member < schema.size)
    (hindex : ∀ name, other.typeId? name = schema.typeId? name)
    (hmembers : ∀ id, id ∈ listed.members ↔ id ∈ union.members) (name : String) :
    other.unionMember? listed name = schema.unionMember? union name := by
  have hlisted : ∀ member ∈ listed.members, member < other.size := by
    intro member hm
    have hlt := hknown member ((hmembers member).mp hm)
    have hnamed := (typeId?_eq_some_iff_typeAt hd).mpr ⟨hlt, rfl⟩
    exact ((typeId?_eq_some_iff_typeAt hother).mp ((hindex _).trans hnamed)).1
  apply Option.ext
  intro id
  rw [unionMember?_eq_some_iff_typeId? hother hlisted, unionMember?_eq_some_iff_typeId? hd hknown,
    hindex, hmembers]

end Schema

theorem Relocatable.depth_le {check : Path → Option Violation} (h : Relocatable check) {path : Path}
    {found : Violation} (hfound : check path = some found) : path.depth ≤ found.path.depth := by
  obtain ⟨finding, hfinding⟩ := h
  rw [hfinding] at hfound
  obtain ⟨below, _, rfl⟩ := Option.map_eq_some_iff.mp hfound
  rw [Finding.under, Path.depth_eq_length, Path.depth_eq_length, Path.tokens_extendAll,
    List.length_append]
  exact Nat.le_add_right _ _

namespace Walk
variable {config : Config} {schema : Schema} {path place : Path} {fields : List (String × Json)}
  {name : String}

theorem undeclaredName?_eq_some_iff {descent : Descent} {type : TypeDef} :
    undeclaredName? schema type descent fields = some name ↔
      ∃ before value after, fields = before ++ (name, value) :: after ∧
        (∀ entry ∈ before, (descent.site? schema type entry.1).isSome = true) ∧
        descent.site? schema type name = none := by
  constructor
  · intro h
    rw [undeclaredName?, List.find?_map, Option.map_eq_some_iff] at h
    obtain ⟨⟨key, value⟩, hfind, rfl⟩ := h
    obtain ⟨hnone, before, after, hfields, hbefore⟩ := List.find?_eq_some_iff_append.mp hfind
    exact ⟨before, value, after, hfields, by simpa using hbefore, by simpa using hnone⟩
  · rintro ⟨before, value, after, rfl, hbefore, hname⟩
    exact undeclaredName?_append hbefore hname

theorem depth_lt_of_first?_names {descent : Descent} {type : TypeDef} {value : Json}
    (h : Event.first? (names config schema descent type path value) =
      some ⟨place, .undefinedType name⟩) : path.depth < place.depth := by
  cases value with
  | null | bool | number | string | array => cases h
  | object fields =>
    cases hempty : fields.isEmpty with
    | true =>
      rw [names, hempty] at h
      cases descent <;> cases h
    | false =>
      rw [first?_names descent hempty] at h
      rcases Option.or_eq_some_iff.mp h with hundeclared | ⟨_, hnodes⟩
      · obtain ⟨undeclared, _, heq⟩ := Option.map_eq_some_iff.mp hundeclared
        cases congrArg Violation.path heq
        exact Nat.lt_succ_self _
      · rw [first?_nodes] at hnodes
        obtain ⟨entry, _, hentry⟩ := List.exists_of_findSome?_eq_some hnodes
        obtain ⟨site, _, hnode⟩ := Option.bind_eq_some_iff.mp hentry
        exact ((node_and_names_relocatable config schema entry.2).1 site).depth_le hnode

theorem depth_lt_of_first?_branch {member : TypeId} {value : Json}
    (h : Event.first? (node config schema (.branch member) path value) =
      some ⟨place, .undefinedType name⟩) : path.depth < place.depth := by
  cases value with
  | null | bool | number | string | array => cases h
  | object fields =>
    cases hkeys : unexpectedKey? ((Site.branch member).attributes schema) fields with
    | some key =>
      rw [node, hkeys] at h
      cases h
    | none =>
      rw [first?_node hkeys, ownViolation?, Option.none_or, first?_below, first?_below] at h
      rcases Option.or_eq_some_iff.mp h with hbelow | ⟨_, hbelow⟩ <;>
      · obtain ⟨value, _, hnames⟩ := Option.bind_eq_some_iff.mp hbelow
        exact depth_lt_of_first?_names hnames

/-- The types that are accepted are refused at a name of their own exactly when it is the first
undeclared one: what is found in a branch stands further below. -/
theorem first?_accept_eq_undefinedType_iff {union : TypeDef} :
    Event.first? (names config schema .accept union path (.object fields)) =
        some ⟨path.extend name, .undefinedType name⟩ ↔
      undeclaredName? schema union .accept fields = some name := by
  cases hempty : fields.isEmpty with
  | true =>
    rw [List.isEmpty_iff.mp hempty]
    exact ⟨nofun, nofun⟩
  | false =>
    rw [first?_names .accept hempty]
    cases undeclaredName? schema union .accept fields with
    | some undeclared =>
      constructor
      · intro h
        cases h
        rfl
      · intro h
        cases h
        rfl
    | none =>
      refine ⟨fun h => ?_, nofun⟩
      rw [Option.map_none, Option.none_or, first?_nodes] at h
      obtain ⟨entry, _, hentry⟩ := List.exists_of_findSome?_eq_some h
      obtain ⟨site, hsite, hnode⟩ := Option.bind_eq_some_iff.mp hentry
      obtain ⟨member, _, rfl⟩ := Option.map_eq_some_iff.mp hsite
      exact absurd (depth_lt_of_first?_branch hnode) (lt_irrefl (path.depth + 1))

end Walk

namespace Schema

/-- How the members of unions are found in a schema that was built from steps. -/
structure MemberLookup (steps : List Step) (schema : Schema) : Prop where
  /-- The index that was kept while building finds what a search of the types finds. -/
  index : ∀ name, (Ledger.ofSteps steps).names.get? name = schema.typeId? name
  scan : ∀ union ∈ schema.types, ∀ name id, schema.unionMember? union name = some id ↔
    schema.typeId? name = some id ∧ id ∈ union.members
  /-- The members may be listed in any order and more than once. -/
  listing : ∀ union ∈ schema.types, ∀ steps other, build steps = .ok other →
    (∀ name, other.typeId? name = schema.typeId? name) →
    ∀ listed : TypeDef, (∀ id, id ∈ listed.members ↔ id ∈ union.members) →
    ∀ name, other.unionMember? listed name = schema.unionMember? union name
  /-- Of the accepted names the first one outside the union is refused, and no other name. -/
  refusal : ∀ union ∈ schema.types, ∀ config path fields name,
    Event.first? (Walk.names config schema .accept union path (.object fields)) =
        some ⟨path.extend name, .undefinedType name⟩ ↔
      ∃ before value after, fields = before ++ (name, value) :: after ∧
        (∀ entry ∈ before, ¬Outside schema union entry.1) ∧ Outside schema union name

theorem member_lookup_agrees {steps : List Step} {schema : Schema} (h : build steps = .ok schema) :
    MemberLookup steps schema := by
  have hl := linked_of_build h
  have hd := nodup_names_of_build h
  have hknown : ∀ union ∈ schema.types, ∀ member ∈ union.members, member < schema.size :=
    fun union hu member hm => hl.known union hu member (mem_references_iff.mpr (.inr (.inl hm)))
  constructor
  case index =>
    intro name
    obtain ⟨hs, _, rfl⟩ := build_eq_ok_iff.mp h
    exact names_get?_eq_typeId? ((replay_initial steps _).mpr ⟨hs, rfl⟩) name
  case scan => exact fun union hu name id => unionMember?_eq_some_iff_typeId? hd (hknown union hu)
  case listing =>
    intro union hu steps other hbuilt hindex listed hmembers
    exact unionMember?_eq_of_members hd (nodup_names_of_build hbuilt) (hknown union hu) hindex hmembers
  case refusal =>
    intro union hu config path fields name
    have hsite : ∀ name,
        Descent.site? schema union name .accept = none ↔ Outside schema union name := by
      intro name
      rw [Descent.site?, Option.map_eq_none_iff]
      exact unionMember?_eq_none_iff_outside hd (hknown union hu)
    rw [Walk.first?_accept_eq_undefinedType_iff, Walk.undeclaredName?_eq_some_iff]
    simp only [Option.isSome_iff_ne_none, ne_eq, hsite]

def UserGraph.relistedSteps : List Step :=
  UserGraph.steps.dropLast ++
    [.define UserGraph.userOrString
      { members := [UserGraph.string, UserGraph.user, UserGraph.string] }]

/-- In the social graph a user or a string is found by name, however the two are listed. Another type
and a name without type are outside, and the first of them is refused. -/
theorem userGraph_member_lookup :
    build UserGraph.steps = .ok userGraph ∧ MemberLookup UserGraph.steps userGraph ∧
    (∃ relisted, build UserGraph.relistedSteps = .ok relisted ∧
      (relisted.typeAt UserGraph.userOrString).members =
        [UserGraph.string, UserGraph.user, UserGraph.string] ∧
      ∀ name, relisted.unionMember? (relisted.typeAt UserGraph.userOrString) name =
        userGraph.unionMember? (userGraph.typeAt UserGraph.userOrString) name) ∧
    Outside userGraph (userGraph.typeAt UserGraph.userOrString) "Text" ∧
    Outside userGraph (userGraph.typeAt UserGraph.userOrString) "Ghost" ∧
    ∀ config path, Event.first? (Walk.names config userGraph .accept
        (userGraph.typeAt UserGraph.userOrString) path
        (.object [("User", .null), ("Text", .object []), ("Ghost", .object [])])) =
      some ⟨path.extend "Text", .undefinedType "Text"⟩ := by
  have hbuilt : build UserGraph.steps = .ok userGraph := rfl
  have hlookup := member_lookup_agrees hbuilt
  have hunion : userGraph.typeAt UserGraph.userOrString ∈ userGraph.types := typeAt_mem (by decide)
  have htext : Outside userGraph (userGraph.typeAt UserGraph.userOrString) "Text" :=
    .foreign rfl (by decide : UserGraph.text ∉ _)
  obtain ⟨relisted, hrelisted, hindex, hmembers⟩ : ∃ relisted,
      build UserGraph.relistedSteps = .ok relisted ∧
      (∀ name, relisted.typeId? name = userGraph.typeId? name) ∧
      (relisted.typeAt UserGraph.userOrString).members =
        [UserGraph.string, UserGraph.user, UserGraph.string] := ⟨_, rfl, fun _ => rfl, rfl⟩
  refine ⟨hbuilt, hlookup, ⟨relisted, hrelisted, hmembers, ?_⟩, htext, .unknown rfl, ?_⟩
  · apply hlookup.listing _ hunion _ relisted hrelisted hindex
    intro id
    have hlisted : (userGraph.typeAt UserGraph.userOrString).members =
        [UserGraph.user, UserGraph.string] := rfl
    rw [hmembers, hlisted]
    simp [or_comm]
  · intro config path
    refine (hlookup.refusal _ hunion config path _ "Text").mpr
      ⟨[("User", .null)], .object [], [("Ghost", .object [])], rfl, ?_, htext⟩
    have hfound : userGraph.unionMember? (userGraph.typeAt UserGraph.userOrString) "User" =
        some UserGraph.user := rfl
    obtain ⟨hnamed, hmember⟩ := (hlookup.scan _ hunion _ _).mp hfound
    exact List.forall_mem_singleton.mpr (not_outside_of_mem hnamed hmember)

end Schema
end SelectionQuery
