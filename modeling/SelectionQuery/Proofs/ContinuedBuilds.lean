import SelectionQuery.Proofs.ProblemLedger

/-! # Builds that are continued

Steps that follow others cannot undo what is wrong with them: a recorded problem stays the first one.
The checks at the end see more types and more contents after further steps, but kinds and identifier
types stay as they were declared. So further steps can only supply what was missing, a type behind a
handle or a member of a union.
-/
namespace SelectionQuery.Schema
variable {steps more : List Step} {problem : SchemaError} {schema : Schema}

/-- The step mentions the handle of a type: as the target of a property, as the type of an argument,
as a member or as the entity of an identifier type. -/
inductive Step.Mentions : Step → TypeId → Prop
  | target {id : TypeId} {contents : Contents} {name : String} {property : Property}
      (given : (name, property) ∈ contents.properties) : Mentions (.define id contents) property.target
  | argument {id : TypeId} {contents : Contents} {name key : String} {property : Property}
      {argument : Argument} (given : (name, property) ∈ contents.properties)
      (declared : property.arguments.get? key = some argument) :
      Mentions (.define id contents) argument.type
  | member {id : TypeId} {contents : Contents} {member : TypeId}
      (given : member ∈ contents.members) : Mentions (.define id contents) member
  | entity {name : String} {identifier : Identifier} :
      Mentions (.entityId name identifier) identifier.target

/-- The problem is that something has not been supplied yet: a member of a union, or a type behind a
handle that a step mentions. -/
inductive Missing (steps : List Step) : SchemaError → Prop
  | member {id : TypeId} {name : String} (named : (declaredNames steps)[id]? = some name)
      (union : (declaredKinds steps)[id]? = some .union) (unfilled : suppliedMembers id steps = []) :
      Missing steps (.emptyUnion name)
  | type {step : Step} {handle : TypeId} (taken : step ∈ steps) (mentioned : step.Mentions handle)
      (undeclared : (declaredNames steps).length ≤ handle) : Missing steps (.unknownHandle handle)

theorem build_of_recorded {rest : List SchemaError} (h : recorded steps = problem :: rest) :
    build steps = .error problem := by
  have hreplay : replay Draft.initial steps = .error problem :=
    replay_eq_error_iff.mpr (by rw [h, List.head?_cons])
  rw [build, hreplay]

theorem build_append_of_recorded {rest : List SchemaError} (h : recorded steps = problem :: rest)
    (more : List Step) : build (steps ++ more) = .error problem := by
  obtain ⟨later, hlater⟩ := recorded_append steps more
  rw [h, List.cons_append] at hlater
  exact build_of_recorded hlater.symm

theorem AdmissibleAll.recorded_eq_nil (h : AdmissibleAll steps) : recorded steps = [] := by
  have hreplay := (replay_initial steps (assemble steps)).mpr ⟨h, rfl⟩
  cases hrecorded : recorded steps with
  | nil => rfl
  | cons problem rest =>
    have herror : replay Draft.initial steps = .error problem :=
      replay_eq_error_iff.mpr (by rw [hrecorded, List.head?_cons])
    rw [hreplay] at herror
    cases herror

theorem of_referenceProblem? {size : Nat} {type : TypeDef}
    (h : referenceProblem? size type = some problem) :
    (∃ handle ∈ type.references, size ≤ handle ∧ problem = .unknownHandle handle) ∨
    (type.kind = .union ∧ type.members = [] ∧ problem = .emptyUnion type.name) := by
  unfold referenceProblem? at h
  split at h
  next handle hfound =>
    cases h
    exact .inl ⟨handle, List.mem_of_find?_eq_some hfound, by simpa using List.find?_some hfound, rfl⟩
  next =>
    split at h
    next hunion =>
      cases h
      exact .inr ⟨hunion.1, hunion.2, rfl⟩
    next => cases h

theorem AdmissibleAll.exists_mentions (hs : AdmissibleAll steps) {type : TypeDef}
    (hm : type ∈ assemble steps) {handle : TypeId} (href : handle ∈ type.references) :
    ∃ step ∈ steps, step.Mentions handle := by
  have htype := hm
  obtain ⟨id, declared, hd, rfl⟩ := mem_assemble.mp hm
  rcases mem_references_iff.mp href with ⟨name, property, hp, hcase⟩ | hin | ⟨identifier, hi, rfl⟩
  · obtain ⟨contents, hdef, hgiven⟩ :=
      mem_suppliedProperties.mp ((hs.property?_complete hd name property).mp hp)
    rcases hcase with rfl | ⟨key, argument, ha, rfl⟩
    · exact ⟨_, hdef, .target hgiven⟩
    · exact ⟨_, hdef, .argument hgiven ha⟩
  · rw [hs.members_complete hd] at hin
    obtain ⟨contents, hdef, hgiven⟩ := mem_suppliedMembers.mp hin
    exact ⟨_, hdef, .member hgiven⟩
  · have htarget : identifier.target ∈ identifierTargets (assemble steps) :=
      List.mem_filterMap.mpr ⟨_, htype, by rw [hi]; rfl⟩
    obtain ⟨name, found, hin, heq⟩ := mem_identifierTargets_assemble.mp htarget
    rw [← heq]
    exact ⟨_, hin, .entity⟩

theorem AdmissibleAll.before (h : AdmissibleAll (steps ++ more)) : AdmissibleAll steps := by
  rintro first step rest rfl
  exact h first step (rest ++ more) (by simp)

theorem kind_typeAt_assemble {id : TypeId} {declared : TypeDef}
    (hd : (declaredTypes steps)[id]? = some declared) :
    ((Schema.mk (assemble steps)).typeAt id).kind = declared.kind := by
  have hget : (Schema.mk (assemble steps)).types[id]? =
      some (complete declared (supplied id steps)) := by
    rw [assemble_getElem?, hd, Option.map_some]
  rw [typeAt_of_getElem? hget, complete_kind]

theorem kind_typeAt_assemble_append {id : TypeId} (hid : id < (assemble steps).length)
    (more : List Step) : ((Schema.mk (assemble (steps ++ more))).typeAt id).kind =
      ((Schema.mk (assemble steps)).typeAt id).kind := by
  rw [length_assemble] at hid
  have hd := List.getElem?_eq_getElem hid
  rw [kind_typeAt_assemble hd, kind_typeAt_assemble (declaredTypes_getElem?_append hd)]

/-- If the identifier types of a continued draft are in order, so were those before, as far as the
entities that they address were declared. -/
theorem identifierProblem?_of_append (hl : Linked (assemble (steps ++ more)))
    (hknown : ∀ type ∈ assemble steps, ∀ id ∈ type.references, id < (assemble steps).length) :
    identifierProblem? ⟨assemble steps⟩ [] (assemble steps) = none := by
  have htargets : identifierTargets (assemble (steps ++ more)) =
      identifierTargets (assemble steps) ++ more.filterMap Step.entity? := by
    rw [identifierTargets_assemble, identifierTargets_assemble, List.filterMap_append]
  refine identifierProblem?_eq_none_iff.mpr ⟨fun target hm => ?_, ?_, by simp⟩
  · obtain ⟨type, htype, htarget⟩ := List.mem_filterMap.mp hm
    have hlt : target < (assemble steps).length :=
      hknown type htype target
        (mem_references_iff.mpr (.inr (.inr (Option.map_eq_some_iff.mp htarget))))
    rw [← kind_typeAt_assemble_append hlt more]
    exact hl.entities target (by rw [htargets]; exact List.mem_append_left _ hm)
  · have hd := hl.single
    rw [htargets] at hd
    exact hd.of_append_left

/-- A problem that further steps cure was found in the references of a type. -/
theorem exists_referenceProblem_of_cured (h : build steps = .error problem)
    (hcured : build (steps ++ more) = .ok schema) :
    AdmissibleAll steps ∧ ∃ type ∈ assemble steps,
      referenceProblem? (assemble steps).length type = some problem := by
  obtain ⟨hall, hl, _⟩ := build_eq_ok_iff.mp hcured
  have hs := hall.before
  refine ⟨hs, ?_⟩
  have hreplay := (replay_initial steps (assemble steps)).mpr ⟨hs, rfl⟩
  rw [build, hreplay] at h
  simp only [linkProblem?] at h
  cases hreferences : (assemble steps).findSome? (referenceProblem? (assemble steps).length) with
  | some found =>
    simp only [hreferences] at h
    cases h
    exact List.exists_of_findSome?_eq_some hreferences
  | none =>
    have hknown : ∀ type ∈ assemble steps, ∀ id ∈ type.references, id < (assemble steps).length :=
      fun type hm => (referenceProblem?_eq_none_iff.mp
        (List.findSome?_eq_none_iff.mp hreferences type hm)).1
    simp only [hreferences, identifierProblem?_of_append hl hknown] at h
    cases h

theorem AdmissibleAll.missing (hs : AdmissibleAll steps) {type : TypeDef}
    (hm : type ∈ assemble steps)
    (h : referenceProblem? (assemble steps).length type = some problem) : Missing steps problem := by
  rcases of_referenceProblem? h with ⟨handle, href, hle, rfl⟩ | ⟨hkind, hmembers, rfl⟩
  · obtain ⟨step, htaken, hmentioned⟩ := hs.exists_mentions hm href
    exact .type htaken hmentioned (hs.length_assemble ▸ hle)
  · obtain ⟨id, declared, hd, rfl⟩ := mem_assemble.mp hm
    rw [complete_kind] at hkind
    rw [hs.members_complete hd] at hmembers
    have hname : (declaredNames steps)[id]? = some declared.name := by
      rw [← hs.plain.names, List.getElem?_map, hd, Option.map_some]
    exact .member hname (by rw [hs.plain.kindAt hd, hkind]) hmembers

/-- What steps have recorded stays, and the first recorded problem is the answer to every build from
then on. Of the problems that are found at the end, those of identifier types are never cured, and what
further steps cure is something missing. -/
theorem problems_of_continued_builds (steps more : List Step) :
    recorded steps <+: recorded (steps ++ more) ∧
    (∀ problem ∈ recorded steps, ∃ step ∈ steps, step.Faces problem) ∧
    (∀ first rest, recorded steps = first :: rest →
      build steps = .error first ∧ build (steps ++ more) = .error first) ∧
    (∀ type target, build steps = .error (.invalidIdentifierTarget type target) →
      ∀ schema, build (steps ++ more) ≠ .ok schema) ∧
    (∀ entity, build steps = .error (.duplicateIdentifier entity) →
      ∀ schema, build (steps ++ more) ≠ .ok schema) ∧
    ∀ problem schema, build steps = .error problem → build (steps ++ more) = .ok schema →
      recorded steps = [] ∧ Missing steps problem := by
  have hcured : ∀ problem schema, build steps = .error problem → build (steps ++ more) = .ok schema →
      recorded steps = [] ∧ Missing steps problem := by
    intro problem schema h hschema
    obtain ⟨hs, type, hm, hproblem⟩ := exists_referenceProblem_of_cured h hschema
    exact ⟨hs.recorded_eq_nil, hs.missing hm hproblem⟩
  refine ⟨recorded_append steps more, fun _ => faces_of_mem_recorded, ?_, ?_, ?_, hcured⟩
  · intro first rest h
    exact ⟨build_of_recorded h, build_append_of_recorded h more⟩
  · intro type target h schema hschema
    obtain ⟨_, hmissing⟩ := hcured _ schema h hschema
    cases hmissing
  · intro entity h schema hschema
    obtain ⟨_, hmissing⟩ := hcured _ schema h hschema
    cases hmissing

def unfilledSteps : List Step :=
  [.declare "Shape" .union,
   .define rootId { properties := [("shape", { target := 1 }), ("title", { target := 2 })] }]

def doubledSteps : List Step :=
  [.declare "Shape" .struct, .define 7 {}, .declare "Shape" .union]

def misaddressedSteps : List Step :=
  [.declare "Shape" .struct, .entityId "ID<Shape>" ⟨1, .hex32⟩]

/-- A type and then a member are supplied one after the other, and each cures the first problem. Nothing
cures a recorded problem or identifiers of a struct. -/
theorem unfilledSteps_continued :
    build unfilledSteps = .error (.unknownHandle 2) ∧ Missing unfilledSteps (.unknownHandle 2) ∧
    build (unfilledSteps ++ [.primitive .text]) = .error (.emptyUnion "Shape") ∧
    (∃ schema, build (unfilledSteps ++ [.primitive .text, .define 1 { members := [2] }]) = .ok schema) ∧
    recorded doubledSteps = [.unknownHandle 7, .duplicateType "Shape"] ∧
    (∀ more, build (doubledSteps ++ more) = .error (.unknownHandle 7)) ∧
    build misaddressedSteps = .error (.invalidIdentifierTarget "ID<Shape>" "Shape") ∧
    ∀ more schema, build (misaddressedSteps ++ more) ≠ .ok schema := by
  have hunknown : build unfilledSteps = .error (.unknownHandle 2) := rfl
  obtain ⟨schema, hschema⟩ : ∃ schema,
      build (unfilledSteps ++ [.primitive .text, .define 1 { members := [2] }]) = .ok schema := ⟨_, rfl⟩
  obtain ⟨_, _, _, _, _, hcured⟩ := problems_of_continued_builds unfilledSteps
    [.primitive .text, .define 1 { members := [2] }]
  refine ⟨hunknown, (hcured _ schema hunknown hschema).2, rfl, ⟨schema, hschema⟩, rfl, fun more => ?_,
    rfl, fun more => ?_⟩
  · obtain ⟨_, _, hrecorded, _⟩ := problems_of_continued_builds doubledSteps more
    exact (hrecorded _ _ rfl).2
  · obtain ⟨_, _, _, hidentifier, _⟩ := problems_of_continued_builds misaddressedSteps more
    exact hidentifier _ _ rfl

end SelectionQuery.Schema
