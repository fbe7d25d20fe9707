import SelectionQuery.Proofs.BuildCriterion
import SelectionQuery.Proofs.HandleSafety

/-! # The order of definitions

A type may be filled by one definition or by several, at any time after its declaration. What the steps
assemble depends on the declarations in their order and, for each handle, on all that is supplied to
it; of properties not even the order counts. Problems are found in another order, but there are some
exactly if there were some before.
-/
namespace SelectionQuery

/-- Distinct names leave no trace of the order in which they are inserted. -/
theorem NameMap.ofList_eq_of_perm {β : Type} {given given' : List (String × β)}
    (order : given.Perm given') (hd : (given.map Prod.fst).Nodup) : ofList given = ofList given' := by
  have hd' : (given'.map Prod.fst).Nodup := (order.map Prod.fst).nodup_iff.mp hd
  apply ext_get?
  intro name
  ext value
  rw [get?_ofList_eq_some_iff hd, get?_ofList_eq_some_iff hd', order.mem_iff]

namespace Schema

/-- Every definition addresses a handle that is declared before it. -/
def DefinesDeclared (steps : List Step) : Prop :=
  ∀ before id contents after, steps = before ++ .define id contents :: after →
    id < (declaredNames before).length

/-- The steps make the same declarations in one order and supply the same contents to each handle,
members and variants in one order and properties in any. -/
structure SameSupplies (steps steps' : List Step) : Prop where
  declarations : steps.filter Step.declares = steps'.filter Step.declares
  properties : ∀ id, (suppliedProperties id steps).Perm (suppliedProperties id steps')
  members : ∀ id, suppliedMembers id steps = suppliedMembers id steps'
  variants : ∀ id, suppliedVariants id steps = suppliedVariants id steps'

theorem filterMap_filter_declares {α : Type} {part? : Step → Option α}
    (h : ∀ id contents, part? (.define id contents) = none) (steps : List Step) :
    (steps.filter Step.declares).filterMap part? = steps.filterMap part? := by
  rw [List.filterMap_filter]
  refine List.filterMap_congr fun step _ => ?_
  cases step with
  | define id contents => exact (h id contents).symm
  | declare | primitive | entityId => rfl

namespace SameSupplies
variable {steps steps' : List Step}

theorem symm (h : SameSupplies steps steps') : SameSupplies steps' steps :=
  ⟨h.declarations.symm, fun id => (h.properties id).symm, fun id => (h.members id).symm,
    fun id => (h.variants id).symm⟩

theorem filterMap_eq (h : SameSupplies steps steps') {α : Type} {part? : Step → Option α}
    (hpart : ∀ id contents, part? (.define id contents) = none) :
    steps.filterMap part? = steps'.filterMap part? := by
  rw [← filterMap_filter_declares hpart, h.declarations, filterMap_filter_declares hpart]

theorem declaredTypes_eq (h : SameSupplies steps steps') :
    declaredTypes steps = declaredTypes steps' := by
  rw [declaredTypes, declaredTypes, h.filterMap_eq fun _ _ => rfl]

theorem declaredNames_eq (h : SameSupplies steps steps') :
    declaredNames steps = declaredNames steps' := by
  rw [declaredNames, declaredNames, h.filterMap_eq fun _ _ => rfl]

theorem declaredKinds_eq (h : SameSupplies steps steps') :
    declaredKinds steps = declaredKinds steps' := by
  rw [declaredKinds, declaredKinds, h.filterMap_eq fun _ _ => rfl]

theorem mem_of_declares (h : SameSupplies steps steps') {step : Step} (hm : step ∈ steps')
    (hs : step.declares = true) : step ∈ steps := by
  have hfilter : step ∈ steps'.filter Step.declares := List.mem_filter.mpr ⟨hm, hs⟩
  rw [← h.declarations] at hfilter
  exact List.mem_of_mem_filter hfilter

theorem exists_define {α : Type} {part : Contents → List α} (hempty : part {} = [])
    {id : TypeId} (hsame : ∀ item,
      item ∈ steps'.flatMap (fun step => part (step.contentsFor id)) →
        item ∈ steps.flatMap fun step => part (step.contentsFor id))
    {contents : Contents} (hm : .define id contents ∈ steps') (hne : part contents ≠ []) :
    ∃ other, .define id other ∈ steps ∧ part other ≠ [] := by
  obtain ⟨item, hitem⟩ := List.exists_mem_of_ne_nil _ hne
  have hin := hsame item ((mem_flatMap_contentsFor hempty).mpr ⟨contents, hm, hitem⟩)
  obtain ⟨other, hother, hitem⟩ := (mem_flatMap_contentsFor hempty).mp hin
  exact ⟨other, hother, List.ne_nil_of_mem hitem⟩

theorem wellDeclared (h : SameSupplies steps steps') (hsteps : DefinesDeclared steps')
    (hw : WellDeclared steps) : WellDeclared steps' := by
  refine ⟨h.declaredNames_eq ▸ hw.names, ?_, hsteps, ?_, ?_, ?_, ?_⟩
  · intro name kind hm
    exact hw.kinds name kind (h.mem_of_declares hm rfl)
  · intro id contents hm hne
    obtain ⟨other, hother, hne⟩ := exists_define rfl (fun _ => (h.properties id).mem_iff.mpr) hm hne
    exact h.declaredKinds_eq ▸ hw.properties id other hother hne
  · intro id contents hm hne
    have hsame := List.Perm.of_eq (h.members id)
    obtain ⟨other, hother, hne⟩ := exists_define rfl (fun _ => hsame.mem_iff.mpr) hm hne
    exact h.declaredKinds_eq ▸ hw.members id other hother hne
  · intro id contents hm hne
    have hsame := List.Perm.of_eq (h.variants id)
    obtain ⟨other, hother, hne⟩ := exists_define rfl (fun _ => hsame.mem_iff.mpr) hm hne
    exact h.declaredKinds_eq ▸ hw.variants id other hother hne
  · intro id
    exact ((h.properties id).map Prod.fst).nodup_iff.mp (hw.single id)

theorem complete_eq (h : SameSupplies steps steps') (hw : WellDeclared steps) (id : TypeId)
    (type : TypeDef) : complete type (supplied id steps) = complete type (supplied id steps') := by
  have hproperties := NameMap.ofList_eq_of_perm (h.properties id) (hw.single id)
  simp only [complete, supplied, hproperties, h.members id, h.variants id]

theorem assemble_eq (h : SameSupplies steps steps') (hw : WellDeclared steps) :
    assemble steps = assemble steps' := by
  simp only [assemble, h.declaredTypes_eq, h.complete_eq hw]

theorem build_eq_ok (h : SameSupplies steps steps') (hsteps : DefinesDeclared steps')
    {schema : Schema} (hbuild : build steps = .ok schema) : build steps' = .ok schema := by
  obtain ⟨hs, hl, rfl⟩ := build_eq_ok_iff.mp hbuild
  have hw := hs.wellDeclared
  have htable := h.assemble_eq hw
  exact build_eq_ok_iff.mpr ⟨(h.wellDeclared hsteps hw).admissibleAll, htable ▸ hl, by rw [htable]⟩

end SameSupplies

/-- Steps that make the same declarations and supply the same contents build the same schema, with
the same identifier types and the same attributes of nodes, or none of them builds one. -/
theorem build_of_sameSupplies {steps steps' : List Step} (hsteps : DefinesDeclared steps)
    (hsteps' : DefinesDeclared steps') (h : SameSupplies steps steps') :
    (∀ schema, build steps = .ok schema ↔ build steps' = .ok schema) ∧
    ∀ frozen, Guarded.build steps = .done (.ok frozen) ↔ Guarded.build steps' = .done (.ok frozen) := by
  have hbuild : ∀ schema, build steps = .ok schema ↔ build steps' = .ok schema :=
    fun schema => ⟨h.build_eq_ok hsteps', h.symm.build_eq_ok hsteps⟩
  refine ⟨hbuild, fun frozen => ?_⟩
  simp only [Guarded.build_eq, Guarded.Outcome.done.injEq, map_eq_ok_iff, hbuild]

def Step.target? : Step → Option TypeId
  | .define id _ => some id
  | _ => none

theorem definesDeclared_of_take {steps : List Step} (h : ∀ position : Fin steps.length,
    ∀ id ∈ (steps.get position).target?, id < (declaredNames (steps.take position)).length) :
    DefinesDeclared steps := by
  rintro before id contents after rfl
  have hposition : before.length < (before ++ .define id contents :: after).length := by simp
  simpa [Step.target?] using h ⟨before.length, hposition⟩ id (by simp [Step.target?])

namespace UserGraph

/-- The social graph with types filled as soon as they are declared or later, and piece by piece. -/
def interleavedSteps : List Step :=
  Primitive.all.map .primitive ++
  [.declare "PersonName" .struct,
   .define personName { properties := [("last", { target := text })] },
   .declare "User" .entity,
   .define user { properties := userContents.properties.drop 2 },
   .define rootId rootContents,
   .entityId "ID<User>" ⟨user, .hex32⟩,
   .declare "UserOrString" .union,
   .define userOrString { members := [user] },
   .define user { properties := userContents.properties.take 2 },
   .define personName { properties := [("first", { target := text })] },
   .define userOrString { members := [string] }]

theorem interleavedSteps_sameSupplies : SameSupplies steps interleavedSteps := by
  refine ⟨rfl, fun id => ?_, fun id => ?_, fun id => ?_⟩
  · by_cases hname : id = personName
    · subst hname
      exact .swap _ _ _
    · by_cases huser : id = user
      · subst huser
        exact (List.perm_append_comm : (userContents.properties.take 2 ++
          userContents.properties.drop 2).Perm _)
      · refine .of_eq ?_
        simp [suppliedProperties, steps, interleavedSteps, Step.contentsFor, Ne.symm hname,
          Ne.symm huser, apply_ite Contents.properties, userOrStringContents]
  · by_cases hunion : id = userOrString
    · subst hunion
      rfl
    · simp [suppliedMembers, steps, interleavedSteps, Step.contentsFor, Ne.symm hunion,
        apply_ite Contents.members, rootContents, personNameContents, userContents]
  · simp [suppliedVariants, steps, interleavedSteps, Step.contentsFor, apply_ite Contents.variants,
      rootContents, personNameContents, userContents, userOrStringContents]

theorem interleavedSteps_build : DefinesDeclared steps ∧ DefinesDeclared interleavedSteps ∧
    SameSupplies steps interleavedSteps ∧ build interleavedSteps = .ok userGraph ∧
    (userGraph.typeAt personName).properties.entries.map Prod.fst = ["first", "last"] ∧
    (userGraph.typeAt user).properties.entries.map Prod.fst =
      ["birthDate", "friends", "name", "partner"] ∧
    (userGraph.typeAt userOrString).shape = .union [user, string] ∧
    Guarded.build interleavedSteps = .done (.ok (Guarded.freeze userGraph)) := by
  have hsteps : DefinesDeclared steps := definesDeclared_of_take (by decide)
  have hinterleaved : DefinesDeclared interleavedSteps := definesDeclared_of_take (by decide)
  have hsame := interleavedSteps_sameSupplies
  obtain ⟨hbuild, hfrozen⟩ := build_of_sameSupplies hsteps hinterleaved hsame
  exact ⟨hsteps, hinterleaved, hsame, (hbuild userGraph).mp rfl, by decide, by decide, rfl,
    (hfrozen _).mp (Guarded.build_eq steps)⟩

end UserGraph

end Schema
end SelectionQuery
