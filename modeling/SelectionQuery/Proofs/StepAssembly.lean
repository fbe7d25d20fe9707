import Mathlib.Data.List.Induction
import SelectionQuery.Proofs.NameMapLookup
import SelectionQuery.Schema.Build

/-! # What a list of steps assembles

The draft that a replay of steps produces is given in closed form: the declared types in order, each
with all contents that were supplied to its handle. A step is taken exactly when it is admissible
after the steps before it, so a replay succeeds exactly when every step is.
-/
namespace SelectionQuery.Schema

/-- The shape of a type that is declared by name and kind and has no contents yet. -/
def blank? : TypeKind → Option Shape
  | .root | .primitive | .entityId => none
  | .scalar => some .scalar
  | .enumeration => some (.enumeration [])
  | .struct => some (.record .struct .empty)
  | .entity => some (.record .entity .empty)
  | .union => some (.union [])
  | .trait => some .trait

def Step.declared? : Step → Option TypeDef
  | .declare name kind => (blank? kind).map (TypeDef.mk name)
  | .primitive builtin => some ⟨builtin.name, .primitive builtin⟩
  | .entityId name identifier => some ⟨name, .entityId identifier⟩
  | .define _ _ => none

def Step.contentsFor (id : TypeId) : Step → Contents
  | .define target contents => if target = id then contents else {}
  | _ => {}

def Contents.append (earlier contents : Contents) : Contents :=
  ⟨earlier.properties ++ contents.properties, earlier.members ++ contents.members,
    earlier.variants ++ contents.variants⟩

/-- The root type and the types that the steps declare, all without contents. -/
def declaredTypes (steps : List Step) : List TypeDef :=
  Draft.initial ++ steps.filterMap Step.declared?

def suppliedProperties (id : TypeId) (steps : List Step) : List (String × Property) :=
  steps.flatMap fun step => (step.contentsFor id).properties

def suppliedMembers (id : TypeId) (steps : List Step) : List TypeId :=
  steps.flatMap fun step => (step.contentsFor id).members

def suppliedVariants (id : TypeId) (steps : List Step) : List String :=
  steps.flatMap fun step => (step.contentsFor id).variants

/-- All that steps supply to one handle. -/
def supplied (id : TypeId) (steps : List Step) : Contents :=
  ⟨suppliedProperties id steps, suppliedMembers id steps, suppliedVariants id steps⟩

/-- A type without contents, filled with those that belong to its kind. -/
def complete (type : TypeDef) (contents : Contents) : TypeDef where
  name := type.name
  shape := match type.shape with
    | .record role _ => .record role (.ofList contents.properties)
    | .enumeration _ => .enumeration contents.variants
    | .union _ => .union contents.members
    | shape => shape

/-- The draft of a list of steps in closed form. -/
def assemble (steps : List Step) : Draft :=
  (declaredTypes steps).mapIdx fun id type => complete type (supplied id steps)

section Complete
variable (type : TypeDef) (contents : Contents)

@[simp] theorem complete_kind : (complete type contents).kind = type.kind := by
  rcases type with ⟨name, shape⟩
  cases shape <;> rfl

@[simp] theorem complete_identifier? : (complete type contents).identifier? = type.identifier? := by
  rcases type with ⟨name, shape⟩
  cases shape <;> rfl

theorem complete_properties (h : type.kind.ownsProperties = true) :
    (complete type contents).properties = .ofList contents.properties := by
  rcases type with ⟨name, shape⟩
  cases shape with
  | record role properties => rfl
  | primitive | scalar | enumeration | entityId | union | trait => cases h

theorem complete_members (h : type.kind = .union) :
    (complete type contents).members = contents.members := by
  rcases type with ⟨name, shape⟩
  cases shape with
  | union members => rfl
  | record role _ => cases role <;> cases h
  | primitive | scalar | enumeration | entityId | trait => cases h

theorem complete_properties_of_not_owns (h : type.kind.ownsProperties = false) :
    (complete type contents).properties = .empty := by
  rcases type with ⟨name, shape⟩
  cases shape with
  | record role properties => cases role <;> cases h
  | primitive | scalar | enumeration | entityId | union | trait => rfl

theorem complete_members_of_ne (h : type.kind ≠ .union) : (complete type contents).members = [] := by
  rcases type with ⟨name, shape⟩
  cases shape with
  | union members => exact absurd rfl h
  | record | primitive | scalar | enumeration | entityId | trait => rfl

end Complete

theorem complete_empty {step : Step} {type : TypeDef} (h : step.declared? = some type) :
    complete type {} = type := by
  cases step with
  | declare name kind => cases kind <;> cases h <;> rfl
  | primitive primitive => cases h; rfl
  | entityId name identifier => cases h; rfl
  | define id contents => cases h

@[simp] theorem declaredTypes_append (before after : List Step) :
    declaredTypes (before ++ after) = declaredTypes before ++ after.filterMap Step.declared? := by
  simp [declaredTypes]

theorem supplied_append_one (id : TypeId) (before : List Step) (step : Step) :
    supplied id (before ++ [step]) =
      (supplied id before).append (step.contentsFor id) := by
  simp [supplied, suppliedProperties, suppliedMembers, suppliedVariants, Contents.append]

theorem contentsFor_of_declared {step : Step} {type : TypeDef} (h : step.declared? = some type)
    (id : TypeId) : step.contentsFor id = {} := by
  cases step with
  | define => cases h
  | declare | primitive | entityId => rfl

def Addressed (steps : List Step) : Prop :=
  ∀ id contents, .define id contents ∈ steps → id < (declaredTypes steps).length

theorem supplied_unaddressed {steps : List Step} (ha : Addressed steps) {id : TypeId}
    (hid : (declaredTypes steps).length ≤ id) : supplied id steps = {} := by
  have hempty : ∀ step ∈ steps, step.contentsFor id = {} := by
    intro step hstep
    cases step with
    | define target contents =>
      have hlt := ha target contents hstep
      exact if_neg (hlt.trans_le hid).ne
    | declare | primitive | entityId => rfl
  simp only [supplied, suppliedProperties, suppliedMembers, suppliedVariants]
  congr 1 <;> exact List.flatMap_eq_nil_iff.mpr fun step hstep => by rw [hempty step hstep]

@[simp] theorem length_assemble (steps : List Step) :
    (assemble steps).length = (declaredTypes steps).length := by
  simp [assemble]

theorem assemble_getElem? (steps : List Step) (id : TypeId) :
    (assemble steps)[id]? = (declaredTypes steps)[id]?.map (complete · (supplied id steps)) := by
  simp [assemble]

@[simp] theorem map_name_assemble (steps : List Step) :
    (assemble steps).map TypeDef.name = (declaredTypes steps).map TypeDef.name := by
  apply List.ext_getElem?
  intro id
  simp [assemble_getElem?, Function.comp_def, complete]

theorem assemble_declare {before : List Step} (ha : Addressed before) {step : Step} {type : TypeDef}
    (h : step.declared? = some type) : assemble (before ++ [step]) = assemble before ++ [type] := by
  have hs : ∀ id, supplied id (before ++ [step]) = supplied id before := by
    intro id
    rw [supplied_append_one, contentsFor_of_declared h]
    simp [supplied, Contents.append]
  have hnew := supplied_unaddressed ha (le_refl _)
  simp only [assemble, declaredTypes_append, List.filterMap_cons, h, List.filterMap_nil, hs,
    List.mapIdx_append, List.mapIdx_cons, List.mapIdx_nil, Nat.zero_add, hnew, complete_empty h]

/-- Contents that belong to a type of this kind. -/
def Placed (kind : TypeKind) (contents : Contents) : Prop :=
  (contents.properties ≠ [] → kind.ownsProperties = true) ∧
  (contents.members ≠ [] → kind = .union) ∧
  (contents.variants ≠ [] → kind = .enumeration)

/-- The contents have no property under a name that is used before. -/
def Contents.NewNames (earlier contents : Contents) : Prop :=
  (contents.properties.map Prod.fst).Nodup ∧
  ∀ name ∈ contents.properties.map Prod.fst, name ∉ earlier.properties.map Prod.fst

theorem misplaced?_eq_none_iff {type : TypeDef} {contents : Contents} :
    misplaced? type contents = none ↔ Placed type.kind contents := by
  unfold misplaced? Placed
  simp only [Bool.and_eq_true, Bool.not_eq_true', List.isEmpty_eq_false_iff, ne_eq,
    decide_eq_true_eq]
  split
  next h => simp [h]
  next hp =>
    split
    next h => simp [h]
    next hm =>
      split
      next h => simp [h]
      next hv =>
        simp only [not_and, Bool.not_eq_false, not_not] at hp hm hv
        simpa using ⟨hp, hm, hv⟩

def Fresh (before : List Step) (name : String) : Prop :=
  name ∉ (declaredTypes before).map TypeDef.name

/-- A step that has no problem after the steps before it. -/
def Admissible (before : List Step) : Step → Prop
  | .declare name kind => (blank? kind).isSome = true ∧ Fresh before name
  | .primitive primitive => Fresh before primitive.name
  | .entityId name _ => Fresh before name
  | .define id contents =>
    (∃ type, (declaredTypes before)[id]? = some type ∧ Placed type.kind contents) ∧
    (supplied id before).NewNames contents

theorem insert_eq_ok_iff {draft final : Draft} {type : TypeDef} :
    draft.insert type = .ok final ↔
      type.name ∉ draft.map TypeDef.name ∧ final = draft ++ [type] := by
  unfold Draft.insert
  split
  next h =>
    have hm : type.name ∈ draft.map TypeDef.name := by simpa using h
    simp [hm]
  next h =>
    have hm : type.name ∉ draft.map TypeDef.name := by simpa using h
    simp only [hm, not_false_eq_true, true_and, Except.ok.injEq]
    exact eq_comm

theorem addProperties_eq_ok_iff {type : String} {properties final : NameMap Property}
    {given : List (String × Property)} :
    addProperties type properties given = .ok final ↔
      (given.map Prod.fst).Nodup ∧
      (∀ name ∈ given.map Prod.fst, properties.contains name = false) ∧
      final = given.foldl (fun m entry => m.insert entry.1 entry.2) properties := by
  induction given generalizing properties with
  | nil =>
    constructor
    · intro h
      exact ⟨List.nodup_nil, by simp, (Except.ok.inj h).symm⟩
    · rintro ⟨_, _, rfl⟩
      rfl
  | cons entry rest ih =>
    rcases entry with ⟨name, property⟩
    rw [addProperties]
    split
    next h => simp [h]
    next h =>
      have hn : properties.contains name = false := by simpa using h
      have hc : ∀ key, (properties.insert name property).contains key = false ↔
          key ≠ name ∧ properties.contains key = false := by
        intro key
        rw [← Bool.not_eq_true, ← Bool.not_eq_true, NameMap.contains_insert, not_or]
      rw [ih]
      simp only [hc, List.map_cons, List.nodup_cons, List.forall_mem_cons, hn, true_and,
        List.foldl_cons]
      constructor
      · rintro ⟨hd, hall, hf⟩
        exact ⟨⟨fun hm => (hall name hm).1 rfl, hd⟩, fun key hk => (hall key hk).2, hf⟩
      · rintro ⟨⟨hm, hd⟩, hall, hf⟩
        exact ⟨hd, fun key hk => ⟨fun he => hm (he ▸ hk), hall key hk⟩, hf⟩

theorem addProperties_ofList_eq_ok_iff {type : String} {earlier contents : Contents}
    {final : NameMap Property} :
    addProperties type (.ofList earlier.properties) contents.properties = .ok final ↔
      earlier.NewNames contents ∧ final = .ofList (earlier.properties ++ contents.properties) := by
  have hnew : ∀ name, (NameMap.ofList earlier.properties).contains name = false ↔
      name ∉ earlier.properties.map Prod.fst := by
    intro name
    rw [← Bool.not_eq_true, NameMap.contains_ofList]
  have happend : NameMap.ofList (earlier.properties ++ contents.properties) =
      contents.properties.foldl (fun m entry => m.insert entry.1 entry.2)
        (.ofList earlier.properties) := List.foldl_append
  rw [addProperties_eq_ok_iff, happend, Contents.NewNames, and_assoc]
  simp only [hnew]

theorem map_eq_ok_iff {ε α γ : Type} {x : Except ε α} {f : α → γ} {c : γ} :
    x.map f = .ok c ↔ ∃ a, x = .ok a ∧ f a = c := by
  cases x <;> simp [Except.map]

theorem attach_complete_eq_ok_iff {type final : TypeDef} {earlier contents : Contents} :
    attach (complete type earlier) contents = .ok final ↔
      Placed type.kind contents ∧ earlier.NewNames contents ∧
      final = complete type (earlier.append contents) := by
  by_cases hp : Placed type.kind contents
  · have hm : misplaced? (complete type earlier) contents = none :=
      misplaced?_eq_none_iff.mpr (by rwa [complete_kind])
    have hnone : type.kind.ownsProperties = false → earlier.NewNames contents := by
      intro h
      have he : contents.properties = [] := by
        by_contra hne
        exact absurd (hp.1 hne) (by simp [h])
      simp [Contents.NewNames, he]
    simp only [attach, hm, hp, true_and]
    rcases type with ⟨name, shape⟩
    cases shape with
    | record role properties =>
      simp only [complete, map_eq_ok_iff, addProperties_ofList_eq_ok_iff]
      constructor
      · rintro ⟨final, ⟨hnew, rfl⟩, rfl⟩
        exact ⟨hnew, rfl⟩
      · rintro ⟨hnew, rfl⟩
        exact ⟨_, ⟨hnew, rfl⟩, rfl⟩
    | primitive | scalar | enumeration | entityId | union | trait =>
      simp only [complete, Contents.append, hnone rfl, true_and, Except.ok.injEq]
      exact eq_comm
  · have hm : misplaced? (complete type earlier) contents ≠ none := by
      rwa [Ne, misplaced?_eq_none_iff, complete_kind]
    obtain ⟨problem, hproblem⟩ := Option.ne_none_iff_exists'.mp hm
    simp [attach, hproblem, hp]

theorem assemble_define (before : List Step) {id : TypeId} {contents : Contents} {type : TypeDef}
    (h : (declaredTypes before)[id]? = some type) :
    assemble (before ++ [.define id contents]) =
      (assemble before).set id (complete type ((supplied id before).append contents)) := by
  have hlt : id < (assemble before).length := by
    rw [length_assemble]
    exact (List.getElem?_eq_some_iff.mp h).1
  have hd : declaredTypes (before ++ [.define id contents]) = declaredTypes before := by
    rw [declaredTypes_append]
    exact List.append_nil _
  apply List.ext_getElem?
  intro i
  rw [assemble_getElem?, hd, supplied_append_one]
  by_cases hi : id = i
  · subst hi
    rw [List.getElem?_set_self hlt, h]
    simp [Step.contentsFor]
  · rw [List.getElem?_set_ne hi, assemble_getElem?]
    simp [Step.contentsFor, hi, Contents.append]

/-- One step: it is taken exactly when it is admissible, and then it extends the closed form. -/
theorem apply_assemble {before : List Step} (ha : Addressed before) {step : Step} {final : Draft} :
    apply (assemble before) step = .ok final ↔
      Admissible before step ∧ final = assemble (before ++ [step]) := by
  have hinsert : ∀ {type : TypeDef}, step.declared? = some type →
      ((assemble before).insert type = .ok final ↔
        Fresh before type.name ∧ final = assemble (before ++ [step])) := by
    intro type h
    rw [insert_eq_ok_iff, map_name_assemble, assemble_declare ha h, Fresh]
  cases step with
  | declare name kind =>
    cases kind with
    | root | primitive | entityId => simp [apply, Draft.declare, Admissible, blank?]
    | scalar | enumeration | struct | entity | union | trait =>
      simpa [apply, Draft.declare, Admissible, blank?] using hinsert rfl
  | primitive primitive => exact hinsert rfl
  | entityId name identifier => exact hinsert rfl
  | define id contents =>
    simp only [apply, assemble_getElem?, Admissible]
    cases h : (declaredTypes before)[id]? with
    | none => simp
    | some type =>
      simp only [Option.map_some, map_eq_ok_iff, attach_complete_eq_ok_iff, assemble_define before h,
        Option.some.injEq, exists_eq_left']
      constructor
      · rintro ⟨_, ⟨hp, hn, rfl⟩, rfl⟩
        exact ⟨⟨hp, hn⟩, rfl⟩
      · rintro ⟨⟨hp, hn⟩, rfl⟩
        exact ⟨_, ⟨hp, hn, rfl⟩, rfl⟩

theorem Addressed.append {before : List Step} (ha : Addressed before) {step : Step}
    (hs : Admissible before step) : Addressed (before ++ [step]) := by
  intro id contents hm
  rw [declaredTypes_append, List.length_append]
  rcases List.mem_append.mp hm with hm | hm
  · exact Nat.lt_add_right _ (ha id contents hm)
  · cases List.mem_singleton.mp hm
    obtain ⟨⟨type, ht, _⟩, _⟩ := hs
    exact Nat.lt_add_right _ (List.getElem?_eq_some_iff.mp ht).1

/-- Every step is admissible after those before it. -/
def AdmissibleAll (steps : List Step) : Prop :=
  ∀ before step after, steps = before ++ step :: after → Admissible before step

theorem admissibleAll_append_one {before : List Step} {step : Step} :
    AdmissibleAll (before ++ [step]) ↔ AdmissibleAll before ∧ Admissible before step := by
  constructor
  · intro h
    refine ⟨?_, h before step [] rfl⟩
    rintro first other rest rfl
    exact h first other (rest ++ [step]) (by simp)
  · rintro ⟨hb, hs⟩ first other rest he
    rcases List.eq_nil_or_concat rest with rfl | ⟨rest, last, rfl⟩
    · obtain ⟨rfl, hl⟩ := List.append_inj' he rfl
      cases hl
      exact hs
    · have he : before ++ [step] = (first ++ other :: rest) ++ [last] := by simpa using he
      obtain ⟨rfl, _⟩ := List.append_inj' he rfl
      exact hb first other rest rfl

/-- The whole run: a replay succeeds exactly when every step is admissible, and gives the closed
form. -/
theorem replay_assemble {before : List Step} (ha : Addressed before) (hb : AdmissibleAll before)
    (steps : List Step) (final : Draft) :
    replay (assemble before) steps = .ok final ↔
      AdmissibleAll (before ++ steps) ∧ final = assemble (before ++ steps) := by
  induction steps generalizing before with
  | nil => simp [replay, hb, eq_comm]
  | cons step steps ih =>
    have hsplit : before ++ step :: steps = (before ++ [step]) ++ steps := by simp
    rw [replay, hsplit]
    split
    next problem he =>
      have hs : ¬Admissible before step := by
        intro hs
        have hok := (apply_assemble ha).mpr ⟨hs, rfl⟩
        rw [he] at hok
        cases hok
      refine ⟨nofun, fun h => absurd (h.1 before step steps hsplit.symm) hs⟩
    next draft he =>
      obtain ⟨hs, rfl⟩ := (apply_assemble ha).mp he
      exact ih (ha.append hs) (admissibleAll_append_one.mpr ⟨hb, hs⟩)

theorem replay_initial (steps : List Step) (final : Draft) :
    replay Draft.initial steps = .ok final ↔ AdmissibleAll steps ∧ final = assemble steps := by
  have hnil : Draft.initial = assemble [] := rfl
  rw [hnil]
  exact replay_assemble (by simp [Addressed]) (by simp [AdmissibleAll]) steps final

theorem mem_flatMap_contentsFor {α : Type} {part : Contents → List α} (hempty : part {} = [])
    {id : TypeId} {steps : List Step} {x : α} :
    x ∈ steps.flatMap (fun step => part (step.contentsFor id)) ↔
      ∃ contents, .define id contents ∈ steps ∧ x ∈ part contents := by
  rw [List.mem_flatMap]
  constructor
  · rintro ⟨step, hs, hx⟩
    cases step with
    | define target contents =>
      by_cases ht : target = id
      · subst ht
        exact ⟨contents, hs, by simpa [Step.contentsFor] using hx⟩
      · simp [Step.contentsFor, ht, hempty] at hx
    | declare | primitive | entityId => simp [Step.contentsFor, hempty] at hx
  · rintro ⟨contents, hs, hx⟩
    exact ⟨_, hs, by simpa [Step.contentsFor] using hx⟩

theorem mem_suppliedProperties {id : TypeId} {steps : List Step} {entry : String × Property} :
    entry ∈ suppliedProperties id steps ↔
      ∃ contents, .define id contents ∈ steps ∧ entry ∈ contents.properties :=
  mem_flatMap_contentsFor rfl

theorem mem_suppliedMembers {id : TypeId} {steps : List Step} {member : TypeId} :
    member ∈ suppliedMembers id steps ↔
      ∃ contents, .define id contents ∈ steps ∧ member ∈ contents.members :=
  mem_flatMap_contentsFor rfl

theorem mem_suppliedVariants {id : TypeId} {steps : List Step} {variant : String} :
    variant ∈ suppliedVariants id steps ↔
      ∃ contents, .define id contents ∈ steps ∧ variant ∈ contents.variants :=
  mem_flatMap_contentsFor rfl

/-- A type keeps its handle while more steps follow. -/
theorem declaredTypes_getElem?_append {before after : List Step} {id : TypeId} {type : TypeDef}
    (h : (declaredTypes before)[id]? = some type) :
    (declaredTypes (before ++ after))[id]? = some type := by
  rw [declaredTypes_append, List.getElem?_append_left (List.getElem?_eq_some_iff.mp h).1, h]

namespace AdmissibleAll
variable {steps : List Step} {id : TypeId} {type : TypeDef}

theorem define (hs : AdmissibleAll steps) {contents : Contents} (h : .define id contents ∈ steps) :
    ∃ type, (declaredTypes steps)[id]? = some type ∧ Placed type.kind contents := by
  obtain ⟨before, after, rfl⟩ := List.append_of_mem h
  obtain ⟨⟨type, ht, hp⟩, _⟩ := hs before _ after rfl
  exact ⟨type, declaredTypes_getElem?_append ht, hp⟩

theorem placed (hs : AdmissibleAll steps) (ht : (declaredTypes steps)[id]? = some type) :
    Placed type.kind (supplied id steps) := by
  have hdefine : ∀ contents, .define id contents ∈ steps → Placed type.kind contents := by
    intro contents hc
    obtain ⟨found, hf, hp⟩ := hs.define hc
    rw [hf] at ht
    cases ht
    exact hp
  refine ⟨fun h => ?_, fun h => ?_, fun h => ?_⟩
  · obtain ⟨entry, he⟩ := List.exists_mem_of_ne_nil _ h
    obtain ⟨contents, hc, hm⟩ := mem_suppliedProperties.mp he
    exact (hdefine contents hc).1 (List.ne_nil_of_mem hm)
  · obtain ⟨entry, he⟩ := List.exists_mem_of_ne_nil _ h
    obtain ⟨contents, hc, hm⟩ := mem_suppliedMembers.mp he
    exact (hdefine contents hc).2.1 (List.ne_nil_of_mem hm)
  · obtain ⟨entry, he⟩ := List.exists_mem_of_ne_nil _ h
    obtain ⟨contents, hc, hm⟩ := mem_suppliedVariants.mp he
    exact (hdefine contents hc).2.2 (List.ne_nil_of_mem hm)

theorem nodup_properties (hs : AdmissibleAll steps) :
    ((suppliedProperties id steps).map Prod.fst).Nodup := by
  induction steps using List.reverseRecOn with
  | nil => exact List.nodup_nil
  | append_singleton before step ih =>
    obtain ⟨hb, hlast⟩ := admissibleAll_append_one.mp hs
    have hsplit : suppliedProperties id (before ++ [step]) =
        suppliedProperties id before ++ (step.contentsFor id).properties := by
      simp [suppliedProperties]
    rw [hsplit, List.map_append]
    cases step with
    | define target contents =>
      by_cases ht : target = id
      · subst ht
        obtain ⟨_, hd, hnew⟩ := hlast
        simp only [Step.contentsFor, if_true]
        exact (ih hb).append hd fun name hold hin => hnew name hin hold
      · simpa [Step.contentsFor, ht] using ih hb
    | declare | primitive | entityId => simpa [Step.contentsFor] using ih hb

theorem nodup_names (hs : AdmissibleAll steps) :
    ((declaredTypes steps).map TypeDef.name).Nodup := by
  induction steps using List.reverseRecOn with
  | nil => simp [declaredTypes, Draft.initial]
  | append_singleton before step ih =>
    obtain ⟨hb, hlast⟩ := admissibleAll_append_one.mp hs
    rw [declaredTypes_append]
    cases hd : step.declared? with
    | none => simpa [List.filterMap_cons, hd] using ih hb
    | some type =>
      have hfresh : Fresh before type.name := by
        cases step with
        | declare name kind =>
          obtain ⟨shape, _, rfl⟩ := Option.map_eq_some_iff.mp hd
          exact hlast.2
        | primitive | entityId => cases hd; exact hlast
        | define => cases hd
      simp only [List.filterMap_cons, hd, List.filterMap_nil, List.map_append, List.map_cons,
        List.map_nil]
      exact (ih hb).append (List.nodup_singleton _) (List.disjoint_singleton.mpr hfresh)

theorem property?_complete (hs : AdmissibleAll steps) (ht : (declaredTypes steps)[id]? = some type)
    (name : String) (property : Property) :
    (complete type (supplied id steps)).property? name = some property ↔
      (name, property) ∈ suppliedProperties id steps := by
  cases ho : type.kind.ownsProperties with
  | true =>
    have hd : ((suppliedProperties id steps).reverse.map Prod.fst).Nodup := by
      rw [List.map_reverse]
      exact List.nodup_reverse.mpr hs.nodup_properties
    rw [TypeDef.property?, complete_properties _ _ ho, NameMap.get?_ofList]
    exact (lookup_eq_some_iff_mem hd).trans List.mem_reverse
  | false =>
    have hnil : suppliedProperties id steps = [] := by
      by_contra hne
      exact absurd ((hs.placed ht).1 hne) (by simp [ho])
    rw [hnil, TypeDef.property?, complete_properties_of_not_owns _ _ ho]
    simp

theorem members_complete (hs : AdmissibleAll steps) (ht : (declaredTypes steps)[id]? = some type) :
    (complete type (supplied id steps)).members = suppliedMembers id steps := by
  by_cases hk : type.kind = .union
  · exact complete_members _ _ hk
  · have hnil : suppliedMembers id steps = [] := by
      by_contra hne
      exact hk ((hs.placed ht).2.1 hne)
    rw [hnil, complete_members_of_ne _ _ hk]

end AdmissibleAll

end SelectionQuery.Schema
