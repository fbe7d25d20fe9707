import SelectionQuery.Proofs.BuildCriterion

/-! # A ledger of problems

A ledger takes every step, also a wrong one: it writes down what is wrong, in the order of the steps,
and goes on with whatever the step gives, be it a second type of a name or contents that do not belong
to a type. It keeps an index of names beside its types. The first problem that it writes down is the
one at which a replay of the steps stops; where there is none, its types are those of the replay and
its index finds what a search of them finds.
-/
namespace SelectionQuery.Schema

/-- A type with all that was attached to it, whatever its kind. -/
structure Sketch where
  name : String
  kind : TypeKind
  primitive? : Option Primitive := none
  identifier? : Option Identifier := none
  properties : NameMap Property := .empty
  members : List TypeId := []
  variants : List String := []

def Sketch.ofType (type : TypeDef) : Sketch where
  name := type.name
  kind := type.kind
  primitive? := type.primitive?
  identifier? := type.identifier?
  properties := type.properties
  members := type.members
  variants := type.variants

/-- Properties with further ones under new names, and a problem for each name that is used. -/
def enter (type : String) (properties : NameMap Property) :
    List (String × Property) → NameMap Property × List SchemaError
  | [] => (properties, [])
  | (name, property) :: rest =>
    if properties.contains name then
      let entered := enter type properties rest
      (entered.1, .duplicateProperty type name :: entered.2)
    else enter type (properties.insert name property) rest

/-- The problem of each part of the contents that does not belong to a type of this kind. -/
def misplacements (name : String) (kind : TypeKind) (contents : Contents) : List SchemaError :=
  (if !contents.properties.isEmpty && !kind.ownsProperties then [.misplacedProperties name kind]
    else []) ++
  (if !contents.members.isEmpty && kind ≠ .union then [.misplacedMembers name kind] else []) ++
  (if !contents.variants.isEmpty && kind ≠ .enumeration then [.misplacedVariants name kind] else [])

namespace Sketch

def problems (type : Sketch) (contents : Contents) : List SchemaError :=
  misplacements type.name type.kind contents ++
    (enter type.name type.properties contents.properties).2

def fill (type : Sketch) (contents : Contents) : Sketch where
  __ := type
  properties := (enter type.name type.properties contents.properties).1
  members := type.members ++ contents.members
  variants := type.variants ++ contents.variants

end Sketch

/-- What steps came to. -/
structure Ledger where
  types : List Sketch := []
  /-- The first handle of each name. -/
  names : NameMap TypeId := .empty
  problems : List SchemaError := []

namespace Ledger

def report (ledger : Ledger) (problems : List SchemaError) : Ledger :=
  { ledger with problems := ledger.problems ++ problems }

/-- The ledger with one more type. A name that is used is a problem and keeps its handle. -/
def insert (ledger : Ledger) (type : Sketch) : Ledger :=
  if ledger.names.contains type.name then
    { ledger with
      types := ledger.types ++ [type]
      problems := ledger.problems ++ [.duplicateType type.name] }
  else
    { ledger with
      types := ledger.types ++ [type]
      names := ledger.names.insert type.name ledger.types.length }

def kindProblems (name : String) : TypeKind → List SchemaError
  | .root => [.secondRoot name]
  | .primitive => [.bareDeclaration name .primitive]
  | .entityId => [.bareDeclaration name .entityId]
  | _ => []

def record (ledger : Ledger) : Step → Ledger
  | .declare name kind => (ledger.report (kindProblems name kind)).insert { name, kind }
  | .primitive builtin =>
    ledger.insert { name := builtin.name, kind := .primitive, primitive? := builtin }
  | .entityId name identifier => ledger.insert { name, kind := .entityId, identifier? := identifier }
  | .define id contents =>
    match ledger.types[id]? with
    | none => ledger.report [.unknownHandle id]
    | some type =>
      { ledger with
        types := ledger.types.set id (type.fill contents)
        problems := ledger.problems ++ type.problems contents }

def initial : Ledger := insert {} { name := rootName, kind := .root }

def ofSteps (steps : List Step) : Ledger := steps.foldl record initial

end Ledger

def recorded (steps : List Step) : List SchemaError := (Ledger.ofSteps steps).problems

theorem enter_of_addProperties_error {type : String} {properties : NameMap Property}
    {given : List (String × Property)} {problem : SchemaError}
    (h : addProperties type properties given = .error problem) :
    ∃ more, (enter type properties given).2 = problem :: more := by
  induction given generalizing properties with
  | nil => cases h
  | cons entry rest ih =>
    rcases entry with ⟨name, property⟩
    rw [addProperties] at h
    rw [enter]
    split at h
    next hused =>
      cases h
      exact ⟨(enter type properties rest).2, by rw [if_pos hused]⟩
    next hnew =>
      rw [if_neg hnew]
      exact ih h

theorem enter_of_addProperties_ok {type : String} {properties final : NameMap Property}
    {given : List (String × Property)} (h : addProperties type properties given = .ok final) :
    enter type properties given = (final, []) := by
  induction given generalizing properties with
  | nil => cases h; rfl
  | cons entry rest ih =>
    rcases entry with ⟨name, property⟩
    rw [addProperties] at h
    rw [enter]
    split at h
    next hused => cases h
    next hnew =>
      rw [if_neg hnew]
      exact ih h

theorem Placed.eq_nil {kind : TypeKind} {contents : Contents} (h : Placed kind contents) :
    (kind.ownsProperties = false → contents.properties = []) ∧
    (kind ≠ .union → contents.members = []) ∧ (kind ≠ .enumeration → contents.variants = []) := by
  refine ⟨fun hkind => ?_, fun hkind => ?_, fun hkind => ?_⟩
  · by_contra hne
    simp [h.1 hne] at hkind
  · exact by_contra fun hne => hkind (h.2.1 hne)
  · exact by_contra fun hne => hkind (h.2.2 hne)

namespace Sketch
variable {type : TypeDef} {contents : Contents}

theorem head?_misplacements :
    (misplacements type.name type.kind contents).head? = misplaced? type contents := by
  unfold misplacements misplaced?
  split_ifs <;> rfl

theorem problems_of_attach_error {problem : SchemaError} (h : attach type contents = .error problem) :
    ∃ more, (ofType type).problems contents = problem :: more := by
  unfold attach at h
  simp only [problems, ofType]
  split at h
  next found hfound =>
    cases h
    rw [← head?_misplacements] at hfound
    obtain ⟨more, hmore⟩ := List.head?_eq_some_iff.mp hfound
    exact ⟨_, by rw [hmore]; rfl⟩
  next hnone =>
    have hempty : misplacements type.name type.kind contents = [] := by
      rwa [← List.head?_eq_none_iff, head?_misplacements]
    rw [hempty, List.nil_append]
    split at h
    next role properties hshape =>
      cases hadd : addProperties type.name properties contents.properties with
      | ok final => rw [hadd] at h; cases h
      | error found =>
        rw [hadd] at h
        cases h
        have hproperties : type.properties = properties := by rw [TypeDef.properties, hshape]
        rw [← hproperties] at hadd
        exact enter_of_addProperties_error hadd
    all_goals cases h

theorem of_attach_ok {final : TypeDef} (h : attach type contents = .ok final) :
    (ofType type).problems contents = [] ∧ (ofType type).fill contents = ofType final := by
  unfold attach at h
  split at h
  next found hfound => cases h
  next hnone =>
    have hempty : misplacements type.name type.kind contents = [] := by
      rwa [← List.head?_eq_none_iff, head?_misplacements]
    obtain ⟨hproperties, hmembers, hvariants⟩ := (misplaced?_eq_none_iff.mp hnone).eq_nil
    simp only [problems, fill, ofType, hempty, List.nil_append]
    rcases type with ⟨name, shape⟩
    cases shape with
    | record role properties =>
      obtain ⟨entered, hadd, rfl⟩ := map_eq_ok_iff.mp h
      have henter : enter name (TypeDef.mk name (.record role properties)).properties
          contents.properties = (entered, []) := enter_of_addProperties_ok hadd
      rw [henter, hmembers (by cases role <;> nofun), hvariants (by cases role <;> nofun)]
      exact ⟨rfl, rfl⟩
    | union members =>
      cases h
      rw [hproperties rfl, hvariants nofun]
      exact ⟨rfl, rfl⟩
    | enumeration variants =>
      cases h
      rw [hproperties rfl, hmembers nofun]
      exact ⟨rfl, rfl⟩
    | primitive | scalar | entityId | trait =>
      cases h
      rw [hproperties rfl, hmembers nofun, hvariants nofun]
      exact ⟨rfl, rfl⟩

end Sketch

/-- The problems that a step can have by itself, whatever steps come before it. -/
inductive Step.Faces : Step → SchemaError → Prop
  | duplicateType {step : Step} {name : String} (declares : step.name? = some name) :
      Faces step (.duplicateType name)
  | secondRoot {name : String} : Faces (.declare name .root) (.secondRoot name)
  | bareDeclaration {name : String} {kind : TypeKind} :
      Faces (.declare name kind) (.bareDeclaration name kind)
  | unknownHandle {id : TypeId} {contents : Contents} : Faces (.define id contents) (.unknownHandle id)
  | misplacedProperties {id : TypeId} {contents : Contents} {type : String} {kind : TypeKind}
      (given : contents.properties ≠ []) :
      Faces (.define id contents) (.misplacedProperties type kind)
  | misplacedMembers {id : TypeId} {contents : Contents} {type : String} {kind : TypeKind}
      (given : contents.members ≠ []) : Faces (.define id contents) (.misplacedMembers type kind)
  | misplacedVariants {id : TypeId} {contents : Contents} {type : String} {kind : TypeKind}
      (given : contents.variants ≠ []) : Faces (.define id contents) (.misplacedVariants type kind)
  | duplicateProperty {id : TypeId} {contents : Contents} {type name : String} {property : Property}
      (given : (name, property) ∈ contents.properties) :
      Faces (.define id contents) (.duplicateProperty type name)

theorem mem_enter {type : String} {properties : NameMap Property}
    {given : List (String × Property)} {problem : SchemaError}
    (h : problem ∈ (enter type properties given).2) :
    ∃ name property, (name, property) ∈ given ∧ problem = .duplicateProperty type name := by
  induction given generalizing properties with
  | nil => cases h
  | cons entry rest ih =>
    rcases entry with ⟨name, property⟩
    rw [enter] at h
    have hlater : ∀ properties, problem ∈ (enter type properties rest).2 →
        ∃ other property', (other, property') ∈ (name, property) :: rest ∧
          problem = .duplicateProperty type other := by
      intro properties hm
      obtain ⟨other, property', hrest, heq⟩ := ih hm
      exact ⟨other, property', List.mem_cons_of_mem _ hrest, heq⟩
    split at h
    next =>
      rcases List.mem_cons.mp h with rfl | h
      · exact ⟨name, property, List.mem_cons_self, rfl⟩
      · exact hlater _ h
    next => exact hlater _ h

theorem Sketch.faces_of_mem_problems {type : Sketch} {id : TypeId} {contents : Contents}
    {problem : SchemaError} (h : problem ∈ type.problems contents) :
    (Step.define id contents).Faces problem := by
  simp only [problems, misplacements, List.mem_append, List.mem_ite_nil_right, List.mem_singleton,
    Bool.and_eq_true, Bool.not_eq_true', List.isEmpty_eq_false_iff] at h
  rcases h with ((⟨⟨hne, _⟩, rfl⟩ | ⟨⟨hne, _⟩, rfl⟩) | ⟨⟨hne, _⟩, rfl⟩) | h
  · exact .misplacedProperties hne
  · exact .misplacedMembers hne
  · exact .misplacedVariants hne
  · obtain ⟨name, property, hgiven, rfl⟩ := mem_enter h
    exact .duplicateProperty hgiven

namespace Ledger
variable {ledger : Ledger} {draft : Draft}

theorem faces_of_mem_kindProblems {name : String} {kind : TypeKind} {problem : SchemaError}
    (h : problem ∈ kindProblems name kind) : (Step.declare name kind).Faces problem := by
  cases kind with
  | root =>
    rw [List.mem_singleton.mp h]
    exact .secondRoot
  | primitive | entityId =>
    rw [List.mem_singleton.mp h]
    exact .bareDeclaration
  | scalar | enumeration | struct | entity | union | trait => cases h

theorem problems_insert (ledger : Ledger) (type : Sketch) :
    ∃ new, (ledger.insert type).problems = ledger.problems ++ new ∧
      ∀ problem ∈ new, problem = .duplicateType type.name := by
  unfold insert
  split
  · exact ⟨[.duplicateType type.name], rfl, fun problem hm => List.mem_singleton.mp hm⟩
  · exact ⟨[], (List.append_nil _).symm, nofun⟩

/-- A step takes no problem back and adds only such as it can have. -/
theorem problems_record (ledger : Ledger) (step : Step) :
    ∃ new, (ledger.record step).problems = ledger.problems ++ new ∧
      ∀ problem ∈ new, step.Faces problem := by
  cases step with
  | declare name kind =>
    obtain ⟨new, hnew, hname⟩ :=
      problems_insert (ledger.report (kindProblems name kind)) { name, kind }
    refine ⟨kindProblems name kind ++ new, hnew.trans (List.append_assoc _ _ _), ?_⟩
    intro problem hm
    rcases List.mem_append.mp hm with hm | hm
    · exact faces_of_mem_kindProblems hm
    · rw [hname problem hm]
      exact .duplicateType rfl
  | primitive builtin =>
    obtain ⟨new, hnew, hname⟩ := problems_insert ledger
      { name := builtin.name, kind := .primitive, primitive? := builtin }
    refine ⟨new, hnew, fun problem hm => ?_⟩
    rw [hname problem hm]
    exact .duplicateType rfl
  | entityId name identifier =>
    obtain ⟨new, hnew, hname⟩ := problems_insert ledger
      { name, kind := .entityId, identifier? := identifier }
    refine ⟨new, hnew, fun problem hm => ?_⟩
    rw [hname problem hm]
    exact .duplicateType rfl
  | define id contents =>
    simp only [record]
    split
    next =>
      refine ⟨[.unknownHandle id], rfl, fun problem hm => ?_⟩
      rw [List.mem_singleton.mp hm]
      exact .unknownHandle
    next type _ => exact ⟨type.problems contents, rfl, fun problem => Sketch.faces_of_mem_problems⟩

theorem prefix_foldl_record (ledger : Ledger) (steps : List Step) :
    ledger.problems <+: (steps.foldl record ledger).problems := by
  induction steps generalizing ledger with
  | nil => exact List.prefix_rfl
  | cons step steps ih =>
    obtain ⟨new, hnew, _⟩ := problems_record ledger step
    exact (hnew ▸ List.prefix_append ledger.problems new).trans (ih (ledger.record step))

theorem faces_of_mem_foldl {steps : List Step} {problem : SchemaError}
    (h : problem ∈ (steps.foldl record ledger).problems) :
    problem ∈ ledger.problems ∨ ∃ step ∈ steps, step.Faces problem := by
  induction steps generalizing ledger with
  | nil => exact .inl h
  | cons step steps ih =>
    obtain ⟨new, hnew, hfaces⟩ := problems_record ledger step
    rcases ih h with hm | ⟨other, hother, hproblem⟩
    · rw [hnew] at hm
      rcases List.mem_append.mp hm with hm | hm
      · exact .inl hm
      · exact .inr ⟨step, List.mem_cons_self, hfaces problem hm⟩
    · exact .inr ⟨other, List.mem_cons_of_mem _ hother, hproblem⟩

/-- The ledger has the types of a draft, and its index finds what a search of them finds. -/
structure Mirrors (ledger : Ledger) (draft : Draft) : Prop where
  types : ledger.types = draft.map Sketch.ofType
  names : ∀ name, ledger.names.get? name = (Schema.mk draft).typeId? name

/-- What becomes of a ledger by steps that bring a replay to this result. -/
def Follows (before after : Ledger) : Except SchemaError Draft → Prop
  | .error problem => ∃ more, after.problems = before.problems ++ problem :: more
  | .ok draft => after.problems = before.problems ∧ after.Mirrors draft

theorem follows_of_prefix {after : Ledger} {problem : SchemaError}
    (h : ledger.problems ++ [problem] <+: after.problems) : ledger.Follows after (.error problem) := by
  obtain ⟨more, hmore⟩ := h
  exact ⟨more, by rw [← hmore, List.append_assoc, List.singleton_append]⟩

theorem Mirrors.contains_eq (h : ledger.Mirrors draft) (name : String) :
    ledger.names.contains name = draft.any fun type => type.name == name := by
  rw [NameMap.contains, h.names, typeId?, List.findIdx?_isSome]

theorem typeId?_append_one {draft : Draft} {type : TypeDef}
    (hnew : (draft.any fun earlier => earlier.name == type.name) = false) (name : String) :
    (Schema.mk (draft ++ [type])).typeId? name =
      if name = type.name then some draft.length else (Schema.mk draft).typeId? name := by
  simp only [typeId?, List.findIdx?_append, List.findIdx?_singleton, beq_iff_eq]
  split
  next heq =>
    subst heq
    have hnone : draft.findIdx? (fun earlier => earlier.name == type.name) = none := by
      simpa [List.findIdx?_eq_none_iff] using hnew
    simp [hnone]
  next hne =>
    simp [Ne.symm hne]

theorem Mirrors.insert (h : ledger.Mirrors draft) (type : TypeDef) :
    ledger.Follows (ledger.insert (.ofType type)) (draft.insert type) := by
  have hname : ledger.names.contains (Sketch.ofType type).name =
      draft.any fun earlier => earlier.name == type.name := h.contains_eq type.name
  unfold Draft.insert Ledger.insert
  rw [hname]
  split
  next => exact follows_of_prefix List.prefix_rfl
  next hnew =>
    refine ⟨rfl, by simp [h.types], fun name => ?_⟩
    rw [typeId?_append_one (Bool.eq_false_of_not_eq_true hnew), NameMap.get?_insert, h.names, h.types,
      List.length_map]
    rfl

theorem typeId?_set {draft : Draft} {id : TypeId} {type final : TypeDef}
    (hget : draft[id]? = some type) (hname : final.name = type.name) (name : String) :
    (Schema.mk (draft.set id final)).typeId? name = (Schema.mk draft).typeId? name := by
  have hnames : (draft.set id final).map TypeDef.name = draft.map TypeDef.name := by
    obtain ⟨hid, rfl⟩ := List.getElem?_eq_some_iff.mp hget
    rw [List.map_set, hname, ← List.getElem_map TypeDef.name, List.set_getElem_self]
    simpa using hid
  have hsearch : ∀ types : List TypeDef, (Schema.mk types).typeId? name =
      (types.map TypeDef.name).findIdx? (· == name) := by
    intro types
    rw [List.findIdx?_map]
    rfl
  rw [hsearch, hnames, ← hsearch]

theorem Mirrors.define (h : ledger.Mirrors draft) {id : TypeId} {type : TypeDef}
    (hget : draft[id]? = some type) (contents : Contents) :
    ledger.Follows
      { ledger with
        types := ledger.types.set id ((Sketch.ofType type).fill contents)
        problems := ledger.problems ++ (Sketch.ofType type).problems contents }
      ((attach type contents).map fun final => draft.set id final) := by
  cases hattach : attach type contents with
  | error problem =>
    obtain ⟨more, hmore⟩ := Sketch.problems_of_attach_error hattach
    exact ⟨more, congrArg _ hmore⟩
  | ok final =>
    obtain ⟨hproblems, hfill⟩ := Sketch.of_attach_ok hattach
    have hname : final.name = type.name := (congrArg Sketch.name hfill).symm
    refine ⟨by simp [hproblems], by simp [hfill, h.types, List.map_set], fun name => ?_⟩
    rw [typeId?_set hget hname]
    exact h.names name

/-- One step: what a replay refuses is the first problem of the step, and nothing is wrong with a step
that it takes. -/
theorem Mirrors.record (h : ledger.Mirrors draft) (step : Step) :
    ledger.Follows (ledger.record step) (apply draft step) := by
  cases step with
  | declare name kind =>
    obtain ⟨new, hnew, _⟩ :=
      problems_insert (ledger.report (kindProblems name kind)) { name, kind }
    cases kind with
    | root | primitive | entityId => exact follows_of_prefix ⟨new, hnew.symm⟩
    | scalar | enumeration | struct | entity | union | trait =>
      have hnothing : ledger.report [] = ledger := by simp [report]
      simp only [Ledger.record, kindProblems, hnothing]
      exact h.insert ⟨name, _⟩
  | primitive builtin => exact h.insert ⟨builtin.name, .primitive builtin⟩
  | entityId name identifier => exact h.insert ⟨name, .entityId identifier⟩
  | define id contents =>
    have htype : ledger.types[id]? = draft[id]?.map Sketch.ofType := by rw [h.types, List.getElem?_map]
    simp only [Ledger.record, apply, htype]
    cases hget : draft[id]? with
    | none => exact follows_of_prefix List.prefix_rfl
    | some type => exact h.define hget contents

/-- The whole run: a replay stops at the first problem that the ledger writes down. -/
theorem Mirrors.replay (h : ledger.Mirrors draft) (steps : List Step) :
    ledger.Follows (steps.foldl Ledger.record ledger) (replay draft steps) := by
  induction steps generalizing ledger draft with
  | nil => exact ⟨rfl, h⟩
  | cons step steps ih =>
    have hstep := h.record step
    rw [Schema.replay, List.foldl_cons]
    cases happly : apply draft step with
    | error problem =>
      rw [happly] at hstep
      obtain ⟨more, hmore⟩ := hstep
      obtain ⟨later, hlater⟩ := prefix_foldl_record (ledger.record step) steps
      refine ⟨more ++ later, ?_⟩
      rw [← hlater, hmore, List.append_assoc, List.cons_append]
    | ok next =>
      rw [happly] at hstep
      obtain ⟨hproblems, hnext⟩ := hstep
      have hrest := ih hnext
      unfold Follows at hrest ⊢
      rwa [hproblems] at hrest

theorem initial_mirrors : initial.Mirrors Draft.initial := by
  have hempty : Mirrors {} [] := ⟨rfl, fun _ => rfl⟩
  exact (hempty.insert ⟨rootName, .record .root .empty⟩).2

end Ledger

theorem replay_eq_error_iff {steps : List Step} {problem : SchemaError} :
    replay Draft.initial steps = .error problem ↔ (recorded steps).head? = some problem := by
  have hrun := Ledger.initial_mirrors.replay steps
  cases hreplay : replay Draft.initial steps with
  | error found =>
    rw [hreplay] at hrun
    obtain ⟨more, hmore⟩ := hrun
    have hrecorded : recorded steps = found :: more := hmore
    simp [hrecorded]
  | ok draft =>
    rw [hreplay] at hrun
    have hrecorded : recorded steps = [] := hrun.1
    simp [hrecorded]

/-- Where the steps record nothing, the index of names finds what a search of the types finds. -/
theorem names_get?_eq_typeId? {steps : List Step} {draft : Draft}
    (h : replay Draft.initial steps = .ok draft) (name : String) :
    (Ledger.ofSteps steps).names.get? name = (Schema.mk draft).typeId? name := by
  have hrun := Ledger.initial_mirrors.replay steps
  rw [h] at hrun
  exact hrun.2.names name

theorem recorded_append (steps more : List Step) : recorded steps <+: recorded (steps ++ more) := by
  rw [recorded, recorded, Ledger.ofSteps, Ledger.ofSteps, List.foldl_append]
  exact Ledger.prefix_foldl_record _ more

/-- Every problem that is recorded is one that a step can have by itself. -/
theorem faces_of_mem_recorded {steps : List Step} {problem : SchemaError}
    (h : problem ∈ recorded steps) : ∃ step ∈ steps, step.Faces problem := by
  rcases Ledger.faces_of_mem_foldl h with hm | hstep
  · have hnone : Ledger.initial.problems = [] := rfl
    rw [hnone] at hm
    cases hm
  · exact hstep

end SelectionQuery.Schema
