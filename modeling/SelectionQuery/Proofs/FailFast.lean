import SelectionQuery.Proofs.DocumentGrammar
import SelectionQuery.Proofs.FirstViolation

/-! # Failing fast

Which error is reported follows from the verdicts on the parts of a document. Top-level entries are
judged one after the other, name and node together. Under `select` and `accept` all names are judged
before any node: an undeclared name is reported whatever stands before or after it, and only names
that are all declared leave the verdict to the nodes, of which the first error counts.
-/
namespace SelectionQuery
open Schema

section Parts
variable {config : Config} {schema : Schema} {descent : Descent} {type : TypeDef} {path : Path}

theorem verdict_entry (config : Config) (schema : Schema) (entry : String × Json) :
    validate config schema (.object [entry]) =
      Event.verdict (Walk.entry config schema entry.1 entry.2) := by
  rw [validate_eq_verdict, Walk.document, List.flatMap_cons, List.flatMap_nil, List.append_nil]

theorem verdict_entered (site : Site) (path : Path) (events : List Event) :
    Event.verdict (site.entry path ++ events) = Event.verdict events := by
  unfold Event.verdict
  rw [Event.first?_append, Event.first?_entry, Option.none_or]

theorem undeclaredName?_append {before after : List (String × Json)} {name : String} {value : Json}
    (hbefore : ∀ entry ∈ before, (descent.site? schema type entry.1).isSome = true)
    (hname : descent.site? schema type name = none) :
    Walk.undeclaredName? schema type descent (before ++ (name, value) :: after) = some name := by
  have hnone : (before.map Prod.fst).find? (fun name => (descent.site? schema type name).isNone) =
      none := by
    apply List.find?_eq_none.mpr
    intro key hkey
    obtain ⟨entry, hm, rfl⟩ := List.mem_map.mp hkey
    have hsome := hbefore entry hm
    simpa using Option.isSome_iff_ne_none.mp hsome
  unfold Walk.undeclaredName?
  rw [List.map_append, List.find?_append, hnone, List.map_cons, List.find?_cons, hname]
  rfl

/-- The first undeclared name is reported, whatever the nodes are. -/
theorem verdict_names_undeclared {before after : List (String × Json)} {name : String}
    {value : Json} (hbefore : ∀ entry ∈ before, (descent.site? schema type entry.1).isSome = true)
    (hname : descent.site? schema type name = none) :
    Event.verdict (Walk.names config schema descent type path
        (.object (before ++ (name, value) :: after))) =
      .error (Violation.mk (path.extend name) (descent.undeclaredFault name)).error := by
  have hne : (before ++ (name, value) :: after).isEmpty = false := by simp
  unfold Event.verdict
  rw [Walk.first?_names descent hne, undeclaredName?_append hbefore hname]
  rfl

/-- Where all names are declared, the first error among the nodes is reported. -/
theorem verdict_names_declared {α : Type} {children : List α} {name : α → String}
    {site : α → Site} {value : α → Json} (hne : children ≠ [])
    (hsites : ∀ child ∈ children, descent.site? schema type (name child) = some (site child)) :
    Event.verdict (Walk.names config schema descent type path
        (.object (children.map fun child => (name child, value child)))) =
      firstError (children.map fun child => Event.verdict
        (Walk.node config schema (site child) (path.extend (name child)) (value child))) := by
  have hfields : (children.map fun child => (name child, value child)).isEmpty = false := by
    simpa using hne
  have hdeclared : Walk.undeclaredName? schema type descent
      (children.map fun child => (name child, value child)) = none := by
    apply Walk.undeclaredName?_eq_none_iff.mpr
    intro key node hm
    obtain ⟨child, hchild, heq⟩ := List.mem_map.mp hm
    cases heq
    exact ⟨site child, hsites child hchild⟩
  rw [Walk.names, hfields, hdeclared]
  simp only [Bool.false_eq_true, if_false]
  rw [Walk.nodes_eq_flatMap, Event.verdict_flatMap, List.map_map]
  apply congrArg firstError
  apply List.map_congr_left
  intro child hchild
  simp only [Function.comp_apply, hsites child hchild]
  exact verdict_entered (site child) _ _

end Parts

/-- How the verdict on a document follows from the verdicts on its parts. -/
structure FailsFast (config : Config) (schema : Schema) : Prop where
  /-- Of the top-level entries the first that fails on its own decides. -/
  document : ∀ entries, validate config schema (.object entries) =
    firstError (entries.map fun entry => validate config schema (.object [entry]))
  undeclaredProperty : ∀ type ∈ schema.types, ∀ path before name value after,
    (∀ entry ∈ before, ∃ property, type.property? entry.1 = some property) →
    type.property? name = none →
    Event.verdict (Walk.names config schema .select type path
        (.object (before ++ (name, value) :: after))) =
      .error ⟨.undefinedProperty, (path.extend name).render, "unexpected selection: " ++ name⟩
  /-- Children are given with the property that each is a node of. -/
  selection : ∀ type ∈ schema.types, ∀ path (children : List (String × Property × Json)),
    children ≠ [] → (∀ child ∈ children, type.property? child.1 = some child.2.1) →
    Event.verdict (Walk.names config schema .select type path
        (.object (children.map fun child => (child.1, child.2.2)))) =
      firstError (children.map fun child => Event.verdict
        (Walk.node config schema (.property child.2.1) (path.extend child.1) child.2.2))
  undeclaredMember : ∀ union ∈ schema.types, ∀ path before name value after,
    (∀ entry ∈ before, ∃ member ∈ union.members, (schema.typeAt member).name = entry.1) →
    (∀ member ∈ union.members, (schema.typeAt member).name ≠ name) →
    Event.verdict (Walk.names config schema .accept union path
        (.object (before ++ (name, value) :: after))) =
      .error ⟨.undefinedType, (path.extend name).render, "undefined type: " ++ name⟩
  /-- Branches are given with the member that each is a branch of. -/
  acceptance : ∀ union ∈ schema.types, ∀ path (branches : List (TypeId × Json)),
    branches ≠ [] → (∀ branch ∈ branches, branch.1 ∈ union.members) →
    Event.verdict (Walk.names config schema .accept union path
        (.object (branches.map fun branch => ((schema.typeAt branch.1).name, branch.2)))) =
      firstError (branches.map fun branch => Event.verdict
        (Walk.node config schema (.branch branch.1) (path.extend (schema.typeAt branch.1).name)
          branch.2))

/-- Errors are reported in document order, except that names under `select` and `accept` come before
the nodes under them. -/
theorem verdicts_fail_fast {steps : List Step} {schema : Schema} (h : build steps = .ok schema)
    (config : Config) : FailsFast config schema := by
  have hl := linked_of_build h
  have hd := nodup_names_of_build h
  constructor
  case document =>
    intro entries
    simp only [verdict_entry]
    exact Event.verdict_flatMap entries _
  case undeclaredProperty =>
    intro type _ path before name value after hbefore hname
    apply verdict_names_undeclared
    · intro entry hm
      obtain ⟨property, hp⟩ := hbefore entry hm
      simp [Descent.site?, hp]
    · simp [Descent.site?, hname]
  case selection =>
    intro type _ path children hne hproperties
    apply verdict_names_declared hne
    intro child hm
    simp [Descent.site?, hproperties child hm]
  case undeclaredMember =>
    intro union hunion path before name value after hbefore hname
    apply verdict_names_undeclared
    · intro entry hm
      obtain ⟨member, hmember, hentry⟩ := hbefore entry hm
      have hfound := (unionMember?_eq_some_iff hl hd hunion).mpr ⟨hmember, hentry⟩
      simp [Descent.site?, hfound]
    · have hmissing : schema.unionMember? union name = none := by
        apply Option.eq_none_iff_forall_ne_some.mpr
        intro member hfound
        obtain ⟨hmember, hentry⟩ := (unionMember?_eq_some_iff hl hd hunion).mp hfound
        exact hname member hmember hentry
      simp [Descent.site?, hmissing]
  case acceptance =>
    intro union hunion path branches hne hmembers
    apply verdict_names_declared hne
    intro branch hm
    have hfound := (unionMember?_eq_some_iff hl hd hunion).mpr ⟨hmembers branch hm, rfl⟩
    simp [Descent.site?, hfound]

/-- Two errors in one part of a query of the social graph: the first entry that fails is reported,
but an undeclared name comes before the wrong nodes around it. -/
theorem userGraph_fails_fast :
    build UserGraph.steps = .ok userGraph ∧ FailsFast {} userGraph ∧
      validate {} userGraph (.object
          [("users", .object []), ("users = @few", .null), ("pets", .object [])]) =
        .error ⟨.mismatchingTypes, "root.users", "expected an object for the query node, got null"⟩ ∧
      Event.verdict (Walk.names {} userGraph .select (userGraph.typeAt UserGraph.user) Path.root
          (.object [("name", .null), ("age", .object []), ("friends", .null)])) =
        .error ⟨.undefinedProperty, "root.age", "unexpected selection: age"⟩ ∧
      Event.verdict (Walk.names {} userGraph .accept (userGraph.typeAt UserGraph.userOrString)
          Path.root (.object [("User", .null), ("Pet", .object [])])) =
        .error ⟨.undefinedType, "root.Pet", "undefined type: Pet"⟩ := by
  have hbuilt : build UserGraph.steps = .ok userGraph := rfl
  have hfast : FailsFast {} userGraph := verdicts_fail_fast hbuilt {}
  refine ⟨hbuilt, hfast, ?_, ?_, ?_⟩
  · rw [hfast.document]
    decide +kernel
  · have hnames := hfast.undeclaredProperty (userGraph.typeAt UserGraph.user)
      (typeAt_mem (by decide)) Path.root [("name", .null)] "age" (.object []) [("friends", .null)]
      (List.forall_mem_singleton.mpr ⟨_, rfl⟩) rfl
    exact hnames
  · have hnames := hfast.undeclaredMember (userGraph.typeAt UserGraph.userOrString)
      (typeAt_mem (by decide)) Path.root [("User", .null)] "Pet" (.object []) []
      (List.forall_mem_singleton.mpr ⟨UserGraph.user, by decide, rfl⟩) (by decide)
    exact hnames

end SelectionQuery
