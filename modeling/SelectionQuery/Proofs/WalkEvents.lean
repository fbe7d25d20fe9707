import SelectionQuery.Validation

/-! # Violations in a walk

What can be among the events of each part of a document, said once: a violation at a node is one of
its own or comes from the names under one of its attributes, and a violation at names is one of
their own or comes from a node. Acceptance is the absence of all of them.
-/
namespace SelectionQuery

theorem Attribute.ofKey?_eq_some_iff {key : String} {found : Attribute} :
    Attribute.ofKey? key = some found ↔ found.key = key := by
  constructor
  · intro h
    have hkey := List.find?_some (p := fun found : Attribute => found.key == key) h
    exact eq_of_beq hkey
  · rintro rfl
    cases found <;> rfl

theorem AttributeSet.allows_iff {set : AttributeSet} {key : String} :
    set.allows key = true ↔ ∃ found : Attribute, found.key = key ∧ set.contains found = true := by
  simp only [allows, Option.any_eq_true, Attribute.ofKey?_eq_some_iff]

namespace Walk

variable {config : Config} {schema : Schema} {site : Site} {descent : Descent} {type : TypeDef}
  {path : Path} {value : Json} {fields : List (String × Json)} {violation : Violation}

theorem unexpectedKey?_eq_none_iff {attributes : AttributeSet} :
    unexpectedKey? attributes fields = none ↔
      ∀ key value, (key, value) ∈ fields → attributes.allows key = true := by
  simp [unexpectedKey?, List.find?_eq_none]

theorem of_unexpectedKey? {attributes : AttributeSet} {key : String}
    (h : unexpectedKey? attributes fields = some key) :
    (∃ value, (key, value) ∈ fields) ∧ attributes.allows key = false := by
  have hm := List.mem_of_find?_eq_some h
  have hnot := List.find?_some h
  exact ⟨by simpa using hm, by simpa using hnot⟩

theorem undeclaredName?_eq_none_iff :
    undeclaredName? schema type descent fields = none ↔
      ∀ name value, (name, value) ∈ fields → ∃ site, descent.site? schema type name = some site := by
  simp [undeclaredName?, List.find?_eq_none, Option.ne_none_iff_exists']

theorem of_undeclaredName? {name : String}
    (h : undeclaredName? schema type descent fields = some name) :
    (∃ value, (name, value) ∈ fields) ∧ descent.site? schema type name = none := by
  have hm := List.mem_of_find?_eq_some h
  have hnot := List.find?_some h
  exact ⟨by simpa using hm, by simpa using hnot⟩

theorem node_of_not_object (h : ∀ fields, value ≠ .object fields) :
    node config schema site path value =
      [.violation ⟨path, .notAnObject site.part value.kind⟩] := by
  cases value with
  | object fields => exact absurd rfl (h fields)
  | null | bool | number | string | array => rw [node]; nofun

theorem names_of_not_object (h : ∀ fields, value ≠ .object fields) :
    names config schema descent type path value =
      [.violation ⟨path, .notAnObject descent.part value.kind⟩] := by
  cases value with
  | object fields => exact absurd rfl (h fields)
  | null | bool | number | string | array => rw [names]; nofun

theorem below_eq : below config schema descent type path fields =
    ((fields.lookup descent.key).map (names config schema descent type path)).getD [] := by
  induction fields with
  | nil => rw [below]; rfl
  | cons first rest ih =>
    rcases first with ⟨key, value⟩
    rw [below, List.lookup_cons]
    by_cases h : key = descent.key
    · simp [h]
    · have hne : (descent.key == key) = false := by simpa using Ne.symm h
      rw [if_neg h, ih, hne]

theorem nodes_eq_flatMap : nodes config schema descent type path fields = fields.flatMap fun entry =>
    match descent.site? schema type entry.1 with
    | none => []
    | some site => site.entry (path.extend entry.1) ++
        node config schema site (path.extend entry.1) entry.2 := by
  induction fields with
  | nil => rw [nodes, List.flatMap_nil]
  | cons first rest ih =>
    cases hs : descent.site? schema type first.1 with
    | none => simp only [nodes, ih, List.flatMap_cons, hs]
    | some site => simp only [nodes, ih, List.flatMap_cons, hs]

theorem violation_mem_below :
    .violation violation ∈ below config schema descent type path fields ↔
      ∃ value, fields.lookup descent.key = some value ∧
        .violation violation ∈ names config schema descent type path value := by
  rw [below_eq]
  cases fields.lookup descent.key <;> simp

theorem violation_mem_nodes :
    .violation violation ∈ nodes config schema descent type path fields ↔
      ∃ name value site, (name, value) ∈ fields ∧ descent.site? schema type name = some site ∧
        .violation violation ∈ node config schema site (path.extend name) value := by
  induction fields with
  | nil => simp [nodes]
  | cons first rest ih =>
    rcases first with ⟨name, value⟩
    rw [nodes, List.mem_append, ih]
    have hentry : ∀ site : Site, Event.violation violation ∉ site.entry (path.extend name) := by
      intro site
      cases site <;> simp [Site.entry]
    constructor
    · rintro (h | ⟨name', value', site, hm, hs, h⟩)
      · cases hs : descent.site? schema type name with
        | none => simp [hs] at h
        | some site =>
          simp only [hs, List.mem_append, hentry, false_or] at h
          exact ⟨name, value, site, List.mem_cons_self, hs, h⟩
      · exact ⟨name', value', site, List.mem_cons_of_mem _ hm, hs, h⟩
    · rintro ⟨name', value', site, hm, hs, h⟩
      rcases List.mem_cons.mp hm with heq | hm
      · cases heq
        simp only [hs, List.mem_append, hentry, false_or]
        exact .inl h
      · exact .inr ⟨name', value', site, hm, hs, h⟩

theorem violation_mem_node :
    .violation violation ∈ node config schema site path (.object fields) ↔
      (∃ key, unexpectedKey? (site.attributes schema) fields = some key ∧
        violation = ⟨path.extend key, .unexpectedAttribute key⟩) ∨
      (unexpectedKey? (site.attributes schema) fields = none ∧
        (ownViolation? config schema path fields site = some violation ∨
          ∃ descent value, fields.lookup (Descent.key descent) = some value ∧
            .violation violation ∈ names config schema descent (site.target schema) path value)) := by
  have hdescents {P : Descent → Prop} : (∃ descent, P descent) ↔ P .accept ∨ P .select := by
    constructor
    · rintro ⟨descent, h⟩
      cases descent with
      | accept => exact .inl h
      | select => exact .inr h
    · rintro (h | h)
      · exact ⟨_, h⟩
      · exact ⟨_, h⟩
  rw [node]
  cases unexpectedKey? (site.attributes schema) fields with
  | some key => simp
  | none => simp [violation_mem_below, hdescents]

theorem violation_mem_names :
    .violation violation ∈ names config schema descent type path (.object fields) ↔
      (fields = [] ∧ violation = ⟨path, descent.emptyFault⟩) ∨
      (∃ name, undeclaredName? schema type descent fields = some name ∧
        violation = ⟨path.extend name, descent.undeclaredFault name⟩) ∨
      (fields ≠ [] ∧ undeclaredName? schema type descent fields = none ∧
        ∃ name value site, (name, value) ∈ fields ∧ descent.site? schema type name = some site ∧
          .violation violation ∈ node config schema site (path.extend name) value) := by
  rw [names]
  cases fields with
  | nil => simp [undeclaredName?]
  | cons first rest =>
    simp only [List.isEmpty_cons, Bool.false_eq_true, if_false]
    cases undeclaredName? schema type descent (first :: rest) with
    | some name => simp
    | none => simp [violation_mem_nodes]

/-- Nothing is wrong among the events. -/
def Clean (events : List Event) : Prop := ∀ violation, .violation violation ∉ events

theorem clean_node :
    Clean (node config schema site path (.object fields)) ↔
      unexpectedKey? (site.attributes schema) fields = none ∧
      ownViolation? config schema path fields site = none ∧
      ∀ descent value, fields.lookup (Descent.key descent) = some value →
        Clean (names config schema descent (site.target schema) path value) := by
  simp only [Clean, violation_mem_node]
  constructor
  · intro h
    have hkeys : unexpectedKey? (site.attributes schema) fields = none :=
      Option.eq_none_iff_forall_ne_some.mpr fun key hkey => h _ (.inl ⟨key, hkey, rfl⟩)
    refine ⟨hkeys, Option.eq_none_iff_forall_ne_some.mpr fun found hown => ?_, ?_⟩
    · exact h found (.inr ⟨hkeys, .inl hown⟩)
    · intro descent value hv found hm
      exact h found (.inr ⟨hkeys, .inr ⟨descent, value, hv, hm⟩⟩)
  · rintro ⟨hkeys, hown, hbelow⟩ found (⟨key, hkey, _⟩ | ⟨_, h | ⟨descent, value, hv, hm⟩⟩)
    · rw [hkeys] at hkey
      cases hkey
    · rw [hown] at h
      cases h
    · exact hbelow descent value hv found hm

theorem clean_names :
    Clean (names config schema descent type path (.object fields)) ↔
      fields ≠ [] ∧ undeclaredName? schema type descent fields = none ∧
      ∀ name value site, (name, value) ∈ fields → descent.site? schema type name = some site →
        Clean (node config schema site (path.extend name) value) := by
  simp only [Clean, violation_mem_names]
  constructor
  · intro h
    have hne : fields ≠ [] := fun he => h _ (.inl ⟨he, rfl⟩)
    have hnames : undeclaredName? schema type descent fields = none :=
      Option.eq_none_iff_forall_ne_some.mpr fun name hname => h _ (.inr (.inl ⟨name, hname, rfl⟩))
    refine ⟨hne, hnames, fun name value site hm hs found hv => ?_⟩
    exact h found (.inr (.inr ⟨hne, hnames, name, value, site, hm, hs, hv⟩))
  · rintro ⟨hne, hnames, hnodes⟩ found
      (⟨he, _⟩ | ⟨name, hname, _⟩ | ⟨_, _, name, value, site, hm, hs, hv⟩)
    · exact hne he
    · rw [hnames] at hname
      cases hname
    · exact hnodes name value site hm hs found hv

theorem not_clean_singleton : ¬Clean [.violation violation] := fun h => h violation (by simp)

theorem not_clean_node (h : ∀ fields, value ≠ .object fields) :
    ¬Clean (node config schema site path value) := by
  rw [node_of_not_object h]
  exact not_clean_singleton

theorem not_clean_names (h : ∀ fields, value ≠ .object fields) :
    ¬Clean (names config schema descent type path value) := by
  rw [names_of_not_object h]
  exact not_clean_singleton

theorem violation_mem_request {property : Property} {name : String} {label : Option String} :
    .violation violation ∈ request config schema property name label value ↔
      .violation violation ∈
        node config schema (.property property) (Path.root.extend name) value := by
  simp [request]

theorem violation_mem_document :
    .violation violation ∈ document config schema (.object fields) ↔
      ∃ key value, (key, value) ∈ fields ∧ .violation violation ∈ entry config schema key value := by
  simp [document]

theorem document_of_not_object (h : ∀ fields, value ≠ .object fields) :
    document config schema value =
      [.violation ⟨Path.root, .notAnObject .document value.kind⟩] := by
  cases value with
  | object fields => exact absurd rfl (h fields)
  | null | bool | number | string | array => rfl

end Walk

section Verdict
variable {config : Config} {schema : Schema} {document : Json}

theorem Event.violation?_eq_some_iff {event : Event} {violation : Violation} :
    event.violation? = some violation ↔ event = .violation violation := by
  cases event <;> simp [Event.violation?]

/-- A document is accepted exactly if its walk meets no violation. -/
theorem validate_eq_ok_iff : validate config schema document = .ok () ↔
    ∀ violation, .violation violation ∉ Walk.document config schema document := by
  unfold validate
  cases h : (Walk.document config schema document).findSome? Event.violation? with
  | none =>
    refine iff_of_true rfl fun violation hm => ?_
    have hnone := List.findSome?_eq_none_iff.mp h _ hm
    cases hnone
  | some violation =>
    refine iff_of_false nofun fun hno => ?_
    obtain ⟨event, hm, hv⟩ := List.exists_of_findSome?_eq_some h
    rw [Event.violation?_eq_some_iff.mp hv] at hm
    exact hno violation hm

theorem violation_of_validate {error : ValidationError}
    (h : validate config schema document = .error error) :
    ∃ violation, .violation violation ∈ Walk.document config schema document ∧
      violation.error = error := by
  unfold validate at h
  split at h
  next => cases h
  next violation hfind =>
    obtain ⟨event, hm, hv⟩ := List.exists_of_findSome?_eq_some hfind
    rw [Event.violation?_eq_some_iff.mp hv] at hm
    exact ⟨violation, hm, by simpa using h⟩

end Verdict

end SelectionQuery
