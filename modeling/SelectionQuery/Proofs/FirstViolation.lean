import SelectionQuery.Proofs.WalkEvents

/-! # The first violation of a walk

A walk goes on after a violation, but only the first one counts. Of walks taken one after the other
it is that of the first walk that meets any. So first violations, verdicts and logs are composed of
those of the parts, and what is found first at a node or at names follows the order of its checks.
-/
namespace SelectionQuery

def Event.first? (events : List Event) : Option Violation := events.findSome? Event.violation?

theorem Event.first?_append (events more : List Event) :
    first? (events ++ more) = (first? events).or (first? more) := List.findSome?_append

theorem Event.first?_flatMap {α : Type} (items : List α) (walked : α → List Event) :
    first? (items.flatMap walked) = items.findSome? fun item => first? (walked item) := by
  induction items with
  | nil => rfl
  | cons item items ih =>
    rw [List.flatMap_cons, first?_append, ih, List.findSome?_cons]
    cases first? (walked item) <;> rfl

theorem Event.first?_toList (found : Option Violation) :
    first? (found.toList.map .violation) = found := by
  cases found <;> rfl

theorem Event.first?_entry (site : Site) (path : Path) : first? (site.entry path) = none := by
  cases site <;> rfl

namespace Walk
variable {config : Config} {schema : Schema} {site : Site} {type : TypeDef} {path : Path}
  {fields : List (String × Json)}

/-- At a node with the right keys, its arguments come before its branches and these before its
selection. -/
theorem first?_node (h : unexpectedKey? (site.attributes schema) fields = none) :
    Event.first? (node config schema site path (.object fields)) =
      (ownViolation? config schema path fields site).or
        ((Event.first? (below config schema .accept (site.target schema) path fields)).or
          (Event.first? (below config schema .select (site.target schema) path fields))) := by
  rw [node, h]
  simp only [List.append_assoc, Event.first?_append, Event.first?_toList]

theorem first?_below (descent : Descent) :
    Event.first? (below config schema descent type path fields) =
      (fields.lookup descent.key).bind fun value =>
        Event.first? (names config schema descent type path value) := by
  rw [below_eq]
  cases fields.lookup descent.key <;> rfl

theorem findSome?_undeclared (descent : Descent) :
    (fields.findSome? fun entry => if (descent.site? schema type entry.1).isNone then
        some (Violation.mk (path.extend entry.1) (descent.undeclaredFault entry.1)) else none) =
      (undeclaredName? schema type descent fields).map fun name =>
        ⟨path.extend name, descent.undeclaredFault name⟩ := by
  unfold undeclaredName?
  induction fields with
  | nil => rfl
  | cons first rest ih =>
    rw [List.findSome?_cons, List.map_cons, List.find?_cons, ih]
    cases (descent.site? schema type first.1).isNone <;> rfl

theorem first?_nodes (descent : Descent) :
    Event.first? (nodes config schema descent type path fields) =
      fields.findSome? fun entry => (descent.site? schema type entry.1).bind fun site =>
        Event.first? (node config schema site (path.extend entry.1) entry.2) := by
  rw [nodes_eq_flatMap, Event.first?_flatMap]
  congr 1
  funext entry
  cases descent.site? schema type entry.1 with
  | none => rfl
  | some site => rw [Event.first?_append, Event.first?_entry, Option.none_or, Option.bind_some]

theorem first?_names (descent : Descent) (hne : fields.isEmpty = false) :
    Event.first? (names config schema descent type path (.object fields)) =
      ((undeclaredName? schema type descent fields).map fun name =>
        ⟨path.extend name, descent.undeclaredFault name⟩).or
      (Event.first? (nodes config schema descent type path fields)) := by
  rw [names, hne]
  cases undeclaredName? schema type descent fields <;> rfl

theorem entry_named {name : String} {property : Property}
    (h : schema.rootProperty? name = some property) (value : Json) :
    entry config schema name value = request config schema property name none value := by
  rw [entry, h]

theorem entry_aliased {key name label : String} {property : Property}
    (hallowed : config.allowAliases = true) (hkey : schema.rootProperty? key = none)
    (hwritten : Selector.parseAliased? key = some ⟨name, label⟩)
    (h : schema.rootProperty? name = some property) (value : Json) :
    entry config schema key value = request config schema property name label value := by
  have halias : aliased? config key = some ⟨name, label⟩ := by
    rw [aliased?, if_pos hallowed, hwritten]
  simp only [entry, hkey, halias, h]

theorem document_append (config : Config) (schema : Schema) (before : List (String × Json))
    (entry : String × Json) (after : List (String × Json)) :
    document config schema (.object (before ++ entry :: after)) =
      document config schema (.object before) ++
        (Walk.entry config schema entry.1 entry.2 ++ document config schema (.object after)) := by
  rw [document, document, document, List.flatMap_append, List.flatMap_cons]

end Walk

/-- The verdict on a part of a document: the error of the first violation among its events. -/
def Event.verdict (events : List Event) : Except ValidationError Unit :=
  match first? events with
  | none => .ok ()
  | some found => .error found.error

theorem validate_eq_verdict (config : Config) (schema : Schema) (document : Json) :
    validate config schema document = Event.verdict (Walk.document config schema document) := rfl

def firstError : List (Except ValidationError Unit) → Except ValidationError Unit
  | [] => .ok ()
  | .ok _ :: verdicts => firstError verdicts
  | .error error :: _ => .error error

theorem Event.verdict_append (events more : List Event) :
    verdict (events ++ more) = firstError [verdict events, verdict more] := by
  unfold verdict
  rw [first?_append]
  cases first? events with
  | some found => rfl
  | none => cases first? more <;> rfl

theorem Event.verdict_flatMap {α : Type} (items : List α) (walked : α → List Event) :
    verdict (items.flatMap walked) = firstError (items.map fun item => verdict (walked item)) := by
  induction items with
  | nil => rfl
  | cons item items ih =>
    rw [List.flatMap_cons, verdict_append, ih, List.map_cons]
    cases verdict (walked item) with
    | error error => rfl
    | ok accepted =>
      rw [firstError, firstError]
      cases firstError (items.map fun item => verdict (walked item)) <;> rfl

theorem Event.verdict_eq_ok_iff {events : List Event} :
    verdict events = .ok () ↔ first? events = none := by
  unfold verdict
  cases first? events <;> simp

/-- Records of further events follow only where nothing was wrong before. -/
theorem LogRecord.ofEvents_append (events more : List Event) :
    ofEvents (events ++ more) =
      ofEvents events ++ if (Event.first? events).isNone then ofEvents more else [] := by
  induction events with
  | nil => rfl
  | cons event events ih =>
    cases event with
    | visit path label =>
      rw [List.cons_append, ofEvents, ih]
      rfl
    | violation found => rfl

end SelectionQuery
