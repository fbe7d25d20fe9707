import SelectionQuery.Proofs.JsonInduction
import SelectionQuery.Proofs.NameMapLookup
import SelectionQuery.Proofs.WalkEvents
import SelectionQuery.Schema.UserGraph

/-! # The listing of requested nodes

Which nodes a document requests, and in which order, can be read off its structure: the names under
`accept` come before those under `select`, and a branch is passed through without being listed. The
schema only says which top-level keys are requests. A walk enters the nodes of this listing one by
one, all of them if it meets no violation and a beginning of them otherwise.
-/
namespace SelectionQuery

/-- A requested node: where it stands, and its label if it is aliased. -/
structure Visit where
  path : Path
  label : Option String
  deriving DecidableEq, Repr

def Visit.event (visit : Visit) : Event := .visit visit.path visit.label

def Visit.record (visit : Visit) : LogRecord := .evaluating visit.path visit.label

def Json.entries : Json → List (String × Json)
  | .object fields => fields
  | _ => []

def Json.entriesAt (key : String) (node : Json) : List (String × Json) :=
  ((node.get? key).map Json.entries).getD []

theorem Json.sizeOf_lt_of_mem_entries {value : Json} {entry : String × Json}
    (h : entry ∈ value.entries) : sizeOf entry.2 < sizeOf value := by
  cases value with
  | object fields =>
    have hentry : sizeOf entry < sizeOf fields := List.sizeOf_lt_of_mem h
    obtain ⟨name, value⟩ := entry
    simp only [Prod.mk.sizeOf_spec, Json.object.sizeOf_spec] at hentry ⊢
    omega
  | null | bool | number | string | array => cases h

theorem Json.sizeOf_lt_of_mem_entriesAt {key : String} {node : Json} {entry : String × Json}
    (h : entry ∈ node.entriesAt key) : sizeOf entry.2 < sizeOf node := by
  cases node with
  | object fields =>
    cases hvalue : fields.lookup key with
    | none => simp [entriesAt, get?, hvalue] at h
    | some value =>
      have hin : (key, value) ∈ (Json.object fields).entries := mem_of_lookup hvalue
      have hentry : entry ∈ value.entries := by simpa [entriesAt, get?, hvalue] using h
      exact (sizeOf_lt_of_mem_entries hentry).trans (sizeOf_lt_of_mem_entries hin)
  | null | bool | number | string | array => cases h

/-- The nodes under a node: those under its branches, then each selected node with those under it. -/
def listing (path : Path) (node : Json) : List Visit :=
  ((node.entriesAt "accept").attach.flatMap fun ⟨entry, _⟩ =>
    listing (path.extend entry.1) entry.2) ++
  ((node.entriesAt "select").attach.flatMap fun ⟨entry, _⟩ =>
    ⟨path.extend entry.1, none⟩ :: listing (path.extend entry.1) entry.2)
termination_by sizeOf node
decreasing_by all_goals exact Json.sizeOf_lt_of_mem_entriesAt (by assumption)

/-- The node that a top-level key requests: a root property of that very name, or else one under a
label where aliases are allowed. -/
def requestOf? (config : Config) (schema : Schema) (key : String) : Option Visit :=
  if (schema.rootProperty? key).isSome then some ⟨Path.root.extend key, none⟩
  else if config.allowAliases then
    match Selector.parseAliased? key with
    | none => none
    | some selector =>
      if (schema.rootProperty? selector.property).isSome then
        some ⟨Path.root.extend selector.property, some selector.label⟩
      else none
  else none

/-- The nodes that a document requests: for each top-level entry its node with those under it. -/
def documentListing (config : Config) (schema : Schema) : Json → List Visit
  | .object fields => fields.flatMap fun entry =>
    match requestOf? config schema entry.1 with
    | none => []
    | some visit => visit :: listing visit.path entry.2
  | _ => []

/-- The events enter the nodes of a listing in order, either all of them and nothing else, or a
beginning of them up to a violation. -/
def Covers (events : List Event) (visits : List Visit) : Prop :=
  events = visits.map Visit.event ∨
  ∃ entered violation rest, entered <+: visits ∧
    events = entered.map Visit.event ++ .violation violation :: rest

namespace Covers
variable {events more : List Event} {visits others : List Visit}

theorem nil : Covers [] [] := .inl rfl

theorem visit (visit : Visit) : Covers [visit.event] [visit] := .inl rfl

theorem violation (found : Violation) (rest : List Event) (visits : List Visit) :
    Covers (.violation found :: rest) visits := .inr ⟨[], found, rest, List.nil_prefix, rfl⟩

/-- What comes after a violation does not matter, so coverage goes part by part. -/
theorem append (h : Covers events visits) (hmore : Covers more others) :
    Covers (events ++ more) (visits ++ others) := by
  rcases h with rfl | ⟨entered, found, rest, hentered, rfl⟩
  · rcases hmore with rfl | ⟨entered, found, rest, hentered, rfl⟩
    · exact .inl List.map_append.symm
    · refine .inr ⟨visits ++ entered, found, rest, ?_, ?_⟩
      · exact (List.prefix_append_right_inj visits).mpr hentered
      · rw [List.map_append, List.append_assoc]
  · refine .inr ⟨entered, found, rest ++ more, ?_, ?_⟩
    · exact hentered.trans (List.prefix_append visits others)
    · rw [List.append_assoc, List.cons_append]

theorem flatMap {α : Type} {items : List α} {walked : α → List Event} {listed : α → List Visit}
    (h : ∀ item ∈ items, Covers (walked item) (listed item)) :
    Covers (items.flatMap walked) (items.flatMap listed) := by
  induction items with
  | nil => exact nil
  | cons first rest ih =>
    rw [List.flatMap_cons, List.flatMap_cons]
    have hfirst := h first List.mem_cons_self
    have hrest := ih fun item hm => h item (List.mem_cons_of_mem first hm)
    exact hfirst.append hrest

end Covers

def Descent.listed (path : Path) (entries : List (String × Json)) : Descent → List Visit
  | .accept => entries.flatMap fun entry => listing (path.extend entry.1) entry.2
  | .select => entries.flatMap fun entry =>
    ⟨path.extend entry.1, none⟩ :: listing (path.extend entry.1) entry.2

theorem listing_eq (path : Path) (node : Json) :
    listing path node = Descent.accept.listed path (node.entriesAt "accept") ++
      Descent.select.listed path (node.entriesAt "select") := by
  rw [listing, Descent.listed, Descent.listed]
  simp only [List.flatMap_subtype, List.unattach_attach]

/-- Branches come first, wherever they stand in the node. -/
example :
    listing Path.root (.object
      [("select", .object [("name", .object [])]),
       ("accept", .object [("User", .object [("select", .object [("friends", .object [])])])])]) =
    [⟨(Path.root.extend "User").extend "friends", none⟩, ⟨Path.root.extend "name", none⟩] := by
  cbv

section Walked
variable {config : Config} {schema : Schema} {type : TypeDef} {path : Path}
  {fields : List (String × Json)}

theorem covers_nodes {descent : Descent}
    (hsites : Walk.undeclaredName? schema type descent fields = none)
    (hnodes : ∀ name value, (name, value) ∈ fields → ∀ site,
      Covers (Walk.node config schema site (path.extend name) value)
        (listing (path.extend name) value)) :
    Covers (Walk.nodes config schema descent type path fields) (descent.listed path fields) := by
  rw [Walk.undeclaredName?_eq_none_iff] at hsites
  rw [Walk.nodes_eq_flatMap]
  cases descent with
  | accept =>
    refine Covers.flatMap fun ⟨name, value⟩ hm => ?_
    obtain ⟨site, hsite⟩ := hsites name value hm
    obtain ⟨member, _, rfl⟩ := Option.map_eq_some_iff.mp hsite
    simp only [hsite]
    exact hnodes name value hm (.branch member)
  | select =>
    refine Covers.flatMap fun ⟨name, value⟩ hm => ?_
    obtain ⟨site, hsite⟩ := hsites name value hm
    obtain ⟨property, _, rfl⟩ := Option.map_eq_some_iff.mp hsite
    simp only [hsite]
    have hnode := hnodes name value hm (.property property)
    exact (Covers.visit ⟨path.extend name, none⟩).append hnode

theorem covers_below (descent : Descent)
    (hnames : ∀ key value, (key, value) ∈ fields →
      Covers (Walk.names config schema descent type path value)
        (descent.listed path value.entries)) :
    Covers (Walk.below config schema descent type path fields)
      (descent.listed path ((Json.object fields).entriesAt descent.key)) := by
  rw [Walk.below_eq, Json.entriesAt, Json.get?]
  cases hvalue : fields.lookup descent.key with
  | none => cases descent <;> exact .nil
  | some value => exact hnames _ value (mem_of_lookup hvalue)

theorem covers_ownViolation? (site : Site) :
    Covers ((Walk.ownViolation? config schema path fields site).toList.map .violation) [] := by
  cases Walk.ownViolation? config schema path fields site with
  | none => exact .nil
  | some found => exact .violation found [] []

/-- The walk covers the listing at every node, and at the names under every attribute. -/
theorem covers_node_and_names (config : Config) (schema : Schema) (value : Json) :
    (∀ site path, Covers (Walk.node config schema site path value) (listing path value)) ∧
    (∀ descent type path, Covers (Walk.names config schema descent type path value)
      (Descent.listed path value.entries descent)) := by
  induction value using Json.induction with
  | null | bool | number | string | array =>
    refine ⟨fun site path => ?_, fun descent type path => ?_⟩
    · rw [Walk.node_of_not_object (by nofun)]
      exact .violation _ [] _
    · rw [Walk.names_of_not_object (by nofun)]
      exact .violation _ [] _
  | object fields ih =>
    refine ⟨fun site path => ?_, fun descent type path => ?_⟩
    · rw [Walk.node]
      cases Walk.unexpectedKey? (site.attributes schema) fields with
      | some key => exact .violation _ [] _
      | none =>
        have haccept := covers_below .accept fun key value hm =>
          (ih key value hm).2 .accept (site.target schema) path
        have hselect := covers_below .select fun key value hm =>
          (ih key value hm).2 .select (site.target schema) path
        rw [listing_eq]
        exact ((covers_ownViolation? site).append haccept).append hselect
    · rw [Walk.names]
      split
      · exact .violation _ [] _
      · cases hsites : Walk.undeclaredName? schema type descent fields with
        | some name => exact .violation _ [] _
        | none => exact covers_nodes hsites fun name value hm site => (ih name value hm).1 site _

end Walked

theorem covers_entry (config : Config) (schema : Schema) (key : String) (value : Json) :
    Covers (Walk.entry config schema key value)
      (match requestOf? config schema key with
        | none => []
        | some visit => visit :: listing visit.path value) := by
  have hrequest : ∀ property name label,
      Covers (Walk.request config schema property name label value)
        (⟨Path.root.extend name, label⟩ :: listing (Path.root.extend name) value) := by
    intro property name label
    have hnode := (covers_node_and_names config schema value).1 (.property property)
      (Path.root.extend name)
    exact (Covers.visit ⟨Path.root.extend name, label⟩).append hnode
  unfold Walk.entry requestOf? Walk.aliased?
  cases hroot : schema.rootProperty? key with
  | some property => simpa using hrequest property key none
  | none =>
    cases config.allowAliases with
    | false => exact .violation _ [] _
    | true =>
      cases halias : Selector.parseAliased? key with
      | none => exact .violation _ [] _
      | some selector =>
        cases hp : schema.rootProperty? selector.property with
        | none => simpa [hp] using Covers.violation _ [] _
        | some property => simpa [hp] using hrequest property selector.property selector.label

theorem covers_document (config : Config) (schema : Schema) (document : Json) :
    Covers (Walk.document config schema document) (documentListing config schema document) := by
  cases document with
  | object fields => exact Covers.flatMap fun entry _ => covers_entry config schema entry.1 entry.2
  | null | bool | number | string | array => exact .violation _ [] _

theorem ofEvents_visits (visits : List Visit) (events : List Event) :
    LogRecord.ofEvents (visits.map Visit.event ++ events) =
      visits.map Visit.record ++ LogRecord.ofEvents events := by
  induction visits with
  | nil => rfl
  | cons visit rest ih => simpa [Visit.event, Visit.record, LogRecord.ofEvents] using ih

theorem findSome?_violation_visits (visits : List Visit) (events : List Event) :
    (visits.map Visit.event ++ events).findSome? Event.violation? =
      events.findSome? Event.violation? := by
  induction visits with
  | nil => rfl
  | cons visit rest ih =>
    rw [List.map_cons, List.cons_append, List.findSome?_cons]
    exact ih

/-- The log of an accepted document holds its requested nodes, each once and in document order. That
of a rejected document holds a beginning of them and then the error. -/
theorem log_lists_requested_nodes (config : Config) (schema : Schema) (document : Json) :
    (validate config schema document = .ok () →
      log config schema document =
        .span :: (documentListing config schema document).map Visit.record) ∧
    (∀ error, validate config schema document = .error error →
      ∃ entered, entered <+: documentListing config schema document ∧
        log config schema document = .span :: (entered.map Visit.record ++ [.rejected error])) := by
  unfold validate log
  rcases covers_document config schema document with hall | ⟨entered, found, rest, hentered, hstop⟩
  · have hnone := findSome?_violation_visits (documentListing config schema document) []
    have hrecords := ofEvents_visits (documentListing config schema document) []
    rw [List.append_nil, ← hall] at hnone hrecords
    rw [hnone, hrecords]
    exact ⟨fun _ => by simp [LogRecord.ofEvents], nofun⟩
  · have hfound := findSome?_violation_visits entered (.violation found :: rest)
    have hrecords := ofEvents_visits entered (.violation found :: rest)
    rw [← hstop] at hfound hrecords
    rw [hfound, hrecords]
    refine ⟨nofun, fun error herror => ⟨entered, hentered, ?_⟩⟩
    cases herror
    rfl

def partnerQuery (type : String) : Json :=
  .object [("users = @all", .object
    [("select", .object
      [("partner", .object
        [("accept", .object [(type, .object [("select", .object [("name", .object [])])])])]),
       ("birthDate", .object [])])])]

theorem partnerQuery_log :
    let users := Path.root.extend "users"
    let partner := users.extend "partner"
    let error := (Violation.mk (partner.extend "Pet") (.undefinedType "Pet")).error
    (validate {} Schema.userGraph (partnerQuery "User") = .ok () ∧
      log {} Schema.userGraph (partnerQuery "User") =
        [.span, .evaluating users (some "all"), .evaluating partner none,
          .evaluating ((partner.extend "User").extend "name") none,
          .evaluating (users.extend "birthDate") none]) ∧
    validate {} Schema.userGraph (partnerQuery "Pet") = .error error ∧
      ∃ entered, entered <+: documentListing {} Schema.userGraph (partnerQuery "Pet") ∧
        log {} Schema.userGraph (partnerQuery "Pet") =
          .span :: (entered.map Visit.record ++ [.rejected error]) := by
  intro users partner error
  have haccepts : validate {} Schema.userGraph (partnerQuery "User") = .ok () := by decide +kernel
  have hrejects : validate {} Schema.userGraph (partnerQuery "Pet") = .error error := by
    decide +kernel
  have hlisted : documentListing {} Schema.userGraph (partnerQuery "User") =
      [⟨users, some "all"⟩, ⟨partner, none⟩, ⟨(partner.extend "User").extend "name", none⟩,
        ⟨users.extend "birthDate", none⟩] := by decide +kernel
  refine ⟨⟨haccepts, ?_⟩, hrejects, (log_lists_requested_nodes _ _ _).2 error hrejects⟩
  rw [(log_lists_requested_nodes _ _ _).1 haccepts, hlisted]
  rfl

end SelectionQuery
