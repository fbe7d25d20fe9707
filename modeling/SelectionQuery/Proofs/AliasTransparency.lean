import Mathlib.Data.List.Basic
import SelectionQuery.Proofs.FirstViolation
import SelectionQuery.Schema.UserGraph

/-! # Requests under an alias

A top-level key names a root property or writes an aliased selector of one. Both lead to the same
node under the same property at the same path, and only the record of that node shows the label. So
a request can be put under an alias without a change of the verdict, whatever stands around it.
-/
namespace SelectionQuery

variable {config : Config} {schema : Schema} {name key label : String} {node : Json}

/-- The events of a request by name and under an alias, which differ where the node is entered. -/
theorem document_of_request (hallowed : config.allowAliases = true)
    (hname : (schema.rootProperty? name).isSome = true) (hkey : schema.rootProperty? key = none)
    (hwritten : Selector.parseAliased? key = some ⟨name, label⟩)
    (before after : List (String × Json)) (node : Json) :
    ∃ events,
      Walk.document config schema (.object (before ++ (name, node) :: after)) =
        Walk.document config schema (.object before) ++
          .visit (Path.root.extend name) none :: events ∧
      Walk.document config schema (.object (before ++ (key, node) :: after)) =
        Walk.document config schema (.object before) ++
          .visit (Path.root.extend name) (some label) :: events := by
  obtain ⟨property, hp⟩ := Option.isSome_iff_exists.mp hname
  refine ⟨Walk.node config schema (.property property) (Path.root.extend name) node ++
    Walk.document config schema (.object after), ?_, ?_⟩
  · rw [Walk.document_append, Walk.entry_named hp]
    rfl
  · rw [Walk.document_append, Walk.entry_aliased hallowed hkey hwritten hp]
    rfl

theorem log_of_visit {document earlier : Json} {path : Path} {label : Option String}
    {events : List Event}
    (h : Walk.document config schema document =
      Walk.document config schema earlier ++ .visit path label :: events) :
    log config schema document = log config schema earlier ++
      if (Event.first? (Walk.document config schema earlier)).isNone then
        .evaluating path label :: LogRecord.ofEvents events
      else [] := by
  rw [log, log, h, LogRecord.ofEvents_append, LogRecord.ofEvents, List.cons_append]

/-- A request keeps its verdict under an alias. The logs differ in the label of its record, which is
missing in both if the entries before it are rejected. -/
theorem alias_transparent (hallowed : config.allowAliases = true)
    (hname : (schema.rootProperty? name).isSome = true) (hkey : schema.rootProperty? key = none)
    (hwritten : Selector.parseAliased? key = some ⟨name, label⟩)
    (before after : List (String × Json)) (node : Json) :
    validate config schema (.object (before ++ (key, node) :: after)) =
      validate config schema (.object (before ++ (name, node) :: after)) ∧
    ((validate config schema (.object before) = .ok () ∧ ∃ records,
        log config schema (.object (before ++ (name, node) :: after)) =
          log config schema (.object before) ++
            .evaluating (Path.root.extend name) none :: records ∧
        log config schema (.object (before ++ (key, node) :: after)) =
          log config schema (.object before) ++
            .evaluating (Path.root.extend name) (some label) :: records) ∨
      ((∃ error, validate config schema (.object before) = .error error) ∧
        log config schema (.object (before ++ (key, node) :: after)) =
          log config schema (.object (before ++ (name, node) :: after)))) := by
  obtain ⟨events, hnamed, haliased⟩ :=
    document_of_request hallowed hname hkey hwritten before after node
  have hlog := log_of_visit hnamed
  have hlabelled := log_of_visit haliased
  constructor
  · rw [validate_eq_verdict, validate_eq_verdict, hnamed, haliased, Event.verdict_append,
      Event.verdict_append]
    rfl
  · cases hbefore : Event.first? (Walk.document config schema (.object before)) with
    | none =>
      have haccepted : validate config schema (.object before) = .ok () :=
        Event.verdict_eq_ok_iff.mpr hbefore
      rw [hbefore] at hlog hlabelled
      exact .inl ⟨haccepted, LogRecord.ofEvents events, hlog, hlabelled⟩
    | some violation =>
      have hrejected : validate config schema (.object before) = .error violation.error := by
        rw [validate_eq_verdict, Event.verdict, hbefore]
      rw [hbefore] at hlog hlabelled
      exact .inr ⟨⟨violation.error, hrejected⟩, hlabelled.trans hlog.symm⟩

/-- All users under an alias, and their names under a key. -/
def namesQuery (key : String) : Json :=
  .object [("users = @all", .object []),
    (key, .object [("select", .object [("name", .object [])])])]

theorem namesQuery_alias_transparent :
    Schema.userGraph.rootProperty? "users=@named" = none ∧
    Selector.parseAliased? "users=@named" = some ⟨"users", "named"⟩ ∧
    validate {} Schema.userGraph (namesQuery "users=@named") =
      validate {} Schema.userGraph (namesQuery "users") ∧
    ∃ records,
      log {} Schema.userGraph (namesQuery "users") =
        log {} Schema.userGraph (.object [("users = @all", .object [])]) ++
          .evaluating (Path.root.extend "users") none :: records ∧
      log {} Schema.userGraph (namesQuery "users=@named") =
        log {} Schema.userGraph (.object [("users = @all", .object [])]) ++
          .evaluating (Path.root.extend "users") (some "named") :: records := by
  have hallowed : ({} : Config).allowAliases = true := rfl
  have hname : (Schema.userGraph.rootProperty? "users").isSome = true := by decide
  have hkey : Schema.userGraph.rootProperty? "users=@named" = none := by decide
  have hwritten : Selector.parseAliased? "users=@named" = some ⟨"users", "named"⟩ := by
    decide +kernel
  have haccepted : validate {} Schema.userGraph (.object [("users = @all", .object [])]) = .ok () := by
    decide +kernel
  obtain ⟨hverdict, ⟨_, hlogs⟩ | ⟨⟨error, hrejected⟩, _⟩⟩ :=
    alias_transparent hallowed hname hkey hwritten [("users = @all", .object [])] []
      (.object [("select", .object [("name", .object [])])])
  · exact ⟨hkey, hwritten, hverdict, hlogs⟩
  · rw [haccepted] at hrejected
    cases hrejected

end SelectionQuery
