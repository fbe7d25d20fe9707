import SelectionQuery.Proofs.FirstViolation
import SelectionQuery.Proofs.PagingGrammar
import SelectionQuery.Proofs.PathTokens

/-! # Relocation of verdicts

A check is given the path at which it works and only ever extends it, so what it finds can be said by
the tokens below that path. Checks with this property are closed under the ways in which checks are
put together; hence all checks of a query have it, and a part of a query that is moved elsewhere keeps
its verdict up to where it stands.
-/
namespace SelectionQuery

namespace Path

/-- What tokens add to a rendered path. -/
def trail (tokens : List String) : String := String.join (tokens.map fun token => "." ++ token)

theorem render_extend (path : Path) (token : String) :
    (path.extend token).render = path.render ++ ("." ++ token) := by
  have hsplit := @String.intercalate_append_of_ne_nil path.tokens [token] "." path.tokens_ne_nil nofun
  rw [render, tokens_extend, hsplit, String.intercalate_singleton, render, String.append_assoc]

theorem render_extendAll (path : Path) (tokens : List String) :
    (path.extendAll tokens).render = path.render ++ trail tokens := by
  induction tokens generalizing path with
  | nil => simp [extendAll, trail]
  | cons token rest ih =>
    have hstep : path.extendAll (token :: rest) = (path.extend token).extendAll rest := rfl
    rw [hstep, ih, render_extend, trail, trail, List.map_cons, String.join_cons, String.append_assoc]

end Path

/-- What a check finds, by the tokens below the path at which it works. -/
structure Finding where
  tokens : List String
  fault : Fault

def Finding.under (path : Path) (finding : Finding) : Violation :=
  ⟨path.extendAll finding.tokens, finding.fault⟩

/-- The check finds the same below every path. -/
def Relocatable (check : Path → Option Violation) : Prop :=
  ∃ finding : Option Finding, ∀ path, check path = finding.map (Finding.under path)

namespace Relocatable
variable {check more : Path → Option Violation}

theorem nothing : Relocatable fun _ => none := ⟨none, fun _ => rfl⟩

theorem here (fault : Fault) : Relocatable fun path => some ⟨path, fault⟩ :=
  ⟨some ⟨[], fault⟩, fun _ => rfl⟩

theorem ofFault (fault : Option Fault) : Relocatable fun path => fault.map (Violation.mk path) := by
  cases fault with
  | none => exact nothing
  | some fault => exact here fault

theorem below (h : Relocatable check) (token : String) :
    Relocatable fun path => check (path.extend token) := by
  obtain ⟨finding, hfinding⟩ := h
  refine ⟨finding.map fun found => ⟨token :: found.tokens, found.fault⟩, fun path => ?_⟩
  simp only [hfinding, Option.map_map]
  rfl

theorem or (h : Relocatable check) (hmore : Relocatable more) :
    Relocatable fun path => (check path).or (more path) := by
  obtain ⟨finding, hfinding⟩ := h
  obtain ⟨other, hother⟩ := hmore
  refine ⟨finding.or other, fun path => ?_⟩
  simp only [hfinding, hother, Option.map_or]

theorem orElse (h : Relocatable check) (hmore : Relocatable more) :
    Relocatable fun path => check path <|> more path := by
  simpa only [Option.orElse_eq_orElse, Option.orElse_eq_or] using h.or hmore

theorem ite (condition : Bool) (h : Relocatable check) (hmore : Relocatable more) :
    Relocatable fun path => if condition then check path else more path := by
  cases condition with
  | true => exact h
  | false => exact hmore

theorem bind {α : Type} (found : Option α) {checks : α → Path → Option Violation}
    (h : ∀ item, found = some item → Relocatable (checks item)) :
    Relocatable fun path => found.bind fun item => checks item path := by
  cases found with
  | none => exact nothing
  | some item => exact h item rfl

theorem findSome? {α : Type} {items : List α} {checks : α → Path → Option Violation}
    (h : ∀ item ∈ items, Relocatable (checks item)) :
    Relocatable fun path => items.findSome? fun item => checks item path := by
  induction items with
  | nil => exact nothing
  | cons first rest ih =>
    obtain ⟨hfirst, hrest⟩ := List.forall_mem_cons.mp h
    have hcons : ∀ path, ((first :: rest).findSome? fun item => checks item path) =
        (checks first path).or (rest.findSome? fun item => checks item path) := by
      intro path
      rw [List.findSome?_cons]
      cases checks first path <;> rfl
    simp only [hcons]
    exact hfirst.or (ih hrest)

theorem isNone_eq (h : Relocatable check) (path other : Path) :
    (check path).isNone = (check other).isNone := by
  obtain ⟨finding, hfinding⟩ := h
  rw [hfinding, hfinding, Option.isNone_map, Option.isNone_map]

end Relocatable

namespace Literal
variable {schema : Schema} {value : Json}

theorem relocatable_throughUnions (type : TypeDef) {check : TypeDef → Path → Option Violation}
    (h : ∀ leaf, Relocatable (check leaf)) :
    Relocatable fun path => throughUnions schema path type value fun leaf => check leaf path := by
  cases hs : type.shape with
  | union members =>
    -- the search among the leaves asks only whether a check finds anything
    have hsearch : ∀ path, (fun leaf => (check leaf path).isNone) =
        fun leaf => (check leaf .root).isNone :=
      fun path => funext fun leaf => (h leaf).isNone_eq path .root
    simp only [throughUnions, hs, hsearch]
    exact .ite _ .nothing (.here _)
  | record | primitive | scalar | enumeration | entityId | trait =>
    simp only [throughUnions, hs]
    exact h type

theorem relocatable_declared (argument : Argument) {single items : Path → Unit → Option Violation}
    (hsingle : Relocatable fun path => single path ()) (hitems : Relocatable fun path => items path ()) :
    Relocatable fun path => declared schema argument path value (single path) (items path) := by
  unfold declared
  cases value with
  | null => exact .ite _ .nothing (.here _)
  | array => exact .ite _ hitems hsingle
  | bool | number | string | object => exact .ite _ (.here _) hsingle

def LiteralRelocatable (schema : Schema) (value : Json) : Prop :=
  ∀ type, Relocatable fun path => violation? schema path type value

def ArgumentRelocatable (schema : Schema) (value : Json) : Prop :=
  ∀ argument, Relocatable fun path => argumentViolation? schema argument path value

theorem relocatable_listViolation? (type : TypeDef)
    (hitems : ∀ items, value = .array items → ∀ item ∈ items, LiteralRelocatable schema item) :
    Relocatable fun path => listViolation? schema path type value := by
  cases value with
  | array items =>
    simp only [listViolation?, itemViolation?_eq_findSome?]
    refine .findSome? fun entry hm => ?_
    have hitem : entry.1 ∈ items :=
      List.mem_of_getElem? (List.mem_zipIdx_iff_getElem?.mp hm)
    exact (hitems items rfl entry.1 hitem type).below (Nat.repr entry.2)
  | null | bool | number | string | object =>
    simp only [listViolation?]
    exact .nothing

theorem argumentRelocatable_of (hvalue : LiteralRelocatable schema value)
    (hitems : ∀ items, value = .array items → ∀ item ∈ items, LiteralRelocatable schema item) :
    ArgumentRelocatable schema value :=
  fun argument => relocatable_declared argument (hvalue _) (relocatable_listViolation? _ hitems)

theorem literalRelocatable_of_not_object (h : ∀ fields, value ≠ .object fields) :
    LiteralRelocatable schema value := by
  intro type
  simp only [violation?_of_not_object h]
  exact relocatable_throughUnions type fun leaf => .ofFault _

theorem literalRelocatable_object {fields : List (String × Json)}
    (hfields : ∀ name value, (name, value) ∈ fields → ArgumentRelocatable schema value) :
    LiteralRelocatable schema (.object fields) := by
  intro type
  simp only [violation?_object]
  refine @relocatable_throughUnions _ _ type
    (fun leaf path => objectCheck schema path fields leaf) fun leaf => ?_
  by_cases hk : leaf.kind = .struct
  · simp only [objectCheck_struct hk, fieldViolation?_eq_findSome?]
    refine .findSome? fun entry hm => ?_
    simp only [fieldCheck]
    cases leaf.property? entry.1 with
    | none => exact (Relocatable.here _).below entry.1
    | some property => exact (hfields entry.1 entry.2 hm property.asField).below entry.1
  · simp only [objectCheck_of_ne hk]
    exact .ofFault _

theorem literal_and_argument_relocatable (schema : Schema) (value : Json) :
    LiteralRelocatable schema value ∧ ArgumentRelocatable schema value := by
  induction value using Json.induction with
  | null | bool | number | string =>
    refine ⟨literalRelocatable_of_not_object (by simp), argumentRelocatable_of ?_ (by simp)⟩
    exact literalRelocatable_of_not_object (by simp)
  | array items ih =>
    have hvalue : LiteralRelocatable schema (.array items) := literalRelocatable_of_not_object (by simp)
    refine ⟨hvalue, argumentRelocatable_of hvalue ?_⟩
    intro list heq item hm
    cases heq
    exact (ih item hm).1
  | object fields ih =>
    have hvalue := literalRelocatable_object fun name value hm => (ih name value hm).2
    exact ⟨hvalue, argumentRelocatable_of hvalue (by simp)⟩

end Literal

namespace Paging

theorem relocatable_integrityViolation? (fields : List (String × Json)) :
    Relocatable fun path => integrityViolation? path fields := by
  simp only [integrityViolation?]
  cases fields.find? fun field => !keys.contains field.1 with
  | some entry => exact (Relocatable.here _).below entry.1
  | none => exact .ite _ (.ite _ (.here _) (.here _)) (.ite _ (.here _) .nothing)

theorem relocatable_valueViolation? (element : TypeDef) (identifier : Option TypeDef) (key : String)
    (value : Json) : Relocatable fun path => valueViolation? path element identifier key value := by
  unfold valueViolation?
  by_cases hlimit : key = limit
  · simp only [hlimit, if_true]
    exact .ite _ .nothing (.here _)
  · by_cases hids : key = ids
    · simp only [hids, ids_ne_limit, if_false, if_true]
      cases value.items? with
      | none => exact .here _
      | some items =>
        simp only [cursorsViolation?_eq_findSome?]
        exact .findSome? fun entry _ => (Relocatable.ofFault _).below (Nat.repr entry.2)
    · simp only [hlimit, hids, if_false]
      exact .ofFault _

theorem relocatable_valuesViolation? (element : TypeDef) (identifier : Option TypeDef)
    (fields : List (String × Json)) :
    Relocatable fun path => valuesViolation? path element identifier fields :=
  .findSome? fun entry _ => (relocatable_valueViolation? element identifier entry.1 entry.2).below entry.1

end Paging

namespace Walk
variable {config : Config} {schema : Schema} {fields : List (String × Json)}

theorem relocatable_pagingViolation? (property : Property) (value : Json) :
    Relocatable fun path => pagingViolation? config schema property path value := by
  unfold pagingViolation?
  cases value with
  | object fields =>
    refine (Paging.relocatable_integrityViolation? fields).orElse (.ite _ ?_ .nothing)
    exact Paging.relocatable_valuesViolation? _ _ fields
  | null | bool | number | string | array => exact .here _

theorem relocatable_argumentsViolation? (property : Property) (value : Json) :
    Relocatable fun path => argumentsViolation? config schema property path value := by
  unfold argumentsViolation?
  cases value with
  | object fields =>
    refine .findSome? ?_
    rintro ⟨name, value⟩ _
    cases ha : property.arguments.get? name with
    | none =>
      simp only [ha]
      exact (Relocatable.here _).below name
    | some argument =>
      have hvalue := (Literal.literal_and_argument_relocatable schema value).2 argument
      simp only [ha]
      exact .ite _ (hvalue.below name) .nothing
  | null | bool | number | string | array => exact .here _

theorem relocatable_ownViolation? (fields : List (String × Json)) (site : Site) :
    Relocatable fun path => ownViolation? config schema path fields site := by
  cases site with
  | property property =>
    refine (Relocatable.bind _ fun value _ => ?_).orElse (.bind _ fun value _ => ?_)
    · exact relocatable_pagingViolation? property value
    · exact relocatable_argumentsViolation? property value
  | branch member => exact .nothing

def NodeRelocatable (config : Config) (schema : Schema) (value : Json) : Prop :=
  ∀ site, Relocatable fun path => Event.first? (node config schema site path value)

def NamesRelocatable (config : Config) (schema : Schema) (value : Json) : Prop :=
  ∀ descent type, Relocatable fun path => Event.first? (names config schema descent type path value)

theorem relocatable_below (descent : Descent) (type : TypeDef)
    (hnames : ∀ key value, (key, value) ∈ fields → NamesRelocatable config schema value) :
    Relocatable fun path => Event.first? (below config schema descent type path fields) := by
  simp only [first?_below]
  exact .bind _ fun value hv => hnames _ value (mem_of_lookup hv) descent type

theorem nodeRelocatable_object
    (hnames : ∀ key value, (key, value) ∈ fields → NamesRelocatable config schema value) :
    NodeRelocatable config schema (.object fields) := by
  intro site
  cases hkeys : unexpectedKey? (site.attributes schema) fields with
  | some key =>
    simp only [node, hkeys]
    exact (Relocatable.here _).below key
  | none =>
    simp only [first?_node hkeys]
    exact (relocatable_ownViolation? fields site).or
      ((relocatable_below .accept _ hnames).or (relocatable_below .select _ hnames))

theorem namesRelocatable_object
    (hnodes : ∀ name value, (name, value) ∈ fields → NodeRelocatable config schema value) :
    NamesRelocatable config schema (.object fields) := by
  intro descent type
  cases hempty : fields.isEmpty with
  | true =>
    simp only [names, hempty, if_true]
    exact .here _
  | false =>
    simp only [first?_names descent hempty, first?_nodes]
    refine .or ?_ (.findSome? fun entry hm => ?_)
    · cases undeclaredName? schema type descent fields with
      | none => exact .nothing
      | some name => exact (Relocatable.here _).below name
    · exact .bind _ fun site _ => (hnodes entry.1 entry.2 hm site).below entry.1

theorem node_and_names_relocatable (config : Config) (schema : Schema) (value : Json) :
    NodeRelocatable config schema value ∧ NamesRelocatable config schema value := by
  induction value using Json.induction with
  | null | bool | number | string | array =>
    refine ⟨fun site => ?_, fun descent type => ?_⟩
    · simp only [node]
      exact .here _
    · simp only [names]
      exact .here _
  | object fields ih =>
    exact ⟨nodeRelocatable_object fun key value hm => (ih key value hm).2,
      namesRelocatable_object fun name value hm => (ih name value hm).1⟩

end Walk

/-- At any two paths the check finds nothing, or it reports errors of one kind and detail, whose paths
go on with one text, which begins as given. -/
def SameVerdicts (lead : String) (check : Path → Option Violation) : Prop :=
  ∀ path other, (check path = none ∧ check other = none) ∨
    ∃ kind detail rest,
      (check path).map Violation.error = some ⟨kind, path.render ++ (lead ++ rest), detail⟩ ∧
      (check other).map Violation.error = some ⟨kind, other.render ++ (lead ++ rest), detail⟩

theorem Relocatable.sameVerdicts {check : Path → Option Violation} (h : Relocatable check) :
    SameVerdicts "" check := by
  obtain ⟨finding, hfinding⟩ := h
  intro path other
  rw [hfinding, hfinding]
  cases finding with
  | none => exact .inl ⟨rfl, rfl⟩
  | some found =>
    have herror : ∀ path : Path, (found.under path).error =
        ⟨found.fault.kind, path.render ++ ("" ++ Path.trail found.tokens), found.fault.detail⟩ := by
      intro path
      rw [String.empty_append, ← Path.render_extendAll]
      rfl
    exact .inr ⟨_, _, _, congrArg some (herror path), congrArg some (herror other)⟩

theorem SameVerdicts.below {check : Path → Option Violation} (h : SameVerdicts "" check)
    (name : String) : SameVerdicts ("." ++ name) fun path => check (path.extend name) := by
  intro path other
  rcases h (path.extend name) (other.extend name) with hnone | ⟨kind, detail, rest, hfirst, hsecond⟩
  · exact .inl hnone
  · simp only [Path.render_extend, String.empty_append, String.append_assoc] at hfirst hsecond
    refine .inr ⟨kind, detail, rest, ?_, ?_⟩
    · simpa only [String.append_assoc] using hfirst
    · simpa only [String.append_assoc] using hsecond

/-- The verdicts on all parts of a query do not depend on where the part is. -/
structure VerdictsRelocate (config : Config) (schema : Schema) : Prop where
  /-- A property that is entered under a name, with or without a label. -/
  property : ∀ property name label value, SameVerdicts ("." ++ name) fun path =>
    Event.first? (.visit (path.extend name) label ::
      Walk.node config schema (.property property) (path.extend name) value)
  /-- The branches and the selection of a node. -/
  shape : ∀ type fields, SameVerdicts "" fun path =>
    Event.first? (Walk.below config schema .accept type path fields ++
      Walk.below config schema .select type path fields)
  arguments : ∀ property value, SameVerdicts "" fun path =>
    Walk.argumentsViolation? config schema property path value
  argument : ∀ argument value, SameVerdicts "" fun path =>
    Literal.argumentViolation? schema argument path value
  literal : ∀ type value, SameVerdicts "" fun path => Literal.violation? schema path type value
  choice : ∀ fields, SameVerdicts "" fun path => Paging.integrityViolation? path fields
  values : ∀ element identifier fields, SameVerdicts "" fun path =>
    Paging.valuesViolation? path element identifier fields

theorem verdicts_relocate (config : Config) (schema : Schema) : VerdictsRelocate config schema := by
  constructor
  case property =>
    intro property name label value
    have hnode := (Walk.node_and_names_relocatable config schema value).1 (.property property)
    exact hnode.sameVerdicts.below name
  case shape =>
    intro type fields
    have hnames : ∀ key value, (key, value) ∈ fields → Walk.NamesRelocatable config schema value :=
      fun key value _ => (Walk.node_and_names_relocatable config schema value).2
    simp only [Event.first?_append]
    exact ((Walk.relocatable_below .accept type hnames).or
      (Walk.relocatable_below .select type hnames)).sameVerdicts
  case arguments =>
    exact fun property value => (Walk.relocatable_argumentsViolation? property value).sameVerdicts
  case argument =>
    exact fun argument value =>
      ((Literal.literal_and_argument_relocatable schema value).2 argument).sameVerdicts
  case literal =>
    exact fun type value => ((Literal.literal_and_argument_relocatable schema value).1 type).sameVerdicts
  case choice => exact fun fields => (Paging.relocatable_integrityViolation? fields).sameVerdicts
  case values =>
    exact fun element identifier fields =>
      (Paging.relocatable_valuesViolation? element identifier fields).sameVerdicts

end SelectionQuery
