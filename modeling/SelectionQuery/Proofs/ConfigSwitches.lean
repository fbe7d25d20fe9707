import SelectionQuery.Proofs.DocumentPlaces
import SelectionQuery.Proofs.FirstViolation
import SelectionQuery.Proofs.PathTokens
import SelectionQuery.Proofs.VisitListing

/-! # The switches of a configuration

Checks of literals are made between the other checks, and each of them can only end a walk earlier:
the first violation with them is the one without them, or a refusal of a literal. Aliases matter only
from the first top-level key on that is no root property; without them this key is an error itself.
-/
namespace SelectionQuery
open Schema

/-- At some node of the document the check of literals refuses the value of an argument, or one of
the values of the paging arguments, with this violation. -/
inductive LiteralRefusal (config : Config) (schema : Schema) (document : Json) : Violation → Prop
  | argument {tokens : List String} {property : Property} {fields entries : List (String × Json)}
      {name : String} {argument : Argument} {value : Json} {violation : Violation}
      (leads : Leads config schema document tokens (.node (.property property) (.object fields)))
      (arguments : fields.lookup "args" = some (.object entries)) (entry : (name, value) ∈ entries)
      (declared : property.arguments.get? name = some argument)
      (refused : Literal.argumentViolation? schema argument
        ((Path.root.extendAll tokens).extend name) value = some violation) :
      LiteralRefusal config schema document violation
  | paging {tokens : List String} {property : Property} {fields entries : List (String × Json)}
      {violation : Violation}
      (leads : Leads config schema document tokens (.node (.property property) (.object fields)))
      (arguments : fields.lookup "listArgs" = some (.object entries))
      (refused : Paging.valuesViolation? (Path.root.extendAll tokens)
        (schema.typeAt property.target) (schema.identifierFor? property.target) entries =
          some violation) :
      LiteralRefusal config schema document violation

namespace Literal
variable {schema : Schema} {value : Json}

/-- The two kinds of error that a check of literals has. -/
def HasErrorKind (fault : Fault) : Prop :=
  fault.kind = .mismatchingTypes ∨ fault.kind = .undefinedProperty

theorem kind_identifierFault? {type : TypeDef} {fault : Fault}
    (h : identifierFault? type value = some fault) : fault.kind = .mismatchingTypes := by
  unfold identifierFault? at h
  split at h
  · cases h
  · cases h
    rfl

theorem kind_plainFault? {type : TypeDef} {fault : Fault}
    (h : plainFault? type value = some fault) : fault.kind = .mismatchingTypes := by
  unfold plainFault? at h
  cases hshape : type.shape with
  | primitive | scalar | enumeration =>
    simp only [hshape] at h
    split at h
    · cases h
    · cases h
      rfl
  | entityId identifier =>
    simp only [hshape] at h
    exact kind_identifierFault? h
  | record role properties =>
    cases role <;> simp only [hshape] at h <;> cases h <;> rfl
  | union | trait =>
    simp only [hshape] at h
    cases h
    rfl

def LiteralKinds (schema : Schema) (value : Json) : Prop :=
  ∀ path type violation, violation? schema path type value = some violation →
    HasErrorKind violation.fault

def ArgumentKinds (schema : Schema) (value : Json) : Prop :=
  ∀ path argument violation, argumentViolation? schema argument path value = some violation →
    HasErrorKind violation.fault

theorem argumentKinds_of (hvalue : LiteralKinds schema value)
    (hitems : ∀ items, value = .array items → ∀ item ∈ items, LiteralKinds schema item) :
    ArgumentKinds schema value := by
  intro path argument violation h
  obtain ⟨_, _, rfl⟩ | ⟨_, _, _, rfl⟩ | ⟨_, _, h⟩ | ⟨_, ⟨items, rfl⟩, h⟩ := of_declared h
  · exact .inl rfl
  · exact .inl rfl
  · exact hvalue _ _ violation h
  · rw [listViolation?, itemViolation?_eq_findSome?] at h
    obtain ⟨i, item, hi, h⟩ := exists_of_findSome?_zipIdx h
    exact hitems items rfl item (List.mem_of_getElem? hi) _ _ violation h

theorem literalKinds_of_not_object (hv : ∀ fields, value ≠ .object fields) :
    LiteralKinds schema value := by
  intro path type violation h
  rw [violation?_of_not_object hv] at h
  obtain ⟨_, rfl⟩ | ⟨_, h⟩ := of_throughUnions h
  · exact .inl rfl
  · obtain ⟨fault, hf, rfl⟩ := Option.map_eq_some_iff.mp h
    exact .inl (kind_plainFault? hf)

theorem literalKinds_object {fields : List (String × Json)}
    (hfields : ∀ name value, (name, value) ∈ fields → ArgumentKinds schema value) :
    LiteralKinds schema (.object fields) := by
  intro path type violation h
  rw [violation?_object] at h
  obtain ⟨_, rfl⟩ | ⟨_, h⟩ := of_throughUnions h
  · exact .inl rfl
  · by_cases hk : type.kind = .struct
    · rw [objectCheck_struct hk, fieldViolation?_eq_findSome?] at h
      obtain ⟨⟨name, value⟩, hm, h⟩ := List.exists_of_findSome?_eq_some h
      unfold fieldCheck at h
      split at h
      · cases h
        exact .inr rfl
      · exact hfields name value hm _ _ violation h
    · rw [objectCheck_of_ne hk] at h
      obtain ⟨fault, hf, rfl⟩ := Option.map_eq_some_iff.mp h
      exact .inl (kind_plainFault? hf)

theorem literalKinds_and_argumentKinds (schema : Schema) (value : Json) :
    LiteralKinds schema value ∧ ArgumentKinds schema value := by
  induction value using Json.induction with
  | null | bool | number | string =>
    refine ⟨literalKinds_of_not_object (by simp), argumentKinds_of ?_ (by simp)⟩
    exact literalKinds_of_not_object (by simp)
  | array items ih =>
    have hvalue : LiteralKinds schema (.array items) := literalKinds_of_not_object (by simp)
    refine ⟨hvalue, argumentKinds_of hvalue ?_⟩
    intro list heq item hm
    cases heq
    exact (ih item hm).1
  | object fields ih =>
    have hvalue := literalKinds_object fun name value hm => (ih name value hm).2
    exact ⟨hvalue, argumentKinds_of hvalue (by simp)⟩

end Literal

theorem Paging.kind_cursorFault? {element : TypeDef} {identifier : Option TypeDef} {value : Json}
    {fault : Fault} (h : cursorFault? element identifier value = some fault) :
    fault.kind = .mismatchingTypes := by
  unfold cursorFault? at h
  split at h
  · exact Literal.kind_identifierFault? h
  · split at h
    · cases h
    · cases h
      rfl

/-- The values of paging arguments have no fields, so they are never undefined properties. -/
theorem Paging.kind_valueViolation? {path : Path} {element : TypeDef} {identifier : Option TypeDef}
    {key : String} {value : Json} {violation : Violation}
    (h : valueViolation? path element identifier key value = some violation) :
    violation.fault.kind = .mismatchingTypes := by
  unfold valueViolation? at h
  split at h
  · split at h
    · cases h
    · cases h
      rfl
  · split at h
    · split at h
      · cases h
        rfl
      · rw [cursorsViolation?_eq_findSome?] at h
        obtain ⟨_, _, _, h⟩ := Literal.exists_of_findSome?_zipIdx h
        obtain ⟨fault, hf, rfl⟩ := Option.map_eq_some_iff.mp h
        exact kind_cursorFault? hf
    · obtain ⟨fault, hf, rfl⟩ := Option.map_eq_some_iff.mp h
      exact kind_cursorFault? hf

theorem LiteralRefusal.kind {config : Config} {schema : Schema} {document : Json}
    {violation : Violation} (h : LiteralRefusal config schema document violation) :
    Literal.HasErrorKind violation.fault := by
  cases h with
  | argument _ _ _ _ refused =>
    exact (Literal.literalKinds_and_argumentKinds schema _).2 _ _ violation refused
  | paging _ _ refused =>
    obtain ⟨entry, _, h⟩ := List.exists_of_findSome?_eq_some refused
    exact .inl (Paging.kind_valueViolation? h)

/-- The first violation with more checks is that without them, or one that only they find. -/
def Sharpens (added : Violation → Prop) (checked unchecked : Option Violation) : Prop :=
  checked = unchecked ∨ ∃ violation, checked = some violation ∧ added violation

namespace Sharpens
variable {added : Violation → Prop} {checked unchecked more fewer : Option Violation}

theorem refl (found : Option Violation) : Sharpens added found found := .inl rfl

theorem of_none (h : ∀ violation, checked = some violation → added violation) :
    Sharpens added checked none := by
  cases checked with
  | none => exact refl none
  | some violation => exact .inr ⟨violation, rfl, h violation rfl⟩

theorem or (h : Sharpens added checked unchecked) (hnext : Sharpens added more fewer) :
    Sharpens added (checked.or more) (unchecked.or fewer) := by
  rcases h with rfl | ⟨violation, rfl, hadded⟩
  · cases checked with
    | none => exact hnext
    | some violation => exact refl _
  · exact .inr ⟨violation, rfl, hadded⟩

theorem findSome? {α : Type} {items : List α} {check uncheck : α → Option Violation}
    (h : ∀ item ∈ items, Sharpens added (check item) (uncheck item)) :
    Sharpens added (items.findSome? check) (items.findSome? uncheck) := by
  induction items with
  | nil => exact refl none
  | cons first rest ih =>
    have hfirst := h first List.mem_cons_self
    have hrest := ih fun item hm => h item (List.mem_cons_of_mem first hm)
    have hboth := hfirst.or hrest
    simp only [List.findSome?_cons]
    cases hc : check first <;> cases hu : uncheck first <;> simpa [hc, hu] using hboth

theorem bind {α : Type} {given : Option α} {check uncheck : α → Option Violation}
    (h : ∀ value, given = some value → Sharpens added (check value) (uncheck value)) :
    Sharpens added (given.bind check) (given.bind uncheck) := by
  cases given with
  | none => exact refl none
  | some value => exact h value rfl

theorem verdict {events others : List Event}
    (h : Sharpens added (Event.first? events) (Event.first? others)) :
    Event.verdict events = Event.verdict others ∨
      ∃ violation, added violation ∧ Event.verdict events = .error violation.error := by
  unfold Event.verdict
  rcases h with heq | ⟨violation, hfound, hadded⟩
  · exact .inl (by rw [heq])
  · exact .inr ⟨violation, hadded, by rw [hfound]⟩

end Sharpens

section Literals
variable {aliases : Bool} {schema : Schema} {document value : Json} {tokens : List String}
  {property : Property} {fields : List (String × Json)}

theorem sharpens_pagingViolation?
    (leads : Leads ⟨true, aliases⟩ schema document tokens
      (.node (.property property) (.object fields)))
    (arguments : fields.lookup "listArgs" = some value) :
    Sharpens (LiteralRefusal ⟨true, aliases⟩ schema document)
      (Walk.pagingViolation? ⟨true, aliases⟩ schema property (Path.root.extendAll tokens) value)
      (Walk.pagingViolation? ⟨false, aliases⟩ schema property (Path.root.extendAll tokens) value) := by
  unfold Walk.pagingViolation?
  cases value with
  | object entries =>
    simp only [Option.orElse_eq_orElse, Option.orElse_eq_or, if_true, Bool.false_eq_true, if_false]
    apply (Sharpens.refl _).or
    apply Sharpens.of_none
    intro violation hrefused
    exact .paging leads arguments hrefused
  | null | bool | number | string | array => exact Sharpens.refl _

theorem sharpens_argumentsViolation?
    (leads : Leads ⟨true, aliases⟩ schema document tokens
      (.node (.property property) (.object fields)))
    (arguments : fields.lookup "args" = some value) :
    Sharpens (LiteralRefusal ⟨true, aliases⟩ schema document)
      (Walk.argumentsViolation? ⟨true, aliases⟩ schema property (Path.root.extendAll tokens) value)
      (Walk.argumentsViolation? ⟨false, aliases⟩ schema property (Path.root.extendAll tokens)
        value) := by
  unfold Walk.argumentsViolation?
  cases value with
  | object entries =>
    apply Sharpens.findSome?
    rintro ⟨name, value⟩ hm
    cases hd : property.arguments.get? name with
    | none => simpa only [hd] using Sharpens.refl _
    | some argument =>
      simp only [hd, if_true, Bool.false_eq_true, if_false]
      apply Sharpens.of_none
      intro violation hrefused
      exact .argument leads arguments hm hd hrefused
  | null | bool | number | string | array => exact Sharpens.refl _

theorem sharpens_ownViolation? {site : Site}
    (leads : Leads ⟨true, aliases⟩ schema document tokens (.node site (.object fields))) :
    Sharpens (LiteralRefusal ⟨true, aliases⟩ schema document)
      (Walk.ownViolation? ⟨true, aliases⟩ schema (Path.root.extendAll tokens) fields site)
      (Walk.ownViolation? ⟨false, aliases⟩ schema (Path.root.extendAll tokens) fields site) := by
  cases site with
  | branch member => exact Sharpens.refl none
  | property property =>
    simp only [Walk.ownViolation?, Option.orElse_eq_orElse, Option.orElse_eq_or]
    apply Sharpens.or
    · exact Sharpens.bind fun value hv => sharpens_pagingViolation? leads hv
    · exact Sharpens.bind fun value hv => sharpens_argumentsViolation? leads hv

/-- At every node that is led to, and at the names under its attributes, the checks of literals only
sharpen the walk. -/
theorem sharpens_node_and_names (hcheck : Checkable ⟨true, aliases⟩ schema) (document value : Json) :
    (∀ tokens site, Leads ⟨true, aliases⟩ schema document tokens (.node site value) →
      Sharpens (LiteralRefusal ⟨true, aliases⟩ schema document)
        (Event.first? (Walk.node ⟨true, aliases⟩ schema site (Path.root.extendAll tokens) value))
        (Event.first? (Walk.node ⟨false, aliases⟩ schema site (Path.root.extendAll tokens) value))) ∧
    (∀ tokens site fields descent,
      Leads ⟨true, aliases⟩ schema document tokens (.node site (.object fields)) →
      fields.lookup (Descent.key descent) = some value →
      Sharpens (LiteralRefusal ⟨true, aliases⟩ schema document)
        (Event.first? (Walk.names ⟨true, aliases⟩ schema descent (site.target schema)
          (Path.root.extendAll tokens) value))
        (Event.first? (Walk.names ⟨false, aliases⟩ schema descent (site.target schema)
          (Path.root.extendAll tokens) value))) := by
  induction value using Json.induction with
  | null | bool | number | string | array =>
    refine ⟨fun tokens site _ => ?_, fun tokens site fields descent _ _ => ?_⟩
    · rw [Walk.node_of_not_object (by simp), Walk.node_of_not_object (by simp)]
      exact Sharpens.refl _
    · rw [Walk.names_of_not_object (by simp), Walk.names_of_not_object (by simp)]
      exact Sharpens.refl _
  | object entries ih =>
    refine ⟨fun tokens site leads => ?_, fun tokens site fields descent leads names => ?_⟩
    · cases hkeys : Walk.unexpectedKey? (site.attributes schema) entries with
      | some key =>
        rw [Walk.node, Walk.node, hkeys]
        exact Sharpens.refl _
      | none =>
        have hbelow : ∀ descent : Descent, Sharpens (LiteralRefusal ⟨true, aliases⟩ schema document)
            (Event.first? (Walk.below ⟨true, aliases⟩ schema descent (site.target schema)
              (Path.root.extendAll tokens) entries))
            (Event.first? (Walk.below ⟨false, aliases⟩ schema descent (site.target schema)
              (Path.root.extendAll tokens) entries)) := by
          intro descent
          rw [Walk.first?_below, Walk.first?_below]
          apply Sharpens.bind
          intro value hv
          exact (ih _ value (mem_of_lookup hv)).2 tokens site entries descent leads hv
        rw [Walk.first?_node hkeys, Walk.first?_node hkeys]
        exact (sharpens_ownViolation? leads).or ((hbelow .accept).or (hbelow .select))
    · cases hempty : entries.isEmpty with
      | true =>
        rw [Walk.names, Walk.names, hempty]
        exact Sharpens.refl _
      | false =>
        rw [Walk.first?_names descent hempty, Walk.first?_names descent hempty, Walk.first?_nodes,
          Walk.first?_nodes]
        apply (Sharpens.refl _).or
        apply Sharpens.findSome?
        rintro ⟨name, value⟩ hm
        apply Sharpens.bind
        intro next hsite
        have ht := Site.Known.target_mem (leads.known hcheck)
        have hnext := (site?_eq_some_iff hcheck.linked hcheck.distinct ht).mp hsite
        have hnode := (ih name value hm).1 _ next (.name leads names hm hnext)
        rwa [Path.extendAll_append_one] at hnode

theorem sharpens_request (hcheck : Checkable ⟨true, aliases⟩ schema) {name : String}
    (leads : Leads ⟨true, aliases⟩ schema document [name] (.node (.property property) value))
    (label : Option String) :
    Sharpens (LiteralRefusal ⟨true, aliases⟩ schema document)
      (Event.first? (Walk.request ⟨true, aliases⟩ schema property name label value))
      (Event.first? (Walk.request ⟨false, aliases⟩ schema property name label value)) :=
  (sharpens_node_and_names hcheck document value).1 [name] (.property property) leads

theorem sharpens_entry (hcheck : Checkable ⟨true, aliases⟩ schema)
    (top : document = .object fields) {key : String} (hm : (key, value) ∈ fields) :
    Sharpens (LiteralRefusal ⟨true, aliases⟩ schema document)
      (Event.first? (Walk.entry ⟨true, aliases⟩ schema key value))
      (Event.first? (Walk.entry ⟨false, aliases⟩ schema key value)) := by
  unfold Walk.entry
  cases hroot : schema.rootProperty? key with
  | some property => exact sharpens_request hcheck (.request top hm (.named hroot)) none
  | none =>
    have hsame : Walk.aliased? ⟨true, aliases⟩ key = Walk.aliased? ⟨false, aliases⟩ key := rfl
    rw [← hsame]
    cases halias : Walk.aliased? ⟨true, aliases⟩ key with
    | none => exact Sharpens.refl _
    | some selector =>
      obtain ⟨allowed, written⟩ := aliased?_eq_some_iff.mp halias
      cases hp : schema.rootProperty? selector.property with
      | none => simpa only [hp] using Sharpens.refl _
      | some property =>
        simp only [hp]
        have requests : Requests ⟨true, aliases⟩ schema key selector.property property :=
          .aliased allowed hroot written hp
        exact sharpens_request hcheck (.request top hm requests) selector.label

theorem sharpens_document (hcheck : Checkable ⟨true, aliases⟩ schema) (document : Json) :
    Sharpens (LiteralRefusal ⟨true, aliases⟩ schema document)
      (Event.first? (Walk.document ⟨true, aliases⟩ schema document))
      (Event.first? (Walk.document ⟨false, aliases⟩ schema document)) := by
  cases hdoc : document with
  | object fields =>
    rw [Walk.document, Walk.document, Event.first?_flatMap, Event.first?_flatMap]
    apply Sharpens.findSome?
    rintro ⟨key, value⟩ hm
    exact sharpens_entry hcheck rfl hm
  | null | bool | number | string | array => exact Sharpens.refl _

end Literals

section Aliases
variable {schema : Schema} {fields : List (String × Json)}

theorem node_and_names_aliases (literals aliases others : Bool) (schema : Schema) (value : Json) :
    (∀ site path, Walk.node ⟨literals, aliases⟩ schema site path value =
      Walk.node ⟨literals, others⟩ schema site path value) ∧
    (∀ descent type path, Walk.names ⟨literals, aliases⟩ schema descent type path value =
      Walk.names ⟨literals, others⟩ schema descent type path value) := by
  induction value using Json.induction with
  | null | bool | number | string | array =>
    refine ⟨fun site path => ?_, fun descent type path => ?_⟩
    · rw [Walk.node_of_not_object (by simp), Walk.node_of_not_object (by simp)]
    · rw [Walk.names_of_not_object (by simp), Walk.names_of_not_object (by simp)]
  | object entries ih =>
    refine ⟨fun site path => ?_, fun descent type path => ?_⟩
    · have hown : Walk.ownViolation? ⟨literals, aliases⟩ schema path entries site =
          Walk.ownViolation? ⟨literals, others⟩ schema path entries site := rfl
      have hbelow : ∀ descent : Descent,
          Walk.below ⟨literals, aliases⟩ schema descent (site.target schema) path entries =
            Walk.below ⟨literals, others⟩ schema descent (site.target schema) path entries := by
        intro descent
        rw [Walk.below_eq, Walk.below_eq]
        cases hv : entries.lookup descent.key with
        | none => rfl
        | some value => exact (ih _ value (mem_of_lookup hv)).2 descent _ path
      rw [Walk.node, Walk.node, hown, hbelow, hbelow]
    · have hnodes : Walk.nodes ⟨literals, aliases⟩ schema descent type path entries =
          Walk.nodes ⟨literals, others⟩ schema descent type path entries := by
        rw [Walk.nodes_eq_flatMap, Walk.nodes_eq_flatMap]
        apply List.flatMap_congr
        rintro ⟨name, value⟩ hm
        cases descent.site? schema type name with
        | none => rfl
        | some site => exact congrArg _ ((ih name value hm).1 site _)
      rw [Walk.names, Walk.names, hnodes]

theorem entry_aliases {key : String} (h : (schema.rootProperty? key).isSome = true)
    (literals aliases others : Bool) (value : Json) :
    Walk.entry ⟨literals, aliases⟩ schema key value =
      Walk.entry ⟨literals, others⟩ schema key value := by
  obtain ⟨property, hp⟩ := Option.isSome_iff_exists.mp h
  have hnode := (node_and_names_aliases literals aliases others schema value).1
    (.property property) (Path.root.extend key)
  rw [Walk.entry, Walk.entry, hp]
  exact congrArg _ hnode

theorem document_aliases (literals aliases others : Bool) {document : Json}
    (h : ∀ entry ∈ document.entries, (schema.rootProperty? entry.1).isSome = true) :
    Walk.document ⟨literals, aliases⟩ schema document =
      Walk.document ⟨literals, others⟩ schema document := by
  cases document with
  | object fields =>
    apply List.flatMap_congr
    intro entry hm
    exact entry_aliases (h entry hm) literals aliases others entry.2
  | null | bool | number | string | array => rfl

theorem Path.render_root_extend (token : String) : (root.extend token).render = "root." ++ token := by
  have hdot : "root." = "root" ++ "." := by decide
  rw [hdot]
  rfl

theorem verdict_entry_unaliased {key : String} (h : schema.rootProperty? key = none)
    (literals : Bool) (value : Json) (events : List Event) :
    Event.verdict (Walk.entry ⟨literals, false⟩ schema key value ++ events) =
      .error ⟨.invalidPropertySelector, "root." ++ key, "invalid property name: '" ++ key ++ "'"⟩ := by
  rw [← Path.render_root_extend, Walk.entry, h]
  rfl

end Aliases

/-- How the verdicts on a document under the four configurations are related. -/
structure SwitchesRelate (schema : Schema) (document : Json) : Prop where
  /-- Checks of literals keep the verdict, or refuse a literal themselves. -/
  literals : ∀ aliases,
    validate { checkLiterals := true, allowAliases := aliases } schema document =
      validate { checkLiterals := false, allowAliases := aliases } schema document ∨
    ∃ violation, LiteralRefusal { checkLiterals := true, allowAliases := aliases } schema document
        violation ∧
      validate { checkLiterals := true, allowAliases := aliases } schema document =
        .error violation.error ∧
      (violation.error.kind = .mismatchingTypes ∨ violation.error.kind = .undefinedProperty)
  accepted : ∀ aliases,
    validate { checkLiterals := true, allowAliases := aliases } schema document = .ok () →
    validate { checkLiterals := false, allowAliases := aliases } schema document = .ok ()
  /-- Aliases do not matter to a document that requests root properties by their names. -/
  rootKeys : ∀ literals, (∀ entry ∈ document.entries, (schema.rootProperty? entry.1).isSome = true) →
    validate { checkLiterals := literals, allowAliases := true } schema document =
      validate { checkLiterals := literals, allowAliases := false } schema document
  /-- Without aliases the first other key is an error, unless one comes before it that does not
  depend on aliases. -/
  otherKey : ∀ literals aliases before key value after,
    document = .object (before ++ (key, value) :: after) →
    (∀ entry ∈ before, (schema.rootProperty? entry.1).isSome = true) →
    schema.rootProperty? key = none →
    validate { checkLiterals := literals, allowAliases := false } schema document =
      firstError
        [validate { checkLiterals := literals, allowAliases := aliases } schema (.object before),
          .error ⟨.invalidPropertySelector, "root." ++ key,
            "invalid property name: '" ++ key ++ "'"⟩]

/-- What the two switches of a configuration change in a verdict. -/
theorem switches_relate_verdicts {steps : List Step} {schema : Schema}
    (h : build steps = .ok schema) (hac : schema.UnionAcyclic) (document : Json) :
    SwitchesRelate schema document := by
  have hcheck : ∀ aliases, Checkable ⟨true, aliases⟩ schema :=
    fun aliases => checkable_of_build h fun _ => hac
  have hverdict := fun aliases => (sharpens_document (hcheck aliases) document).verdict
  constructor
  case literals =>
    intro aliases
    rcases hverdict aliases with heq | ⟨violation, hrefusal, herror⟩
    · exact .inl heq
    · exact .inr ⟨violation, hrefusal, herror, hrefusal.kind⟩
  case accepted =>
    intro aliases haccepted
    rcases hverdict aliases with heq | ⟨violation, _, herror⟩
    · exact heq.symm.trans haccepted
    · have hrejected := herror.symm.trans haccepted
      cases hrejected
  case rootKeys =>
    intro literals hkeys
    exact congrArg Event.verdict (document_aliases literals true false hkeys)
  case otherKey =>
    rintro literals aliases before key value after rfl hbefore hkey
    have hsame : Walk.document ⟨literals, false⟩ schema (.object before) =
        Walk.document ⟨literals, aliases⟩ schema (.object before) :=
      document_aliases literals false aliases hbefore
    rw [validate_eq_verdict, validate_eq_verdict, ← hsame, Walk.document_append,
      Event.verdict_append, verdict_entry_unaliased hkey]

def emptyPageQuery : Json :=
  .object [("users", .object [("listArgs", .object [("limit", .number (.integer 0))])]),
    ("users = @all", .object [])]

theorem emptyPageQuery_switches :
    build UserGraph.steps = .ok userGraph ∧ userGraph.UnionAcyclic ∧
      SwitchesRelate userGraph emptyPageQuery ∧
      validate { checkLiterals := true, allowAliases := true } userGraph emptyPageQuery =
        .error ⟨.mismatchingTypes, "root.users.limit",
          "page limit must be a positive integer, got 0"⟩ ∧
      validate { checkLiterals := false, allowAliases := true } userGraph emptyPageQuery = .ok () ∧
      validate { checkLiterals := false, allowAliases := false } userGraph emptyPageQuery =
        .error ⟨.invalidPropertySelector, "root.users = @all",
          "invalid property name: 'users = @all'"⟩ := by
  have hbuilt : build UserGraph.steps = .ok userGraph := rfl
  have hrelate := switches_relate_verdicts hbuilt userGraph_unionAcyclic emptyPageQuery
  refine ⟨hbuilt, userGraph_unionAcyclic, hrelate, by decide +kernel, by decide +kernel, ?_⟩
  rw [hrelate.otherKey false false [_] "users = @all" _ [] rfl
    (List.forall_mem_singleton.mpr (by decide)) (by decide)]
  decide +kernel

end SelectionQuery
