import SelectionQuery.Proofs.DocumentPlaces
import SelectionQuery.Proofs.PathTokens

/-! # Grounds of rejections

An error names the place of a part of the document that breaks the rule of the kind of error. Every
violation of a walk has such grounds, so a rejection has them whichever violation comes first.
-/
namespace SelectionQuery
open Schema

/-- What justifies an error of a kind at the place that the tokens lead to. Where the last token is
itself at fault, the tokens before it lead to the node or value that it belongs to. -/
inductive Grounds (config : Config) (schema : Schema) (document : Json) :
    ErrorKind → Fault → List String → Prop
  | document (other : ∀ fields, document ≠ .object fields) :
      Grounds config schema document .mismatchingTypes (.notAnObject .document document.kind) []
  | selector {fields : List (String × Json)} {key : String} {value : Json}
      (top : document = .object fields) (entry : (key, value) ∈ fields)
      (unnamed : schema.rootProperty? key = none)
      (unaliased : config.allowAliases = false ∨ Selector.parseAliased? key = none) :
      Grounds config schema document .invalidPropertySelector (.invalidSelector key) [key]
  | aliasedProperty {fields : List (String × Json)} {key : String} {value : Json}
      {selector : Selector.Aliased} (top : document = .object fields) (entry : (key, value) ∈ fields)
      (unnamed : schema.rootProperty? key = none) (allowed : config.allowAliases = true)
      (written : Selector.parseAliased? key = some selector)
      (undeclared : schema.rootProperty? selector.property = none) :
      Grounds config schema document .undefinedProperty (.undefinedRootProperty key)
        [selector.property]
  | node {tokens : List String} {site : Site} {value : Json}
      (leads : Leads config schema document tokens (.node site value))
      (other : ∀ fields, value ≠ .object fields) :
      Grounds config schema document .mismatchingTypes (.notAnObject site.part value.kind) tokens
  | unexpectedAttribute {tokens : List String} {site : Site} {fields : List (String × Json)}
      {key : String} {value : Json}
      (leads : Leads config schema document tokens (.node site (.object fields)))
      (entry : (key, value) ∈ fields) (inapplicable : ¬Applies schema site key) :
      Grounds config schema document .unexpectedAttribute (.unexpectedAttribute key)
        (tokens ++ [key])
  | names {tokens : List String} {site : Site} {fields : List (String × Json)} {descent : Descent}
      {value : Json} (leads : Leads config schema document tokens (.node site (.object fields)))
      (names : fields.lookup descent.key = some value) (other : ∀ fields, value ≠ .object fields) :
      Grounds config schema document .mismatchingTypes (.notAnObject descent.part value.kind) tokens
  | noNames {tokens : List String} {site : Site} {fields : List (String × Json)} {descent : Descent}
      (leads : Leads config schema document tokens (.node site (.object fields)))
      (names : fields.lookup descent.key = some (.object [])) :
      Grounds config schema document .missingSelector descent.emptyFault tokens
  | undefinedSelection {tokens : List String} {site : Site} {fields entries : List (String × Json)}
      {name : String} {value : Json}
      (leads : Leads config schema document tokens (.node site (.object fields)))
      (names : fields.lookup "select" = some (.object entries)) (entry : (name, value) ∈ entries)
      (undeclared : (site.target schema).property? name = none) :
      Grounds config schema document .undefinedProperty (.undefinedSelection name) (tokens ++ [name])
  | undefinedType {tokens : List String} {site : Site} {fields entries : List (String × Json)}
      {name : String} {value : Json}
      (leads : Leads config schema document tokens (.node site (.object fields)))
      (names : fields.lookup "accept" = some (.object entries)) (entry : (name, value) ∈ entries)
      (undeclared : ∀ member ∈ (site.target schema).members, (schema.typeAt member).name ≠ name) :
      Grounds config schema document .undefinedType (.undefinedType name) (tokens ++ [name])
  | arguments {tokens : List String} {property : Property} {fields : List (String × Json)}
      {value : Json}
      (leads : Leads config schema document tokens (.node (.property property) (.object fields)))
      (arguments : fields.lookup "args" = some value) (other : ∀ fields, value ≠ .object fields) :
      Grounds config schema document .mismatchingTypes (.notAnObject .arguments value.kind) tokens
  | undefinedArgument {tokens : List String} {property : Property}
      {fields entries : List (String × Json)} {name : String} {value : Json}
      (leads : Leads config schema document tokens (.node (.property property) (.object fields)))
      (arguments : fields.lookup "args" = some (.object entries)) (entry : (name, value) ∈ entries)
      (undeclared : property.arguments.get? name = none) :
      Grounds config schema document .undefinedProperty (.undefinedArgument name) (tokens ++ [name])
  | nullForRequired {tokens : List String} {argument : Argument}
      (leads : Leads config schema document tokens (.argument argument .null))
      (required : argument.optional = false) :
      Grounds config schema document .mismatchingTypes
        (.nullForRequired (schema.typeAt argument.type).name) tokens
  | notAList {tokens : List String} {argument : Argument} {value : Json}
      (leads : Leads config schema document tokens (.argument argument value))
      (list : argument.list = true) (present : value ≠ .null)
      (other : ∀ items, value ≠ .array items) :
      Grounds config schema document .mismatchingTypes
        (.notAList (schema.typeAt argument.type).name value) tokens
  | illegalValue {tokens : List String} {id : TypeId} {value : Json}
      (leads : Leads config schema document tokens (.literal id value))
      (kind : (schema.typeAt id).kind ∈ [TypeKind.primitive, .scalar, .enumeration, .union])
      (untyped : ¬HasType schema id value) :
      Grounds config schema document .mismatchingTypes (.illegalValue (schema.typeAt id).name value)
        tokens
  | illegalIdentifier {tokens : List String} {id : TypeId} {value : Json}
      (leads : Leads config schema document tokens (.literal id value))
      (kind : (schema.typeAt id).kind = .entityId) (untyped : ¬HasType schema id value) :
      Grounds config schema document .mismatchingTypes (.illegalIdentifier (schema.typeAt id).name)
        tokens
  | notAStruct {tokens : List String} {id : TypeId} {value : Json}
      (leads : Leads config schema document tokens (.literal id value))
      (struct : (schema.typeAt id).kind = .struct) (other : ∀ fields, value ≠ .object fields) :
      Grounds config schema document .mismatchingTypes (.notAStruct (schema.typeAt id).name value)
        tokens
  | notALiteral {tokens : List String} {id : TypeId} {value : Json}
      (leads : Leads config schema document tokens (.literal id value))
      (kind : (schema.typeAt id).kind ∈ [TypeKind.root, .entity, .trait]) :
      Grounds config schema document .mismatchingTypes
        (.notALiteral (schema.typeAt id).kind (schema.typeAt id).name) tokens
  | undefinedField {tokens : List String} {id : TypeId} {fields : List (String × Json)}
      {name : String} {value : Json}
      (leads : Leads config schema document tokens (.literal id (.object fields)))
      (struct : (schema.typeAt id).kind = .struct) (entry : (name, value) ∈ fields)
      (undeclared : (schema.typeAt id).property? name = none) :
      Grounds config schema document .undefinedProperty
        (.undefinedField name (schema.typeAt id).name) (tokens ++ [name])
  | pagingArguments {tokens : List String} {property : Property} {fields : List (String × Json)}
      {value : Json}
      (leads : Leads config schema document tokens (.node (.property property) (.object fields)))
      (arguments : fields.lookup "listArgs" = some value)
      (other : ∀ fields, value ≠ .object fields) :
      Grounds config schema document .mismatchingTypes (.notAnObject .listArguments value.kind) tokens
  | unknownListArgument {tokens : List String} {property : Property}
      {fields entries : List (String × Json)} {key : String} {value : Json}
      (leads : Leads config schema document tokens (.node (.property property) (.object fields)))
      (arguments : fields.lookup "listArgs" = some (.object entries))
      (entry : (key, value) ∈ entries) (unknown : key ∉ ["ids", "after", "limit"]) :
      Grounds config schema document .unknownListArgument (.unknownListArgument key) (tokens ++ [key])
  | missingListArguments {tokens : List String} {property : Property}
      {fields entries : List (String × Json)}
      (leads : Leads config schema document tokens (.node (.property property) (.object fields)))
      (arguments : fields.lookup "listArgs" = some (.object entries))
      (given : Paging.givenKeys entries = ∅) :
      Grounds config schema document .missingListArguments .missingListArguments tokens
  | missingPageLimit {tokens : List String} {property : Property}
      {fields entries : List (String × Json)}
      (leads : Leads config schema document tokens (.node (.property property) (.object fields)))
      (arguments : fields.lookup "listArgs" = some (.object entries))
      (given : Paging.givenKeys entries = {"after"}) :
      Grounds config schema document .missingPageLimitArgument .missingPageLimit tokens
  | mixedListArguments {tokens : List String} {property : Property}
      {fields entries : List (String × Json)}
      (leads : Leads config schema document tokens (.node (.property property) (.object fields)))
      (arguments : fields.lookup "listArgs" = some (.object entries))
      (ids : "ids" ∈ Paging.givenKeys entries)
      (page : "after" ∈ Paging.givenKeys entries ∨ "limit" ∈ Paging.givenKeys entries) :
      Grounds config schema document .illegalListArgumentsCombination
        (.mixedListArguments ((entries.filter fun entry => entry.2.isPresent).map Prod.fst)) tokens
  | invalidPageLimit {tokens : List String} {element : TypeId} {value : Json}
      (leads : Leads config schema document tokens (.paging element "limit" value))
      (invalid : ¬Paging.HasValue schema element "limit" value) :
      Grounds config schema document .mismatchingTypes (.invalidPageLimit value) tokens
  | notAnIdentifierList {tokens : List String} {element : TypeId} {value : Json}
      (leads : Leads config schema document tokens (.paging element "ids" value))
      (other : ∀ items, value ≠ .array items) :
      Grounds config schema document .mismatchingTypes (.notAnIdentifierList value) tokens
  | illegalAddress {tokens : List String} {element : TypeId} {value : Json} {type : TypeDef}
      {identifier : Identifier}
      (leads : Leads config schema document tokens (.address element value))
      (known : type ∈ schema.types) (declared : type.identifier? = some identifier)
      (addresses : identifier.target = element)
      (refused : ∀ s, value = .string s → identifier.rule.accepts s = false) :
      Grounds config schema document .mismatchingTypes (.illegalIdentifier type.name) tokens
  | notAnAddress {tokens : List String} {element : TypeId} {value : Json}
      (leads : Leads config schema document tokens (.address element value))
      (unaddressed : ∀ type ∈ schema.types, ¬type.Addresses element)
      (other : ∀ s, value ≠ .string s) :
      Grounds config schema document .mismatchingTypes
        (.notAnIdentifier (schema.typeAt element).name value) tokens

/-- The violation has grounds at its own path. -/
def Grounded (config : Config) (schema : Schema) (document : Json) (violation : Violation) : Prop :=
  ∃ tokens, violation.path = Path.root.extendAll tokens ∧
    Grounds config schema document violation.fault.kind violation.fault tokens

section Grounding
variable {config : Config} {schema : Schema} {document value : Json} {tokens : List String}
  {fault : Fault} {violation : Violation}

theorem Grounds.here (h : Grounds config schema document fault.kind fault tokens) :
    Grounded config schema document ⟨Path.root.extendAll tokens, fault⟩ := ⟨tokens, rfl, h⟩

theorem Grounds.below {token : String}
    (h : Grounds config schema document fault.kind fault (tokens ++ [token])) :
    Grounded config schema document ⟨(Path.root.extendAll tokens).extend token, fault⟩ :=
  ⟨_, (Path.extendAll_append_one _ _ _).symm, h⟩

theorem grounds_plainFault? {id : TypeId}
    (leads : Leads config schema document tokens (.literal id value))
    (hu : (schema.typeAt id).kind ≠ .union)
    (hs : (schema.typeAt id).kind = .struct → ∀ fields, value ≠ .object fields)
    (h : Literal.plainFault? (schema.typeAt id) value = some fault) :
    Grounds config schema document fault.kind fault tokens := by
  have untyped : ¬HasType schema id value := by
    rw [← Literal.plainFault?_eq_none_iff hu hs, h]
    nofun
  unfold Literal.plainFault? at h
  cases hshape : (schema.typeAt id).shape with
  | primitive | scalar | enumeration =>
    simp only [hshape] at h
    split at h
    · cases h
    · cases h
      exact .illegalValue leads (by simp [TypeDef.kind, hshape, Shape.kind]) untyped
  | entityId identifier =>
    simp only [hshape, Literal.identifierFault?] at h
    split at h
    · cases h
    · cases h
      exact .illegalIdentifier leads (by simp [TypeDef.kind, hshape, Shape.kind]) untyped
  | record role properties =>
    cases role with
    | struct =>
      have hk : (schema.typeAt id).kind = .struct := by
        simp [TypeDef.kind, hshape, Shape.kind, Role.kind]
      simp only [hshape] at h
      cases h
      exact .notAStruct leads hk (hs hk)
    | root | entity =>
      simp only [hshape] at h
      cases h
      exact .notALiteral leads (by simp [TypeDef.kind, hshape, Shape.kind, Role.kind])
  | union members => exact absurd (kind_eq_union_iff.mpr ⟨members, hshape⟩) hu
  | trait =>
    simp only [hshape] at h
    cases h
    exact .notALiteral leads (by simp [TypeDef.kind, hshape, Shape.kind])

def GroundedLiteral (config : Config) (schema : Schema) (document value : Json) : Prop :=
  ∀ tokens id violation, Leads config schema document tokens (.literal id value) →
    Literal.violation? schema (Path.root.extendAll tokens) (schema.typeAt id) value =
      some violation → Grounded config schema document violation

def GroundedArgument (config : Config) (schema : Schema) (document value : Json) : Prop :=
  ∀ tokens argument violation, Leads config schema document tokens (.argument argument value) →
    Literal.argumentViolation? schema argument (Path.root.extendAll tokens) value =
      some violation → Grounded config schema document violation

theorem groundedArgument_of (hvalue : GroundedLiteral config schema document value)
    (hitems : ∀ items, value = .array items → ∀ item ∈ items,
      GroundedLiteral config schema document item) :
    GroundedArgument config schema document value := by
  intro tokens argument violation leads h
  obtain ⟨rfl, required, rfl⟩ | ⟨list, present, other, rfl⟩ | ⟨list, present, h⟩ |
    ⟨list, ⟨items, rfl⟩, h⟩ := Literal.of_declared h
  · exact (Grounds.nullForRequired leads required).here
  · exact (Grounds.notAList leads list present other).here
  · exact hvalue tokens argument.type violation (.single leads list present) h
  · rw [Literal.listViolation?, Literal.itemViolation?_eq_findSome?] at h
    obtain ⟨i, item, hi, h⟩ := Literal.exists_of_findSome?_zipIdx h
    rw [← Path.extendAll_append_one] at h
    have hitem := hitems items rfl item (List.mem_of_getElem? hi)
    exact hitem _ _ violation (.item leads list hi) h

theorem groundedLiteral_of (hcheck : Checkable config schema)
    {check : Path → TypeDef → Option Violation}
    (hthrough : ∀ path type, Literal.violation? schema path type value =
      Literal.throughUnions schema path type value (check path))
    (hleaf : ∀ tokens id, Leads config schema document tokens (.literal id value) →
      (schema.typeAt id).kind ≠ .union → ∀ violation,
      check (Path.root.extendAll tokens) (schema.typeAt id) = some violation →
        Grounded config schema document violation) :
    GroundedLiteral config schema document value := by
  intro tokens id violation leads h
  obtain ⟨hc, hid⟩ : config.checkLiterals = true ∧ id < schema.size := leads.known hcheck
  -- a union hides why its members refuse, so the typing itself is the ground
  have untyped : ¬HasType schema id value := by
    rw [← Literal.violation?_eq_none_iff_hasType hcheck.linked (hcheck.acyclic hc) hid, h]
    nofun
  rw [hthrough] at h
  obtain ⟨hu, rfl⟩ | ⟨hu, h⟩ := Literal.of_throughUnions h
  · exact (Grounds.illegalValue leads (by simp [hu]) untyped).here
  · exact hleaf tokens id leads hu violation h

theorem groundedLiteral_of_not_object (hcheck : Checkable config schema)
    (hv : ∀ fields, value ≠ .object fields) : GroundedLiteral config schema document value := by
  refine groundedLiteral_of hcheck (Literal.violation?_of_not_object hv) ?_
  intro tokens id leads hu violation h
  obtain ⟨fault, hf, rfl⟩ := Option.map_eq_some_iff.mp h
  exact (grounds_plainFault? leads hu (fun _ => hv) hf).here

theorem grounded_fieldCheck {id : TypeId} {fields : List (String × Json)}
    (leads : Leads config schema document tokens (.literal id (.object fields)))
    (struct : (schema.typeAt id).kind = .struct) {name : String} (hm : (name, value) ∈ fields)
    (hvalue : GroundedArgument config schema document value)
    (h : Literal.fieldCheck schema (Path.root.extendAll tokens) (schema.typeAt id) (name, value) =
      some violation) : Grounded config schema document violation := by
  unfold Literal.fieldCheck at h
  cases hp : (schema.typeAt id).property? name with
  | none =>
    simp only [hp, Option.some.injEq] at h
    subst h
    exact (Grounds.undefinedField leads struct hm hp).below
  | some property =>
    simp only [hp, ← Path.extendAll_append_one] at h
    exact hvalue _ _ violation (.field leads struct hm hp) h

theorem groundedLiteral_object (hcheck : Checkable config schema) {fields : List (String × Json)}
    (hfields : ∀ name value, (name, value) ∈ fields →
      GroundedArgument config schema document value) :
    GroundedLiteral config schema document (.object fields) := by
  have hthrough := fun path type => @Literal.violation?_object schema path type fields
  refine groundedLiteral_of hcheck hthrough ?_
  intro tokens id leads hu violation h
  by_cases hk : (schema.typeAt id).kind = .struct
  · rw [Literal.objectCheck_struct hk, Literal.fieldViolation?_eq_findSome?] at h
    obtain ⟨⟨name, value⟩, hm, h⟩ := List.exists_of_findSome?_eq_some h
    exact grounded_fieldCheck leads hk hm (hfields name value hm) h
  · rw [Literal.objectCheck_of_ne hk] at h
    obtain ⟨fault, hf, rfl⟩ := Option.map_eq_some_iff.mp h
    exact (grounds_plainFault? leads hu (fun h => absurd h hk) hf).here

theorem grounded_literal_and_argument (hcheck : Checkable config schema) (document value : Json) :
    GroundedLiteral config schema document value ∧ GroundedArgument config schema document value := by
  induction value using Json.induction with
  | null | bool | number | string =>
    exact ⟨groundedLiteral_of_not_object hcheck nofun,
      groundedArgument_of (groundedLiteral_of_not_object hcheck nofun) nofun⟩
  | array items ih =>
    have h : GroundedLiteral config schema document (.array items) :=
      groundedLiteral_of_not_object hcheck nofun
    refine ⟨h, groundedArgument_of h ?_⟩
    intro list heq item hm
    cases heq
    exact (ih item hm).1
  | object fields ih =>
    have h := groundedLiteral_object hcheck fun name value hm => (ih name value hm).2
    exact ⟨h, groundedArgument_of h nofun⟩

section Arguments
variable {property : Property} {fields : List (String × Json)}

theorem grounded_argumentsViolation? (hcheck : Checkable config schema)
    (leads : Leads config schema document tokens (.node (.property property) (.object fields)))
    (arguments : fields.lookup "args" = some value)
    (h : Walk.argumentsViolation? config schema property (Path.root.extendAll tokens) value =
      some violation) : Grounded config schema document violation := by
  unfold Walk.argumentsViolation? at h
  split at h
  next entries =>
    obtain ⟨⟨name, value⟩, hm, h⟩ := List.exists_of_findSome?_eq_some h
    cases hp : property.arguments.get? name with
    | none =>
      simp only [hp, Option.some.injEq] at h
      subst h
      exact (Grounds.undefinedArgument leads arguments hm hp).below
    | some argument =>
      simp only [hp, ← Path.extendAll_append_one] at h
      split at h
      next hc =>
        have hvalue := (grounded_literal_and_argument hcheck document value).2
        exact hvalue _ _ violation (.argument leads hc arguments hm hp) h
      next => cases h
  next hv =>
    cases h
    exact (Grounds.arguments leads arguments hv).here

theorem grounds_cursorFault? {element : TypeId}
    (leads : Leads config schema document tokens (.address element value))
    (h : Paging.cursorFault? (schema.typeAt element) (schema.identifierFor? element) value =
      some fault) : Grounds config schema document fault.kind fault tokens := by
  obtain ⟨type, known, identifier, declared, addresses, refused, rfl⟩ | ⟨unaddressed, other, rfl⟩ :=
    Paging.of_cursorFault? h
  · exact .illegalAddress leads known declared addresses refused
  · exact .notAnAddress leads unaddressed other

theorem grounded_pagingValue {element : TypeId} {key : String}
    (leads : Leads config schema document tokens (.paging element key value))
    (hk : key = Paging.ids ∨ key = Paging.after ∨ key = Paging.limit)
    (h : Paging.valueViolation? (Path.root.extendAll tokens) (schema.typeAt element)
      (schema.identifierFor? element) key value = some violation) :
    Grounded config schema document violation := by
  obtain ⟨rfl, hlimit, rfl⟩ | ⟨rfl, other, rfl⟩ | ⟨rfl, items, i, item, fault, rfl, hi, hf, rfl⟩ |
    ⟨rfl, fault, hf, rfl⟩ := Paging.of_valueViolation? hk h
  · refine (Grounds.invalidPageLimit leads fun hvalue => ?_).here
    rcases Paging.hasValue_iff.mp hvalue with ⟨_, hok⟩ | ⟨hkey, _⟩ | ⟨hkey, _⟩
    · rw [hok] at hlimit
      cases hlimit
    · exact absurd hkey.symm Paging.ids_ne_limit
    · exact absurd hkey.symm Paging.after_ne_limit
  · exact (Grounds.notAnIdentifierList leads other).here
  · exact (grounds_cursorFault? (.ids leads hi) hf).below
  · exact (grounds_cursorFault? (.after leads) hf).here

theorem grounded_integrity {entries : List (String × Json)}
    (leads : Leads config schema document tokens (.node (.property property) (.object fields)))
    (arguments : fields.lookup "listArgs" = some (.object entries))
    (h : Paging.integrityViolation? (Path.root.extendAll tokens) entries = some violation) :
    Grounded config schema document violation := by
  obtain ⟨key, value, hm, unknown, rfl⟩ | ⟨given, rfl⟩ | ⟨given, rfl⟩ | ⟨ids, page, rfl⟩ :=
    Paging.of_integrityViolation? h
  · exact (Grounds.unknownListArgument leads arguments hm unknown).below
  · exact (Grounds.missingListArguments leads arguments given).here
  · exact (Grounds.missingPageLimit leads arguments given).here
  · exact (Grounds.mixedListArguments leads arguments ids page).here

theorem grounded_pagingViolation?
    (leads : Leads config schema document tokens (.node (.property property) (.object fields)))
    (arguments : fields.lookup "listArgs" = some value)
    (h : Walk.pagingViolation? config schema property (Path.root.extendAll tokens) value =
      some violation) : Grounded config schema document violation := by
  unfold Walk.pagingViolation? at h
  split at h
  next entries =>
    rcases (Option.orElse_eq_some _ _ _).mp h with h | ⟨hi, h⟩
    · exact grounded_integrity leads arguments h
    · have hchosen := Paging.integrityViolation?_eq_none_iff.mp hi
      split at h
      next hc =>
        obtain ⟨⟨key, value⟩, hm, h⟩ := List.exists_of_findSome?_eq_some h
        obtain ⟨hm, hp⟩ := List.mem_filter.mp hm
        simp only [← Path.extendAll_append_one] at h
        have present := Paging.isPresent_iff.mp hp
        have hk := hchosen.1 key value hm
        exact grounded_pagingValue (.paging leads hc arguments hm present) hk h
      next => cases h
  next hv =>
    cases h
    exact (Grounds.pagingArguments leads arguments hv).here

theorem grounded_ownViolation? (hcheck : Checkable config schema) {site : Site}
    (leads : Leads config schema document tokens (.node site (.object fields)))
    (h : Walk.ownViolation? config schema (Path.root.extendAll tokens) fields site =
      some violation) : Grounded config schema document violation := by
  cases site with
  | branch member => cases h
  | property property =>
    rcases (Option.orElse_eq_some _ _ _).mp h with h | ⟨_, h⟩
    · obtain ⟨value, hv, h⟩ := Option.bind_eq_some_iff.mp h
      exact grounded_pagingViolation? leads hv h
    · obtain ⟨value, hv, h⟩ := Option.bind_eq_some_iff.mp h
      exact grounded_argumentsViolation? hcheck leads hv h

end Arguments

theorem grounds_undeclared (hcheck : Checkable config schema) {site : Site} {fields entries : List (String × Json)}
    {descent : Descent} {name : String}
    (leads : Leads config schema document tokens (.node site (.object fields)))
    (names : fields.lookup descent.key = some (.object entries)) (hm : (name, value) ∈ entries)
    (hs : descent.site? schema (site.target schema) name = none) :
    Grounds config schema document (descent.undeclaredFault name).kind
      (descent.undeclaredFault name) (tokens ++ [name]) := by
  cases descent with
  | accept =>
    refine .undefinedType leads names hm fun member hmember hname => ?_
    have ht := Site.Known.target_mem (leads.known hcheck)
    have hfound := (unionMember?_eq_some_iff hcheck.linked hcheck.distinct ht).mpr ⟨hmember, hname⟩
    simp [Descent.site?, hfound] at hs
  | select =>
    refine .undefinedSelection leads names hm ?_
    simpa [Descent.site?] using hs

theorem grounds_noNames {site : Site} {fields : List (String × Json)} {descent : Descent}
    (leads : Leads config schema document tokens (.node site (.object fields)))
    (names : fields.lookup descent.key = some (.object [])) :
    Grounds config schema document descent.emptyFault.kind descent.emptyFault tokens := by
  cases descent with
  | accept | select => exact .noNames leads names

theorem grounded_node_and_names (hcheck : Checkable config schema) (value : Json) :
    (∀ tokens site violation, Leads config schema document tokens (.node site value) →
      .violation violation ∈ Walk.node config schema site (Path.root.extendAll tokens) value →
      Grounded config schema document violation) ∧
    (∀ tokens site fields descent violation,
      Leads config schema document tokens (.node site (.object fields)) →
      fields.lookup (Descent.key descent) = some value →
      .violation violation ∈ Walk.names config schema descent (site.target schema)
        (Path.root.extendAll tokens) value →
      Grounded config schema document violation) := by
  -- names lead to values of entries, and their nodes to values of those: one induction has both
  induction value using Json.induction with
  | null | bool | number | string | array =>
    refine ⟨fun tokens site violation leads h => ?_,
      fun tokens site fields descent violation leads names h => ?_⟩
    · rw [Walk.node_of_not_object (by nofun), List.mem_singleton] at h
      cases h
      exact (Grounds.node leads nofun).here
    · rw [Walk.names_of_not_object (by nofun), List.mem_singleton] at h
      cases h
      exact (Grounds.names leads names nofun).here
  | object entries ih =>
    refine ⟨fun tokens site violation leads h => ?_,
      fun tokens site fields descent violation leads names h => ?_⟩
    · obtain ⟨key, hkey, rfl⟩ | ⟨_, h | ⟨descent, value, names, h⟩⟩ := Walk.violation_mem_node.mp h
      · obtain ⟨⟨value, hm⟩, hno⟩ := Walk.of_unexpectedKey? hkey
        refine (Grounds.unexpectedAttribute leads hm fun happlies => ?_).below
        rw [allows_iff_applies.mpr happlies] at hno
        cases hno
      · exact grounded_ownViolation? hcheck leads h
      · have hbelow := (ih _ value (mem_of_lookup names)).2
        exact hbelow tokens site entries descent violation leads names h
    · have ht := Site.Known.target_mem (leads.known hcheck)
      obtain ⟨rfl, rfl⟩ | ⟨name, hname, rfl⟩ | ⟨_, _, name, value, next, hm, hs, h⟩ :=
        Walk.violation_mem_names.mp h
      · exact (grounds_noNames leads names).here
      · obtain ⟨⟨value, hm⟩, hs⟩ := Walk.of_undeclaredName? hname
        exact (grounds_undeclared hcheck leads names hm hs).below
      · rw [← Path.extendAll_append_one] at h
        have hnext := (site?_eq_some_iff hcheck.linked hcheck.distinct ht).mp hs
        exact (ih name value hm).1 _ next violation (.name leads names hm hnext) h

theorem grounded_entry (hcheck : Checkable config schema)
    {fields : List (String × Json)} (top : document = .object fields) {key : String}
    (hm : (key, value) ∈ fields)
    (h : .violation violation ∈ Walk.entry config schema key value) :
    Grounded config schema document violation := by
  obtain ⟨name, property, label, hr, he⟩ | ⟨hroot, halias, he⟩ | ⟨selector, hroot, halias, hp, he⟩ :=
    entry_cases config schema key value
  · rw [he, Walk.violation_mem_request] at h
    exact (grounded_node_and_names hcheck value).1 [name] _ violation (.request top hm hr) h
  · rw [he, List.mem_singleton] at h
    cases h
    have unaliased : config.allowAliases = false ∨ Selector.parseAliased? key = none := by
      simpa [Walk.aliased?, or_iff_not_imp_left] using halias
    exact ⟨[key], rfl, .selector top hm hroot unaliased⟩
  · rw [he, List.mem_singleton] at h
    cases h
    obtain ⟨allowed, written⟩ := aliased?_eq_some_iff.mp halias
    exact ⟨[selector.property], rfl, .aliasedProperty top hm hroot allowed written hp⟩

theorem grounded_document (hcheck : Checkable config schema)
    (h : .violation violation ∈ Walk.document config schema document) :
    Grounded config schema document violation := by
  cases document with
  | object fields =>
    obtain ⟨key, value, hm, h⟩ := Walk.violation_mem_document.mp h
    exact grounded_entry hcheck rfl hm h
  | null | bool | number | string | array =>
    rw [Walk.document_of_not_object (by nofun), List.mem_singleton] at h
    cases h
    exact ⟨[], rfl, .document nofun⟩

end Grounding

/-- Every rejection is justified at the place that it names. -/
theorem validate_rejection_grounded {steps : List Step} {schema : Schema}
    (h : build steps = .ok schema) {config : Config}
    (hac : config.checkLiterals = true → schema.UnionAcyclic) {document : Json}
    {error : ValidationError} (hv : validate config schema document = .error error) :
    ∃ fault tokens, Grounds config schema document error.kind fault tokens ∧
      error.path = ".".intercalate ("root" :: tokens) ∧ error.detail = fault.detail := by
  obtain ⟨violation, hm, rfl⟩ := violation_of_validate hv
  obtain ⟨tokens, hpath, hg⟩ := grounded_document (checkable_of_build h hac) hm
  refine ⟨violation.fault, tokens, hg, ?_, rfl⟩
  have htokens : violation.path.tokens = "root" :: tokens := by
    rw [hpath, Path.tokens_extendAll]
    rfl
  calc violation.error.path = ".".intercalate violation.path.tokens := rfl
    _ = ".".intercalate ("root" :: tokens) := by rw [htokens]

def strayIdentifier : Json :=
  .object [("users = @all", .object [("select", .object [("name", .object [("args", .object
    [("exampleArg1", .array [.string "0123456789abcdef0123456789ABCDEF", .string "42"])])])])])]

theorem strayIdentifier_grounded :
    build UserGraph.steps = .ok userGraph ∧ userGraph.UnionAcyclic ∧
      validate {} userGraph strayIdentifier = .error
        ⟨.mismatchingTypes, "root.users.name.exampleArg1.1", "illegal value for ID<User>"⟩ ∧
      ∃ fault tokens, Grounds {} userGraph strayIdentifier .mismatchingTypes fault tokens ∧
        "root.users.name.exampleArg1.1" = ".".intercalate ("root" :: tokens) ∧
        "illegal value for ID<User>" = fault.detail := by
  have h : validate {} userGraph strayIdentifier = .error
      ⟨.mismatchingTypes, "root.users.name.exampleArg1.1", "illegal value for ID<User>"⟩ := by
    decide +kernel
  exact ⟨rfl, userGraph_unionAcyclic, h,
    validate_rejection_grounded (rfl : build UserGraph.steps = .ok userGraph)
      (fun _ => userGraph_unionAcyclic) h⟩

end SelectionQuery
