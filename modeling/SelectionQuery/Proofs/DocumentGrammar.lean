import SelectionQuery.Proofs.PagingGrammar
import SelectionQuery.Proofs.WalkEvents
import SelectionQuery.Schema.UserGraph

/-! # The grammar of documents

A document conforms to a schema by rules that speak of the keys present and of the values under
them, and of no order. The walk recurses through nodes and names; it meets no violation exactly
when the document conforms, whatever circles the schema has.
-/
namespace SelectionQuery
open Schema

/-- The keys that a node may have at a site. -/
inductive Applies (schema : Schema) : Site → String → Prop
  | args (property : Property) : Applies schema (.property property) "args"
  | listArgs {property : Property} (list : property.list = true) :
      Applies schema (.property property) "listArgs"
  | select {site : Site} (properties : (site.target schema).properties.entries ≠ []) :
      Applies schema site "select"
  | accept {site : Site} (members : (site.target schema).members ≠ []) :
      Applies schema site "accept"

/-- A name leads to a member of that name under `accept`, and to a property under `select`. -/
inductive Descent.LeadsTo (schema : Schema) (type : TypeDef) : Descent → String → Site → Prop
  | member {id : TypeId} (member : id ∈ type.members) :
      LeadsTo schema type .accept (schema.typeAt id).name (.branch id)
  | property {name : String} {property : Property} (declared : type.property? name = some property) :
      LeadsTo schema type .select name (.property property)

/-- The paging arguments of a property. -/
def PagingConforms (config : Config) (schema : Schema) (property : Property) (value : Json) : Prop :=
  ∃ fields, value = .object fields ∧ Paging.Chosen fields ∧
    (config.checkLiterals = true → ∀ key value, (key, value) ∈ fields → value ≠ .null →
      Paging.HasValue schema property.target key value)

/-- The arguments of a property. An argument may be missing whether or not it is optional. -/
def ArgumentsConform (config : Config) (schema : Schema) (property : Property) (value : Json) :
    Prop :=
  ∃ fields, value = .object fields ∧
    ∀ name value, (name, value) ∈ fields → ∃ argument, property.arguments.get? name = some argument ∧
      (config.checkLiterals = true → Fits schema argument value)

mutual
/-- A node at a property or at a member of a union. -/
inductive NodeConforms (config : Config) (schema : Schema) : Site → Json → Prop
  | node {site : Site} {fields : List (String × Json)}
      (applicable : ∀ key value, (key, value) ∈ fields → Applies schema site key)
      (paging : ∀ property, site = .property property → ∀ value,
        fields.lookup "listArgs" = some value → PagingConforms config schema property value)
      (arguments : ∀ property, site = .property property → ∀ value,
        fields.lookup "args" = some value → ArgumentsConform config schema property value)
      (names : ∀ descent value, fields.lookup (Descent.key descent) = some value →
        NamesConform config schema descent (site.target schema) value) :
      NodeConforms config schema site (.object fields)

/-- At least one name, each with a node for what it leads to. -/
inductive NamesConform (config : Config) (schema : Schema) : Descent → TypeDef → Json → Prop
  | names {descent : Descent} {type : TypeDef} {fields : List (String × Json)}
      (inhabited : fields ≠ [])
      (declared : ∀ name value, (name, value) ∈ fields →
        ∃ site, descent.LeadsTo schema type name site)
      (nodes : ∀ name value site, (name, value) ∈ fields →
        descent.LeadsTo schema type name site → NodeConforms config schema site value) :
      NamesConform config schema descent type (.object fields)
end

/-- A top-level key requests a root property under the property's own name or, where the key is no
root property, by an aliased selector. -/
inductive Requests (config : Config) (schema : Schema) : String → String → Property → Prop
  | named {key : String} {property : Property}
      (declared : schema.rootProperty? key = some property) : Requests config schema key key property
  | aliased {key : String} {selector : Selector.Aliased} {property : Property}
      (allowed : config.allowAliases = true) (unnamed : schema.rootProperty? key = none)
      (written : Selector.parseAliased? key = some selector)
      (declared : schema.rootProperty? selector.property = some property) :
      Requests config schema key selector.property property

/-- An object whose entries all conform. -/
def DocumentConforms (config : Config) (schema : Schema) (document : Json) : Prop :=
  ∃ fields, document = .object fields ∧
    ∀ key value, (key, value) ∈ fields → ∃ name property, Requests config schema key name property ∧
      NodeConforms config schema (.property property) value

/-- What the checks of a document rely on. Circles of unions matter only to literals. -/
structure Checkable (config : Config) (schema : Schema) : Prop where
  linked : Linked schema.types
  distinct : (schema.types.map TypeDef.name).Nodup
  rooted : 0 < schema.size
  acyclic : config.checkLiterals = true → schema.UnionAcyclic

theorem checkable_of_build {steps : List Step} {schema : Schema} (h : build steps = .ok schema)
    {config : Config} (hac : config.checkLiterals = true → schema.UnionAcyclic) :
    Checkable config schema :=
  ⟨linked_of_build h, nodup_names_of_build h, size_pos_of_build h, hac⟩

variable {config : Config} {schema : Schema} {site : Site} {type : TypeDef} {path : Path}
  {value : Json} {fields : List (String × Json)}

theorem allows_iff_applies {key : String} :
    (site.attributes schema).allows key = true ↔ Applies schema site key := by
  rw [AttributeSet.allows_iff]
  constructor
  · rintro ⟨found, rfl, h⟩
    cases site with
    | property property =>
      cases found with
      | args => exact .args property
      | listArgs => exact .listArgs h
      | select => exact .select (TypeDef.isSelectable_iff.mp h)
      | accept => exact .accept (TypeDef.isUnion_iff.mp h)
    | branch member =>
      cases found with
      | args | listArgs => cases h
      | select => exact .select (TypeDef.isSelectable_iff.mp h)
      | accept => exact .accept (TypeDef.isUnion_iff.mp h)
  · intro h
    cases h with
    | args property => exact ⟨.args, rfl, rfl⟩
    | listArgs list => exact ⟨.listArgs, rfl, list⟩
    | select properties =>
      refine ⟨.select, rfl, ?_⟩
      cases site <;> exact TypeDef.isSelectable_iff.mpr properties
    | accept members =>
      refine ⟨.accept, rfl, ?_⟩
      cases site <;> exact TypeDef.isUnion_iff.mpr members

/-- All handles at the site are in the table. -/
def Site.Known (schema : Schema) : Site → Prop
  | .property declaration => declaration.target < schema.size ∧
      ∀ name argument, declaration.arguments.get? name = some argument →
        argument.type < schema.size
  | .branch member => member < schema.size

theorem Site.Known.target_mem (h : site.Known schema) : site.target schema ∈ schema.types := by
  cases site with
  | property property => exact typeAt_mem h.1
  | branch member => exact typeAt_mem h

theorem known_property (hl : Linked schema.types) (ht : type ∈ schema.types) {name : String}
    {property : Property} (h : type.property? name = some property) :
    (Site.property property).Known schema := by
  refine ⟨?_, fun key argument ha => ?_⟩
  · have href : property.target ∈ type.references :=
      mem_references_iff.mpr (.inl ⟨name, property, h, .inl rfl⟩)
    exact hl.known type ht _ href
  · have href : argument.type ∈ type.references :=
      mem_references_iff.mpr (.inl ⟨name, property, h, .inr ⟨key, argument, ha, rfl⟩⟩)
    exact hl.known type ht _ href

theorem known_of_leadsTo (hl : Linked schema.types) (ht : type ∈ schema.types) {descent : Descent}
    {name : String} (h : descent.LeadsTo schema type name site) : site.Known schema := by
  cases h with
  | member member => exact hl.known type ht _ (mem_references_iff.mpr (.inr (.inl member)))
  | property declared => exact known_property hl ht declared

theorem site?_eq_some_iff (hl : Linked schema.types) (hd : (schema.types.map TypeDef.name).Nodup)
    (ht : type ∈ schema.types) {descent : Descent} {name : String} :
    descent.site? schema type name = some site ↔ descent.LeadsTo schema type name site := by
  cases descent with
  | accept =>
    simp only [Descent.site?, Option.map_eq_some_iff, unionMember?_eq_some_iff hl hd ht]
    constructor
    · rintro ⟨id, ⟨hm, rfl⟩, rfl⟩
      exact .member hm
    · intro h
      cases h with
      | member hm => exact ⟨_, ⟨hm, rfl⟩, rfl⟩
  | select =>
    simp only [Descent.site?, Option.map_eq_some_iff]
    constructor
    · rintro ⟨property, hp, rfl⟩
      exact .property hp
    · intro h
      cases h with
      | property declared => exact ⟨_, declared, rfl⟩

section Arguments
variable {property : Property}

theorem pagingViolation?_eq_none_iff (hl : Linked schema.types) :
    Walk.pagingViolation? config schema property path value = none ↔
      PagingConforms config schema property value := by
  unfold Walk.pagingViolation? PagingConforms
  cases value with
  | object fields =>
    simp only [Option.orElse_eq_none, Paging.integrityViolation?_eq_none_iff,
      Json.object.injEq, exists_eq_left']
    refine and_congr_right fun hchosen => ?_
    by_cases hc : config.checkLiterals = true
    · simp only [hc, if_true, forall_const]
      exact Paging.valuesViolation?_eq_none_iff hl hchosen
    · simp [hc]
  | null | bool | number | string | array => simp

theorem argumentsViolation?_eq_none_iff (hcheck : Checkable config schema)
    (hk : (Site.property property).Known schema) :
    Walk.argumentsViolation? config schema property path value = none ↔
      ArgumentsConform config schema property value := by
  unfold Walk.argumentsViolation? ArgumentsConform
  cases value with
  | object fields =>
    simp only [List.findSome?_eq_none_iff, Prod.forall, Json.object.injEq, exists_eq_left']
    refine forall_congr' fun name => forall_congr' fun value => imp_congr_right fun _ => ?_
    cases ha : property.arguments.get? name with
    | none => simp
    | some argument =>
      by_cases hc : config.checkLiterals = true
      · have hfits := Literal.argumentViolation?_eq_none_iff_fits hcheck.linked (hcheck.acyclic hc)
          (hk.2 name argument ha) (path.extend name) value
        simpa [hc] using hfits
      · simp [hc]
  | null | bool | number | string | array => simp

theorem ownViolation?_eq_none_iff (hcheck : Checkable config schema) (hk : site.Known schema) :
    Walk.ownViolation? config schema path fields site = none ↔
      (∀ property, site = .property property → ∀ value, fields.lookup "listArgs" = some value →
        PagingConforms config schema property value) ∧
      (∀ property, site = .property property → ∀ value, fields.lookup "args" = some value →
        ArgumentsConform config schema property value) := by
  cases site with
  | property property =>
    simp [Walk.ownViolation?, Attribute.key, pagingViolation?_eq_none_iff hcheck.linked,
      argumentsViolation?_eq_none_iff hcheck hk]
  | branch member => simp [Walk.ownViolation?]

end Arguments

theorem clean_node_iff_conforms (hcheck : Checkable config schema) (hk : site.Known schema)
    (hnames : ∀ key value, (key, value) ∈ fields → ∀ descent,
      (Walk.Clean (Walk.names config schema descent (site.target schema) path value) ↔
        NamesConform config schema descent (site.target schema) value)) :
    Walk.Clean (Walk.node config schema site path (.object fields)) ↔
      NodeConforms config schema site (.object fields) := by
  rw [Walk.clean_node, Walk.unexpectedKey?_eq_none_iff, ownViolation?_eq_none_iff hcheck hk]
  simp only [allows_iff_applies]
  constructor
  · rintro ⟨applicable, ⟨paging, arguments⟩, hbelow⟩
    refine .node applicable paging arguments fun descent value hv => ?_
    have hclean := hbelow descent value hv
    exact (hnames _ value (mem_of_lookup hv) descent).mp hclean
  · rintro ⟨applicable, paging, arguments, names⟩
    refine ⟨applicable, ⟨paging, arguments⟩, fun descent value hv => ?_⟩
    have hconforms := names descent value hv
    exact (hnames _ value (mem_of_lookup hv) descent).mpr hconforms

theorem clean_names_iff_conforms (hcheck : Checkable config schema) (ht : type ∈ schema.types)
    {descent : Descent}
    (hnodes : ∀ name value, (name, value) ∈ fields → ∀ site : Site, site.Known schema →
      (Walk.Clean (Walk.node config schema site (path.extend name) value) ↔
        NodeConforms config schema site value)) :
    Walk.Clean (Walk.names config schema descent type path (.object fields)) ↔
      NamesConform config schema descent type (.object fields) := by
  rw [Walk.clean_names, Walk.undeclaredName?_eq_none_iff]
  simp only [site?_eq_some_iff hcheck.linked hcheck.distinct ht]
  constructor
  · rintro ⟨inhabited, declared, hbelow⟩
    refine .names inhabited declared fun name value site hm hs => ?_
    have hk := known_of_leadsTo hcheck.linked ht hs
    have hclean := hbelow name value site hm hs
    exact (hnodes name value hm site hk).mp hclean
  · rintro ⟨inhabited, declared, nodes⟩
    refine ⟨inhabited, declared, fun name value site hm hs => ?_⟩
    have hk := known_of_leadsTo hcheck.linked ht hs
    have hconforms := nodes name value site hm hs
    exact (hnodes name value hm site hk).mpr hconforms

theorem clean_iff_conforms (hcheck : Checkable config schema) (value : Json) :
    (∀ site path, site.Known schema →
      (Walk.Clean (Walk.node config schema site path value) ↔ NodeConforms config schema site value)) ∧
    (∀ descent type path, type ∈ schema.types →
      (Walk.Clean (Walk.names config schema descent type path value) ↔
        NamesConform config schema descent type value)) := by
  -- the value recurses and the schema does not, so both halves are kept for all sites and types
  induction value using Json.induction with
  | null | bool | number | string | array =>
    refine ⟨fun site path _ => ?_, fun descent type path _ => ?_⟩
    · exact iff_of_false (Walk.not_clean_node nofun) nofun
    · exact iff_of_false (Walk.not_clean_names nofun) nofun
  | object fields ih =>
    refine ⟨fun site path hk => ?_, fun descent type path ht => ?_⟩
    · refine clean_node_iff_conforms hcheck hk fun key value hm descent => ?_
      exact (ih key value hm).2 descent _ path hk.target_mem
    · refine clean_names_iff_conforms hcheck ht fun name value hm site hk => ?_
      exact (ih name value hm).1 site _ hk

theorem aliased?_eq_some_iff {key : String} {selector : Selector.Aliased} :
    Walk.aliased? config key = some selector ↔
      config.allowAliases = true ∧ Selector.parseAliased? key = some selector := by
  unfold Walk.aliased?
  split <;> simp_all

/-- What a top-level entry can be: a request, or a key that requests nothing. -/
theorem entry_cases (config : Config) (schema : Schema) (key : String) (value : Json) :
    (∃ name property label, Requests config schema key name property ∧
      Walk.entry config schema key value =
        Walk.request config schema property name label value) ∨
    (schema.rootProperty? key = none ∧ Walk.aliased? config key = none ∧
      Walk.entry config schema key value =
        [.violation ⟨Path.root.extend key, .invalidSelector key⟩]) ∨
    (∃ selector, schema.rootProperty? key = none ∧ Walk.aliased? config key = some selector ∧
      schema.rootProperty? selector.property = none ∧
      Walk.entry config schema key value =
        [.violation ⟨Path.root.extend selector.property, .undefinedRootProperty key⟩]) := by
  unfold Walk.entry
  cases hroot : schema.rootProperty? key with
  | some property => exact .inl ⟨key, property, none, .named hroot, rfl⟩
  | none =>
    cases halias : Walk.aliased? config key with
    | none => exact .inr (.inl ⟨rfl, rfl, rfl⟩)
    | some selector =>
      cases hp : schema.rootProperty? selector.property with
      | none => exact .inr (.inr ⟨selector, rfl, rfl, hp, by simp [hp]⟩)
      | some property =>
        obtain ⟨allowed, written⟩ := aliased?_eq_some_iff.mp halias
        refine .inl ⟨selector.property, property, selector.label, ?_, by simp [hp]⟩
        exact .aliased allowed hroot written hp

theorem Requests.unique {key name name' : String} {property property' : Property}
    (h : Requests config schema key name property) (h' : Requests config schema key name' property') :
    name = name' ∧ property = property' := by
  cases h <;> cases h' <;> simp_all

theorem not_requests {key : String} (hroot : schema.rootProperty? key = none)
    (halias : ∀ selector, Walk.aliased? config key = some selector →
      schema.rootProperty? selector.property = none) (name : String) (property : Property) :
    ¬Requests config schema key name property := by
  intro h
  cases h with
  | named declared =>
    rw [hroot] at declared
    cases declared
  | aliased allowed _ written declared =>
    rw [halias _ (aliased?_eq_some_iff.mpr ⟨allowed, written⟩)] at declared
    cases declared

theorem Requests.known (hcheck : Checkable config schema) {key name : String}
    {property : Property} (h : Requests config schema key name property) :
    (Site.property property).Known schema := by
  have hroot : schema.root ∈ schema.types := typeAt_mem hcheck.rooted
  cases h with
  | named declared | aliased _ _ _ declared => exact known_property hcheck.linked hroot declared

theorem clean_entry_iff (hcheck : Checkable config schema) {key : String} :
    Walk.Clean (Walk.entry config schema key value) ↔
      ∃ name property, Requests config schema key name property ∧
        NodeConforms config schema (.property property) value := by
  obtain ⟨name, property, label, hr, he⟩ | ⟨hroot, halias, he⟩ | ⟨selector, hroot, halias, hp, he⟩ :=
    entry_cases config schema key value
  · have hnode := (clean_iff_conforms hcheck value).1 _ (Path.root.extend name) (hr.known hcheck)
    simp only [he, Walk.Clean, Walk.violation_mem_request]
    refine hnode.trans ⟨fun h => ⟨name, property, hr, h⟩, ?_⟩
    rintro ⟨name', property', hr', h⟩
    obtain ⟨rfl, rfl⟩ := hr.unique hr'
    exact h
  · rw [he]
    refine iff_of_false Walk.not_clean_singleton ?_
    rintro ⟨name, property, hr, _⟩
    exact not_requests hroot (by simp [halias]) name property hr
  · rw [he]
    refine iff_of_false Walk.not_clean_singleton ?_
    rintro ⟨name, property, hr, _⟩
    exact not_requests hroot (by simp [halias, hp]) name property hr

theorem clean_document_iff (hcheck : Checkable config schema) (document : Json) :
    Walk.Clean (Walk.document config schema document) ↔ DocumentConforms config schema document := by
  unfold DocumentConforms
  cases document with
  | object fields =>
    simp only [Json.object.injEq, exists_eq_left', ← clean_entry_iff hcheck, Walk.Clean,
      Walk.violation_mem_document]
    constructor
    · intro h key value hm violation hv
      exact h violation ⟨key, value, hm, hv⟩
    · rintro h violation ⟨key, value, hm, hv⟩
      exact h key value hm violation hv
  | null | bool | number | string | array => exact iff_of_false Walk.not_clean_singleton (by simp)

/-- Validation accepts exactly the documents that conform to the schema. -/
theorem validate_accepts_iff_conforms {steps : List Step} (h : build steps = .ok schema)
    (config : Config) (hac : config.checkLiterals = true → schema.UnionAcyclic) (document : Json) :
    validate config schema document = .ok () ↔ DocumentConforms config schema document := by
  rw [validate_eq_ok_iff]
  exact clean_document_iff (checkable_of_build h hac) document

/-- A query of the social graph: a page of users under an alias, with arguments, a nested selection
and both members of a union. -/
def userQuery : Json :=
  .object [("users = @all", .object
    [("listArgs", .object [("limit", .number (.integer 3)), ("ids", .null)]),
     ("select", .object
       [("name", .object
          [("args", .object
            [("exampleArg1", .array [.string "0123456789abcdef0123456789ABCDEF"])]),
           ("select", .object [("first", .object [])])]),
        ("partner", .object [("accept", .object
          [("String", .object []),
           ("User", .object [("select", .object [("birthDate", .object [])])])])])])])]

theorem userQuery_conforms :
    build UserGraph.steps = .ok userGraph ∧ userGraph.UnionAcyclic ∧
      validate {} userGraph userQuery = .ok () ∧ DocumentConforms {} userGraph userQuery := by
  have h : validate {} userGraph userQuery = .ok () := by decide +kernel
  exact ⟨rfl, userGraph_unionAcyclic, h,
    (validate_accepts_iff_conforms (rfl : build UserGraph.steps = .ok userGraph) {}
      (fun _ => userGraph_unionAcyclic) userQuery).mp h⟩

end SelectionQuery
