import SelectionQuery.Proofs.DocumentGrammar
import SelectionQuery.Proofs.FirstViolation
import SelectionQuery.Proofs.JsonReordering

/-! # The order of keys

The rules of conformance speak of no order, so a document and its reorderings are accepted together.
Which violation is reported does depend on the order of names, arguments and fields. It does not
depend on the order of the attributes of a node: apart from the first key that is not applicable,
attributes are found by lookup.
-/
namespace SelectionQuery
open Schema

variable {config : Config} {schema : Schema} {site : Site} {descent : Descent} {type : TypeDef}
  {path : Path} {value value' : Json} {fields fields' : List (String × Json)}

theorem PrimitiveValue.eq_of_reordered {primitive : Primitive} (h : PrimitiveValue primitive value)
    (hr : value.Reordered value') : value' = value := by
  cases h <;> exact hr.eq_of_plain rfl

theorem ScalarValue.eq_of_reordered (h : ScalarValue value) (hr : value.Reordered value') :
    value' = value := by
  cases h <;> exact hr.eq_of_plain rfl

mutual
theorem HasType.reordered {id : TypeId} {value value' : Json} (h : HasType schema id value)
    (hr : value.Reordered value') : HasType schema id value' := by
  match h with
  | .primitive shape fits =>
    rw [fits.eq_of_reordered hr]
    exact .primitive shape fits
  | .scalar shape fits =>
    rw [fits.eq_of_reordered hr]
    exact .scalar shape fits
  | .variant shape declared =>
    rw [hr.eq_of_plain rfl]
    exact .variant shape declared
  | .identifier shape accepted =>
    rw [hr.eq_of_plain rfl]
    exact .identifier shape accepted
  | .struct shape declared fits =>
    obtain ⟨fields', rfl, hfollows⟩ := hr.of_object
    refine .struct shape (fun name value' hm => ?_) fun name value' property hm hp => ?_
    · obtain ⟨value, hv, _⟩ := hfollows.values name value' hm
      exact declared name value hv
    · obtain ⟨value, hv, hinner⟩ := hfollows.values name value' hm
      exact Fits.reordered (fits name value property hv hp) hinner
  | .member step fits => exact .member step (HasType.reordered fits hr)

theorem Fits.reordered {argument : Argument} {value value' : Json} (h : Fits schema argument value)
    (hr : value.Reordered value') : Fits schema argument value' := by
  match h with
  | .null optional =>
    rw [hr.eq_of_plain rfl]
    exact .null optional
  | .single present list fits =>
    exact .single (hr.symm.ne_null present) list (HasType.reordered fits hr)
  | .list list fits =>
    obtain ⟨items', rfl, hitems⟩ := hr.of_array
    refine .list list fun item' hm => ?_
    obtain ⟨item, hitem, hinner⟩ := hitems item' hm
    exact HasType.reordered (fits item hitem) hinner
end

namespace Paging

theorem Address.eq_of_reordered {element : TypeId} (h : Address schema element value)
    (hr : value.Reordered value') : value' = value := by
  obtain ⟨s, rfl, _⟩ := h
  exact hr.eq_of_plain rfl

theorem HasValue.reordered {element : TypeId} {key : String} (h : HasValue schema element key value)
    (hr : value.Reordered value') : HasValue schema element key value' := by
  cases h with
  | limit n positive upper =>
    rw [hr.eq_of_plain rfl]
    exact .limit n positive upper
  | ids items addresses =>
    obtain ⟨items', rfl, hitems⟩ := hr.of_array
    refine .ids items' fun item' hm => ?_
    obtain ⟨item, hitem, hinner⟩ := hitems item' hm
    rw [(addresses item hitem).eq_of_reordered hinner]
    exact addresses item hitem
  | after _ address =>
    rw [address.eq_of_reordered hr]
    exact .after value address

theorem givenKeys_subset_of_follows (h : Json.Follows fields fields')
    (hd : (fields.map Prod.fst).Nodup) : givenKeys fields' ⊆ givenKeys fields := by
  rintro key ⟨value', hv, present⟩
  obtain ⟨value, hfound, hr⟩ := h.lookup hd hv
  exact ⟨value, hfound, hr.ne_null present⟩

end Paging

section Arguments
variable {property : Property}

theorem PagingConforms.reordered (h : PagingConforms config schema property value)
    (hd : value.keysDistinct = true) (hr : value.Reordered value') :
    PagingConforms config schema property value' := by
  obtain ⟨fields, rfl, ⟨recognized, chosen⟩, values⟩ := h
  have hd' := hr.keysDistinct hd
  obtain ⟨fields', rfl, hfollows⟩ := hr.of_object
  -- the choice is an equality of sets, so the arguments are followed in both directions
  obtain ⟨_, heq, hback⟩ := hr.symm.of_object
  cases heq
  have hgiven : Paging.givenKeys fields' = Paging.givenKeys fields :=
    Set.Subset.antisymm
      (Paging.givenKeys_subset_of_follows hfollows (Json.keysDistinct_object.mp hd).1)
      (Paging.givenKeys_subset_of_follows hback (Json.keysDistinct_object.mp hd').1)
  refine ⟨fields', rfl, ⟨fun key value' hm => ?_, hgiven ▸ chosen⟩, ?_⟩
  · obtain ⟨value, hv, _⟩ := hfollows.values key value' hm
    exact recognized key value hv
  · intro checked key value' hm present
    obtain ⟨value, hv, hinner⟩ := hfollows.values key value' hm
    exact (values checked key value hv (hinner.ne_null present)).reordered hinner

theorem ArgumentsConform.reordered (h : ArgumentsConform config schema property value)
    (hr : value.Reordered value') : ArgumentsConform config schema property value' := by
  obtain ⟨fields, rfl, fits⟩ := h
  obtain ⟨fields', rfl, hfollows⟩ := hr.of_object
  refine ⟨fields', rfl, fun name value' hm => ?_⟩
  obtain ⟨value, hv, hinner⟩ := hfollows.values name value' hm
  obtain ⟨argument, hargument, hfits⟩ := fits name value hv
  exact ⟨argument, hargument, fun checked => (hfits checked).reordered hinner⟩

end Arguments

theorem NodeConforms.of_follows (hf : Json.Follows fields fields')
    (hd : (Json.object fields).keysDistinct = true)
    (hnames : ∀ key value, (key, value) ∈ fields → ∀ descent value', value.Reordered value' →
      NamesConform config schema descent (site.target schema) value →
      NamesConform config schema descent (site.target schema) value')
    (h : NodeConforms config schema site (.object fields)) :
    NodeConforms config schema site (.object fields') := by
  obtain ⟨hkeys, hvalues⟩ := Json.keysDistinct_object.mp hd
  obtain ⟨applicable, paging, arguments, names⟩ := h
  refine .node (fun key value' hm => ?_) ?_ ?_ ?_
  · obtain ⟨value, hv, _⟩ := hf.values key value' hm
    exact applicable key value hv
  · intro property hsite value' hfound
    obtain ⟨value, hv, hr⟩ := hf.lookup hkeys hfound
    have hdistinct := hvalues _ value (mem_of_lookup hv)
    exact (paging property hsite value hv).reordered hdistinct hr
  · intro property hsite value' hfound
    obtain ⟨value, hv, hr⟩ := hf.lookup hkeys hfound
    exact (arguments property hsite value hv).reordered hr
  · intro descent value' hfound
    obtain ⟨value, hv, hr⟩ := hf.lookup hkeys hfound
    exact hnames _ value (mem_of_lookup hv) descent value' hr (names descent value hv)

theorem NamesConform.of_follows (hf : Json.Follows fields fields')
    (hnodes : ∀ name value, (name, value) ∈ fields → ∀ site value', value.Reordered value' →
      NodeConforms config schema site value → NodeConforms config schema site value')
    (h : NamesConform config schema descent type (.object fields)) :
    NamesConform config schema descent type (.object fields') := by
  obtain ⟨inhabited, declared, nodes⟩ := h
  refine .names (fun hempty => inhabited ?_) (fun name value' hm => ?_) ?_
  · have hlength := hf.keys.length_eq
    rw [hempty, List.length_map, List.length_map] at hlength
    exact List.eq_nil_of_length_eq_zero hlength
  · obtain ⟨value, hv, _⟩ := hf.values name value' hm
    exact declared name value hv
  · intro name value' site hm hsite
    obtain ⟨value, hv, hr⟩ := hf.values name value' hm
    exact hnodes name value hv site value' hr (nodes name value site hv hsite)

theorem conforms_reordered (value : Json) (hd : value.keysDistinct = true) :
    (∀ site value', value.Reordered value' → NodeConforms config schema site value →
      NodeConforms config schema site value') ∧
    (∀ descent type value', value.Reordered value' → NamesConform config schema descent type value →
      NamesConform config schema descent type value') := by
  induction value using Json.induction with
  | null | bool | number | string | array =>
    refine ⟨fun site value' _ hnode => ?_, fun descent type value' _ hnames => ?_⟩
    · cases hnode
    · cases hnames
  | object fields ih =>
    obtain ⟨_, hvalues⟩ := Json.keysDistinct_object.mp hd
    refine ⟨fun site value' hr hnode => ?_, fun descent type value' hr hnames => ?_⟩
    · obtain ⟨fields', rfl, hf⟩ := hr.of_object
      refine hnode.of_follows hf hd fun key value hm descent value' => ?_
      exact (ih key value hm (hvalues key value hm)).2 descent _ value'
    · obtain ⟨fields', rfl, hf⟩ := hr.of_object
      refine hnames.of_follows hf fun name value hm => ?_
      exact (ih name value hm (hvalues name value hm)).1

theorem DocumentConforms.reordered {document document' : Json}
    (h : DocumentConforms config schema document) (hd : document.keysDistinct = true)
    (hr : document.Reordered document') : DocumentConforms config schema document' := by
  obtain ⟨fields, rfl, entries⟩ := h
  obtain ⟨_, hvalues⟩ := Json.keysDistinct_object.mp hd
  obtain ⟨fields', rfl, hfollows⟩ := hr.of_object
  refine ⟨fields', rfl, fun key value' hm => ?_⟩
  obtain ⟨value, hv, hinner⟩ := hfollows.values key value' hm
  obtain ⟨name, property, hrequests, hnode⟩ := entries key value hv
  have hkept := (conforms_reordered value (hvalues key value hv)).1 _ value' hinner hnode
  exact ⟨name, property, hrequests, hkept⟩

theorem validate_ok_iff_of_reordered (hcheck : Checkable config schema) {document document' : Json}
    (hd : document.keysDistinct = true) (hr : document.Reordered document') :
    validate config schema document = .ok () ↔ validate config schema document' = .ok () := by
  have hd' := hr.keysDistinct hd
  have hconforms : DocumentConforms config schema document ↔
      DocumentConforms config schema document' :=
    ⟨fun h => h.reordered hd hr, fun h => h.reordered hd' hr.symm⟩
  rw [validate_eq_ok_iff, validate_eq_ok_iff]
  exact (clean_document_iff hcheck document).trans
    (hconforms.trans (clean_document_iff hcheck document').symm)

theorem validateText_ok_iff {source : String} {document : Json}
    (hread : Json.parse? maxDepth source = some document) :
    validateText config schema source = .ok () ↔ validate config schema document = .ok () := by
  simp only [validateText, hread]
  cases validate config schema document <;> simp [Except.mapError]

/-- What is read from a text has distinct keys, so texts need no such condition. -/
theorem validateText_ok_iff_of_reordered (hcheck : Checkable config schema)
    {source source' : String} {document document' : Json}
    (hread : Json.parse? maxDepth source = some document)
    (hread' : Json.parse? maxDepth source' = some document') (hr : document.Reordered document') :
    validateText config schema source = .ok () ↔ validateText config schema source' = .ok () := by
  rw [validateText_ok_iff hread, validateText_ok_iff hread']
  exact validate_ok_iff_of_reordered hcheck (Json.keysDistinct_of_parse? hread) hr

/-- The keys of a node that do not apply at its site, in their order. -/
def inapplicableKeys (schema : Schema) (site : Site) (fields : List (String × Json)) : List String :=
  (fields.map Prod.fst).filter fun key => !(site.attributes schema).allows key

mutual
/-- The attributes of one node are permuted: of the node at this site, or of one below it. Keys that
do not apply there keep their order among themselves. -/
inductive NodeReorder (schema : Schema) : Site → Json → Json → Prop
  | attributes {site : Site} {fields fields' : List (String × Json)} (order : fields.Perm fields')
      (inapplicable : inapplicableKeys schema site fields' = inapplicableKeys schema site fields) :
      NodeReorder schema site (.object fields) (.object fields')
  | names {site : Site} {descent : Descent} {before after : List (String × Json)}
      {value value' : Json} (inside : NamesReorder schema descent (site.target schema) value value') :
      NodeReorder schema site (.object (before ++ (descent.key, value) :: after))
        (.object (before ++ (descent.key, value') :: after))

inductive NamesReorder (schema : Schema) : Descent → TypeDef → Json → Json → Prop
  | node {descent : Descent} {type : TypeDef} {name : String} {site : Site}
      {before after : List (String × Json)} {value value' : Json}
      (leads : descent.LeadsTo schema type name site) (inside : NodeReorder schema site value value') :
      NamesReorder schema descent type (.object (before ++ (name, value) :: after))
        (.object (before ++ (name, value') :: after))
end

/-- The attributes of one node of the document are permuted, a node being found from a request at
the top through the names that lead to it. -/
inductive DocumentReorder (config : Config) (schema : Schema) : Json → Json → Prop
  | entry {key name : String} {property : Property} {before after : List (String × Json)}
      {value value' : Json} (requests : Requests config schema key name property)
      (inside : NodeReorder schema (.property property) value value') :
      DocumentReorder config schema (.object (before ++ (key, value) :: after))
        (.object (before ++ (key, value') :: after))

/-- The documents are equal up to the order of the attributes of their nodes. -/
def AttributesReordered (config : Config) (schema : Schema) : Json → Json → Prop :=
  Relation.ReflTransGen (DocumentReorder config schema)

mutual
theorem NodeReorder.reorder {site : Site} {value value' : Json}
    (h : NodeReorder schema site value value') : Json.Reorder value value' := by
  match h with
  | .attributes order _ => exact .entries order
  | .names inside => exact .field (NamesReorder.reorder inside)

theorem NamesReorder.reorder {descent : Descent} {type : TypeDef} {value value' : Json}
    (h : NamesReorder schema descent type value value') : Json.Reorder value value' := by
  match h with
  | .node _ inside => exact .field (NodeReorder.reorder inside)
end

theorem DocumentReorder.reorder {document document' : Json}
    (h : DocumentReorder config schema document document') : Json.Reorder document document' := by
  cases h with
  | entry _ inside => exact .field inside.reorder

theorem lookup_eq_of_perm (order : fields.Perm fields') (hd : (fields.map Prod.fst).Nodup)
    (key : String) : fields'.lookup key = fields.lookup key := by
  have hd' : (fields'.map Prod.fst).Nodup := (order.map Prod.fst).nodup_iff.mp hd
  ext value
  rw [lookup_eq_some_iff_mem hd, lookup_eq_some_iff_mem hd', order.mem_iff]

theorem lookup_replace {before after : List (String × Json)} {name key : String} (h : key ≠ name) :
    (before ++ (name, value') :: after).lookup key = (before ++ (name, value) :: after).lookup key := by
  rw [List.lookup_append, List.lookup_append, lookup_cons_ite, lookup_cons_ite, if_neg h, if_neg h]

theorem unexpectedKey?_eq_head? :
    Walk.unexpectedKey? (site.attributes schema) fields =
      (inapplicableKeys schema site fields).head? := by
  rw [Walk.unexpectedKey?, inapplicableKeys, List.head?_filter]

/-- The events at a node depend on the first key that is not applicable and on what its attributes
are. -/
theorem node_congr
    (hkeys : inapplicableKeys schema site fields' = inapplicableKeys schema site fields)
    (hown : Walk.ownViolation? config schema path fields' site =
      Walk.ownViolation? config schema path fields site)
    (hbelow : ∀ descent, Walk.below config schema descent (site.target schema) path fields' =
      Walk.below config schema descent (site.target schema) path fields) :
    Walk.node config schema site path (.object fields') =
      Walk.node config schema site path (.object fields) := by
  rw [Walk.node, Walk.node, unexpectedKey?_eq_head?, unexpectedKey?_eq_head?, hkeys, hown,
    hbelow .accept, hbelow .select]

theorem ownViolation?_congr
    (h : ∀ key, (∀ descent : Descent, key ≠ descent.key) → fields'.lookup key = fields.lookup key) :
    Walk.ownViolation? config schema path fields' site =
      Walk.ownViolation? config schema path fields site := by
  cases site with
  | branch member => rfl
  | property property =>
    have hpaging : fields'.lookup Attribute.listArgs.key = fields.lookup Attribute.listArgs.key :=
      h _ fun descent => by cases descent <;> decide
    have harguments : fields'.lookup Attribute.args.key = fields.lookup Attribute.args.key :=
      h _ fun descent => by cases descent <;> decide
    rw [Walk.ownViolation?, Walk.ownViolation?, hpaging, harguments]

theorem node_eq_of_perm (order : fields.Perm fields') (hd : (fields.map Prod.fst).Nodup)
    (hkeys : inapplicableKeys schema site fields' = inapplicableKeys schema site fields) :
    Walk.node config schema site path (.object fields') =
      Walk.node config schema site path (.object fields) := by
  have hlookup := lookup_eq_of_perm order hd
  refine node_congr hkeys (ownViolation?_congr fun key _ => hlookup key) fun descent => ?_
  rw [Walk.below_eq, Walk.below_eq, hlookup]

theorem node_eq_of_below {before after : List (String × Json)}
    (h : Walk.names config schema descent (site.target schema) path value' =
      Walk.names config schema descent (site.target schema) path value) :
    Walk.node config schema site path (.object (before ++ (descent.key, value') :: after)) =
      Walk.node config schema site path (.object (before ++ (descent.key, value) :: after)) := by
  refine node_congr (by simp [inapplicableKeys]) ?_ fun other => ?_
  · exact ownViolation?_congr fun key hkey => lookup_replace (hkey descent)
  · rw [Walk.below_eq, Walk.below_eq]
    by_cases hother : other = descent
    · subst hother
      rw [List.lookup_append, List.lookup_append, lookup_cons_ite, lookup_cons_ite, if_pos rfl,
        if_pos rfl]
      cases before.lookup other.key with
      | some found => rfl
      | none => exact h
    · have hkey : other.key ≠ descent.key := by
        cases other <;> cases descent <;> first | exact absurd rfl hother | decide
      rw [lookup_replace hkey]

theorem names_eq_of_node {before after : List (String × Json)} {name : String}
    (hsite : descent.site? schema type name = some site)
    (h : Walk.node config schema site (path.extend name) value' =
      Walk.node config schema site (path.extend name) value) :
    Walk.names config schema descent type path (.object (before ++ (name, value') :: after)) =
      Walk.names config schema descent type path (.object (before ++ (name, value) :: after)) := by
  have hnodes : Walk.nodes config schema descent type path (before ++ (name, value') :: after) =
      Walk.nodes config schema descent type path (before ++ (name, value) :: after) := by
    simp only [Walk.nodes_eq_flatMap, List.flatMap_append, List.flatMap_cons, hsite, h]
  have hundeclared : Walk.undeclaredName? schema type descent (before ++ (name, value') :: after) =
      Walk.undeclaredName? schema type descent (before ++ (name, value) :: after) := by
    simp [Walk.undeclaredName?]
  rw [Walk.names, Walk.names, hnodes, hundeclared]
  simp

theorem Requests.entry_eq {key name : String} {property : Property}
    (h : Requests config schema key name property) :
    ∃ label, ∀ value, Walk.entry config schema key value =
      Walk.request config schema property name label value := by
  cases h with
  | named declared => exact ⟨none, Walk.entry_named declared⟩
  | aliased allowed unnamed written declared =>
    exact ⟨_, Walk.entry_aliased allowed unnamed written declared⟩

mutual
/-- Permuted attributes leave the events at a node as they are. -/
theorem NodeReorder.node_eq {site : Site} {value value' : Json} (hcheck : Checkable config schema)
    (hk : site.Known schema) (h : NodeReorder schema site value value')
    (hd : value.keysDistinct = true) (path : Path) :
    Walk.node config schema site path value' = Walk.node config schema site path value := by
  match h with
  | .attributes order inapplicable =>
    exact node_eq_of_perm order (Json.keysDistinct_object.mp hd).1 inapplicable
  | .names inside =>
    have hinside := Json.keysDistinct_of_field hd
    exact node_eq_of_below (NamesReorder.names_eq hcheck hk.target_mem inside hinside path)

theorem NamesReorder.names_eq {descent : Descent} {type : TypeDef} {value value' : Json}
    (hcheck : Checkable config schema) (ht : type ∈ schema.types)
    (h : NamesReorder schema descent type value value') (hd : value.keysDistinct = true)
    (path : Path) :
    Walk.names config schema descent type path value' =
      Walk.names config schema descent type path value := by
  match h with
  | @NamesReorder.node _ _ _ name _ _ _ _ _ leads inside =>
    have hinside := Json.keysDistinct_of_field hd
    have hsite := (site?_eq_some_iff hcheck.linked hcheck.distinct ht).mpr leads
    have hk := known_of_leadsTo hcheck.linked ht leads
    exact names_eq_of_node hsite (NodeReorder.node_eq hcheck hk inside hinside (path.extend name))
end

theorem DocumentReorder.document_eq {document document' : Json} (hcheck : Checkable config schema)
    (h : DocumentReorder config schema document document') (hd : document.keysDistinct = true) :
    Walk.document config schema document' = Walk.document config schema document := by
  cases h with
  | entry requests inside =>
    have hinside := Json.keysDistinct_of_field hd
    have hnode := inside.node_eq hcheck (requests.known hcheck) hinside
    obtain ⟨label, hentry⟩ := requests.entry_eq
    rw [Walk.document_append, Walk.document_append, hentry, hentry, Walk.request, Walk.request, hnode]

theorem AttributesReordered.document_eq {document document' : Json}
    (hcheck : Checkable config schema) (h : AttributesReordered config schema document document')
    (hd : document.keysDistinct = true) :
    document'.keysDistinct = true ∧
      Walk.document config schema document' = Walk.document config schema document := by
  induction h with
  | refl => exact ⟨hd, rfl⟩
  | tail _ step ih =>
    obtain ⟨hdistinct, hsame⟩ := ih
    exact ⟨step.reorder.keysDistinct hdistinct, (step.document_eq hcheck hdistinct).trans hsame⟩

/-- A document and its reorderings are accepted together. Where only the attributes of nodes change
their order, an error is the same as well. Keys are distinct in every document that is read, so texts
are accepted together without a condition on them. -/
theorem verdict_under_reordering {steps : List Step} (h : build steps = .ok schema)
    (config : Config) (hac : config.checkLiterals = true → schema.UnionAcyclic)
    {document : Json} (hd : document.keysDistinct = true) (document' : Json) :
    (document.Reordered document' →
      (validate config schema document = .ok () ↔ validate config schema document' = .ok ())) ∧
    (AttributesReordered config schema document document' →
      validate config schema document' = validate config schema document) ∧
    ∀ source source' read read', Json.parse? maxDepth source = some read →
      Json.parse? maxDepth source' = some read' → read.Reordered read' →
      (validateText config schema source = .ok () ↔ validateText config schema source' = .ok ()) := by
  have hcheck := checkable_of_build h hac
  refine ⟨validate_ok_iff_of_reordered hcheck hd, fun hr => ?_, fun source source' read read' => ?_⟩
  · rw [validate_eq_verdict, validate_eq_verdict, (hr.document_eq hcheck hd).2]
  · exact validateText_ok_iff_of_reordered hcheck

def usersPage (page selection : List (String × Json)) : Json :=
  .object [("users", .object [("listArgs", .object page), ("select", .object selection)])]

def usersSelection (page selection : List (String × Json)) : Json :=
  .object [("users", .object [("select", .object selection), ("listArgs", .object page)])]

theorem usersPage_attributesReordered (page selection : List (String × Json)) :
    AttributesReordered {} userGraph (usersPage page selection) (usersSelection page selection) := by
  have hrequests : Requests {} userGraph "users" "users" _ := .named rfl
  refine .single (@DocumentReorder.entry _ _ "users" "users" _ [] [] _ _ hrequests ?_)
  exact .attributes (List.Perm.swap _ _ []) rfl

theorem usersPage_reordered {page page' : List (String × Json)} (order : page.Perm page')
    (selection : List (String × Json)) :
    (usersPage page selection).Reordered (usersPage page' selection) := by
  have hnode := @Json.Reorder.field [] [("select", .object selection)] "listArgs" _ _ (.entries order)
  exact .single (@Json.Reorder.field [] [] "users" _ _ hnode)

theorem usersPage_under_reordering :
    validate {} userGraph
        (usersSelection [("limit", .number (.integer 0))] [("nickname", .object [])]) =
      validate {} userGraph
        (usersPage [("limit", .number (.integer 0))] [("nickname", .object [])]) ∧
    validate {} userGraph
      (usersPage [("ids", .null), ("limit", .number (.integer 3))] [("name", .object [])]) = .ok () := by
  have hbuilt : build UserGraph.steps = .ok userGraph := rfl
  have hac : ({} : Config).checkLiterals = true → userGraph.UnionAcyclic :=
    fun _ => userGraph_unionAcyclic
  have hrejected :
      (usersPage [("limit", .number (.integer 0))] [("nickname", .object [])]).keysDistinct = true := by
    decide
  have haccepted :
      (usersPage [("limit", .number (.integer 3)), ("ids", .null)]
        [("name", .object [])]).keysDistinct = true := by
    decide
  constructor
  · apply (verdict_under_reordering hbuilt {} hac hrejected _).2.1
    exact usersPage_attributesReordered _ _
  · apply ((verdict_under_reordering hbuilt {} hac haccepted _).1 ?_).mp
    · decide +kernel
    · exact usersPage_reordered (List.Perm.swap _ _ []) _

/-- The order of names shows in the error. -/
example :
    validate {} userGraph (usersPage [("limit", .number (.integer 3))]
        [("nickname", .object []), ("motto", .object [])]) ≠
      validate {} userGraph (usersPage [("limit", .number (.integer 3))]
        [("motto", .object []), ("nickname", .object [])]) := by
  decide +kernel

end SelectionQuery
