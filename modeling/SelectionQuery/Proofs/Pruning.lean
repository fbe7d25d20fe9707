import Mathlib.Logic.Relation
import SelectionQuery.Proofs.DocumentGrammar

/-! # Pruning of documents

What a query does not ask for is not checked, so most parts of an accepted document can be left out:
a request, an attribute, one of several names, an argument, the cursor of a page, an identifier, and
any item or field inside the value of an argument. The parts that have to stay are the last name of a
selection and whatever makes paging arguments a choice.
-/
namespace SelectionQuery
open Schema

/-- One item of an array or one field of an object is left out, in the value or anywhere inside it. -/
inductive Json.Prune : Json → Json → Prop
  | item {before after : List Json} {item : Json} :
      Prune (.array (before ++ item :: after)) (.array (before ++ after))
  | field {before after : List (String × Json)} {field : String × Json} :
      Prune (.object (before ++ field :: after)) (.object (before ++ after))
  | inItem {before after : List Json} {value value' : Json} (inside : Prune value value') :
      Prune (.array (before ++ value :: after)) (.array (before ++ value' :: after))
  | inField {before after : List (String × Json)} {key : String} {value value' : Json}
      (inside : Prune value value') :
      Prune (.object (before ++ (key, value) :: after)) (.object (before ++ (key, value') :: after))

/-- The entries of an object without those of one key, of which an object that is read has at most
one. -/
def entriesWithout (key : String) (fields : List (String × Json)) : List (String × Json) :=
  fields.filter fun field => field.1 ≠ key

/-- Of paging arguments the cursor is left out, or one of the identifiers. -/
inductive PagingPrune : Json → Json → Prop
  | cursor {fields : List (String × Json)} :
      PagingPrune (.object fields) (.object (entriesWithout Paging.after fields))
  | identifier {before after : List (String × Json)} {first rest : List Json} {item : Json} :
      PagingPrune (.object (before ++ (Paging.ids, .array (first ++ item :: rest)) :: after))
        (.object (before ++ (Paging.ids, .array (first ++ rest)) :: after))

mutual
/-- A node, or one below it, loses an attribute, a part of its arguments or one of its names. -/
inductive NodePrune : Json → Json → Prop
  | attribute {fields : List (String × Json)} (lost : Attribute) :
      NodePrune (.object fields) (.object (entriesWithout lost.key fields))
  /-- The arguments are an object, whose entries are left out like any field. -/
  | arguments {before after : List (String × Json)} {value value' : Json}
      (inside : value.Prune value') :
      NodePrune (.object (before ++ (Attribute.args.key, value) :: after))
        (.object (before ++ (Attribute.args.key, value') :: after))
  | paging {before after : List (String × Json)} {value value' : Json}
      (inside : PagingPrune value value') :
      NodePrune (.object (before ++ (Attribute.listArgs.key, value) :: after))
        (.object (before ++ (Attribute.listArgs.key, value') :: after))
  | names {descent : Descent} {before after : List (String × Json)} {value value' : Json}
      (inside : NamesPrune value value') :
      NodePrune (.object (before ++ (descent.key, value) :: after))
        (.object (before ++ (descent.key, value') :: after))

/-- Of several names of properties or members one is left out, or a node under a name is pruned. -/
inductive NamesPrune : Json → Json → Prop
  | name {before after : List (String × Json)} {entry : String × Json}
      (several : 2 ≤ (before ++ entry :: after).length) :
      NamesPrune (.object (before ++ entry :: after)) (.object (before ++ after))
  | node {before after : List (String × Json)} {name : String} {value value' : Json}
      (inside : NodePrune value value') :
      NamesPrune (.object (before ++ (name, value) :: after))
        (.object (before ++ (name, value') :: after))
end

/-- A request at the top is left out, or its node is pruned. -/
inductive DocumentPrune : Json → Json → Prop
  | request {before after : List (String × Json)} {entry : String × Json} :
      DocumentPrune (.object (before ++ entry :: after)) (.object (before ++ after))
  | node {before after : List (String × Json)} {key : String} {value value' : Json}
      (inside : NodePrune value value') :
      DocumentPrune (.object (before ++ (key, value) :: after))
        (.object (before ++ (key, value') :: after))

/-- The document is left after any number of parts are left out. -/
def DocumentPruned : Json → Json → Prop := Relation.ReflTransGen DocumentPrune

variable {config : Config} {schema : Schema} {value value' : Json}

theorem mem_of_mem_rest {α : Type} {before after : List α} {lost entry : α}
    (h : entry ∈ before ++ after) : entry ∈ before ++ lost :: after :=
  ((List.sublist_cons_self lost after).append_left before).subset h

theorem mem_of_mem_replaced {α : Type} (entry : α) {before after : List α} {entry' found : α}
    (h : found ∈ before ++ entry' :: after) :
    found ∈ before ++ entry :: after ∨ found = entry' := by
  rcases List.mem_append.mp h with h | h
  · exact .inl (List.mem_append_left _ h)
  · rcases List.mem_cons.mp h with h | h
    · exact .inr h
    · exact .inl (List.mem_append_right _ (List.mem_cons_of_mem _ h))

theorem forall_mem_replaced {holds : String → Json → Prop} {before after : List (String × Json)}
    {name : String} (hall : ∀ key found, (key, found) ∈ before ++ (name, value) :: after →
      holds key found) (hreplaced : holds name value → holds name value') :
    ∀ key found, (key, found) ∈ before ++ (name, value') :: after → holds key found := by
  intro key found hm
  rcases mem_of_mem_replaced (name, value) hm with hm | heq
  · exact hall key found hm
  · cases heq
    exact hreplaced (hall name value List.mem_append_cons_self)

theorem lookup_of_replaced (value : Json) {before after : List (String × Json)} {name key : String}
    {value' found : Json}
    (h : (before ++ (name, value') :: after).lookup key = some found) :
    (before ++ (name, value) :: after).lookup key = some found ∨
      (key = name ∧ found = value' ∧ (before ++ (name, value) :: after).lookup key = some value) := by
  rw [List.lookup_append, lookup_cons_ite] at h ⊢
  cases hb : before.lookup key with
  | some earlier => exact .inl (by simpa [hb] using h)
  | none =>
    by_cases hk : key = name
    · subst hk
      exact .inr ⟨rfl, by simpa [hb] using h.symm, by simp⟩
    · exact .inl (by simpa [hb, hk] using h)

theorem lookup_entriesWithout (lost key : String) (fields : List (String × Json)) :
    (entriesWithout lost fields).lookup key = if key = lost then none else fields.lookup key := by
  induction fields with
  | nil => simp [entriesWithout]
  | cons first rest ih =>
    by_cases hfirst : first.1 = lost
    · have hskip : entriesWithout lost (first :: rest) = entriesWithout lost rest := by
        simp [entriesWithout, hfirst]
      rw [hskip, ih, lookup_cons_ite, hfirst]
      by_cases hk : key = lost <;> simp [hk]
    · have hkeep : entriesWithout lost (first :: rest) = first :: entriesWithout lost rest := by
        simp [entriesWithout, hfirst]
      rw [hkeep, lookup_cons_ite, ih, lookup_cons_ite]
      by_cases hk : key = lost
      · simp [hk, Ne.symm hfirst]
      · simp [hk]

theorem mem_of_mem_entriesWithout {lost : String} {fields : List (String × Json)}
    {entry : String × Json} (h : entry ∈ entriesWithout lost fields) : entry ∈ fields :=
  List.mem_of_mem_filter h

/-- Whatever is a field of the object after pruning was one before, or comes from one by pruning. -/
theorem Json.Prune.of_object {fields : List (String × Json)} (h : (Json.object fields).Prune value') :
    ∃ fields', value' = .object fields' ∧ ∀ key value', (key, value') ∈ fields' →
      ∃ value, (key, value) ∈ fields ∧ Relation.ReflGen Json.Prune value value' := by
  cases h with
  | @field before after lost =>
    exact ⟨_, rfl, fun key value hm => ⟨value, mem_of_mem_rest hm, .refl⟩⟩
  | @inField before after name value value' inside =>
    refine ⟨_, rfl, fun key found hm => ?_⟩
    rcases mem_of_mem_replaced (name, value) hm with hm | heq
    · exact ⟨found, hm, .refl⟩
    · cases heq
      exact ⟨value, List.mem_append_cons_self, .single inside⟩

theorem Json.Prune.of_array {items : List Json} (h : (Json.array items).Prune value') :
    ∃ items', value' = .array items' ∧ ∀ item' ∈ items',
      ∃ item ∈ items, Relation.ReflGen Json.Prune item item' := by
  cases h with
  | @item before after lost => exact ⟨_, rfl, fun item hm => ⟨item, mem_of_mem_rest hm, .refl⟩⟩
  | @inItem before after value value' inside =>
    refine ⟨_, rfl, fun found hm => ?_⟩
    rcases mem_of_mem_replaced value hm with hm | rfl
    · exact ⟨found, hm, .refl⟩
    · exact ⟨value, List.mem_append_cons_self, .single inside⟩

theorem Json.Prune.ne_null (h : value.Prune value') : value' ≠ .null := by
  cases h <;> nofun

mutual
theorem HasType.pruned {id : TypeId} {value value' : Json} (h : HasType schema id value)
    (hp : value.Prune value') : HasType schema id value' := by
  -- by the derivation, since at a member of a union the value stays the same
  match h with
  | .primitive _ fits | .scalar _ fits => cases fits <;> cases hp
  | .variant _ _ | .identifier _ _ => cases hp
  | .struct shape declared fits =>
    obtain ⟨fields', rfl, hkept⟩ := hp.of_object
    refine .struct shape (fun name value' hm => ?_) fun name value' property hm hproperty => ?_
    · obtain ⟨value, hv, _⟩ := hkept name value' hm
      exact declared name value hv
    · obtain ⟨value, hv, hinner⟩ := hkept name value' hm
      cases hinner with
      | refl => exact fits name value' property hv hproperty
      | single hinner => exact Fits.pruned (fits name value property hv hproperty) hinner
  | .member step fits => exact .member step (HasType.pruned fits hp)

theorem Fits.pruned {argument : Argument} {value value' : Json} (h : Fits schema argument value)
    (hp : value.Prune value') : Fits schema argument value' := by
  match h with
  | .null _ => cases hp
  | .single _ list fits => exact .single hp.ne_null list (HasType.pruned fits hp)
  | .list list fits =>
    obtain ⟨items', rfl, hkept⟩ := hp.of_array
    refine .list list fun item' hm => ?_
    obtain ⟨item, hitem, hinner⟩ := hkept item' hm
    cases hinner with
    | refl => exact fits item' hitem
    | single hinner => exact HasType.pruned (fits item hitem) hinner
end

section Arguments
variable {property : Property}

theorem ArgumentsConform.pruned (h : ArgumentsConform config schema property value)
    (hp : value.Prune value') : ArgumentsConform config schema property value' := by
  obtain ⟨fields, rfl, fits⟩ := h
  obtain ⟨fields', rfl, hkept⟩ := hp.of_object
  refine ⟨fields', rfl, fun name value' hm => ?_⟩
  obtain ⟨value, hv, hinner⟩ := hkept name value' hm
  obtain ⟨argument, hargument, hfits⟩ := fits name value hv
  refine ⟨argument, hargument, fun checked => ?_⟩
  cases hinner with
  | refl => exact hfits checked
  | single hinner => exact (hfits checked).pruned hinner

theorem Paging.mem_givenKeys_entriesWithout {lost key : String} {fields : List (String × Json)} :
    key ∈ givenKeys (entriesWithout lost fields) ↔ key ≠ lost ∧ key ∈ givenKeys fields := by
  simp only [givenKeys, Set.mem_ofPred_eq, lookup_entriesWithout]
  by_cases hk : key = lost <;> simp [hk]

theorem Paging.Chosen.without_cursor {fields : List (String × Json)} (h : Chosen fields) :
    Chosen (entriesWithout after fields) := by
  obtain ⟨recognized, chosen⟩ := h
  have hkept : Recognized (entriesWithout after fields) :=
    fun key value hm => recognized key value (mem_of_mem_entriesWithout hm)
  rw [chosen_iff recognized] at chosen
  refine ⟨hkept, (chosen_iff hkept).mpr ?_⟩
  simp only [mem_givenKeys_entriesWithout, ids_ne_after, ne_eq, not_true, not_false_eq_true,
    false_and, true_and, after_ne_limit.symm]
  exact chosen.imp_left fun h => ⟨h.1, h.2.2⟩

/-- What is given under each key matters to the choice only by being there. -/
theorem Paging.givenKeys_replaced (before after : List (String × Json)) (name : String)
    (hv : value ≠ .null) (hv' : value' ≠ .null) :
    givenKeys (before ++ (name, value') :: after) = givenKeys (before ++ (name, value) :: after) := by
  have hsub : ∀ {old new : Json}, old ≠ .null →
      givenKeys (before ++ (name, new) :: after) ⊆ givenKeys (before ++ (name, old) :: after) := by
    rintro old new hold key ⟨found, hfound, present⟩
    rcases lookup_of_replaced old hfound with hfound | ⟨_, _, hfound⟩
    · exact ⟨found, hfound, present⟩
    · exact ⟨old, hfound, hold⟩
  exact Set.Subset.antisymm (hsub hv) (hsub hv')

theorem PagingConforms.pruned (h : PagingConforms config schema property value)
    (hp : PagingPrune value value') : PagingConforms config schema property value' := by
  obtain ⟨_, rfl, chosen, values⟩ := h
  cases hp with
  | cursor =>
    refine ⟨_, rfl, chosen.without_cursor, fun checked key value hm present => ?_⟩
    exact values checked key value (mem_of_mem_entriesWithout hm) present
  | @identifier before after first rest item =>
    obtain ⟨recognized, chosen⟩ := chosen
    have hgiven := @Paging.givenKeys_replaced (.array (first ++ item :: rest)) (.array (first ++ rest))
      before after Paging.ids nofun nofun
    refine ⟨_, rfl, ⟨forall_mem_replaced recognized id, hgiven ▸ chosen⟩, fun checked => ?_⟩
    refine forall_mem_replaced (values checked) fun hids _ => ?_
    obtain ⟨h, _⟩ | ⟨_, items, heq, addresses⟩ | ⟨h, _⟩ := Paging.hasValue_iff.mp (hids nofun)
    · exact absurd h Paging.ids_ne_limit
    · cases heq
      exact .ids _ fun item hm => addresses item (mem_of_mem_rest hm)
    · exact absurd h Paging.ids_ne_after

end Arguments

theorem NodeConforms.without_attribute {site : Site} {fields : List (String × Json)}
    (h : NodeConforms config schema site (.object fields)) (lost : String) :
    NodeConforms config schema site (.object (entriesWithout lost fields)) := by
  obtain ⟨applicable, paging, arguments, names⟩ := h
  have hfound : ∀ {key value}, (entriesWithout lost fields).lookup key = some value →
      fields.lookup key = some value := by
    intro key value hv
    rw [lookup_entriesWithout] at hv
    split at hv
    · cases hv
    · exact hv
  refine .node (fun key value hm => applicable key value (mem_of_mem_entriesWithout hm)) ?_ ?_ ?_
  · exact fun property hsite value hv => paging property hsite value (hfound hv)
  · exact fun property hsite value hv => arguments property hsite value (hfound hv)
  · exact fun descent value hv => names descent value (hfound hv)

/-- A node goes on conforming if the value under one of its keys does in whatever role it has. -/
theorem NodeConforms.replaced {site : Site} {before after : List (String × Json)} {name : String}
    (h : NodeConforms config schema site (.object (before ++ (name, value) :: after)))
    (hpaging : name = Attribute.listArgs.key → ∀ property,
      PagingConforms config schema property value → PagingConforms config schema property value')
    (harguments : name = Attribute.args.key → ∀ property,
      ArgumentsConform config schema property value → ArgumentsConform config schema property value')
    (hnames : ∀ descent : Descent, name = descent.key → ∀ type,
      NamesConform config schema descent type value → NamesConform config schema descent type value') :
    NodeConforms config schema site (.object (before ++ (name, value') :: after)) := by
  obtain ⟨applicable, paging, arguments, names⟩ := h
  refine .node (forall_mem_replaced applicable id) ?_ ?_ ?_
  · intro property hsite found hfound
    obtain hkept | ⟨rfl, rfl, hold⟩ := lookup_of_replaced value hfound
    · exact paging property hsite found hkept
    · exact hpaging rfl property (paging property hsite value hold)
  · intro property hsite found hfound
    obtain hkept | ⟨rfl, rfl, hold⟩ := lookup_of_replaced value hfound
    · exact arguments property hsite found hkept
    · exact harguments rfl property (arguments property hsite value hold)
  · intro descent found hfound
    obtain hkept | ⟨hkey, rfl, hold⟩ := lookup_of_replaced value hfound
    · exact names descent found hkept
    · exact hnames descent hkey.symm _ (names descent value hold)

theorem Descent.key_injective : Function.Injective Descent.key := by
  intro descent other h
  cases descent <;> cases other <;> first | rfl | exact absurd h (by decide)

theorem Descent.key_ne_listArgs (descent : Descent) : descent.key ≠ Attribute.listArgs.key := by
  cases descent <;> decide

theorem Descent.key_ne_args (descent : Descent) : descent.key ≠ Attribute.args.key := by
  cases descent <;> decide

mutual
/-- A pruned node conforms at the sites at which the node did. -/
theorem NodePrune.conforms {site : Site} {value value' : Json} (hp : NodePrune value value')
    (h : NodeConforms config schema site value) : NodeConforms config schema site value' := by
  match hp with
  | .attribute lost => exact h.without_attribute lost.key
  | .arguments inside =>
    refine h.replaced (fun heq => absurd heq (by decide)) (fun _ property h => h.pruned inside) ?_
    exact fun descent heq => absurd heq.symm descent.key_ne_args
  | .paging inside =>
    refine h.replaced (fun _ property h => h.pruned inside) (fun heq => absurd heq (by decide)) ?_
    exact fun descent heq => absurd heq.symm descent.key_ne_listArgs
  | @NodePrune.names descent _ _ _ _ inside =>
    refine h.replaced (fun heq => absurd heq descent.key_ne_listArgs)
      (fun heq => absurd heq descent.key_ne_args) fun other heq type hnames => ?_
    cases Descent.key_injective heq
    exact NamesPrune.conforms inside hnames

theorem NamesPrune.conforms {descent : Descent} {type : TypeDef} {value value' : Json}
    (hp : NamesPrune value value') (h : NamesConform config schema descent type value) :
    NamesConform config schema descent type value' := by
  match hp, h with
  | @NamesPrune.name before after entry several, .names _ declared nodes =>
    refine .names (fun hempty => ?_) (fun name value hm => declared name value (mem_of_mem_rest hm))
      fun name value site hm => nodes name value site (mem_of_mem_rest hm)
    obtain ⟨rfl, rfl⟩ := List.append_eq_nil_iff.mp hempty
    exact absurd several (by simp)
  | @NamesPrune.node before after name value value' inside, .names _ declared nodes =>
    refine .names (by simp) (forall_mem_replaced declared id) fun other found site hm hsite => ?_
    rcases mem_of_mem_replaced (name, value) hm with hm | heq
    · exact nodes other found site hm hsite
    · cases heq
      exact NodePrune.conforms inside (nodes name value site List.mem_append_cons_self hsite)
end

theorem DocumentPrune.conforms {document document' : Json} (hp : DocumentPrune document document')
    (h : DocumentConforms config schema document) : DocumentConforms config schema document' := by
  obtain ⟨_, rfl, entries⟩ := h
  cases hp with
  | request => exact ⟨_, rfl, fun key value hm => entries key value (mem_of_mem_rest hm)⟩
  | @node before after name value value' inside =>
    refine ⟨_, rfl, forall_mem_replaced entries ?_⟩
    rintro ⟨requested, property, hrequests, hnode⟩
    exact ⟨requested, property, hrequests, inside.conforms hnode⟩

theorem DocumentPruned.conforms {document document' : Json} (hp : DocumentPruned document document')
    (h : DocumentConforms config schema document) : DocumentConforms config schema document' := by
  induction hp with
  | refl => exact h
  | tail _ step ih => exact step.conforms ih

/-- An accepted document is accepted after any number of its parts are left out. -/
theorem validate_accepts_of_pruned {steps : List Step} (h : build steps = .ok schema)
    (config : Config) (hac : config.checkLiterals = true → schema.UnionAcyclic)
    {document document' : Json} (hp : DocumentPruned document document')
    (haccepted : validate config schema document = .ok ()) :
    validate config schema document' = .ok () := by
  have hcheck := checkable_of_build h hac
  rw [validate_eq_ok_iff] at haccepted ⊢
  have hconforms := (clean_document_iff hcheck document).mp haccepted
  exact (clean_document_iff hcheck document').mpr (hp.conforms hconforms)

def partnersQuery (identifiers : List Json) (accepted : List (String × Json)) : Json :=
  .object [("users", .object
    [("listArgs", .object [("limit", .number (.integer 3))]),
     ("select", .object
       [("name", .object [("args", .object [("exampleArg1", .array identifiers)])]),
        ("partner", .object [("accept", .object accepted)])])])]

theorem partnersQuery_pruned {identifiers identifiers' : List Json}
    {accepted accepted' : List (String × Json)}
    (hidentifiers : (Json.array identifiers).Prune (.array identifiers'))
    (haccepted : NamesPrune (.object accepted) (.object accepted')) :
    DocumentPruned (partnersQuery identifiers accepted) (partnersQuery identifiers' accepted') := by
  have hname : NodePrune (.object [("args", .object [("exampleArg1", .array identifiers)])])
      (.object [("args", .object [("exampleArg1", .array identifiers')])]) :=
    @NodePrune.arguments [] [] _ _ (@Json.Prune.inField [] [] _ _ _ hidentifiers)
  have hpartner : NodePrune (.object [("accept", .object accepted)])
      (.object [("accept", .object accepted')]) := @NodePrune.names .accept [] [] _ _ haccepted
  have hfirst : DocumentPrune (partnersQuery identifiers accepted)
      (partnersQuery identifiers' accepted) :=
    @DocumentPrune.node [] [] _ _ _
      (@NodePrune.names .select [_] [] _ _ (@NamesPrune.node [] [_] _ _ _ hname))
  have hsecond : DocumentPrune (partnersQuery identifiers' accepted)
      (partnersQuery identifiers' accepted') :=
    @DocumentPrune.node [] [] _ _ _
      (@NodePrune.names .select [_] [] _ _ (@NamesPrune.node [_] [] _ _ _ hpartner))
  exact .tail (.single hfirst) hsecond

def birthDateBranch : Json := .object [("select", .object [("birthDate", .object [])])]

theorem partnersQuery_accepted_after_pruning :
    build UserGraph.steps = .ok userGraph ∧ userGraph.UnionAcyclic ∧
      validate {} userGraph (partnersQuery [.string "0123456789abcdef0123456789ABCDEF"]
        [("String", .object []), ("User", birthDateBranch)]) = .ok () ∧
      validate {} userGraph (partnersQuery [] [("User", birthDateBranch)]) = .ok () := by
  have hbuilt : build UserGraph.steps = .ok userGraph := rfl
  have haccepted : validate {} userGraph (partnersQuery [.string "0123456789abcdef0123456789ABCDEF"]
      [("String", .object []), ("User", birthDateBranch)]) = .ok () := by decide +kernel
  refine ⟨hbuilt, userGraph_unionAcyclic, haccepted, ?_⟩
  refine validate_accepts_of_pruned hbuilt {} (fun _ => userGraph_unionAcyclic) ?_ haccepted
  exact partnersQuery_pruned (@Json.Prune.item [] [] _) (@NamesPrune.name [] [_] _ (le_refl 2))

/-- The last name has to stay. -/
example : validate {} userGraph (partnersQuery [] []) =
    .error ⟨.missingSelector, "root.users.partner", "empty type acceptance"⟩ := by
  decide +kernel

end SelectionQuery
