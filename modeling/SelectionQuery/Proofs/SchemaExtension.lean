import Mathlib.Tactic.IntervalCases
import SelectionQuery.Proofs.DocumentGrammar

/-! # Extensions of a schema

A schema may grow while queries are in use: types are appended, and types that exist gain
properties, arguments, members and variants. What is there stays where it is and as it is, except
that a required argument may become optional. Conformance only asks for the presence of
declarations, with two exceptions that an extension has to respect: an identifier type restricts
paging, and a root property takes precedence over an aliased selector of the same spelling.
-/
namespace SelectionQuery
open Schema

structure Argument.Extends (new old : Argument) : Prop where
  type : new.type = old.type
  list : new.list = old.list
  optional : old.optional = true → new.optional = true

structure Property.Extends (new old : Property) : Prop where
  target : new.target = old.target
  list : new.list = old.list
  arguments : ∀ name argument, old.arguments.get? name = some argument →
    ∃ found, new.arguments.get? name = some found ∧ found.Extends argument

structure TypeDef.Extends (new old : TypeDef) : Prop where
  name : new.name = old.name
  kind : new.kind = old.kind
  primitive : new.primitive? = old.primitive?
  identifier : new.identifier? = old.identifier?
  properties : ∀ name property, old.property? name = some property →
    ∃ found, new.property? name = some found ∧ found.Extends property
  members : old.members ⊆ new.members
  variants : old.variants ⊆ new.variants

/-- Every type of the old schema is extended in its place. No type of the old schema gains an
identifier type, and no root property is added whose name is an aliased selector. -/
structure Schema.Extends (new old : Schema) : Prop where
  types : ∀ (id : TypeId) (type : TypeDef), old.types[id]? = some type →
    ∃ found, new.types[id]? = some found ∧ found.Extends type
  identifiers : ∀ id < old.size, new.identifierFor? id = old.identifierFor? id
  selectors : ∀ name, old.rootProperty? name = none → (new.rootProperty? name).isSome = true →
    Selector.parseAliased? name = none

theorem Argument.Extends.refl (argument : Argument) : argument.Extends argument := ⟨rfl, rfl, id⟩

theorem Property.Extends.refl (property : Property) : property.Extends property :=
  ⟨rfl, rfl, fun _ argument h => ⟨argument, h, .refl argument⟩⟩

theorem Property.Extends.asField {new old : Property} (h : new.Extends old) :
    new.asField.Extends old.asField := ⟨h.target, h.list, id⟩

namespace TypeDef
variable {type : TypeDef}

theorem primitive?_eq_some_iff {primitive : Primitive} :
    type.primitive? = some primitive ↔ type.shape = .primitive primitive := by
  rcases type with ⟨name, shape⟩
  cases shape <;> simp [primitive?]

theorem identifier?_eq_some_iff {identifier : Identifier} :
    type.identifier? = some identifier ↔ type.shape = .entityId identifier := by
  rcases type with ⟨name, shape⟩
  cases shape <;> simp [identifier?]

theorem kind_eq_scalar_iff : type.kind = .scalar ↔ type.shape = .scalar := by
  rcases type with ⟨name, shape⟩
  cases shape with
  | record role properties => cases role <;> simp [kind, Shape.kind, Role.kind]
  | primitive | scalar | enumeration | entityId | union | trait => simp [kind, Shape.kind]

theorem kind_eq_enumeration_iff :
    type.kind = .enumeration ↔ type.shape = .enumeration type.variants := by
  rcases type with ⟨name, shape⟩
  cases shape with
  | record role properties => cases role <;> simp [kind, Shape.kind, Role.kind]
  | primitive | scalar | enumeration | entityId | union | trait => simp [kind, Shape.kind, variants]

end TypeDef

section Continued
variable {steps more : List Step} {id : TypeId} {type : TypeDef}

theorem complete_variants_subset {earlier later : Contents} (h : earlier.variants ⊆ later.variants) :
    (complete type earlier).variants ⊆ (complete type later).variants := by
  rcases type with ⟨name, shape⟩
  cases shape with
  | enumeration variants => exact h
  | record | primitive | scalar | entityId | union | trait => exact List.Subset.refl []

theorem complete_primitive? (type : TypeDef) (contents : Contents) :
    (complete type contents).primitive? = type.primitive? := by
  rcases type with ⟨name, shape⟩
  cases shape <;> rfl

theorem complete_append_extends (hs : AdmissibleAll steps) (hall : AdmissibleAll (steps ++ more))
    (ht : (declaredTypes steps)[id]? = some type) :
    (complete type (supplied id (steps ++ more))).Extends (complete type (supplied id steps)) := by
  have htall : (declaredTypes (steps ++ more))[id]? = some type := declaredTypes_getElem?_append ht
  have hproperties : suppliedProperties id steps ⊆ suppliedProperties id (steps ++ more) := by
    simp [suppliedProperties]
  have hmembers : suppliedMembers id steps ⊆ suppliedMembers id (steps ++ more) := by
    simp [suppliedMembers]
  have hvariants : suppliedVariants id steps ⊆ suppliedVariants id (steps ++ more) := by
    simp [suppliedVariants]
  refine
    { name := rfl
      kind := by rw [complete_kind, complete_kind]
      primitive := by rw [complete_primitive?, complete_primitive?]
      identifier := by rw [complete_identifier?, complete_identifier?]
      properties := fun name property hp => ?_
      members := by rwa [hs.members_complete ht, hall.members_complete htall]
      variants := complete_variants_subset hvariants }
  have hin := hproperties ((hs.property?_complete ht name property).mp hp)
  exact ⟨property, (hall.property?_complete htall name property).mpr hin, .refl property⟩

/-- The schema of a continued list of steps extends the schema before, as far as types go. -/
theorem build_append_extends {old new : Schema} (hold : build steps = .ok old)
    (hnew : build (steps ++ more) = .ok new)
    (identifiers : ∀ id < old.size, new.identifierFor? id = old.identifierFor? id)
    (selectors : ∀ name, old.rootProperty? name = none → (new.rootProperty? name).isSome = true →
      Selector.parseAliased? name = none) : new.Extends old := by
  obtain ⟨hs, _, rfl⟩ := build_eq_ok_iff.mp hold
  obtain ⟨hall, _, rfl⟩ := build_eq_ok_iff.mp hnew
  refine ⟨fun id type htype => ?_, identifiers, selectors⟩
  rw [assemble_getElem?] at htype
  obtain ⟨declared, hd, rfl⟩ := Option.map_eq_some_iff.mp htype
  refine ⟨complete declared (supplied id (steps ++ more)), ?_, complete_append_extends hs hall hd⟩
  rw [assemble_getElem?, declaredTypes_getElem?_append hd, Option.map_some]

end Continued

section Extension
variable {new old : Schema} {id : TypeId}

theorem Schema.Extends.typeAt (h : new.Extends old) (hid : id < old.size) :
    id < new.size ∧ (new.typeAt id).Extends (old.typeAt id) := by
  obtain ⟨found, hfound, hext⟩ := h.types id _ (getElem?_typeAt hid)
  rw [typeAt_of_getElem? hfound]
  exact ⟨(List.getElem?_eq_some_iff.mp hfound).1, hext⟩

theorem Schema.Extends.memberStep (h : new.Extends old) {member : TypeId}
    (hstep : old.MemberStep id member) : new.MemberStep id member := by
  by_cases hid : id < old.size
  · exact (h.typeAt hid).2.members hstep
  · have hnone : old.types[id]? = none := List.getElem?_eq_none (Nat.le_of_not_lt hid)
    simp [MemberStep, Schema.typeAt, List.getD, hnone, TypeDef.members] at hstep

theorem Schema.Extends.unionAcyclic (h : new.Extends old) (hac : new.UnionAcyclic) :
    old.UnionAcyclic := fun id hcircle =>
  hac id (Relation.TransGen.mono (fun _ _ hstep => h.memberStep hstep) id id hcircle)

mutual
theorem HasType.extend (h : new.Extends old) (hl : Linked old.types) {id : TypeId} {value : Json}
    (hid : id < old.size) (ht : HasType old id value) : HasType new id value := by
  obtain ⟨_, hext⟩ := h.typeAt hid
  match ht with
  | .primitive shape fits =>
    have hsame := hext.primitive.trans (TypeDef.primitive?_eq_some_iff.mpr shape)
    exact .primitive (TypeDef.primitive?_eq_some_iff.mp hsame) fits
  | .scalar shape fits =>
    have hsame := hext.kind.trans (TypeDef.kind_eq_scalar_iff.mpr shape)
    exact .scalar (TypeDef.kind_eq_scalar_iff.mp hsame) fits
  | @HasType.variant _ _ _ s shape declared =>
    have hkind : (old.typeAt id).kind = .enumeration := by rw [TypeDef.kind, shape, Shape.kind]
    have hin : s ∈ (old.typeAt id).variants := by rwa [TypeDef.variants, shape]
    exact .variant (TypeDef.kind_eq_enumeration_iff.mp (hext.kind.trans hkind)) (hext.variants hin)
  | .identifier shape accepted =>
    have hsame := hext.identifier.trans (TypeDef.identifier?_eq_some_iff.mpr shape)
    exact .identifier (TypeDef.identifier?_eq_some_iff.mp hsame) accepted
  | .struct shape declared fits =>
    have hkind : (old.typeAt id).kind = .struct := Literal.kind_eq_struct_iff.mpr ⟨_, shape⟩
    refine (Literal.hasType_struct_iff (hext.kind.trans hkind)).mpr fun name value hm => ?_
    obtain ⟨property, hp⟩ := Option.isSome_iff_exists.mp (declared name value hm)
    have hold : (old.typeAt id).property? name = some property := by
      rw [TypeDef.property?, TypeDef.properties, shape]
      exact hp
    obtain ⟨found, hfound, hextends⟩ := hext.properties name property hold
    have hknown : property.asField.type < old.size := (known_property hl (typeAt_mem hid) hold).1
    exact ⟨found, hfound, Fits.extend h hl hknown hextends.asField (fits name value property hm hp)⟩
  | .member step fits =>
    exact .member (h.memberStep step) (HasType.extend h hl (hl.member_lt hid step) fits)

theorem Fits.extend (h : new.Extends old) (hl : Linked old.types) {argument found : Argument}
    {value : Json} (hid : argument.type < old.size) (hext : found.Extends argument)
    (hf : Fits old argument value) : Fits new found value := by
  match hf with
  | .null optional => exact .null (hext.optional optional)
  | .single present list fits =>
    exact .single present (hext.list.trans list) (hext.type ▸ HasType.extend h hl hid fits)
  | .list list fits =>
    refine .list (hext.list.trans list) fun item hm => ?_
    rw [hext.type]
    exact HasType.extend h hl hid (fits item hm)
end

theorem address_iff_of_extends (h : new.Extends old) (hnew : Linked new.types)
    (hold : Linked old.types) (hid : id < old.size) {value : Json} :
    Paging.Address new id value ↔ Paging.Address old id value := by
  have hchecked : Paging.cursorFault? (old.typeAt id) (new.identifierFor? id) value = none ↔
      Paging.Address new id value := Paging.cursorFault?_eq_none_iff hnew
  rw [← hchecked, h.identifiers id hid]
  exact Paging.cursorFault?_eq_none_iff hold

section Node
variable {config : Config} {value : Json} {declaration found : Property}

theorem PagingConforms.extend (h : new.Extends old) (hnew : Linked new.types)
    (hold : Linked old.types) (hid : declaration.target < old.size)
    (hext : found.Extends declaration) (hc : PagingConforms config old declaration value) :
    PagingConforms config new found value := by
  obtain ⟨fields, rfl, chosen, values⟩ := hc
  refine ⟨fields, rfl, chosen, fun checked key value hm present => ?_⟩
  have hvalue := values checked key value hm present
  rw [Paging.hasValue_iff] at hvalue ⊢
  simpa only [hext.target, address_iff_of_extends h hnew hold hid] using hvalue

theorem ArgumentsConform.extend (h : new.Extends old) (hold : Linked old.types)
    (hk : (Site.property declaration).Known old) (hext : found.Extends declaration)
    (hc : ArgumentsConform config old declaration value) :
    ArgumentsConform config new found value := by
  obtain ⟨fields, rfl, fits⟩ := hc
  refine ⟨fields, rfl, fun name value hm => ?_⟩
  obtain ⟨argument, hargument, hfits⟩ := fits name value hm
  obtain ⟨kept, hkept, hargext⟩ := hext.arguments name argument hargument
  have hid := hk.2 name argument hargument
  exact ⟨kept, hkept, fun checked => Fits.extend h hold hid hargext (hfits checked)⟩

end Node

/-- The site of a node in the old schema, as it is found in the new one. -/
inductive Site.Extends : Site → Site → Prop
  | property {new old : Property} (kept : new.Extends old) : Extends (.property new) (.property old)
  | branch (member : TypeId) : Extends (.branch member) (.branch member)

section Sites
variable {config : Config} {value : Json} {site found : Site} {type kept : TypeDef}

theorem Site.Extends.target (h : new.Extends old) (hext : found.Extends site)
    (hk : site.Known old) : found.target new ∈ new.types ∧
      (found.target new).Extends (site.target old) := by
  cases hext with
  | @property newer older kept =>
    obtain ⟨hid, htype⟩ := h.typeAt hk.1
    rw [Site.target, kept.target]
    exact ⟨typeAt_mem hid, htype⟩
  | branch member =>
    obtain ⟨hid, htype⟩ := h.typeAt hk
    exact ⟨typeAt_mem hid, htype⟩

theorem Applies.extend (h : new.Extends old) (hext : found.Extends site) (hk : site.Known old)
    {key : String} (ha : Applies old site key) : Applies new found key := by
  obtain ⟨_, htype⟩ := hext.target h hk
  cases ha with
  | args =>
    cases hext with
    | property kept => exact .args _
  | listArgs list =>
    cases hext with
    | property kept => exact .listArgs (kept.list.trans list)
  | select properties =>
    obtain ⟨⟨name, property⟩, hm⟩ := List.exists_mem_of_ne_nil _ properties
    obtain ⟨_, hfound, _⟩ := htype.properties name property (NameMap.mem_entries_iff.mp hm)
    exact .select (List.ne_nil_of_mem (NameMap.mem_entries_iff.mpr hfound))
  | accept members =>
    obtain ⟨member, hm⟩ := List.exists_mem_of_ne_nil _ members
    exact .accept (List.ne_nil_of_mem (htype.members hm))

theorem Descent.LeadsTo.extend (h : new.Extends old) (hold : Linked old.types)
    (ht : type ∈ old.types) (htype : kept.Extends type) {descent : Descent} {name : String}
    (hleads : descent.LeadsTo old type name site) :
    ∃ found : Site, descent.LeadsTo new kept name found ∧ found.Extends site := by
  have hk := known_of_leadsTo hold ht hleads
  cases hleads with
  | @member id member =>
    rw [← (h.typeAt hk).2.name]
    exact ⟨.branch id, .member (htype.members member), .branch id⟩
  | property declared =>
    obtain ⟨found, hfound, hext⟩ := htype.properties _ _ declared
    exact ⟨.property found, .property hfound, .property hext⟩

/-- What a conforming node needs is found in the new schema as well. -/
theorem conforms_extend (hnew : Checkable config new) (hold : Linked old.types)
    (h : new.Extends old) (value : Json) :
    (∀ site found, Site.Extends found site → site.Known old → NodeConforms config old site value →
      NodeConforms config new found value) ∧
    (∀ descent type kept, TypeDef.Extends kept type → type ∈ old.types → kept ∈ new.types →
      NamesConform config old descent type value → NamesConform config new descent kept value) := by
  induction value using Json.induction with
  | null | bool | number | string | array =>
    refine ⟨fun site found _ _ hnode => ?_, fun descent type kept _ _ _ hnames => ?_⟩
    · cases hnode
    · cases hnames
  | object fields ih =>
    refine ⟨fun site found hext hk hnode => ?_, fun descent type kept htype ht hkept hnames => ?_⟩
    · obtain ⟨hmem, htarget⟩ := hext.target h hk
      obtain ⟨applicable, paging, arguments, names⟩ := hnode
      refine .node (fun key value hm => (applicable key value hm).extend h hext hk) ?_ ?_ ?_
      · rintro property rfl value hv
        obtain ⟨kept⟩ := hext
        exact (paging _ rfl value hv).extend h hnew.linked hold hk.1 kept
      · rintro property rfl value hv
        obtain ⟨kept⟩ := hext
        exact (arguments _ rfl value hv).extend h hold hk kept
      · intro descent value hv
        have hconforms := names descent value hv
        exact (ih _ value (mem_of_lookup hv)).2 descent _ _ htarget hk.target_mem hmem hconforms
    · obtain ⟨inhabited, declared, nodes⟩ := hnames
      refine .names inhabited (fun name value hm => ?_) fun name value found hm hfound => ?_
      · obtain ⟨site, hsite⟩ := declared name value hm
        obtain ⟨found, hfound, _⟩ := hsite.extend h hold ht htype
        exact ⟨found, hfound⟩
      · obtain ⟨site, hsite⟩ := declared name value hm
        obtain ⟨next, hnext, hext⟩ := hsite.extend h hold ht htype
        -- names are distinct in the new schema, so an added member does not hide the old one
        have hunique : ∀ site, descent.LeadsTo new kept name site →
            descent.site? new kept name = some site :=
          fun site => (site?_eq_some_iff hnew.linked hnew.distinct hkept).mpr
        obtain rfl : next = found :=
          Option.some.inj ((hunique next hnext).symm.trans (hunique found hfound))
        have hk := known_of_leadsTo hold ht hsite
        exact (ih name value hm).1 site next hext hk (nodes name value site hm hsite)

end Sites

theorem Schema.Extends.rootProperty? (h : new.Extends old) (hroot : 0 < old.size) {name : String}
    {property : Property} (hp : old.rootProperty? name = some property) :
    ∃ found, new.rootProperty? name = some found ∧ found.Extends property :=
  (h.typeAt hroot).2.properties name property hp

theorem Requests.extend (h : new.Extends old) (hroot : 0 < old.size) {config : Config}
    {key name : String} {property : Property} (hr : Requests config old key name property) :
    ∃ found, Requests config new key name found ∧ found.Extends property := by
  cases hr with
  | named declared =>
    obtain ⟨found, hfound, hext⟩ := h.rootProperty? hroot declared
    exact ⟨found, .named hfound, hext⟩
  | aliased allowed unnamed written declared =>
    obtain ⟨found, hfound, hext⟩ := h.rootProperty? hroot declared
    have hunnamed : new.rootProperty? key = none := by
      by_contra hnamed
      have hnone := h.selectors key unnamed (Option.isSome_iff_ne_none.mpr hnamed)
      rw [written] at hnone
      cases hnone
    exact ⟨found, .aliased allowed hunnamed written hfound, hext⟩

theorem DocumentConforms.extend {config : Config} (hnew : Checkable config new)
    (hold : Checkable config old) (h : new.Extends old) {document : Json}
    (hd : DocumentConforms config old document) : DocumentConforms config new document := by
  obtain ⟨fields, rfl, entries⟩ := hd
  refine ⟨fields, rfl, fun key value hm => ?_⟩
  obtain ⟨name, property, hr, hnode⟩ := entries key value hm
  obtain ⟨found, hfound, hext⟩ := hr.extend h hold.rooted
  have hkept := (conforms_extend hnew hold.linked h value).1 _ _ (.property hext) (hr.known hold)
  exact ⟨name, found, hfound, hkept hnode⟩

/-- A document that is accepted under a schema is accepted under every extension of it. -/
theorem validate_accepts_of_extends {oldSteps newSteps : List Step}
    (hold : build oldSteps = .ok old) (hnew : build newSteps = .ok new) (h : new.Extends old)
    (config : Config) (hac : config.checkLiterals = true → new.UnionAcyclic) (document : Json)
    (hv : validate config old document = .ok ()) : validate config new document = .ok () := by
  have hcheck := checkable_of_build hnew hac
  have hcheckOld := checkable_of_build hold fun hc => h.unionAcyclic (hac hc)
  rw [validate_eq_ok_iff] at hv ⊢
  have hconforms := (clean_document_iff hcheckOld document).mp hv
  exact (clean_document_iff hcheck document).mpr (hconforms.extend hcheck hcheckOld h)

end Extension

namespace Schema.UserGraph

def pet : TypeId := 12

/-- The social graph grows: there are pets, at the top and of users, and a partner may be given by
a name. -/
def growth : List Step :=
  [.declare "Pet" .struct,
   .define pet { properties := [("name", { target := text })] },
   .define rootId { properties := [("pets", { target := pet, list := true })] },
   .define user { properties := [("pets", { target := pet, list := true })] },
   .define userOrString { members := [personName] }]

end Schema.UserGraph

def Schema.grownGraph : Schema := ⟨assemble (UserGraph.steps ++ UserGraph.growth)⟩

theorem Schema.grownGraph_extends : grownGraph.Extends userGraph := by
  have hold : build UserGraph.steps = .ok userGraph := rfl
  have hnew : build (UserGraph.steps ++ UserGraph.growth) = .ok grownGraph := rfl
  refine build_append_extends hold hnew (fun id hid => ?_) fun name hname hadded => ?_
  · have hid : id < 12 := hid
    interval_cases id <;> rfl
  · obtain ⟨property, hp⟩ := Option.isSome_iff_exists.mp hadded
    have hin : name ∈ grownGraph.root.properties.entries.map Prod.fst :=
      List.mem_map_of_mem (NameMap.mem_entries_iff.mpr hp)
    have hnames : grownGraph.root.properties.entries.map Prod.fst = ["pets", "users"] := rfl
    rw [hnames, List.mem_cons, List.mem_singleton] at hin
    rcases hin with rfl | rfl
    · decide +kernel
    · cases hname

theorem userQuery_accepted_after_growth :
    build UserGraph.steps = .ok userGraph ∧
      build (UserGraph.steps ++ UserGraph.growth) = .ok grownGraph ∧
      grownGraph.Extends userGraph ∧ grownGraph.UnionAcyclic ∧
      validate {} userGraph userQuery = .ok () ∧ validate {} grownGraph userQuery = .ok () := by
  have hold : build UserGraph.steps = .ok userGraph := rfl
  have hnew : build (UserGraph.steps ++ UserGraph.growth) = .ok grownGraph := rfl
  have hac : grownGraph.UnionAcyclic := unionAcyclic_of_lt (by decide)
  have hv : validate {} userGraph userQuery = .ok () := by decide +kernel
  exact ⟨hold, hnew, grownGraph_extends, hac, hv,
    validate_accepts_of_extends hold hnew grownGraph_extends {} (fun _ => hac) userQuery hv⟩

end SelectionQuery
