import SelectionQuery.Proofs.DocumentGrammar
import SelectionQuery.Proofs.FirstViolation
import SelectionQuery.Proofs.GuardedLiteral

/-! # Guarded runs of a validation

Over what a build leaves, a run of the walk reads no stray handle, and if it ends, it ends with the
first violation of the total walk. The recursion through nodes goes into the document at every
second call, whatever the types do; only the values of arguments may keep a run from its end.
-/
namespace SelectionQuery

namespace Guarded
open Schema Outcome

/-- The table holds types with the contents of their kinds, and all that is stored with them is what
the total functions compute. -/
structure Frozen.Faithful (frozen : Frozen) : Prop where
  placed : ∀ type ∈ frozen.types, type.toSketch = .ofType type.type
  nodes : ∀ type ∈ frozen.types, ∀ name property, type.properties.get? name = some property →
    type.nodeAttributes name = frozen.schema.applicable property
  branch : ∀ type ∈ frozen.types, type.branch = type.type.branchAttributes
  linked : Linked frozen.schema.types
  rooted : 0 < frozen.schema.size
  known : ∀ entity id, frozen.identifiers.lookup entity = some id → id < frozen.schema.size
  identifiers : ∀ entity,
    (frozen.identifiers.lookup entity).map frozen.schema.typeAt = frozen.schema.identifierFor? entity

namespace Frozen
variable {frozen : Frozen} {type : FrozenType}

theorem Faithful.property? (hf : frozen.Faithful) (ht : type ∈ frozen.types) (name : String) :
    type.properties.get? name = type.type.property? name :=
  congrArg (fun sketch => sketch.properties.get? name) (hf.placed type ht)

theorem Faithful.members (hf : frozen.Faithful) (ht : type ∈ frozen.types) :
    type.members = type.type.members := congrArg Sketch.members (hf.placed type ht)

theorem type_mem (ht : type ∈ frozen.types) : type.type ∈ frozen.schema.types :=
  List.mem_map_of_mem ht

theorem Faithful.member_lt (hf : frozen.Faithful) (ht : type ∈ frozen.types) {member : TypeId}
    (hm : member ∈ type.type.members) : member < frozen.schema.size :=
  hf.linked.known _ (type_mem ht) member (mem_references_iff.mpr (.inr (.inl hm)))

theorem exists_read {id : TypeId} (h : id < frozen.schema.size) :
    ∃ type ∈ frozen.types, read frozen.types id = .done type ∧ type.type = frozen.schema.typeAt id := by
  have hid : id < frozen.types.length := by simpa [Schema.size, schema] using h
  have hget := List.getElem?_eq_getElem hid
  refine ⟨_, List.getElem_mem hid, read_of_getElem? hget, (typeAt_of_getElem? ?_).symm⟩
  rw [schema, List.getElem?_map, hget, Option.map_some]

end Frozen

namespace Run
variable {run : Run} {enough : Recursion → Prop} {type : FrozenType} {path : Path} {value : Json}
  {fields : List (String × Json)}

/-- The calls are enough for literals of this height. -/
def Suffices (run : Run) (height : Nat) : Prop :=
  run.config.checkLiterals = true →
    run.schema.UnionAcyclic ∧ callsFor run.schema height ≤ run.literalCalls

theorem Suffices.mono {height lower : Nat} (h : run.Suffices height) (hle : lower ≤ height) :
    run.Suffices lower := by
  intro hc
  obtain ⟨hac, hcalls⟩ := h hc
  exact ⟨hac, (Nat.mul_le_mul_left _ (Nat.succ_le_succ hle)).trans hcalls⟩

theorem identifierFor?_eq (hf : run.frozen.Faithful) (entity : TypeId) :
    run.identifierFor? entity = .done (run.schema.identifierFor? entity) := by
  have hfound := hf.identifiers entity
  unfold identifierFor?
  cases hid : run.frozen.identifiers.lookup entity with
  | none =>
    rw [hid] at hfound
    exact congrArg done hfound
  | some id =>
    rw [hid] at hfound
    obtain ⟨type, _, hread, htype⟩ := Frozen.exists_read (hf.known entity id hid)
    simp only [hread, done_bind, htype]
    exact congrArg done hfound

theorem settles_unionMember? (hf : run.frozen.Faithful) (ht : type ∈ run.frozen.types)
    (name : String) :
    (run.unionMember? type name).Settles enough (run.schema.unionMember? type.type name) := by
  have hguard : run.schema.unionMember? type.type name = type.type.members.findSome? fun id =>
      Option.guard (fun _ => (run.schema.typeAt id).name == name) id :=
    List.findSome?_guard.symm
  rw [hguard, unionMember?, hf.members ht]
  refine settles_first _ fun id hm => ?_
  obtain ⟨member, _, hread, hmember⟩ := Frozen.exists_read (hf.member_lt ht hm)
  rw [hread, schema, ← hmember]
  exact settles_done _

theorem settles_site? (hf : run.frozen.Faithful) (ht : type ∈ run.frozen.types) (name : String)
    (descent : Descent) : (run.site? type name descent).Settles enough
      ((descent.site? run.schema type.type name).map fun site => (site, site.attributes run.schema)) := by
  cases descent with
  | accept =>
    refine (settles_unionMember? hf ht name).bind ?_
    rw [Descent.site?]
    cases hfound : run.schema.unionMember? type.type name with
    | none => exact settles_done none
    | some id =>
      have hm : id ∈ type.type.members := List.mem_of_find?_eq_some hfound
      obtain ⟨member, hmember, hread, htype⟩ := Frozen.exists_read (hf.member_lt ht hm)
      have hbranch : member.branch = (Site.branch id).attributes run.schema := by
        rw [hf.branch member hmember, htype]
        rfl
      simp only [hread, done_bind, hbranch]
      exact settles_done _
  | select =>
    have hfound := hf.property? ht name
    rw [site?, Descent.site?, Option.map_map, ← hfound]
    cases hp : type.properties.get? name with
    | none => exact settles_done none
    | some property =>
      rw [Option.map_some, hf.nodes type ht name property hp]
      exact settles_done _

theorem settles_under {key : String} {check : Json → Outcome (Option Violation)}
    {found : Json → Option Violation}
    (h : ∀ value, (key, value) ∈ fields → (check value).Settles enough (found value)) :
    (under fields key check).Settles enough ((fields.lookup key).bind found) := by
  unfold under
  cases hv : fields.lookup key with
  | none => exact settles_done none
  | some value => exact h value (mem_of_lookup hv)

theorem settles_paging (hf : run.frozen.Faithful) {property : Property}
    (htype : type.type = run.schema.typeAt property.target) :
    (run.paging property type path value).Settles enough
      (Walk.pagingViolation? run.config run.schema property path value) := by
  unfold paging Walk.pagingViolation?
  rw [htype]
  cases value with
  | object fields =>
    simp only [Option.orElse_eq_orElse, Option.orElse_eq_or, identifierFor?_eq hf]
    refine (settles_done _).first_pair ?_
    split
    · exact settles_done _
    · exact settles_done none
  | null | bool | number | string | array => exact settles_done _

theorem settles_arguments (hf : run.frozen.Faithful) {property : Property}
    (hk : (Site.property property).Known run.schema)
    (hliteral : enough .literal → run.Suffices value.height) :
    (run.arguments property path value).Settles enough
      (Walk.argumentsViolation? run.config run.schema property path value) := by
  unfold arguments Walk.argumentsViolation?
  cases value with
  | object fields =>
    refine settles_first _ fun entry hm => ?_
    rcases entry with ⟨name, value⟩
    cases ha : property.arguments.get? name with
    | none => simp only [ha, settles_done]
    | some declaration =>
      simp only [ha]
      by_cases hc : run.config.checkLiterals = true
      · simp only [hc, if_true]
        have hsettle := (literals_settle hf.linked enough run.literalCalls).1
        refine hsettle declaration (path.extend name) value (hk.2 name declaration ha) fun hen => ?_
        exact (hliteral hen).mono (Json.height_lt_of_mem_fields hm).le hc
      · simp only [hc, Bool.false_eq_true, if_false, settles_done]
  | null | bool | number | string | array => exact settles_done _

theorem settles_own (hf : run.frozen.Faithful) {site : Site} (hk : site.Known run.schema)
    (htype : type.type = site.target run.schema)
    (hliteral : enough .literal → run.Suffices (Json.object fields).height) :
    (run.own type path fields site).Settles enough
      (Walk.ownViolation? run.config run.schema path fields site) := by
  cases site with
  | property property =>
    rw [Walk.ownViolation?, Option.orElse_eq_orElse, Option.orElse_eq_or]
    refine Settles.first_pair (settles_under fun value hm => settles_paging hf htype)
      (settles_under fun value hm => settles_arguments hf hk fun hen => ?_)
    exact (hliteral hen).mono (Json.height_lt_of_mem_fields hm).le
  | branch member => exact settles_done none

theorem known_of_site? {schema : Schema} (hl : Linked schema.types) {type : TypeDef}
    (ht : type ∈ schema.types) {descent : Descent} {name : String} {site : Site}
    (h : descent.site? schema type name = some site) : site.Known schema := by
  cases descent with
  | accept =>
    obtain ⟨member, hm, rfl⟩ := Option.map_eq_some_iff.mp h
    exact hl.known type ht member (mem_references_iff.mpr (.inr (.inl (List.mem_of_find?_eq_some hm))))
  | select =>
    obtain ⟨property, hp, rfl⟩ := Option.map_eq_some_iff.mp h
    exact known_property hl ht hp

/-- What the walk from a node comes to with so many calls. Three calls lead from a node to the nodes
under its names, two levels further down, so twice the height of the node is enough. -/
def NodesSettle (run : Run) (enough : Recursion → Prop) (calls : Nat) : Prop :=
  ∀ site path value, site.Known run.schema → (enough .walk → 2 * value.height + 2 ≤ calls) →
    (enough .literal → run.Suffices value.height) →
    (run.node site (site.attributes run.schema) path value calls).Settles enough
      (Event.first? (Walk.node run.config run.schema site path value))

def ShapesSettle (run : Run) (enough : Recursion → Prop) (calls : Nat) : Prop :=
  ∀ type path fields, type ∈ run.frozen.types →
    (enough .walk → 2 * (Json.object fields).height + 1 ≤ calls) →
    (enough .literal → run.Suffices (Json.object fields).height) →
    (run.shape type path fields calls).Settles enough
      ((Event.first? (Walk.below run.config run.schema .accept type.type path fields)).or
        (Event.first? (Walk.below run.config run.schema .select type.type path fields)))

def NamesSettle (run : Run) (enough : Recursion → Prop) (calls : Nat) : Prop :=
  ∀ descent type path value, type ∈ run.frozen.types →
    (enough .walk → 2 * value.height + 2 ≤ calls) →
    (enough .literal → run.Suffices value.height) →
    (run.names descent type path value calls).Settles enough
      (Event.first? (Walk.names run.config run.schema descent type.type path value))

variable {calls : Nat}

theorem nodesSettle_succ (hf : run.frozen.Faithful) (h : ShapesSettle run enough calls) :
    NodesSettle run enough (calls + 1) := by
  intro site path value hk hwalk hliteral
  cases value with
  | object fields =>
    rw [node]
    cases hkeys : Walk.unexpectedKey? (site.attributes run.schema) fields with
    | some key =>
      rw [Walk.node, hkeys]
      exact settles_done _
    | none =>
      have hlt : site.handle < run.schema.size := by
        cases site with
        | property property => exact hk.1
        | branch member => exact hk
      have htarget : run.schema.typeAt site.handle = site.target run.schema := by cases site <;> rfl
      obtain ⟨type, ht, hread, htype⟩ := Frozen.exists_read hlt
      simp only [hread, done_bind]
      rw [Walk.first?_node hkeys, ← htarget]
      refine (settles_own hf hk (htype.trans htarget) hliteral).first_pair ?_
      rw [schema, ← htype]
      exact h type path fields ht (fun hen => by have := hwalk hen; omega) hliteral
  | null | bool | number | string | array =>
    rw [node, Walk.node_of_not_object (by simp)]
    · exact settles_done _
    · simp

theorem shapesSettle_succ (h : NamesSettle run enough calls) :
    ShapesSettle run enough (calls + 1) := by
  intro type path fields ht hwalk hliteral
  have hnames : ∀ descent : Descent,
      (under fields descent.key fun value => run.names descent type path value calls).Settles enough
        (Event.first? (Walk.below run.config run.schema descent type.type path fields)) := by
    intro descent
    rw [Walk.first?_below]
    refine settles_under fun value hm => ?_
    have hlt := Json.height_lt_of_mem_fields hm
    refine h descent type path value ht (fun hen => ?_) fun hen => (hliteral hen).mono hlt.le
    have hneed := hwalk hen
    omega
  rw [shape]
  exact (hnames .accept).first_pair (hnames .select)

theorem namesSettle_succ (hf : run.frozen.Faithful) (h : NodesSettle run enough calls) :
    NamesSettle run enough (calls + 1) := by
  intro descent type path value ht hwalk hliteral
  cases value with
  | object fields =>
    cases hempty : fields.isEmpty with
    | true =>
      rw [names, Walk.names, hempty]
      exact settles_done _
    | false =>
      have hsite : ∀ name, (run.site? type name descent).Settles enough
          ((descent.site? run.schema type.type name).map fun site =>
            (site, site.attributes run.schema)) :=
        fun name => settles_site? hf ht name descent
      rw [names, hempty, Walk.first?_names descent hempty, ← Walk.findSome?_undeclared,
        Walk.first?_nodes]
      refine Settles.first_pair (settles_first _ fun entry hm => ?_)
        (settles_first _ fun entry hm => ?_)
      · refine (hsite entry.1).bind ?_
        rw [Option.isNone_map]
        exact settles_done _
      · rcases entry with ⟨name, value⟩
        refine (hsite name).bind ?_
        cases hs : descent.site? run.schema type.type name with
        | none => exact settles_done none
        | some site =>
          have hlt := Json.height_lt_of_mem_fields hm
          have hk := known_of_site? hf.linked (Frozen.type_mem ht) hs
          refine h site (path.extend name) value hk (fun hen => ?_)
            fun hen => (hliteral hen).mono hlt.le
          have hneed := hwalk hen
          omega
  | null | bool | number | string | array =>
    rw [names, Walk.names_of_not_object (by simp)]
    · exact settles_done _
    · simp

theorem walk_settles (hf : run.frozen.Faithful) (enough : Recursion → Prop) (calls : Nat) :
    NodesSettle run enough calls ∧ ShapesSettle run enough calls ∧ NamesSettle run enough calls := by
  induction calls with
  | zero =>
    refine ⟨?_, ?_, ?_⟩
    · intro site path value _ hwalk _ hen
      have hneed := hwalk hen
      omega
    · intro type path fields _ hwalk _ hen
      have hneed := hwalk hen
      omega
    · intro descent type path value _ hwalk _ hen
      have hneed := hwalk hen
      omega
  | succ calls ih =>
    obtain ⟨hnode, hshape, hnames⟩ := ih
    exact ⟨nodesSettle_succ hf hshape, shapesSettle_succ hnames, namesSettle_succ hf hnode⟩

theorem rootProperty?_eq (hf : run.frozen.Faithful) (name : String) :
    run.rootProperty? name = .done ((run.schema.rootProperty? name).map fun property =>
      (property, run.schema.applicable property)) := by
  obtain ⟨root, hm, hread, hroot⟩ := Frozen.exists_read hf.rooted
  have hproperty : run.schema.rootProperty? name = root.properties.get? name := by
    rw [hf.property? hm, hroot]
    rfl
  have hread' : read run.frozen.types rootId = .done root := hread
  rw [rootProperty?, hread', hproperty]
  cases hp : root.properties.get? name with
  | none => simp only [done_bind, hp, Option.map_none]
  | some property =>
    simp only [done_bind, hp, Option.map_some, hf.nodes root hm name property hp]
    rfl

theorem settles_entry (hf : run.frozen.Faithful) {key : String}
    (hwalk : enough .walk → 2 * value.height + 2 ≤ calls)
    (hliteral : enough .literal → run.Suffices value.height) :
    (run.entry key value calls).Settles enough
      (Event.first? (Walk.entry run.config run.schema key value)) := by
  have hnode : ∀ name property, run.schema.rootProperty? name = some property →
      (run.node (.property property) (run.schema.applicable property) (Path.root.extend name) value
        calls).Settles enough
        (Event.first? (Walk.node run.config run.schema (.property property)
          (Path.root.extend name) value)) := by
    intro name property hp
    have hk := known_property hf.linked (typeAt_mem hf.rooted) hp
    exact (walk_settles hf enough calls).1 _ _ value hk hwalk hliteral
  rw [entry, rootProperty?_eq hf, Walk.entry]
  refine (settles_done _).bind ?_
  cases hp : run.schema.rootProperty? key with
  | some property => exact hnode key property hp
  | none =>
    cases Walk.aliased? run.config key with
    | none => exact settles_done _
    | some selector =>
      simp only [rootProperty?_eq hf]
      refine (settles_done _).bind ?_
      cases hp : run.schema.rootProperty? selector.property with
      | none => exact settles_done _
      | some property => exact hnode selector.property property hp

/-- A run of a whole validation: the calls of the walk are counted by the document alone. -/
theorem settles_validate (hf : run.frozen.Faithful) {document : Json}
    (hwalk : enough .walk → 2 * document.height ≤ calls)
    (hliteral : enough .literal → run.Suffices document.height) :
    (run.validate document calls).Settles enough
      (SelectionQuery.validate run.config run.schema document) := by
  have hfirst : (run.document document calls).Settles enough
      (Event.first? (Walk.document run.config run.schema document)) := by
    cases document with
    | object fields =>
      rw [Run.document, Walk.document, Event.first?_flatMap]
      refine settles_first _ fun entry hm => ?_
      rcases entry with ⟨key, value⟩
      have hlt := Json.height_lt_of_mem_fields hm
      refine settles_entry hf (fun hen => ?_) fun hen => (hliteral hen).mono hlt.le
      have hneed := hwalk hen
      omega
    | null | bool | number | string | array => exact settles_done _
  refine hfirst.bind ?_
  unfold SelectionQuery.validate Event.first?
  cases (Walk.document run.config run.schema document).findSome? Event.violation? with
  | none => exact settles_done _
  | some violation => exact settles_done _

end Run
end Guarded
end SelectionQuery
