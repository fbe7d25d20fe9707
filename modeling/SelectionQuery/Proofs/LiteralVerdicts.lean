import SelectionQuery.Proofs.Termination

/-! # Verdicts on literals

The check of an argument decides whether its value fits by the rules of typing. A union accepts what
one of its leaves accepts, so nothing but the leaves shows in a verdict: neither the order in which
members are declared nor unions between a union and its leaves, and this across schemas that share
the leaves. A union that refuses a value says so at its own place.
-/
namespace SelectionQuery
open Schema

/-- The check of arguments decides the rules of fitting, also if it follows the members of a union
one by one, and the check of literals decides the rules of typing. -/
theorem argument_check_decides_fit {steps : List Step} {schema : Schema}
    (h : build steps = .ok schema) (hac : schema.UnionAcyclic) {argument : Argument}
    (hid : argument.type < schema.size) (path : Path) (value : Json) :
    (Literal.argumentViolation? schema argument path value = none ↔ Fits schema argument value) ∧
    (Literal.violation? schema path (schema.typeAt argument.type) value = none ↔
      HasType schema argument.type value) ∧
    ∀ calls, Guarded.callsFor schema value.height ≤ calls →
      (Guarded.argument schema argument path value calls = .done none ↔ Fits schema argument value) := by
  have hl := linked_of_build h
  have hfits := Literal.argumentViolation?_eq_none_iff_fits hl hac hid path value
  refine ⟨hfits, Literal.violation?_eq_none_iff_hasType hl hac hid path value, fun calls hcalls => ?_⟩
  rw [(Guarded.literalsEnd hl hac).argument argument path value calls hid hcalls, ← hfits,
    Guarded.Outcome.done.injEq]

def filterFields (level tag condition : TypeId) : List (String × Property) :=
  [("level", { target := level }), ("tags", { target := tag, list := true }),
   ("other", { target := condition })]

def filterSteps : List Step :=
  [.declare "Tag" .enumeration,
   .primitive .int32,
   .declare "Filter" .struct,
   .declare "Condition" .union,
   .define 1 { variants := ["new", "old"] },
   .define 3 { properties := filterFields 2 1 4 },
   .define 4 { members := [3, 1] },
   .define rootId { properties := [("find",
     { target := 1, arguments := .ofList [("where", { type := 4 })] })] }]

def filterGraph : Schema := ⟨assemble filterSteps⟩

def nestedFilter (level : Int) (tag : String) : Json :=
  .object [("tags", .array []), ("other", .object
    [("level", .number (.integer level)), ("tags", .array [.string tag]), ("other", .null)])]

theorem nestedFilter_fits :
    build filterSteps = .ok filterGraph ∧ filterGraph.UnionAcyclic ∧
      Fits filterGraph { type := 4 } (nestedFilter (-2147483648) "new") ∧
      ¬Fits filterGraph { type := 4 } (nestedFilter 2147483648 "new") ∧
      ¬Fits filterGraph { type := 4 } (nestedFilter 0 "blue") := by
  have hbuilt : build filterSteps = .ok filterGraph := rfl
  have hac : filterGraph.UnionAcyclic := unionAcyclic_of_lt (by decide)
  have hverdict : ∀ value, (Literal.argumentViolation? filterGraph { type := 4 } .root value).isNone =
      true ↔ Fits filterGraph { type := 4 } value := by
    intro value
    rw [Option.isNone_iff_eq_none]
    exact (argument_check_decides_fit hbuilt hac (by decide) .root value).1
  simp only [← hverdict]
  exact ⟨hbuilt, hac, by decide +kernel, by decide +kernel, by decide +kernel⟩

/-- Every leaf of either type is paired with one of the other. -/
def SameLeaves (first second : Schema) (same : TypeId → TypeId → Prop) (id other : TypeId) : Prop :=
  (∀ leaf, first.Leaf id leaf → ∃ twin, second.Leaf other twin ∧ same leaf twin) ∧
  ∀ twin, second.Leaf other twin → ∃ leaf, first.Leaf id leaf ∧ same leaf twin

/-- Shapes without unions that have the same values, if the targets of their fields do. -/
inductive SameShape (alike : TypeId → TypeId → Prop) : Shape → Shape → Prop
  | primitive (builtin : Primitive) : SameShape alike (.primitive builtin) (.primitive builtin)
  | scalar : SameShape alike .scalar .scalar
  | enumeration (variants : List String) :
      SameShape alike (.enumeration variants) (.enumeration variants)
  | entityId {identifier twin : Identifier} (rule : identifier.rule = twin.rule) :
      SameShape alike (.entityId identifier) (.entityId twin)
  | record (role : Role) {properties twins : NameMap Property}
      (fields : ∀ name, Option.Rel (fun property twin => property.list = twin.list ∧
        alike property.target twin.target) (properties.get? name) (twins.get? name)) :
      SameShape alike (.record role properties) (.record role twins)
  | trait : SameShape alike .trait .trait

/-- Two schemas share the types that are paired: they have the same shape, and so has all that their
fields lead to, where a union is seen by its leaves only. -/
def SharedTypes (first second : Schema) (same : TypeId → TypeId → Prop) : Prop :=
  ∀ leaf twin, same leaf twin →
    SameShape (SameLeaves first second same) (first.typeAt leaf).shape (second.typeAt twin).shape

section Sharing
variable {first second : Schema} {same : TypeId → TypeId → Prop} {id other : TypeId} {value : Json}

/-! The leaves of a type follow its members, so they can be listed. -/

theorem leaf_iff_of_not_union {schema : Schema} {leaf : TypeId}
    (h : (schema.typeAt id).kind ≠ .union) : schema.Leaf id leaf ↔ leaf = id := by
  constructor
  · rintro ⟨hreach, _⟩
    rcases hreach.cases_head with rfl | ⟨member, hstep, _⟩
    · rfl
    · obtain ⟨members, hs, _⟩ := hstep.shape
      exact absurd (kind_eq_union_iff.mpr ⟨members, hs⟩) h
  · rintro rfl
    exact leaf_self h

theorem leaf_iff_of_union {schema : Schema} {leaf : TypeId} (h : (schema.typeAt id).kind = .union) :
    schema.Leaf id leaf ↔ ∃ member ∈ (schema.typeAt id).members, schema.Leaf member leaf := by
  constructor
  · rintro ⟨hreach, hk⟩
    rcases hreach.cases_head with rfl | ⟨member, hstep, hrest⟩
    · exact absurd h hk
    · exact ⟨member, hstep, hrest, hk⟩
  · rintro ⟨member, hm, hreach, hk⟩
    exact ⟨.head hm hreach, hk⟩

theorem sameLeaves_of_not_union (hid : (first.typeAt id).kind ≠ .union)
    (hother : (second.typeAt other).kind ≠ .union) (h : same id other) :
    SameLeaves first second same id other := by
  simpa only [SameLeaves, leaf_iff_of_not_union hid, leaf_iff_of_not_union hother, forall_eq,
    exists_eq_left, and_self] using h

/-! Sharing is symmetric, so it is enough to carry values one way. -/

theorem SameShape.symm {alike alike' : TypeId → TypeId → Prop}
    (h : ∀ id other, alike id other → alike' other id) {shape twin : Shape}
    (hs : SameShape alike shape twin) : SameShape alike' twin shape := by
  cases hs with
  | primitive builtin => exact .primitive builtin
  | scalar => exact .scalar
  | enumeration variants => exact .enumeration variants
  | entityId rule => exact .entityId rule.symm
  | @record role properties twins fields =>
    refine .record role fun name => ?_
    have hrel := fields name
    generalize properties.get? name = property, twins.get? name = twin at hrel ⊢
    cases hrel with
    | some hfield => exact .some ⟨hfield.1.symm, h _ _ hfield.2⟩
    | none => exact .none
  | trait => exact .trait

theorem SharedTypes.symm (h : SharedTypes first second same) :
    SharedTypes second first fun twin leaf => same leaf twin :=
  fun twin leaf hsame => (h leaf twin hsame).symm fun _ _ hleaves => ⟨hleaves.2, hleaves.1⟩

/-- A value of a type of the first schema has every type of the second one that has all its leaves. -/
def Carried (first second : Schema) (same : TypeId → TypeId → Prop) (value : Json) : Prop :=
  ∀ id other, (∀ leaf, first.Leaf id leaf → ∃ twin, second.Leaf other twin ∧ same leaf twin) →
    HasType first id value → HasType second other value

def CarriedItems (first second : Schema) (same : TypeId → TypeId → Prop) (value : Json) : Prop :=
  ∀ items, value = .array items → ∀ item ∈ items, Carried first second same item

theorem Fits.carry {property twin : Property} (hvalue : Carried first second same value)
    (hitems : CarriedItems first second same value) (hlist : property.list = twin.list)
    (htarget : SameLeaves first second same property.target twin.target)
    (h : Fits first property.asField value) : Fits second twin.asField value := by
  cases h with
  | null => exact .null rfl
  | single present list fits =>
    exact .single present (hlist.symm.trans list) (hvalue _ _ htarget.1 fits)
  | list list fits =>
    exact .list (hlist.symm.trans list) fun item hm => hitems _ rfl item hm _ _ htarget.1 (fits item hm)

theorem SameShape.holds {shape twin : Shape}
    (h : SameShape (SameLeaves first second same) shape twin)
    (hfields : ∀ fields, value = .object fields → ∀ name field, (name, field) ∈ fields →
      Carried first second same field ∧ CarriedItems first second same field)
    (hv : shape.Holds first value) : twin.Holds second value := by
  cases h with
  | primitive | scalar | enumeration | trait => exact hv
  | entityId rule =>
    rw [Shape.Holds, rule] at hv
    exact hv
  | @record role _ twins fields =>
    cases role with
    | root | entity => exact hv
    | struct =>
      obtain ⟨entries, rfl, hentries⟩ := hv
      refine ⟨entries, rfl, fun name field hm => ?_⟩
      obtain ⟨property, hp, hfits⟩ := hentries name field hm
      obtain ⟨hfield, hitems⟩ := hfields entries rfl name field hm
      have hrel := fields name
      rw [hp] at hrel
      generalize twins.get? name = twin at hrel ⊢
      obtain ⟨hlist, htarget⟩ := hrel
      exact ⟨_, rfl, hfits.carry hfield hitems hlist htarget⟩

theorem carried_of_fields (h : SharedTypes first second same)
    (hfields : ∀ fields, value = .object fields → ∀ name field, (name, field) ∈ fields →
      Carried first second same field ∧ CarriedItems first second same field) :
    Carried first second same value := by
  intro id other hleaves hv
  obtain ⟨leaf, hleaf, hv⟩ := hasType_iff_leaf.mp hv
  obtain ⟨twin, htwin, hsame⟩ := hleaves leaf hleaf
  have hholds := (h leaf twin hsame).holds hfields (hasType_iff_holds.mp hv)
  exact hasType_iff_leaf.mpr ⟨twin, htwin, hasType_iff_holds.mpr hholds⟩

theorem carried_and_items (h : SharedTypes first second same) (value : Json) :
    Carried first second same value ∧ CarriedItems first second same value := by
  induction value using Json.induction with
  | null | bool | number | string => exact ⟨carried_of_fields h nofun, nofun⟩
  | array items ih =>
    refine ⟨carried_of_fields h nofun, fun list heq item hm => ?_⟩
    cases heq
    exact (ih item hm).1
  | object fields ih =>
    refine ⟨carried_of_fields h fun list heq name field hm => ?_, nofun⟩
    cases heq
    exact ih name field hm

/-- Types with the same leaves have the same values. -/
theorem hasType_iff_of_sameLeaves (h : SharedTypes first second same)
    (hleaves : SameLeaves first second same id other) :
    HasType first id value ↔ HasType second other value :=
  ⟨(carried_and_items h value).1 id other hleaves.1,
    (carried_and_items h.symm value).1 other id hleaves.2⟩

end Sharing

variable {schema : Schema} {union : TypeId}

/-- A type accepts what one of its leaves accepts. -/
theorem accepts_iff_leaf (hl : Linked schema.types) (hac : schema.UnionAcyclic) {id : TypeId}
    (hid : id < schema.size) (path : Path) (value : Json) :
    Literal.violation? schema path (schema.typeAt id) value = none ↔
      ∃ leaf, schema.Leaf id leaf ∧
        Literal.violation? schema path (schema.typeAt leaf) value = none := by
  -- a derivation goes down a chain of members, whatever the order in which they are tried
  rw [Literal.violation?_eq_none_iff_hasType hl hac hid, hasType_iff_leaf]
  refine exists_congr fun leaf => and_congr_right fun hleaf => ?_
  have hlt := hl.reach_lt hid hleaf.1
  exact (Literal.violation?_eq_none_iff_hasType hl hac hlt path value).symm

theorem accepts_iff_member (hl : Linked schema.types) (hid : union < schema.size)
    (hu : (schema.typeAt union).kind = .union) (path : Path) (value : Json) :
    Literal.violation? schema path (schema.typeAt union) value = none ↔
      ∃ member ∈ (schema.typeAt union).members,
        Literal.violation? schema path (schema.typeAt member) value = none := by
  obtain ⟨members, hs⟩ := kind_eq_union_iff.mp hu
  rw [Literal.violation?_union hl hid hs, TypeDef.members, hs]
  simp

/-- A union refuses a value at its own place and shows its name and the value. -/
theorem union_violation (hu : (schema.typeAt union).kind = .union) {path : Path} {value : Json}
    {violation : Violation}
    (h : Literal.violation? schema path (schema.typeAt union) value = some violation) :
    violation = ⟨path, .illegalValue (schema.typeAt union).name value⟩ := by
  obtain ⟨check, hcheck⟩ := Literal.exists_violation?_eq_throughUnions schema path value
  rw [hcheck] at h
  rcases Literal.of_throughUnions h with ⟨_, hv⟩ | ⟨hne, _⟩
  · exact hv
  · exact absurd hu hne

/-- A union accepts what one of its members accepts, and so what one of its leaves accepts. Types
with the same leaves accept the same values, in one schema and across schemas. A refusal says
nothing of the members. -/
theorem union_literals_by_leaves {steps : List Step} (h : build steps = .ok schema)
    (hac : schema.UnionAcyclic) (hid : union < schema.size)
    (hu : (schema.typeAt union).kind = .union) :
    (∀ path value, Literal.violation? schema path (schema.typeAt union) value = none ↔
      ∃ member ∈ (schema.typeAt union).members,
        Literal.violation? schema path (schema.typeAt member) value = none) ∧
    (∀ path value, Literal.violation? schema path (schema.typeAt union) value = none ↔
      ∃ leaf, schema.Leaf union leaf ∧
        Literal.violation? schema path (schema.typeAt leaf) value = none) ∧
    (∀ other < schema.size, (∀ leaf, schema.Leaf union leaf ↔ schema.Leaf other leaf) →
      ∀ path value, Literal.violation? schema path (schema.typeAt union) value = none ↔
        Literal.violation? schema path (schema.typeAt other) value = none) ∧
    (∀ otherSteps second, build otherSteps = .ok second → second.UnionAcyclic →
      ∀ other < second.size, ∀ same, SharedTypes schema second same →
        SameLeaves schema second same union other →
        ∀ path value, Literal.violation? schema path (schema.typeAt union) value = none ↔
          Literal.violation? second path (second.typeAt other) value = none) ∧
    ∀ path value violation,
      Literal.violation? schema path (schema.typeAt union) value = some violation →
        violation.error = ⟨.mismatchingTypes, path.render,
          "illegal value for " ++ (schema.typeAt union).name ++ ": " ++ value.text⟩ := by
  have hl := linked_of_build h
  refine ⟨accepts_iff_member hl hid hu, accepts_iff_leaf hl hac hid, ?_, ?_, ?_⟩
  · intro other hother hsame path value
    rw [accepts_iff_leaf hl hac hid, accepts_iff_leaf hl hac hother]
    exact exists_congr fun leaf => and_congr_left fun _ => hsame leaf
  · intro otherSteps second hsecond hacyclic other hother same hshared hleaves path value
    rw [Literal.violation?_eq_none_iff_hasType hl hac hid, hasType_iff_of_sameLeaves hshared hleaves,
      Literal.violation?_eq_none_iff_hasType (linked_of_build hsecond) hacyclic hother]
  · intro path value violation hv
    rw [union_violation hu hv]
    rfl

/-- The same filters, declared in another order, with conditions that reach tags twice and only
through a union between. -/
def reorderedSteps : List Step :=
  [.primitive .int32,
   .declare "Filter" .struct,
   .declare "Tag" .enumeration,
   .declare "Label" .union,
   .declare "Condition" .union,
   .define 3 { variants := ["new", "old"] },
   .define 2 { properties := filterFields 1 3 5 },
   .define 4 { members := [3] },
   .define 5 { members := [4, 2, 4] }]

def reorderedGraph : Schema := ⟨assemble reorderedSteps⟩

/-- Tags, levels and filters of both schemas. -/
def sameFilters (leaf twin : TypeId) : Prop := (leaf, twin) ∈ [(1, 3), (2, 1), (3, 2)]

theorem condition_sameLeaves : SameLeaves filterGraph reorderedGraph sameFilters 4 5 := by
  have hfilter : ∀ leaf, filterGraph.Leaf 4 leaf ↔ leaf = 3 ∨ leaf = 1 := by
    intro leaf
    have hmembers : (filterGraph.typeAt 4).members = [3, 1] := rfl
    rw [leaf_iff_of_union rfl, hmembers]
    simp [leaf_iff_of_not_union (show (filterGraph.typeAt 3).kind ≠ .union by decide),
      leaf_iff_of_not_union (show (filterGraph.typeAt 1).kind ≠ .union by decide)]
  have hreordered : ∀ leaf, reorderedGraph.Leaf 5 leaf ↔ leaf = 3 ∨ leaf = 2 := by
    intro leaf
    have hmembers : (reorderedGraph.typeAt 5).members = [4, 2, 4] := rfl
    have hinner : (reorderedGraph.typeAt 4).members = [3] := rfl
    rw [leaf_iff_of_union rfl, hmembers]
    simp [leaf_iff_of_union (show (reorderedGraph.typeAt 4).kind = .union by decide), hinner,
      leaf_iff_of_not_union (show (reorderedGraph.typeAt 3).kind ≠ .union by decide),
      leaf_iff_of_not_union (show (reorderedGraph.typeAt 2).kind ≠ .union by decide)]
    tauto
  simp [SameLeaves, hfilter, hreordered, sameFilters]

theorem filters_shared : SharedTypes filterGraph reorderedGraph sameFilters := by
  have htag : SameLeaves filterGraph reorderedGraph sameFilters 1 3 :=
    sameLeaves_of_not_union (by decide) (by decide) (by simp [sameFilters])
  have hlevel : SameLeaves filterGraph reorderedGraph sameFilters 2 1 :=
    sameLeaves_of_not_union (by decide) (by decide) (by simp [sameFilters])
  intro leaf twin h
  simp only [sameFilters, List.mem_cons, Prod.mk.injEq, List.not_mem_nil, or_false] at h
  rcases h with ⟨rfl, rfl⟩ | ⟨rfl, rfl⟩ | ⟨rfl, rfl⟩
  · exact .enumeration _
  · exact .primitive _
  · have hfilter : (filterGraph.typeAt 3).shape = .record .struct (.ofList (filterFields 2 1 4)) := rfl
    have hreordered : (reorderedGraph.typeAt 2).shape =
        .record .struct (.ofList (filterFields 1 3 5)) := rfl
    rw [hfilter, hreordered]
    refine .record .struct fun name => ?_
    simp only [NameMap.get?_ofList, filterFields, List.reverse_cons, List.reverse_nil,
      List.nil_append, List.cons_append, lookup_cons_ite, List.lookup_nil]
    split_ifs
    · exact .some ⟨rfl, condition_sameLeaves⟩
    · exact .some ⟨rfl, htag⟩
    · exact .some ⟨rfl, hlevel⟩
    · exact .none

/-- Both conditions accept the same values, and the first one refuses a nested filter as a whole. -/
theorem condition_by_leaves :
    build filterSteps = .ok filterGraph ∧ build reorderedSteps = .ok reorderedGraph ∧
      (∀ path value, Literal.violation? filterGraph path (filterGraph.typeAt 4) value = none ↔
        Literal.violation? reorderedGraph path (reorderedGraph.typeAt 5) value = none) ∧
      ∃ violation, Literal.violation? filterGraph .root (filterGraph.typeAt 4)
          (nestedFilter 0 "blue") = some violation ∧
        violation.error = ⟨.mismatchingTypes, "root", "illegal value for Condition: " ++
          (nestedFilter 0 "blue").text⟩ := by
  have hbuilt : build filterSteps = .ok filterGraph := rfl
  have hreordered : build reorderedSteps = .ok reorderedGraph := rfl
  obtain ⟨_, _, _, hshared, hrefused⟩ :=
    union_literals_by_leaves hbuilt (unionAcyclic_of_lt (by decide)) (show 4 < filterGraph.size by decide)
      (by decide)
  refine ⟨hbuilt, hreordered, ?_, ?_⟩
  · exact hshared reorderedSteps reorderedGraph hreordered (unionAcyclic_of_lt (by decide)) 5 (by decide)
      sameFilters filters_shared condition_sameLeaves
  · cases hv : Literal.violation? filterGraph .root (filterGraph.typeAt 4) (nestedFilter 0 "blue") with
    | none =>
      have hsome : (Literal.violation? filterGraph .root (filterGraph.typeAt 4)
        (nestedFilter 0 "blue")).isSome = true := by decide +kernel
      rw [hv] at hsome
      cases hsome
    | some violation => exact ⟨violation, rfl, hrefused .root _ violation hv⟩

end SelectionQuery
