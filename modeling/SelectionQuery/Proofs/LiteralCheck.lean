import SelectionQuery.Proofs.LiteralTyping

/-! # The checks of literals decide the typing

Each check finds no violation exactly when the value has the type or fits the declaration. The
proof follows the value: its fields and items come before it, and a union is left to its leaves.
-/
namespace SelectionQuery.Literal
open Schema

variable {schema : Schema} {id : TypeId} {value : Json}

theorem identifierFault?_eq_none_iff {type : TypeDef} :
    identifierFault? type value = none ↔ ∃ s, value = .string s ∧ type.acceptsIdentifier s = true := by
  unfold identifierFault?
  cases value with
  | string s => by_cases h : type.acceptsIdentifier s <;> simp [Json.string?, h]
  | null | bool | number | array | object => simp [Json.string?]

theorem plainFault?_eq_none_iff (hu : (schema.typeAt id).kind ≠ .union)
    (hs : (schema.typeAt id).kind = .struct → ∀ fields, value ≠ .object fields) :
    plainFault? (schema.typeAt id) value = none ↔ HasType schema id value := by
  rw [hasType_iff_holds]
  unfold plainFault?
  cases hshape : (schema.typeAt id).shape with
  | primitive primitive => simp [Shape.Holds, PrimitiveValue.iff_fits]
  | scalar => simp [Shape.Holds, ScalarValue.iff_isScalar]
  | enumeration variants =>
    cases value with
    | string s => simp [Shape.Holds, Json.string?]
    | null | bool | number | array | object => simp [Shape.Holds, Json.string?]
  | entityId identifier =>
    simp [identifierFault?_eq_none_iff, Shape.Holds, TypeDef.acceptsIdentifier, TypeDef.identifier?,
      hshape]
  | record role properties =>
    cases role with
    | struct =>
      have hno := hs (by simp [TypeDef.kind, hshape, Shape.kind, Role.kind])
      simp [Shape.Holds, hno]
    | root | entity => simp [Shape.Holds]
  | union members => exact absurd (kind_eq_union_iff.mpr ⟨members, hshape⟩) hu
  | trait => simp [Shape.Holds]

theorem throughUnions_of_ne {type : TypeDef} (h : type.kind ≠ .union) {path : Path}
    {check : TypeDef → Option Violation} :
    throughUnions schema path type value check = check type := by
  unfold throughUnions
  split
  next members hs => exact absurd (kind_eq_union_iff.mpr ⟨members, hs⟩) h
  next => rfl

theorem throughUnions_eq_none_iff (hl : Linked schema.types) (hac : schema.UnionAcyclic)
    (hid : id < schema.size) {path : Path} {check : TypeDef → Option Violation}
    (hcheck : ∀ leaf, leaf < schema.size → (schema.typeAt leaf).kind ≠ .union →
      (check (schema.typeAt leaf) = none ↔ HasType schema leaf value)) :
    throughUnions schema path (schema.typeAt id) value check = none ↔ HasType schema id value := by
  by_cases hu : (schema.typeAt id).kind = .union
  · obtain ⟨members, hs⟩ := kind_eq_union_iff.mp hu
    have hfound : schema.anyLeaf (fun leaf => (check leaf).isNone) schema.size (schema.typeAt id) =
        true ↔ HasType schema id value := by
      rw [anyLeaf_eq_true_iff hl hac hid, hasType_iff_leaf]
      refine exists_congr fun leaf => and_congr_right fun hleaf => ?_
      rw [Option.isNone_iff_eq_none]
      exact hcheck leaf (hl.reach_lt hid hleaf.1) hleaf.2
    simp only [throughUnions, hs, ← hfound]
    split <;> simp_all
  · rw [throughUnions_of_ne hu]
    exact hcheck id hid hu

theorem of_throughUnions {type : TypeDef} {path : Path} {check : TypeDef → Option Violation}
    {violation : Violation} (h : throughUnions schema path type value check = some violation) :
    (type.kind = .union ∧ violation = ⟨path, .illegalValue type.name value⟩) ∨
      (type.kind ≠ .union ∧ check type = some violation) := by
  by_cases hu : type.kind = .union
  · obtain ⟨members, hs⟩ := kind_eq_union_iff.mp hu
    simp only [throughUnions, hs] at h
    split at h
    · cases h
    · exact .inl ⟨hu, by simpa using h.symm⟩
  · rw [throughUnions_of_ne hu] at h
    exact .inr ⟨hu, h⟩

theorem declared_eq_none_iff {argument : Argument} {path : Path}
    {single items : Unit → Option Violation}
    (hsingle : single () = none ↔ HasType schema argument.type value)
    (hitems : ∀ list, value = .array list →
      (items () = none ↔ ∀ item ∈ list, HasType schema argument.type item)) :
    declared schema argument path value single items = none ↔ Fits schema argument value := by
  unfold declared
  cases value with
  | null =>
    rw [fits_null_iff]
    cases argument.optional <;> simp
  | array list =>
    rw [fits_array_iff, ← hsingle, ← hitems list rfl]
    cases argument.list <;> simp
  | bool | number | string | object =>
    refine Iff.trans ?_ (fits_plain_iff (by simp) (by simp)).symm
    rw [← hsingle]
    cases argument.list <;> simp

theorem of_declared {argument : Argument} {path : Path} {single items : Unit → Option Violation}
    {violation : Violation}
    (h : declared schema argument path value single items = some violation) :
    (value = .null ∧ argument.optional = false ∧
      violation = ⟨path, .nullForRequired (schema.typeAt argument.type).name⟩) ∨
    (argument.list = true ∧ value ≠ .null ∧ (∀ list, value ≠ .array list) ∧
      violation = ⟨path, .notAList (schema.typeAt argument.type).name value⟩) ∨
    (argument.list = false ∧ value ≠ .null ∧ single () = some violation) ∨
    (argument.list = true ∧ (∃ list, value = .array list) ∧ items () = some violation) := by
  unfold declared at h
  cases value with
  | null =>
    cases ho : argument.optional with
    | false => exact .inl ⟨rfl, rfl, by simpa [ho] using h.symm⟩
    | true => simp [ho] at h
  | array list =>
    cases hlist : argument.list with
    | false => exact .inr (.inr (.inl ⟨rfl, nofun, by simpa [hlist] using h⟩))
    | true => exact .inr (.inr (.inr ⟨rfl, ⟨list, rfl⟩, by simpa [hlist] using h⟩))
  | bool | number | string | object =>
    cases hlist : argument.list with
    | false => exact .inr (.inr (.inl ⟨rfl, nofun, by simpa [hlist] using h⟩))
    | true => exact .inr (.inl ⟨rfl, nofun, nofun, by simpa [hlist] using h.symm⟩)

def fieldCheck (schema : Schema) (path : Path) (struct : TypeDef) (entry : String × Json) :
    Option Violation :=
  match struct.property? entry.1 with
  | none => some ⟨path.extend entry.1, .undefinedField entry.1 struct.name⟩
  | some property => argumentViolation? schema property.asField (path.extend entry.1) entry.2

theorem fieldViolation?_eq_findSome? (path : Path) (struct : TypeDef)
    (fields : List (String × Json)) :
    fieldViolation? schema path struct fields = fields.findSome? (fieldCheck schema path struct) := by
  induction fields with
  | nil => rw [fieldViolation?, List.findSome?_nil]
  | cons first rest ih =>
    rcases first with ⟨name, value⟩
    rw [fieldViolation?, ih, List.findSome?_cons]
    cases hp : struct.property? name with
    | none =>
      simp only [fieldCheck, hp]
      rfl
    | some property =>
      have hcheck : fieldCheck schema path struct (name, value) =
          declared schema property.asField (path.extend name) value
            (fun _ => violation? schema (path.extend name) (schema.typeAt property.target) value)
            (fun _ =>
              listViolation? schema (path.extend name) (schema.typeAt property.target) value) := by
        simp only [fieldCheck, hp]
        rfl
      simp only [← hcheck]
      cases fieldCheck schema path struct (name, value) <;> rfl

theorem itemViolation?_eq_findSome? (path : Path) (type : TypeDef) (index : Nat)
    (items : List Json) :
    itemViolation? schema path type index items =
      (items.zipIdx index).findSome? fun entry =>
        violation? schema (path.extend (Nat.repr entry.2)) type entry.1 := by
  induction items generalizing index with
  | nil => rw [itemViolation?, List.zipIdx_nil, List.findSome?_nil]
  | cons first rest ih =>
    rw [itemViolation?, ih, List.zipIdx_cons, List.findSome?_cons]
    cases violation? schema (path.extend (Nat.repr index)) type first <;> rfl

/-- A scan of counted items finds nothing exactly if no item gives anything at its position. -/
theorem findSome?_zipIdx_eq_none_iff {items : List Json} {check : Json × Nat → Option Violation} :
    items.zipIdx.findSome? check = none ↔
      ∀ i item, items[i]? = some item → check (item, i) = none := by
  simp only [List.findSome?_eq_none_iff, Prod.forall, List.mem_zipIdx_iff_getElem?]
  exact forall_comm

theorem exists_of_findSome?_zipIdx {items : List Json} {check : Json × Nat → Option Violation}
    {violation : Violation} (h : items.zipIdx.findSome? check = some violation) :
    ∃ i item, items[i]? = some item ∧ check (item, i) = some violation := by
  obtain ⟨⟨item, i⟩, hm, hc⟩ := List.exists_of_findSome?_eq_some h
  exact ⟨i, item, List.mem_zipIdx_iff_getElem?.mp hm, hc⟩

def Decides (schema : Schema) (value : Json) : Prop :=
  ∀ path id, id < schema.size →
    (violation? schema path (schema.typeAt id) value = none ↔ HasType schema id value)

def DecidesItems (schema : Schema) (value : Json) : Prop :=
  ∀ items, value = .array items → ∀ item ∈ items, Decides schema item

theorem argumentViolation?_eq_none_iff {argument : Argument} (hid : argument.type < schema.size)
    (hvalue : Decides schema value) (hitems : DecidesItems schema value) (path : Path) :
    argumentViolation? schema argument path value = none ↔ Fits schema argument value := by
  refine declared_eq_none_iff (hvalue path _ hid) ?_
  rintro items rfl
  rw [listViolation?, itemViolation?_eq_findSome?, findSome?_zipIdx_eq_none_iff]
  constructor
  · intro h item hm
    obtain ⟨i, hi⟩ := List.mem_iff_getElem?.mp hm
    exact (hitems items rfl item hm _ _ hid).mp (h i item hi)
  · intro h i item hi
    have hm := List.mem_of_getElem? hi
    exact (hitems items rfl item hm _ _ hid).mpr (h item hm)

theorem fieldViolation?_eq_none_iff (hl : Linked schema.types) {struct : TypeDef}
    (hstruct : struct ∈ schema.types) {fields : List (String × Json)}
    (hfields : ∀ name value, (name, value) ∈ fields → Decides schema value ∧ DecidesItems schema value)
    (path : Path) :
    fieldViolation? schema path struct fields = none ↔
      ∀ name value, (name, value) ∈ fields → ∃ property, struct.property? name = some property ∧
        Fits schema property.asField value := by
  rw [fieldViolation?_eq_findSome?, List.findSome?_eq_none_iff, Prod.forall]
  refine forall_congr' fun name => forall_congr' fun value => imp_congr_right fun hm => ?_
  obtain ⟨hvalue, hitems⟩ := hfields name value hm
  rw [fieldCheck]
  cases hp : struct.property? name with
  | none => simp
  | some property =>
    have hid := hl.known struct hstruct _
      (mem_references_iff.mpr (.inl ⟨name, property, hp, .inl rfl⟩))
    simp only [Option.some.injEq, exists_eq_left']
    exact argumentViolation?_eq_none_iff hid hvalue hitems _

theorem violation?_of_not_object (h : ∀ fields, value ≠ .object fields) (path : Path)
    (type : TypeDef) :
    violation? schema path type value = throughUnions schema path type value fun leaf =>
      (plainFault? leaf value).map (Violation.mk path) := by
  cases value with
  | object fields => exact absurd rfl (h fields)
  | null | bool | number | string | array => rw [violation?]; nofun

def objectCheck (schema : Schema) (path : Path) (fields : List (String × Json)) (leaf : TypeDef) :
    Option Violation :=
  match leaf.shape with
  | .record .struct _ => fieldViolation? schema path leaf fields
  | _ => (plainFault? leaf (.object fields)).map (Violation.mk path)

theorem violation?_object (path : Path) (type : TypeDef) (fields : List (String × Json)) :
    violation? schema path type (.object fields) =
      throughUnions schema path type (.object fields) (objectCheck schema path fields) := by
  rw [violation?]
  rfl

theorem kind_eq_struct_iff {type : TypeDef} :
    type.kind = .struct ↔ ∃ properties, type.shape = .record .struct properties := by
  rcases type with ⟨name, shape⟩
  cases shape with
  | record role properties =>
    cases role with
    | struct => exact ⟨fun _ => ⟨properties, rfl⟩, fun _ => rfl⟩
    | root | entity => exact ⟨nofun, nofun⟩
  | primitive | scalar | enumeration | entityId | union | trait => exact ⟨nofun, nofun⟩

theorem objectCheck_struct {leaf : TypeDef} (h : leaf.kind = .struct) (path : Path)
    (fields : List (String × Json)) :
    objectCheck schema path fields leaf = fieldViolation? schema path leaf fields := by
  obtain ⟨properties, hs⟩ := kind_eq_struct_iff.mp h
  rw [objectCheck, hs]

theorem objectCheck_of_ne {leaf : TypeDef} (h : leaf.kind ≠ .struct) (path : Path)
    (fields : List (String × Json)) : objectCheck schema path fields leaf =
      (plainFault? leaf (.object fields)).map (Violation.mk path) := by
  unfold objectCheck
  split
  next properties hs => exact absurd (kind_eq_struct_iff.mpr ⟨properties, hs⟩) h
  next => rfl

theorem hasType_struct_iff {fields : List (String × Json)} (h : (schema.typeAt id).kind = .struct) :
    HasType schema id (.object fields) ↔
      ∀ name value, (name, value) ∈ fields →
        ∃ property, (schema.typeAt id).property? name = some property ∧
          Fits schema property.asField value := by
  obtain ⟨properties, hs⟩ := kind_eq_struct_iff.mp h
  simp [hasType_iff_holds, hs, Shape.Holds, TypeDef.property?, TypeDef.properties]

theorem decides_of_not_object (hl : Linked schema.types) (hac : schema.UnionAcyclic)
    (h : ∀ fields, value ≠ .object fields) : Decides schema value := by
  intro path id hid
  rw [violation?_of_not_object h]
  refine throughUnions_eq_none_iff hl hac hid fun leaf _ hu => ?_
  rw [Option.map_eq_none_iff]
  exact plainFault?_eq_none_iff hu fun _ => h

theorem decides_and_items (hl : Linked schema.types) (hac : schema.UnionAcyclic) (value : Json) :
    Decides schema value ∧ DecidesItems schema value := by
  induction value using Json.induction with
  | null | bool | number | string => exact ⟨decides_of_not_object hl hac nofun, nofun⟩
  | array items ih =>
    refine ⟨decides_of_not_object hl hac nofun, ?_⟩
    intro list heq item hm
    cases heq
    exact (ih item hm).1
  | object fields ih =>
    refine ⟨fun path id hid => ?_, nofun⟩
    rw [violation?_object]
    refine throughUnions_eq_none_iff hl hac hid fun leaf hlt hu => ?_
    by_cases hk : (schema.typeAt leaf).kind = .struct
    · rw [objectCheck_struct hk, hasType_struct_iff hk]
      exact fieldViolation?_eq_none_iff hl (typeAt_mem hlt) ih path
    · rw [objectCheck_of_ne hk, Option.map_eq_none_iff]
      exact plainFault?_eq_none_iff hu fun h => absurd h hk

/-- The check of a literal decides its typing. -/
theorem violation?_eq_none_iff_hasType (hl : Linked schema.types) (hac : schema.UnionAcyclic)
    (hid : id < schema.size) (path : Path) (value : Json) :
    violation? schema path (schema.typeAt id) value = none ↔ HasType schema id value :=
  (decides_and_items hl hac value).1 path id hid

/-- The check of an argument decides whether the value fits. -/
theorem argumentViolation?_eq_none_iff_fits (hl : Linked schema.types) (hac : schema.UnionAcyclic)
    {argument : Argument} (hid : argument.type < schema.size) (path : Path) (value : Json) :
    argumentViolation? schema argument path value = none ↔ Fits schema argument value :=
  have h := decides_and_items hl hac value
  argumentViolation?_eq_none_iff hid h.1 h.2 path

end SelectionQuery.Literal
