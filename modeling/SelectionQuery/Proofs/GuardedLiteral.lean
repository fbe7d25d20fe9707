import SelectionQuery.Proofs.GuardedRun
import SelectionQuery.Proofs.LiteralCheck

/-! # Guarded runs of the literal check

Over a linked table a run of the literal check reads no stray handle, and if it ends, it ends with
what the total check gives. It ends if no union reaches itself: a step to a member keeps the value
and shortens the longest chain of members ahead, and every other step goes into the value.
-/
namespace SelectionQuery

namespace Literal
open Schema
variable {schema : Schema} {type : TypeDef} {path : Path} {value : Json}

theorem violation?_plain (hu : type.kind ≠ .union) (hs : type.kind ≠ .struct) :
    violation? schema path type value = (plainFault? type value).map (Violation.mk path) := by
  by_cases hobject : ∃ fields, value = .object fields
  · obtain ⟨fields, rfl⟩ := hobject
    rw [violation?_object, throughUnions_of_ne hu, objectCheck_of_ne hs]
  · rw [violation?_of_not_object (not_exists.mp hobject), throughUnions_of_ne hu]

theorem violation?_struct_object (hs : type.kind = .struct) {fields : List (String × Json)} :
    violation? schema path type (.object fields) = fields.findSome? (fieldCheck schema path type) := by
  have hu : type.kind ≠ .union := by simp [hs]
  rw [violation?_object, throughUnions_of_ne hu, objectCheck_struct hs, fieldViolation?_eq_findSome?]

theorem violation?_struct_of_not_object (hs : type.kind = .struct)
    (h : ∀ fields, value ≠ .object fields) :
    violation? schema path type value = some ⟨path, .notAStruct type.name value⟩ := by
  have hu : type.kind ≠ .union := by simp [hs]
  obtain ⟨properties, hshape⟩ := kind_eq_struct_iff.mp hs
  rw [violation?_of_not_object h, throughUnions_of_ne hu, plainFault?, hshape]
  rfl

theorem throughUnions_isNone (hpos : 0 < schema.size) (check : TypeDef → Option Violation) :
    (throughUnions schema path type value check).isNone =
      schema.anyLeaf (fun leaf => (check leaf).isNone) schema.size type := by
  by_cases hu : type.kind = .union
  · obtain ⟨members, hs⟩ := kind_eq_union_iff.mp hu
    simp only [throughUnions, hs]
    split <;> simp_all
  · obtain ⟨steps, hsize⟩ := Nat.exists_eq_succ_of_ne_zero hpos.ne'
    rw [throughUnions_of_ne hu, hsize, anyLeaf_of_not_union hu]

theorem exists_violation?_eq_throughUnions (schema : Schema) (path : Path) (value : Json) :
    ∃ check, ∀ type, violation? schema path type value =
      throughUnions schema path type value check := by
  by_cases hobject : ∃ fields, value = .object fields
  · obtain ⟨fields, rfl⟩ := hobject
    exact ⟨_, fun type => violation?_object path type fields⟩
  · exact ⟨_, fun type => violation?_of_not_object (not_exists.mp hobject) path type⟩

/-- A union accepts what one of its members accepts, even if it reaches itself. -/
theorem violation?_union (hl : Linked schema.types) {id : TypeId} (hid : id < schema.size)
    {members : List TypeId} (hs : (schema.typeAt id).shape = .union members) :
    violation? schema path (schema.typeAt id) value =
      if members.any fun member => (violation? schema path (schema.typeAt member) value).isNone
      then none else some ⟨path, .illegalValue (schema.typeAt id).name value⟩ := by
  obtain ⟨check, hcheck⟩ := exists_violation?_eq_throughUnions schema path value
  have hpos : 0 < schema.size := Nat.zero_lt_of_lt hid
  simp only [hcheck, throughUnions_isNone hpos]
  rw [← anyLeaf_members hl hid hs, throughUnions, hs]

end Literal

namespace Guarded
open Schema Outcome

theorem read_eq {schema : Schema} {id : TypeId} (h : id < schema.size) :
    read schema.types id = .done (schema.typeAt id) := read_of_getElem? (getElem?_typeAt h)

/-- A chain of members that starts at the type has at most `reach` types. -/
def ChainsWithin (schema : Schema) (reach : Nat) (id : TypeId) : Prop :=
  ∀ chain, List.IsChain schema.MemberStep (id :: chain) → (id :: chain).length ≤ reach

theorem ChainsWithin.pos {schema : Schema} {reach : Nat} {id : TypeId} (h : ChainsWithin schema reach id) :
    0 < reach := h [] (.singleton id)

theorem ChainsWithin.member {schema : Schema} {reach : Nat} {id member : TypeId}
    (h : ChainsWithin schema reach id) (hstep : schema.MemberStep id member) :
    ChainsWithin schema (reach - 1) member := by
  intro chain hc
  have hlength := h (member :: chain) (List.isChain_cons_cons.mpr ⟨hstep, hc⟩)
  simp only [List.length_cons] at hlength ⊢
  omega

theorem chainsWithin_size {schema : Schema} (hl : Linked schema.types) (hac : schema.UnionAcyclic)
    {id : TypeId} (hid : id < schema.size) : ChainsWithin schema schema.size id :=
  fun _ hc => chain_length_le hl hac hid hc

section Literals
variable {schema : Schema} {enough : Recursion → Prop} {calls : Nat}

/-- The calls that a value of this height needs at a declaration: in each container one for the
declaration, one for each type of a chain of members, and one for a struct. -/
def callsFor (schema : Schema) (height : Nat) : Nat := (schema.size + 2) * (height + 1)

theorem callsFor_eq (schema : Schema) (height : Nat) :
    callsFor schema height = (schema.size + 2) * height + (schema.size + 2) := Nat.mul_succ _ _

/-- What the check of arguments comes to with so many calls. The last condition is what it takes for
these calls to be enough; those of literals and structs are made so that each check leaves to the
next one the calls that it needs. -/
def ArgumentsSettle (schema : Schema) (enough : Recursion → Prop) (calls : Nat) : Prop :=
  ∀ declaration path value, declaration.type < schema.size →
    (enough .literal → schema.UnionAcyclic ∧ callsFor schema value.height ≤ calls) →
    (argument schema declaration path value calls).Settles enough
      (Literal.argumentViolation? schema declaration path value)

def LiteralsSettle (schema : Schema) (enough : Recursion → Prop) (calls : Nat) : Prop :=
  ∀ id path value reach, id < schema.size →
    (enough .literal → schema.UnionAcyclic ∧ ChainsWithin schema reach id ∧
      reach + 1 + (schema.size + 2) * value.height ≤ calls) →
    (literal schema (schema.typeAt id) path value calls).Settles enough
      (Literal.violation? schema path (schema.typeAt id) value)

def StructsSettle (schema : Schema) (enough : Recursion → Prop) (calls : Nat) : Prop :=
  ∀ id path value, id < schema.size → (schema.typeAt id).kind = .struct →
    (enough .literal → schema.UnionAcyclic ∧ 1 + (schema.size + 2) * value.height ≤ calls) →
    (struct schema (schema.typeAt id) path value calls).Settles enough
      (Literal.violation? schema path (schema.typeAt id) value)

theorem argumentsSettle_succ (hl : Linked schema.types) (h : LiteralsSettle schema enough calls) :
    ArgumentsSettle schema enough (calls + 1) := by
  intro declaration path value hid hcalls
  have hsingle : ∀ path item, item.height ≤ value.height →
      (literal schema (schema.typeAt declaration.type) path item calls).Settles enough
        (Literal.violation? schema path (schema.typeAt declaration.type) item) := by
    intro path item hle
    refine h _ path item schema.size hid fun hen => ?_
    obtain ⟨hac, hneed⟩ := hcalls hen
    refine ⟨hac, chainsWithin_size hl hac hid, ?_⟩
    have hmul : (schema.size + 2) * item.height ≤ (schema.size + 2) * value.height :=
      Nat.mul_le_mul_left _ hle
    rw [callsFor_eq] at hneed
    omega
  rw [argument, read_eq hid]
  unfold Literal.argumentViolation? Literal.declared
  cases value with
  | null => exact settles_done _
  | array items =>
    cases hlist : declaration.list with
    | true =>
      simp only [Literal.listViolation?, Literal.itemViolation?_eq_findSome?]
      refine settles_first _ fun entry hm => ?_
      have hitem : entry.1 ∈ items := List.fst_mem_of_mem_zipIdx hm
      exact hsingle _ entry.1 (Json.height_lt_of_mem_items hitem).le
    | false => exact hsingle path _ le_rfl
  | bool | number | string | object =>
    cases hlist : declaration.list with
    | true => exact settles_done _
    | false => exact hsingle path _ le_rfl

theorem literalsSettle_succ (hl : Linked schema.types) (h : LiteralsSettle schema enough calls)
    (hstruct : StructsSettle schema enough calls) : LiteralsSettle schema enough (calls + 1) := by
  intro id path value reach hid hcalls
  rw [literal]
  split
  next members hs =>
    rw [Literal.violation?_union hl hid hs]
    refine (settles_first (fun member => Option.guard
      (fun _ => (Literal.violation? schema path (schema.typeAt member) value).isNone) member)
      fun member hm => ?_).bind ?_
    · have hstep := memberStep_of_shape hs hm
      have hlt := hl.member_lt hid hstep
      rw [read_eq hlt]
      refine (h member path value (reach - 1) hlt fun hen => ?_).bind (settles_done _)
      obtain ⟨hac, hreach, hneed⟩ := hcalls hen
      have hpos := hreach.pos
      exact ⟨hac, hreach.member hstep, by omega⟩
    · simp only [List.isSome_findSome?, Option.isSome_guard]
      exact settles_done _
  next properties hs =>
    refine hstruct id path value hid (Literal.kind_eq_struct_iff.mpr ⟨properties, hs⟩) fun hen => ?_
    obtain ⟨hac, hreach, hneed⟩ := hcalls hen
    have hpos := hreach.pos
    exact ⟨hac, by omega⟩
  next hu hs =>
    have hunion : (schema.typeAt id).kind ≠ .union := fun hk =>
      (kind_eq_union_iff.mp hk).elim hu
    have hplain : (schema.typeAt id).kind ≠ .struct := fun hk =>
      (Literal.kind_eq_struct_iff.mp hk).elim hs
    rw [Literal.violation?_plain hunion hplain]
    exact settles_done _

theorem structsSettle_succ (hl : Linked schema.types) (h : ArgumentsSettle schema enough calls) :
    StructsSettle schema enough (calls + 1) := by
  intro id path value hid hk hcalls
  cases value with
  | object fields =>
    rw [struct, Literal.violation?_struct_object hk]
    refine settles_first _ fun entry hm => ?_
    rcases entry with ⟨name, field⟩
    cases hp : (schema.typeAt id).property? name with
    | none => simp only [Literal.fieldCheck, hp, settles_done]
    | some property =>
      simp only [Literal.fieldCheck, hp]
      have hknown := hl.known _ (typeAt_mem hid) property.target
        (mem_references_iff.mpr (.inl ⟨name, property, hp, .inl rfl⟩))
      refine h property.asField (path.extend name) field hknown fun hen => ?_
      obtain ⟨hac, hneed⟩ := hcalls hen
      have hlt : callsFor schema field.height ≤ (schema.size + 2) * (Json.object fields).height :=
        Nat.mul_le_mul_left _ (Json.height_lt_of_mem_fields hm)
      exact ⟨hac, by omega⟩
  | null | bool | number | string | array =>
    rw [struct, Literal.violation?_struct_of_not_object hk (by simp)]
    · exact settles_done _
    · simp

/-- With any number of calls: each of the three checks hands one call less to the next. -/
theorem literals_settle (hl : Linked schema.types) (enough : Recursion → Prop) (calls : Nat) :
    ArgumentsSettle schema enough calls ∧ LiteralsSettle schema enough calls ∧
      StructsSettle schema enough calls := by
  induction calls with
  | zero =>
    refine ⟨?_, ?_, ?_⟩
    · intro declaration path value _ hcalls hen
      have hneed := (hcalls hen).2
      rw [callsFor_eq] at hneed
      omega
    · intro id path value reach _ hcalls hen
      have hneed := (hcalls hen).2.2
      omega
    · intro id path value _ _ hcalls hen
      have hneed := (hcalls hen).2
      omega
  | succ calls ih =>
    obtain ⟨hargument, hliteral, hstruct⟩ := ih
    exact ⟨argumentsSettle_succ hl hliteral, literalsSettle_succ hl hliteral hstruct,
      structsSettle_succ hl hargument⟩

end Literals

end Guarded
end SelectionQuery
