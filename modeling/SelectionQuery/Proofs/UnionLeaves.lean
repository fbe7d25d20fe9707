import Mathlib.Data.List.Chain
import Mathlib.Data.List.Perm.Subperm
import SelectionQuery.Literal
import SelectionQuery.Proofs.SchemaLinks
import SelectionQuery.Schema.UserGraph

/-! # Leaves of unions

A union stands for the types that are no unions and that it reaches through members. Where no union
reaches itself, a chain of members never repeats a type and is no longer than the table. The search
for a leaf is bounded by the size of the table, so it finds every leaf.
-/
namespace SelectionQuery.Schema

/-- A step from a union to one of its members. -/
def MemberStep (schema : Schema) (union member : TypeId) : Prop :=
  member ∈ (schema.typeAt union).members

/-- No union reaches itself through members. -/
def UnionAcyclic (schema : Schema) : Prop := ∀ id, ¬Relation.TransGen schema.MemberStep id id

/-- A type that is no union, reached through any number of members. -/
def Leaf (schema : Schema) (id leaf : TypeId) : Prop :=
  Relation.ReflTransGen schema.MemberStep id leaf ∧ (schema.typeAt leaf).kind ≠ .union

variable {schema : Schema} {id : TypeId}

theorem leaf_self (h : (schema.typeAt id).kind ≠ .union) : schema.Leaf id id := ⟨.refl, h⟩

theorem kind_eq_union_iff {type : TypeDef} :
    type.kind = .union ↔ ∃ members, type.shape = .union members := by
  rcases type with ⟨name, shape⟩
  cases shape with
  | union members => exact ⟨fun _ => ⟨members, rfl⟩, fun _ => rfl⟩
  | record role properties => cases role <;> exact ⟨nofun, nofun⟩
  | primitive | scalar | enumeration | entityId | trait => exact ⟨nofun, nofun⟩

theorem MemberStep.shape {member : TypeId} (h : schema.MemberStep id member) :
    ∃ members, (schema.typeAt id).shape = .union members ∧ member ∈ members := by
  unfold MemberStep TypeDef.members at h
  split at h
  next members hs => exact ⟨members, hs, h⟩
  next => cases h

theorem memberStep_of_shape {members : List TypeId} (hs : (schema.typeAt id).shape = .union members)
    {member : TypeId} (h : member ∈ members) : schema.MemberStep id member := by
  unfold MemberStep TypeDef.members
  rwa [hs]

theorem Linked.member_lt (hl : Linked schema.types) (hid : id < schema.size) {member : TypeId}
    (h : schema.MemberStep id member) : member < schema.size :=
  hl.known _ (typeAt_mem hid) member (mem_references_iff.mpr (.inr (.inl h)))

theorem unionAcyclic_of_lt
    (h : ∀ id < schema.size, ∀ member ∈ (schema.typeAt id).members, member < id) :
    schema.UnionAcyclic := by
  have hstep : ∀ id member, schema.MemberStep id member → member < id := by
    intro id member hm
    by_cases hid : id < schema.size
    · exact h id hid member hm
    · have hnone : schema.types[id]? = none := List.getElem?_eq_none (Nat.le_of_not_lt hid)
      simp [MemberStep, typeAt, List.getD, hnone, TypeDef.members] at hm
  have htrans : ∀ id other, Relation.TransGen schema.MemberStep id other → other < id := by
    intro id other hreach
    induction hreach with
    | single hm => exact hstep _ _ hm
    | tail _ hm ih => exact Nat.lt_trans (hstep _ _ hm) ih
  exact fun id hreach => Nat.lt_irrefl id (htrans id id hreach)

theorem userGraph_unionAcyclic : userGraph.UnionAcyclic := unionAcyclic_of_lt (by decide)

section Search
variable {holds : TypeDef → Bool}

theorem anyLeaf_of_not_union {type : TypeDef} (h : type.kind ≠ .union) (steps : Nat) :
    schema.anyLeaf holds (steps + 1) type = holds type := by
  rw [anyLeaf]
  split
  next members hs => exact absurd (kind_eq_union_iff.mpr ⟨members, hs⟩) h
  next => rfl

theorem anyLeaf_of_union {type : TypeDef} {members : List TypeId} (h : type.shape = .union members)
    (steps : Nat) : schema.anyLeaf holds (steps + 1) type =
      members.any fun member => schema.anyLeaf holds steps (schema.typeAt member) := by
  rw [anyLeaf, h]

theorem anyLeaf_sound {steps : Nat} (h : schema.anyLeaf holds steps (schema.typeAt id) = true) :
    ∃ leaf, schema.Leaf id leaf ∧ holds (schema.typeAt leaf) = true := by
  induction steps generalizing id with
  | zero => cases h
  | succ steps ih =>
    by_cases hu : (schema.typeAt id).kind = .union
    · obtain ⟨members, hs⟩ := kind_eq_union_iff.mp hu
      rw [anyLeaf_of_union hs] at h
      obtain ⟨member, hm, hfound⟩ := List.any_eq_true.mp h
      obtain ⟨leaf, ⟨hreach, hk⟩, hh⟩ := ih hfound
      exact ⟨leaf, ⟨.head (memberStep_of_shape hs hm) hreach, hk⟩, hh⟩
    · rw [anyLeaf_of_not_union hu] at h
      exact ⟨id, leaf_self hu, h⟩

/-- A leaf at the end of a chain is found by more steps than the chain has. -/
theorem anyLeaf_of_chain {chain : List TypeId} {leaf : TypeId} {steps : Nat}
    (hc : List.IsChain schema.MemberStep (id :: chain))
    (hlast : (id :: chain).getLast (List.cons_ne_nil _ _) = leaf) (hlt : chain.length < steps)
    (hk : (schema.typeAt leaf).kind ≠ .union) (hh : holds (schema.typeAt leaf) = true) :
    schema.anyLeaf holds steps (schema.typeAt id) = true := by
  obtain ⟨steps, rfl⟩ := Nat.exists_eq_succ_of_ne_zero (Nat.ne_zero_of_lt hlt)
  induction chain generalizing id steps with
  | nil =>
    rw [List.getLast_singleton] at hlast
    subst hlast
    rw [anyLeaf_of_not_union hk]
    exact hh
  | cons next chain ih =>
    obtain ⟨hstep, hrest⟩ := List.isChain_cons_cons.mp hc
    obtain ⟨members, hs, hm⟩ := hstep.shape
    rw [List.getLast_cons (List.cons_ne_nil _ _)] at hlast
    have hlt := Nat.lt_of_succ_lt_succ hlt
    obtain ⟨steps, rfl⟩ := Nat.exists_eq_succ_of_ne_zero (Nat.ne_zero_of_lt hlt)
    rw [anyLeaf_of_union hs]
    exact List.any_eq_true.mpr ⟨next, hm, ih hrest hlast steps hlt⟩

end Search

theorem Linked.reach_lt (hl : Linked schema.types) (hid : id < schema.size) {other : TypeId}
    (h : Relation.ReflTransGen schema.MemberStep id other) : other < schema.size := by
  induction h with
  | refl => exact hid
  | tail _ hstep ih => exact hl.member_lt ih hstep

/-- A chain of members that repeats no type is no longer than the table. -/
theorem nodup_chain_length_le (hl : Linked schema.types) (hid : id < schema.size)
    {chain : List TypeId} (hc : List.IsChain schema.MemberStep (id :: chain))
    (hd : (id :: chain).Nodup) : (id :: chain).length ≤ schema.size := by
  have hpair : (id :: chain).Pairwise (Relation.TransGen schema.MemberStep) :=
    (hc.imp fun _ _ h => Relation.TransGen.single h).pairwise
  have hsub : id :: chain ⊆ List.range schema.size := by
    intro i hi
    rw [List.mem_range]
    rcases List.mem_cons.mp hi with rfl | hi
    · exact hid
    · exact hl.reach_lt hid ((List.pairwise_cons.mp hpair).1 i hi).to_reflTransGen
  simpa using (List.subperm_of_subset hd hsub).length_le

/-- Without circles a chain of members repeats no type, so it is no longer than the table. -/
theorem chain_length_le (hl : Linked schema.types) (hac : schema.UnionAcyclic)
    (hid : id < schema.size) {chain : List TypeId}
    (hc : List.IsChain schema.MemberStep (id :: chain)) : (id :: chain).length ≤ schema.size := by
  have hpair : (id :: chain).Pairwise (Relation.TransGen schema.MemberStep) :=
    (hc.imp fun _ _ h => Relation.TransGen.single h).pairwise
  refine nodup_chain_length_le hl hid hc (hpair.imp ?_)
  rintro a b hab rfl
  exact hac a hab

/-- The search through members finds exactly the leaves. -/
theorem anyLeaf_eq_true_iff (hl : Linked schema.types) (hac : schema.UnionAcyclic)
    (hid : id < schema.size) {holds : TypeDef → Bool} :
    schema.anyLeaf holds schema.size (schema.typeAt id) = true ↔
      ∃ leaf, schema.Leaf id leaf ∧ holds (schema.typeAt leaf) = true := by
  refine ⟨anyLeaf_sound, ?_⟩
  rintro ⟨leaf, ⟨hreach, hk⟩, hh⟩
  obtain ⟨chain, hc, hlast⟩ := List.exists_isChain_cons_of_relationReflTransGen hreach
  exact anyLeaf_of_chain hc hlast (chain_length_le hl hac hid hc) hk hh

/-- Whatever the circles, a type is reached by a chain that repeats none: a chain that comes back to
its first type is cut there. -/
theorem exists_nodup_chain {other : TypeId}
    (h : Relation.ReflTransGen schema.MemberStep id other) :
    ∃ chain, List.IsChain schema.MemberStep (id :: chain) ∧
      (id :: chain).getLast (List.cons_ne_nil _ _) = other ∧ (id :: chain).Nodup := by
  induction h using Relation.ReflTransGen.head_induction_on with
  | refl => exact ⟨[], .singleton other, rfl, List.nodup_singleton other⟩
  | @head id next hstep _ ih =>
    obtain ⟨chain, hc, hlast, hd⟩ := ih
    by_cases hm : id ∈ next :: chain
    · obtain ⟨before, after, heq⟩ := List.append_of_mem hm
      simp only [heq] at hc hlast hd
      rw [List.getLast_append_of_ne_nil _ (List.cons_ne_nil _ _)] at hlast
      exact ⟨after, hc.right_of_append, hlast, hd.of_append_right⟩
    · refine ⟨next :: chain, List.isChain_cons_cons.mpr ⟨hstep, hc⟩, ?_,
        List.nodup_cons.mpr ⟨hm, hd⟩⟩
      rwa [List.getLast_cons (List.cons_ne_nil _ _)]

/-- Hence the search misses no leaf even of a union that reaches itself. -/
theorem anyLeaf_of_leaf (hl : Linked schema.types) (hid : id < schema.size) {steps : Nat}
    (hsteps : schema.size ≤ steps) {holds : TypeDef → Bool} {leaf : TypeId}
    (hleaf : schema.Leaf id leaf) (hh : holds (schema.typeAt leaf) = true) :
    schema.anyLeaf holds steps (schema.typeAt id) = true := by
  obtain ⟨chain, hc, hlast, hd⟩ := exists_nodup_chain hleaf.1
  have hlength := nodup_chain_length_le hl hid hc hd
  exact anyLeaf_of_chain hc hlast (hlength.trans hsteps) hleaf.2 hh

/-- More steps than the table has types change nothing. -/
theorem anyLeaf_stable (hl : Linked schema.types) (hid : id < schema.size) {steps : Nat}
    (hsteps : schema.size ≤ steps) (holds : TypeDef → Bool) :
    schema.anyLeaf holds steps (schema.typeAt id) =
      schema.anyLeaf holds schema.size (schema.typeAt id) := by
  rw [Bool.eq_iff_iff]
  constructor
  · intro h
    obtain ⟨leaf, hleaf, hh⟩ := anyLeaf_sound h
    exact anyLeaf_of_leaf hl hid le_rfl hleaf hh
  · intro h
    obtain ⟨leaf, hleaf, hh⟩ := anyLeaf_sound h
    exact anyLeaf_of_leaf hl hid hsteps hleaf hh

theorem anyLeaf_members (hl : Linked schema.types) (hid : id < schema.size)
    {members : List TypeId} (hs : (schema.typeAt id).shape = .union members)
    (holds : TypeDef → Bool) :
    schema.anyLeaf holds schema.size (schema.typeAt id) =
      members.any fun member => schema.anyLeaf holds schema.size (schema.typeAt member) := by
  rw [← anyLeaf_stable hl hid (Nat.le_succ _), anyLeaf_of_union hs]

end SelectionQuery.Schema
