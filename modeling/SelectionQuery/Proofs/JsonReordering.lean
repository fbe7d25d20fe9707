import Mathlib.Data.List.Perm.Basic
import Mathlib.Logic.Relation
import SelectionQuery.Proofs.DistinctKeys
import SelectionQuery.Proofs.NameMapLookup

/-! # Values equal up to the order of keys

A step permutes the entries of one object, the value itself or one anywhere inside it, and values are
reordered by any number of steps. Each step keeps the keys of every object and leaves a reordered
value under each of them. Where no object has a key twice, it keeps what a lookup finds as well.
-/
namespace SelectionQuery.Json

/-- The entries of one object in the value are permuted. -/
inductive Reorder : Json → Json → Prop
  | entries {fields fields' : List (String × Json)} (order : fields.Perm fields') :
      Reorder (.object fields) (.object fields')
  | item {before after : List Json} {value value' : Json} (inside : Reorder value value') :
      Reorder (.array (before ++ value :: after)) (.array (before ++ value' :: after))
  | field {before after : List (String × Json)} {key : String} {value value' : Json}
      (inside : Reorder value value') :
      Reorder (.object (before ++ (key, value) :: after)) (.object (before ++ (key, value') :: after))

/-- The values are equal up to the order of the entries of objects, at any depth. -/
def Reordered : Json → Json → Prop := Relation.ReflTransGen Reorder

variable {value value' : Json}

theorem Reorder.symm (h : Reorder value value') : Reorder value' value := by
  induction h with
  | entries order => exact .entries order.symm
  | item _ ih => exact .item ih
  | field _ ih => exact .field ih

theorem Reordered.symm (h : value.Reordered value') : value'.Reordered value := by
  induction h with
  | refl => exact .refl
  | tail _ step ih => exact .head step.symm ih

theorem Reorder.keysDistinct (h : Reorder value value') (hd : value.keysDistinct = true) :
    value'.keysDistinct = true := by
  induction h with
  | entries order =>
    rw [keysDistinct_object] at hd ⊢
    obtain ⟨hkeys, hvalues⟩ := hd
    refine ⟨(order.map Prod.fst).nodup_iff.mp hkeys, fun key value hm => ?_⟩
    exact hvalues key value (order.mem_iff.mpr hm)
  | item _ ih =>
    rw [keysDistinct_array] at hd ⊢
    simp only [List.mem_append, List.mem_cons, or_imp, forall_and, forall_eq] at hd ⊢
    exact ⟨hd.1, ih hd.2.1, hd.2.2⟩
  | field _ ih =>
    rw [keysDistinct_object] at hd ⊢
    obtain ⟨hkeys, hvalues⟩ := hd
    refine ⟨by simpa using hkeys, fun key other hm => ?_⟩
    simp only [List.mem_append, List.mem_cons, Prod.mk.injEq] at hm hvalues
    rcases hm with hm | ⟨rfl, rfl⟩ | hm
    · exact hvalues key other (.inl hm)
    · exact ih (hvalues key _ (.inr (.inl ⟨rfl, rfl⟩)))
    · exact hvalues key other (.inr (.inr hm))

theorem Reordered.keysDistinct (h : value.Reordered value') (hd : value.keysDistinct = true) :
    value'.keysDistinct = true := by
  induction h with
  | refl => exact hd
  | tail _ step ih => exact step.keysDistinct ih

/-- The entries of one object, seen from those of another that it is reordered to: the same keys, and
under each a value that is reordered. -/
structure Follows (fields fields' : List (String × Json)) : Prop where
  keys : (fields.map Prod.fst).Perm (fields'.map Prod.fst)
  values : ∀ key value', (key, value') ∈ fields' → ∃ value, (key, value) ∈ fields ∧
    value.Reordered value'

theorem Follows.refl (fields : List (String × Json)) : Follows fields fields :=
  ⟨List.Perm.refl _, fun _ value hm => ⟨value, hm, .refl⟩⟩

theorem Follows.trans {fields fields' fields'' : List (String × Json)} (h : Follows fields fields')
    (hnext : Follows fields' fields'') : Follows fields fields'' := by
  refine ⟨h.keys.trans hnext.keys, fun key value'' hm => ?_⟩
  obtain ⟨value', hm', hlater⟩ := hnext.values key value'' hm
  obtain ⟨value, hm, hearlier⟩ := h.values key value' hm'
  exact ⟨value, hm, Relation.ReflTransGen.trans hearlier hlater⟩

theorem Reorder.of_object {fields : List (String × Json)} (h : Reorder (.object fields) value') :
    ∃ fields', value' = .object fields' ∧ Follows fields fields' := by
  cases h with
  | @entries _ fields' order =>
    refine ⟨fields', rfl, order.map Prod.fst, fun key value hm => ?_⟩
    exact ⟨value, order.mem_iff.mpr hm, .refl⟩
  | @field before after key value value' inside =>
    refine ⟨before ++ (key, value') :: after, rfl, by simp, fun name other hm => ?_⟩
    simp only [List.mem_append, List.mem_cons, Prod.mk.injEq] at hm ⊢
    rcases hm with hm | ⟨rfl, rfl⟩ | hm
    · exact ⟨other, .inl hm, .refl⟩
    · exact ⟨value, .inr (.inl ⟨rfl, rfl⟩), .single inside⟩
    · exact ⟨other, .inr (.inr hm), .refl⟩

theorem Reordered.of_object {fields : List (String × Json)}
    (h : (object fields).Reordered value') :
    ∃ fields', value' = .object fields' ∧ Follows fields fields' := by
  induction h with
  | refl => exact ⟨fields, rfl, .refl fields⟩
  | tail _ step ih =>
    obtain ⟨fields', rfl, hfollows⟩ := ih
    obtain ⟨fields'', rfl, hnext⟩ := step.of_object
    exact ⟨fields'', rfl, hfollows.trans hnext⟩

theorem Reordered.of_array {items : List Json} (h : (array items).Reordered value') :
    ∃ items', value' = .array items' ∧
      ∀ item' ∈ items', ∃ item ∈ items, item.Reordered item' := by
  induction h with
  | refl => exact ⟨items, rfl, fun item hm => ⟨item, hm, .refl⟩⟩
  | tail _ step ih =>
    obtain ⟨items', rfl, hitems⟩ := ih
    cases step with
    | @item before after value value' inside =>
      refine ⟨before ++ value' :: after, rfl, fun item'' hm => ?_⟩
      simp only [List.mem_append, List.mem_cons] at hm hitems
      rcases hm with hm | rfl | hm
      · exact hitems item'' (.inl hm)
      · obtain ⟨item, hitem, hearlier⟩ := hitems value (.inr (.inl rfl))
        exact ⟨item, hitem, hearlier.tail inside⟩
      · exact hitems item'' (.inr (.inr hm))

/-- The value is neither an array nor an object. -/
def isPlain : Json → Bool
  | .array _ | .object _ => false
  | _ => true

theorem Reordered.eq_of_plain (h : value.Reordered value') (hp : value.isPlain = true) :
    value' = value := by
  induction h with
  | refl => rfl
  | tail _ step ih =>
    subst ih
    cases step <;> cases hp

theorem Reordered.ne_null (h : value.Reordered value') (hn : value' ≠ .null) : value ≠ .null := by
  rintro rfl
  exact hn (h.eq_of_plain rfl)

/-- Where keys are distinct, what is found under a key is reordered from what was found there. -/
theorem Follows.lookup {fields fields' : List (String × Json)} (h : Follows fields fields')
    (hd : (fields.map Prod.fst).Nodup) {key : String} {value' : Json}
    (hv : fields'.lookup key = some value') :
    ∃ value, fields.lookup key = some value ∧ value.Reordered value' := by
  obtain ⟨value, hm, hr⟩ := h.values key value' (mem_of_lookup hv)
  exact ⟨value, (lookup_eq_some_iff_mem hd).mpr hm, hr⟩

end SelectionQuery.Json
