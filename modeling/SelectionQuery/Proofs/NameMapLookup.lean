import Mathlib.Data.List.Sort
import Mathlib.Data.List.Nodup
import SelectionQuery.NameMap

/-! # Lookup in association lists and in maps from names

A lookup finds the first entry of a name. The entries of a map are strictly sorted, so in a map it
finds the only one, and a map is determined by its lookups.
-/
namespace SelectionQuery
variable {β : Type}

theorem lookup_cons_ite (key : String) (entry : String × β) (rest : List (String × β)) :
    (entry :: rest).lookup key = if key = entry.1 then some entry.2 else rest.lookup key := by
  rcases entry with ⟨name, value⟩
  rw [List.lookup_cons]
  by_cases h : key = name
  · simp [h]
  · rw [beq_eq_false_iff_ne.mpr h, if_neg h]

theorem mem_of_lookup {α : Type} [BEq α] [LawfulBEq α] {entries : List (α × β)} {name : α}
    {value : β} (h : entries.lookup name = some value) : (name, value) ∈ entries := by
  obtain ⟨before, after, rfl, _⟩ := List.lookup_eq_some_iff.mp h
  simp

theorem lookup_isSome_of_mem {entries : List (String × β)} {name : String} {value : β}
    (h : (name, value) ∈ entries) : ∃ found, entries.lookup name = some found := by
  apply Option.isSome_iff_exists.mp
  rw [List.lookup_isSome_iff]
  exact ⟨(name, value), h, by simp⟩

/-- Where no name is repeated, the first entry of a name is its only one. -/
theorem lookup_eq_some_iff_mem {entries : List (String × β)} (hd : (entries.map Prod.fst).Nodup)
    {name : String} {value : β} : entries.lookup name = some value ↔ (name, value) ∈ entries := by
  refine ⟨mem_of_lookup, fun hm => ?_⟩
  obtain ⟨found, hf⟩ := lookup_isSome_of_mem hm
  have he := List.inj_on_of_nodup_map hd (mem_of_lookup hf) hm rfl
  rw [hf, (Prod.mk.inj he).2]

namespace NameMap

theorem lookup_place (name : String) (value : β) (entries : List (String × β)) (key : String) :
    (place name value entries).lookup key =
      if key = name then some value else entries.lookup key := by
  induction entries with
  | nil => exact lookup_cons_ite key (name, value) []
  | cons first rest ih =>
    rw [place]
    split
    · exact lookup_cons_ite key (name, value) (first :: rest)
    · split
      next heq =>
        rw [lookup_cons_ite, lookup_cons_ite, ← heq]
        split <;> rfl
      next hne =>
        rw [lookup_cons_ite, lookup_cons_ite, ih]
        by_cases h : key = name
        · simp [h, hne]
        · simp [h]

@[simp] theorem get?_empty (key : String) : (empty : NameMap β).get? key = none := rfl

theorem get?_insert (m : NameMap β) (name : String) (value : β) (key : String) :
    (m.insert name value).get? key = if key = name then some value else m.get? key :=
  lookup_place name value m.entries key

theorem contains_iff {m : NameMap β} {name : String} :
    m.contains name = true ↔ ∃ value, m.get? name = some value := Option.isSome_iff_exists

theorem nodup_names (m : NameMap β) : (m.entries.map Prod.fst).Nodup := by
  refine List.pairwise_map.mpr (m.sorted.imp ?_)
  intro a b hab heq
  exact String.lt_irrefl _ (heq ▸ hab)

theorem mem_entries_iff {m : NameMap β} {name : String} {value : β} :
    (name, value) ∈ m.entries ↔ m.get? name = some value :=
  (lookup_eq_some_iff_mem m.nodup_names).symm

theorem mem_values_iff {m : NameMap β} {value : β} :
    value ∈ m.values ↔ ∃ name, m.get? name = some value := by
  simp only [values, List.mem_map, Prod.exists, exists_eq_right, mem_entries_iff]

theorem isEmpty_eq_false_iff {m : NameMap β} : m.isEmpty = false ↔ m.entries ≠ [] := by
  simp [isEmpty]

/-- The order of insertion leaves no trace: a map is determined by its lookups. -/
theorem ext_get? {m n : NameMap β} (h : ∀ name, m.get? name = n.get? name) : m = n := by
  have hperm : m.entries.Perm n.entries := by
    refine (List.perm_ext_iff_of_nodup m.nodup_names.of_map n.nodup_names.of_map).mpr ?_
    rintro ⟨name, value⟩
    rw [mem_entries_iff, mem_entries_iff, h]
  have heq : m.entries = n.entries := by
    refine hperm.eq_of_pairwise ?_ m.sorted n.sorted
    intro a b _ _ hab hba
    exact absurd (String.lt_trans hab hba) (String.lt_irrefl _)
  cases m
  cases n
  simpa using heq

theorem get?_foldl_insert (given : List (String × β)) (m : NameMap β) (name : String) :
    (given.foldl (fun m entry => m.insert entry.1 entry.2) m).get? name =
      (given.reverse.lookup name).or (m.get? name) := by
  induction given generalizing m with
  | nil => rfl
  | cons first rest ih =>
    rw [List.foldl_cons, ih, get?_insert, List.reverse_cons, List.lookup_append, lookup_cons_ite]
    by_cases h : name = first.1
    · cases rest.reverse.lookup name <;> simp [h]
    · simp [h]

/-- Of the entries of one name the last that is inserted survives. -/
theorem get?_ofList (given : List (String × β)) (name : String) :
    (ofList given).get? name = given.reverse.lookup name := by
  rw [ofList, get?_foldl_insert, get?_empty, Option.or_none]

theorem contains_insert (m : NameMap β) (name : String) (value : β) (key : String) :
    (m.insert name value).contains key = true ↔ key = name ∨ m.contains key = true := by
  simp only [contains_iff, get?_insert]
  by_cases h : key = name <;> simp [h]

theorem contains_ofList (given : List (String × β)) (name : String) :
    (ofList given).contains name = true ↔ name ∈ given.map Prod.fst := by
  simp only [contains, get?_ofList, List.lookup_isSome_iff, List.mem_reverse, beq_iff_eq,
    List.mem_map, eq_comm (a := name)]

theorem get?_ofList_eq_some_iff {given : List (String × β)} (hd : (given.map Prod.fst).Nodup)
    {name : String} {value : β} : (ofList given).get? name = some value ↔ (name, value) ∈ given := by
  have hreverse : (given.reverse.map Prod.fst).Nodup := by
    rw [List.map_reverse]
    exact List.nodup_reverse.mpr hd
  rw [get?_ofList, lookup_eq_some_iff_mem hreverse, List.mem_reverse]

theorem ofList_entries (m : NameMap β) : ofList m.entries = m := by
  apply ext_get?
  intro name
  ext value
  rw [get?_ofList_eq_some_iff m.nodup_names, mem_entries_iff]

end NameMap
end SelectionQuery
