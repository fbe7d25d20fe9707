import Mathlib.Data.List.Nodup
import SelectionQuery.Json.Reader

/-! # Distinct keys

In a text an object may repeat a key, and then the last value counts. So a value that is read has no
object with a key twice, at any depth.
-/
namespace SelectionQuery.Json

mutual
/-- No object in the value has a key twice. -/
def keysDistinct : Json → Bool
  | .array items => itemsKeysDistinct items
  | .object fields => decide (fields.map Prod.fst).Nodup && fieldsKeysDistinct fields
  | _ => true

def itemsKeysDistinct : List Json → Bool
  | [] => true
  | item :: items => keysDistinct item && itemsKeysDistinct items

def fieldsKeysDistinct : List (String × Json) → Bool
  | [] => true
  | (_, value) :: fields => keysDistinct value && fieldsKeysDistinct fields
end

theorem keysDistinct_array {items : List Json} :
    (array items).keysDistinct = true ↔ ∀ item ∈ items, item.keysDistinct = true := by
  rw [keysDistinct]
  induction items with
  | nil => simp [itemsKeysDistinct]
  | cons first rest ih => simp [itemsKeysDistinct, ih]

theorem keysDistinct_object {fields : List (String × Json)} :
    (object fields).keysDistinct = true ↔ (fields.map Prod.fst).Nodup ∧
      ∀ key value, (key, value) ∈ fields → value.keysDistinct = true := by
  have hvalues : fieldsKeysDistinct fields = true ↔
      ∀ key value, (key, value) ∈ fields → value.keysDistinct = true := by
    induction fields with
    | nil => simp [fieldsKeysDistinct]
    | cons first rest ih =>
      rcases first with ⟨key, value⟩
      rw [fieldsKeysDistinct, Bool.and_eq_true, ih]
      constructor
      · rintro ⟨hfirst, hrest⟩ name other hm
        rcases List.mem_cons.mp hm with heq | hm
        · cases heq
          exact hfirst
        · exact hrest name other hm
      · intro h
        exact ⟨h key value List.mem_cons_self,
          fun name other hm => h name other (List.mem_cons_of_mem _ hm)⟩
  rw [keysDistinct, Bool.and_eq_true, decide_eq_true_iff, hvalues]

theorem keysDistinct_of_field {before after : List (String × Json)} {key : String} {value : Json}
    (h : (object (before ++ (key, value) :: after)).keysDistinct = true) :
    value.keysDistinct = true :=
  (keysDistinct_object.mp h).2 key value (List.mem_append_right before List.mem_cons_self)

namespace Reader

/-- Whatever the step reads has the property. -/
def Reads {α : Type} {input : List Char} (p : α → Prop) (step : Step α input) : Prop :=
  ∀ value rest, step = some (value, rest) → p value

section Steps
variable {α β : Type} {input : List Char} {p : α → Prop}

theorem reads_none : Reads p (none : Step α input) := by
  intro value rest h
  cases h

theorem reads_some {value : α} (rest : { rest : List Char // rest.length < input.length })
    (h : p value) : Reads p (some (value, rest) : Step α input) := by
  intro found after heq
  cases heq
  exact h

theorem Reads.map {longer : List Char} {q : β → Prop} {step : Step α input} (h : Reads p step)
    {f : α × { rest : List Char // rest.length < input.length } →
      β × { rest : List Char // rest.length < longer.length }}
    (hf : ∀ value rest, p value → q (f (value, rest)).1) : Reads q (Option.map f step) := by
  intro value rest hread
  obtain ⟨found, hstep, heq⟩ := Option.map_eq_some_iff.mp hread
  have hvalue := hf found.1 found.2 (h found.1 found.2 hstep)
  rwa [heq] at hvalue

theorem Reads.within {longer : List Char} {step : Step α input} (h : Reads p step)
    (hle : input.length ≤ longer.length) : Reads p (Step.within hle step) :=
  h.map fun _ _ hvalue => hvalue

variable {close : Char} {item? : (input : List Char) → Step α input}

theorem forall_mem_cons_of_reads (hitem : ∀ input, Reads p (item? input)) {item : α} {read : List α}
    {rest : { rest : List Char // rest.length < input.length }}
    (hstep : item? input = some (item, rest)) (hread : ∀ item ∈ read, p item) :
    ∀ other ∈ item :: read, p other :=
  List.forall_mem_cons.mpr ⟨hitem input item rest hstep, hread⟩

theorem reads_sequence? (hitem : ∀ input, Reads p (item? input)) (read : List α) (input : List Char)
    (hread : ∀ item ∈ read, p item) :
    Reads (fun items => ∀ item ∈ items, p item) (sequence? close item? read input) := by
  fun_induction sequence? with
  | case1 | case2 | case5 => exact reads_none
  | case3 read input item rest _ hstep =>
    refine reads_some _ fun other hm => ?_
    exact forall_mem_cons_of_reads hitem hstep hread other (List.mem_reverse.mp hm)
  | case4 read input item rest _ hstep _ _ _ _ _ ih =>
    exact (ih (forall_mem_cons_of_reads hitem hstep hread)).within _

theorem reads_container? (hitem : ∀ input, Reads p (item? input)) (input : List Char) :
    Reads (fun items => ∀ item ∈ items, p item) (container? close item? input) := by
  unfold container?
  split
  · exact reads_none
  · split
    · exact reads_some _ (List.forall_mem_nil p)
    · exact reads_sequence? hitem [] input (List.forall_mem_nil p)

end Steps

theorem reads_keyed? {p : Json → Prop} {value? : (input : List Char) → Step Json input}
    (hvalue : ∀ input, Reads p (value? input)) (input : List Char) :
    Reads (fun entry => p entry.2) (keyed? value? input) := by
  unfold keyed?
  split
  · split
    · exact reads_none
    · split
      · exact ((hvalue _).map fun _ _ h => h).within _
      · exact reads_none
  · exact reads_none

theorem nodup_keys_put {fields : List (String × Json)} (h : (fields.map Prod.fst).Nodup)
    (entry : String × Json) : ((put fields entry).map Prod.fst).Nodup := by
  unfold put
  split
  next =>
    have hkeys : (fields.map fun field => if field.1 == entry.1 then entry else field).map Prod.fst =
        fields.map Prod.fst := by
      rw [List.map_map]
      refine List.map_congr_left fun field _ => ?_
      by_cases hkey : field.1 = entry.1
      · simp [hkey]
      · simp [hkey]
    rwa [hkeys]
  next hnew =>
    rw [List.map_append, List.map_singleton]
    refine List.nodup_append.mpr ⟨h, List.nodup_singleton _, ?_⟩
    simp only [List.any_eq_true, not_exists, not_and, beq_iff_eq] at hnew
    rintro key hkey other hother rfl
    obtain ⟨field, hm, rfl⟩ := List.mem_map.mp hkey
    exact hnew field hm (List.mem_singleton.mp hother)

theorem mem_put {fields : List (String × Json)} {entry field : String × Json}
    (h : field ∈ put fields entry) : field ∈ fields ∨ field = entry := by
  unfold put at h
  split at h
  · obtain ⟨found, hm, rfl⟩ := List.mem_map.mp h
    split
    · exact .inr rfl
    · exact .inl hm
  · simpa using h

theorem keysDistinct_foldl_put {entries : List (String × Json)} {fields : List (String × Json)}
    (h : (object fields).keysDistinct = true)
    (hvalues : ∀ entry ∈ entries, entry.2.keysDistinct = true) :
    (object (entries.foldl put fields)).keysDistinct = true := by
  induction entries generalizing fields with
  | nil => exact h
  | cons first rest ih =>
    obtain ⟨hkeys, hfields⟩ := keysDistinct_object.mp h
    have hput : (object (put fields first)).keysDistinct = true := by
      refine keysDistinct_object.mpr ⟨nodup_keys_put hkeys first, fun key value hm => ?_⟩
      rcases mem_put hm with hm | rfl
      · exact hfields key value hm
      · exact hvalues _ List.mem_cons_self
    exact ih hput fun entry hm => hvalues entry (List.mem_cons_of_mem _ hm)

theorem reads_value? (depth : Nat) (input : List Char) :
    Reads (fun value => value.keysDistinct = true) (value? depth input) := by
  induction depth using Nat.strongRecOn generalizing input with
  | ind depth ih =>
    unfold value?
    apply Reads.within
    generalize skipBlank input = text
    split
    next => exact reads_none
    next => exact reads_some _ rfl
    next => exact reads_some _ rfl
    next => exact reads_some _ rfl
    next =>
      split
      next => exact (Reads.map (fun _ _ _ => trivial) fun _ _ _ => rfl).within _
      split
      next =>
        cases depth with
        | zero => exact reads_none
        | succ depth =>
          have hitem := ih depth (Nat.lt_succ_self depth)
          exact ((reads_container? hitem _).map fun _ _ h => keysDistinct_array.mpr h).within _
      split
      next =>
        cases depth with
        | zero => exact reads_none
        | succ depth =>
          have hentry := reads_keyed? (ih depth (Nat.lt_succ_self depth))
          exact ((reads_container? hentry _).map fun _ _ h => keysDistinct_foldl_put rfl h).within _
      split
      next =>
        intro value rest hread
        obtain ⟨n, _, heq⟩ := Option.map_eq_some_iff.mp hread
        cases heq
        rfl
      next => exact reads_none

end Reader

/-- A value that is read from a text has distinct keys throughout. -/
theorem keysDistinct_of_parse? {depth : Nat} {source : String} {value : Json}
    (h : parse? depth source = some value) : value.keysDistinct = true := by
  unfold parse? at h
  split at h
  next => cases h
  next found rest _ hread =>
    split at h
    · cases h
      exact Reader.reads_value? _ _ value _ hread
    · cases h

end SelectionQuery.Json
