import Mathlib.Data.Set.Insert
import SelectionQuery.Paging
import SelectionQuery.Proofs.LiteralCheck
import SelectionQuery.Proofs.SchemaSearches

/-! # The grammar of paging arguments

Which paging arguments go together is said of the set of those that are given, and what their
values are is said of each alone. The checks of choice and values find no violation exactly when
both rules are kept.
-/
namespace SelectionQuery.Paging
open Schema

def givenKeys (fields : List (String × Json)) : Set String :=
  {key | ∃ value, fields.lookup key = some value ∧ value ≠ .null}

def Recognized (fields : List (String × Json)) : Prop :=
  ∀ key value, (key, value) ∈ fields → key = ids ∨ key = after ∨ key = limit

/-- Only paging arguments occur, and those given are identifiers alone, or a limit with or without
a cursor. -/
def Chosen (fields : List (String × Json)) : Prop :=
  Recognized fields ∧
  (givenKeys fields = {ids} ∨ givenKeys fields = {limit} ∨ givenKeys fields = {limit, after})

/-- A string that addresses an element of this type: its identifier type, if there is one, takes
it. -/
def Address (schema : Schema) (element : TypeId) (value : Json) : Prop :=
  ∃ s, value = .string s ∧ ∀ type ∈ schema.types, ∀ identifier,
    type.identifier? = some identifier → identifier.target = element →
      identifier.rule.accepts s = true

/-- The values of paging arguments. -/
inductive HasValue (schema : Schema) (element : TypeId) : String → Json → Prop
  | limit (n : Int) (positive : 0 < n) (upper : n ≤ 18446744073709551615) :
      HasValue schema element limit (.number (.integer n))
  | ids (items : List Json) (addresses : ∀ item ∈ items, Address schema element item) :
      HasValue schema element ids (.array items)
  | after (value : Json) (address : Address schema element value) :
      HasValue schema element after value

variable {fields : List (String × Json)}

theorem ids_ne_after : ids ≠ after := by decide

theorem ids_ne_limit : ids ≠ limit := by decide

theorem after_ne_limit : after ≠ limit := by decide

theorem isPresent_iff {value : Json} : value.isPresent = true ↔ value ≠ .null := by
  cases value <;> simp [Json.isPresent]

theorem isGiven_iff {key : String} : isGiven fields key = true ↔ key ∈ givenKeys fields := by
  simp only [isGiven, Option.any_eq_true, isPresent_iff, givenKeys, Set.mem_ofPred_eq]

theorem givenKeys_eq_iff (hk : Recognized fields) {keys : Set String}
    (hs : keys ⊆ {ids, after, limit}) :
    givenKeys fields = keys ↔ (ids ∈ givenKeys fields ↔ ids ∈ keys) ∧
      (after ∈ givenKeys fields ↔ after ∈ keys) ∧ (limit ∈ givenKeys fields ↔ limit ∈ keys) := by
  refine ⟨fun h => by simp [h], ?_⟩
  rintro ⟨hi, ha, hl⟩
  have hsame : ∀ key, key = ids ∨ key = after ∨ key = limit →
      (key ∈ givenKeys fields ↔ key ∈ keys) := by
    rintro key (rfl | rfl | rfl)
    · exact hi
    · exact ha
    · exact hl
  ext key
  constructor
  · rintro ⟨value, hv, hp⟩
    exact (hsame key (hk key value (mem_of_lookup hv))).mp ⟨value, hv, hp⟩
  · intro hkey
    exact (hsame key (hs hkey)).mpr hkey

theorem chosen_iff (hk : Recognized fields) :
    (givenKeys fields = {ids} ∨ givenKeys fields = {limit} ∨ givenKeys fields = {limit, after}) ↔
      (ids ∈ givenKeys fields ∧ after ∉ givenKeys fields ∧ limit ∉ givenKeys fields) ∨
      (ids ∉ givenKeys fields ∧ limit ∈ givenKeys fields) := by
  rw [givenKeys_eq_iff hk (by simp), givenKeys_eq_iff hk (by simp),
    givenKeys_eq_iff hk (by simp [Set.insert_subset_iff])]
  simp only [Set.mem_singleton_iff, Set.mem_insert_iff, ids_ne_after, ids_ne_limit, after_ne_limit,
    ids_ne_after.symm, ids_ne_limit.symm, after_ne_limit.symm]
  by_cases hi : ids ∈ givenKeys fields <;> by_cases ha : after ∈ givenKeys fields <;>
    by_cases hl : limit ∈ givenKeys fields <;> simp [hi, ha, hl]

theorem contains_keys_iff {key : String} :
    keys.contains key = true ↔ key = ids ∨ key = after ∨ key = limit := by
  simp [keys]

theorem find?_unrecognized_eq_none_iff :
    (fields.find? fun field => !keys.contains field.1) = none ↔ Recognized fields := by
  simp only [List.find?_eq_none, Bool.not_eq_true', Bool.not_eq_false, contains_keys_iff,
    Prod.forall, Recognized]

theorem integrityViolation?_eq_none_iff {path : Path} :
    integrityViolation? path fields = none ↔ Chosen fields := by
  unfold integrityViolation? Chosen
  split
  next key value hfind =>
    refine iff_of_false nofun fun h => ?_
    rw [find?_unrecognized_eq_none_iff.mpr h.1] at hfind
    cases hfind
  next hfind =>
    have hk := find?_unrecognized_eq_none_iff.mp hfind
    rw [and_iff_right hk, chosen_iff hk]
    simp only [← isGiven_iff]
    cases isGiven fields ids <;> cases isGiven fields after <;> cases isGiven fields limit <;> simp

theorem of_integrityViolation? {path : Path} {violation : Violation}
    (h : integrityViolation? path fields = some violation) :
    (∃ key value, (key, value) ∈ fields ∧ key ∉ [ids, after, limit] ∧
      violation = ⟨path.extend key, .unknownListArgument key⟩) ∨
    (givenKeys fields = ∅ ∧ violation = ⟨path, .missingListArguments⟩) ∨
    (givenKeys fields = {after} ∧ violation = ⟨path, .missingPageLimit⟩) ∨
    (ids ∈ givenKeys fields ∧ (after ∈ givenKeys fields ∨ limit ∈ givenKeys fields) ∧
      violation = ⟨path, .mixedListArguments ((given fields).map Prod.fst)⟩) := by
  unfold integrityViolation? at h
  split at h
  next key value hfind =>
    have hbad : keys.contains key = false := by
      simpa only [Bool.not_eq_true'] using List.find?_some hfind
    refine .inl ⟨key, value, List.mem_of_find?_eq_some hfind, ?_, by simpa using h.symm⟩
    simpa [keys] using hbad
  next hfind =>
    have hk := find?_unrecognized_eq_none_iff.mp hfind
    rw [givenKeys_eq_iff hk (by simp), givenKeys_eq_iff hk (by simp)]
    simp only [Set.mem_empty_iff_false, Set.mem_singleton_iff, ids_ne_after, after_ne_limit.symm,
      ← isGiven_iff]
    right
    cases hi : isGiven fields ids <;> cases ha : isGiven fields after <;>
      cases hl : isGiven fields limit <;> simp [hi, ha, hl] at h ⊢ <;> exact h.symm

section Values
variable {schema : Schema} {element : TypeId} {value : Json}

theorem acceptsIdentifier_eq {type : TypeDef} {identifier : Identifier}
    (h : type.identifier? = some identifier) (s : String) :
    type.acceptsIdentifier s = identifier.rule.accepts s := by
  rw [TypeDef.acceptsIdentifier, h, Option.any_some]

theorem cursorFault?_eq_none_iff (hl : Linked schema.types) {type : TypeDef} :
    cursorFault? type (schema.identifierFor? element) value = none ↔ Address schema element value := by
  unfold cursorFault? Address
  cases hf : schema.identifierFor? element with
  | some addressing =>
    obtain ⟨hm, identifier, hi, htarget⟩ := identifierFor?_eq_some hf
    rw [Literal.identifierFault?_eq_none_iff]
    refine exists_congr fun s => and_congr_right fun _ => ?_
    rw [acceptsIdentifier_eq hi]
    refine ⟨fun h found hfm other ho hother => ?_, fun h => h addressing hm identifier hi htarget⟩
    have heq := (identifierFor?_eq_some_iff hl.single).mpr ⟨hfm, other, ho, hother⟩
    rw [hf] at heq
    cases heq
    cases hi.symm.trans ho
    exact h
  | none =>
    have hno := identifierFor?_eq_none_iff.mp hf
    cases value with
    | string s =>
      simpa [Json.string?] using fun found hm identifier hi htarget =>
        absurd ⟨identifier, hi, htarget⟩ (hno found hm)
    | null | bool | number | array | object => simp [Json.string?]

theorem of_cursorFault? {type : TypeDef} {fault : Fault}
    (h : cursorFault? type (schema.identifierFor? element) value = some fault) :
    (∃ addressing ∈ schema.types, ∃ identifier, addressing.identifier? = some identifier ∧
      identifier.target = element ∧
      (∀ s, value = .string s → identifier.rule.accepts s = false) ∧
      fault = .illegalIdentifier addressing.name) ∨
    ((∀ identifier ∈ schema.types, ¬identifier.Addresses element) ∧ (∀ s, value ≠ .string s) ∧
      fault = .notAnIdentifier type.name value) := by
  unfold cursorFault? at h
  cases hf : schema.identifierFor? element with
  | some addressing =>
    obtain ⟨hm, identifier, hi, htarget⟩ := identifierFor?_eq_some hf
    simp only [hf] at h
    refine .inl ⟨addressing, hm, identifier, hi, htarget, ?_, ?_⟩
    · rintro s rfl
      by_contra hacc
      have hnone := Literal.identifierFault?_eq_none_iff.mpr
        ⟨s, rfl, (acceptsIdentifier_eq hi s).trans (Bool.eq_true_of_not_eq_false hacc)⟩
      rw [hnone] at h
      cases h
    · unfold Literal.identifierFault? at h
      split at h
      · cases h
      · simpa using h.symm
  | none =>
    refine .inr ⟨identifierFor?_eq_none_iff.mp hf, ?_⟩
    cases value with
    | string s => simp [hf, Json.string?] at h
    | null | bool | number | array | object =>
      exact ⟨by simp, by simpa [hf, Json.string?] using h.symm⟩

theorem cursorsViolation?_eq_findSome? {type : TypeDef} {identifier : Option TypeDef} (path : Path)
    (index : Nat) (items : List Json) :
    cursorsViolation? path type identifier index items =
      (items.zipIdx index).findSome? fun entry =>
        (cursorFault? type identifier entry.1).map
          (Violation.mk (path.extend (Nat.repr entry.2))) := by
  induction items generalizing index with
  | nil => rfl
  | cons first rest ih =>
    rw [cursorsViolation?, ih, List.zipIdx_cons, List.findSome?_cons]
    cases cursorFault? type identifier first <;> rfl

theorem isPageLimit_iff :
    isPageLimit value = true ↔ ∃ n : Int, value = .number (.integer n) ∧ 0 < n ∧
      n ≤ 18446744073709551615 := by
  unfold isPageLimit
  cases value with
  | number number =>
    cases number with
    | integer n =>
      have hgreatest : Json.Number.greatestInteger = 18446744073709551615 := rfl
      simp only [Json.integer?, Option.any_some, hgreatest, Bool.and_eq_true, decide_eq_true_eq,
        Json.number.injEq, Json.Number.integer.injEq, exists_eq_left']
    | float f => simp [Json.integer?]
  | null | bool | string | array | object => simp [Json.integer?]

theorem hasValue_iff {key : String} :
    HasValue schema element key value ↔
      (key = limit ∧ isPageLimit value = true) ∨
      (key = ids ∧ ∃ items, value = .array items ∧ ∀ item ∈ items, Address schema element item) ∨
      (key = after ∧ Address schema element value) := by
  rw [isPageLimit_iff]
  constructor
  · intro h
    cases h with
    | limit n positive upper => exact .inl ⟨rfl, n, rfl, positive, upper⟩
    | ids items addresses => exact .inr (.inl ⟨rfl, items, rfl, addresses⟩)
    | after _ address => exact .inr (.inr ⟨rfl, address⟩)
  · rintro (⟨rfl, n, rfl, positive, upper⟩ | ⟨rfl, items, rfl, addresses⟩ | ⟨rfl, address⟩)
    · exact .limit n positive upper
    · exact .ids items addresses
    · exact .after value address

theorem cursorsViolation?_eq_none_iff (hl : Linked schema.types) {type : TypeDef} {path : Path}
    {items : List Json} :
    cursorsViolation? path type (schema.identifierFor? element) 0 items = none ↔
      ∀ item ∈ items, Address schema element item := by
  rw [cursorsViolation?_eq_findSome?, Literal.findSome?_zipIdx_eq_none_iff]
  simp only [Option.map_eq_none_iff, cursorFault?_eq_none_iff hl]
  constructor
  · intro h item hm
    obtain ⟨i, hi⟩ := List.mem_iff_getElem?.mp hm
    exact h i item hi
  · intro h i item hi
    exact h item (List.mem_of_getElem? hi)

theorem of_valueViolation? {type : TypeDef} {identifier : Option TypeDef} {path : Path}
    {key : String} (hk : key = ids ∨ key = after ∨ key = limit) {violation : Violation}
    (h : valueViolation? path type identifier key value = some violation) :
    (key = limit ∧ isPageLimit value = false ∧ violation = ⟨path, .invalidPageLimit value⟩) ∨
    (key = ids ∧ (∀ items, value ≠ .array items) ∧
      violation = ⟨path, .notAnIdentifierList value⟩) ∨
    (key = ids ∧ ∃ items i item fault, value = .array items ∧ items[i]? = some item ∧
      cursorFault? type identifier item = some fault ∧
      violation = ⟨path.extend (Nat.repr i), fault⟩) ∨
    (key = after ∧ ∃ fault, cursorFault? type identifier value = some fault ∧
      violation = ⟨path, fault⟩) := by
  unfold valueViolation? at h
  rcases hk with rfl | rfl | rfl
  · simp only [ids_ne_limit, if_true, if_false] at h
    cases value with
    | array items =>
      simp only [Json.items?, cursorsViolation?_eq_findSome?] at h
      obtain ⟨i, item, hi, hc⟩ := Literal.exists_of_findSome?_zipIdx h
      obtain ⟨fault, hf, rfl⟩ := Option.map_eq_some_iff.mp hc
      exact .inr (.inr (.inl ⟨rfl, items, i, item, fault, rfl, hi, hf, rfl⟩))
    | null | bool | number | string | object =>
      exact .inr (.inl ⟨rfl, nofun, by simpa [Json.items?] using h.symm⟩)
  · simp only [after_ne_limit, ids_ne_after.symm, if_false] at h
    obtain ⟨fault, hf, rfl⟩ := Option.map_eq_some_iff.mp h
    exact .inr (.inr (.inr ⟨rfl, fault, hf, rfl⟩))
  · simp only [if_true] at h
    split at h
    next => cases h
    next hno => exact .inl ⟨rfl, by simpa using hno, by simpa using h.symm⟩

theorem valueViolation?_eq_none_iff (hl : Linked schema.types) {type : TypeDef} {path : Path}
    {key : String} (hk : key = ids ∨ key = after ∨ key = limit) :
    valueViolation? path type (schema.identifierFor? element) key value = none ↔
      HasValue schema element key value := by
  rw [hasValue_iff]
  unfold valueViolation?
  rcases hk with rfl | rfl | rfl
  · simp only [ids_ne_limit, ids_ne_after, if_true, if_false, false_and, true_and, false_or,
      or_false]
    cases value with
    | array items => simpa [Json.items?] using cursorsViolation?_eq_none_iff hl
    | null | bool | number | string | object => simp [Json.items?]
  · simp only [after_ne_limit, ids_ne_after.symm, if_false, false_and, true_and, false_or,
      Option.map_eq_none_iff]
    exact cursorFault?_eq_none_iff hl
  · simp only [ids_ne_limit.symm, after_ne_limit.symm, if_true, false_and, true_and, or_false]
    cases isPageLimit value <;> simp

theorem valuesViolation?_eq_none_iff (hl : Linked schema.types) {type : TypeDef} {path : Path}
    {fields : List (String × Json)} (hk : Chosen fields) :
    valuesViolation? path type (schema.identifierFor? element) fields = none ↔
      ∀ key value, (key, value) ∈ fields → value ≠ .null → HasValue schema element key value := by
  simp only [valuesViolation?, List.findSome?_eq_none_iff, Prod.forall, given, List.mem_filter,
    isPresent_iff, and_imp]
  refine forall_congr' fun key => forall_congr' fun value => imp_congr_right fun hm =>
    imp_congr_right fun _ => ?_
  exact valueViolation?_eq_none_iff hl (hk.1 key value hm)

end Values

end SelectionQuery.Paging
