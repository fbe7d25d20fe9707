import Mathlib.Data.List.Find
import SelectionQuery.Proofs.PagingGrammar

/-! # Verdicts on paging arguments

The check of a choice looks for an unrecognized key first and is decided by the set of given keys
then; each error has one cause. Two checks read the arguments, one by lookup and one in order, and both
take `null` for an argument that is not there, so entries that are `null` can be erased.
-/
namespace SelectionQuery.Paging
open Schema

/-- The error on a choice that is refused. -/
inductive ChoiceRefused (path : Path) (fields : List (String × Json)) : ValidationError → Prop
  /-- The first key that is no paging argument, whatever its value. -/
  | unrecognized {before rest : List (String × Json)} {key : String} {value : Json}
      (split : fields = before ++ (key, value) :: rest) (recognized : Recognized before)
      (unknown : key ∉ [ids, after, limit]) :
      ChoiceRefused path fields
        ⟨.unknownListArgument, (path.extend key).render, "unknown list argument: " ++ key⟩
  | nothing (recognized : Recognized fields) (given : givenKeys fields = ∅) :
      ChoiceRefused path fields ⟨.missingListArguments, path.render, "missing list arguments"⟩
  | unlimited (recognized : Recognized fields) (given : givenKeys fields = {after}) :
      ChoiceRefused path fields ⟨.missingPageLimitArgument, path.render, "missing page limit argument"⟩
  /-- The detail lists the given keys in their order. -/
  | mixed {key : String} (recognized : Recognized fields) (identifiers : ids ∈ givenKeys fields)
      (other : key ∈ givenKeys fields) (apart : key ≠ ids) :
      ChoiceRefused path fields ⟨.illegalListArgumentsCombination, path.render,
        "illegal combination of list arguments: " ++ ",".intercalate ((given fields).map Prod.fst)⟩

variable {path : Path} {fields : List (String × Json)}

theorem isGiven_eq_false_iff {key : String} :
    isGiven fields key = false ↔ key ∉ givenKeys fields := by
  rw [← isGiven_iff, Bool.not_eq_true]

theorem find?_unrecognized_eq_some_iff {entry : String × Json} :
    (fields.find? fun field => !keys.contains field.1) = some entry ↔
      ∃ before rest, fields = before ++ entry :: rest ∧ Recognized before ∧
        entry.1 ∉ [ids, after, limit] := by
  have hunknown : (!keys.contains entry.1) = true ↔ entry.1 ∉ [ids, after, limit] := by
    simp [keys]
  have hbefore : ∀ before : List (String × Json),
      (∀ field ∈ before, (!!keys.contains field.1) = true) ↔ Recognized before := by
    intro before
    simp only [Bool.not_not, contains_keys_iff, Prod.forall, Recognized]
  rw [List.find?_eq_some_iff_append, hunknown]
  simp only [hbefore]
  constructor
  · rintro ⟨unknown, before, rest, split, recognized⟩
    exact ⟨before, rest, split, recognized, unknown⟩
  · rintro ⟨before, rest, split, recognized, unknown⟩
    exact ⟨unknown, before, rest, split, recognized⟩

theorem choiceRefused_of_integrityViolation? {violation : Violation}
    (h : integrityViolation? path fields = some violation) :
    ChoiceRefused path fields violation.error := by
  cases hfind : fields.find? fun field => !keys.contains field.1 with
  | some entry =>
    obtain ⟨before, rest, split, recognized, unknown⟩ := find?_unrecognized_eq_some_iff.mp hfind
    simp only [integrityViolation?, hfind, Option.some.injEq] at h
    subst h
    exact .unrecognized split recognized unknown
  | none =>
    have recognized := find?_unrecognized_eq_none_iff.mp hfind
    obtain ⟨key, value, hm, hkey, _⟩ | ⟨hgiven, rfl⟩ | ⟨hgiven, rfl⟩ | ⟨hids, hother, rfl⟩ :=
      of_integrityViolation? h
    · exact absurd (by simpa using recognized key value hm) hkey
    · exact .nothing recognized hgiven
    · exact .unlimited recognized hgiven
    · rcases hother with hafter | hlimit
      · exact .mixed recognized hids hafter ids_ne_after.symm
      · exact .mixed recognized hids hlimit ids_ne_limit.symm

theorem integrityViolation?_of_choiceRefused {error : ValidationError}
    (h : ChoiceRefused path fields error) :
    (integrityViolation? path fields).map Violation.error = some error := by
  unfold integrityViolation?
  cases h with
  | unrecognized split recognized unknown =>
    have hfind := find?_unrecognized_eq_some_iff.mpr ⟨_, _, split, recognized, unknown⟩
    rw [hfind]
    rfl
  | nothing recognized hgiven =>
    have hnone : ∀ key, isGiven fields key = false :=
      fun key => isGiven_eq_false_iff.mpr (by simp [hgiven])
    rw [find?_unrecognized_eq_none_iff.mpr recognized]
    simp only [hnone]
    rfl
  | unlimited recognized hgiven =>
    have hids : isGiven fields ids = false :=
      isGiven_eq_false_iff.mpr (by simp [hgiven, ids_ne_after])
    have hlimit : isGiven fields limit = false :=
      isGiven_eq_false_iff.mpr (by simp [hgiven, after_ne_limit.symm])
    have hafter : isGiven fields after = true := isGiven_iff.mpr (by simp [hgiven])
    rw [find?_unrecognized_eq_none_iff.mpr recognized]
    simp only [hids, hlimit, hafter]
    rfl
  | @mixed key recognized hids hother apart =>
    have hpaged : (isGiven fields after || isGiven fields limit) = true := by
      have ⟨value, hv, _⟩ := hother
      rw [Bool.or_eq_true, isGiven_iff, isGiven_iff]
      rcases recognized key value (mem_of_lookup hv) with rfl | rfl | rfl
      · exact absurd rfl apart
      · exact .inl hother
      · exact .inr hother
    rw [find?_unrecognized_eq_none_iff.mpr recognized]
    simp only [isGiven_iff.mpr hids, hpaged]
    rfl

theorem mem_givenKeys_iff (hd : (fields.map Prod.fst).Nodup) {key : String} :
    key ∈ givenKeys fields ↔ ∃ value, (key, value) ∈ fields ∧ value ≠ .null := by
  simp only [givenKeys, Set.mem_ofPred_eq, lookup_eq_some_iff_mem hd]

section Erasure
variable {keep : String × Json → Bool}

theorem given_filter (hkeep : ∀ field ∈ fields, keep field = false → field.2 = .null) :
    given (fields.filter keep) = given fields := by
  rw [given, List.filter_filter]
  refine List.filter_congr fun field hm => ?_
  cases hk : keep field with
  | true => rw [Bool.and_true]
  | false => rw [hkeep field hm hk]; rfl

theorem isGiven_filter (hd : (fields.map Prod.fst).Nodup)
    (hkeep : ∀ field ∈ fields, keep field = false → field.2 = .null) (key : String) :
    isGiven (fields.filter keep) key = isGiven fields key := by
  have hd' : ((fields.filter keep).map Prod.fst).Nodup := hd.sublist (List.filter_sublist.map Prod.fst)
  rw [Bool.eq_iff_iff, isGiven_iff, isGiven_iff, mem_givenKeys_iff hd, mem_givenKeys_iff hd']
  refine exists_congr fun value => and_congr_left fun present => ?_
  rw [List.mem_filter, and_iff_left_iff_imp]
  intro hm
  by_contra hk
  exact present (hkeep _ hm (Bool.eq_false_iff.mpr hk))

theorem find?_unrecognized_filter
    (hkeep : ∀ field ∈ fields, keep field = false → field.1 ∈ keys) :
    ((fields.filter keep).find? fun field => !keys.contains field.1) =
      fields.find? fun field => !keys.contains field.1 := by
  rw [List.find?_filter]
  refine List.find?_congr fun field hm => ?_
  cases hk : keep field with
  | true => simp
  | false => simp [hkeep field hm hk]

theorem integrityViolation?_congr {fields' : List (String × Json)}
    (hfind : (fields'.find? fun field => !keys.contains field.1) =
      fields.find? fun field => !keys.contains field.1)
    (hgiven : ∀ key, isGiven fields' key = isGiven fields key)
    (hkeys : given fields' = given fields) :
    integrityViolation? path fields' = integrityViolation? path fields := by
  rw [integrityViolation?, integrityViolation?, hfind]
  simp only [hgiven, hkeys]

end Erasure

/-- What the two checks say of paging arguments for a list of elements of this type. -/
structure Verdicts (schema : Schema) (element : TypeId) (path : Path) (fields : List (String × Json)) :
    Prop where
  accepted : integrityViolation? path fields = none ↔
    Recognized fields ∧
      (givenKeys fields = {ids} ∨ givenKeys fields = {limit} ∨ givenKeys fields = {limit, after})
  refused : ∀ error, (integrityViolation? path fields).map Violation.error = some error ↔
    ChoiceRefused path fields error
  /-- The values that count are those that are given. -/
  values : integrityViolation? path fields = none →
    (valuesViolation? path (schema.typeAt element) (schema.identifierFor? element) fields = none ↔
      ∀ key ∈ givenKeys fields, ∀ value, fields.lookup key = some value →
        HasValue schema element key value)
  /-- Paging arguments that are `null` make no difference. -/
  erasure : ∀ keep : String × Json → Bool,
    (∀ field ∈ fields, keep field = false → field.1 ∈ keys ∧ field.2 = .null) →
    integrityViolation? path (fields.filter keep) = integrityViolation? path fields ∧
    valuesViolation? path (schema.typeAt element) (schema.identifierFor? element)
        (fields.filter keep) =
      valuesViolation? path (schema.typeAt element) (schema.identifierFor? element) fields

/-- The verdicts on paging arguments with distinct keys. -/
theorem verdicts_of_build {steps : List Step} {schema : Schema} (h : build steps = .ok schema)
    (element : TypeId) (path : Path) {fields : List (String × Json)}
    (hd : (fields.map Prod.fst).Nodup) : Verdicts schema element path fields := by
  constructor
  case accepted => exact integrityViolation?_eq_none_iff
  case refused =>
    intro error
    refine ⟨fun hmap => ?_, integrityViolation?_of_choiceRefused⟩
    obtain ⟨violation, hv, rfl⟩ := Option.map_eq_some_iff.mp hmap
    exact choiceRefused_of_integrityViolation? hv
  case values =>
    intro hchosen
    have hchosen := integrityViolation?_eq_none_iff.mp hchosen
    rw [valuesViolation?_eq_none_iff (linked_of_build h) hchosen]
    constructor
    · rintro hall key ⟨found, hfound, present⟩ value hv
      rw [hfound] at hv
      cases hv
      exact hall key found (mem_of_lookup hfound) present
    · intro hall key value hm present
      have hfound := (lookup_eq_some_iff_mem hd).mpr hm
      exact hall key ⟨value, hfound, present⟩ value hfound
  case erasure =>
    intro keep hkeep
    have hnull : ∀ field ∈ fields, keep field = false → field.2 = .null :=
      fun field hm hk => (hkeep field hm hk).2
    refine ⟨integrityViolation?_congr ?_ (isGiven_filter hd hnull) (given_filter hnull), ?_⟩
    · exact find?_unrecognized_filter fun field hm hk => (hkeep field hm hk).1
    · rw [valuesViolation?, valuesViolation?, given_filter hnull]

def mixedPage : List (String × Json) :=
  [("after", .string "x"), ("limit", .null), ("ids", .array [])]

theorem mixedPage_verdicts :
    build UserGraph.steps = .ok userGraph ∧ (mixedPage.map Prod.fst).Nodup ∧
      Verdicts userGraph UserGraph.user (Path.root.extend "users") mixedPage ∧
      ChoiceRefused (Path.root.extend "users") mixedPage
        ⟨.illegalListArgumentsCombination, "root.users",
          "illegal combination of list arguments: after,ids"⟩ ∧
      integrityViolation? (Path.root.extend "users") [("after", .string "x"), ("ids", .array [])] =
        integrityViolation? (Path.root.extend "users") mixedPage := by
  have hbuilt : build UserGraph.steps = .ok userGraph := rfl
  have hd : (mixedPage.map Prod.fst).Nodup := by decide
  have hverdicts := verdicts_of_build hbuilt UserGraph.user (Path.root.extend "users") hd
  refine ⟨hbuilt, hd, hverdicts, ?_, ?_⟩
  · exact (hverdicts.refused _).mp (by decide +kernel)
  · refine (hverdicts.erasure (fun field => field.1 ≠ limit) fun field hm hk => ?_).1
    simp only [ne_eq, decide_eq_false_iff_not, not_not] at hk
    simp only [mixedPage, List.mem_cons, List.not_mem_nil, or_false] at hm
    rcases hm with rfl | rfl | rfl
    · exact absurd hk (by decide)
    · exact ⟨by decide, rfl⟩
    · exact absurd hk (by decide)

end SelectionQuery.Paging
