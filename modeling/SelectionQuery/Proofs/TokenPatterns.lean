import Mathlib.Computability.RegularExpressions
import Mathlib.Data.List.TakeWhile
import SelectionQuery.Selector

/-! # Patterns of tokens

The kinds of tokens are given by regular expressions. The first piece of a source is its longest
beginning that some kind matches, or its first character if no beginning is matched, and the pieces
of a source are cut off one after the other. So names are never cut short: what follows one does not
go on with it.
-/
namespace SelectionQuery.Selector
open RegularExpression

def IsLowercase (c : Char) : Prop := 'a' ≤ c ∧ c ≤ 'z'

def IsWordChar (c : Char) : Prop :=
  IsLowercase c ∨ ('A' ≤ c ∧ c ≤ 'Z') ∨ ('0' ≤ c ∧ c ≤ '9') ∨ c = '_'

instance : DecidablePred IsLowercase := fun c => inferInstanceAs (Decidable ('a' ≤ c ∧ c ≤ 'z'))

instance : DecidablePred IsWordChar := fun c => inferInstanceAs (Decidable
  (IsLowercase c ∨ ('A' ≤ c ∧ c ≤ 'Z') ∨ ('0' ≤ c ∧ c ≤ '9') ∨ c = '_'))

/-- A lower-case letter followed by any number of word characters. -/
def IsName (chars : List Char) : Prop :=
  ∃ first rest, chars = first :: rest ∧ IsLowercase first ∧ ∀ c ∈ rest, IsWordChar c

theorem le_and_le_iff {first last c : Char} :
    (decide (c.val ≥ first.val) && decide (c.val ≤ last.val)) = true ↔ first ≤ c ∧ c ≤ last := by
  rw [Bool.and_eq_true, decide_eq_true_eq, decide_eq_true_eq, Char.le_def, Char.le_def]

theorem isNameStart_iff {c : Char} : isNameStart c = true ↔ IsLowercase c := le_and_le_iff

theorem isNameRest_iff {c : Char} : isNameRest c = true ↔ IsWordChar c := by
  have hupper : c.isUpper = true ↔ 'A' ≤ c ∧ c ≤ 'Z' := decide_eq_true_iff
  have hlower : c.isLower = true ↔ IsLowercase c := le_and_le_iff
  have hdigit : c.isDigit = true ↔ '0' ≤ c ∧ c ≤ '9' := le_and_le_iff
  have halpha : c.isAlpha = true ↔ c.isUpper = true ∨ c.isLower = true := Bool.or_eq_true_iff
  simp only [isNameRest, IsWordChar, Char.isAlphanum, Bool.or_eq_true, halpha, hupper, hlower, hdigit,
    decide_eq_true_eq]
  tauto

instance : DecidablePred IsName
  | [] => .isFalse (by simp [IsName])
  | first :: rest => decidable_of_iff (isNameStart first = true ∧ rest.all isNameRest = true)
      (by simp [IsName, isNameStart_iff, isNameRest_iff])

theorem IsName.append {chars more : List Char} (h : IsName chars) (hmore : ∀ c ∈ more, IsWordChar c) :
    IsName (chars ++ more) := by
  obtain ⟨first, rest, rfl, hfirst, hrest⟩ := h
  refine ⟨first, rest ++ more, rfl, hfirst, fun c hc => ?_⟩
  rcases List.mem_append.mp hc with hc | hc
  · exact hrest c hc
  · exact hmore c hc

def charRange (first last : Char) : List Char :=
  (List.range' first.toNat (last.toNat + 1 - first.toNat)).map Char.ofNat

def oneOf (chars : List Char) : RegularExpression Char := (chars.map char).sum

def lowercase : List Char := charRange 'a' 'z'

def wordChars : List Char := charRange 'a' 'z' ++ charRange 'A' 'Z' ++ charRange '0' '9' ++ ['_']

def namePattern : RegularExpression Char := oneOf lowercase * star (oneOf wordChars)

def TokenKind.pattern : TokenKind → RegularExpression Char
  | .identifier => namePattern
  | .alias => char '@' * namePattern
  | .equals => char '='
  | .space => char ' '

def TokenKind.Matches (kind : TokenKind) (chars : List Char) : Prop :=
  chars ∈ kind.pattern.matches'

theorem mem_charRange {first last c : Char} (h : last.toNat < 0xd800) :
    c ∈ charRange first last ↔ first ≤ c ∧ c ≤ last := by
  simp only [charRange, List.mem_map, List.mem_range'_1, Char.le_def, UInt32.le_iff_toNat_le]
  constructor
  · rintro ⟨n, hn, rfl⟩
    have hvalid : n.isValidChar := .inl (by omega)
    have hval : (Char.ofNat n).val.toNat = n := by
      rw [Char.ofNat, dif_pos hvalid]
      rfl
    change first.toNat ≤ _ ∧ _ ≤ last.toNat
    omega
  · intro hc
    change first.toNat ≤ c.toNat ∧ c.toNat ≤ last.toNat at hc
    exact ⟨c.toNat, by omega, Char.ofNat_toNat c⟩

theorem mem_lowercase {c : Char} : c ∈ lowercase ↔ IsLowercase c := mem_charRange (by decide)

theorem mem_wordChars {c : Char} : c ∈ wordChars ↔ IsWordChar c := by
  have hlower : c ∈ charRange 'a' 'z' ↔ IsLowercase c := mem_charRange (by decide)
  have hupper : c ∈ charRange 'A' 'Z' ↔ 'A' ≤ c ∧ c ≤ 'Z' := mem_charRange (by decide)
  have hdigit : c ∈ charRange '0' '9' ↔ '0' ≤ c ∧ c ≤ '9' := mem_charRange (by decide)
  simp only [wordChars, List.mem_append, hlower, hupper, hdigit, List.mem_singleton, IsWordChar,
    or_assoc]

theorem mem_matches_oneOf {chars word : List Char} :
    word ∈ (oneOf chars).matches' ↔ ∃ c ∈ chars, word = [c] := by
  induction chars with
  | nil => simp [oneOf, Language.notMem_zero]
  | cons c chars ih =>
    have hsum : oneOf (c :: chars) = char c + oneOf chars := rfl
    rw [hsum, matches'_add, Language.mem_add, ih, List.exists_mem_cons_iff]
    rfl

theorem mem_matches_star_oneOf {chars word : List Char} :
    word ∈ (star (oneOf chars)).matches' ↔ ∀ c ∈ word, c ∈ chars := by
  rw [matches'_star, Language.mem_kstar]
  constructor
  · rintro ⟨parts, rfl, hparts⟩ c hc
    obtain ⟨part, hpart, hc⟩ := List.mem_flatten.mp hc
    obtain ⟨d, hd, rfl⟩ := mem_matches_oneOf.mp (hparts part hpart)
    rwa [List.mem_singleton.mp hc]
  · intro h
    refine ⟨word.map fun c => [c], ?_, fun part hpart => ?_⟩
    · rw [← List.flatMap_def, List.flatMap_singleton']
    · obtain ⟨c, hc, rfl⟩ := List.mem_map.mp hpart
      exact mem_matches_oneOf.mpr ⟨c, h c hc, rfl⟩

theorem mem_matches_namePattern {word : List Char} : word ∈ namePattern.matches' ↔ IsName word := by
  simp only [namePattern, matches'_mul, Language.mem_mul, mem_matches_oneOf, mem_matches_star_oneOf,
    mem_lowercase, mem_wordChars]
  constructor
  · rintro ⟨_, ⟨first, hfirst, rfl⟩, rest, hrest, rfl⟩
    exact ⟨first, rest, rfl, hfirst, hrest⟩
  · rintro ⟨first, rest, rfl, hfirst, hrest⟩
    exact ⟨[first], ⟨first, hfirst, rfl⟩, rest, hrest, rfl⟩

section Matching
variable {chars : List Char}

theorem matches_identifier : TokenKind.identifier.Matches chars ↔ IsName chars := mem_matches_namePattern

theorem matches_alias :
    TokenKind.alias.Matches chars ↔ ∃ label, chars = '@' :: label ∧ IsName label := by
  simp only [TokenKind.Matches, TokenKind.pattern, matches'_mul, Language.mem_mul, matches'_char,
    mem_matches_namePattern]
  constructor
  · rintro ⟨_, rfl, label, hlabel, rfl⟩
    exact ⟨label, rfl, hlabel⟩
  · rintro ⟨label, rfl, hlabel⟩
    exact ⟨['@'], rfl, label, hlabel, rfl⟩

theorem matches_equals : TokenKind.equals.Matches chars ↔ chars = ['='] := Iff.rfl

theorem matches_space : TokenKind.space.Matches chars ↔ chars = [' '] := Iff.rfl

theorem matches_cons {kind : TokenKind} {c : Char} :
    kind.Matches (c :: chars) ↔
      (kind = .identifier ∧ IsLowercase c ∧ ∀ d ∈ chars, IsWordChar d) ∨
      (kind = .alias ∧ c = '@' ∧ IsName chars) ∨
      (kind = .equals ∧ c = '=' ∧ chars = []) ∨ (kind = .space ∧ c = ' ' ∧ chars = []) := by
  cases kind <;> simp [matches_identifier, matches_alias, matches_equals, matches_space, IsName]

theorem not_matches_nil (kind : TokenKind) : ¬kind.Matches [] := by
  cases kind <;> simp [matches_identifier, matches_alias, matches_equals, matches_space, IsName]

end Matching

/-- The characters match, and nothing longer at the start of the source does. -/
structure LongestMatch (kind : TokenKind) (chars rest : List Char) : Prop where
  matched : kind.Matches chars
  longest : ∀ (other : TokenKind) (word : List Char), word <+: chars ++ rest →
    other.Matches word → word.length ≤ chars.length

/-- No token stands at the start of the source. -/
def Unmatched (source : List Char) : Prop :=
  ∀ (kind : TokenKind) (word : List Char), word <+: source → ¬kind.Matches word

/-- A source cut into longest matches and characters where nothing is matched. -/
inductive Munch : List Char → List Piece → Prop
  | nil : Munch [] []
  | token {kind : TokenKind} {chars rest : List Char} {pieces : List Piece}
      (first : LongestMatch kind chars rest) (following : Munch rest pieces) :
      Munch (chars ++ rest) (.token kind chars :: pieces)
  | stray {c : Char} {rest : List Char} {pieces : List Piece} (first : Unmatched (c :: rest))
      (following : Munch rest pieces) : Munch (c :: rest) (.stray c :: pieces)

theorem matches_of_prefix_cons {kind : TokenKind} {word : List Char} {c : Char} {cs : List Char}
    (h : word <+: c :: cs) (hmatch : kind.Matches word) :
    ∃ rest, word = c :: rest ∧ rest <+: cs ∧ kind.Matches (c :: rest) := by
  rcases List.prefix_cons_iff.mp h with rfl | ⟨rest, rfl, hrest⟩
  · exact absurd hmatch (not_matches_nil kind)
  · exact ⟨rest, rfl, hrest, hmatch⟩

theorem length_le_takeWhile {word source : List Char} (h : word <+: source)
    (hword : ∀ c ∈ word, IsWordChar c) : word.length ≤ (source.takeWhile isNameRest).length := by
  obtain ⟨rest, rfl⟩ := h
  rw [List.takeWhile_append_of_pos fun c hc => isNameRest_iff.mpr (hword c hc), List.length_append]
  omega

theorem isWordChar_of_mem_takeWhile {source : List Char} :
    ∀ c ∈ source.takeWhile isNameRest, IsWordChar c :=
  fun _ hc => isNameRest_iff.mp (List.mem_takeWhile_imp hc)

theorem longestMatch_identifier {c : Char} (hc : IsLowercase c) (cs : List Char) :
    LongestMatch .identifier (c :: cs.takeWhile isNameRest) (cs.dropWhile isNameRest) := by
  refine ⟨matches_identifier.mpr ⟨c, _, rfl, hc, isWordChar_of_mem_takeWhile⟩, ?_⟩
  rw [List.cons_append, List.takeWhile_append_dropWhile]
  intro other word hword hmatch
  obtain ⟨rest, rfl, hrest, hmatch⟩ := matches_of_prefix_cons hword hmatch
  rcases matches_cons.mp hmatch with ⟨_, _, hall⟩ | ⟨_, rfl, _⟩ | ⟨_, rfl, _⟩ | ⟨_, rfl, _⟩
  · exact Nat.succ_le_succ (length_le_takeWhile hrest hall)
  all_goals exact absurd hc (by decide)

theorem longestMatch_alias {d : Char} (hd : IsLowercase d) (ds : List Char) :
    LongestMatch .alias ('@' :: d :: ds.takeWhile isNameRest) (ds.dropWhile isNameRest) := by
  refine ⟨matches_alias.mpr ⟨_, rfl, d, _, rfl, hd, isWordChar_of_mem_takeWhile⟩, ?_⟩
  rw [List.cons_append, List.cons_append, List.takeWhile_append_dropWhile]
  intro other word hword hmatch
  obtain ⟨rest, rfl, hrest, hmatch⟩ := matches_of_prefix_cons hword hmatch
  rcases matches_cons.mp hmatch with ⟨_, h, _⟩ | ⟨_, _, _, _, rfl, _, hall⟩ | ⟨_, h, _⟩ | ⟨_, h, _⟩
  · exact absurd h (by decide)
  · have hlabel := (List.cons_prefix_cons.mp hrest).2
    exact Nat.succ_le_succ (Nat.succ_le_succ (length_le_takeWhile hlabel hall))
  all_goals exact absurd h (by decide)

theorem longestMatch_single {kind : TokenKind} {c : Char} (hmatch : kind.Matches [c])
    (hlower : ¬IsLowercase c) (hat : c ≠ '@') (cs : List Char) : LongestMatch kind [c] cs := by
  refine ⟨hmatch, fun other word hword hother => ?_⟩
  obtain ⟨rest, rfl, _, hother⟩ := matches_of_prefix_cons hword hother
  rcases matches_cons.mp hother with ⟨_, h, _⟩ | ⟨_, h, _⟩ | ⟨_, _, rfl⟩ | ⟨_, _, rfl⟩
  · exact absurd h hlower
  · exact absurd h hat
  all_goals exact Nat.le_refl _

/-- A character starts no token if it is none of those that do, an `@` being one of them only before
a name. -/
theorem unmatched_cons {c : Char} {cs : List Char} (hlower : ¬IsLowercase c) (heq : c ≠ '=')
    (hspace : c ≠ ' ') (hat : c = '@' → ∀ d ds, cs = d :: ds → ¬IsLowercase d) :
    Unmatched (c :: cs) := by
  intro kind word hword hmatch
  obtain ⟨rest, rfl, hrest, hmatch⟩ := matches_of_prefix_cons hword hmatch
  rcases matches_cons.mp hmatch with ⟨_, h, _⟩ | ⟨_, h, d, label, rfl, hd, _⟩ | ⟨_, h, _⟩ | ⟨_, h, _⟩
  · exact hlower h
  · obtain ⟨ds, rfl⟩ := hrest
    exact hat h d (label ++ ds) rfl hd
  · exact heq h
  · exact hspace h

/-- The first piece is a longest match or a character where nothing is matched. -/
theorem munch_firstPiece {c : Char} {cs : List Char} {pieces : List Piece}
    (h : Munch (firstPiece c cs).2 pieces) : Munch (c :: cs) ((firstPiece c cs).1 :: pieces) := by
  unfold firstPiece at h ⊢
  split_ifs at h ⊢ with hlower heq hspace hat
  · have hmunch := Munch.token (longestMatch_identifier (isNameStart_iff.mp hlower) cs) h
    rwa [List.cons_append, List.takeWhile_append_dropWhile] at hmunch
  · subst heq
    exact .token (longestMatch_single (matches_equals.mpr rfl) (by decide) (by decide) cs) h
  · subst hspace
    exact .token (longestMatch_single (matches_space.mpr rfl) (by decide) (by decide) cs) h
  · subst hat
    have hnot := fun h => hlower (isNameStart_iff.mpr h)
    cases cs with
    | nil => exact .stray (unmatched_cons hnot heq hspace nofun) h
    | cons d ds =>
      dsimp only at h ⊢
      split_ifs at h ⊢ with hd
      · have hmunch := Munch.token (longestMatch_alias (isNameStart_iff.mp hd) ds) h
        rwa [List.cons_append, List.cons_append, List.takeWhile_append_dropWhile] at hmunch
      · refine .stray (unmatched_cons hnot heq hspace fun _ first rest hcons => ?_) h
        cases hcons
        exact fun hfirst => hd (isNameStart_iff.mpr hfirst)
  · have hnot := fun h => hlower (isNameStart_iff.mpr h)
    exact .stray (unmatched_cons hnot heq hspace fun h => absurd h hat) h

theorem munch_pieces (source : List Char) : Munch source (pieces source) := by
  fun_induction pieces source with
  | case1 => exact .nil
  | case2 c cs ih => exact munch_firstPiece ih

theorem LongestMatch.not_isWordChar {kind : TokenKind} {chars rest : List Char}
    (h : LongestMatch kind chars rest) (hkind : kind = .identifier ∨ kind = .alias) {c : Char}
    (hc : rest.head? = some c) : ¬IsWordChar c := by
  intro hword
  obtain ⟨rest, rfl⟩ := List.head?_eq_some_iff.mp hc
  have hmore : ∀ d ∈ [c], IsWordChar d := by
    intro d hd
    rwa [List.mem_singleton.mp hd]
  have hlonger : kind.Matches (chars ++ [c]) := by
    rcases hkind with rfl | rfl
    · exact matches_identifier.mpr ((matches_identifier.mp h.matched).append hmore)
    · obtain ⟨label, rfl, hlabel⟩ := matches_alias.mp h.matched
      exact matches_alias.mpr ⟨label ++ [c], rfl, hlabel.append hmore⟩
  have hle := h.longest kind (chars ++ [c]) ⟨rest, by simp⟩ hlonger
  rw [List.length_append, List.length_singleton] at hle
  omega

end SelectionQuery.Selector
