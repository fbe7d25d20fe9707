import SelectionQuery.Proofs.TokenPatterns

/-! # Tiling of a source

The tokens of a source stand side by side from its start up to its end or to the first character
that starts no token. The offsets are counted in bytes and lie between characters, so the bytes
between two of them are the text of a token. The kinds of the tokens are those of the pieces before
the first stray one.
-/
namespace SelectionQuery.Selector

/-- The bytes of a source between two offsets are the text, and both offsets lie between
characters. -/
structure Span.Covers (span : Span) (source text : String) : Prop where
  start_valid : String.Pos.Raw.IsValid source ⟨span.start⟩
  stop_valid : String.Pos.Raw.IsValid source ⟨span.stop⟩
  slice : source.toByteArray.extract span.start span.stop = text.toByteArray

/-- Spans that are not empty and follow each other from one offset to another. -/
inductive Contiguous : Nat → List Span → Nat → Prop
  | nil (offset : Nat) : Contiguous offset [] offset
  | cons {start middle stop : Nat} {spans : List Span} (nonempty : start < middle)
      (following : Contiguous middle spans stop) : Contiguous start (⟨start, middle⟩ :: spans) stop

def Token.span (token : Token) : Span := ⟨token.start, token.stop⟩

/-- The token stands in the source where its span says. -/
structure Token.Placed (token : Token) (source : String) : Prop where
  matched : token.kind.Matches token.text.toList
  covers : token.span.Covers source token.text
  /-- What follows does not go on with a name. -/
  maximal : ∃ earlier later, source = earlier ++ token.text ++ later ∧
    earlier.utf8ByteSize = token.start ∧ (token.kind = .identifier ∨ token.kind = .alias →
      ∀ c, later.toList.head? = some c → ¬IsWordChar c)

/-- The span is the first character of the rest, which no token begins with. -/
structure Span.Stray (span : Span) (source rest : String) : Prop where
  character : ∃ c later, rest = String.singleton c ++ later ∧
    span.Covers source (String.singleton c)
  unmatched : Unmatched rest.toList

/-- The tokens of what follows `before` in a source: they tile the part that is read. -/
structure Tiling (source before read rest : String) (result : Tokenization) : Prop where
  source_eq : source = before ++ read ++ rest
  read_eq : read = String.join (result.tokens.map Token.text)
  contiguous : Contiguous before.utf8ByteSize (result.tokens.map Token.span)
    (before ++ read).utf8ByteSize
  placed : ∀ token ∈ result.tokens, token.Placed source
  complete : result.error = none → rest = ""
  stopped : ∀ span, result.error = some span →
    span.start = (before ++ read).utf8ByteSize ∧ span.Stray source rest

theorem covers_of_eq {source before text after : String} (h : source = before ++ text ++ after) :
    Span.Covers ⟨before.utf8ByteSize, before.utf8ByteSize + text.utf8ByteSize⟩ source text := by
  refine ⟨?_, ?_, ?_⟩
  · exact String.Pos.Raw.isValid_iff_exists_append.mpr
      ⟨before, text ++ after, by rw [h, String.append_assoc], rfl⟩
  · refine String.Pos.Raw.isValid_iff_exists_append.mpr ⟨before ++ text, after, h, ?_⟩
    rw [String.rawEndPos, String.utf8ByteSize_append]
  · rw [h, String.append_assoc, String.toByteArray_append, String.toByteArray_append]
    have hskip := ByteArray.extract_append_size_add (a := before.toByteArray)
      (b := text.toByteArray ++ after.toByteArray) (i := 0) (j := text.toByteArray.size)
    exact hskip.trans (ByteArray.extract_append_eq_left rfl)

theorem tiling_nil (before : String) : Tiling (before ++ "") before "" "" ⟨[], none⟩ := by
  refine ⟨String.append_empty.symm, rfl, ?_, nofun, fun _ => rfl, nofun⟩
  rw [String.append_empty]
  exact .nil _

theorem tiling_stray {c : Char} {later : List Char} (before : String) (h : Unmatched (c :: later)) :
    Tiling (before ++ String.ofList (c :: later)) before "" (String.ofList (c :: later))
      ⟨[], some ⟨before.utf8ByteSize, before.utf8ByteSize + c.utf8Size⟩⟩ := by
  refine ⟨by rw [String.append_empty], rfl, ?_, nofun, nofun, fun span hspan => ?_⟩
  · rw [String.append_empty]
    exact .nil _
  · cases hspan
    rw [String.append_empty]
    refine ⟨rfl, ⟨c, String.ofList later, String.ofList_cons, ?_⟩, ?_⟩
    · rw [← String.utf8ByteSize_singleton]
      exact covers_of_eq (by rw [String.ofList_cons, String.append_assoc])
    · rwa [String.toList_ofList]

theorem LongestMatch.placed {kind : TokenKind} {chars later : List Char}
    (h : LongestMatch kind chars later) (before : String) :
    Token.Placed ⟨kind, before.utf8ByteSize, String.ofList chars⟩
      (before ++ String.ofList chars ++ String.ofList later) := by
  refine ⟨?_, covers_of_eq rfl, before, String.ofList later, rfl, rfl, ?_⟩
  · rw [String.toList_ofList]
    exact h.matched
  · intro hkind c hc
    rw [String.toList_ofList] at hc
    exact h.not_isWordChar hkind hc

theorem Tiling.cons {kind : TokenKind} {chars later : List Char} {before read rest : String}
    {result : Tokenization} (hfirst : LongestMatch kind chars later)
    (h : Tiling (before ++ String.ofList chars ++ String.ofList later)
      (before ++ String.ofList chars) read rest result) :
    Tiling (before ++ String.ofList chars ++ String.ofList later) before
      (String.ofList chars ++ read) rest
      ⟨⟨kind, before.utf8ByteSize, String.ofList chars⟩ :: result.tokens, result.error⟩ := by
  have hpos : 0 < (String.ofList chars).utf8ByteSize := by
    refine Nat.pos_of_ne_zero fun hzero => not_matches_nil kind ?_
    have hnil : chars = [] := String.ofList_eq_empty_iff.mp (String.utf8ByteSize_eq_zero_iff.mp hzero)
    exact hnil ▸ hfirst.matched
  refine ⟨?_, ?_, ?_, ?_, h.complete, ?_⟩
  · rw [h.source_eq, ← String.append_assoc]
  · rw [List.map_cons, String.join_cons, ← h.read_eq]
  · rw [← String.append_assoc]
    have hfollowing := h.contiguous
    rw [String.utf8ByteSize_append (s := before)] at hfollowing
    exact .cons (Nat.lt_add_of_pos_right hpos) hfollowing
  · intro token hm
    rcases List.mem_cons.mp hm with rfl | hm
    · exact hfirst.placed before
    · exact h.placed token hm
  · intro span hspan
    rw [← String.append_assoc]
    exact h.stopped span hspan

theorem tiling_tokensFrom {source : List Char} {pieces : List Piece} (h : Munch source pieces)
    (before : String) :
    ∃ read rest, Tiling (before ++ String.ofList source) before read rest
      (tokensFrom before.utf8ByteSize pieces) := by
  induction h generalizing before with
  | nil =>
    rw [String.ofList_nil]
    exact ⟨"", "", tiling_nil before⟩
  | @token kind chars later pieces first following ih =>
    obtain ⟨read, rest, h⟩ := ih (before ++ String.ofList chars)
    have htiling := h.cons first
    rw [String.ofList_append, ← String.append_assoc]
    rw [String.utf8ByteSize_append] at htiling
    exact ⟨_, _, htiling⟩
  | stray first following _ => exact ⟨_, _, tiling_stray before first⟩

theorem tiling_tokenize (source : String) :
    ∃ read rest, Tiling source "" read rest (tokenize source) := by
  have h := tiling_tokensFrom (munch_pieces source.toList) ""
  rwa [String.ofList_toList, String.empty_append] at h

theorem map_kind_tokensFrom (start : Nat) (pieces : List Piece) :
    (tokensFrom start pieces).tokens.map (fun token => some token.kind) =
      (pieces.map Piece.kind?).takeWhile Option.isSome := by
  induction pieces generalizing start with
  | nil => rfl
  | cons piece pieces ih =>
    cases piece with
    | token kind chars =>
      simp only [tokensFrom, List.map_cons, Piece.kind?, List.takeWhile_cons, Option.isSome_some, ih,
        if_true]
    | stray c => rfl

theorem error_tokensFrom_isSome_iff (start : Nat) (pieces : List Piece) :
    (tokensFrom start pieces).error.isSome = true ↔ none ∈ pieces.map Piece.kind? := by
  induction pieces generalizing start with
  | nil => simp [tokensFrom]
  | cons piece pieces ih =>
    cases piece with
    | token kind chars => simp [tokensFrom, Piece.kind?, ih]
    | stray c => simp [tokensFrom, Piece.kind?]

/-- The tokens of a source tile what is read of it, each where its span says and as long as it can
be. All is read unless a character starts no token. The stream of all pieces is a cut into longest
matches, and the tokens are its beginning before the first stray character. -/
theorem tokenize_tiles (source : String) :
    ∃ read rest stream, source = read ++ rest ∧
      read = String.join ((tokenize source).tokens.map Token.text) ∧
      Contiguous 0 ((tokenize source).tokens.map Token.span) read.utf8ByteSize ∧
      (∀ token ∈ (tokenize source).tokens, token.Placed source) ∧
      ((tokenize source).error = none → rest = "" ∧ read.utf8ByteSize = source.utf8ByteSize) ∧
      (∀ span, (tokenize source).error = some span →
        span.start = read.utf8ByteSize ∧ span.Stray source rest) ∧
      Munch source.toList stream ∧ kinds source = stream.map Piece.kind? ∧
      (tokenize source).tokens.map (fun token => some token.kind) =
        (kinds source).takeWhile Option.isSome ∧
      ((tokenize source).error.isSome = true ↔ none ∈ kinds source) := by
  obtain ⟨read, rest, h⟩ := tiling_tokenize source
  have hsource := h.source_eq
  have hspans := h.contiguous
  have hstopped := h.stopped
  simp only [String.empty_append] at hsource hspans hstopped
  refine ⟨read, rest, pieces source.toList, hsource, h.read_eq, hspans, h.placed, fun herror => ?_,
    hstopped, munch_pieces _, rfl, map_kind_tokensFrom 0 _, error_tokensFrom_isSome_iff 0 _⟩
  have hrest := h.complete herror
  rw [hrest, String.append_empty] at hsource
  exact ⟨hrest, by rw [hsource]⟩

-- the stray character has two bytes
example : tokenize "a =é" =
    ⟨[⟨.identifier, 0, "a"⟩, ⟨.space, 1, " "⟩, ⟨.equals, 2, "="⟩], some ⟨3, 5⟩⟩ := by
  decide +kernel

end SelectionQuery.Selector
