import SelectionQuery.Proofs.SourceTiling

/-! # Grammar of aliased selectors

An aliased selector is written as a name, `=`, `@` and a name, with at most one space on either side
of `=`. Reading accepts exactly what is written so and gives the two names back. The way in which a
source is written is unique, because a name ends only where it cannot go on.
-/
namespace SelectionQuery.Selector

def gap : Bool → String
  | false => ""
  | true => " "

/-- The selector as it is written, with or without a space before and after `=`. -/
def Aliased.write (selector : Aliased) (before after : Bool) : String :=
  selector.property ++ gap before ++ "=" ++ gap after ++ "@" ++ selector.label

structure Aliased.Valid (selector : Aliased) : Prop where
  property : IsName selector.property.toList
  label : IsName selector.label.toList

def joined (tokens : List Token) : String := String.join (tokens.map Token.text)

def AllMatch (tokens : List Token) : Prop := ∀ token ∈ tokens, token.kind.Matches token.text.toList

theorem joined_cons (token : Token) (tokens : List Token) :
    joined (token :: tokens) = token.text ++ joined tokens := String.join_cons

theorem allMatch_cons {token : Token} {tokens : List Token} :
    AllMatch (token :: tokens) ↔ token.kind.Matches token.text.toList ∧ AllMatch tokens :=
  List.forall_mem_cons

theorem joined_skipSpace {tokens : List Token} (h : AllMatch tokens) :
    AllMatch (skipSpace tokens) ∧
      ∃ before, joined tokens = gap before ++ joined (skipSpace tokens) := by
  cases tokens with
  | nil => exact ⟨nofun, false, rfl⟩
  | cons token rest =>
    obtain ⟨hfirst, hrest⟩ := allMatch_cons.mp h
    rw [skipSpace]
    split
    next hspace =>
      rw [hspace, matches_space] at hfirst
      refine ⟨hrest, true, ?_⟩
      rw [joined_cons, ← String.ofList_toList (s := token.text), hfirst]
      rfl
    next => exact ⟨h, false, String.empty_append.symm⟩

theorem joined_of_label? {tokens : List Token} (h : AllMatch tokens) {label : String}
    (hlabel : label? tokens = some label) : IsName label.toList ∧ joined tokens = "@" ++ label := by
  unfold label? at hlabel
  split at hlabel
  next token =>
    split at hlabel
    next hkind =>
      have hfirst := (allMatch_cons.mp h).1
      rw [hkind, matches_alias] at hfirst
      obtain ⟨name, htext, hname⟩ := hfirst
      cases hlabel
      rw [htext, List.drop_succ_cons, List.drop_zero, String.toList_ofList]
      refine ⟨hname, ?_⟩
      rw [joined_cons, ← String.ofList_toList (s := token.text), htext, String.ofList_cons]
      rw [joined, List.map_nil, String.join_nil, String.append_empty]
      rfl
    next => cases hlabel
  next => cases hlabel

theorem joined_of_aliasedOfTokens? {tokens : List Token} (h : AllMatch tokens) {selector : Aliased}
    (hread : aliasedOfTokens? tokens = some selector) :
    selector.Valid ∧ ∃ before after, joined tokens = selector.write before after := by
  cases tokens with
  | nil => cases hread
  | cons property rest =>
    obtain ⟨hproperty, hrest⟩ := allMatch_cons.mp h
    obtain ⟨hrest, before, hbefore⟩ := joined_skipSpace hrest
    rw [aliasedOfTokens?] at hread
    split at hread
    next hidentifier =>
      rw [hidentifier, matches_identifier] at hproperty
      split at hread
      next => cases hread
      next sign following hskip =>
        rw [hskip] at hrest hbefore
        obtain ⟨hsign, hfollowing⟩ := allMatch_cons.mp hrest
        obtain ⟨hfollowing, after, hafter⟩ := joined_skipSpace hfollowing
        split at hread
        next hequals =>
          rw [hequals, matches_equals] at hsign
          obtain ⟨label, hlabel, rfl⟩ := Option.map_eq_some_iff.mp hread
          obtain ⟨hname, hend⟩ := joined_of_label? hfollowing hlabel
          have htext : sign.text = "=" := by
            rw [← String.ofList_toList (s := sign.text), hsign]
          refine ⟨⟨hproperty, hname⟩, before, after, ?_⟩
          rw [joined_cons, hbefore, joined_cons, hafter, hend, htext]
          simp only [Aliased.write, String.append_assoc]
        next => cases hread
    next => cases hread

theorem written_of_parseAliased? {source : String} {selector : Aliased}
    (h : parseAliased? source = some selector) :
    selector.Valid ∧ ∃ before after, source = selector.write before after := by
  obtain ⟨read, rest, htiling⟩ := tiling_tokenize source
  rw [parseAliased?] at h
  split at h
  next => cases h
  next herror =>
    have hnone : (tokenize source).error = none := Option.not_isSome_iff_eq_none.mp herror
    have hsource : source = joined (tokenize source).tokens := by
      have hparts := htiling.source_eq
      rwa [htiling.complete hnone, htiling.read_eq, String.empty_append, String.append_empty] at hparts
    obtain ⟨hvalid, before, after, hwritten⟩ :=
      joined_of_aliasedOfTokens? (fun token hm => (htiling.placed token hm).matched) h
    exact ⟨hvalid, before, after, hsource.trans hwritten⟩

/-- What follows a name, if it does not go on with it. -/
def Ends (rest : List Char) : Prop := ∀ c, rest.head? = some c → ¬IsWordChar c

theorem span_of_ends {word rest : List Char} (hword : ∀ c ∈ word, IsWordChar c) (hrest : Ends rest) :
    (word ++ rest).takeWhile isNameRest = word ∧ (word ++ rest).dropWhile isNameRest = rest := by
  have hall : ∀ c ∈ word, isNameRest c = true := fun c hc => isNameRest_iff.mpr (hword c hc)
  rw [List.takeWhile_append_of_pos hall, List.dropWhile_append_of_pos hall]
  cases rest with
  | nil => simp
  | cons c rest =>
    have hstop : ¬isNameRest c = true := fun h => hrest c rfl (isNameRest_iff.mp h)
    rw [List.takeWhile_cons_of_neg hstop, List.dropWhile_cons_of_neg hstop]
    simp

theorem pieces_name {name rest : List Char} (hname : IsName name) (hrest : Ends rest) :
    pieces (name ++ rest) = .token .identifier name :: pieces rest := by
  obtain ⟨first, word, rfl, hfirst, hword⟩ := hname
  obtain ⟨htake, hdrop⟩ := span_of_ends hword hrest
  have hcut : firstPiece first (word ++ rest) =
      (.token .identifier (first :: (word ++ rest).takeWhile isNameRest),
        (word ++ rest).dropWhile isNameRest) := if_pos (isNameStart_iff.mpr hfirst)
  rw [List.cons_append, pieces, hcut, htake, hdrop]

theorem pieces_label {name rest : List Char} (hname : IsName name) (hrest : Ends rest) :
    pieces ('@' :: name ++ rest) = .token .alias ('@' :: name) :: pieces rest := by
  obtain ⟨first, word, rfl, hfirst, hword⟩ := hname
  obtain ⟨htake, hdrop⟩ := span_of_ends hword hrest
  have hcut : firstPiece '@' (first :: (word ++ rest)) =
      (.token .alias ('@' :: first :: (word ++ rest).takeWhile isNameRest),
        (word ++ rest).dropWhile isNameRest) := if_pos (isNameStart_iff.mpr hfirst)
  rw [List.cons_append, List.cons_append, pieces, hcut, htake, hdrop]

theorem pieces_equals (rest : List Char) :
    pieces ('=' :: rest) = .token .equals ['='] :: pieces rest := by
  rw [pieces]
  rfl

def gapPieces : Bool → List Piece
  | false => []
  | true => [.token .space [' ']]

theorem pieces_gap (before : Bool) (rest : List Char) :
    pieces ((gap before).toList ++ rest) = gapPieces before ++ pieces rest := by
  cases before with
  | false => rfl
  | true =>
    have hspace : (gap true).toList = [' '] := rfl
    rw [hspace, List.singleton_append, pieces]
    rfl

theorem pieces_write {selector : Aliased} (h : selector.Valid) (before after : Bool) :
    pieces (selector.write before after).toList =
      .token .identifier selector.property.toList ::
        (gapPieces before ++ .token .equals ['='] ::
          (gapPieces after ++ [.token .alias ('@' :: selector.label.toList)])) := by
  have hends : ∀ rest, Ends ((gap before).toList ++ '=' :: rest) := by
    intro rest c hc
    cases before with
    | false | true =>
      cases hc
      decide
  have hend : Ends [] := fun c hc => nomatch hc
  have hchars : (selector.write before after).toList = selector.property.toList ++
      ((gap before).toList ++ '=' :: ((gap after).toList ++ ('@' :: selector.label.toList ++ []))) := by
    simp [Aliased.write]
  rw [hchars, pieces_name h.property (hends _), pieces_gap, pieces_equals, pieces_gap,
    pieces_label h.label hend, pieces]

theorem parseAliased?_write {selector : Aliased} (h : selector.Valid) (before after : Bool) :
    parseAliased? (selector.write before after) = some selector := by
  rw [parseAliased?, tokenize, pieces_write h]
  cases before <;> cases after <;>
    simp [gapPieces, tokensFrom, aliasedOfTokens?, skipSpace, label?]

theorem write_unique {selector other : Aliased} (h : selector.Valid) (hother : other.Valid)
    {before after before' after' : Bool}
    (heq : selector.write before after = other.write before' after') :
    selector = other ∧ before = before' ∧ after = after' := by
  have hread := parseAliased?_write h before after
  rw [heq, parseAliased?_write hother] at hread
  have hpieces := pieces_write h before after
  rw [heq, pieces_write hother] at hpieces
  refine ⟨(Option.some.inj hread).symm, ?_⟩
  cases before <;> cases before' <;> cases after <;> cases after' <;>
    simp [gapPieces] at hpieces ⊢

/-- Reading accepts exactly the written selectors, each of which is written in one way only and read
back as it was. -/
theorem parseAliased?_reads_grammar :
    (∀ source (selector : Aliased), parseAliased? source = some selector ↔
      selector.Valid ∧ ∃ before after, source = selector.write before after) ∧
    (∀ (selector other : Aliased) (before after before' after' : Bool), selector.Valid →
      other.Valid → selector.write before after = other.write before' after' →
        selector = other ∧ before = before' ∧ after = after') ∧
    ∀ (selector : Aliased) (before after : Bool), selector.Valid →
      parseAliased? (selector.write before after) = some selector := by
  refine ⟨fun source selector => ⟨written_of_parseAliased?, ?_⟩, ?_, ?_⟩
  · rintro ⟨hvalid, before, after, rfl⟩
    exact parseAliased?_write hvalid before after
  · intro selector other before after before' after' hvalid hother
    exact write_unique hvalid hother
  · intro selector before after hvalid
    exact parseAliased?_write hvalid before after

theorem birthDate_reads_grammar :
    Aliased.Valid ⟨"birth_Date2", "born_On_"⟩ ∧
      Aliased.write ⟨"birth_Date2", "born_On_"⟩ false true = "birth_Date2= @born_On_" ∧
      parseAliased? "birth_Date2= @born_On_" = some ⟨"birth_Date2", "born_On_"⟩ ∧
      parseAliased? "birth_Date2=  @born_On_" = none := by
  have hvalid : Aliased.Valid ⟨"birth_Date2", "born_On_"⟩ := ⟨by decide +kernel, by decide +kernel⟩
  have hwritten : Aliased.write ⟨"birth_Date2", "born_On_"⟩ false true = "birth_Date2= @born_On_" := by
    decide +kernel
  have hread := parseAliased?_reads_grammar.2.2 ⟨"birth_Date2", "born_On_"⟩ false true hvalid
  rw [hwritten] at hread
  exact ⟨hvalid, hwritten, hread, by decide +kernel⟩

end SelectionQuery.Selector
