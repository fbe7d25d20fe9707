/-! # Selectors

A top-level key of a document may request a property under a label of the caller's choice, as in
`users = @admins`. The source is cut into maximal pieces; a character that starts no token is a
piece of its own. Offsets are counted in bytes of UTF-8.
-/
namespace SelectionQuery.Selector

inductive TokenKind where
  | identifier | alias | equals | space
  deriving DecidableEq, Repr

def TokenKind.text : TokenKind → String
  | .identifier => "identifier"
  | .alias => "alias"
  | .equals => "="
  | .space => "space"

def isNameStart (c : Char) : Bool := c.isLower

def isNameRest (c : Char) : Bool := c.isAlphanum || c = '_'

/-- A token with its characters, or a character that starts no token. -/
inductive Piece where
  | token (kind : TokenKind) (chars : List Char)
  | stray (char : Char)
  deriving DecidableEq, Repr

def Piece.kind? : Piece → Option TokenKind
  | .token kind _ => some kind
  | .stray _ => none

def firstPiece (c : Char) (cs : List Char) : Piece × List Char :=
  if isNameStart c then
    (.token .identifier (c :: cs.takeWhile isNameRest), cs.dropWhile isNameRest)
  else if c = '=' then (.token .equals [c], cs)
  else if c = ' ' then (.token .space [c], cs)
  else if c = '@' then
    match cs with
    | d :: ds =>
      if isNameStart d then
        (.token .alias (c :: d :: ds.takeWhile isNameRest), ds.dropWhile isNameRest)
      else (.stray c, cs)
    | [] => (.stray c, cs)
  else (.stray c, cs)

theorem length_firstPiece_le (c : Char) (cs : List Char) :
    (firstPiece c cs).2.length ≤ cs.length := by
  have hname := (List.dropWhile_suffix (l := cs) isNameRest).length_le
  unfold firstPiece
  split
  · exact hname
  · split
    · exact Nat.le_refl _
    · split
      · exact Nat.le_refl _
      · split
        · cases cs with
          | nil => exact Nat.le_refl _
          | cons d ds =>
            have halias := (List.dropWhile_suffix (l := ds) isNameRest).length_le
            dsimp only
            split
            · exact Nat.le_succ_of_le halias
            · exact Nat.le_refl _
        · exact Nat.le_refl _

/-- The whole source in maximal pieces. -/
def pieces : List Char → List Piece
  | [] => []
  | c :: cs => (firstPiece c cs).1 :: pieces (firstPiece c cs).2
termination_by cs => cs.length
decreasing_by exact Nat.lt_succ_of_le (length_firstPiece_le c cs)

structure Span where
  start : Nat
  stop : Nat
  deriving DecidableEq, Repr

structure Token where
  kind : TokenKind
  start : Nat
  text : String
  deriving DecidableEq, Repr

def Token.stop (token : Token) : Nat := token.start + token.text.utf8ByteSize

/-- The tokens before the first stray character, and where that character is. -/
structure Tokenization where
  tokens : List Token
  error : Option Span
  deriving DecidableEq, Repr

def tokensFrom (start : Nat) : List Piece → Tokenization
  | [] => ⟨[], none⟩
  | .stray char :: _ => ⟨[], some ⟨start, start + char.utf8Size⟩⟩
  | .token kind chars :: rest =>
    let token : Token := ⟨kind, start, String.ofList chars⟩
    let following := tokensFrom token.stop rest
    ⟨token :: following.tokens, following.error⟩

def kinds (source : String) : List (Option TokenKind) :=
  (pieces source.toList).map Piece.kind?

def tokenize (source : String) : Tokenization := tokensFrom 0 (pieces source.toList)

/-- A property requested under a label, which is kept without its `@`. -/
structure Aliased where
  property : String
  label : String
  deriving DecidableEq, Repr

def skipSpace : List Token → List Token
  | token :: rest => if token.kind = .space then rest else token :: rest
  | [] => []

def label? : List Token → Option String
  | [token] => if token.kind = .alias then some (String.ofList (token.text.toList.drop 1)) else none
  | _ => none

/-- An identifier, `=` and an alias, with at most one space on either side of `=`. -/
def aliasedOfTokens? : List Token → Option Aliased
  | [] => none
  | property :: rest =>
    if property.kind = .identifier then
      match skipSpace rest with
      | [] => none
      | sign :: rest =>
        if sign.kind = .equals then
          (label? (skipSpace rest)).map fun label => ⟨property.text, label⟩
        else none
    else none

/-- The aliased selector that the whole of a source writes. -/
def parseAliased? (source : String) : Option Aliased :=
  let result := tokenize source
  if result.error.isSome then none else aliasedOfTokens? result.tokens

end SelectionQuery.Selector
