/-! # Paths

A path is the non-empty trail of tokens from the top of a document to a place in it. Extending a
path shares its tokens, so siblings have their common beginning once.
-/
namespace SelectionQuery

inductive Path where
  | seed (token : String)
  | extend (parent : Path) (token : String)
  deriving DecidableEq, Repr

namespace Path

def rootToken : String := "root"

def root : Path := .seed rootToken

def token : Path → String
  | .seed token => token
  | .extend _ token => token

def depth : Path → Nat
  | .seed _ => 1
  | .extend parent _ => parent.depth + 1

/-- The tokens before those of `rest`, first token first. -/
def prepend : Path → List String → List String
  | .seed token, rest => token :: rest
  | .extend parent token, rest => parent.prepend (token :: rest)

def tokens (path : Path) : List String := path.prepend []

def render (path : Path) : String := ".".intercalate path.tokens

def extendAll (path : Path) (tokens : List String) : Path := tokens.foldl .extend path

end Path
end SelectionQuery
