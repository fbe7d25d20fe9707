import Mathlib.Data.List.Basic
import SelectionQuery.Diagnostic
import SelectionQuery.Proofs.PathTokens

/-! # Trees of paths

Paths grow from a seed: each new one extends a path that is there already, so that they form a tree
with shared beginnings. Growth adds a path and leaves the others as they are. A rendered path is cut
at its dots into the tokens again exactly if no token has a dot; then the path of an error tells the
way to its place.
-/
namespace SelectionQuery.Path

theorem getLast?_tokens (path : Path) : path.tokens.getLast? = some path.token := by
  cases path with
  | seed token => rfl
  | extend parent token => rw [tokens_extend, List.getLast?_concat, Path.token]

theorem one_lt_depth_extend (parent : Path) (token : String) : 1 < (parent.extend token).depth := by
  cases parent <;> simp [depth]

theorem tokens_injective {path other : Path} (h : path.tokens = other.tokens) : path = other := by
  have hdepth : path.depth = other.depth := by rw [depth_eq_length, depth_eq_length, h]
  induction path generalizing other with
  | seed token =>
    cases other with
    | seed other => cases h; rfl
    | extend parent last => exact absurd hdepth (Nat.ne_of_lt (one_lt_depth_extend parent last))
  | extend parent token ih =>
    cases other with
    | seed other => exact absurd hdepth (Nat.ne_of_gt (one_lt_depth_extend parent token))
    | extend other last =>
      rw [tokens_extend, tokens_extend] at h
      obtain ⟨hparent, hlast⟩ := List.append_inj' h rfl
      cases hlast
      rw [ih hparent (Nat.succ.inj hdepth)]

def pieces (text : String) : List String := (text.split '.').toList.map (·.copy)

def DotFree (path : Path) : Prop := ∀ token ∈ path.tokens, '.' ∉ token.toList

instance (path : Path) : Decidable path.DotFree :=
  inferInstanceAs (Decidable (∀ token ∈ path.tokens, '.' ∉ token.toList))

theorem not_mem_of_mem_splitOn {α : Type} [DecidableEq α] {sep : α} {text piece : List α}
    (h : piece ∈ text.splitOn sep) : sep ∉ piece := by
  induction text generalizing piece with
  | nil => simp_all
  | cons first rest ih =>
    rw [List.splitOn_cons_eq_if_modifyHead] at h
    split at h
    next =>
      rcases List.mem_cons.mp h with rfl | h
      · exact List.not_mem_nil
      · exact ih h
    next hne =>
      obtain ⟨head, tail, heq⟩ := List.exists_cons_of_ne_nil (List.splitOn_ne_nil sep rest)
      rw [heq] at h ih
      rcases List.mem_cons.mp h with rfl | h
      · have hfirst : sep ≠ first := fun heq => hne (by simp [heq])
        exact List.not_mem_cons_of_ne_of_not_mem hfirst (ih List.mem_cons_self)
      · exact ih (List.mem_cons_of_mem _ h)

theorem dot_not_mem_of_mem_pieces {text piece : String} (h : piece ∈ pieces text) :
    '.' ∉ piece.toList := by
  rw [pieces, String.toList_split_char] at h
  obtain ⟨letters, hm, rfl⟩ := List.mem_map.mp h
  rw [String.toList_ofList]
  exact not_mem_of_mem_splitOn hm

/-- Cutting a rendered path at its dots gives its tokens exactly if these have no dots. -/
theorem pieces_render_iff (path : Path) : pieces path.render = path.tokens ↔ path.DotFree := by
  constructor
  · intro h token hm
    rw [← h] at hm
    exact dot_not_mem_of_mem_pieces hm
  · intro h
    have hsplit := String.toList_split_intercalate h
    rwa [if_neg path.tokens_ne_nil] at hsplit

theorem eq_of_render_eq {path other : Path} (hpath : path.DotFree) (hother : other.DotFree)
    (h : path.render = other.render) : path = other := by
  apply tokens_injective
  rw [← path.pieces_render_iff.mpr hpath, ← other.pieces_render_iff.mpr hother, h]

/-- Paths and one more, which extends the path at a position by a token. A position that no path has
adds nothing. -/
def grow (paths : List Path) (branch : Nat × String) : List Path :=
  match paths[branch.1]? with
  | none => paths
  | some parent => paths ++ [parent.extend branch.2]

/-- The paths that grow from a seed, in the order in which they are added. -/
def tree (seed : String) (branches : List (Nat × String)) : List Path :=
  branches.foldl grow [.seed seed]

theorem grow_of_getElem? {paths : List Path} {position : Nat} {parent : Path}
    (h : paths[position]? = some parent) (token : String) :
    grow paths (position, token) = paths ++ [parent.extend token] := by
  rw [grow, h]

theorem prefix_grow (paths : List Path) (branch : Nat × String) : paths <+: grow paths branch := by
  unfold grow
  split
  · exact List.prefix_rfl
  · exact List.prefix_append _ _

theorem prefix_foldl_grow (paths : List Path) (branches : List (Nat × String)) :
    paths <+: branches.foldl grow paths := by
  induction branches generalizing paths with
  | nil => exact List.prefix_rfl
  | cons branch branches ih => exact (prefix_grow paths branch).trans (ih _)

theorem tree_append (seed : String) (branches more : List (Nat × String)) :
    tree seed (branches ++ more) = more.foldl grow (tree seed branches) := List.foldl_append

/-- Paths that grow from a seed are lists of tokens: an extension adds its token to those of its
parent and changes no other path, and depth and last token are those of the list. Cutting a rendered
path at its dots gives the tokens exactly if none of them has a dot, so that such paths are told apart
by how they are rendered, and the path of an error by itself gives the tokens that lead to it. -/
theorem tree_faithful (seed : String) (branches : List (Nat × String)) :
    (∀ path ∈ tree seed branches,
      (∀ token, (path.extend token).tokens = path.tokens ++ [token]) ∧
      path.depth = path.tokens.length ∧ path.tokens.getLast? = some path.token ∧
      (pieces path.render = path.tokens ↔ path.DotFree)) ∧
    (∀ position path, (tree seed branches)[position]? = some path →
      (∀ token, tree seed (branches ++ [(position, token)]) =
        tree seed branches ++ [path.extend token]) ∧
      ∀ more, ∃ later, (tree seed (branches ++ more))[position]? = some later ∧
        later.tokens = path.tokens ∧ later.depth = path.depth ∧ later.render = path.render) ∧
    (∀ path other : Path, path.DotFree → other.DotFree → path.render = other.render →
      path = other) ∧
    ∀ (path : Path) kind detail, path.DotFree →
      pieces (ValidationError.ofPath path kind detail).path = path.tokens := by
  refine ⟨fun path _ => ?_, fun position path hpath => ⟨fun token => ?_, fun more => ?_⟩, ?_, ?_⟩
  · exact ⟨path.tokens_extend, path.depth_eq_length, path.getLast?_tokens, path.pieces_render_iff⟩
  · rw [tree_append]
    exact grow_of_getElem? hpath token
  · obtain ⟨added, hadded⟩ := prefix_foldl_grow (tree seed branches) more
    have hposition := (List.getElem?_eq_some_iff.mp hpath).1
    refine ⟨path, ?_, rfl, rfl, rfl⟩
    rw [tree_append, ← hadded, List.getElem?_append_left hposition, hpath]
  · exact fun path other => eq_of_render_eq
  · exact fun path kind detail hpath => path.pieces_render_iff.mpr hpath

/-- Two ways below users that are rendered alike, by one token with a dot and by two tokens, and one
by a token without letters. -/
def dottedBranches : List (Nat × String) :=
  [(0, "users"), (1, "a.b"), (1, "a"), (3, "b"), (1, "")]

theorem dottedTree_faithful :
    (tree rootToken dottedBranches)[1]? = some (root.extend "users") ∧
    pieces ((root.extend "users").extend "").render = ["root", "users", ""] ∧
    pieces ((root.extend "users").extend "a.b").render ≠ ["root", "users", "a.b"] ∧
    pieces (((root.extend "users").extend "a").extend "b").render = ["root", "users", "a", "b"] ∧
    ((root.extend "users").extend "a.b").render =
      (((root.extend "users").extend "a").extend "b").render ∧
    ∀ more, ∃ later, (tree rootToken (dottedBranches ++ more))[1]? = some later ∧
      later.render = "root.users" := by
  obtain ⟨hpaths, hgrowth, -⟩ := tree_faithful rootToken dottedBranches
  have hcut := fun path hpath => (hpaths path hpath).2.2.2
  refine ⟨rfl, (hcut _ (by decide)).mpr (by decide), ?_, (hcut _ (by decide)).mpr (by decide), ?_, ?_⟩
  · exact fun h => absurd ((hcut _ (by decide)).mp h) (by decide)
  · decide
  · intro more
    obtain ⟨later, hlater, -, -, hrender⟩ := (hgrowth 1 (root.extend "users") rfl).2 more
    exact ⟨later, hlater, hrender⟩

end SelectionQuery.Path
