import SelectionQuery.Path

/-! # Tokens of paths

Tokens are collected from the end of a path with those already seen as an accumulator. Extending a
path puts its new tokens behind the old ones.
-/
namespace SelectionQuery.Path

theorem prepend_eq (path : Path) (rest : List String) : path.prepend rest = path.tokens ++ rest := by
  induction path generalizing rest with
  | seed token => rfl
  | extend parent token ih =>
    rw [tokens, prepend, prepend, ih, ih [token], List.append_assoc, List.singleton_append]

theorem tokens_extend (path : Path) (token : String) :
    (path.extend token).tokens = path.tokens ++ [token] := path.prepend_eq [token]

theorem tokens_ne_nil (path : Path) : path.tokens ≠ [] := by
  cases path with
  | seed token => nofun
  | extend parent token => simp [tokens_extend]

theorem depth_eq_length (path : Path) : path.depth = path.tokens.length := by
  induction path with
  | seed token => rfl
  | extend parent token ih =>
    rw [depth, ih, tokens_extend, List.length_append, List.length_singleton]

theorem extendAll_append_one (path : Path) (tokens : List String) (token : String) :
    path.extendAll (tokens ++ [token]) = (path.extendAll tokens).extend token := by
  simp [extendAll]

theorem tokens_extendAll (path : Path) (added : List String) :
    (path.extendAll added).tokens = path.tokens ++ added := by
  induction added generalizing path with
  | nil => simp [extendAll]
  | cons token rest ih =>
    have hstep : path.extendAll (token :: rest) = (path.extend token).extendAll rest := rfl
    rw [hstep, ih, tokens_extend, List.append_assoc, List.singleton_append]

end SelectionQuery.Path
