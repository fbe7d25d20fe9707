import SelectionQuery.Proofs.HandleSafety

/-! # Termination

The walk through a document ends whatever the schema is like: the calls that it needs are counted
by the height of the node, and only the check of a literal may keep it from its end. The check of
literals ends if no union reaches itself. Its calls are counted by the height of the value and the
size of the table, however structs refer to themselves. A union that begins with itself shows that
the condition cannot be left out.
-/
namespace SelectionQuery.Guarded
open Schema Outcome

/-- From every place the walk comes to the result of the total walk, unless the check of a literal
uses up its calls. -/
structure Run.WalkEnds (run : Run) : Prop where
  node : ∀ site path value calls, site.Known run.schema → 2 * value.height + 2 ≤ calls →
    (run.node site (site.attributes run.schema) path value calls).Settles (· = .walk)
      (Event.first? (Walk.node run.config run.schema site path value))
  shape : ∀ type path fields calls, type ∈ run.frozen.types →
    2 * (Json.object fields).height + 1 ≤ calls →
    (run.shape type path fields calls).Settles (· = .walk)
      ((Event.first? (Walk.below run.config run.schema .accept type.type path fields)).or
        (Event.first? (Walk.below run.config run.schema .select type.type path fields)))
  names : ∀ descent type path value calls, type ∈ run.frozen.types → 2 * value.height + 2 ≤ calls →
    (run.names descent type path value calls).Settles (· = .walk)
      (Event.first? (Walk.names run.config run.schema descent type.type path value))

theorem Run.walkEnds {run : Run} (hf : run.frozen.Faithful) : run.WalkEnds := by
  have hsettle := fun calls => walk_settles hf (· = .walk) calls
  refine ⟨?_, ?_, ?_⟩
  · intro site path value calls hk hcalls
    exact (hsettle calls).1 site path value hk (fun _ => hcalls) nofun
  · intro type path fields calls ht hcalls
    exact (hsettle calls).2.1 type path fields ht (fun _ => hcalls) nofun
  · intro descent type path value calls ht hcalls
    exact (hsettle calls).2.2 descent type path value ht (fun _ => hcalls) nofun

/-- Every check of a literal comes to the result of the total check, and no search through the
members of a union runs out of steps. -/
structure LiteralsEnd (schema : Schema) : Prop where
  argument : ∀ declaration path value calls, declaration.type < schema.size →
    callsFor schema value.height ≤ calls →
    argument schema declaration path value calls =
      .done (Literal.argumentViolation? schema declaration path value)
  literal : ∀ id path value calls, id < schema.size → callsFor schema value.height ≤ calls →
    literal schema (schema.typeAt id) path value calls =
      .done (Literal.violation? schema path (schema.typeAt id) value)
  struct : ∀ id path value calls, id < schema.size → (schema.typeAt id).kind = .struct →
    callsFor schema value.height ≤ calls →
    struct schema (schema.typeAt id) path value calls =
      .done (Literal.violation? schema path (schema.typeAt id) value)
  search : ∀ id holds steps, id < schema.size → schema.size ≤ steps →
    schema.anyLeaf holds steps (schema.typeAt id) =
      schema.anyLeaf holds schema.size (schema.typeAt id)

theorem literalsEnd {schema : Schema} (hl : Linked schema.types) (hac : schema.UnionAcyclic) :
    LiteralsEnd schema := by
  have hsettle := fun calls => literals_settle hl (fun _ => True) calls
  have hneed : ∀ height calls, callsFor schema height ≤ calls →
      schema.size + 1 + (schema.size + 2) * height ≤ calls := by
    intro height calls hcalls
    rw [callsFor_eq] at hcalls
    omega
  refine ⟨?_, ?_, ?_, fun id holds steps hid hsteps => anyLeaf_stable hl hid hsteps holds⟩
  · intro declaration path value calls hid hcalls
    have h := (hsettle calls).1 declaration path value hid fun _ => ⟨hac, hcalls⟩
    exact h.eq_done fun _ => trivial
  · intro id path value calls hid hcalls
    have h := (hsettle calls).2.1 id path value schema.size hid fun _ =>
      ⟨hac, chainsWithin_size hl hac hid, hneed _ _ hcalls⟩
    exact h.eq_done fun _ => trivial
  · intro id path value calls hid hk hcalls
    have h := (hsettle calls).2.2 id path value hid hk fun _ =>
      ⟨hac, by have := hneed _ _ hcalls; omega⟩
    exact h.eq_done fun _ => trivial

/-- Both recursions end: the walk over every built schema, and the check of literals, and so the
whole validation, over every one in which no union reaches itself. -/
theorem recursions_end {steps : List Step} {schema : Schema}
    (h : Schema.build steps = .ok schema) :
    (∀ config literalCalls, Run.WalkEnds ⟨config, freeze schema, literalCalls⟩) ∧
    (schema.UnionAcyclic → LiteralsEnd schema) ∧
    ∀ config, (config.checkLiterals = true → schema.UnionAcyclic) →
      ∀ document literalCalls calls, callsFor schema document.height ≤ literalCalls →
        2 * document.height ≤ calls →
        Run.validate ⟨config, freeze schema, literalCalls⟩ document calls =
          .done (validate config schema document) := by
  refine ⟨fun config literalCalls => Run.walkEnds (freeze_faithful h),
    literalsEnd (linked_of_build h), ?_⟩
  intro config hac document literalCalls calls hliteral hwalk
  have hsettles := settles_of_build h (fun _ => True) (fun _ => hwalk)
    fun _ hc => ⟨hac hc, hliteral⟩
  exact hsettles.eq_done fun _ => trivial

def treeSteps : List Step :=
  [.declare "Tree" .struct,
   .declare "Leaf" .struct,
   .declare "Node" .union,
   .define 1 { properties := [("left", { target := 1 }), ("rest", { target := 1, list := true }),
     ("over", { target := 3 })] },
   .define 3 { members := [2, 1] },
   .define rootId { properties := [("find",
     { target := 1, arguments := .ofList [("like", { type := 1 })] })] }]

def treeGraph : Schema := ⟨assemble treeSteps⟩

def treeQuery : Json :=
  .object [("find", .object
    [("args", .object [("like", .object
      [("left", .object []),
       ("rest", .array [.object [("over", .object [("left", .object [])])]])])]),
     ("select", .object [("left", .object [("select", .object [("over", .object [])])])])])]

theorem treeQuery_ends :
    Schema.build treeSteps = .ok treeGraph ∧ treeGraph.UnionAcyclic ∧
      (∀ config literalCalls, Run.WalkEnds ⟨config, freeze treeGraph, literalCalls⟩) ∧
      LiteralsEnd treeGraph ∧
      Run.validate ⟨{}, freeze treeGraph, 54⟩ treeQuery 16 = .done (.ok ()) := by
  have hbuilt : Schema.build treeSteps = .ok treeGraph := rfl
  have hac : treeGraph.UnionAcyclic := unionAcyclic_of_lt (by decide)
  obtain ⟨hwalk, hliterals, hvalidate⟩ := recursions_end hbuilt
  have hverdict : validate {} treeGraph treeQuery = .ok () := by decide +kernel
  refine ⟨hbuilt, hac, hwalk, hliterals hac, ?_⟩
  rw [← hverdict]
  exact hvalidate {} (fun _ => hac) treeQuery 54 16 (by decide) (by decide)

/-- A union that begins with itself is followed for ever. -/
theorem literal_exhausted_of_self_first {schema : Schema} {id : TypeId} (hid : id < schema.size)
    {members : List TypeId} (hs : (schema.typeAt id).shape = .union (id :: members)) (path : Path)
    (value : Json) (calls : Nat) :
    literal schema (schema.typeAt id) path value calls = .exhausted .literal := by
  induction calls with
  | zero => rfl
  | succ calls ih =>
    rw [literal, hs]
    simp only [List.map_cons, first, read_eq hid, done_bind, ih]
    rfl

end SelectionQuery.Guarded
