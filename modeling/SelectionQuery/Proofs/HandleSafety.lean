import SelectionQuery.Proofs.GuardedWalk

/-! # Handles in range

No run reads a handle outside the table. The passes at the end of a build index the table only
after every handle in it was checked, so a build ends as its total counterpart does for all steps,
those with foreign handles included. A validation meets only handles of the table that the build
checked, in properties, arguments and unions, and those that the build itself linked.
-/
namespace SelectionQuery.Guarded
open Schema Outcome

variable {schema : Schema}

theorem freeze_faithful {steps : List Step} (h : Schema.build steps = .ok schema) :
    (freeze schema).Faithful := by
  have hl := linked_of_build h
  have hlink := fun entity id => @lookup_identifiers_freeze schema hl.single entity id
  constructor
  case placed =>
    refine forall_mem_freeze.mpr fun type _ => ?_
    rw [type_freezeType]
    rfl
  case nodes =>
    refine forall_mem_freeze.mpr fun type _ name property hp => ?_
    rw [schema_freeze]
    exact nodeAttributes_freezeType hp
  case branch =>
    refine forall_mem_freeze.mpr fun type _ => ?_
    rw [type_freezeType]
    rfl
  case linked => rwa [schema_freeze]
  case rooted =>
    rw [schema_freeze]
    exact size_pos_of_build h
  case known =>
    intro entity id hid
    obtain ⟨type, ht, _⟩ := (hlink entity id).mp hid
    rw [schema_freeze]
    exact (List.getElem?_eq_some_iff.mp ht).1
  case identifiers =>
    intro entity
    ext type
    rw [schema_freeze, Option.map_eq_some_iff, identifierFor?_eq_some_iff hl.single]
    constructor
    · rintro ⟨id, hid, rfl⟩
      obtain ⟨type, ht, ha⟩ := (hlink entity id).mp hid
      rw [typeAt_of_getElem? ht]
      exact ⟨List.mem_of_getElem? ht, ha⟩
    · rintro ⟨hm, ha⟩
      obtain ⟨id, ht⟩ := List.mem_iff_getElem?.mp hm
      exact ⟨id, (hlink entity id).mpr ⟨type, ht, ha⟩, typeAt_of_getElem? ht⟩

theorem settles_of_build {steps : List Step} (h : Schema.build steps = .ok schema)
    (enough : Recursion → Prop) {config : Config} {document : Json} {literalCalls calls : Nat}
    (hwalk : enough .walk → 2 * document.height ≤ calls)
    (hliteral : enough .literal → config.checkLiterals = true →
      schema.UnionAcyclic ∧ callsFor schema document.height ≤ literalCalls) :
    (Run.validate ⟨config, freeze schema, literalCalls⟩ document calls).Settles enough
      (validate config schema document) := by
  have hfaithful : (Run.mk config (freeze schema) literalCalls).frozen.Faithful := freeze_faithful h
  have hschema : (Run.mk config (freeze schema) literalCalls).schema = schema := schema_freeze schema
  have hsettles := Run.settles_validate hfaithful hwalk (by rwa [Run.Suffices, hschema])
  rwa [hschema] at hsettles

/-- No handle outside the table is ever read: not by a build, whatever its steps, which ends as the
total build does, and not by a validation of any document against the schema that it leaves. Where
no union reaches itself, or literals are not checked, enough calls let the validation end, and it
ends as the total one does. -/
theorem handles_in_range :
    (∀ steps, build steps = .done ((Schema.build steps).map freeze)) ∧
    ∀ steps schema, Schema.build steps = .ok schema → ∀ config document,
      (∀ literalCalls calls id,
        Run.validate ⟨config, freeze schema, literalCalls⟩ document calls ≠ .stray id) ∧
      ((config.checkLiterals = true → schema.UnionAcyclic) →
        ∃ literalCalls calls, Run.validate ⟨config, freeze schema, literalCalls⟩ document calls =
          .done (validate config schema document)) := by
  refine ⟨build_eq, fun steps schema h config document => ⟨fun literalCalls calls id => ?_, ?_⟩⟩
  · exact (settles_of_build h (fun _ => False) False.elim False.elim).ne_stray id
  · intro hac
    refine ⟨callsFor schema document.height, 2 * document.height, ?_⟩
    have hsettles := settles_of_build h (fun _ => True) (fun _ => le_refl (2 * document.height))
      fun _ hc => ⟨hac hc, le_refl (callsFor schema document.height)⟩
    exact hsettles.eq_done fun _ => trivial

theorem userGraph_handles_in_range :
    build [.declare "Pair" .union, .define 1 { members := [1, 7] }] =
      .done (.error (.unknownHandle 7)) ∧
    build UserGraph.steps = .done (.ok (freeze userGraph)) ∧
    userGraph.UnionAcyclic ∧
    (∀ literalCalls calls id,
      Run.validate ⟨{}, freeze userGraph, literalCalls⟩ userQuery calls ≠ .stray id) ∧
    ∃ literalCalls calls,
      Run.validate ⟨{}, freeze userGraph, literalCalls⟩ userQuery calls = .done (.ok ()) := by
  have hbuilt : Schema.build UserGraph.steps = .ok userGraph := rfl
  have hverdict : validate {} userGraph userQuery = .ok () := by decide +kernel
  obtain ⟨hsafe, hends⟩ := handles_in_range.2 UserGraph.steps userGraph hbuilt {} userQuery
  refine ⟨handles_in_range.1 _, handles_in_range.1 _, userGraph_unionAcyclic, hsafe, ?_⟩
  rw [← hverdict]
  exact hends fun _ => userGraph_unionAcyclic

/-- A table that no build leaves, with a property that leads nowhere, does stop a run. -/
example : Run.validate
    ⟨{}, freeze ⟨[⟨"root", .record .root (NameMap.ofList [("me", { target := 4 })])⟩]⟩, 0⟩
    (.object [("me", .object [])]) 2 = .stray 4 := by
  rfl

end SelectionQuery.Guarded
