import Dataflow.Proofs.Lower.Alongside

/-!
# Lowering reads what control can get to

Functions that are alike have plans that are alike (`Function.Alike.plan`): the same blocks are laid
out, and the value that a phi takes on arrival from a predecessor is found by the predecessor, wherever
the entry stands. So such functions are lowered to the same graph, with the same questions asked
(`Session.lower_eq_of_alike`).
-/

namespace Dataflow

namespace Plan

/-- A phi's entries are found by predecessor. -/
theorem entryFor_congr {incoming incoming' : List (BlockId × Value)}
    (hnd : (incoming.map (·.1)).Nodup) (hnd' : (incoming'.map (·.1)).Nodup) {u : BlockId}
    (h : ∀ v, (u, v) ∈ incoming ↔ (u, v) ∈ incoming') (dest : InstId) :
    entryFor dest incoming u = entryFor dest incoming' u := by
  have hfind : incoming.find? (·.1 = u) = incoming'.find? (·.1 = u) := by
    cases hu : incoming.find? (·.1 = u) with
    | some e =>
      have hfst := List.find?_some hu
      have he : (u, e.2) = e := by rw [← of_decide_eq_true hfst]
      rw [find?_fst_eq hnd' ((h _).1 (mem_of_find?_fst hu)), he]
    | none =>
      cases hu' : incoming'.find? (·.1 = u) with
      | none => rfl
      | some e =>
        rw [find?_fst_eq hnd ((h _).2 (mem_of_find?_fst hu'))] at hu
        cases hu
  rw [entryFor, entryFor, hfind]

section
variable {p p' : Plan} (hp : p.Sound) (hp' : p'.Sound) (hA : p.function.Alike p'.function)
  (hflow : p.flow.Alike p'.flow)
include hp hp' hA hflow

omit hA in
theorem inputs_eq_of_alike {b b' : Block} (hb : b ∈ p.blocks) (hb' : b' ∈ p'.blocks)
    {i i' : Instr} (hi : i ∈ b.body) (hi' : i' ∈ b'.body)
    (h : i.Alike p.function.Reachable i') : p.inputs b.id i = p'.inputs b.id i' := by
  rcases h.cases with ⟨rfl, hphi⟩ | ⟨dest, ty, incoming, incoming', rfl, rfl, hmem⟩
  · cases i' with
    | phi => cases hphi
    | _ => rfl
  · have hnd := (hp.wellFormed.entries b (hp.mem_blocks_function hb) hi).1
    have hnd' := (hp'.wellFormed.entries b' (hp'.mem_blocks_function hb') hi').1
    show (p.flow.preds b.id).mapM _ = (p'.flow.preds b.id).mapM _
    rw [← hflow.preds_eq]
    refine mapM_congr fun u hu => entryFor_congr hnd hnd' (fun v => hmem ?_) dest
    exact ((hp.describes.mem_preds hp.wellFormed.toNumbered).1 hu).1

omit hp' in
theorem maskCondition?_eq_of_alike (b : BlockId) : p.maskCondition? b = p'.maskCondition? b := by
  have hexit : ((p.flow.idom.get b).bind (p.function.blocks[·]?)).map Block.exit =
      ((p'.flow.idom.get b).bind (p'.function.blocks[·]?)).map Block.exit := by
    rw [← hflow.idom_eq]
    cases hu : p.flow.idom.get b with
    | none => rfl
    | some u =>
      have hreach : p.function.Reachable u := by
        rw [← hp.describes.mem_order, hp.describes.order_eq]
        exact (hp.describes.tree.listed hu).2
      obtain ⟨c, hc⟩ : ∃ c, p.function.blocks[u]? = some c :=
        ⟨_, List.getElem?_eq_getElem (hp.wellFormed.reachable_lt hreach)⟩
      obtain ⟨c', hc', halike⟩ := hA.exists_block hreach hc
      simp only [Option.bind_some, hc, hc', Option.map_some, halike.exit_eq]
  rw [maskCondition?, maskCondition?, hexit]

theorem blocks_alike : List.Forall₂ (p.SameBlock p') p.blocks p'.blocks := by
  -- block by block first, with the blocks that are not lowered; these need only have the same number
  have hall : List.Forall₂ (fun b b' => b.id = b'.id ∧ (p.function.Reachable b.id →
      b.Alike p.function.Reachable b')) p.function.blocks p'.function.blocks := by
    refine List.forall₂_iff_get.2 ⟨hA.length_eq, fun i hi hi' => ?_⟩
    have hid := hp.wellFormed.id_eq (List.getElem?_eq_getElem hi)
    have hid' := hp'.wellFormed.id_eq (List.getElem?_eq_getElem hi')
    refine ⟨hid.trans hid'.symm, fun hr => ?_⟩
    rw [List.get_eq_getElem, hid] at hr
    exact hA.block hr (List.getElem?_eq_getElem hi) (List.getElem?_eq_getElem hi')
  have hkeep : ∀ {b b' : Block}, b.id = b'.id →
      (p.flow.isReachable b.id = true ↔ p'.flow.isReachable b'.id = true) := by
    intro b b' hid
    rw [hid, hflow.isReachable_eq]
  refine forall₂_imp_of_mem (List.rel_filter (fun b b' h => hkeep h.1) hall) fun b hb b' hb' ⟨hid, h⟩ => ?_
  have hr := (hp.mem_blocks.1 hb).2
  obtain ⟨-, hexit, hbody⟩ := h hr
  refine ⟨hid, hexit, hp.describes.mem_order.2 hr,
    maskCondition?_eq_of_alike hp hA hflow b.id, ?_⟩
  refine forall₂_imp_of_mem hbody fun i hi i' hi' halike => ⟨halike.shape_eq, ?_⟩
  exact inputs_eq_of_alike hp hp' hflow hb hb' hi hi' halike

theorem check_eq_of_alike : p.check = p'.check := by
  have hentry : p.checkEntry = p'.checkEntry := by
    have hlt := hp.wellFormed.entry_lt
    obtain ⟨b', hb', halike⟩ := hA.exists_block .refl (List.getElem?_eq_getElem hlt)
    have hphis : p.function.blocks[Function.entry].phis.isEmpty = b'.phis.isEmpty := by
      rw [Bool.eq_iff_iff, List.isEmpty_iff_length_eq_zero, List.isEmpty_iff_length_eq_zero,
        halike.phis.length_eq]
    rw [checkEntry, checkEntry, lookup_eq_ok.2 (List.getElem?_eq_getElem hlt), lookup_eq_ok.2 hb',
      hA.name_eq]
    simp only [orFault, ok_bind, hphis]
  have hedges : (p.blocks.flatMap fun b => p.flow.edgesFrom b.id) =
      p'.blocks.flatMap fun b => p'.flow.edgesFrom b.id := by
    have hblocks := blocks_alike hp hp' hA hflow
    generalize p.blocks = bs, p'.blocks = bs' at hblocks
    induction hblocks with
    | nil => rfl
    | cons h _ ih =>
      rw [List.flatMap_cons, List.flatMap_cons, ih, FlowGraph.edgesFrom, FlowGraph.edgesFrom, ← h.id_eq,
        hflow.succs_eq _ h.live]
  have hcheck : p.checkEdge = p'.checkEdge := by
    funext e
    rw [checkEdge, checkEdge, hflow.testIrreducible_eq]
  rw [check, check, hentry, hedges, hcheck]

theorem alike_of_functions : p.Alike p' := by
  have hclosed : ∀ b ∈ p.flow.order, ∀ t ∈ p.flow.succs b, t ∈ p.flow.order := fun b hb t ht =>
    hp.describes.mem_order.2 ((hp.describes.mem_order.1 hb).tail (hp.describes.mem_succs.1 ht))
  refine ⟨hA.name_eq, hA.params_eq, hA.globals_eq, hflow, ?_, check_eq_of_alike hp hp' hA hflow,
    fun a ha b => hflow.forwardReaches_eq hclosed ha b, blocks_alike hp hp' hA hflow⟩
  rw [hp.loops_eq, hp'.loops_eq, hflow.loops_eq]

end

end Plan

/-- Functions that are alike have plans that are alike. -/
theorem Function.Alike.plan {f f' : Function} (hf : f.WellFormed) (hf' : f'.WellFormed)
    (hA : f.Alike f') : Agree Plan.Alike (Plan.ofFunction f) (Plan.ofFunction f') := by
  refine (withPreheaders_alike hf hf' hA).bind fun h h' ⟨hh, hh', hhh'⟩ => ?_
  obtain ⟨g, hgh, hg⟩ := FlowGraph.ofFunction_eq hh.toNumbered
  obtain ⟨g', hgh', hg'⟩ := FlowGraph.ofFunction_eq hh'.toNumbered
  rw [hgh, hgh', ok_bind, ok_bind]
  have hflow := hhh'.flow hh.toNumbered hh'.toNumbered hgh hgh' hg
  exact .ok (Plan.alike_of_functions ⟨hh, hg, rfl⟩ ⟨hh', hg', rfl⟩ hhh' hflow)

/-- Functions that control cannot tell apart are lowered in the same way, with the same questions. -/
theorem Session.lower_eq_of_alike {σ : Type} {f f' : Function} (hf : f.check = .ok ())
    (hf' : f'.check = .ok ()) (hA : f.Alike f') (s : Session) (d : Disambiguator σ) (oracle : σ) :
    s.lower f d oracle = s.lower f' d oracle ∧
      (s.lower f d.recorded (oracle, [])).oracle.2 = (s.lower f' d.recorded (oracle, [])).oracle.2 := by
  have hplan := hA.plan (Function.check_eq_ok_iff.1 hf) (Function.check_eq_ok_iff.1 hf')
  have hsame : ∀ {τ : Type} (d : Disambiguator τ) (oracle : τ),
      s.lower f d oracle = s.lower f' d oracle := by
    intro τ d oracle
    rcases follows_lower hplan s 0 d oracle with ⟨hk, -⟩ | h
    · exact absurd hk (Nat.lt_irrefl 0)
    · exact (h.trans (Lowered.raise_zero _)).symm
  exact ⟨hsame d oracle, by rw [hsame]⟩

/-- Two blocks enter a loop, whose header has an entry for a block that is never run. -/
def deadEntry : Function where
  name := "dead"
  params := [⟨"again", .int .w1⟩, ⟨"p", .ptr⟩, ⟨"q", .ptr⟩]
  globals := []
  blocks := [
    ⟨0, "entry", [], .branch (.arg 0) 1 2⟩,
    ⟨1, "left", [], .jump 3⟩,
    ⟨2, "right", [], .jump 3⟩,
    ⟨3, "head",
      [.phi 0 .ptr [(1, .arg 1), (4, .arg 1), (2, .arg 2), (3, .inst 0)],
        .store (.inst 0) (.arg 1),
        .load 1 .ptr (.arg 2)],
      .branch (.arg 0) 3 5⟩,
    ⟨4, "never", [.load 7 .ptr (.arg 1)], .jump 3⟩,
    ⟨5, "exit", [], .ret (some (.inst 1))⟩]

/-- The same loop, where the other block goes elsewhere and the entries stand in another order. -/
def deadReturn : Function where
  name := "dead"
  params := [⟨"again", .int .w1⟩, ⟨"p", .ptr⟩, ⟨"q", .ptr⟩]
  globals := []
  blocks := [
    ⟨0, "entry", [], .branch (.arg 0) 1 2⟩,
    ⟨1, "left", [], .jump 3⟩,
    ⟨2, "right", [], .jump 3⟩,
    ⟨3, "head",
      [.phi 0 .ptr [(3, .inst 0), (2, .arg 2), (1, .arg 1)],
        .store (.inst 0) (.arg 1),
        .load 1 .ptr (.arg 2)],
      .branch (.arg 0) 3 5⟩,
    ⟨4, "never", [.alloca 2 .ptr 1, .store (.inst 2) (.arg 1), .alloca 7 .ptr 1], .ret none⟩,
    ⟨5, "exit", [], .ret (some (.inst 1))⟩]

theorem deadEntry_alike : deadEntry.Alike deadReturn := by
  have hnum : deadEntry.Numbered :=
    (Function.check_eq_ok_iff.1 (by decide +kernel : deadEntry.check = .ok ())).toNumbered
  have hnum' : deadReturn.Numbered :=
    (Function.check_eq_ok_iff.1 (by decide +kernel : deadReturn.check = .ok ())).toNumbered
  have horder : FlowGraph.reversePostorder (FlowGraph.successorsOf deadEntry) = [0, 2, 1, 3, 5] := by
    decide +kernel
  have horder' : FlowGraph.reversePostorder (FlowGraph.successorsOf deadReturn) = [0, 2, 1, 3, 5] := by
    decide +kernel
  have hreach : ∀ {b}, deadEntry.Reachable b ↔ b ∈ [0, 2, 1, 3, 5] := by
    intro b
    rw [← FlowGraph.mem_reversePostorder hnum, horder]
  have hreach' : ∀ {b}, deadReturn.Reachable b ↔ b ∈ [0, 2, 1, 3, 5] := by
    intro b
    rw [← FlowGraph.mem_reversePostorder hnum', horder']
  refine ⟨rfl, rfl, rfl, rfl, by decide +kernel, hreach.trans hreach'.symm, ?_⟩
  intro i b b' hi hb hb'
  rw [hreach] at hi
  simp only [List.mem_cons, List.not_mem_nil, or_false] at hi
  rcases hi with rfl | rfl | rfl | rfl | rfl
  case inr.inr.inr.inl =>
    cases hb
    cases hb'
    refine ⟨rfl, rfl, .cons ⟨rfl, fun {u v} hu => ?_⟩ (List.forall₂_same.2 fun i _ => .refl _ i)⟩
    have hne : u ≠ 4 := by
      rintro rfl
      simp [hreach] at hu
    simp only [Instr.entries, List.mem_cons, Prod.mk.injEq, List.not_mem_nil, or_false, hne,
      false_and, false_or]
    grind
  all_goals
    cases hb
    cases hb'
    exact .refl _ _

theorem Session.lower_eq_deadEntry : deadEntry.check = .ok () ∧ deadReturn.check = .ok () ∧
    deadEntry.Alike deadReturn ∧ deadEntry ≠ deadReturn ∧
    (({} : Session).lower deadEntry .single ()).result.isOk = true ∧
    ({} : Session).lower deadEntry .single () = ({} : Session).lower deadReturn .single () :=
  ⟨by decide +kernel, by decide +kernel, deadEntry_alike, by decide +kernel, by decide +kernel,
    (lower_eq_of_alike (by decide +kernel) (by decide +kernel) deadEntry_alike {} .single ()).1⟩

end Dataflow
