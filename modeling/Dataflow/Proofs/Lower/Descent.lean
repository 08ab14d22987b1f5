import Dataflow.Proofs.Lower.SingleEntry
import Dataflow.Proofs.Repeats

/-!
# Preheader insertion ends

Each round of insertion analyses the function anew. It gives a loop with several entries a preheader
(`Function.Splits`), or it finds that there is nothing to do (`Function.Rests`).

`Function.withPreheaders_ends`: in a function that passes the check and has room for the identifiers, the
rounds end. The control flow stays reducible and the headers of loops stay the same in a round, the loop
that it splits has the new block as its only entry, and all others are entered as before, so exactly one
loop fewer has several entries (`FlowGraph.Relieved`).
-/

namespace Dataflow

open Relation

namespace FlowGraph

/-- How many loops have several entries. -/
def sharedLoops (g : FlowGraph) : Nat := g.loops.countP fun l => 1 < (g.entries l).length

theorem sharedLoops_eq (g : FlowGraph) : g.sharedLoops = g.sharedHeaders.length := by
  rw [sharedLoops, loops, (sortBy_perm _ _).countP_eq, List.countP_map, List.countP_filter,
    sharedHeaders, ← List.countP_eq_length_filter]
  refine List.countP_congr fun h _ => ?_
  simp [and_comm]

/-- The loop at `header` is entered from the block `new` alone, and all others as they were. -/
structure Relieved (g : FlowGraph) (header new : BlockId) (g' : FlowGraph) : Prop where
  perm_headers : (g'.loops.map NaturalLoop.header).Perm (g.loops.map NaturalLoop.header)
  header_mem : header ∈ g.loops.map NaturalLoop.header
  new_notMem : new ∉ g'.loops.map NaturalLoop.header
  entries_eq : ∀ l ∈ g'.loops, l.header = header → g'.entries l = [new]
  entries_other : ∀ l ∈ g.loops, ∀ l' ∈ g'.loops, l'.header = l.header → l.header ≠ header →
    g'.entries l' = g.entries l
  sharedLoops_succ : g'.sharedLoops + 1 = g.sharedLoops

end FlowGraph

namespace Function

/-- A round of insertion that gives the loop at `header` a preheader. -/
def Splits (f : Function) (header : BlockId) (f' : Function) : Prop :=
  ∃ g entries, FlowGraph.ofFunction f = .ok g ∧ g.hasIrreducible f = .ok false ∧
    g.sharedLoop? = some (header, entries) ∧ f.addPreheader header entries = .ok f'

/-- A round of insertion that finds nothing to do. -/
def Rests (f : Function) : Prop :=
  ∃ g, FlowGraph.ofFunction f = .ok g ∧
    (g.hasIrreducible f = .ok true ∨ g.hasIrreducible f = .ok false ∧ g.sharedLoop? = none)

/-- The loop of all rounds. -/
def Insertion : Nat → Function → Function → Prop :=
  Repeats (fun f => ¬ f.Rests) fun f f' => ∃ header, f.Splits header f'

theorem addPreheaders_of_splits {f f' : Function} {header : BlockId} (h : f.Splits header f')
    (fuel : Nat) : addPreheaders (fuel + 1) f = addPreheaders fuel f' := by
  obtain ⟨g, entries, hgf, hirr, hs, hadd⟩ := h
  simp only [addPreheaders, hgf, hirr, hs, hadd, ok_bind]
  rfl

theorem addPreheaders_of_rests {f : Function} (h : f.Rests) (fuel : Nat) :
    addPreheaders (fuel + 1) f = .ok f := by
  obtain ⟨g, hgf, hirr | ⟨hirr, hs⟩⟩ := h
  · simp only [addPreheaders, hgf, hirr, ok_bind]
    rfl
  · simp only [addPreheaders, hgf, hirr, hs, ok_bind]
    rfl

theorem addPreheaders_of_insertion {f f' : Function} {n fuel : Nat} (h : Insertion n f f')
    (hfuel : n < fuel) : addPreheaders fuel f = .ok f' := by
  induction h generalizing fuel with
  | stop hrests =>
    obtain ⟨fuel, rfl⟩ := Nat.exists_eq_succ_of_ne_zero (Nat.ne_of_gt hfuel)
    exact addPreheaders_of_rests (not_not.1 hrests) fuel
  | round _ hsplits _ ih =>
    obtain ⟨fuel, rfl⟩ := Nat.exists_eq_succ_of_ne_zero (Nat.ne_of_gt (Nat.zero_lt_of_lt hfuel))
    obtain ⟨header, hsplits⟩ := hsplits
    rw [addPreheaders_of_splits hsplits]
    exact ih (Nat.lt_of_succ_lt_succ hfuel)

/-! ## One round -/

section
variable {f : Function} {header : BlockId} {entries : List BlockId} {fresh : InstId} {h : Block}
  (hE : f.Entered header entries fresh h) {g g' : FlowGraph} (hg : g.Describes f)
  (hg' : g'.Describes (f.withPreheader header entries fresh h))
include hE

theorem Entered.enters_new :
    Flow.Enters (f.withPreheader header entries fresh h).Edge entry header f.blocks.length := by
  obtain ⟨u, hu⟩ := List.exists_mem_of_ne_nil _ hE.entered
  have henters := hE.mem_entries.1 hu
  have hr := (hE.reachable_iff (Nat.ne_of_lt hE.header_lt)).2 (henters.reaches.tail henters.edge)
  have hne : header ≠ entry := by
    rintro rfl
    exact hE.wellFormed.entry_untargeted u henters.edge
  obtain ⟨v, hv⟩ := Flow.exists_enters hr hne
  exact hE.enters_header hv ▸ hv

include hg'

theorem Entered.entries_header : g'.entries (g'.loopAt header) = [f.blocks.length] := by
  have hnew := hE.enters_new
  refine List.Pairwise.eq_of_mem_iff ((hg'.ascending_preds header).filter _)
    (List.pairwise_singleton _ _) fun u => ?_
  refine (hg'.mem_entries hE.numbered (hnew.reaches.tail hnew.edge)).trans ?_
  rw [List.mem_singleton]
  exact ⟨hE.enters_header, fun hu => hu ▸ hnew⟩

include hg

theorem Entered.entries_other {b : BlockId} (hheads : Flow.Heads f.Edge entry b) (hb : b ≠ header) :
    g'.entries (g'.loopAt b) = g.entries (g.loopAt b) := by
  have hlt := hE.wellFormed.reachable_lt hheads.reaches
  refine List.Pairwise.eq_of_mem_iff ((hg'.ascending_preds b).filter _)
    ((hg.ascending_preds b).filter _) fun u => ?_
  exact (hg'.mem_entries hE.numbered ((hE.reachable_iff (Nat.ne_of_lt hlt)).2 hheads.reaches)).trans
    ((hE.enters_other hb (Nat.ne_of_lt hlt)).trans
      (hg.mem_entries hE.wellFormed.toNumbered hheads.reaches).symm)

theorem Entered.relieved (hmem : header ∈ g.sharedHeaders) :
    g.Relieved header f.blocks.length g' := by
  have hnum := hE.wellFormed.toNumbered
  have hperm := (FlowGraph.perm_loops_of_rounds hE.wellFormed hE.wellFormed' hg hg'
    (.single ⟨_, _, _, _, hE, rfl⟩)).map NaturalLoop.header
  rw [List.map_map] at hperm
  refine ⟨hperm, ?_, fun hnew => ?_, fun l hl hheader => ?_, fun l hl l' hl' hsame hne => ?_, ?_⟩
  · obtain ⟨horder, hlatches, -⟩ := FlowGraph.mem_sharedHeaders.1 hmem
    exact List.mem_map_of_mem (FlowGraph.mem_loops.2 ⟨header, horder, hlatches, rfl⟩)
  · obtain ⟨l, hl, hheader⟩ := List.mem_map.1 (hperm.mem_iff.1 hnew)
    obtain ⟨b, hheads, rfl⟩ := (hg.mem_loops_iff hnum).1 hl
    exact Nat.ne_of_lt (hnum.reachable_lt hheads.reaches) hheader
  · obtain ⟨b, -, rfl⟩ := (hg'.mem_loops_iff hE.numbered).1 hl
    obtain rfl : b = header := hheader
    exact hE.entries_header hg'
  · obtain ⟨b, hheads, rfl⟩ := (hg.mem_loops_iff hnum).1 hl
    obtain ⟨b', -, rfl⟩ := (hg'.mem_loops_iff hE.numbered).1 hl'
    obtain rfl : b' = b := hsame
    exact hE.entries_other hg hg' hheads hne
  · rw [g'.sharedLoops_eq, g.sharedLoops_eq, (hE.perm_sharedHeaders hg hg').length_eq,
      List.length_erase_of_mem hmem]
    exact Nat.sub_add_cancel (List.length_pos_of_mem hmem)

end

/-- What the rounds keep up: the function is well formed and the identifiers suffice. -/
structure Ready (f : Function) : Prop where
  wellFormed : f.WellFormed
  hasRoom : f.HasRoom

section
variable {f f' : Function} {header : BlockId}

/-- What a round does: it splits a loop of a reducible function. -/
theorem Splits.entered (hf : f.WellFormed) (hs : f.Splits header f') :
    Flow.Reducible f.Edge entry ∧ ∃ g entries h, FlowGraph.ofFunction f = .ok g ∧ g.Describes f ∧
      header ∈ g.sharedHeaders ∧ f.Entered header entries f.idBound h ∧
      f' = f.withPreheader header entries f.idBound h := by
  obtain ⟨g, entries, hgf, hirr, hs, hadd⟩ := hs
  have hg := FlowGraph.describes_of_eq_ok hf.toNumbered hgf
  obtain ⟨found, hirr', hfound⟩ := hg.hasIrreducible_eq hf.toNumbered
  obtain rfl : false = found := Except.ok.inj (hirr.symm.trans hirr')
  obtain ⟨hmem, -⟩ := FlowGraph.mem_of_sharedLoop? hs
  have hlt := hf.reachable_lt (hg.mem_order.1 (FlowGraph.mem_sharedHeaders.1 hmem).1)
  have hblock : f.blocks[header]? = some f.blocks[header] := List.getElem?_eq_getElem hlt
  refine ⟨hfound.1 rfl, g, entries, _, hgf, hg, hmem, entered_of_sharedLoop? hf hg hs hblock, ?_⟩
  rcases addPreheader_cases f entries hblock with ⟨hover, -⟩ | hok
  · exact absurd (hadd.symm.trans hover) (by simp)
  · exact Except.ok.inj (hadd.symm.trans hok)

/-- The loop never gets stuck: it ends here, or there is another round. -/
theorem Ready.rests_or_splits (hf : f.Ready) : f.Rests ∨ ∃ header f', f.Splits header f' := by
  have hnum := hf.wellFormed.toNumbered
  obtain ⟨g, hgf, hg⟩ := FlowGraph.ofFunction_eq hnum
  obtain ⟨found, hirr, hfound⟩ := hg.hasIrreducible_eq hnum
  cases found with
  | true => exact .inl ⟨g, hgf, .inl hirr⟩
  | false =>
    cases hs : g.sharedLoop? with
    | none => exact .inl ⟨g, hgf, .inr ⟨hirr, hs⟩⟩
    | some loop =>
      obtain ⟨header, entries⟩ := loop
      obtain ⟨hmem, -⟩ := FlowGraph.mem_of_sharedLoop? hs
      have hlt := hf.wellFormed.reachable_lt (hg.mem_order.1 (FlowGraph.mem_sharedHeaders.1 hmem).1)
      have hblock : f.blocks[header]? = some f.blocks[header] := List.getElem?_eq_getElem hlt
      have hroom := hf.hasRoom g hgf (hfound.1 rfl) (List.ne_nil_of_mem hmem)
      have hbound := idBound_add_le (pending_le_phiCount hnum hg) hroom
      have hphis := phis_le_pending hmem hblock
      rcases addPreheader_cases f entries hblock with ⟨-, hover⟩ | hok
      · omega
      · exact .inr ⟨header, _, g, entries, hgf, hirr, hs, hok⟩

theorem Splits.ready (hs : f.Splits header f') (hf : f.Ready) : f'.Ready := by
  obtain ⟨hred, g, entries, h, hgf, hg, hmem, hE, rfl⟩ := hs.entered hf.wellFormed
  refine ⟨hE.wellFormed', fun g' hgf' _ _ id hid => ?_⟩
  have hg' := FlowGraph.describes_of_eq_ok hE.numbered hgf'
  have hroom := hf.hasRoom g hgf hred (List.ne_nil_of_mem hmem)
  have hbound := idBound_add_le (pending_le_phiCount hf.wellFormed.toNumbered hg) hroom
  have hids : (f.withPreheader header entries f.idBound h).idBound = f.idBound + h.phis.length :=
    idBound_withPreheader
  -- a round takes an identifier for each phi that is then no longer pending
  have hpending := hE.pending_add_eq hg hg' hmem
  refine Nat.lt_of_lt_of_le (Nat.add_lt_add_right (lt_idBound hid) _) ?_
  omega

/-- A round relieves a loop, and leaves the control flow reducible. -/
theorem Splits.relieved (hs : f.Splits header f') (hf : f.WellFormed) :
    Flow.Reducible f.Edge entry ∧ Flow.Reducible f'.Edge entry ∧
      ∃ g g', FlowGraph.ofFunction f = .ok g ∧ FlowGraph.ofFunction f' = .ok g' ∧
        g.Describes f ∧ g'.Describes f' ∧ g.Relieved header f.blocks.length g' := by
  obtain ⟨hred, g, entries, h, hgf, hg, hmem, hE, rfl⟩ := hs.entered hf
  obtain ⟨g', hgf', hg'⟩ := FlowGraph.ofFunction_eq hE.numbered
  have hround : Round f (f.withPreheader header entries f.idBound h) := ⟨_, _, _, _, hE, rfl⟩
  exact ⟨hred, hround.reducible hred, g, g', hgf, hgf', hg, hg', hE.relieved hg hg' hmem⟩

/-! ## All rounds -/

/-- How many loops of a function have several entries. -/
def sharedLoops (f : Function) : Nat := (FlowGraph.ofFunction f).toOption.elim 0 (·.sharedLoops)

theorem sharedLoops_eq {g : FlowGraph} (hgf : FlowGraph.ofFunction f = .ok g) :
    f.sharedLoops = g.sharedLoops := by
  rw [sharedLoops, hgf]
  rfl

theorem Splits.sharedLoops_succ (hs : f.Splits header f') (hf : f.WellFormed) :
    f'.sharedLoops + 1 = f.sharedLoops := by
  obtain ⟨-, -, g, g', hgf, hgf', -, -, hrelieved⟩ := hs.relieved hf
  rw [sharedLoops_eq hgf, sharedLoops_eq hgf', hrelieved.sharedLoops_succ]

theorem sharedLoops_le (hf : f.WellFormed) : f.sharedLoops ≤ f.blocks.length := by
  obtain ⟨g, hgf, hg⟩ := FlowGraph.ofFunction_eq hf.toNumbered
  rw [sharedLoops_eq hgf, g.sharedLoops_eq]
  exact (List.length_filter_le _ _).trans (hg.length_order_le hf.toNumbered)

theorem Rests.sharedLoops_eq_zero (h : f.Rests) (hf : f.WellFormed)
    (hred : Flow.Reducible f.Edge entry) : f.sharedLoops = 0 := by
  obtain ⟨g, hgf, hirr⟩ := h
  have hg := FlowGraph.describes_of_eq_ok hf.toNumbered hgf
  obtain ⟨found, hfound, hiff⟩ := hg.hasIrreducible_eq hf.toNumbered
  rw [hfound, hiff.2 hred] at hirr
  rcases hirr with hirr | ⟨-, hnone⟩
  · cases hirr
  · rw [sharedLoops_eq hgf, g.sharedLoops_eq, FlowGraph.sharedLoop?_eq_none.1 hnone, List.length_nil]

theorem Ready.exists_round (hf : f.Ready) (hrests : ¬ f.Rests) :
    ∃ f', (∃ header, f.Splits header f') ∧ f'.Ready ∧ f'.sharedLoops < f.sharedLoops := by
  obtain ⟨header, f', hsplits⟩ := hf.rests_or_splits.resolve_left hrests
  refine ⟨f', ⟨header, hsplits⟩, hsplits.ready hf, ?_⟩
  exact Nat.lt_of_succ_le (Nat.le_of_eq (hsplits.sharedLoops_succ hf.wellFormed))

/-- Insertion goes through as many rounds as there are loops with several entries. -/
theorem Insertion.eq_sharedLoops {n : Nat} (h : Insertion n f f') (hf : f.Ready)
    (hred : Flow.Reducible f.Edge entry) : n = f.sharedLoops := by
  have hround : ∀ s t : Function, s.Ready ∧ Flow.Reducible s.Edge entry → ¬ s.Rests →
      (∃ header, s.Splits header t) →
      (t.Ready ∧ Flow.Reducible t.Edge entry) ∧ t.sharedLoops + 1 = s.sharedLoops := by
    rintro s t ⟨hs, -⟩ - ⟨header, hsplits⟩
    obtain ⟨-, hred, -⟩ := hsplits.relieved hs.wellFormed
    exact ⟨⟨hsplits.ready hs, hred⟩, hsplits.sharedLoops_succ hs.wellFormed⟩
  obtain ⟨⟨hf', hred'⟩, hsum⟩ := Repeats.add_variant_eq hround h ⟨hf, hred⟩
  rw [← hsum, (not_not.1 h.not_guard).sharedLoops_eq_zero hf'.wellFormed hred', Nat.add_zero]

theorem Ready.of_rounds (hf : f.Ready)
    (h : ReflTransGen (fun f f' => ∃ header, f.Splits header f') f f') : f'.Ready := by
  induction h with
  | refl => exact hf
  | tail _ hround ih =>
    obtain ⟨header, hsplits⟩ := hround
    exact hsplits.ready ih

end

/-- **Insertion ends.** No round fails, and in reducible control flow there is one for each loop with
several entries. Every round relieves one loop: that loop is then entered from the new block alone, which is
no header, all other loops are entered as before, and the control flow stays reducible. -/
theorem withPreheaders_ends {f : Function} (hf : f.check = .ok ()) (hroom : f.HasRoom) :
    (∃ g n f', FlowGraph.ofFunction f = .ok g ∧ Insertion n f f' ∧ f.withPreheaders = .ok f' ∧
      ((∀ u v, f.Edge u v → g.isIrreducible u v = false) → n = g.sharedLoops)) ∧
    ∀ f₁, ReflTransGen (fun f f' => ∃ header, f.Splits header f') f f₁ →
      (f₁.Rests ∨ ∃ header f₂, f₁.Splits header f₂) ∧
      ∀ header f₂, f₁.Splits header f₂ → f₂.check = .ok () ∧
        ∃ g₁ g₂, FlowGraph.ofFunction f₁ = .ok g₁ ∧ FlowGraph.ofFunction f₂ = .ok g₂ ∧
          (∀ u v, f₁.Edge u v → g₁.isIrreducible u v = false) ∧
          (∀ u v, f₂.Edge u v → g₂.isIrreducible u v = false) ∧
          g₁.Relieved header f₁.blocks.length g₂ := by
  have hready : f.Ready := ⟨check_eq_ok_iff.1 hf, hroom⟩
  refine ⟨?_, fun f₁ hrounds => ?_⟩
  · obtain ⟨g, hgf, hg⟩ := FlowGraph.ofFunction_eq hready.wellFormed.toNumbered
    obtain ⟨n, f', hinsertion, -, hle⟩ := exists_repeats Ready sharedLoops
      (fun _ => Ready.exists_round) f hready
    have hn : n < f.blocks.length + 1 := Nat.lt_succ_of_le
      ((Nat.le_of_add_right_le hle).trans (sharedLoops_le hready.wellFormed))
    refine ⟨g, n, f', hgf, hinsertion, addPreheaders_of_insertion hinsertion hn, fun hedges => ?_⟩
    rw [← sharedLoops_eq hgf]
    exact Insertion.eq_sharedLoops hinsertion hready
      ((hg.reducible_iff hready.wellFormed.toNumbered).1 hedges)
  · have hready₁ := hready.of_rounds hrounds
    refine ⟨hready₁.rests_or_splits, fun header f₂ hsplits => ?_⟩
    have hwf₂ := (hsplits.ready hready₁).wellFormed
    obtain ⟨hred₁, hred₂, g₁, g₂, hgf₁, hgf₂, hg₁, hg₂, hrelieved⟩ :=
      hsplits.relieved hready₁.wellFormed
    exact ⟨check_eq_ok_iff.2 hwf₂, g₁, g₂, hgf₁, hgf₂,
      (hg₁.reducible_iff hready₁.wellFormed.toNumbered).2 hred₁,
      (hg₂.reducible_iff hwf₂.toNumbered).2 hred₂, hrelieved⟩

/-- There is room if it suffices for cutting every phi in two. -/
theorem hasRoom_of_phiCount {f : Function} (hf : f.Numbered)
    (hroom : ∀ id ∈ f.results, id + f.phiCount < idLimit) : f.HasRoom := by
  intro g hgf _ _ id hid
  have hpending := pending_le_phiCount hf (FlowGraph.describes_of_eq_ok hf hgf)
  exact Nat.lt_of_le_of_lt (Nat.add_le_add_left hpending id) (hroom id hid)

theorem withPreheaders_ends_sharedNest :
    sharedNest.check = .ok () ∧ sharedNest.HasRoom ∧
    (∃ f', Insertion 2 sharedNest f' ∧ sharedNest.withPreheaders = .ok f') ∧
    ∃ header f₂ g₁ g₂, sharedNest.Splits header f₂ ∧ FlowGraph.ofFunction sharedNest = .ok g₁ ∧
      FlowGraph.ofFunction f₂ = .ok g₂ ∧ g₁.Relieved header 9 g₂ ∧ g₂.sharedLoops = 1 := by
  have hf : sharedNest.check = .ok () := by decide
  have hnum := (check_eq_ok_iff.1 hf).toNumbered
  have hroom : sharedNest.HasRoom := hasRoom_of_phiCount hnum (by decide)
  obtain ⟨⟨g, n, f', hgf, hinsertion, hf', hcount⟩, hrounds⟩ := withPreheaders_ends hf hroom
  have hedges : ∀ u v, sharedNest.Edge u v → g.isIrreducible u v = false := by
    have hnone : FlowGraph.ofFunction sharedNest >>= (·.hasIrreducible sharedNest) = .ok false := by
      decide +kernel
    have hg := FlowGraph.describes_of_eq_ok hnum hgf
    obtain ⟨found, hirr, hfound⟩ := hg.hasIrreducible_eq hnum
    rw [hgf, ok_bind, hirr] at hnone
    exact (hg.reducible_iff hnum).2 (hfound.1 (Except.ok.inj hnone))
  have hloops : (FlowGraph.ofFunction sharedNest).map FlowGraph.sharedLoops = .ok 2 := by
    decide +kernel
  rw [hgf] at hloops
  obtain rfl : n = 2 := (hcount hedges).trans (Except.ok.inj hloops)
  refine ⟨hf, hroom, ⟨f', hinsertion, hf'⟩, ?_⟩
  cases hinsertion with
  | round _ hsplits _ =>
    obtain ⟨header, hsplits⟩ := hsplits
    obtain ⟨-, g₁, g₂, hgf₁, hgf₂, -, -, hrelieved⟩ := (hrounds _ .refl).2 header _ hsplits
    obtain rfl : g = g₁ := Except.ok.inj (hgf.symm.trans hgf₁)
    refine ⟨header, _, g, g₂, hsplits, hgf, hgf₂, hrelieved, ?_⟩
    exact Nat.succ.inj (hrelieved.sharedLoops_succ.trans (Except.ok.inj hloops))

end Function

end Dataflow
