import Dataflow.Proofs.Flow.Nesting
import Dataflow.Proofs.Lower.Acyclic

/-!
# Loops are regions

`Function.Regions` says that the loop nodes of a graph are the natural loops of a function: each knows
its head, its latches, its blocks and their members, its head waits for one token from outside and one
from each latch, and each block knows the innermost loop around it. `Session.lower_regions`: if lowering
gives a graph, its loop nodes are the loops of the function with preheaders.
-/

namespace Dataflow

open Relation

namespace Function

/-! ## The specification -/

/-- The block is the header of a loop. -/
def Heads (f : Function) (h : BlockId) : Prop := Flow.Heads f.Edge entry h

/-- The block is in the loop at `h`. -/
def InLoop (f : Function) (h b : BlockId) : Prop := Flow.InLoop f.Edge entry h b

/-- The node collects the loop at `h`. -/
structure Collects (f : Function) (g : Graph) (place : Placement) (h : BlockId) (l : LoopNode) :
    Prop where
  head : l.head = some (place.block h)
  nodup_latches : l.latches.Nodup
  mem_latches : ∀ n, n ∈ l.latches ↔ ∃ u, Flow.IsBack f.Edge entry u h ∧ place.block u = n
  nodup_blocks : l.blocks.Nodup
  mem_blocks : ∀ n, n ∈ l.blocks ↔ ∃ b, f.InLoop h b ∧ place.block b = n
  nodup_instructions : l.instructions.Nodup
  mem_instructions : ∀ n, n ∈ l.instructions ↔
    ∃ b bn, f.InLoop h b ∧ g.kind? (place.block b) = some (.block bn) ∧ n ∈ bn.members

/-- The head of a loop waits for one token from a block outside and one from each latch. -/
def WaitsOnce (f : Function) (g : Graph) (place : Placement) (h : BlockId) : Prop :=
  ∃ (u : BlockId) (us : List BlockId), f.Reachable u ∧ f.Edge u h ∧ ¬ f.InLoop h u ∧ us.Nodup ∧
    (∀ v, v ∈ us ↔ Flow.IsBack f.Edge entry v h) ∧
    (g.ports (place.block h) .ctrlIn).Perm (place.exit u :: us.map place.exit)

/-- The loop nodes of a graph are the loops of a function. -/
structure Regions (f : Function) (g : Graph) (place : Placement) (loop : BlockId → NodeId) : Prop where
  loops : ∀ n, (∃ l, g.kind? n = some (.loop l)) ↔ ∃ h, f.Heads h ∧ loop h = n
  loop_inj : ∀ h h', f.Heads h → f.Heads h' → loop h = loop h' → h = h'
  collects : ∀ h l, f.Heads h → g.kind? (loop h) = some (.loop l) → f.Collects g place h l
  waitsOnce : ∀ h, f.Heads h → f.WaitsOnce g place h
  parent_none : ∀ n bn, g.kind? n = some (.block bn) →
    (bn.parentLoop = none ↔ ∀ m l, g.kind? m = some (.loop l) → n ∉ l.blocks)
  parent_some : ∀ n bn m, g.kind? n = some (.block bn) → bn.parentLoop = some m →
    ∃ l, g.kind? m = some (.loop l) ∧ n ∈ l.blocks ∧
      ∀ m' l', g.kind? m' = some (.loop l') → n ∈ l'.blocks → l.blocks ⊆ l'.blocks

/-- Loops have one entry once preheaders have been inserted, if control flow is reducible. -/
theorem singleEntry_of_withPreheaders {f f' : Function} (hf : f.WellFormed)
    (h : f.withPreheaders = .ok f') (hred : Flow.Reducible f'.Edge entry) : f'.SingleEntry := by
  rcases withPreheaders_cases hf with ⟨herror, -⟩ | ⟨_, hok, -, hsingle, hsame⟩
  · rw [h] at herror
    cases herror
  · rw [h] at hok
    cases hok
    by_cases hf : Flow.Reducible f.Edge entry
    · exact hsingle hf
    · exact absurd (hsame hf ▸ hred) hf

end Function

namespace Plan

variable {p : Plan} {o : Options} {F : Frame Label} {xs : List (Access × Option Region)}
  {ordered : List (Access × Access)}

theorem kindOf_eq_loop {id : Label → NodeId} {L : List Label} {W : List (Wire Label)} {l : Label}
    {n : LoopNode} (h : p.kindOf o id L W l = .loop n) :
    ∃ b, l = .loop b ∧ n = p.loopNodeAt o id b := by
  cases l with
  | loop b => exact ⟨b, rfl, (NodeKind.loop.inj h).symm⟩
  | instr b k =>
    rw [kindOf] at h
    split at h <;> cases h
  | leaf v => cases v <;> cases h
  | _ => cases h

section
variable (hp : p.Sound)
include hp

theorem Sound.mem_loops {l : NaturalLoop} :
    l ∈ p.loops ↔ ∃ h, p.function.Heads h ∧ l = p.flow.loopAt h := by
  have hf := hp.wellFormed.toNumbered
  rw [hp.loops_eq, FlowGraph.mem_loops]
  constructor
  · rintro ⟨h, -, hlatches, rfl⟩
    exact ⟨h, (hp.describes.latches_ne_nil hf).1 hlatches, rfl⟩
  · rintro ⟨h, hh, rfl⟩
    exact ⟨h, hp.describes.mem_order.2 hh.reaches, (hp.describes.latches_ne_nil hf).2 hh, rfl⟩

theorem Sound.mem_loopBody {h b : BlockId} (hh : p.function.Heads h) :
    b ∈ p.flow.loopBody h ↔ p.function.InLoop h b :=
  hp.describes.mem_loopBody hp.wellFormed.toNumbered hh.reaches

theorem Sound.mem_latches {h u : BlockId} :
    u ∈ p.flow.latches h ↔ Flow.IsBack p.function.Edge Function.entry u h :=
  hp.describes.mem_latches hp.wellFormed.toNumbered

theorem Sound.block_mem_fullLabels {W : List (Wire Label)} {b : BlockId}
    (hb : p.function.Reachable b) : .block b ∈ p.fullLabels W :=
  mem_fullLabels (hp.mem_baseLabels.2 hb)

theorem Sound.loop_mem_fullLabels {W : List (Wire Label)} {h : BlockId} :
    .loop h ∈ p.fullLabels W ↔ p.function.Heads h := by
  rw [fullLabels, List.mem_append, List.mem_map]
  constructor
  · rintro (hl | ⟨l, hl, heq⟩)
    · rcases List.mem_append.1 hl with hl | hl
      · exact absurd (hp.mem_baseLabels.1 hl) (by simp [Laid])
      · exact absurd (mem_extras.1 hl).1 (by simp [Label.isExtra])
    · obtain ⟨h, hh, rfl⟩ := hp.mem_loops.1 hl
      exact Label.loop.inj heq ▸ hh
  · exact fun hh => .inr ⟨_, hp.mem_loops.2 ⟨h, hh, rfl⟩, rfl⟩

end

section
variable (hs : p.Scope F (p.wires o xs ordered))
include hs

theorem Scope.kind?_loop_iff {n : NodeId} {l : LoopNode} :
    (F.net (p.whole o F xs ordered)).kind? n = some (.loop l) ↔
      ∃ h, p.function.Heads h ∧ F.id (.loop h) = n ∧ l = p.loopNodeAt o F.id h := by
  constructor
  · intro hn
    obtain ⟨x, hx, rfl, hkind⟩ := hs.exists_label_of_kind? hn
    obtain ⟨h, rfl, rfl⟩ := kindOf_eq_loop hkind
    exact ⟨h, hs.sound.loop_mem_fullLabels.1 hx, rfl, rfl⟩
  · rintro ⟨h, hh, rfl, rfl⟩
    exact hs.kind?_eq (hs.sound.loop_mem_fullLabels.2 hh)

theorem Scope.kind?_block_iff {n : NodeId} {bn : BlockNode} :
    (F.net (p.whole o F xs ordered)).kind? n = some (.block bn) ↔
      ∃ b, p.function.Reachable b ∧ F.id (.block b) = n ∧
        bn = p.blockNodeAt F.id (p.fullLabels (p.wires o xs ordered)) (p.wires o xs ordered) b := by
  constructor
  · intro hn
    obtain ⟨x, hx, rfl, hkind⟩ := hs.exists_label_of_kind? hn
    obtain ⟨b, rfl, rfl⟩ := kindOf_eq_block hkind
    exact ⟨b, hs.sound.mem_baseLabels.1 (mem_baseLabels_of_mem hx rfl fun _ h => by cases h), rfl, rfl⟩
  · rintro ⟨b, hb, rfl, rfl⟩
    exact hs.kind?_eq (hs.sound.block_mem_fullLabels hb)

theorem Scope.id_block_inj {b c : BlockId} (hb : p.function.Reachable b) (hc : p.function.Reachable c)
    (h : F.id (.block b) = F.id (.block c)) : b = c :=
  Label.block.inj ((hs.fits_whole.id_inj (hs.sound.block_mem_fullLabels hb)
    (hs.sound.block_mem_fullLabels hc)).1 h)

/-- Distinct blocks are at distinct nodes. -/
theorem Scope.nodup_blocks {bs : List BlockId} (hnd : bs.Nodup)
    (hbs : ∀ b ∈ bs, p.function.Reachable b) : (bs.map fun b => F.id (.block b)).Nodup :=
  hnd.map_on fun b hb c hc => hs.id_block_inj (hbs b hb) (hbs c hc)

section
variable {h : BlockId} (hh : p.function.Heads h)
include hh

theorem Scope.reachable_loopBody {b : BlockId} (hb : b ∈ p.flow.loopBody h) :
    p.function.Reachable b :=
  ((hs.sound.mem_loopBody hh).1 hb).reaches hh.reaches

/-- No instruction is a member of two blocks. -/
theorem Scope.nodup_instructions : (p.loopNodeAt o F.id h).instructions.Nodup := by
  have hp := hs.sound
  have hmembers : ∀ b ∈ p.flow.loopBody h, (p.members b).Nodup ∧
      ∀ m ∈ p.members b, m.owner? = some (.block b) ∧ m ∈ p.baseLabels := by
    intro b hb
    obtain ⟨c, hc, rfl⟩ := hp.exists_block (hs.reachable_loopBody hh hb)
    exact ⟨hp.nodup_members hc, fun m hm => ⟨hp.owner?_member hc hm, hp.laid_member hc hm⟩⟩
  have hnd : ((p.flow.loopBody h).flatMap p.members).Nodup := by
    refine List.nodup_flatMap.2 ⟨fun b hb => (hmembers b hb).1, ?_⟩
    refine (p.flow.nodup_loopBody h).imp_of_mem fun {b c} hb hc hne m hm hm' => hne ?_
    have howner := ((hmembers b hb).2 m hm).1.symm.trans ((hmembers c hc).2 m hm').1
    exact Label.block.inj (Option.some.inj howner)
  refine hnd.map_on fun m hm m' hm' heq => ?_
  obtain ⟨b, hb, hm⟩ := List.mem_flatMap.1 hm
  obtain ⟨b', hb', hm'⟩ := List.mem_flatMap.1 hm'
  exact (hs.fits_whole.id_inj (mem_fullLabels ((hmembers b hb).2 m hm).2)
    (mem_fullLabels ((hmembers b' hb').2 m' hm').2)).1 heq

theorem Scope.collects : p.function.Collects (F.net (p.whole o F xs ordered)).toGraph (p.placement F) h
    (p.loopNodeAt o F.id h) where
  head := rfl
  nodup_latches := by
    refine hs.nodup_blocks ((hs.sound.describes.nodup_preds h).filter _) fun u hu => ?_
    exact (hs.sound.mem_latches.1 hu).2.reaches
  mem_latches n := by
    simp only [loopNodeAt, List.mem_map, hs.sound.mem_latches]
    rfl
  nodup_blocks := hs.nodup_blocks (p.flow.nodup_loopBody h) fun b hb => hs.reachable_loopBody hh hb
  mem_blocks n := by
    simp only [loopNodeAt, List.mem_map, hs.sound.mem_loopBody hh]
    rfl
  nodup_instructions := hs.nodup_instructions hh
  mem_instructions n := by
    have hmembers : ∀ b, p.function.Reachable b → ∀ n,
        (∃ bn, (F.net (p.whole o F xs ordered)).kind? (F.id (.block b)) = some (.block bn) ∧
          n ∈ bn.members) ↔ ∃ m ∈ p.members b, F.id m = n := by
      intro b hb n
      rw [hs.kind?_eq (hs.sound.block_mem_fullLabels hb)]
      obtain ⟨c, hc, rfl⟩ := hs.sound.exists_block hb
      simp only [kindOf, Option.some.injEq, NodeKind.block.injEq, exists_eq_left',
        hs.members_blockNodeAt hc, List.mem_map]
    simp only [loopNodeAt, List.mem_map, List.mem_flatMap]
    constructor
    · rintro ⟨m, ⟨b, hb, hm⟩, rfl⟩
      obtain ⟨bn, hbn, hmem⟩ := (hmembers b (hs.reachable_loopBody hh hb) _).2 ⟨m, hm, rfl⟩
      exact ⟨b, bn, (hs.sound.mem_loopBody hh).1 hb, hbn, hmem⟩
    · rintro ⟨b, bn, hb, hbn, hmem⟩
      have hb := (hs.sound.mem_loopBody hh).2 hb
      obtain ⟨m, hm, rfl⟩ := (hmembers b (hs.reachable_loopBody hh hb) n).1 ⟨bn, hbn, hmem⟩
      exact ⟨m, ⟨b, hb, hm⟩, rfl⟩

/-- The head of a loop has its predecessors' tokens: one from outside, the others from latches. -/
theorem Scope.waitsOnce (hsingle : p.function.SingleEntry) :
    p.function.WaitsOnce (F.net (p.whole o F xs ordered)).toGraph (p.placement F) h := by
  have hp := hs.sound
  have hf := hp.wellFormed.toNumbered
  have hlatches := (hp.describes.latches_ne_nil hf).2 hh
  obtain ⟨u, hu⟩ := List.length_eq_one_iff.1 (hp.length_entries hlatches hh.reaches hsingle)
  have henters := (hp.describes.mem_entries hf hh.reaches).1 (hu ▸ List.mem_singleton_self u)
  rw [hp.describes.entries_loopAt hf hh.reaches] at hu
  have hperm : (u :: p.flow.latches h).Perm (p.flow.preds h) := by
    have hsplit := List.filter_append_perm (fun u => !p.flow.isBackEdge u h) (p.flow.preds h)
    simp only [Bool.not_not, hu, List.singleton_append] at hsplit
    exact hsplit
  refine ⟨u, p.flow.latches h, henters.reaches, henters.edge,
    fun hin => henters.not_dominates (hin.dominates hh.reaches),
    (hp.describes.nodup_preds h).filter _, fun v => hp.mem_latches, ?_⟩
  have hports := hs.ctrlIn_block hh.reaches
  rw [if_neg (hp.header_ne_entry hlatches), List.nil_append] at hports
  exact hports ▸ (hperm.map (p.placement F).exit).symm

end

/-! ## Innermost loops -/

/-- The loop that a block knows is the last one around it. -/
theorem Scope.parentLoop_eq (b : BlockId) :
    (p.blockNodeAt F.id (p.fullLabels (p.wires o xs ordered)) (p.wires o xs ordered) b).parentLoop =
      (p.loops.filter (·.contains b)).getLast?.map fun l => F.id (.loop l.header) := by
  have hp := hs.sound
  have hbase : (p.wiredLabels (p.wires o xs ordered)).filter (p.surrounds b) = [] := by
    refine List.filter_eq_nil_iff.2 fun l hl hsurrounds => ?_
    cases l with
    | loop h =>
      rcases List.mem_append.1 hl with hl | hl
      · exact absurd (hp.mem_baseLabels.1 hl) (by simp [Laid])
      · exact absurd (mem_extras.1 hl).1 (by simp [Label.isExtra])
    | _ => cases hsurrounds
  have hloops : (p.loops.map fun l => Label.loop l.header).filter (p.surrounds b) =
      (p.loops.filter (·.contains b)).map fun l => .loop l.header := by
    rw [List.filter_map]
    congr 1
    refine List.filter_congr fun l hl => ?_
    obtain ⟨h, -, rfl⟩ := hp.mem_loops.1 hl
    exact (p.flow.contains_loopAt h b).symm
  simp only [blockNodeAt, fullLabels, List.filter_append, hbase, hloops, List.nil_append,
    List.getLast?_map, Option.map_map]
  rfl

theorem Scope.regions (hsingle : p.function.SingleEntry) :
    p.function.Regions (F.net (p.whole o F xs ordered)).toGraph (p.placement F)
      fun h => F.id (.loop h) where
  loops n := by
    simp only [hs.kind?_loop_iff]
    constructor
    · rintro ⟨l, h, hh, hid, -⟩
      exact ⟨h, hh, hid⟩
    · rintro ⟨h, hh, hid⟩
      exact ⟨_, h, hh, hid, rfl⟩
  loop_inj h h' hh hh' heq :=
    Label.loop.inj ((hs.fits_whole.id_inj (hs.sound.loop_mem_fullLabels.2 hh)
      (hs.sound.loop_mem_fullLabels.2 hh')).1 heq)
  collects h l hh hl := by
    rw [hs.kind?_loop_iff.2 ⟨h, hh, rfl, rfl⟩] at hl
    cases hl
    exact hs.collects hh
  waitsOnce h hh := hs.waitsOnce hh hsingle
  parent_none n bn hn := by
    obtain ⟨b, hb, rfl, rfl⟩ := hs.kind?_block_iff.1 hn
    rw [hs.parentLoop_eq, Option.map_eq_none_iff, List.getLast?_eq_none_iff, List.filter_eq_nil_iff]
    constructor
    · intro hnone m l hl hmem
      obtain ⟨h, hh, -, rfl⟩ := hs.kind?_loop_iff.1 hl
      have hbody := (hs.mem_blocks_loop hh.reaches hb).1 hmem
      exact hnone _ (hs.sound.mem_loops.2 ⟨h, hh, rfl⟩)
        ((p.flow.contains_loopAt h b).trans (decide_eq_true hbody))
    · intro hall l hl hcontains
      obtain ⟨h, hh, rfl⟩ := hs.sound.mem_loops.1 hl
      rw [FlowGraph.contains_loopAt] at hcontains
      exact hall _ _ (hs.kind?_loop_iff.2 ⟨h, hh, rfl, rfl⟩)
        ((hs.mem_blocks_loop hh.reaches hb).2 (of_decide_eq_true hcontains))
  parent_some n bn m hn hm := by
    have hp := hs.sound
    obtain ⟨b, hb, rfl, rfl⟩ := hs.kind?_block_iff.1 hn
    rw [hs.parentLoop_eq] at hm
    obtain ⟨l, hlast, rfl⟩ := Option.map_eq_some_iff.1 hm
    obtain ⟨hl, hcontains⟩ := List.mem_filter.1 (List.mem_of_getLast? hlast)
    obtain ⟨h, hh, rfl⟩ := hp.mem_loops.1 hl
    rw [FlowGraph.contains_loopAt] at hcontains
    refine ⟨_, hs.kind?_loop_iff.2 ⟨h, hh, rfl, rfl⟩,
      (hs.mem_blocks_loop hh.reaches hb).2 (of_decide_eq_true hcontains), fun m' l' hl' hmem => ?_⟩
    obtain ⟨h', hh', -, rfl⟩ := hs.kind?_loop_iff.1 hl'
    have hloop' := hp.mem_loops.2 ⟨h', hh', rfl⟩
    rw [hp.loops_eq] at hlast hloop'
    exact List.map_subset _ (hp.describes.innermost hp.wellFormed.toNumbered hlast hloop'
      ((hs.mem_blocks_loop hh'.reaches hb).1 hmem))

end

end Plan

/-- **Loops come out as regions.** If a function that passes the check is lowered, the loop nodes of the
graph are the loops of the function with preheaders. -/
theorem Session.lower_regions {σ : Type} {s : Session} {f : Function} {d : Disambiguator σ}
    {oracle : σ} {g : Graph} (hf : f.check = .ok ()) (hg : (s.lower f d oracle).result = .ok g) :
    ∃ f' place loop, f.withPreheaders = .ok f' ∧ f'.LaidOut g place ∧ f'.Regions g place loop := by
  have hwf := Function.check_eq_ok_iff.1 hf
  obtain ⟨p, cs, hp, hpre, -, hcs, -, hsup, hcomplete, rfl⟩ := lower_eq_ok hwf hg
  have hscope : p.Scope _ (p.lowered d oracle s.options cs) :=
    hp.scope_lowered hcs s.options s.uids.next
  have hsingle := Function.singleEntry_of_withPreheaders hwf hpre hsup.reducible
  exact ⟨p.function, p.placement _, _, hpre, hscope.laidOut hcomplete, hscope.regions hsingle⟩

/-- A loop in a loop; control enters the outer one from two blocks. -/
def Function.nestedLoops : Function where
  name := "nested"
  params := [⟨"again", .int .w1⟩, ⟨"p", .ptr⟩, ⟨"q", .ptr⟩]
  globals := []
  blocks := [
    ⟨0, "entry", [], .branch (.arg 0) 1 2⟩,
    ⟨1, "left", [], .jump 3⟩,
    ⟨2, "right", [], .jump 3⟩,
    ⟨3, "outer", [.phi 0 .ptr [(1, .arg 1), (2, .arg 2), (5, .inst 1)]], .jump 4⟩,
    ⟨4, "inner", [.load 1 .ptr (.inst 0)], .branch (.arg 0) 4 5⟩,
    ⟨5, "again", [], .branch (.arg 0) 3 6⟩,
    ⟨6, "exit", [], .ret none⟩]

theorem Session.lower_regions_nestedLoops : Function.nestedLoops.check = .ok () ∧
    ∃ g, (({} : Session).lower Function.nestedLoops .single ()).result = .ok g ∧
      (g.nodesOfType .loop).length = 2 ∧
      ∃ f' place loop, Function.nestedLoops.withPreheaders = .ok f' ∧ f'.LaidOut g place ∧
        f'.Regions g place loop := by
  have hloops : (({} : Session).lower Function.nestedLoops .single ()).result.toOption.map
      (fun g => (g.nodesOfType .loop).length) = some 2 := by
    decide +kernel
  cases hg : (({} : Session).lower Function.nestedLoops .single ()).result with
  | error e =>
    rw [hg] at hloops
    cases hloops
  | ok g =>
    rw [hg] at hloops
    exact ⟨by decide, g, rfl, Option.some.inj hloops, lower_regions (by decide) hg⟩

end Dataflow
