import Dataflow.Proofs.Flow.LoopNest
import Dataflow.Proofs.Lower.Rounds
import Mathlib.Data.List.Sort

/-!
# What preheader insertion makes of a function

`Function.Inserted` is a run of preheader insertion with the headers it goes through. A run leaves the
blocks in place up to the entries of their phis, appends a block for each header
(`Inserted.outline_eq`, `Inserted.exits_eq`), and goes through each header with several entries once
(`Inserted.nodup`, `Inserted.shared_iff`). Loops keep their headers, their latches and their blocks
(`perm_loops_of_rounds`). When no header with several entries is left, each loop is entered at one
block and another insertion finds nothing to do (`Function.withPreheaders_singleEntry`).

`Function.HasRoom` says in numbers that there are identifiers enough. Insertion overflows exactly if it
does not hold (`Function.hasRoom_iff`).
-/

namespace Dataflow

open Relation

/-! ## Loops of the new control flow -/

/-- A redirected edge takes no block out of a loop, and brings none but the new one in. -/
theorem Flow.Redirectable.inLoop_iff {E : BlockId → BlockId → Prop} {r h p a b : BlockId}
    (hR : Redirectable E r h p) (hb : b ≠ p) :
    InLoop (Redirect E r h p) r a b ↔ InLoop E r a b := by
  refine or_congr_right (and_congr (hR.reaches_iff hb) (exists_congr fun u => ?_))
  rw [hR.isBack_iff]
  refine and_congr_right fun hu => ⟨fun hs => ?_, fun hs => ?_⟩
  · have hup : u ≠ p := fun h => hR.no_source a (h ▸ hu.1)
    by_cases hah : a = h
    · subst hah
      exact (hR.skip_head hs).resolve_left hup
    · have := hR.skip_shadow hah hs
      rwa [shadow_of_ne hb, shadow_of_ne hup] at this
  · have hap : a ≠ p := fun h => hR.no_target u (h ▸ hu.1)
    exact hs.lift' id fun _ _ => hR.skip_redirect hap

/-- The loop without the blocks from `n` on. -/
def NaturalLoop.within (l : NaturalLoop) (n : Nat) : NaturalLoop :=
  { l with body := l.body.filter (· < n) }

/-- An instruction without the entries of a phi. -/
def Instr.bare : Instr → Instr
  | .phi dest ty _ => .phi dest ty []
  | i => i

/-- What a block keeps when the edges into it change. -/
def Block.outline (b : Block) : BlockId × String × List Instr := (b.id, b.name, b.body.map Instr.bare)

namespace Function

/-- A block outside a loop from which control enters it. -/
structure EntersLoop (f : Function) (l : NaturalLoop) (u : BlockId) : Prop where
  reaches : f.Reachable u
  edge : f.Edge u l.header
  outside : u ∉ l.body

/-- The function with a block for each of the headers, from which it leads to the header. -/
structure Fronted (f : Function) (headers : List BlockId) (f' : Function) : Prop where
  outline_eq : (f'.blocks.take f.blocks.length).map Block.outline = f.blocks.map Block.outline
  exits_eq : (f'.blocks.drop f.blocks.length).map Block.exit = headers.map .jump

/-- If preheaders are to be inserted, the identifiers that are left suffice for the phis that are cut in
two. -/
def HasRoom (f : Function) : Prop :=
  ∀ g, FlowGraph.ofFunction f = .ok g → Flow.Reducible f.Edge entry → g.sharedHeaders ≠ [] →
    ∀ id ∈ f.results, id + f.pending g < idLimit

/-! ## Loops after some rounds -/

theorem length_le_of_rounds {f f' : Function} (hr : ReflTransGen Round f f') :
    f.blocks.length ≤ f'.blocks.length := by
  induction hr with
  | refl => exact Nat.le_refl _
  | tail _ hround ih =>
    obtain ⟨header, entries, fresh, h, -, rfl⟩ := hround
    rw [withPreheader_length]
    exact Nat.le_succ_of_le ih

theorem isBack_iff_of_rounds {f f' : Function} (hr : ReflTransGen Round f f') {u v : BlockId} :
    Flow.IsBack f'.Edge entry u v ↔ Flow.IsBack f.Edge entry u v :=
  rounds_iff (P := fun f => Flow.IsBack f.Edge entry u v) (fun hr => hr.isBack_iff) hr

theorem inLoop_iff_of_rounds {f f' : Function} (hr : ReflTransGen Round f f') {a b : BlockId}
    (hb : b < f.blocks.length) :
    Flow.InLoop f'.Edge entry a b ↔ Flow.InLoop f.Edge entry a b := by
  induction hr with
  | refl => exact Iff.rfl
  | tail hr hround ih =>
    have hlt := Nat.lt_of_lt_of_le hb (length_le_of_rounds hr)
    obtain ⟨header, entries, fresh, h, hE, rfl⟩ := hround
    rw [hE.edge_eq, hE.redirectable.inLoop_iff (Nat.ne_of_lt hlt), ih]

end Function

namespace FlowGraph

section
variable {g : FlowGraph} {f : Function} (hf : f.Numbered) (hg : g.Describes f)
include hf hg

theorem Describes.mem_loops_iff {l : NaturalLoop} :
    l ∈ g.loops ↔ ∃ h, Flow.Heads f.Edge Function.entry h ∧ l = g.loopAt h := by
  simp only [mem_loops, hg.mem_order, hg.latches_ne_nil hf]
  constructor
  · rintro ⟨h, -, hheads, rfl⟩
    exact ⟨h, hheads, rfl⟩
  · rintro ⟨h, hheads, rfl⟩
    exact ⟨h, hheads.reaches, hheads, rfl⟩

theorem Describes.entersLoop_iff {h u : BlockId} (hh : f.Reachable h) :
    f.EntersLoop (g.loopAt h) u ↔ Flow.Enters f.Edge Function.entry h u := by
  rw [← hg.mem_entries hf hh, entries, List.mem_filter, hg.mem_preds hf, contains_loopAt,
    Bool.not_eq_true', decide_eq_false_iff_not]
  exact ⟨fun ⟨hr, he, hout⟩ => ⟨⟨hr, he⟩, hout⟩, fun ⟨⟨hr, he⟩, hout⟩ => ⟨hr, he, hout⟩⟩

theorem Describes.shared_iff {h : BlockId} : f.Shared h ↔
    ∃ l ∈ g.loops, l.header = h ∧ ∃ u v, u ≠ v ∧ f.EntersLoop l u ∧ f.EntersLoop l v := by
  constructor
  · rintro ⟨hheads, u, v, huv, hu, hv⟩
    have hh : f.Reachable h := hu.reaches.tail hu.edge
    exact ⟨g.loopAt h, (hg.mem_loops_iff hf).2 ⟨h, hheads, rfl⟩, rfl, u, v, huv,
      (hg.entersLoop_iff hf hh).2 hu, (hg.entersLoop_iff hf hh).2 hv⟩
  · rintro ⟨l, hl, rfl, u, v, huv, hu, hv⟩
    obtain ⟨h, hheads, rfl⟩ := (hg.mem_loops_iff hf).1 hl
    exact ⟨hheads, u, v, huv, (hg.entersLoop_iff hf hheads.reaches).1 hu,
      (hg.entersLoop_iff hf hheads.reaches).1 hv⟩

end

section
variable {g g' : FlowGraph} {f f' : Function} (hf : f.WellFormed) (hf' : f'.WellFormed)
  (hg : g.Describes f) (hg' : g'.Describes f') (hr : ReflTransGen Function.Round f f')
include hf hf' hg hg' hr

/-- Rounds leave the loop of a header as it is, up to new blocks in its body. -/
theorem within_loopAt_of_rounds {h : BlockId} (hheads : Flow.Heads f.Edge Function.entry h) :
    (g'.loopAt h).within f.blocks.length = g.loopAt h := by
  have hheads' : Flow.Heads f'.Edge Function.entry h := by
    simpa only [Flow.Heads, Function.isBack_iff_of_rounds hr] using hheads
  have hlatches : g'.latches h = g.latches h := by
    refine List.Pairwise.eq_of_mem_iff ((hg'.ascending_preds h).filter _)
      ((hg.ascending_preds h).filter _) fun u => ?_
    exact (hg'.mem_latches hf'.toNumbered).trans
      ((Function.isBack_iff_of_rounds hr).trans (hg.mem_latches hf.toNumbered).symm)
  have hbody : (g'.loopBody h).filter (· < f.blocks.length) = g.loopBody h := by
    refine List.Pairwise.eq_of_mem_iff ((List.pairwise_lt_range.filter _).filter _)
      (List.pairwise_lt_range.filter _) fun b => ?_
    rw [List.mem_filter, decide_eq_true_iff, hg'.mem_loopBody hf'.toNumbered hheads'.reaches]
    constructor
    · rintro ⟨hb, hlt⟩
      exact (hg.mem_loopBody hf.toNumbered hheads.reaches).2
        ((Function.inLoop_iff_of_rounds hr hlt).1 hb)
    · intro hb
      have hin := (hg.mem_loopBody hf.toNumbered hheads.reaches).1 hb
      have hlt := hf.reachable_lt (hin.reaches hheads.reaches)
      exact ⟨(Function.inLoop_iff_of_rounds hr hlt).2 hin, hlt⟩
  rw [loopAt, loopAt, NaturalLoop.within, hlatches, hbody]

theorem perm_loops_of_rounds : (g'.loops.map (·.within f.blocks.length)).Perm g.loops := by
  have hnd : (g'.loops.map (·.within f.blocks.length)).Nodup := by
    refine List.Nodup.of_map NaturalLoop.header ?_
    rw [List.map_map]
    exact hg'.nodup_headers
  refine (List.perm_ext_iff_of_nodup hnd (List.Nodup.of_map _ hg.nodup_headers)).2 fun l => ?_
  have hheads : ∀ h, Flow.Heads f'.Edge Function.entry h ↔ Flow.Heads f.Edge Function.entry h := by
    intro h
    simp only [Flow.Heads, Function.isBack_iff_of_rounds hr]
  simp only [List.mem_map, hg'.mem_loops_iff hf'.toNumbered, hg.mem_loops_iff hf.toNumbered, hheads]
  constructor
  · rintro ⟨_, ⟨h, hh, rfl⟩, rfl⟩
    exact ⟨h, hh, within_loopAt_of_rounds hf hf' hg hg' hr hh⟩
  · rintro ⟨h, hh, rfl⟩
    exact ⟨_, ⟨h, hh, rfl⟩, within_loopAt_of_rounds hf hf' hg hg' hr hh⟩

end

/-- If no loop has two entries, each one has exactly one: the entry of a function is no header. -/
theorem Describes.existsUnique_entersLoop {g : FlowGraph} {f : Function} (hf : f.WellFormed)
    (hg : g.Describes f) (hsingle : f.SingleEntry) {l : NaturalLoop} (hl : l ∈ g.loops) :
    ∃! u, f.EntersLoop l u := by
  obtain ⟨h, hheads, rfl⟩ := (hg.mem_loops_iff hf.toNumbered).1 hl
  have hne : h ≠ Function.entry := by
    obtain ⟨u, hu⟩ := hheads
    rintro rfl
    exact hf.entry_untargeted u hu.1
  obtain ⟨u, hu⟩ := Flow.exists_enters hheads.reaches hne
  refine ⟨u, (hg.entersLoop_iff hf.toNumbered hheads.reaches).2 hu, fun v hv => ?_⟩
  exact hsingle h hheads v u ((hg.entersLoop_iff hf.toNumbered hheads.reaches).1 hv) hu

end FlowGraph

namespace Function

/-! ## A run of insertions -/

/-- A run of preheader insertion, and the headers that get a preheader in it, in turn. -/
inductive Inserted : Function → List BlockId → Function → Prop
  | done (f : Function) : Inserted f [] f
  | round {f f' : Function} {header : BlockId} {entries : List BlockId} {fresh : InstId} {h : Block}
      {headers : List BlockId} (entered : f.Entered header entries fresh h)
      (shared : f.Shared header)
      (rest : Inserted (f.withPreheader header entries fresh h) headers f') :
      Inserted f (header :: headers) f'

section
variable {f f' : Function} {headers : List BlockId} (hI : Inserted f headers f')
include hI

/-- A run goes through the headers with several entries that are not left at its end. -/
theorem Inserted.shared_iff {b : BlockId} : f.Shared b ↔ b ∈ headers ∨ f'.Shared b := by
  induction hI with
  | done => simp
  | @round f f' header _ _ _ headers hE hshared _ ih =>
    rw [hE.shared_iff] at ih
    by_cases hb : b = header
    · exact iff_of_true (hb ▸ hshared) (.inl (hb ▸ List.mem_cons_self))
    · rw [List.mem_cons, or_assoc, ← ih]
      simp [hb]

theorem Inserted.nodup : headers.Nodup := by
  induction hI with
  | done => exact List.nodup_nil
  | round hE _ hrest ih =>
    refine List.nodup_cons.2 ⟨fun hmem => ?_, ih⟩
    exact (hE.shared_iff.1 (hrest.shared_iff.2 (.inl hmem))).2 rfl

omit hI in
theorem outline_reroute {header preheader : BlockId} {entries : List BlockId} {fresh : InstId}
    {i : Nat} {b : Block} : (reroute header preheader entries fresh i b).outline = b.outline := by
  have hname : (reroute header preheader entries fresh i b).name = b.name := by
    unfold reroute innerHeader
    split <;> split <;> rfl
  have hbody : (reroute header preheader entries fresh i b).body.map Instr.bare =
      b.body.map Instr.bare := by
    rw [reroute_body]
    split
    · have hphi : ∀ phi : Instr × InstId, (innerPhi entries preheader phi).bare = phi.1.bare := by
        rintro ⟨i, id⟩
        cases i <;> rfl
      have hphis : ((b.phis.zipIdx fresh).map (innerPhi entries preheader)).map Instr.bare =
          b.phis.map Instr.bare := by
        conv_rhs => rw [← List.zipIdx_map_fst fresh b.phis]
        simp only [List.map_map, Function.comp_def, hphi]
      rw [List.map_append, hphis, ← List.map_append, b.phis_append]
    · rfl
  rw [Block.outline, Block.outline, reroute_id, hname, hbody]

theorem Inserted.outline_eq :
    (f'.blocks.take f.blocks.length).map Block.outline = f.blocks.map Block.outline := by
  induction hI with
  | done f => rw [List.take_length]
  | @round f f' header entries fresh h headers hE _ _ ih =>
    rw [withPreheader_length] at ih
    have htake := congrArg (List.take f.blocks.length) ih
    rw [← List.map_take, List.take_take, Nat.min_eq_left (Nat.le_succ _)] at htake
    rw [htake, withPreheader, List.map_append, List.take_left' (by simp)]
    refine List.ext_getElem? fun i => ?_
    rw [List.getElem?_map, List.getElem?_mapIdx, List.getElem?_map, Option.map_map]
    simp only [Function.comp_def, outline_reroute]

/-- A run changes the exits of those blocks only that branch to one of its headers. -/
theorem Inserted.exit_eq {i : Nat} {b : Block} (hb : f.blocks[i]? = some b)
    (hout : ∀ t ∈ b.exit.targets, t ∉ headers) :
    ∃ b', f'.blocks[i]? = some b' ∧ b'.exit = b.exit := by
  induction hI generalizing b with
  | done => exact ⟨b, hb, rfl⟩
  | @round f f' header entries fresh h headers hE _ _ ih =>
    have hexit : (reroute header f.blocks.length entries fresh i b).exit = b.exit := by
      refine reroute_exit.trans (if_neg fun hi => ?_)
      obtain ⟨c, hc, ht⟩ := (hE.mem_entries.1 hi).edge
      obtain rfl := Option.some.inj (hb.symm.trans hc)
      exact hout header ht List.mem_cons_self
    rw [← hexit] at hout ⊢
    exact ih (withPreheader_old hb) fun t ht hmem => hout t ht (List.mem_cons_of_mem _ hmem)

theorem Inserted.exits_eq :
    (f'.blocks.drop f.blocks.length).map Block.exit = headers.map .jump := by
  have hnodup := hI.nodup
  induction hI with
  | done => simp
  | @round f f' header entries fresh h headers hE _ hrest ih =>
    obtain ⟨hnot, hnodup⟩ := List.nodup_cons.1 hnodup
    -- the preheader of this round leads to its header alone, which has no other round
    obtain ⟨b, hb, hexit⟩ := hrest.exit_eq withPreheader_new (by
      intro t ht
      obtain rfl := List.mem_singleton.1 ht
      exact hnot)
    obtain ⟨hlt, rfl⟩ := List.getElem?_eq_some_iff.1 hb
    rw [withPreheader_length] at ih
    rw [List.drop_eq_getElem_cons hlt, List.map_cons, List.map_cons, hexit, ih hnodup]
    rfl

end

/-- What a round that succeeds has done in a reducible function: nothing, if no loop has several
entries, or one of them has a preheader now, for whose phis the identifiers sufficed. -/
theorem addPreheaders_succ_eq_ok {fuel : Nat} {f f' : Function} {g : FlowGraph} (hf : f.WellFormed)
    (hred : Flow.Reducible f.Edge entry) (hg : g.Describes f)
    (hgf : FlowGraph.ofFunction f = .ok g) (h : addPreheaders (fuel + 1) f = .ok f') :
    g.sharedHeaders = [] ∧ f' = f ∨
      ∃ header entries block, header ∈ g.sharedHeaders ∧ f.Entered header entries f.idBound block ∧
        f.idBound + block.phis.length ≤ idLimit ∧
        addPreheaders fuel (f.withPreheader header entries f.idBound block) = .ok f' := by
  obtain ⟨found, hirr, hfound⟩ := hg.hasIrreducible_eq hf.toNumbered
  obtain rfl := hfound.2 hred
  simp only [addPreheaders, hgf, hirr, ok_bind, if_neg Bool.false_ne_true] at h
  cases hs : g.sharedLoop? with
  | none =>
    rw [hs] at h
    cases h
    exact .inl ⟨FlowGraph.sharedLoop?_eq_none.1 hs, rfl⟩
  | some loop =>
    obtain ⟨header, entries⟩ := loop
    rw [hs] at h
    obtain ⟨f₁, hadd, h⟩ := bind_eq_ok.1 h
    obtain ⟨fresh, block, hfresh, hblock, hle, rfl⟩ := addPreheader_eq_ok.1 hadd
    obtain rfl : f.idBound = fresh := by
      rcases f.freshId_cases with ⟨hover, -⟩ | hbound
      · exact absurd (hfresh.symm.trans hover) (by simp)
      · exact Except.ok.inj (hbound.symm.trans hfresh)
    obtain ⟨hmem, -⟩ := FlowGraph.mem_of_sharedLoop? hs
    exact .inr ⟨header, entries, block, hmem, entered_of_sharedLoop? hf hg hs hblock, hle, h⟩

/-- What insertion comes to in a reducible function is a run. -/
theorem exists_inserted (fuel : Nat) {f f' : Function} (hf : f.WellFormed)
    (hred : Flow.Reducible f.Edge entry) (h : addPreheaders fuel f = .ok f') :
    ∃ headers, Inserted f headers f' := by
  induction fuel generalizing f with
  | zero => cases h
  | succ fuel ih =>
    obtain ⟨g, hgf, hg⟩ := FlowGraph.ofFunction_eq hf.toNumbered
    obtain ⟨-, rfl⟩ | ⟨header, entries, block, hmem, hE, -, h⟩ :=
      addPreheaders_succ_eq_ok hf hred hg hgf h
    · exact ⟨[], .done _⟩
    · have hround : Round f _ := ⟨_, _, _, _, hE, rfl⟩
      obtain ⟨headers, hI⟩ := ih hE.wellFormed' (hround.reducible hred) h
      exact ⟨header :: headers, .round hE ((mem_sharedHeaders_iff hf.toNumbered hg).1 hmem) hI⟩

/-- Nothing is inserted if there is no header with several entries, or if a cycle is entered at
several blocks. -/
theorem withPreheaders_eq_self {f : Function} (hf : f.WellFormed)
    (h : Flow.Reducible f.Edge entry → f.SingleEntry) : f.withPreheaders = .ok f := by
  obtain ⟨g, hgf, hg⟩ := FlowGraph.ofFunction_eq hf.toNumbered
  obtain ⟨found, hirr, hfound⟩ := hg.hasIrreducible_eq hf.toNumbered
  simp only [withPreheaders, addPreheaders, hgf, hirr, ok_bind]
  cases found with
  | true => rfl
  | false =>
    have hnone := (sharedLoop?_eq_none_iff hf.toNumbered hg).2 (h (hfound.1 rfl))
    rw [if_neg Bool.false_ne_true, hnone]
    rfl

/-- With room for the identifiers, insertion comes to an end. -/
theorem exists_withPreheaders {f : Function} (hf : f.WellFormed) (hroom : f.HasRoom) :
    ∃ f', f.withPreheaders = .ok f' ∧ ReflTransGen Round f f' ∧
      (Flow.Reducible f.Edge entry → f'.SingleEntry) ∧ (¬ Flow.Reducible f.Edge entry → f' = f) := by
  obtain ⟨g, hgf, hg⟩ := FlowGraph.ofFunction_eq hf.toNumbered
  by_cases hself : Flow.Reducible f.Edge entry → f.SingleEntry
  · exact ⟨f, withPreheaders_eq_self hf hself, .refl, hself, fun _ => rfl⟩
  · obtain ⟨hred, hnot⟩ := Classical.not_imp.1 hself
    have hshared : g.sharedHeaders ≠ [] := by
      rwa [← sharedLoop?_eq_none_iff hf.toNumbered hg, FlowGraph.sharedLoop?_eq_none] at hnot
    have hbound := idBound_add_le (pending_le_phiCount hf.toNumbered hg) (hroom g hgf hred hshared)
    have hfuel : g.sharedHeaders.length < f.blocks.length + 1 :=
      Nat.lt_succ_of_le ((List.length_filter_le _ _).trans (hg.length_order_le hf.toNumbered))
    refine (addPreheaders_cases _ hf hg hfuel hgf).resolve_left fun hover => ?_
    exact absurd hbound (Nat.not_le.2 hover.2)

/-- Insertion that succeeds had an identifier for every phi that was pending. -/
theorem idBound_add_pending_le (fuel : Nat) {f f' : Function} {g : FlowGraph} (hf : f.WellFormed)
    (hred : Flow.Reducible f.Edge entry) (hg : g.Describes f)
    (hgf : FlowGraph.ofFunction f = .ok g) (hshared : g.sharedHeaders ≠ [])
    (h : addPreheaders fuel f = .ok f') : f.idBound + f.pending g ≤ idLimit := by
  induction fuel generalizing f g with
  | zero => cases h
  | succ fuel ih =>
    obtain ⟨hnone, -⟩ | ⟨header, entries, block, hmem, hE, hle, h⟩ :=
      addPreheaders_succ_eq_ok hf hred hg hgf h
    · exact absurd hnone hshared
    obtain ⟨g', hgf', hg'⟩ := FlowGraph.ofFunction_eq hE.numbered
    have hround : Round f (f.withPreheader header entries f.idBound block) := ⟨_, _, _, _, hE, rfl⟩
    have hids : (f.withPreheader header entries f.idBound block).idBound = _ := idBound_withPreheader
    -- the sum of the two is the same after the round
    have hpending := hE.pending_add_eq hg hg' hmem
    by_cases hlast : g'.sharedHeaders = []
    · have hzero : (f.withPreheader header entries f.idBound block).pending g' = 0 := by
        rw [pending, hlast]
        rfl
      omega
    · have := ih hE.wellFormed' (hround.reducible hred) hg' hgf' hlast h
      omega

/-- There is room exactly if insertion does not run out of identifiers. -/
theorem hasRoom_iff {f : Function} (hf : f.WellFormed) :
    f.HasRoom ↔ f.withPreheaders ≠ .error .overflow := by
  constructor
  · intro hroom hover
    obtain ⟨f', hf', -⟩ := exists_withPreheaders hf hroom
    exact absurd (hf'.symm.trans hover) (by simp)
  · intro hids g hgf hred hshared id hid
    obtain ⟨hover, -⟩ | ⟨f', hf', -⟩ := withPreheaders_cases hf
    · exact absurd hover hids
    have hg := FlowGraph.describes_of_eq_ok hf.toNumbered hgf
    have hbound := idBound_add_pending_le _ hf hred hg hgf hshared hf'
    exact Nat.lt_of_lt_of_le (Nat.add_lt_add_right (lt_idBound hid) _) hbound

/-- **Insertion gives every loop a single entry.** The result passes the check, and another insertion
leaves it alone. Irreducible control flow is not touched; in other functions each loop with several
entries gets one new block, and loops are what they were up to these blocks. -/
theorem withPreheaders_singleEntry {f : Function} (hf : f.check = .ok ()) (hroom : f.HasRoom) :
    ∃ f' g g', f.withPreheaders = .ok f' ∧ f'.check = .ok () ∧ f'.withPreheaders = .ok f' ∧
      FlowGraph.ofFunction f = .ok g ∧ FlowGraph.ofFunction f' = .ok g' ∧
      ((∃ u v, f.Edge u v ∧ g.isIrreducible u v = true) → f' = f) ∧
      ((∀ u v, f.Edge u v → g.isIrreducible u v = false) → ∃ headers, f.Fronted headers f' ∧
        headers.Nodup ∧
        (∀ h, h ∈ headers ↔ ∃ l ∈ g.loops, l.header = h ∧
          ∃ u v, u ≠ v ∧ f.EntersLoop l u ∧ f.EntersLoop l v) ∧
        (g'.loops.map (·.within f.blocks.length)).Perm g.loops ∧
        ∀ l ∈ g'.loops, ∃! u, f'.EntersLoop l u) := by
  have hwf := check_eq_ok_iff.1 hf
  obtain ⟨f', hf', hr, hsingle, hsame⟩ := exists_withPreheaders hwf hroom
  have hwf' := wellFormed_of_rounds hwf hr
  obtain ⟨g, hgf, hg⟩ := FlowGraph.ofFunction_eq hwf.toNumbered
  obtain ⟨g', hgf', hg'⟩ := FlowGraph.ofFunction_eq hwf'.toNumbered
  have hagain : f'.withPreheaders = .ok f' := by
    by_cases hred : Flow.Reducible f.Edge entry
    · exact withPreheaders_eq_self hwf' fun _ => hsingle hred
    · exact (hsame hred).symm ▸ withPreheaders_eq_self hwf fun h => absurd h hred
  refine ⟨f', g, g', hf', check_eq_ok_iff.2 hwf', hagain, hgf, hgf', ?_, fun hedges => ?_⟩
  · rintro ⟨u, v, he, hirr⟩
    refine hsame fun hred => ?_
    have := (hg.reducible_iff hwf.toNumbered).2 hred u v he
    exact Bool.noConfusion (hirr.symm.trans this)
  · have hred := (hg.reducible_iff hwf.toNumbered).1 hedges
    obtain ⟨headers, hI⟩ := exists_inserted _ hwf hred hf'
    have hnone := singleEntry_iff.1 (hsingle hred)
    refine ⟨headers, ⟨hI.outline_eq, hI.exits_eq⟩, hI.nodup, fun h => ?_,
      FlowGraph.perm_loops_of_rounds hwf hwf' hg hg' hr,
      fun l => hg'.existsUnique_entersLoop hwf' (hsingle hred)⟩
    rw [← hg.shared_iff hwf.toNumbered, hI.shared_iff, or_iff_left (hnone h)]

/-- A loop in a loop, each of them entered from two blocks and with a phi at its header. -/
def sharedNest : Function where
  name := "shared"
  params := [⟨"again", .int .w1⟩, ⟨"p", .ptr⟩, ⟨"q", .ptr⟩]
  globals := []
  blocks := [
    ⟨0, "entry", [], .branch (.arg 0) 1 2⟩,
    ⟨1, "left", [], .jump 3⟩,
    ⟨2, "right", [], .jump 3⟩,
    ⟨3, "outer", [.phi 0 .ptr [(1, .arg 1), (2, .arg 2), (7, .inst 1)]], .branch (.arg 0) 4 5⟩,
    ⟨4, "up", [], .jump 6⟩,
    ⟨5, "down", [.store (.inst 0) (.arg 1)], .jump 6⟩,
    ⟨6, "inner", [.phi 1 .ptr [(4, .inst 0), (6, .inst 1), (5, .arg 2)]], .branch (.arg 0) 6 7⟩,
    ⟨7, "again", [], .branch (.arg 0) 3 8⟩,
    ⟨8, "exit", [], .ret none⟩]

theorem withPreheaders_singleEntry_sharedNest :
    sharedNest.check = .ok () ∧ sharedNest.HasRoom ∧
    ∃ f' g', sharedNest.withPreheaders = .ok f' ∧ f'.withPreheaders = .ok f' ∧
      FlowGraph.ofFunction f' = .ok g' ∧ sharedNest.Fronted [3, 6] f' ∧
      ∀ l ∈ g'.loops, ∃! u, f'.EntersLoop l u := by
  have hf : sharedNest.check = .ok () := by decide
  have hroom : sharedNest.HasRoom := by
    intro g hgf _ _
    have hpending : (FlowGraph.ofFunction sharedNest).map sharedNest.pending = .ok 2 := by
      decide +kernel
    rw [hgf] at hpending
    rw [Except.ok.inj hpending]
    decide
  obtain ⟨f', g, g', hf', -, hagain, hgf, hgf', -, h⟩ := withPreheaders_singleEntry hf hroom
  have hedges : ∀ u v, sharedNest.Edge u v → g.isIrreducible u v = false := by
    have hnone : FlowGraph.ofFunction sharedNest >>= (·.hasIrreducible sharedNest) = .ok false := by
      decide +kernel
    rw [hgf, ok_bind] at hnone
    obtain ⟨hnum, hg⟩ := FlowGraph.describes_of_ofFunction (by decide) (by decide) hgf
    obtain ⟨found, hirr, hfound⟩ := hg.hasIrreducible_eq hnum
    rw [hnone] at hirr
    cases hirr
    exact (hg.reducible_iff hnum).2 (hfound.1 rfl)
  obtain ⟨headers, hfronted, -, -, -, hunique⟩ := h hedges
  have hheaders : headers = [3, 6] := by
    have hexits : sharedNest.withPreheaders.map (fun f' => (f'.blocks.drop 9).map Block.exit) =
        .ok ([3, 6].map .jump) := by
      decide +kernel
    rw [hf'] at hexits
    exact List.map_injective_iff.2 (fun _ _ => Exit.jump.inj)
      (hfronted.exits_eq.symm.trans (Except.ok.inj hexits))
  exact ⟨hf, hroom, f', g', hf', hagain, hgf', hheaders ▸ hfronted, hunique⟩

end Function

end Dataflow
