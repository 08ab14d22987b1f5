import Dataflow.Proofs.Lower.Conditions
import Dataflow.Proofs.Lower.SingleEntry

/-!
# How many nodes a lowered function has

A lowered function has no more nodes than its blocks, instructions and operands account for
(`Sound.length_fullLabels_le`). Preheaders add to these; what they can add is bounded by the function
without them (`Function.footprint_withPreheaders_le`).
-/

namespace Dataflow

/-- An upper bound for the nodes that a block can bring: its own, those of its exit and its loop,
and for each instruction its own, a split call with arguments, a memory unit, and what it reads. -/
def Block.footprint (b : Block) : Nat :=
  3 + b.exit.operands.length + (b.body.map fun i => 3 + 2 * i.operands.length).sum

/-- An upper bound for the nodes of a lowered function. -/
def Function.footprint (f : Function) : Nat :=
  1 + f.params.length + (f.blocks.map Block.footprint).sum

namespace Plan

/-- Labels for everything that a block can bring, memory units apart. -/
def roomLabels (b : Block) : List Label :=
  [.block b.id, .exit b.id, .loop b.id] ++ b.exit.operands.map .leaf ++
    b.body.zipIdx.flatMap fun i => [.instr b.id i.2, .split b.id i.2] ++
      (List.range i.1.operands.length).map (.splitArg b.id i.2) ++ i.1.operands.map .leaf

theorem mem_roomLabels_instr {b : Block} {k : Nat} {i : Instr} (hi : b.body[k]? = some i) {l : Label}
    (hl : l = .instr b.id k ∨ l = .split b.id k ∨ (∃ j < i.operands.length, l = .splitArg b.id k j) ∨
      ∃ v ∈ i.operands, l = .leaf v) : l ∈ roomLabels b := by
  refine List.mem_append_right _ (List.mem_flatMap.2 ⟨(i, k), List.mem_zipIdx_iff_getElem?.2 hi, ?_⟩)
  obtain rfl | rfl | ⟨j, hj, rfl⟩ | ⟨v, hv, rfl⟩ := hl
  · simp
  · simp
  · simpa using hj
  · simpa using hv

theorem length_roomLabels (b : Block) :
    (roomLabels b).length + b.body.length = b.footprint := by
  have hsum : ∀ body : List Instr, (body.map fun i => 2 + 2 * i.operands.length).sum + body.length =
      (body.map fun i => 3 + 2 * i.operands.length).sum := by
    intro body
    induction body with
    | nil => rfl
    | cons i body ih =>
      simp only [List.map_cons, List.sum_cons, List.length_cons]
      omega
  have hbody : b.body.zipIdx.map (fun i => 2 + i.1.operands.length + i.1.operands.length) =
      b.body.map fun i => 2 + 2 * i.operands.length := by
    conv_rhs => rw [← List.zipIdx_map_fst 0 b.body, List.map_map]
    exact List.map_congr_left fun i _ => by
      rw [Function.comp_apply]
      omega
  rw [roomLabels, List.length_append, List.length_append, List.length_flatMap]
  simp only [List.length_append, List.length_map, List.length_range, List.length_cons,
    List.length_nil, Nat.zero_add, hbody]
  rw [Block.footprint, ← hsum]
  omega

variable {p : Plan} {o : Options} {F : Frame Label} {xs : List (Access × Option Region)}
  {ordered : List (Access × Access)}

theorem labelOf_of_isExtra {v : Value} (h : (p.labelOf v).isExtra = true) :
    p.labelOf v = .leaf v := by
  cases v with
  | arg i => cases h
  | global g => rfl
  | const c => rfl
  | inst id =>
    rw [labelOf] at h
    cases hdef : p.definition? id with
    | none =>
      rw [hdef] at h
      cases h
    | some l =>
      obtain ⟨b, k, i, rfl, -⟩ := produces_iff.1 (List.find?_some (p := p.produces id) hdef)
      rw [hdef] at h
      cases h

section
variable (hp : p.Sound)
include hp

/-- What is drawn when a wire needs it is read by a block or serves an access. -/
theorem Sound.extras_cases {l : Label} (hl : l ∈ extras (p.wires o xs ordered)) :
    (∃ b ∈ p.blocks, ∃ v, l = .leaf v ∧ (v ∈ b.exit.operands ∨ ∃ i ∈ b.body, v ∈ i.operands)) ∨
      ∃ x ∈ xs, ∃ r, boundRegion o x.2 = some r ∧ l = .unit r := by
  obtain ⟨hextra, w, hw, hend⟩ := mem_extras.1 hl
  -- ends that are laid out are no extras, which leaves the sources of data and the units
  have hbase : l ∉ p.baseLabels := fun h => by
    rw [hp.isExtra_of_mem h] at hextra
    cases hextra
  rcases List.mem_append.1 hw with hw | hw
  · left
    rcases List.mem_append.1 hw with hw | hw
    · obtain ⟨hsrc, hdst⟩ := hp.controlWires_mem hw
      rcases hend with rfl | rfl
      · exact absurd hsrc hbase
      · exact absurd hdst hbase
    · obtain rfl | rfl := hend
      · obtain ⟨b, -, v, hv, rfl⟩ | ⟨b, hb, m, hm, -, rfl⟩ | ⟨b, hb, i, k, hi, v, hv, rfl⟩ |
          ⟨b, hb, v, hv, rfl⟩ := mem_valueWires.1 hw
        · obtain ⟨c, hc, hv, -⟩ := hp.mem_exit_of_maskRead? hv
          exact ⟨c, hc, v, labelOf_of_isExtra hextra, .inl hv⟩
        · cases hextra
        · exact ⟨b, hb, v, labelOf_of_isExtra hextra,
            .inr ⟨i, List.mem_of_getElem? hi, mem_operands_of_mem_reads hv⟩⟩
        · exact ⟨b, hb, v, labelOf_of_isExtra hextra, .inl hv⟩
      · exact absurd (hp.valueWires_mem hw).2 hbase
  · right
    obtain ⟨x, hx, r, hr, hw⟩ | ⟨q, -, rfl⟩ := mem_memoryWires.1 hw
    · simp only [serviceWires, List.mem_cons, List.not_mem_nil, or_false] at hw
      refine ⟨x, hx, r, hr, ?_⟩
      rcases hw with rfl | rfl <;> rcases hend with rfl | rfl
      · cases hextra
      · rfl
      · rfl
      · cases hextra
    · rcases hend with rfl | rfl <;> cases hextra

theorem Sound.mem_roomLabels_block {b : BlockId} (hb : p.function.Reachable b) {l : Label}
    (hl : l ∈ [Label.block b, .exit b, .loop b]) : l ∈ p.blocks.flatMap roomLabels := by
  obtain ⟨c, hc, rfl⟩ := hp.exists_block hb
  exact List.mem_flatMap.2 ⟨c, hc, List.mem_append_left _ (List.mem_append_left _ hl)⟩

/-- What is laid out belongs to the entry or to a block. -/
theorem Sound.mem_roomLabels_base {l : Label} (hl : l ∈ p.baseLabels) :
    l ∈ .entry :: (List.range p.function.params.length).map .param ++ p.blocks.flatMap roomLabels := by
  have hbody : ∀ {b : BlockId} {k : Nat} {i : Instr}, p.function.Reachable b → p.instr? b k = some i →
      (l = .instr b k ∨ l = .split b k ∨ ∃ j < i.operands.length, l = .splitArg b k j) →
      l ∈ p.blocks.flatMap roomLabels := by
    intro b k i hb hi hl
    obtain ⟨c, hc, rfl⟩ := hp.exists_block hb
    refine List.mem_flatMap.2 ⟨c, hc, mem_roomLabels_instr ((hp.instr?_eq hc k).symm.trans hi) ?_⟩
    exact hl.imp_right (Or.imp_right .inl)
  have hlaid := hp.mem_baseLabels.1 hl
  cases l with
  | entry => exact List.mem_cons_self
  | param i => exact List.mem_append_left _ (List.mem_cons_of_mem _
      (List.mem_map_of_mem (List.mem_range.2 hlaid)))
  | block b => exact List.mem_append_right _ (hp.mem_roomLabels_block hlaid (by simp))
  | exit b => exact List.mem_append_right _ (hp.mem_roomLabels_block hlaid (by simp))
  | instr b k =>
    obtain ⟨hr, i, hi⟩ := hlaid
    exact List.mem_append_right _ (hbody hr hi (.inl rfl))
  | split b k =>
    obtain ⟨hr, dest, callee, args, hi⟩ := hlaid
    exact List.mem_append_right _ (hbody hr hi (.inr (.inl rfl)))
  | splitArg b k j =>
    obtain ⟨hr, dest, callee, args, hi, hj⟩ := hlaid
    exact List.mem_append_right _ (hbody hr hi (.inr (.inr ⟨j, hj, rfl⟩)))
  | leaf v => cases hlaid
  | unit r => cases hlaid
  | loop b => cases hlaid

/-- What is drawn for a wire is read by a block, or is the unit of an access. -/
theorem Sound.mem_roomLabels_extra {l : Label} (hl : l ∈ extras (p.wires o xs ordered)) :
    l ∈ p.blocks.flatMap roomLabels ++ xs.filterMap fun x => (boundRegion o x.2).map .unit := by
  obtain ⟨b, hb, v, rfl, hv | ⟨i, hi, hv⟩⟩ | ⟨x, hx, r, hr, rfl⟩ := hp.extras_cases hl
  · refine List.mem_append_left _ (List.mem_flatMap.2 ⟨b, hb, ?_⟩)
    exact List.mem_append_left _ (List.mem_append_right _ (List.mem_map_of_mem hv))
  · obtain ⟨k, hk⟩ := List.mem_iff_getElem?.1 hi
    refine List.mem_append_left _ (List.mem_flatMap.2 ⟨b, hb, ?_⟩)
    exact mem_roomLabels_instr hk (.inr (.inr (.inr ⟨v, hv, rfl⟩)))
  · exact List.mem_append_right _ (List.mem_filterMap.2 ⟨x, hx, by rw [hr, Option.map_some]⟩)

/-- Every node has a label that the function accounts for. -/
theorem Sound.mem_roomLabels {l : Label} (hl : l ∈ p.fullLabels (p.wires o xs ordered)) :
    l ∈ .entry :: (List.range p.function.params.length).map .param ++
      (p.blocks.flatMap roomLabels ++ xs.filterMap fun x => (boundRegion o x.2).map .unit) := by
  rcases List.mem_append.1 hl with hl | hl
  · rcases List.mem_append.1 hl with hl | hl
    · rw [← List.append_assoc]
      exact List.mem_append_left _ (hp.mem_roomLabels_base hl)
    · exact List.mem_append_right _ (hp.mem_roomLabels_extra hl)
  · obtain ⟨loop, hloop, rfl⟩ := List.mem_map.1 hl
    rw [hp.loops_eq] at hloop
    obtain ⟨h, hh, -, rfl⟩ := FlowGraph.mem_loops.1 hloop
    have hhead := hp.describes.mem_order.1 hh
    exact List.mem_append_right _ (List.mem_append_left _
      (hp.mem_roomLabels_block hhead (by simp [FlowGraph.loopAt])))

omit hp in
theorem length_accesses_le : (p.accesses F).length ≤ (p.blocks.map fun b => b.body.length).sum := by
  refine (List.length_filterMap_le _ _).trans (le_of_eq ?_)
  rw [List.length_flatMap]
  exact congrArg List.sum (List.map_congr_left fun b _ => by simp [placedIn])

/-- A lowered function has no more nodes than it accounts for. -/
theorem Sound.length_fullLabels_le (hxs : xs.map Prod.fst = p.accesses F) :
    (p.fullLabels (p.wires o xs ordered)).length ≤ p.function.footprint := by
  have hsub := (hp.nodup_fullLabels (W := p.wires o xs ordered)).subperm fun l => hp.mem_roomLabels
  have hunits : (xs.filterMap fun x => (boundRegion o x.2).map Label.unit).length ≤
      (p.accesses F).length := by
    rw [← hxs, List.length_map]
    exact List.length_filterMap_le _ _
  have hblocks : (p.blocks.map Block.footprint).sum ≤ (p.function.blocks.map Block.footprint).sum :=
    (List.filter_sublist.map _).sum_le_sum fun _ _ => Nat.zero_le _
  have hroom : (p.blocks.flatMap roomLabels).length + (p.blocks.map fun b => b.body.length).sum =
      (p.blocks.map Block.footprint).sum := by
    rw [List.length_flatMap, ← List.sum_map_add]
    exact congrArg List.sum (List.map_congr_left fun b _ => length_roomLabels b)
  have haccesses := length_accesses_le (p := p) (F := F)
  have hlen := hsub.length_le
  simp only [List.length_append, List.length_cons, List.length_map, List.length_range] at hlen
  rw [Function.footprint]
  omega

end

end Plan

/-! ## With preheaders -/

/-- An upper bound for the nodes that a block can bring with a preheader in front of it. The new block
brings three, and each phi of the block becomes two, which read one more value. -/
def Block.extent (b : Block) : Nat := b.footprint + (3 + 5 * b.phis.length)

/-- An upper bound for the nodes of a lowered function, by the function without its preheaders. -/
def Function.extent (f : Function) : Nat :=
  1 + f.params.length + (f.blocks.map Block.extent).sum

/-- What an instruction counts for in a footprint. -/
def Instr.footprint (i : Instr) : Nat := 3 + 2 * i.operands.length

theorem Block.footprint_eq (b : Block) :
    b.footprint = 3 + b.exit.operands.length + (b.body.map Instr.footprint).sum := rfl

theorem sum_set_add {l : List Nat} {i : Nat} (hi : i < l.length) (a : Nat) :
    (l.set i a).sum + l[i] = l.sum + a := by
  rw [(List.set_perm_cons_eraseIdx hi a).sum_eq, ← (List.getElem_cons_eraseIdx_perm hi).sum_eq,
    List.sum_cons, List.sum_cons]
  omega

namespace Function

/-- The two parts of a phi are one instruction more and read one value more. -/
theorem footprint_cut (entries : List BlockId) (preheader : BlockId) (phi : Instr × InstId)
    (h : phi.1.isPhi = true) :
    (innerPhi entries preheader phi).footprint + (outerPhi entries phi).footprint =
      phi.1.footprint + 5 := by
  obtain ⟨i, id⟩ := phi
  cases i with
  | phi dest ty incoming =>
    have hsplit := List.length_eq_length_filter_add (l := incoming) (decide <| ·.1 ∈ entries)
    simp only [innerPhi, outerPhi, Instr.footprint, Instr.operands, List.length_map,
      List.length_append, List.length_singleton, decide_not]
    omega
  | _ => cases h

theorem sum_cut (entries : List BlockId) (preheader : BlockId) (phis : List Instr)
    (h : ∀ q ∈ phis, q.isPhi = true) (fresh : InstId) :
    (((phis.zipIdx fresh).map (innerPhi entries preheader)).map Instr.footprint).sum +
      (((phis.zipIdx fresh).map (outerPhi entries)).map Instr.footprint).sum =
    (phis.map Instr.footprint).sum + 5 * phis.length := by
  induction phis generalizing fresh with
  | nil => rfl
  | cons q phis ih =>
    obtain ⟨hq, hphis⟩ := List.forall_mem_cons.1 h
    have hcut : _ = q.footprint + 5 := footprint_cut entries preheader (q, fresh) hq
    have hrest := ih hphis (fresh + 1)
    simp only [List.zipIdx_cons, List.map_cons, List.sum_cons, List.length_cons]
    omega

section
variable {header preheader : BlockId} {entries : List BlockId} {fresh : InstId} {h : Block}

theorem footprint_reroute_of_ne {i : Nat} {b : Block} (hi : i ≠ header) :
    (reroute header preheader entries fresh i b).footprint = b.footprint := by
  rw [Block.footprint, reroute_exit_operands, reroute_body, if_neg hi, Block.footprint]

/-- What the header and its preheader bring. -/
theorem footprint_reroute_add : (reroute header preheader entries fresh header h).footprint +
    (preheaderBlock header preheader entries fresh h).footprint = h.extent := by
  have hcut := sum_cut entries preheader h.phis (fun _ => isPhi_of_mem_phis) fresh
  have hbody : (h.body.map Instr.footprint).sum = (h.phis.map Instr.footprint).sum +
      ((h.body.dropWhile Instr.isPhi).map Instr.footprint).sum := by
    rw [← List.sum_append, ← List.map_append, h.phis_append]
  have hnew : (preheaderBlock header preheader entries fresh h).footprint =
      3 + (((h.phis.zipIdx fresh).map (outerPhi entries)).map Instr.footprint).sum := rfl
  rw [hnew, Block.extent, Block.footprint_eq, Block.footprint_eq, reroute_exit_operands,
    reroute_body, if_pos rfl, List.map_append, List.sum_append]
  omega

theorem map_footprint_reroute {f : Function} (hlt : header < f.blocks.length) :
    (f.blocks.mapIdx (reroute header preheader entries fresh)).map Block.footprint =
      (f.blocks.map Block.footprint).set header
        (reroute header preheader entries fresh header f.blocks[header]).footprint := by
  refine List.ext_getElem (by simp) fun i h₁ h₂ => ?_
  rw [List.getElem_set, List.getElem_map, List.getElem_mapIdx, List.getElem_map]
  split
  · subst header
    rfl
  · exact footprint_reroute_of_ne (Ne.symm ‹_›)

/-- A round adds the preheader and a part of each phi of its header. -/
theorem footprint_withPreheader {f : Function} (hh : f.blocks[header]? = some h) :
    (f.withPreheader header entries fresh h).footprint = f.footprint + (3 + 5 * h.phis.length) := by
  obtain ⟨hlt, rfl⟩ := List.getElem?_eq_some_iff.1 hh
  have hlt' : header < (f.blocks.map Block.footprint).length := by simpa using hlt
  have hset := sum_set_add hlt'
    (reroute header f.blocks.length entries fresh header f.blocks[header]).footprint
  have hadd : (reroute header f.blocks.length entries fresh header f.blocks[header]).footprint +
      (preheaderBlock header f.blocks.length entries fresh f.blocks[header]).footprint = _ :=
    footprint_reroute_add
  rw [footprint, withPreheader, List.map_append, List.sum_append, map_footprint_reroute hlt,
    List.map_singleton, List.sum_singleton, footprint]
  rw [List.getElem_map] at hset
  rw [Block.extent] at hadd
  dsimp only
  omega

end

/-- A run adds what its rounds add. -/
theorem Inserted.footprint_eq {f f' : Function} {headers : List BlockId}
    (hI : Inserted f headers f') (hlt : ∀ b ∈ headers, b < f.blocks.length) :
    f'.footprint = f.footprint + (headers.map fun b => 3 + 5 * f.phisAt b).sum := by
  induction hI with
  | done => rfl
  | @round f f' header entries fresh h headers hE _ _ ih =>
    obtain ⟨hheader, hlt⟩ := List.forall_mem_cons.1 hlt
    have hphis : f.phisAt header = h.phis.length := by rw [phisAt, hE.header_eq, Option.elim_some]
    have hrest : (headers.map fun b => 3 + 5 * (f.withPreheader header entries fresh h).phisAt b) =
        headers.map fun b => 3 + 5 * f.phisAt b :=
      List.map_congr_left fun b hb => by rw [phisAt_withPreheader (hlt b hb)]
    have ih := ih fun b hb => by
      rw [withPreheader_length]
      exact Nat.lt_succ_of_lt (hlt b hb)
    rw [ih, hrest, footprint_withPreheader hE.header_eq, List.map_cons, List.sum_cons, hphis]
    omega

theorem extent_eq (f : Function) : f.extent =
    f.footprint + ((List.range f.blocks.length).map fun b => 3 + 5 * f.phisAt b).sum := by
  rw [f.map_phisAt_range fun n => 3 + 5 * n, extent, footprint, Nat.add_assoc (1 + f.params.length),
    ← List.sum_map_add]
  rfl

/-- With all its preheaders a function brings no more than its extent. -/
theorem footprint_withPreheaders_le {f f' : Function} (hf : f.WellFormed)
    (h : f.withPreheaders = .ok f') : f'.footprint ≤ f.extent := by
  rw [extent_eq]
  by_cases hred : Flow.Reducible f.Edge entry
  · obtain ⟨headers, hI⟩ := exists_inserted _ hf hred h
    have hlt : ∀ b ∈ headers, b < f.blocks.length := fun b hb => by
      obtain ⟨⟨u, hback⟩, -⟩ := hI.shared_iff.2 (.inl hb)
      exact (hf.edge_lt hback.1).2
    have hsub : headers.Subperm (List.range f.blocks.length) :=
      hI.nodup.subperm fun b hb => List.mem_range.2 (hlt b hb)
    rw [hI.footprint_eq hlt]
    exact Nat.add_le_add_left (sum_le_of_subperm hsub) _
  · obtain rfl : f = f' :=
      Except.ok.inj ((withPreheaders_eq_self hf fun hr => absurd hr hred).symm.trans h)
    exact Nat.le_add_right _ _

end Function

end Dataflow
