import Dataflow.Proofs.Lower.Values

/-!
# Routing masks and data

The wires that `Plan.routeMask` and `Plan.routeData` add for a block, and when they can: all values
that reachable blocks read have to be there (`Plan.Complete`). Otherwise routing is refused.
-/

namespace Dataflow

namespace Plan

variable (p : Plan)

/-- The value that a masked block is told. -/
def maskRead? (b : BlockId) : Option Value :=
  if p.mode b = .masked then p.maskCondition? b else none

/-- Whether a member of a block is told the way control came. -/
def masks (b : BlockId) (m : Label) : Bool := p.mode b = .masked || p.isPhi m

def maskWires (b : BlockId) : List (Wire Label) :=
  (p.maskRead? b).toList.map (fun v => ⟨.data, p.labelOf v, .block b⟩) ++
    ((p.members b).filter (p.masks b)).map fun m => ⟨.mask, .block b, m⟩

/-- The values an instruction reads, a phi's in the order of the predecessors of its block. -/
def reads (b : BlockId) : Instr → List Value
  | .phi _ _ incoming => (p.flow.preds b).filterMap fun u => (incoming.find? (·.1 = u)).map (·.2)
  | i => i.operands

/-- The wires that bring values to a label. -/
def feedWires (vs : List Value) (x : Label) : List (Wire Label) :=
  vs.map fun v => ⟨.data, p.labelOf v, x⟩

def dataWires (b : Block) : List (Wire Label) :=
  b.body.zipIdx.flatMap (fun i => p.feedWires (p.reads b.id i.1) (.instr b.id i.2)) ++
    p.feedWires b.exit.operands (.exit b.id)

/-- Everything that a block reads is there. -/
def Reads (b : Block) : Prop :=
  (∀ i ∈ b.body, ∀ v ∈ p.reads b.id i, p.Known v) ∧ ∀ v ∈ b.exit.operands, p.Known v

/-- Everything that reachable blocks read is there. -/
def Complete : Prop := ∀ b ∈ p.blocks, p.Reads b

variable {p} {o : Options} {F : Frame Label} {all : List (Wire Label)}

section
variable (hs : p.Scope F all)
include hs

/-! ## Single wires -/

/-- A wire between labels that are laid out and that it does not change. -/
theorem Scope.routes_join {kind : EdgeKind} {a b : Label} (ha : a ∈ p.baseLabels)
    (hb : b ∈ p.baseLabels)
    (hsrc : ∀ L W, (p.kindOf o F.id L W a).accepts kind.sourceSlot = true)
    (hdst : ∀ L W, (p.kindOf o F.id L W b).accepts kind.targetSlot = true)
    (hkind : ∀ L W, Graph.kindDefect? kind (F.id a) (F.id b) (F.node (p.draw o F.id L W) a)
      (F.node (p.draw o F.id L W) b) = none)
    (hreq : kind.sourceSlot ≠ .memReq) (hblock : ∀ c, b ≠ .block c) :
    p.Routes o F all True (Net.connect kind (F.id a) (F.id b)) [⟨kind, a, b⟩] := by
  intro W hW
  have hd : F.Fits (p.wired o F.id W) := hs.fits ((List.prefix_append _ _).trans hW)
  have hlabels : p.wiredLabels (W ++ [⟨kind, a, b⟩]) = p.wiredLabels W := by
    rw [hs.sound.wiredLabels_concat (x := a) (.inl ha), if_pos (mem_wiredLabels ha)]
    simp [hs.sound.isExtra_of_mem ha, hs.sound.isExtra_of_mem hb]
  have hjoin := draws_join hd kind (mem_wiredLabels ha) (mem_wiredLabels hb)
    (hsrc _ _) (hdst _ _) (hkind _ _) hreq fun c h => (hblock c h).elim
  rw [wired, wired, hlabels]
  exact hjoin.tries

theorem Scope.routes_feed {v : Value} {x : Label} (hv : p.function.Defines v)
    (hx : x ∈ p.baseLabels) (hdst : ∀ L W, (p.kindOf o F.id L W x).accepts .dataIn = true)
    (hblock : ∀ c, x ≠ .block c) :
    p.Routes o F all (p.Known v) (p.feed (F.id x) v) [⟨.data, p.labelOf v, x⟩] := by
  intro W hW
  have hvalue := hs.tries_valueNode (o := o) hv hx hW
  refine (hvalue.bind (length_wiredLabels_le hW) fun hk => ?_).iff (iff_of_eq (and_true _))
  have hd := (hvalue.draws hk).fits
  refine (draws_join hd .data ?_ (mem_wiredLabels hx) (accepts_labelOf hk) (hdst _ _) rfl
    (by decide) fun c h => (hblock c h).elim).tries
  exact (hs.fits (o := o) hW).src_mem ⟨.data, p.labelOf v, x⟩ (by simp [wired])

theorem Scope.routes_maskSource {v : Value} {b : BlockId} (hv : p.function.Defines v)
    (hb : .block b ∈ p.baseLabels) :
    p.Routes o F all (p.Known v) (p.valueNode v >>= Net.setMaskSource (F.id (.block b)))
      [⟨.data, p.labelOf v, .block b⟩] := by
  intro W hW
  have hvalue := hs.tries_valueNode (o := o) hv hb hW
  refine (hvalue.bind (length_wiredLabels_le hW) fun hk => ?_).iff (iff_of_eq (and_true _))
  have hd := (hvalue.draws hk).fits
  refine (draws_maskSource hd ?_ (mem_wiredLabels hb) (accepts_labelOf hk)).tries
  exact (hs.fits (o := o) hW).src_mem ⟨.data, p.labelOf v, .block b⟩ (by simp [wired])

/-! ## Masks -/

omit hs in
theorem isOp_phi {L : List Label} {W : List (Wire Label)} {m : Label} :
    (F.node (p.draw o F.id L W) m).isOp .phi = p.isPhi m := by
  rw [Node.isOp, instr?_node]
  cases m with
  | instr b k =>
    cases hi : p.instr? b k with
    | none => simp [isPhi, hi]
    | some i =>
      simp only [Option.map_some, Option.any_some, kind_opcodeAt, isPhi, hi]
      cases i <;> rfl
  | exit b =>
    simp only [Option.any_some, exitOp, isPhi, decide_eq_false_iff_not]
    split <;> simp [Opcode.kind]
  | _ => rfl

theorem Scope.routes_maskMembers {b : Block} (hb : b ∈ p.blocks) :
    p.Routes o F all True
      (do
        let net ← get
        ((net.membersOf (F.id (.block b.id))).filter (p.needsMask b.id net)).forM
          (Net.connect .mask (F.id (.block b.id))))
      (((p.members b.id).filter (p.masks b.id)).map fun m => ⟨.mask, .block b.id, m⟩) := by
  intro W hW
  have hp := hs.sound
  have hd : F.Fits (p.wired o F.id W) := hs.fits ((List.prefix_append _ _).trans hW)
  have hblock := hp.laid_block hb
  have hmembers : (F.net (p.wired o F.id W)).membersOf (F.id (.block b.id)) =
      (p.members b.id).map F.id := by
    rw [wired, membersOf_eq hd (mem_wiredLabels hblock), hp.members_blockNodeAt hb]
    rw [owned_wiredLabels, hp.owned_baseLabels hb]
  have hmasks : ((p.members b.id).map F.id).filter (p.needsMask b.id (F.net (p.wired o F.id W))) =
      ((p.members b.id).filter (p.masks b.id)).map F.id := by
    rw [List.filter_map]
    refine congrArg _ (List.filter_congr fun m hm => ?_)
    have hnode := hd.getElem?_nodes (mem_wiredLabels (hp.laid_member hb hm))
    rw [Function.comp_apply, needsMask, Graph.node?, hnode, Option.any_some, wired, isOp_phi, masks]
  refine .get ?_
  rw [hmembers, hmasks, List.forM_eq_forM, List.forM_map]
  have hsteps : p.Routes o F all (∀ m ∈ (p.members b.id).filter (p.masks b.id), True)
      (((p.members b.id).filter (p.masks b.id)).forM fun m =>
        Net.connect .mask (F.id (.block b.id)) (F.id m))
      (((p.members b.id).filter (p.masks b.id)).flatMap fun m => [⟨.mask, .block b.id, m⟩]) := by
    refine hs.routes_forM fun m hm => ?_
    have hm := (List.mem_filter.1 hm).1
    refine hs.routes_join hblock (hp.laid_member hb hm) (fun _ _ => rfl)
      (fun _ _ => accepts_member hm (.inr rfl)) (fun _ _ => rfl) (by decide) ?_
    rintro c rfl
    simp [hp.members_eq hb] at hm
  rw [← List.map_eq_flatMap] at hsteps
  exact (hsteps.iff (by simp)) W hW

theorem Scope.routes_routeMask {b : Block} (hb : b ∈ p.blocks)
    (hdef : ∀ v ∈ p.maskRead? b.id, p.function.Defines v) :
    p.Routes o F all (∀ v ∈ p.maskRead? b.id, p.Known v) (p.routeMask b) (p.maskWires b.id) := by
  have hblock := hs.sound.laid_block hb
  have hmembers := hs.routes_maskMembers (o := o) hb
  -- the first step finds the block and changes nothing
  have hfind : ∀ {good : Prop} {k : NodeId → NetM Unit} {wires : List (Wire Label)},
      p.Routes o F all good (k (F.id (.block b.id))) wires →
      p.Routes o F all good (blockNode b.id >>= k) wires := by
    intro good k wires h W hW
    have hd : F.Fits (p.wired o F.id W) := hs.fits ((List.prefix_append _ _).trans hW)
    refine ((draws_blockNode hd (mem_wiredLabels hblock)).tries.bind
      (length_wiredLabels_le ((List.prefix_append _ _).trans hW)) fun _ => h W hW).iff
      (iff_of_eq (true_and _))
  refine hfind ?_
  unfold maskWires maskRead? at *
  by_cases hmode : p.mode b.id = .masked
  · simp only [hmode, if_true] at hdef ⊢
    cases hcond : p.maskCondition? b.id with
    | none => exact hmembers.iff (by simp)
    | some v =>
      have hsource := hs.routes_maskSource (o := o) (hdef v hcond) hblock
      have h : p.Routes o F all (∀ w ∈ some v, p.Known w) _ _ :=
        (hsource.bind hmembers).iff (by simp)
      rw [bind_assoc] at h
      exact h
  · simp only [hmode, if_false]
    exact hmembers.iff (by simp)

/-! ## Data -/

omit hs in
theorem mem_operands_of_mem_reads {b : BlockId} {i : Instr} {v : Value} (h : v ∈ p.reads b i) :
    v ∈ i.operands := by
  cases i with
  | phi dest ty incoming =>
    obtain ⟨u, -, hu⟩ := List.mem_filterMap.1 h
    obtain ⟨entry, hentry, rfl⟩ := Option.map_eq_some_iff.1 hu
    exact List.mem_map_of_mem (List.mem_of_find?_eq_some hentry)
  | _ => exact h

theorem Scope.routes_feeds {vs : List Value} {x : Label} (hv : ∀ v ∈ vs, p.function.Defines v)
    (hx : x ∈ p.baseLabels)
    (hdst : vs ≠ [] → ∀ L W, (p.kindOf o F.id L W x).accepts .dataIn = true)
    (hblock : ∀ c, x ≠ .block c) :
    p.Routes o F all (∀ v ∈ vs, p.Known v) (vs.forM (p.feed (F.id x))) (p.feedWires vs x) := by
  rw [feedWires, List.map_eq_flatMap]
  exact hs.routes_forM fun v hmem =>
    hs.routes_feed (hv v hmem) hx (hdst (List.ne_nil_of_mem hmem)) hblock

end

section
variable (hp : p.Sound) {b : Block} (hb : b ∈ p.blocks)
include hp hb

theorem Sound.mem_blocks_function : b ∈ p.function.blocks :=
  List.mem_of_getElem? (hp.mem_blocks.1 hb).1

/-- A phi has an entry for every predecessor of its block. -/
theorem Sound.find?_incoming {dest : InstId} {ty : Ty} {incoming : List (BlockId × Value)}
    (hi : .phi dest ty incoming ∈ b.body) {u : BlockId} (hu : u ∈ p.flow.preds b.id) :
    ∃ e, incoming.find? (·.1 = u) = some e := by
  have hedge := ((hp.describes.mem_preds hp.wellFormed.toNumbered).1 hu).2
  have hentry := ((hp.wellFormed.entries b (hp.mem_blocks_function hb) hi).2 u).2 hedge
  obtain ⟨entry, hmem, rfl⟩ := List.mem_map.1 hentry
  cases hfind : incoming.find? (·.1 = entry.1) with
  | none => simpa using List.find?_eq_none.1 hfind entry hmem
  | some e => exact ⟨e, rfl⟩

theorem Sound.isSome_incoming {dest : InstId} {ty : Ty} {incoming : List (BlockId × Value)}
    (hi : .phi dest ty incoming ∈ b.body) :
    ∀ u ∈ p.flow.preds b.id, ((incoming.find? (·.1 = u)).map (·.2)).isSome := by
  intro u hu
  obtain ⟨e, he⟩ := hp.find?_incoming hb hi hu
  rw [he]
  rfl

theorem Sound.inputs_eq {i : Instr} (hi : i ∈ b.body) :
    p.inputs b.id i = .ok (p.reads b.id i) := by
  cases i with
  | phi dest ty incoming =>
    refine mapM_eq_ok fun u hu => ?_
    obtain ⟨e, he⟩ := hp.find?_incoming hb hi hu
    exact ⟨e.2, by rw [he]; rfl, by rw [entryFor, he]⟩
  | _ => rfl

theorem Sound.placed_eq : (p.blocks.flatMap (placedIn F)).filter (·.block = b.id) =
    placedIn F b := by
  have hblock : ∀ {c : Block} {q : Placed}, q ∈ placedIn F c → q.block = c.id := by
    intro c q hq
    obtain ⟨i, -, rfl⟩ := List.mem_map.1 hq
    rfl
  have hself : (placedIn F b).filter (·.block = b.id) = placedIn F b :=
    List.filter_eq_self.2 fun q hq => decide_eq_true (hblock hq)
  rw [List.filter_flatMap]
  refine (flatMap_eq_of_unique hp.nodup_ids hb fun c _ hne => ?_).trans hself
  exact List.filter_eq_nil_iff.2 fun q hq h => hne (hblock hq ▸ of_decide_eq_true h)

end

section
variable (hs : p.Scope F all) {b : Block} (hb : b ∈ p.blocks)
include hs hb

theorem Scope.routes_routeInstr {i : Instr × Nat} (hi : i ∈ b.body.zipIdx) :
    p.Routes o F all (∀ v ∈ p.reads b.id i.1, p.Known v)
      (p.routeInstr b.id (i.1, F.id (.instr b.id i.2)))
      (p.feedWires (p.reads b.id i.1) (.instr b.id i.2)) := by
  have hp := hs.sound
  have hget := List.mem_zipIdx_iff_getElem?.1 hi
  have hmem := List.mem_of_getElem? hget
  have hinstr : p.instr? b.id i.2 = some i.1 := (hp.instr?_eq hb _).trans hget
  have hlaid : .instr b.id i.2 ∈ p.baseLabels :=
    hp.mem_baseLabels.2 ⟨(hp.mem_blocks.1 hb).2, i.1, hinstr⟩
  rw [routeInstr, hp.inputs_eq hb hmem]
  refine hs.routes_feeds (fun v hv => ?_) hlaid (fun hne L W => ?_) fun c h => by cases h
  · exact hp.wellFormed.operands b (hp.mem_blocks_function hb) i.1 hmem v
      (mem_operands_of_mem_reads hv)
  · rw [accepts_instr hinstr]
    cases hop : i.1 with
    | alloca _ _ _ =>
      rw [hop] at hne
      exact absurd rfl hne
    | _ => rfl

theorem Scope.routes_routeData :
    p.Routes o F all (p.Reads b) (p.routeData (p.blocks.flatMap (placedIn F)) b)
      (p.dataWires b) := by
  have hp := hs.sound
  have hzip : b.body.zip ((placedIn F b).map Placed.node) =
      b.body.zipIdx.map fun i => (i.1, F.id (.instr b.id i.2)) := by
    have hmap : (placedIn F b).map Placed.node = b.body.zipIdx.map fun i =>
        F.id (.instr b.id i.2) := List.map_map ..
    have hfst : b.body = b.body.zipIdx.map Prod.fst := (List.zipIdx_map_fst 0 b.body).symm
    rw [hmap]
    calc b.body.zip (b.body.zipIdx.map fun i => F.id (.instr b.id i.2))
        = (b.body.zipIdx.map Prod.fst).zip (b.body.zipIdx.map fun i => F.id (.instr b.id i.2)) := by
          rw [← hfst]
      _ = b.body.zipIdx.map fun i => (i.1, F.id (.instr b.id i.2)) := List.zip_map' ..
  have hbody : p.Routes o F all (∀ i ∈ b.body, ∀ v ∈ p.reads b.id i, p.Known v)
      ((b.body.zip ((placedIn F b).map Placed.node)).forM (p.routeInstr b.id))
      (b.body.zipIdx.flatMap fun i => p.feedWires (p.reads b.id i.1) (.instr b.id i.2)) := by
    have h := hs.routes_forM fun i hi => hs.routes_routeInstr (o := o) hb hi
    rw [hzip, List.forM_eq_forM, List.forM_map]
    refine h.iff ?_
    have hforall := @List.forall_mem_map _ _ Prod.fst b.body.zipIdx
      fun i => ∀ v ∈ p.reads b.id i, p.Known v
    rw [List.zipIdx_map_fst] at hforall
    exact hforall.symm
  have hexit : p.Routes o F all (∀ v ∈ b.exit.operands, p.Known v)
      (b.exit.operands.forM (p.feed (F.id (.exit b.id))))
      (p.feedWires b.exit.operands (.exit b.id)) := by
    refine hs.routes_feeds (hp.wellFormed.exit_operands b (hp.mem_blocks_function hb))
      (hp.laid_exit hb) (fun _ L W => ?_) fun c h => by cases h
    simp only [kindOf, exitOp]
    split <;> rfl
  rw [routeData, hp.placed_eq hb]
  refine hbody.bind fun W hW => .get ?_
  have hd : F.Fits (p.wired o F.id W) := hs.fits ((List.prefix_append _ _).trans hW)
  rw [wired, hp.exitNode?_eq hb hd (mem_wiredLabels (hp.laid_block hb))
    (by rw [owned_wiredLabels, hp.owned_baseLabels hb])]
  exact hexit W hW

end

/-! ## All blocks -/

/-- A masked block is told a value that its immediate dominator ends with. -/
theorem Sound.mem_exit_of_maskRead? (hp : p.Sound) {b : BlockId} {v : Value}
    (h : p.maskRead? b = some v) :
    ∃ c ∈ p.blocks, v ∈ c.exit.operands ∧ p.flow.idom.get b = some c.id := by
  unfold maskRead? maskCondition? at h
  split at h
  · split at h
    · rename_i cond t e hexit
      obtain ⟨c, hc, hexit⟩ := Option.map_eq_some_iff.1 hexit
      obtain ⟨u, hu, hc⟩ := Option.bind_eq_some_iff.1 hc
      have hreach : p.function.Reachable u := by
        rw [← hp.describes.mem_order, hp.describes.order_eq]
        exact (hp.describes.tree.listed hu).2
      obtain rfl := hp.wellFormed.id_eq hc
      refine ⟨c, hp.mem_blocks.2 ⟨hc, hreach⟩, ?_, hu⟩
      split at h
      · cases h
      · cases h
        rw [hexit]
        exact List.mem_singleton_self v
    · cases h
  · cases h

/-- The wires of masks and data. -/
def valueWires (p : Plan) : List (Wire Label) :=
  p.blocks.flatMap (fun b => p.maskWires b.id) ++ p.blocks.flatMap p.dataWires

theorem Scope.routes_values (hs : p.Scope F all) :
    p.Routes o F all p.Complete
      (p.blocks.forM p.routeMask >>= fun _ =>
        p.blocks.forM (p.routeData (p.blocks.flatMap (placedIn F))))
      p.valueWires := by
  have hp := hs.sound
  have hmasks : p.Routes o F all (∀ b ∈ p.blocks, ∀ v ∈ p.maskRead? b.id, p.Known v)
      (p.blocks.forM p.routeMask) (p.blocks.flatMap fun b => p.maskWires b.id) := by
    refine hs.routes_forM fun b hb => hs.routes_routeMask hb fun v hv => ?_
    obtain ⟨c, hc, hmem, -⟩ := hp.mem_exit_of_maskRead? hv
    exact hp.wellFormed.exit_operands c (hp.mem_blocks_function hc) v hmem
  have hdata := hs.routes_forM fun b hb => hs.routes_routeData (o := o) hb
  refine (hmasks.bind hdata).iff ⟨fun h => h.2, fun h => ⟨fun b hb v hv => ?_, h⟩⟩
  obtain ⟨c, hc, hmem, -⟩ := hp.mem_exit_of_maskRead? hv
  exact (h c hc).2 v hmem

end Plan

end Dataflow
