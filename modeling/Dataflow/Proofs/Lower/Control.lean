import Dataflow.Proofs.Lower.Wires

/-!
# Routing control

`Plan.controlWires` are the wires that `Plan.routeControl` adds to what is laid out: into the entry
block, from exits to successors, from blocks to members, and from calls to their split calls.
-/

namespace Dataflow

namespace Plan

variable (p : Plan)

/-- The wires from the exit of a block to its successors. -/
def exitWires (b : BlockId) : List (Wire Label) :=
  (p.flow.succs b).map fun s => ⟨.control, .exit b, .block s⟩

/-- The wires from a block to its members. -/
def memberWires (b : BlockId) : List (Wire Label) :=
  (p.members b).map fun m => ⟨.control, .block b, m⟩

/-- The wire from a call to its split call. -/
def callWire? : Label → Option (Wire Label)
  | .instr b k =>
    match p.instr? b k with
    | some (.call ..) => some ⟨.control, .instr b k, .split b k⟩
    | _ => none
  | _ => none

def controlWires : List (Wire Label) :=
  [⟨.control, .entry, .block Function.entry⟩] ++ p.blocks.flatMap (fun b => p.exitWires b.id) ++
    p.blocks.flatMap (fun b => p.memberWires b.id) ++ p.baseLabels.filterMap p.callWire?

variable {p} {o : Options} {F : Frame Label} {L : List Label} {W : List (Wire Label)}

/-- Steps that add wires, whatever is there before, add them one after the other. -/
theorem draws_each {γ : Type} (xs : List γ) {step : γ → NetM Unit} {wires : γ → List (Wire Label)}
    (hd : F.Fits (p.draw o F.id L W))
    (hstep : ∀ x ∈ xs, ∀ W, F.Fits (p.draw o F.id L W) →
      F.Draws (step x) (p.draw o F.id L W) () (p.draw o F.id L (W ++ wires x))) :
    F.Draws (xs.forM step) (p.draw o F.id L W) () (p.draw o F.id L (W ++ xs.flatMap wires)) := by
  have hnil : W = W ++ ([] : List γ).flatMap wires := by simp
  nth_rewrite 1 [hnil]
  refine Frame.draws_forM (fun pre => p.draw o F.id L (W ++ pre.flatMap wires)) (hnil ▸ hd) ?_
  intro pre x post hx hfits
  have h := hstep x (by rw [hx]; simp) _ hfits
  rwa [List.append_assoc, ← List.flatMap_singleton wires x, ← List.flatMap_append] at h

/-! ## What a block lists -/

section
variable (hp : p.Sound) {b : Block} (hb : b ∈ p.blocks)
include hp hb

theorem Sound.members_blockNodeAt (howned : owned L (.block b.id) = p.members b.id) :
    (p.blockNodeAt F.id L W b.id).members = (p.members b.id).map F.id := by
  simp only [BlockNode.members, blockNodeAt, howned]
  rw [hp.filter_isPhi hb, hp.filter_not_isPhi hb, ← List.map_append, ← hp.members_split hb]

theorem Sound.exitNode?_eq (hd : F.Fits (p.draw o F.id L W)) (hL : .block b.id ∈ L)
    (howned : owned L (.block b.id) = p.members b.id) :
    (F.net (p.draw o F.id L W)).exitNode? b.id = some (F.id (.exit b.id)) := by
  rw [Graph.exitNode?, blockNode?_eq hd hL, Option.bind_some, membersOf_eq hd hL,
    hp.members_blockNodeAt hb howned, hp.members_eq hb, List.map_append, List.map_singleton,
    List.getLast?_concat]

end

/-! ## The steps -/

section
variable (hp : p.Sound)
include hp

theorem Sound.laid_block {b : Block} (hb : b ∈ p.blocks) : .block b.id ∈ p.baseLabels :=
  hp.mem_baseLabels.2 (hp.mem_blocks.1 hb).2

theorem Sound.laid_exit {b : Block} (hb : b ∈ p.blocks) : .exit b.id ∈ p.baseLabels :=
  hp.mem_baseLabels.2 (hp.mem_blocks.1 hb).2

theorem Sound.laid_succ {b : Block} (hb : b ∈ p.blocks) {s : BlockId} (hs : s ∈ p.flow.succs b.id) :
    .block s ∈ p.baseLabels :=
  hp.mem_baseLabels.2 ((hp.mem_blocks.1 hb).2.tail (hp.describes.mem_succs.1 hs))

theorem Sound.laid_member {b : Block} (hb : b ∈ p.blocks) {m : Label} (hm : m ∈ p.members b.id) :
    m ∈ p.baseLabels := by
  rw [← hp.owned_baseLabels hb, owned, List.mem_filter] at hm
  exact hm.1

/-- The exit of a block with successors gives control. -/
theorem Sound.accepts_exit {b : Block} (hb : b ∈ p.blocks) {s : BlockId}
    (hs : s ∈ p.flow.succs b.id) :
    (p.kindOf o F.id L W (.exit b.id)).accepts .ctrlOut = true := by
  obtain ⟨hget, -⟩ := hp.mem_blocks.1 hb
  have hexit : ∀ v, b.exit ≠ .ret v := by
    intro v h
    rw [hp.describes.succs_eq hget, h] at hs
    cases hs
  rw [kindOf, exitOp_eq_branch hget hexit]
  rfl

theorem Sound.draws_routeEdge (hd : F.Fits (p.draw o F.id p.baseLabels W)) {b : Block}
    (hb : b ∈ p.blocks) {s : BlockId} (hs : s ∈ p.flow.succs b.id) :
    F.Draws (p.routeEdge b.id (F.id (.exit b.id)) s) (p.draw o F.id p.baseLabels W) ()
      (p.draw o F.id p.baseLabels (W ++ [⟨.control, .exit b.id, .block s⟩])) := by
  have hexit := hp.laid_exit hb
  have hsucc := hp.laid_succ hb hs
  refine (draws_blockNode hd hsucc).bind ?_
  cases hact : p.activates b.id s with
  | true =>
    exact draws_fire hd hexit hsucc (hp.accepts_exit hb hs) hact
  | false =>
    refine draws_join hd .control hexit hsucc (hp.accepts_exit hb hs) rfl rfl (by decide) ?_
    rintro c ⟨⟩
    exact ⟨by decide, fun _ => hact⟩

theorem Sound.draws_routeExit (hd : F.Fits (p.draw o F.id p.baseLabels W)) {b : Block}
    (hb : b ∈ p.blocks) :
    F.Draws (p.routeExit b) (p.draw o F.id p.baseLabels W) ()
      (p.draw o F.id p.baseLabels (W ++ p.exitWires b.id)) := by
  refine .get ?_
  rw [hp.exitNode?_eq hb hd (hp.laid_block hb) (hp.owned_baseLabels hb)]
  have h := draws_each (p.flow.succs b.id) hd fun s hs W hW => hp.draws_routeEdge hW hb hs
  rwa [← List.map_eq_flatMap] at h

omit hp in
theorem flatMap_ite {γ β : Type} (xs : List γ) (q : γ → Bool) (h : γ → List β) :
    (xs.flatMap fun x => if q x then h x else []) = (xs.filter q).flatMap h := by
  induction xs with
  | nil => rfl
  | cons x xs ih => cases hx : q x <;> simp [hx, ih]

theorem Sound.draws_routeMembers (hd : F.Fits (p.draw o F.id p.baseLabels W)) (b : BlockId) :
    F.Draws (routeMembers b) (p.draw o F.id p.baseLabels W) ()
      (p.draw o F.id p.baseLabels
        (W ++ if p.flow.isReachable b then p.memberWires b else [])) := by
  refine .get ?_
  cases hr : p.flow.isReachable b with
  | true =>
    obtain ⟨b, hb, rfl⟩ := hp.exists_block (hp.describes.isReachable_iff.1 hr)
    have hblock := hp.laid_block hb
    rw [blockNode?_eq hd hblock]
    simp only [membersOf_eq hd hblock, hp.members_blockNodeAt hb (hp.owned_baseLabels hb)]
    have hstep : ∀ m ∈ p.members b.id, ∀ W, F.Fits (p.draw o F.id p.baseLabels W) →
        F.Draws (Net.connect .control (F.id (.block b.id)) (F.id m)) (p.draw o F.id p.baseLabels W)
          () (p.draw o F.id p.baseLabels (W ++ [⟨.control, .block b.id, m⟩])) := by
      intro m hm W hW
      refine draws_join hW .control hblock (hp.laid_member hb hm) rfl
        (accepts_member hm (.inl rfl)) rfl (by decide) ?_
      rintro c rfl
      simp [hp.members_eq hb] at hm
    have h := draws_each _ hd hstep
    rw [List.forM_eq_forM, List.forM_map]
    rwa [← List.map_eq_flatMap] at h
  | false =>
    have hnot : .block b ∉ p.baseLabels := by
      rw [hp.mem_baseLabels]
      intro h
      rw [hp.describes.isReachable_iff.2 h] at hr
      cases hr
    rw [blockNode?_eq_none hd hnot, if_neg Bool.false_ne_true, List.append_nil]
    exact .pure hd ()

omit hp in
theorem calls_eq (hd : F.Fits (p.draw o F.id L W)) :
    (F.net (p.draw o F.id L W)).calls =
      (L.filterMap p.callWire?).map fun w => (F.id w.src, F.id w.dst) := by
  rw [Graph.calls, hd.zipIdx_nodes, List.filterMap_map, draw_labels, List.map_filterMap]
  refine List.filterMap_congr fun l _ => ?_
  simp only [Function.comp_apply, Frame.node, draw_kind]
  cases l with
  | instr b k =>
    cases hi : p.instr? b k with
    | none => simp [kindOf, callWire?, hi]
    | some i =>
      simp only [kindOf_instr hi, callWire?, hi, opcodeAt]
      cases (portsAt W (.instr b k) .memReq).getLast? <;> cases i <;> rfl
  | exit b =>
    simp only [kindOf, callWire?, exitOp]
    split <;> rename_i h
    · split at h <;> cases h
    · rfl
  | leaf v => cases v <;> rfl
  | _ => rfl

theorem Sound.draws_routeCalls (hd : F.Fits (p.draw o F.id p.baseLabels W)) :
    F.Draws ((F.net (p.draw o F.id p.baseLabels W)).calls.forM fun c =>
      Net.connect .control c.1 c.2) (p.draw o F.id p.baseLabels W) ()
      (p.draw o F.id p.baseLabels (W ++ p.baseLabels.filterMap p.callWire?)) := by
  have hstep : ∀ w ∈ p.baseLabels.filterMap p.callWire?, ∀ W,
      F.Fits (p.draw o F.id p.baseLabels W) →
      F.Draws (Net.connect .control (F.id w.src) (F.id w.dst)) (p.draw o F.id p.baseLabels W) ()
        (p.draw o F.id p.baseLabels (W ++ [w])) := by
    intro w hw W hW
    obtain ⟨l, hl, hcall⟩ := List.mem_filterMap.1 hw
    unfold callWire? at hcall
    split at hcall
    · rename_i b k
      split at hcall <;> cases hcall
      rename_i dest callee args hi
      have hsplit : .split b k ∈ p.baseLabels := by
        rw [hp.mem_baseLabels] at hl ⊢
        exact ⟨hl.1, dest, callee, args, hi⟩
      refine draws_join hW .control hl hsplit ?_ rfl rfl (by decide) (by simp)
      rw [accepts_instr hi]
      rfl
    · cases hcall
  rw [calls_eq hd, List.forM_eq_forM, List.forM_map]
  have h := draws_each _ hd hstep
  rwa [List.flatMap_singleton'] at h

/-- Routing control adds the control wires. -/
theorem Sound.draws_routeControl (hd : F.Fits (p.draw o F.id p.baseLabels [])) :
    F.Draws p.routeControl (p.draw o F.id p.baseLabels []) ()
      (p.draw o F.id p.baseLabels p.controlWires) := by
  have hentry : .entry ∈ p.baseLabels := hp.mem_baseLabels.2 trivial
  have hblock : .block Function.entry ∈ p.baseLabels := hp.mem_baseLabels.2 .refl
  have hid : (F.net (p.draw o F.id p.baseLabels [])).entry = F.id .entry := (hd.id_eq rfl).symm
  have hfire := draws_fire hd hentry hblock rfl rfl
  have hexits := draws_each p.blocks hfire.fits fun b hb W hW => hp.draws_routeExit hW hb
  have hmembers := draws_each (List.range p.flow.count) hexits.fits fun b _ W hW =>
    hp.draws_routeMembers hW b
  have hreach : ((List.range p.flow.count).flatMap fun b =>
      if p.flow.isReachable b then p.memberWires b else []) =
      p.blocks.flatMap fun b => p.memberWires b.id := by
    rw [flatMap_ite, hp.describes.count_eq, ← hp.ids_blocks, List.flatMap_map]
  refine (draws_blockNode hd hblock).bind (.get ?_)
  rw [hid]
  refine hfire.bind (hexits.bind (hmembers.bind (.get ?_)))
  have hcalls := hp.draws_routeCalls hmembers.fits
  rw [hreach] at hcalls ⊢
  exact hcalls

end

end Plan

end Dataflow
