import Dataflow.Proofs.Lower.Memory

/-!
# Collecting loops

`Plan.layLoop` draws the label of a loop (`Sound.draws_layLoop`). While a loop is collected its node
is not finished yet and only some of its blocks know of it; `Plan.collecting` is the drawing at such
a moment.
-/

namespace Dataflow

namespace Plan

/-- The drawing while the loop at `h` is collected: it is `n` so far, and `bs` have been told. -/
def collecting (p : Plan) (o : Options) (id : Label → NodeId) (L : List Label)
    (W : List (Wire Label)) (h : BlockId) (n : LoopNode) (bs : List BlockId) : Drawing Label where
  labels := L ++ [.loop h]
  kind
    | .loop g => if g = h then .loop n else p.kindOf o id L W (.loop g)
    | .block b =>
      .block { p.blockNodeAt id L W b with
        parentLoop := if b ∈ bs then some (id (.loop h)) else (p.blockNodeAt id L W b).parentLoop }
    | l => p.kindOf o id L W l
  wires := W

variable {p : Plan} {o : Options} {F : Frame Label} {L : List Label} {W : List (Wire Label)}
  {h : BlockId} {n : LoopNode} {bs : List BlockId}

theorem collecting_kind_loop {id : Label → NodeId} :
    (p.collecting o id L W h n bs).kind (.loop h) = .loop n := if_pos rfl

section
variable (hd : F.Fits (p.collecting o F.id L W h n bs))
include hd

theorem draws_collectLoop (change : LoopNode → LoopNode) :
    F.Draws (Net.modifyLoop (F.id (.loop h)) change) (p.collecting o F.id L W h n bs) ()
      (p.collecting o F.id L W h (change n) bs) := by
  refine (Frame.draws_modifyLoop hd (by simp [collecting]) collecting_kind_loop change).congr rfl rfl
    fun x _ => ?_
  by_cases hx : x = .loop h
  · subst hx
    simp [collecting]
  · rw [Drawing.set_kind, Function.update_of_ne hx]
    cases x with
    | loop g =>
      have hg : g ≠ h := fun hg => hx (by rw [hg])
      simp [collecting, hg]
    | _ => rfl

theorem draws_collectBlock {b : BlockId} (hb : .block b ∈ L) :
    F.Draws (Net.addLoopBlock (F.id (.loop h)) (F.id (.block b)))
      (p.collecting o F.id L W h n bs) ()
      (p.collecting o F.id L W h { n with blocks := n.blocks ++ [F.id (.block b)] } (bs ++ [b])) := by
  have hmem : .block b ∈ (p.collecting o F.id L W h n bs).labels := List.mem_append_left _ hb
  have htell : F.Draws (Net.modifyBlock (F.id (.block b)) fun c =>
      { c with parentLoop := some (F.id (.loop h)) }) (p.collecting o F.id L W h n bs) ()
      (p.collecting o F.id L W h n (bs ++ [b])) := by
    refine (Frame.draws_modifyBlock hd hmem rfl _).congr rfl rfl fun x _ => ?_
    by_cases hx : x = .block b
    · subst hx
      simp [collecting]
    · rw [Drawing.set_kind, Function.update_of_ne hx]
      cases x with
      | block c =>
        have hc : c ≠ b := fun hc => hx (by rw [hc])
        simp [collecting, hc]
      | _ => rfl
  refine (Frame.draws_getLoop hd (by simp [collecting]) collecting_kind_loop).bind (htell.bind ?_)
  exact draws_collectLoop htell.fits _

theorem draws_collectInstrs (ms : List NodeId) :
    F.Draws (ms.forM (Net.addLoopInstr (F.id (.loop h)))) (p.collecting o F.id L W h n bs) ()
      (p.collecting o F.id L W h { n with instructions := n.instructions ++ ms } bs) := by
  induction ms generalizing n with
  | nil =>
    rw [List.append_nil]
    exact .pure hd ()
  | cons m ms ih =>
    have hm := draws_collectLoop hd fun l => { l with instructions := l.instructions ++ [m] }
    have hms := ih hm.fits
    rw [List.append_assoc] at hms
    exact hm.bind hms

omit hd in
theorem block?_collecting (l : Label) (b : BlockId) :
    (F.node (p.collecting o F.id L W h n bs) l).block?.any (·.block = b) = true ↔ l = .block b := by
  cases l with
  | block c => simp [Node.block?, Frame.node, collecting, blockNodeAt]
  | instr c k => cases hi : p.instr? c k <;> simp [Node.block?, Frame.node, collecting, kindOf, hi]
  | leaf v => cases v <;> simp [Node.block?, Frame.node, collecting, kindOf]
  | loop g => by_cases hg : g = h <;> simp [Node.block?, Frame.node, collecting, kindOf, hg]
  | _ => simp [Node.block?, Frame.node, collecting, kindOf]

theorem draws_collectedNode {b : BlockId} (hb : .block b ∈ L) :
    F.Draws (blockNode b) (p.collecting o F.id L W h n bs) (F.id (.block b))
      (p.collecting o F.id L W h n bs) := by
  have hnode : (F.net (p.collecting o F.id L W h n bs)).blockNode? b = some (F.id (.block b)) :=
    hd.lastWhere?_eq (List.mem_append_left _ hb) fun l _ => block?_collecting l b
  refine .get ?_
  rw [hnode]
  exact .pure hd _

theorem membersOf_collecting {b : BlockId} (hb : .block b ∈ L) :
    (F.net (p.collecting o F.id L W h n bs)).membersOf (F.id (.block b)) =
      (p.blockNodeAt F.id L W b).members := by
  rw [Graph.membersOf, Graph.node?, hd.getElem?_nodes (List.mem_append_left _ hb)]
  rfl

end

section
variable (hp : p.Sound) (hL : ∀ {b}, p.function.Reachable b → .block b ∈ L)
  (howned : ∀ b ∈ p.blocks, owned L (.block b.id) = p.members b.id)
include hp hL howned

theorem Sound.draws_layLoopBlock (hd : F.Fits (p.collecting o F.id L W h n bs)) {b : BlockId}
    (hb : p.function.Reachable b) :
    F.Draws (layLoopBlock (F.id (.loop h)) b) (p.collecting o F.id L W h n bs) ()
      (p.collecting o F.id L W h
        { n with
          blocks := n.blocks ++ [F.id (.block b)]
          instructions := n.instructions ++ (p.members b).map F.id } (bs ++ [b])) := by
  have hblock := hL hb
  have hadd := draws_collectBlock hd hblock
  refine (draws_collectedNode hd hblock).bind (hadd.bind (.get ?_))
  obtain ⟨c, hc, rfl⟩ := hp.exists_block hb
  rw [membersOf_collecting hadd.fits hblock, hp.members_blockNodeAt hc (howned c hc)]
  exact draws_collectInstrs hadd.fits _

theorem Sound.draws_collectBody (hd : F.Fits (p.collecting o F.id L W h n bs))
    {body : List BlockId} (hbody : ∀ b ∈ body, p.function.Reachable b) :
    F.Draws (body.forM (layLoopBlock (F.id (.loop h)))) (p.collecting o F.id L W h n bs) ()
      (p.collecting o F.id L W h
        { n with
          blocks := n.blocks ++ body.map fun b => F.id (.block b)
          instructions := n.instructions ++ (body.flatMap p.members).map F.id } (bs ++ body)) := by
  induction body generalizing n bs with
  | nil =>
    simp only [List.map_nil, List.flatMap_nil, List.append_nil]
    exact .pure hd ()
  | cons b body ih =>
    obtain ⟨hb, hbody⟩ := List.forall_mem_cons.1 hbody
    have hstep := hp.draws_layLoopBlock hL howned hd hb
    have hrest := ih hstep.fits hbody
    simp only [List.append_assoc, List.singleton_append, ← List.map_append] at hrest
    exact hstep.bind hrest

omit hp howned in
theorem draws_collectLatches (hd : F.Fits (p.collecting o F.id L W h n bs))
    {latches : List BlockId} (hlatches : ∀ b ∈ latches, p.function.Reachable b) :
    F.Draws (latches.forM fun latch => do
        Net.addLoopLatch (F.id (.loop h)) (← blockNode latch))
      (p.collecting o F.id L W h n bs) ()
      (p.collecting o F.id L W h
        { n with latches := n.latches ++ latches.map fun b => F.id (.block b) } bs) := by
  induction latches generalizing n with
  | nil =>
    rw [List.map_nil, List.append_nil]
    exact .pure hd ()
  | cons b latches ih =>
    obtain ⟨hb, hlatches⟩ := List.forall_mem_cons.1 hlatches
    have hstep := draws_collectLoop hd fun l =>
      { l with latches := l.latches ++ [F.id (.block b)] }
    have hrest := ih hstep.fits hlatches
    rw [List.append_assoc] at hrest
    exact ((draws_collectedNode hd (hL hb)).bind hstep).bind hrest

omit hp hL howned in
theorem draws_addLoop (hd : F.Fits (p.draw o F.id L W)) (hl : F.id (.loop h) = L.length) :
    F.Draws Net.addLoop (p.draw o F.id L W) (F.id (.loop h))
      (p.collecting o F.id L W h {} []) := by
  have hnot : .loop h ∉ L := hd.not_mem hl
  -- before the loop is there, what its label will be is open
  have hpush : F.Draws Net.addLoop ((p.draw o F.id L W).set (.loop h) (.loop {})) (F.id (.loop h))
      (((p.draw o F.id L W).set (.loop h) (.loop {})).add (.loop h)) :=
    Frame.draws_push (hd.set (.loop h) (.loop {})) hl (Function.update_self ..)
  have hstart : F.Draws Net.addLoop (p.draw o F.id L W) (F.id (.loop h))
      (((p.draw o F.id L W).set (.loop h) (.loop {})).add (.loop h)) :=
    hpush.congr_left rfl rfl fun x hx =>
      Function.update_of_ne (fun hx' : x = .loop h => hnot (hx' ▸ hx)) ..
  refine hstart.congr rfl rfl fun x _ => ?_
  by_cases hx : x = .loop h
  · subst hx
    rw [Drawing.add_kind, Drawing.set_kind, Function.update_self, collecting_kind_loop]
  · rw [Drawing.add_kind, Drawing.set_kind, Function.update_of_ne hx]
    cases x with
    | loop g =>
      have hg : g ≠ h := fun hg => hx (by rw [hg])
      simp [collecting, hg]
    | _ => rfl

omit hp hL howned in
theorem collecting_kind_eq {id : Label → NodeId} (x : Label) :
    (p.collecting o id L W h (p.loopNodeAt o id h) (p.flow.loopBody h)).kind x =
      p.kindOf o id (L ++ [.loop h]) W x := by
  by_cases hx : ∃ b, x = .block b ∧ b ∈ p.flow.loopBody h
  · obtain ⟨b, rfl, hb⟩ := hx
    have hloop : (L ++ [Label.loop h]).filter (p.surrounds b) =
        L.filter (p.surrounds b) ++ [.loop h] := by simp [surrounds, hb]
    simp only [collecting, kindOf, blockNodeAt, owned_concat, hloop, hb, if_true,
      List.getLast?_concat, Option.map_some, Label.owner?, reduceCtorEq, if_false]
  · rw [kindOf_add (by simp [Label.owner?]) fun b hb => ?_]
    · cases x with
      | loop g => by_cases hg : g = h <;> simp [collecting, kindOf, hg]
      | block b =>
        have hb : b ∉ p.flow.loopBody h := fun hb => hx ⟨b, rfl, hb⟩
        simp [collecting, kindOf, hb]
      | _ => rfl
    · simp only [surrounds, decide_eq_false_iff_not]
      exact fun hmem => hx ⟨b, hb, hmem⟩

/-- Collecting a loop draws its label. -/
theorem Sound.draws_layLoop (hd : F.Fits (p.draw o F.id L W)) (hh : p.function.Reachable h)
    (hl : F.id (.loop h) = L.length) :
    F.Draws (layLoop o (p.flow.loopAt h)) (p.draw o F.id L W) ()
      (p.draw o F.id (L ++ [.loop h]) W) := by
  have hf := hp.wellFormed.toNumbered
  have hlatches : ∀ b ∈ p.flow.latches h, p.function.Reachable b := fun b hb =>
    ((hp.describes.mem_latches hf).1 hb).2.reaches
  have hbody : ∀ b ∈ p.flow.loopBody h, p.function.Reachable b := fun b hb =>
    (hp.describes.dominates_of_mem_loopBody hf hh hb).reaches
  have hadd := draws_addLoop hd hl
  have hhead := draws_collectLoop hadd.fits fun l => { l with head := some (F.id (.block h)) }
  have hlatch := draws_collectLatches hL hhead.fits hlatches
  refine hadd.bind ((draws_collectedNode hadd.fits (hL hh)).bind (hhead.bind (hlatch.bind ?_)))
  have hfinish : ∀ {n}, F.Fits (p.collecting o F.id L W h n []) →
      { n with
        blocks := n.blocks ++ (p.flow.loopBody h).map fun b => F.id (.block b)
        instructions := n.instructions ++ ((p.flow.loopBody h).flatMap p.members).map F.id } =
          p.loopNodeAt o F.id h →
      F.Draws ((p.flow.loopBody h).forM (layLoopBlock (F.id (.loop h))))
        (p.collecting o F.id L W h n []) () (p.draw o F.id (L ++ [.loop h]) W) := by
    intro n hfits hn
    refine (hp.draws_collectBody hL howned hfits hbody).congr rfl rfl fun x _ => ?_
    rw [hn, List.nil_append]
    exact collecting_kind_eq x
  by_cases hmerge : 1 < (p.flow.latches h).length ∧ o.mergeLatches = true
  · have hmerged := draws_collectLoop hlatch.fits fun l => { l with merged := true }
    simp only [FlowGraph.loopAt, hmerge, and_self, if_true]
    exact hmerged.bind (hfinish hmerged.fits (by simp [loopNodeAt, hmerge]))
  · simp only [FlowGraph.loopAt, hmerge, if_false]
    exact hfinish hlatch.fits (by simp [loopNodeAt, hmerge])

end

end Plan

end Dataflow
