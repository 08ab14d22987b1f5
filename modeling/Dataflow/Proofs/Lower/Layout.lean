import Dataflow.Proofs.Lower.Label
import Dataflow.Proofs.Lower.Rounds

/-!
# Laying out draws the labels of blocks, arguments and instructions

`Plan.baseLabels` are the labels that `Plan.layOut` draws, in order: the entry, the reachable
blocks, the parameters, and for each block its instructions, a call behind its split call and the
arguments of that, and its exit.
-/

namespace Dataflow

namespace Plan

/-- The labels of an instruction at a position. -/
def instrLabels (b : BlockId) (i : Instr × Nat) : List Label :=
  match i.1 with
  | .call _ _ args =>
    .split b i.2 :: (List.range args.length).map (.splitArg b i.2) ++ [.instr b i.2]
  | _ => [.instr b i.2]

def blockLabels (b : Block) : List Label := b.body.zipIdx.flatMap (instrLabels b.id) ++ [.exit b.id]

variable (p : Plan)

/-- The labels of the entry and of some blocks. -/
def blockHeads (bs : List Block) : List Label := .entry :: bs.map fun b => .block b.id

/-- The labels in front of those of instructions. -/
def headLabels : List Label :=
  blockHeads p.blocks ++ (List.range p.function.params.length).map .param

def baseLabels : List Label := p.headLabels ++ p.blocks.flatMap blockLabels

/-- A frame numbers labels as they stand in a list. -/
def Numbers (F : Frame Label) (full : List Label) : Prop :=
  ∀ ⦃i : Nat⦄ ⦃l : Label⦄, full[i]? = some l → F.id l = i

section
variable {p : Plan} {o : Options} {F : Frame Label} {full L : List Label} {W : List (Wire Label)}

theorem Numbers.id_eq (hF : Numbers F full) {l : Label} (h : L ++ [l] <+: full) :
    F.id l = L.length := by
  obtain ⟨rest, rfl⟩ := h
  exact hF (by simp)

theorem Numbers.fits (hF : Numbers F full) (h : L <+: full)
    (hsrc : ∀ w ∈ W, w.src ∈ L) (hdst : ∀ w ∈ W, w.dst ∈ L) : F.Fits (p.draw o F.id L W) where
  id_eq := by
    intro i l hl
    obtain ⟨rest, rfl⟩ := h
    rw [draw_labels] at hl
    refine hF ?_
    rw [List.getElem?_append_left (List.getElem?_eq_some_iff.1 hl).1]
    exact hl
  src_mem := hsrc
  dst_mem := hdst

/-! ## Adding a label -/

theorem owned_eq_nil {x : Label} (h : ∀ l ∈ L, l.owner? ≠ some x) : owned L x = [] := by
  rw [owned, List.filter_eq_nil_iff]
  exact fun l hl => by simpa using h l hl

/-- A label that nothing owns and that is no loop changes no other label. -/
theorem draws_add {l : Label} {kind : NodeKind} (hd : F.Fits (p.draw o F.id L W))
    (hl : F.id l = L.length) (hk : p.kindOf o F.id L W l = kind) (howner : l.owner? = none)
    (hloop : ∀ b, p.surrounds b l = false) :
    F.Draws (Net.push kind) (p.draw o F.id L W) (F.id l) (p.draw o F.id (L ++ [l]) W) := by
  refine (Frame.draws_push hd hl hk).congr rfl rfl fun x _ => ?_
  exact (kindOf_add (by rw [howner]; exact fun h => by cases h) fun b _ => hloop b).symm

theorem draws_addOwned {s l : Label} (hd : F.Fits (p.draw o F.id L W)) (hs : s ∈ L)
    (hk : p.kindOf o F.id L W s = .split ((owned L s).map F.id)) (hl : F.id l = L.length)
    (hkl : p.kindOf o F.id L W l = .arg (owned L s).length (F.id s)) (howner : l.owner? = some s)
    (hk' : p.kindOf o F.id (L ++ [l]) W s = .split ((owned (L ++ [l]) s).map F.id)) :
    F.Draws (Net.addArgument (F.id s)) (p.draw o F.id L W) (F.id l)
      (p.draw o F.id (L ++ [l]) W) := by
  have hloop : ∀ b, p.surrounds b l = false := by
    intro b
    cases l <;> first | rfl | cases howner
  refine (Frame.draws_addArgument hd hs hk hl (by simpa using hkl)).congr rfl rfl fun x _ => ?_
  by_cases hx : x = s
  · subst hx
    simp only [Drawing.set_kind, Function.update_self, draw_kind]
    rw [hk', owned_concat, if_pos howner, List.map_append]
    rfl
  · simp only [Drawing.set_kind, Function.update_of_ne hx, Drawing.add_kind, draw_kind]
    refine (kindOf_add ?_ fun b _ => hloop b).symm
    rw [howner]
    exact fun h => hx (Option.some.inj h).symm

theorem draws_addMember {b : BlockId} {l : Label} {op : Opcode} {source : Option InstId}
    (hd : F.Fits (p.draw o F.id L W)) (hb : .block b ∈ L) (hl : F.id l = L.length)
    (howner : l.owner? = some (.block b)) (hphi : op.mask?.isSome = p.isPhi l)
    (hmask : ∀ m, op.mask? = some m → m = F.id (.block b))
    (hk : p.kindOf o F.id L W l = .instr ⟨op, F.id (.block b), source⟩) :
    F.Draws (Net.addInstr (F.id (.block b)) op source) (p.draw o F.id L W) (F.id l)
      (p.draw o F.id (L ++ [l]) W) := by
  have hloop : ∀ b, p.surrounds b l = false := by
    intro b
    cases l <;> first | rfl | cases howner
  refine (Frame.draws_addInstr hd hb rfl hl hmask hk).congr rfl rfl fun x _ => ?_
  by_cases hx : x = .block b
  · subst hx
    have hsurround : (L ++ [l]).filter (p.surrounds b) = L.filter (p.surrounds b) := by
      simp [hloop b]
    simp only [Drawing.set_kind, Function.update_self, draw_kind, kindOf, blockNodeAt, owned_concat,
      howner, if_true, hphi, hsurround]
    cases h : p.isPhi l <;> simp [h]
  · simp only [Drawing.set_kind, Function.update_of_ne hx, Drawing.add_kind, draw_kind]
    refine (kindOf_add ?_ fun b _ => hloop b).symm
    rw [howner]
    exact fun h => hx (Option.some.inj h).symm

/-! ## Blocks and parameters -/

theorem blockNodeAt_fresh {b : BlockId} (howned : ∀ l ∈ L, l.owner? ≠ some (.block b))
    (hloop : ∀ l ∈ L, p.surrounds b l = false) :
    p.blockNodeAt F.id L [] b = { block := b, mode := p.mode b } := by
  have hsurround : L.filter (p.surrounds b) = [] := by
    rw [List.filter_eq_nil_iff]
    exact fun l hl => by simp [hloop l hl]
  simp [blockNodeAt, owned_eq_nil howned, hsurround, portsAt]

theorem mem_blockHeads {bs : List Block} {l : Label} (h : l ∈ blockHeads bs) :
    l = .entry ∨ ∃ b, l = .block b := by
  rcases List.mem_cons.1 h with rfl | h
  · exact .inl rfl
  · obtain ⟨b, -, rfl⟩ := List.mem_map.1 h
    exact .inr ⟨b.id, rfl⟩

theorem draws_layBlocks (hF : Numbers F full) (hp : blockHeads p.blocks <+: full) :
    F.Draws p.layBlocks (p.draw o F.id [.entry] []) () (p.draw o F.id (blockHeads p.blocks) []) := by
  have hinit : ∀ pre post, p.blocks = pre ++ post → blockHeads pre <+: full := by
    intro pre post h
    refine List.IsPrefix.trans ⟨post.map fun b => .block b.id, ?_⟩ hp
    rw [h, blockHeads, blockHeads, List.map_append, List.cons_append]
  refine Frame.draws_forM (fun pre => p.draw o F.id (blockHeads pre) [])
    (hF.fits (hinit [] _ rfl) (by simp) (by simp)) fun pre b post hpre hd => ?_
  have hadd : blockHeads (pre ++ [b]) = blockHeads pre ++ [.block b.id] := by simp [blockHeads]
  have hl := hF.id_eq (hadd ▸ hinit (pre ++ [b]) post (by simpa using hpre))
  have hk : p.kindOf o F.id (blockHeads pre) [] (.block b.id) =
      .block { block := b.id, mode := p.mode b.id } := by
    rw [kindOf, blockNodeAt_fresh]
    · intro l hl
      obtain rfl | ⟨c, rfl⟩ := mem_blockHeads hl <;> exact fun h => by cases h
    · intro l hl
      obtain rfl | ⟨c, rfl⟩ := mem_blockHeads hl <;> rfl
  have hpush := draws_add hd hl hk rfl fun _ => rfl
  simp only [hadd]
  exact hpush.bind (.pure hpush.fits ())

theorem owned_blockHeads (bs : List Block) (x : Label) : owned (blockHeads bs) x = [] := by
  refine owned_eq_nil fun l hl => ?_
  obtain rfl | ⟨b, rfl⟩ := mem_blockHeads hl <;> exact fun h => by cases h

/-- The arguments of a split call. -/
theorem draws_arguments {γ : Type} (xs : List γ) {s : Label} {arg : Nat → Label}
    (hF : Numbers F full) (hp : L ++ (List.range xs.length).map arg <+: full) (hs : s ∈ L)
    (hfree : owned L s = []) (howner : ∀ j, (arg j).owner? = some s)
    (hks : ∀ L', p.kindOf o F.id L' [] s = .split ((owned L' s).map F.id))
    (hka : ∀ L' j, p.kindOf o F.id L' [] (arg j) = .arg j (F.id s)) :
    F.Draws (xs.forM fun _ => do let _ ← Net.addArgument (F.id s)) (p.draw o F.id L []) ()
      (p.draw o F.id (L ++ (List.range xs.length).map arg) []) := by
  have hinit : ∀ k, k ≤ xs.length → L ++ (List.range k).map arg <+: full := by
    intro k hk
    refine List.IsPrefix.trans ((List.prefix_append_right_inj _).2 ?_) hp
    obtain ⟨m, hm⟩ := Nat.exists_eq_add_of_le hk
    rw [hm, List.range_add, List.map_append]
    exact List.prefix_append _ _
  -- the split call owns the arguments drawn so far, so their number is the index of the next one
  have howned : ∀ k, owned (L ++ (List.range k).map arg) s = (List.range k).map arg := by
    intro k
    have hargs : owned ((List.range k).map arg) s = (List.range k).map arg := by
      rw [owned, List.filter_eq_self]
      intro l hl
      obtain ⟨j, -, rfl⟩ := List.mem_map.1 hl
      simp [howner]
    rw [owned_append, hfree, hargs, List.nil_append]
  have hnil : p.draw o F.id L [] =
      p.draw o F.id (L ++ (List.range ([] : List γ).length).map arg) [] := by simp
  rw [hnil]
  refine Frame.draws_forM
    (fun pre : List γ => p.draw o F.id (L ++ (List.range pre.length).map arg) [])
    (hF.fits (hinit 0 (Nat.zero_le _)) (by simp) (by simp)) fun pre x post hpre hd => ?_
  have hadd : L ++ (List.range (pre ++ [x]).length).map arg =
      (L ++ (List.range pre.length).map arg) ++ [arg pre.length] := by
    rw [List.length_append, List.length_singleton, List.range_succ, List.map_append,
      List.append_assoc]
    rfl
  have hlt : (pre ++ [x]).length ≤ xs.length := by rw [hpre]; simp
  have hl := hF.id_eq (hadd ▸ hinit _ hlt)
  have hstep := draws_addOwned hd (List.mem_append_left _ hs) (hks _) hl
    (by rw [hka, howned, List.length_map, List.length_range]) (howner _) (hks _)
  rw [hadd]
  exact hstep.bind (.pure hstep.fits ())

theorem draws_layArguments (hF : Numbers F full) (hp : p.headLabels <+: full) :
    F.Draws p.layArguments (p.draw o F.id (blockHeads p.blocks) []) ()
      (p.draw o F.id p.headLabels []) := by
  have hentry : (F.net (p.draw o F.id (blockHeads p.blocks) [])).entry = F.id .entry := by
    refine (hF ?_).symm
    obtain ⟨rest, rfl⟩ := hp
    rfl
  refine .get ?_
  rw [hentry]
  exact draws_arguments p.function.params hF hp List.mem_cons_self (owned_blockHeads _ _)
    (fun _ => rfl) (fun _ => rfl) fun _ _ => rfl

/-! ## Instructions -/

theorem isPhi_instr {b : BlockId} {k : Nat} {i : Instr} (hi : p.instr? b k = some i) :
    p.isPhi (.instr b k) = i.isPhi := by
  simp [isPhi, hi]

theorem mask?_opcode {parent split : NodeId} {b : BlockId} {i : Instr} :
    (p.opcode parent split b i).mask? = if i.isPhi then some parent else none := by
  cases i <;> rfl

/-- The split call of a call, if the instruction is one. -/
theorem draws_laySplit {b : BlockId} {i : Instr} {k : Nat} (hF : Numbers F full)
    (hp : L ++ instrLabels b (i, k) <+: full) (hb : .block b ∈ L)
    (hfree : ∀ l ∈ L, l.owner? ≠ some (.split b k)) :
    ∃ split L', L' ++ [.instr b k] = L ++ instrLabels b (i, k) ∧ .block b ∈ L' ∧
      (∀ parent, p.opcode parent split b i = p.opcode parent (F.id (.split b k)) b i) ∧
      F.Draws (laySplit (F.id (.block b)) i) (p.draw o F.id L []) split (p.draw o F.id L' []) := by
  have hd : F.Fits (p.draw o F.id L []) :=
    hF.fits ((List.prefix_append _ _).trans hp) (by simp) (by simp)
  cases i with
  | call dest callee args =>
    refine ⟨F.id (.split b k), L ++ [.split b k] ++ (List.range args.length).map (.splitArg b k), ?_,
      ?_, fun _ => rfl, ?_⟩
    · simp [instrLabels]
    · simp [hb]
    · have hp' : L ++ [.split b k] ++ (List.range args.length).map (.splitArg b k) <+: full := by
        refine List.IsPrefix.trans ⟨[.instr b k], ?_⟩ hp
        simp [instrLabels]
      have hsplit : F.Draws Net.addSplit (p.draw o F.id L []) (F.id (.split b k))
          (p.draw o F.id (L ++ [.split b k]) []) := by
        refine draws_add hd (hF.id_eq ((List.prefix_append _ _).trans hp')) ?_ rfl fun _ => rfl
        rw [kindOf, owned_eq_nil hfree, List.map_nil]
      refine hsplit.bind ?_
      have hargs := draws_arguments (p := p) (o := o) args hF hp' (by simp) ?_ (fun _ => rfl)
        (fun _ => rfl) fun _ _ => rfl
      · exact hargs.bind (.pure hargs.fits _)
      · rw [owned_append, owned_eq_nil hfree, List.nil_append]
        exact owned_eq_nil (by simp [Label.owner?])
  | _ => exact ⟨F.id (.block b), L, rfl, hb, fun _ => rfl, .pure hd _⟩

/-- What is known of an instruction once it has its node. -/
def placed (F : Frame Label) (b : BlockId) (i : Instr × Nat) : Placed :=
  { block := b, index := i.2, instr := i.1, node := F.id (.instr b i.2) }

theorem draws_layInstr {b : BlockId} {i : Instr} {k : Nat} (hF : Numbers F full)
    (hp : L ++ instrLabels b (i, k) <+: full) (hb : .block b ∈ L)
    (hfree : ∀ l ∈ L, l.owner? ≠ some (.split b k)) (hi : p.instr? b k = some i) :
    F.Draws (p.layInstr (F.id (.block b)) b (i, k)) (p.draw o F.id L []) (placed F b (i, k))
      (p.draw o F.id (L ++ instrLabels b (i, k)) []) := by
  obtain ⟨split, L', hL', hb', hop, hsplit⟩ := draws_laySplit (p := p) (o := o) hF hp hb hfree
  refine hsplit.bind ?_
  have hl : F.id (.instr b k) = L'.length := hF.id_eq (hL' ▸ hp)
  have hk : p.kindOf o F.id L' [] (.instr b k) =
      .instr ⟨p.opcode (F.id (.block b)) split b i, F.id (.block b), i.result?⟩ := by
    simp only [kindOf, hi, opcodeAt, hop]
    rfl
  have hadd := draws_addMember hsplit.fits hb' hl rfl ?_ ?_ hk
  · rw [hL'] at hadd
    exact hadd.bind (.pure hadd.fits _)
  · rw [mask?_opcode, isPhi_instr hi]
    cases i.isPhi <;> rfl
  · intro m hm
    rw [mask?_opcode] at hm
    split at hm <;> cases hm
    rfl

end

/-! ## Blocks -/

/-- What the analysis of a well-formed function gives. -/
structure Sound (p : Plan) : Prop where
  wellFormed : p.function.WellFormed
  describes : p.flow.Describes p.function
  loops_eq : p.loops = p.flow.loops

section
variable {p : Plan} (hp : p.Sound)
include hp

theorem Sound.mem_blocks {b : Block} : b ∈ p.blocks ↔
    p.function.blocks[b.id]? = some b ∧ p.function.Reachable b.id := by
  rw [blocks, List.mem_filter, hp.describes.isReachable_iff]
  refine and_congr_left fun _ => ⟨fun hb => ?_, List.mem_of_getElem?⟩
  obtain ⟨i, hi⟩ := List.mem_iff_getElem?.1 hb
  rwa [hp.wellFormed.id_eq hi]

theorem Sound.exists_block {b : BlockId} (hb : p.function.Reachable b) :
    ∃ c ∈ p.blocks, c.id = b := by
  have hget := List.getElem?_eq_getElem (hp.wellFormed.reachable_lt hb)
  have hid := hp.wellFormed.id_eq hget
  exact ⟨_, hp.mem_blocks.2 ⟨by rwa [hid], by rwa [hid]⟩, hid⟩

theorem Sound.ids_blocks :
    p.blocks.map Block.id = (List.range p.function.blocks.length).filter p.flow.isReachable := by
  rw [← hp.wellFormed.ids, List.filter_map]
  rfl

theorem Sound.nodup_ids : (p.blocks.map Block.id).Nodup := by
  rw [hp.ids_blocks]
  exact List.nodup_range.filter _

theorem Sound.block_mem {b : BlockId} : .block b ∈ blockHeads p.blocks ↔ p.function.Reachable b := by
  rw [blockHeads, List.mem_cons, List.mem_map]
  constructor
  · rintro (h | ⟨c, hc, h⟩)
    · cases h
    · cases h
      exact (hp.mem_blocks.1 hc).2
  · intro hb
    obtain ⟨c, hc, rfl⟩ := hp.exists_block hb
    exact .inr ⟨c, hc, rfl⟩

end

/-- Positions do not repeat. -/
theorem pairwise_positions {γ : Type} (xs : List γ) : xs.zipIdx.Pairwise fun x y => x.2 ≠ y.2 := by
  have hnd : (xs.zipIdx.map Prod.snd).Nodup := by
    rw [List.zipIdx_map_snd]
    exact List.nodup_range'
  exact List.pairwise_map.1 hnd

theorem owner?_of_mem_instrLabels {b : BlockId} {i : Instr × Nat} {l : Label}
    (h : l ∈ instrLabels b i) :
    l.owner? = none ∨ l.owner? = some (.split b i.2) ∨ l.owner? = some (.block b) := by
  unfold instrLabels at h
  split at h
  · simp only [List.cons_append, List.mem_cons, List.mem_append, List.mem_map, List.not_mem_nil,
      or_false] at h
    rcases h with rfl | ⟨j, -, rfl⟩ | rfl <;> simp [Label.owner?]
  · obtain rfl := List.mem_singleton.1 h
    simp [Label.owner?]

theorem owner?_of_mem_blockLabels {b : Block} {l : Label} (h : l ∈ blockLabels b) :
    l.owner? = none ∨ (∃ k, l.owner? = some (.split b.id k)) ∨ l.owner? = some (.block b.id) := by
  rcases List.mem_append.1 h with h | h
  · obtain ⟨i, -, hl⟩ := List.mem_flatMap.1 h
    rcases owner?_of_mem_instrLabels hl with h | h | h
    · exact .inl h
    · exact .inr (.inl ⟨_, h⟩)
    · exact .inr (.inr h)
  · obtain rfl := List.mem_singleton.1 h
    exact .inr (.inr rfl)

theorem owner?_of_mem_headLabels {p : Plan} {l : Label} (h : l ∈ p.headLabels) :
    l.owner? = none ∨ l.owner? = some .entry := by
  rcases List.mem_append.1 h with h | h
  · obtain rfl | ⟨b, rfl⟩ := mem_blockHeads h <;> exact .inl rfl
  · obtain ⟨i, -, rfl⟩ := List.mem_map.1 h
    exact .inr rfl

section
variable {p : Plan} {o : Options} {F : Frame Label} {full L : List Label} {W : List (Wire Label)}
  (hp : p.Sound) (hF : Numbers F full)
include hp hF

theorem draws_layExit {b : Block} (hb : b ∈ p.blocks) (hpre : L ++ [.exit b.id] <+: full)
    (hL : ∀ {c}, p.function.Reachable c → .block c ∈ L) :
    F.Draws (p.layExit (F.id (.block b.id)) b) (p.draw o F.id L []) ()
      (p.draw o F.id (L ++ [.exit b.id]) []) := by
  obtain ⟨hget, hr⟩ := hp.mem_blocks.1 hb
  have hd : F.Fits (p.draw o F.id L []) :=
    hF.fits ((List.prefix_append _ _).trans hpre) (by simp) (by simp)
  have hl := hF.id_eq hpre
  have hadd : ∀ op, p.exitOp F.id b.id = op → op.mask? = none →
      F.Draws (Net.addInstr (F.id (.block b.id)) op none) (p.draw o F.id L [])
        (F.id (.exit b.id)) (p.draw o F.id (L ++ [.exit b.id]) []) := by
    intro op hop hmask
    refine draws_addMember hd (hL hr) hl rfl (by rw [hmask]; rfl) (fun m h => ?_) ?_
    · rw [hmask] at h
      cases h
    · rw [kindOf, hop]
  have hsuccs : F.Draws ((p.flow.succs b.id).mapM blockNode) (p.draw o F.id L [])
      ((p.flow.succs b.id).map fun s => F.id (.block s)) (p.draw o F.id L []) := by
    refine Frame.draws_mapM (fun _ => p.draw o F.id L []) (fun s => F.id (.block s)) hd ?_
    intro pre s post hs _
    refine draws_blockNode hd (hL (hr.tail (hp.describes.mem_succs.1 ?_)))
    rw [hs]
    simp
  unfold layExit
  cases he : b.exit with
  | ret v =>
    have h := hadd _ (exitOp_eq_ret hget he) rfl
    exact h.bind (.pure h.fits ())
  | jump t =>
    have h := hadd _ (exitOp_eq_branch hget (by simp [he])) rfl
    exact hsuccs.bind (h.bind (.pure h.fits ()))
  | branch c t e =>
    have h := hadd _ (exitOp_eq_branch hget (by simp [he])) rfl
    exact hsuccs.bind (h.bind (.pure h.fits ()))

/-- What is known of the instructions of a block once they have their nodes. -/
def placedIn (F : Frame Label) (b : Block) : List Placed := b.body.zipIdx.map (placed F b.id)

theorem draws_layBlock {b : Block} (hb : b ∈ p.blocks) (hpre : L ++ blockLabels b <+: full)
    (hL : ∀ {c}, p.function.Reachable c → .block c ∈ L)
    (hfree : ∀ l ∈ L, ∀ k, l.owner? ≠ some (.split b.id k)) :
    F.Draws (p.layBlock b) (p.draw o F.id L []) (placedIn F b)
      (p.draw o F.id (L ++ blockLabels b) []) := by
  obtain ⟨hget, hr⟩ := hp.mem_blocks.1 hb
  rw [blockLabels, ← List.append_assoc] at hpre ⊢
  have hinit : ∀ pre post, b.body.zipIdx = pre ++ post →
      L ++ pre.flatMap (instrLabels b.id) <+: full := by
    intro pre post h
    refine List.IsPrefix.trans ((List.prefix_append_right_inj _).2 ?_)
      ((List.prefix_append _ _).trans hpre)
    rw [h, List.flatMap_append]
    exact List.prefix_append _ _
  have hd : F.Fits (p.draw o F.id L []) :=
    hF.fits ((List.prefix_append _ _).trans (hinit [] _ rfl)) (by simp) (by simp)
  have hbody : F.Draws (b.body.zipIdx.mapM (p.layInstr (F.id (.block b.id)) b.id))
      (p.draw o F.id L []) (placedIn F b)
      (p.draw o F.id (L ++ b.body.zipIdx.flatMap (instrLabels b.id)) []) := by
    have hnil : L = L ++ ([] : List (Instr × Nat)).flatMap (instrLabels b.id) := by simp
    nth_rewrite 1 [hnil]
    refine Frame.draws_mapM (fun pre => p.draw o F.id (L ++ pre.flatMap (instrLabels b.id)) [])
      (placed F b.id) (hnil ▸ hd) ?_
    rintro pre ⟨i, k⟩ post hsplit -
    have hadd : L ++ (pre ++ [(i, k)]).flatMap (instrLabels b.id) =
        L ++ pre.flatMap (instrLabels b.id) ++ instrLabels b.id (i, k) := by simp
    have hmem : (i, k) ∈ b.body.zipIdx := by rw [hsplit]; simp
    rw [hadd]
    refine draws_layInstr hF (hadd ▸ hinit (pre ++ [(i, k)]) post (by simpa using hsplit))
      (List.mem_append_left _ (hL hr)) ?_ ?_
    · intro l hl
      rcases List.mem_append.1 hl with hl | hl
      · exact hfree l hl k
      · obtain ⟨j, hj, hl⟩ := List.mem_flatMap.1 hl
        -- instructions stand at different positions, so none of these labels is of this split call
        have hne : j.2 ≠ k := by
          have hpositions := pairwise_positions b.body
          rw [hsplit] at hpositions
          exact (List.pairwise_append.1 hpositions).2.2 j hj _ List.mem_cons_self
        rcases owner?_of_mem_instrLabels hl with h | h | h <;> rw [h] <;> simp [hne]
    · rw [instr?, hget, Option.bind_some]
      exact List.mem_zipIdx_iff_getElem?.1 hmem
  have hexit := draws_layExit (o := o) hp hF hb hpre fun hc => List.mem_append_left _ (hL hc)
  exact (draws_blockNode hd (hL hr)).bind (hbody.bind (hexit.bind (.pure hexit.fits _)))

/-- Laying out draws the base labels. -/
theorem draws_layOut (hpre : p.baseLabels <+: full) :
    F.Draws p.layOut (p.draw o F.id [.entry] []) (p.blocks.flatMap (placedIn F))
      (p.draw o F.id p.baseLabels []) := by
  have hhead : p.headLabels <+: full := (List.prefix_append _ _).trans hpre
  have hinit : ∀ pre post, p.blocks = pre ++ post →
      p.headLabels ++ pre.flatMap blockLabels <+: full := by
    intro pre post h
    refine List.IsPrefix.trans ((List.prefix_append_right_inj _).2 ?_) hpre
    rw [h, List.flatMap_append]
    exact List.prefix_append _ _
  have hblocks : F.Draws (p.blocks.mapM p.layBlock) (p.draw o F.id p.headLabels [])
      (p.blocks.map (placedIn F)) (p.draw o F.id p.baseLabels []) := by
    have hnil : p.headLabels = p.headLabels ++ ([] : List Block).flatMap blockLabels := by simp
    nth_rewrite 1 [hnil]
    refine Frame.draws_mapM (fun pre => p.draw o F.id (p.headLabels ++ pre.flatMap blockLabels) [])
      (placedIn F) (hF.fits (hinit [] _ rfl) (by simp) (by simp)) ?_
    rintro pre b post hsplit -
    have hadd : p.headLabels ++ (pre ++ [b]).flatMap blockLabels =
        p.headLabels ++ pre.flatMap blockLabels ++ blockLabels b := by simp
    rw [hadd]
    refine draws_layBlock hp hF (by rw [hsplit]; simp)
      (hadd ▸ hinit (pre ++ [b]) post (by simpa using hsplit)) ?_ ?_
    · intro c hc
      exact List.mem_append_left _ (List.mem_append_left _ (hp.block_mem.2 hc))
    · intro l hl k
      rcases List.mem_append.1 hl with hl | hl
      · rcases owner?_of_mem_headLabels hl with h | h <;> simp [h]
      · obtain ⟨c, hc, hl⟩ := List.mem_flatMap.1 hl
        -- nothing that is laid out for another block belongs to a split call of this one
        have hne : c.id ≠ b.id := by
          have hnd := hp.nodup_ids
          rw [hsplit, List.map_append, List.map_cons] at hnd
          exact (List.nodup_append.1 hnd).2.2 _ (List.mem_map_of_mem hc) _ List.mem_cons_self
        rcases owner?_of_mem_blockLabels hl with h | ⟨j, h⟩ | h <;> simp [h, hne]
  refine (draws_layBlocks hF ((List.prefix_append _ _).trans hhead)).bind
    ((draws_layArguments hF hhead).bind (hblocks.bind ?_))
  rw [← List.flatMap_def]
  exact .pure hblocks.fits _

end

end Plan

end Dataflow
