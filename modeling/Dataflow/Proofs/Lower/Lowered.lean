import Dataflow.Proofs.Lower.Order
import Dataflow.Proofs.Net.InStep

/-!
# What lowering draws

Lowering draws the wires of a plan and the labels that follow from them (`Scope.tries_construct`,
`Scope.draws_complete`), and hands out the graph if it passes the audit (`Sound.lower_cases`). It is
refused on the way if the control flow or a value that is read cannot be supported, and it may run
out of numbers.
-/

namespace Dataflow

namespace Plan

/-- The entry has no phi, and all cycles of the control flow go through a back edge. -/
structure Supported (p : Plan) : Prop where
  entry : ∀ {b}, p.function.blocks[Function.entry]? = some b → b.phis = []
  reducible : Flow.Reducible p.function.Edge Function.entry

variable {p : Plan} {o : Options} {F : Frame Label} {all : List (Wire Label)}

/-! ## Checking -/

section
variable (hp : p.Sound)
include hp

theorem Sound.exists_entry : ∃ b, p.function.blocks[Function.entry]? = some b :=
  ⟨_, List.getElem?_eq_getElem hp.wellFormed.entry_lt⟩

theorem Sound.checkEdge_eq {u v : BlockId} (hs : v ∈ p.flow.succs u) : p.checkEdge (u, v) =
    if p.flow.isIrreducible u v then .error (.refused (.unsupported (.irreducible u v)))
    else .ok () := by
  have hlt := hp.wellFormed.edge_lt (hp.describes.mem_succs.1 hs)
  rw [← hp.describes.count_eq] at hlt
  rw [checkEdge, FlowGraph.testIrreducible, if_pos hlt]
  cases p.flow.isIrreducible u v <;> rfl

theorem Sound.checkEdges_eq_ok :
    (p.blocks.flatMap fun b => p.flow.edgesFrom b.id).forM p.checkEdge = .ok () ↔
      Flow.Reducible p.function.Edge Function.entry := by
  rw [forM_eq_ok, ← hp.describes.reducible_iff hp.wellFormed.toNumbered]
  constructor
  · intro h u v huv
    by_cases hu : p.function.Reachable u
    · obtain ⟨b, hb, rfl⟩ := hp.exists_block hu
      have hs := hp.describes.mem_succs.2 huv
      have hok := h (b.id, v) (List.mem_flatMap.2 ⟨b, hb, List.mem_map_of_mem hs⟩)
      rw [hp.checkEdge_eq hs] at hok
      cases hi : p.flow.isIrreducible b.id v with
      | false => rfl
      | true => simp [hi] at hok
    · rw [FlowGraph.isIrreducible, Bool.eq_false_iff.2 (mt hp.describes.isReachable_iff.1 hu)]
      rfl
  · intro h edge hedge
    obtain ⟨b, hb, hedge⟩ := List.mem_flatMap.1 hedge
    obtain ⟨s, hs, rfl⟩ := List.mem_map.1 hedge
    rw [hp.checkEdge_eq hs, h b.id s (hp.describes.mem_succs.1 hs)]
    rfl

theorem Sound.checkEdges_cases :
    (p.blocks.flatMap fun b => p.flow.edgesFrom b.id).forM p.checkEdge = .ok () ∨
      ∃ u, (p.blocks.flatMap fun b => p.flow.edgesFrom b.id).forM p.checkEdge =
        .error (.refused (.unsupported u)) := by
  refine (forM_cases _ _).imp_right ?_
  rintro ⟨edge, hedge, e, hcheck, herr⟩
  obtain ⟨b, hb, hedge⟩ := List.mem_flatMap.1 hedge
  obtain ⟨s, hs, rfl⟩ := List.mem_map.1 hedge
  rw [hp.checkEdge_eq hs] at hcheck
  split at hcheck <;> cases hcheck
  exact ⟨_, herr⟩

/-- The check accepts what is supported, and refuses everything else. -/
theorem Sound.check_cases : (p.check = .ok () ∧ p.Supported) ∨
    ((∃ u, p.check = .error (.refused (.unsupported u))) ∧ ¬ p.Supported) := by
  obtain ⟨e, he⟩ := hp.exists_entry
  have hentry : p.checkEntry = if e.phis.isEmpty then .ok () else
      .error (.refused (.unsupported (.entryPhi p.function.name))) := by
    rw [checkEntry, lookup_eq_ok.2 he, orFault_ok, ok_bind]
    rfl
  rw [check, hentry]
  by_cases hphis : e.phis = []
  · have hplain : ∀ {b}, p.function.blocks[Function.entry]? = some b → b.phis = [] := by
      intro b hb
      obtain rfl := Option.some.inj (he.symm.trans hb)
      exact hphis
    rw [hphis, List.isEmpty_nil, if_pos rfl, ok_bind]
    rcases hp.checkEdges_cases with h | ⟨u, h⟩
    · exact .inl ⟨h, hplain, hp.checkEdges_eq_ok.1 h⟩
    · refine .inr ⟨⟨u, h⟩, fun hs => ?_⟩
      rw [hp.checkEdges_eq_ok.2 hs.reducible] at h
      cases h
  · rw [if_neg (by simpa using hphis)]
    exact .inr ⟨⟨_, rfl⟩, fun hs => hphis (hs.entry he)⟩

theorem Sound.tries_check {d : Drawing Label} (hd : F.Fits d) (count : Nat) :
    F.Tries p.Supported count (Net.attempt p.check) d () d := by
  rcases hp.check_cases with ⟨hok, hs⟩ | ⟨⟨u, herr⟩, hs⟩
  · rw [hok]
    exact (Frame.draws_attempt hd ()).tries.iff (iff_of_true trivial hs)
  · refine ⟨fun h => (hs h).elim, fun _ => ⟨u, .inl ⟨F.net d, ?_⟩⟩⟩
    rw [herr]
    rfl

end

/-! ## Drawing -/

section
variable (hs : p.Scope F all)
include hs

omit hs in
theorem Sound.draw_controlWires (hp : p.Sound) :
    p.draw o F.id p.baseLabels p.controlWires = p.wired o F.id p.controlWires := by
  have hnil : extras p.controlWires = [] := by
    refine List.eq_nil_iff_forall_not_mem.2 fun l hl => ?_
    obtain ⟨hextra, w, hw, rfl | rfl⟩ := mem_extras.1 hl
    · simp [hp.isExtra_of_mem (hp.controlWires_mem hw).1] at hextra
    · simp [hp.isExtra_of_mem (hp.controlWires_mem hw).2] at hextra
  rw [wired, wiredLabels, hnil, List.append_nil]

/-- Everything before memory is drawn, or refused if it cannot be supported. -/
theorem Scope.tries_construct (hpre : p.controlWires ++ p.valueWires <+: all) :
    F.Tries (p.Supported ∧ p.Complete) (p.fullLabels all).length p.construct
      (p.draw o F.id [.entry] []) (p.accesses F)
      (p.wired o F.id (p.controlWires ++ p.valueWires)) := by
  have hp := hs.sound
  have hbase : p.baseLabels <+: p.fullLabels all :=
    (List.prefix_append _ _).trans (List.prefix_append _ _)
  have hstart : F.Fits (p.draw o F.id [.entry] []) := by
    refine hs.numbers.fits (List.IsPrefix.trans ?_ hbase) (by simp) (by simp)
    exact ⟨_, rfl⟩
  have hlay := draws_layOut (o := o) hp hs.numbers hbase
  have hcontrol := hp.draws_routeControl hlay.fits
  rw [hp.draw_controlWires] at hcontrol
  have hcontrolPre : p.controlWires <+: all := (List.prefix_append _ _).trans hpre
  have hvalues := hs.routes_values (o := o) p.controlWires hpre
  have hroute : F.Tries (True ∧ p.Complete) (p.fullLabels all).length
      (p.route (p.blocks.flatMap (placedIn F))) (p.draw o F.id p.baseLabels []) ()
      (p.wired o F.id (p.controlWires ++ p.valueWires)) :=
    hcontrol.tries.bind (length_wiredLabels_le hcontrolPre) fun _ => hvalues
  have hrest : F.Tries (True ∧ (True ∧ p.Complete) ∧ True) (p.fullLabels all).length
      (p.layOut >>= fun placed => p.route placed >>= fun _ =>
        pure (placed.filterMap Placed.access?)) (p.draw o F.id [.entry] []) (p.accesses F)
      (p.wired o F.id (p.controlWires ++ p.valueWires)) :=
    hlay.tries.bind hbase.length_le fun _ => hroute.bind (length_wiredLabels_le hpre) fun _ =>
      (Frame.Draws.pure (hs.fits hpre) _).tries
  refine ((hp.tries_check hstart _).bind ?_ fun _ => hrest).iff (by simp)
  exact List.IsPrefix.length_le (List.IsPrefix.trans ⟨_, rfl⟩ hbase)

/-- Collecting the loops finishes the drawing. -/
theorem Scope.draws_loops :
    F.Draws (p.loops.forM (layLoop o)) (p.wired o F.id all) () (p.finished o F.id all) := by
  have hp := hs.sound
  have hinit : ∀ pre post, p.loops = pre ++ post →
      p.wiredLabels all ++ pre.map (fun l => Label.loop l.header) <+: p.fullLabels all := by
    intro pre post h
    rw [fullLabels, h, List.map_append, ← List.append_assoc]
    exact List.prefix_append _ _
  have hnil : p.wired o F.id all = p.draw o F.id
      (p.wiredLabels all ++ ([] : List NaturalLoop).map fun l => .loop l.header) all := by
    rw [List.map_nil, List.append_nil]
    rfl
  rw [hnil]
  refine Frame.draws_forM (fun pre : List NaturalLoop => p.draw o F.id
    (p.wiredLabels all ++ pre.map fun l => .loop l.header) all)
    (hnil ▸ hs.fits (List.prefix_refl _)) fun pre l post hl hd => ?_
  have hadd : p.wiredLabels all ++ (pre ++ [l]).map (fun l => Label.loop l.header) =
      p.wiredLabels all ++ pre.map (fun l => .loop l.header) ++ [.loop l.header] := by simp
  have hmem : l ∈ p.flow.loops := by
    rw [← hp.loops_eq, hl]
    simp
  obtain ⟨h, hh, -, rfl⟩ := FlowGraph.mem_loops.1 hmem
  have hid := hs.numbers.id_eq (hadd ▸ hinit (pre ++ [p.flow.loopAt h]) post (by simpa using hl))
  rw [hadd]
  refine hp.draws_layLoop (fun hb => ?_) (fun b hb => ?_) hd (hp.describes.mem_order.1 hh) hid
  · exact List.mem_append_left _ (mem_wiredLabels (hp.mem_baseLabels.2 hb))
  · have hloops : owned (pre.map fun l => .loop l.header) (.block b.id) = [] := by
      refine owned_eq_nil fun l hl => ?_
      obtain ⟨_, -, rfl⟩ := List.mem_map.1 hl
      exact fun h => by cases h
    rw [owned_append, hloops, List.append_nil, owned_wiredLabels, hp.owned_baseLabels hb]

end

/-! ## The accesses -/

/-- The accesses of a plan with the nodes they will have. -/
def accessList (p : Plan) : List Access := p.accesses (p.frame 0 [])

theorem Sound.accesses_frame (hp : p.Sound) (start : Uid) :
    p.accesses (p.frame start all) = p.accessList := by
  refine congrArg (List.filterMap _) (List.flatMap_congr fun b hb => ?_)
  refine List.map_congr_left fun i hi => ?_
  have hlaid := hp.laid_instr hb (List.mem_zipIdx_iff_getElem?.1 hi)
  have hid : ∀ W, (p.fullLabels W).idxOf (.instr b.id i.2) = p.baseLabels.idxOf (.instr b.id i.2) := by
    intro W
    rw [fullLabels, List.idxOf_append_of_mem (mem_wiredLabels hlaid), wiredLabels,
      List.idxOf_append_of_mem hlaid]
  simp only [placed, frame, hid]

section
variable {σ : Type} (p) (d : Disambiguator σ) (oracle : σ)

/-- The accesses with the regions that a disambiguator gives them. -/
def answers : List (Access × Option Region) :=
  p.accessList.zip (d.regions p.accessList oracle).1

/-- The pairs, of those that conflict, that a disambiguator does not tell apart. -/
def orders (cs : List (Access × Access)) : List (Access × Access) :=
  (d.aliasing cs (d.regions p.accessList oracle).2).1

/-- The wires of the lowered function. -/
def lowered (o : Options) (cs : List (Access × Access)) : List (Wire Label) :=
  p.wires o (p.answers d oracle) (p.orders d oracle cs)

theorem map_fst_answers : (p.answers d oracle).map Prod.fst = p.accessList :=
  List.map_fst_zip (Nat.le_of_eq (d.length_regions _ _).symm)

variable {p d oracle}

theorem fst_mem_of_mem_answers {x : Access × Option Region} (hx : x ∈ p.answers d oracle) :
    x.1 ∈ p.accessList := by
  rw [← map_fst_answers p d oracle]
  exact List.mem_map_of_mem hx

theorem mem_accessList_of_mem_orders {cs : List (Access × Access)}
    (hcs : cs.Sublist (pairs p.accessList)) {q : Access × Access} (hq : q ∈ p.orders d oracle cs) :
    q.1 ∈ p.accessList ∧ q.2 ∈ p.accessList := by
  have hmem := hcs.subset ((d.aliasing_sublist cs _).subset hq)
  obtain ⟨i, j, -, hi, hj⟩ := mem_pairs.1 hmem
  exact ⟨List.mem_of_getElem? hi, List.mem_of_getElem? hj⟩

end

/-! ## The result -/

/-- The finished net of a plan. -/
def drawn (p : Plan) (o : Options) (start : Uid) (all : List (Wire Label)) : Net :=
  (p.frame start all).net (p.finished o (p.frame start all).id all)

section
variable {σ : Type} {d : Disambiguator σ} {oracle : σ} {cs : List (Access × Access)}
  (hp : p.Sound) (hcs : cs.Sublist (pairs p.accessList))
include hp

theorem Sound.places_frame {a : Access} (ha : a ∈ p.accessList) (start : Uid)
    (all : List (Wire Label)) : p.Places (p.frame start all) a :=
  hp.places (by rwa [hp.accesses_frame])

theorem Sound.nodup_answers : ((p.answers d oracle).map (·.1.label)).Nodup := by
  have hmap : (p.answers d oracle).map (·.1.label) = p.accessList.map Access.label := by
    rw [← map_fst_answers p d oracle, List.map_map]
    rfl
  rw [hmap]
  exact hp.nodup_accesses

include hcs

theorem Sound.scope_lowered (o : Options) (start : Uid) :
    p.Scope (p.frame start (p.lowered d oracle o cs)) (p.lowered d oracle o cs) := by
  refine hp.scope start (fun x hx => ?_) fun q hq => ?_
  · exact (hp.places_frame (fst_mem_of_mem_answers hx) 0 []).laid
  · obtain ⟨h₁, h₂⟩ := mem_accessList_of_mem_orders hcs hq
    exact ⟨(hp.places_frame h₁ 0 []).laid, (hp.places_frame h₂ 0 []).laid⟩

/-- Memory and loops finish the drawing. -/
theorem Sound.draws_complete (o : Options) (start : Uid) :
    (p.frame start (p.lowered d oracle o cs)).Draws
      (routeMemory o (p.answers d oracle) (p.orders d oracle cs) >>= fun _ =>
        p.loops.forM (layLoop o))
      (p.wired o (p.frame start (p.lowered d oracle o cs)).id (p.controlWires ++ p.valueWires)) ()
      (p.finished o (p.frame start (p.lowered d oracle o cs)).id (p.lowered d oracle o cs)) := by
  have hs : p.Scope (p.frame start (p.lowered d oracle o cs)) (p.lowered d oracle o cs) :=
    hp.scope_lowered hcs o start
  have hxs : ∀ x ∈ p.answers d oracle, p.Places (p.frame start (p.lowered d oracle o cs)) x.1 :=
    fun x hx => hp.places_frame (fst_mem_of_mem_answers hx) _ _
  have hordered : ∀ q ∈ p.orders d oracle cs,
      p.Places (p.frame start (p.lowered d oracle o cs)) q.1 ∧
        p.Places (p.frame start (p.lowered d oracle o cs)) q.2 := by
    intro q hq
    obtain ⟨h₁, h₂⟩ := mem_accessList_of_mem_orders hcs hq
    exact ⟨hp.places_frame h₁ _ _, hp.places_frame h₂ _ _⟩
  have hmemory := hs.routes_routeMemory (o := o) (servesOnce_wires hp.nodup_answers) hxs hordered
  exact ((hmemory _ (List.prefix_refl _)).draws trivial).bind hs.draws_loops

omit hp hcs in
theorem start_eq (o : Options) {start : Uid} (h : start < idLimit) (all : List (Wire Label)) :
    Net.start p.function.name ⟨start⟩ =
      .ok ((p.frame start all).net (p.draw o (p.frame start all).id [.entry] [])) := by
  have hid : (p.frame start all).id .entry = 0 := by
    have hlabels : p.fullLabels all = .entry :: (p.fullLabels all).tail := rfl
    simp only [frame]
    rw [hlabels, List.idxOf_cons_self]
  rw [Net.start, Supply.take, if_pos h]
  simp only [Frame.net, Frame.node, List.map_singleton, hid, draw_labels, draw_wires, draw_kind]
  rfl

/-- What is left of lowering after construction. -/
theorem Sound.settle_result (s : Session) :
    (s.settle p d oracle ((p.frame s.uids.next (p.lowered d oracle s.options cs)).net
      (p.wired s.options (p.frame s.uids.next (p.lowered d oracle s.options cs)).id
        (p.controlWires ++ p.valueWires))) p.accessList cs).result =
      (p.drawn s.options s.uids.next (p.lowered d oracle s.options cs)).audit.map (fun _ =>
        (p.drawn s.options s.uids.next (p.lowered d oracle s.options cs)).toGraph) ∨
    idLimit < s.uids.next + (p.fullLabels (p.lowered d oracle s.options cs)).length ∧
      (s.settle p d oracle ((p.frame s.uids.next (p.lowered d oracle s.options cs)).net
        (p.wired s.options (p.frame s.uids.next (p.lowered d oracle s.options cs)).id
          (p.controlWires ++ p.valueWires))) p.accessList cs).result =
        .error (.fault .idsExhausted) := by
  have hdraws : (p.frame s.uids.next (p.lowered d oracle s.options cs)).Draws _ _ _ _ :=
    hp.draws_complete hcs s.options s.uids.next
  have hcomplete : p.complete s.options (p.answers d oracle) (p.orders d oracle cs) =
      EStateM.bind (routeMemory s.options (p.answers d oracle) (p.orders d oracle cs) >>= fun _ =>
        p.loops.forM (layLoop s.options)) fun _ => Net.finish :=
    (bind_assoc ..).symm
  simp only [Session.settle, EStateM.run]
  rw [← answers, ← orders, hcomplete, EStateM.bind]
  obtain hrun | ⟨hlt, net, hrun⟩ := hdraws.run
  · rw [hrun]
    dsimp only
    rw [Net.finish_run, drawn]
    cases ((p.frame s.uids.next (p.lowered d oracle s.options cs)).net _).audit <;> exact .inl rfl
  · rw [hrun]
    exact .inr ⟨hlt, rfl⟩

/-- Lowering a supported function comes to asking about its accesses. Otherwise it is refused, or the
numbers do not suffice. -/
theorem Sound.lower_settles (s : Session) (d : Disambiguator σ) (oracle : σ) {f : Function}
    (hplan : ofFunction f = .ok p)
    (hconflicting : p.conflicting p.accessList = .ok cs) :
    (idLimit < s.uids.next + (p.fullLabels (p.lowered d oracle s.options cs)).length ∧
      (s.lower f d oracle).result = .error (.fault .idsExhausted)) ∨
    (¬ (p.Supported ∧ p.Complete) ∧
      ∃ u, (s.lower f d oracle).result = .error (.refused (.unsupported u))) ∨
    ((p.Supported ∧ p.Complete) ∧ s.lower f d oracle = s.settle p d oracle
      ((p.frame s.uids.next (p.lowered d oracle s.options cs)).net
        (p.wired s.options (p.frame s.uids.next (p.lowered d oracle s.options cs)).id
          (p.controlWires ++ p.valueWires))) p.accessList cs) := by
  have hs : p.Scope (p.frame s.uids.next (p.lowered d oracle s.options cs))
      (p.lowered d oracle s.options cs) := hp.scope_lowered hcs s.options s.uids.next
  have hconstruct := hs.tries_construct (o := s.options) (List.prefix_append _ _)
  have hprepare : s.prepare f = (Net.start p.function.name s.uids).map fun net => (p, net) := by
    rw [Session.prepare, hplan]
    rfl
  rw [Session.lower, hprepare]
  by_cases hroom : s.uids.next < idLimit
  · rw [start_eq s.options hroom (p.lowered d oracle s.options cs)]
    simp only [Except.map, EStateM.run]
    by_cases hgood : p.Supported ∧ p.Complete
    · obtain hrun | ⟨hlt, net, hrun⟩ := (hconstruct.draws hgood).run
      · rw [hrun, hp.accesses_frame]
        dsimp only
        rw [hconflicting]
        exact .inr (.inr ⟨hgood, rfl⟩)
      · rw [hrun]
        refine .inl ⟨Nat.lt_of_lt_of_le hlt (Nat.add_le_add_left ?_ _), rfl⟩
        exact length_wiredLabels_le (List.prefix_append _ _)
    · obtain ⟨u, ⟨net, hrun⟩ | ⟨hlt, net, hrun⟩⟩ := hconstruct.refuses hgood
      · rw [hrun]
        exact .inr (.inl ⟨hgood, u, rfl⟩)
      · rw [hrun]
        exact .inl ⟨hlt, rfl⟩
  · have hlen : 0 < (p.fullLabels (p.lowered d oracle s.options cs)).length :=
      Nat.succ_pos _
    rw [Net.start, Supply.take, if_neg hroom]
    exact .inl ⟨by omega, rfl⟩

/-- Lowering a supported function gives the drawn graph, if it passes the audit. -/
theorem Sound.lower_cases (s : Session) (d : Disambiguator σ) (oracle : σ) {f : Function}
    (hplan : ofFunction f = .ok p)
    (hconflicting : p.conflicting p.accessList = .ok cs) :
    (idLimit < s.uids.next + (p.fullLabels (p.lowered d oracle s.options cs)).length ∧
      (s.lower f d oracle).result = .error (.fault .idsExhausted)) ∨
    (¬ (p.Supported ∧ p.Complete) ∧
      ∃ u, (s.lower f d oracle).result = .error (.refused (.unsupported u))) ∨
    ((p.Supported ∧ p.Complete) ∧ (s.lower f d oracle).result =
      (p.drawn s.options s.uids.next (p.lowered d oracle s.options cs)).audit.map fun _ =>
        (p.drawn s.options s.uids.next (p.lowered d oracle s.options cs)).toGraph) := by
  rcases hp.lower_settles hcs s d oracle hplan hconflicting with h | h | ⟨hgood, h⟩
  · exact .inl h
  · exact .inr (.inl h)
  · rw [h]
    exact (hp.settle_result hcs s).elim (fun h => .inr (.inr ⟨hgood, h⟩)) .inl

/-- A graph costs all questions about the accesses and the pairs that conflict. -/
theorem Sound.lower_oracle (s : Session) {f : Function} (hplan : ofFunction f = .ok p)
    (hconflicting : p.conflicting p.accessList = .ok cs) {g : Graph}
    (hg : (s.lower f d oracle).result = .ok g) :
    (s.lower f d oracle).oracle = (d.aliasing cs (d.regions p.accessList oracle).2).2 := by
  rcases hp.lower_settles hcs s d oracle hplan hconflicting with ⟨-, h⟩ | ⟨-, u, h⟩ | ⟨-, h⟩
  · rw [h] at hg
    cases hg
  · rw [h] at hg
    cases hg
  · rw [h, Session.settle]
    dsimp only
    split <;> rfl

end

end Plan

end Dataflow
