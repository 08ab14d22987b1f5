import Dataflow.Proofs.Lower.Control

/-!
# Values and what is drawn when it is first needed

Globals, constants and memory units get their node when a wire first needs it, so which of them are
there follows from the wires (`Plan.extras`). The drawing of a plan after layout is then known by its
wires alone (`Plan.wired`), and so is the position that every label will have in the end
(`Plan.frame`).

`Plan.labelOf` is the label of a value. A value has none if it is the result of an instruction that
is not reachable; reading it is refused (`Scope.tries_valueNode`).
-/

namespace Dataflow

/-- The labels that are drawn when a wire needs them. -/
def Label.isExtra : Label → Bool
  | .leaf _ | .unit _ => true
  | _ => false

namespace Plan

/-- The labels that some wires need and that are not laid out. -/
def extras (W : List (Wire Label)) : List Label :=
  ((W.flatMap fun w => [w.src, w.dst]).filter Label.isExtra).eraseDups

variable (p : Plan)

/-- The labels that are there with some wires. -/
def wiredLabels (W : List (Wire Label)) : List Label := p.baseLabels ++ extras W

/-- The labels of the finished graph. -/
def fullLabels (W : List (Wire Label)) : List Label :=
  p.wiredLabels W ++ p.loops.map fun l => .loop l.header

/-- The drawing with some wires. -/
def wired (o : Options) (id : Label → NodeId) (W : List (Wire Label)) : Drawing Label :=
  p.draw o id (p.wiredLabels W) W

/-- The finished drawing. -/
abbrev finished (o : Options) (id : Label → NodeId) (W : List (Wire Label)) : Drawing Label :=
  p.draw o id (p.fullLabels W) W

/-- The frame of a graph with some wires. -/
def frame (start : Uid) (W : List (Wire Label)) : Frame Label :=
  ⟨p.function.name, start, fun l => (p.fullLabels W).idxOf l⟩

variable {p} {W : List (Wire Label)}

/-! ## Labels from wires -/

theorem mem_extras {l : Label} :
    l ∈ extras W ↔ l.isExtra = true ∧ ∃ w ∈ W, l = w.src ∨ l = w.dst := by
  simp only [extras, List.mem_eraseDups, List.mem_filter, List.mem_flatMap, List.mem_cons,
    List.not_mem_nil, or_false, and_comm]

theorem mem_wiredLabels {l : Label} (hl : l ∈ p.baseLabels) : l ∈ p.wiredLabels W :=
  List.mem_append_left _ hl

theorem extras_mono {W' : List (Wire Label)} (h : W <+: W') : extras W <+: extras W' := by
  obtain ⟨rest, rfl⟩ := h
  rw [extras, extras, List.flatMap_append, List.filter_append, List.eraseDups_append]
  exact List.prefix_append _ _

theorem wiredLabels_mono {W' : List (Wire Label)} (h : W <+: W') :
    p.wiredLabels W <+: p.wiredLabels W' :=
  (List.prefix_append_right_inj _).2 (extras_mono h)

/-- A wire with at most one end that is not laid out adds at most this end. -/
theorem extras_concat {w : Wire Label} {x : Label}
    (h : [w.src, w.dst].filter Label.isExtra = [x].filter Label.isExtra) :
    extras (W ++ [w]) = if x.isExtra = true ∧ x ∉ extras W then extras W ++ [x] else extras W := by
  rw [extras, List.flatMap_append, List.filter_append, List.flatMap_singleton, h]
  cases hx : x.isExtra with
  | false => simp [hx, extras]
  | true =>
    rw [List.filter_cons_of_pos hx, List.filter_nil, eraseDups_concat]
    by_cases hin : x ∈ extras W
    · exact (if_pos (List.mem_eraseDups.1 hin)).trans (if_neg fun h => h.2 hin).symm
    · exact (if_neg fun h => hin (List.mem_eraseDups.2 h)).trans (if_pos ⟨rfl, hin⟩).symm

section
variable (hp : p.Sound)
include hp

theorem Sound.isExtra_of_mem {l : Label} (hl : l ∈ p.baseLabels) : l.isExtra = false := by
  have := hp.mem_baseLabels.1 hl
  cases l with
  | leaf _ | unit _ => exact this.elim
  | _ => rfl

theorem Sound.wiredLabels_concat {w : Wire Label} {x : Label}
    (hx : x ∈ p.baseLabels ∨ x.isExtra = true)
    (h : [w.src, w.dst].filter Label.isExtra = [x].filter Label.isExtra) :
    p.wiredLabels (W ++ [w]) =
      if x ∈ p.wiredLabels W then p.wiredLabels W else p.wiredLabels W ++ [x] := by
  rw [wiredLabels, extras_concat h]
  rcases hx with hx | hx
  · rw [if_neg (by simp [hp.isExtra_of_mem hx])]
    exact (if_pos (List.mem_append_left _ hx)).symm
  · have hbase : x ∉ p.baseLabels := fun hmem => by
      rw [hp.isExtra_of_mem hmem] at hx
      cases hx
    by_cases hin : x ∈ extras W <;> simp [wiredLabels, hx, hin, hbase]

theorem Sound.nodup_fullLabels : (p.fullLabels W).Nodup := by
  have hloops : (p.loops.map fun l => Label.loop l.header).Nodup := by
    rw [hp.loops_eq, FlowGraph.loops]
    refine (List.Perm.nodup_iff ((sortBy_perm _ _).map _)).2 ?_
    rw [List.map_map]
    refine (hp.describes.depthFirst.nodup.filter _).map fun a b h => ?_
    cases h
    rfl
  have hextra : ∀ l ∈ extras W, l.isExtra = true := fun l hl => (mem_extras.1 hl).1
  refine List.Nodup.append (List.Nodup.append hp.nodup_baseLabels (nodup_eraseDups _) ?_) hloops ?_
  · intro l hl hl'
    have := hextra l hl'
    rw [hp.isExtra_of_mem hl] at this
    cases this
  · intro l hl hl'
    obtain ⟨h, -, rfl⟩ := List.mem_map.1 hl'
    rcases List.mem_append.1 hl with hl | hl
    · exact hp.mem_baseLabels.1 hl
    · cases hextra _ hl

theorem Sound.numbers_frame (start : Uid) : Numbers (p.frame start W) (p.fullLabels W) := by
  intro i l hl
  obtain ⟨hlt, rfl⟩ := List.getElem?_eq_some_iff.1 hl
  exact List.Nodup.idxOf_getElem hp.nodup_fullLabels i hlt

end

theorem owned_wiredLabels (x : Label) : owned (p.wiredLabels W) x = owned p.baseLabels x := by
  have hextra : owned (extras W) x = [] := by
    refine owned_eq_nil fun l hl => ?_
    have := (mem_extras.1 hl).1
    cases l with
    | leaf _ | unit _ => exact fun h => by cases h
    | _ => cases this
  rw [wiredLabels, owned_append, hextra, List.append_nil]

/-! ## The labels of values -/

/-- Whether a label is that of the instruction that defines an identifier. -/
def produces (p : Plan) (id : InstId) : Label → Bool
  | .instr b k => (p.instr? b k).any (·.result? = some id)
  | _ => false

def definition? (p : Plan) (id : InstId) : Option Label := p.baseLabels.find? (p.produces id)

theorem produces_iff {id : InstId} {l : Label} : p.produces id l = true ↔
    ∃ b k i, l = .instr b k ∧ p.instr? b k = some i ∧ i.result? = some id := by
  cases l with
  | instr b k => simp [produces, Option.any_eq_true, and_assoc]
  | _ => simp [produces]

/-- Whether a value is there to be read. -/
def Known (p : Plan) : Value → Prop
  | .inst id => (p.definition? id).isSome
  | _ => True

/-- The label of a value, if there is one. -/
def labelOf (p : Plan) : Value → Label
  | .arg i => .param i
  | .inst id => (p.definition? id).getD .entry
  | v => .leaf v

theorem labelOf_produces {id : InstId} (h : p.Known (.inst id)) :
    p.labelOf (.inst id) ∈ p.baseLabels ∧ p.produces id (p.labelOf (.inst id)) = true := by
  obtain ⟨l, hl⟩ := Option.isSome_iff_exists.1 h
  rw [labelOf, hl]
  exact ⟨List.mem_of_find?_eq_some hl, List.find?_some (p := p.produces id) hl⟩

theorem source_eq_produces {o : Options} {F : Frame Label} {L : List Label} {l : Label}
    {id : InstId} :
    (F.node (p.draw o F.id L W) l).instr?.any (·.source = some id) = p.produces id l := by
  rw [instr?_node]
  cases l with
  | instr b k => cases h : p.instr? b k <;> simp [produces, h]
  | _ => rfl

section
variable (hp : p.Sound)
include hp

theorem Sound.produces_unique {id : InstId} {l l' : Label} (h : p.produces id l = true)
    (h' : p.produces id l' = true) : l = l' := by
  obtain ⟨b, k, i, rfl, hi, hid⟩ := produces_iff.1 h
  obtain ⟨b', k', i', rfl, hi', hid'⟩ := produces_iff.1 h'
  obtain ⟨c, hc, hi⟩ := Option.bind_eq_some_iff.1 hi
  obtain ⟨c', hc', hi'⟩ := Option.bind_eq_some_iff.1 hi'
  obtain ⟨rfl, rfl⟩ := hp.wellFormed.position_unique hc hi hid hc' hi' hid'
  rfl

omit hp in
theorem owned_entry : owned p.baseLabels .entry =
    (List.range p.function.params.length).map .param := by
  have hparams : owned ((List.range p.function.params.length).map .param) .entry =
      (List.range p.function.params.length).map .param := by
    rw [owned, List.filter_eq_self]
    intro l hl
    obtain ⟨i, -, rfl⟩ := List.mem_map.1 hl
    rfl
  have hbody : owned (p.blocks.flatMap blockLabels) .entry = [] := by
    refine owned_eq_nil fun l hl => ?_
    obtain ⟨b, -, hl⟩ := List.mem_flatMap.1 hl
    rcases owner?_of_mem_blockLabels hl with h | ⟨j, h⟩ | h <;> simp [h]
  rw [baseLabels, headLabels, owned_append, owned_append, owned_blockHeads, hparams, hbody,
    List.nil_append, List.append_nil]

theorem Sound.labelOf_mem {v : Value} (hv : p.function.Defines v) :
    p.labelOf v ∈ p.baseLabels ∨ (p.labelOf v).isExtra = true := by
  cases v with
  | arg i => exact .inl (hp.mem_baseLabels.2 hv)
  | inst id =>
    cases h : p.definition? id with
    | none => exact .inl (by rw [labelOf, h]; exact hp.mem_baseLabels.2 trivial)
    | some l => exact .inl (labelOf_produces (by rw [Known, h]; rfl)).1
  | global _ | const _ => exact .inr rfl

end

/-- A value that is there gives data. -/
theorem accepts_labelOf {o : Options} {id : Label → NodeId} {L : List Label} {v : Value}
    (hv : p.Known v) : (p.kindOf o id L W (p.labelOf v)).accepts .dataOut = true := by
  cases v with
  | inst i =>
    obtain ⟨b, k, j, hl, hj, hid⟩ := produces_iff.1 (labelOf_produces hv).2
    rw [hl, accepts_instr hj]
    cases j with
    | store _ _ => cases hid
    | _ => rfl
  | _ => rfl

/-! ## Routing among wires -/

/-- A frame for the wires of a graph, all of which join labels that are laid out or drawn for
them. -/
structure Scope (p : Plan) (F : Frame Label) (all : List (Wire Label)) : Prop where
  sound : p.Sound
  numbers : Numbers F (p.fullLabels all)
  src_mem : ∀ w ∈ all, w.src ∈ p.baseLabels ∨ w.src.isExtra = true
  dst_mem : ∀ w ∈ all, w.dst ∈ p.baseLabels ∨ w.dst.isExtra = true

/-- The operation adds wires under a condition, and is refused as unsupported without it, where it
stands among all wires of the graph. -/
def Routes (p : Plan) (o : Options) (F : Frame Label) (all : List (Wire Label)) (good : Prop)
    (m : NetM Unit) (wires : List (Wire Label)) : Prop :=
  ∀ W, W ++ wires <+: all → F.Tries good (p.fullLabels all).length m (p.wired o F.id W) ()
    (p.wired o F.id (W ++ wires))

section
variable {o : Options} {F : Frame Label} {all : List (Wire Label)} (hs : p.Scope F all)
include hs

omit hs in
theorem length_wiredLabels_le (h : W <+: all) :
    (p.wiredLabels W).length ≤ (p.fullLabels all).length :=
  ((wiredLabels_mono h).trans (List.prefix_append _ _)).length_le

theorem Scope.fits (h : W <+: all) : F.Fits (p.wired o F.id W) := by
  have hmem : ∀ {l w}, w ∈ W → l = w.src ∨ l = w.dst → l ∈ p.baseLabels ∨ l.isExtra = true →
      l ∈ p.wiredLabels W := by
    intro l w hw hl hmem
    rcases hmem with hmem | hmem
    · exact List.mem_append_left _ hmem
    · exact List.mem_append_right _ (mem_extras.2 ⟨hmem, w, hw, hl⟩)
  refine hs.numbers.fits ((wiredLabels_mono h).trans (List.prefix_append _ _)) ?_ ?_
  · exact fun w hw => hmem hw (.inl rfl) (hs.src_mem w (h.subset hw))
  · exact fun w hw => hmem hw (.inr rfl) (hs.dst_mem w (h.subset hw))

theorem Scope.routes_pure : p.Routes o F all True (pure ()) [] := by
  intro W h
  rw [List.append_nil] at h ⊢
  exact (Frame.Draws.pure (hs.fits h) ()).tries

omit hs in
theorem Routes.bind {good good' : Prop} {m m' : NetM Unit} {wires wires' : List (Wire Label)}
    (h : p.Routes o F all good m wires) (h' : p.Routes o F all good' m' wires') :
    p.Routes o F all (good ∧ good') (m >>= fun _ => m') (wires ++ wires') := by
  intro W hW
  rw [← List.append_assoc] at hW ⊢
  have hpre := (List.prefix_append _ _).trans hW
  exact (h W hpre).bind (length_wiredLabels_le hpre) fun _ => h' _ hW

omit hs in
theorem Routes.iff {good good' : Prop} {m : NetM Unit} {wires : List (Wire Label)}
    (h : p.Routes o F all good m wires) (hgood : good ↔ good') :
    p.Routes o F all good' m wires := fun W hW => (h W hW).iff hgood

theorem Scope.routes_forM {γ : Type} {xs : List γ} {good : γ → Prop} {step : γ → NetM Unit}
    {wires : γ → List (Wire Label)}
    (hstep : ∀ x ∈ xs, p.Routes o F all (good x) (step x) (wires x)) :
    p.Routes o F all (∀ x ∈ xs, good x) (xs.forM step) (xs.flatMap wires) := by
  induction xs with
  | nil => exact hs.routes_pure.iff (by simp)
  | cons x xs ih =>
    obtain ⟨hx, hxs⟩ := List.forall_mem_cons.1 hstep
    exact (hx.bind (ih hxs)).iff List.forall_mem_cons.symm

/-! ## Reading a value -/

theorem Scope.argNode?_wired (h : W <+: all) {i : Nat} (hi : i < p.function.params.length) :
    (F.net (p.wired o F.id W)).argNode? i = some (F.id (.param i)) := by
  have hd : F.Fits (p.wired o F.id W) := hs.fits h
  have hentry : .entry ∈ p.baseLabels := hs.sound.mem_baseLabels.2 trivial
  rw [wired, argNode?_eq hd (List.mem_append_left _ hentry) (hd.id_eq rfl), owned_wiredLabels,
    owned_entry, List.getElem?_map, List.getElem?_range hi]
  rfl

theorem Scope.resultNode?_wired (h : W <+: all) {i : InstId} (hk : p.Known (.inst i)) :
    (F.net (p.wired o F.id W)).resultNode? i = some (F.id (p.labelOf (.inst i))) := by
  obtain ⟨hmem, hprod⟩ := labelOf_produces hk
  refine (hs.fits h).lastWhere?_eq (List.mem_append_left _ hmem) fun l _ => ?_
  rw [wired, source_eq_produces]
  exact ⟨fun hl => hs.sound.produces_unique hl hprod, fun hl => hl ▸ hprod⟩

theorem Scope.resultNode?_wired_none (h : W <+: all) {i : InstId} (hk : ¬ p.Known (.inst i)) :
    (F.net (p.wired o F.id W)).resultNode? i = none := by
  refine (hs.fits h).lastWhere?_eq_none fun l hl => ?_
  rw [wired, source_eq_produces, Bool.eq_false_iff]
  intro hprod
  refine hk (Option.isSome_iff_ne_none.2 fun hnone => ?_)
  refine List.find?_eq_none.1 hnone l ?_ hprod
  -- what is drawn for a wire is no instruction
  rcases List.mem_append.1 hl with hl | hl
  · exact hl
  · obtain ⟨b, k, j, rfl, -⟩ := produces_iff.1 hprod
    cases (mem_extras.1 hl).1

section
variable {v : Value} (hv : p.function.Defines v) {kind : EdgeKind} {x : Label} (hx : x ∈ p.baseLabels)
  (hW : W ++ [⟨kind, p.labelOf v, x⟩] <+: all)
include hv hx hW

/-- A value whose label is there needs no node. -/
theorem Scope.draws_found (hmem : p.labelOf v ∈ p.wiredLabels W) :
    F.Draws (pure (F.id (p.labelOf v))) (p.wired o F.id W) (F.id (p.labelOf v))
      (p.draw o F.id (p.wiredLabels (W ++ [⟨kind, p.labelOf v, x⟩])) W) := by
  rw [hs.sound.wiredLabels_concat (hs.sound.labelOf_mem hv)
    (by simp [hs.sound.isExtra_of_mem hx, List.filter_cons]), if_pos hmem]
  exact .pure (hs.fits ((List.prefix_append _ _).trans hW)) _

/-- Another one gets a node. -/
theorem Scope.draws_new {k : NodeKind} (hmem : p.labelOf v ∉ p.wiredLabels W)
    (hk : p.kindOf o F.id (p.wiredLabels W) W (p.labelOf v) = k) (howner : (p.labelOf v).owner? = none)
    (hloop : ∀ b, p.surrounds b (p.labelOf v) = false) :
    F.Draws (Net.push k) (p.wired o F.id W) (F.id (p.labelOf v))
      (p.draw o F.id (p.wiredLabels (W ++ [⟨kind, p.labelOf v, x⟩])) W) := by
  have hpre : p.wiredLabels (W ++ [⟨kind, p.labelOf v, x⟩]) <+: p.fullLabels all :=
    (wiredLabels_mono hW).trans (List.prefix_append _ _)
  rw [hs.sound.wiredLabels_concat (hs.sound.labelOf_mem hv)
    (by simp [hs.sound.isExtra_of_mem hx, List.filter_cons]), if_neg hmem] at hpre ⊢
  exact draws_add (hs.fits ((List.prefix_append _ _).trans hW)) (hs.numbers.id_eq hpre) hk howner hloop

/-- Reading a value gives its label, which is drawn if the value is a new global or constant. -/
theorem Scope.tries_valueNode :
    F.Tries (p.Known v) (p.fullLabels all).length (p.valueNode v) (p.wired o F.id W)
      (F.id (p.labelOf v))
      (p.draw o F.id (p.wiredLabels (W ++ [⟨kind, p.labelOf v, x⟩])) W) := by
  have hpre : W <+: all := (List.prefix_append _ _).trans hW
  have hd : F.Fits (p.wired o F.id W) := hs.fits hpre
  refine .get ?_
  cases v with
  | arg i =>
    refine ⟨fun _ => ?_, fun h => (h trivial).elim⟩
    dsimp only
    rw [hs.argNode?_wired hpre hv]
    exact hs.draws_found hv hx hW (List.mem_append_left _ (hs.sound.mem_baseLabels.2 hv))
  | global g =>
    refine ⟨fun _ => ?_, fun h => (h trivial).elim⟩
    obtain ⟨decl, hdecl⟩ : ∃ decl, p.function.globals[g]? = some decl :=
      ⟨_, List.getElem?_eq_getElem hv⟩
    dsimp only
    rw [wired, globalNode?_eq hd, hdecl]
    by_cases hmem : .leaf (.global g) ∈ p.wiredLabels W
    · rw [if_pos hmem]
      exact hs.draws_found hv hx hW hmem
    · rw [if_neg hmem]
      exact hs.draws_new hv hx hW hmem (by simp [labelOf, kindOf, hdecl]) rfl fun _ => rfl
  | const c =>
    refine ⟨fun _ => ?_, fun h => (h trivial).elim⟩
    dsimp only
    rw [wired, constNode?_eq hd]
    by_cases hmem : .leaf (.const c) ∈ p.wiredLabels W
    · rw [if_pos hmem]
      exact hs.draws_found hv hx hW hmem
    · rw [if_neg hmem]
      exact hs.draws_new hv hx hW hmem rfl rfl fun _ => rfl
  | inst i =>
    constructor
    · intro hk
      dsimp only
      rw [hs.resultNode?_wired hpre hk]
      exact hs.draws_found hv hx hW (List.mem_append_left _ (labelOf_produces hk).1)
    · intro hk
      refine ⟨.undefinedValue i, .inl ⟨F.net (p.wired o F.id W), ?_⟩⟩
      dsimp only
      rw [hs.resultNode?_wired_none hpre hk]
      rfl

end

end

end Plan

end Dataflow
