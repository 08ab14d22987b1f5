import Dataflow.Proofs.Lower.Dependency

/-!
# The questions about memory

`Disambiguator.transcribed` keeps a log of all questions with their answers. When a function is lowered,
the log is first the regions of its accesses, in declaration order, and then one verdict for each pair
of accesses that conflict; the pairs with the verdict yes are the dependencies of the graph, in the same
order (`Inquiry`, `Session.lower_asks`). A dependency never leads against the reverse postorder, so the
dependencies have no cycle.
-/

namespace Dataflow

open Relation

namespace Disambiguator

variable {σ : Type} (d : Disambiguator σ)

/-! ## A log of questions and answers -/

/-- A question with its answer. -/
inductive Exchange
  | region (access : Access) (answer : Option Region)
  | alias (earlier later : Access) (answer : Bool)
deriving DecidableEq

/-- The same answers, with a log. -/
def transcribed : Disambiguator (σ × List Exchange) where
  region a s :=
    let (r, s') := d.region a s.1
    (r, s', s.2 ++ [.region a r])
  mayAlias a b s :=
    let (yes, s') := d.mayAlias a b s.1
    (yes, s', s.2 ++ [.alias a b yes])

theorem follows_transcribed : d.Follows d.transcribed Prod.fst :=
  ⟨fun _ _ => ⟨rfl, rfl⟩, fun _ _ _ => ⟨rfl, rfl⟩⟩

/-- The pairs that are asked about, with their answers. -/
def verdicts : List (Access × Access) → σ → List ((Access × Access) × Bool)
  | [], _ => []
  | q :: rest, s => (q, (d.mayAlias q.1 q.2 s).1) :: verdicts rest (d.mayAlias q.1 q.2 s).2

theorem map_fst_verdicts (ps : List (Access × Access)) (s : σ) :
    (d.verdicts ps s).map Prod.fst = ps := by
  induction ps generalizing s with
  | nil => rfl
  | cons q ps ih => exact congrArg (q :: ·) (ih _)

theorem aliasing_eq_verdicts (ps : List (Access × Access)) (s : σ) :
    (d.aliasing ps s).1 = ((d.verdicts ps s).filter Prod.snd).map Prod.fst := by
  induction ps generalizing s with
  | nil => rfl
  | cons q ps ih =>
    simp only [aliasing, verdicts, ih]
    cases (d.mayAlias q.1 q.2 s).1 <;> rfl

theorem log_regions (as : List Access) (s : σ) (log : List Exchange) :
    (d.transcribed.regions as (s, log)).2 = ((d.regions as s).2,
      log ++ (as.zip (d.regions as s).1).map fun x => .region x.1 x.2) := by
  induction as generalizing s log with
  | nil => exact congrArg _ (List.append_nil log).symm
  | cons a as ih =>
    refine (ih (d.region a s).2 (log ++ [.region a (d.region a s).1])).trans ?_
    rw [List.append_assoc]
    rfl

theorem log_aliasing (ps : List (Access × Access)) (s : σ) (log : List Exchange) :
    (d.transcribed.aliasing ps (s, log)).2 = ((d.aliasing ps s).2,
      log ++ (d.verdicts ps s).map fun v => .alias v.1.1 v.1.2 v.2) := by
  induction ps generalizing s log with
  | nil => exact congrArg _ (List.append_nil log).symm
  | cons q ps ih =>
    refine (ih (d.mayAlias q.1 q.2 s).2
      (log ++ [.alias q.1 q.2 (d.mayAlias q.1 q.2 s).1])).trans ?_
    rw [List.append_assoc]
    rfl

end Disambiguator

/-! ## Dependencies in the order of their wires -/

theorem Frame.ends_edges {α : Type} [DecidableEq α] (F : Frame α) (kind : EdgeKind)
    (ws : List (Wire α)) :
    ((F.edges ws).filter (·.kind = kind)).map (fun e => (e.src, e.dst)) =
      (ws.filter (·.kind = kind)).map fun w => (F.id w.src, F.id w.dst) := by
  induction ws using List.reverseRecOn with
  | nil => rfl
  | append_singleton ws w ih =>
    rw [F.edges_append, List.filter_append, List.filter_append, List.map_append, List.map_append, ih]
    by_cases hkind : w.kind = kind <;> simp [Frame.edge, hkind]

namespace Plan

variable {p : Plan} {o : Options} {xs : List (Access × Option Region)}
  {ordered : List (Access × Access)}

theorem filter_wires_dependency :
    (p.wires o xs ordered).filter (·.kind = .dependency) = ordered.map orderWire := by
  have hnone : ∀ ws : List (Wire Label), (∀ w ∈ ws, w.kind ≠ .dependency) →
      ws.filter (·.kind = .dependency) = [] := by
    intro ws h
    exact List.filter_eq_nil_iff.2 fun w hw => by simpa using h w hw
  have hcontrol := hnone p.controlWires fun w hw h => by
    rw [kind_controlWires hw] at h
    cases h
  have hvalue := hnone p.valueWires fun w hw h => by
    rcases kind_valueWires hw with hk | hk <;> rw [hk] at h <;> cases h
  have haccess := hnone (xs.flatMap (accessWires o)) fun w hw h => by
    obtain ⟨k, hk | hk⟩ := kind_accessWires hw <;> rw [hk] at h <;> cases k <;> cases h
  have horder : (ordered.map orderWire).filter (·.kind = .dependency) = ordered.map orderWire :=
    List.filter_eq_self.2 fun w hw => by simpa using kind_orderWires hw
  simp only [wires, memoryWires, List.filter_append, hcontrol, hvalue, haccess, horder,
    List.nil_append]

/-! ## The pairs that are asked about -/

theorem nodup_pairs {as : List Access} (has : as.Nodup) : (pairs as).Nodup := by
  have hlater : as.zipIdx.Pairwise fun x y => x.1 ≠ y.1 := by
    refine List.pairwise_map.1 ?_
    rwa [List.zipIdx_map_fst]
  refine List.nodup_flatMap.2 ⟨fun x _ => ?_, hlater.imp fun {x y} hxy q hq hq' => ?_⟩
  · exact (has.sublist (List.take_sublist _ _)).map fun a b h => (Prod.mk.inj h).1
  · obtain ⟨a, -, rfl⟩ := List.mem_map.1 hq
    obtain ⟨b, -, h⟩ := List.mem_map.1 hq'
    exact hxy (Prod.mk.inj h).2.symm

/-- Of two accesses one writes, and the first can run before the second within one run of the
function, if they are declared in this order. -/
def Rivals (f : Function) (a b : Access) : Prop :=
  (a.kind = .store ∨ b.kind = .store) ∧
    (a.block = b.block ∨ TransGen (Flow.IsForward f.Edge Function.entry) a.block b.block)

theorem ahead_conflicts_iff {f : Function} {a b : Access} :
    a.Ahead b ∧ Conflicts f (a, b) ↔ a.Ahead b ∧ Rivals f a b := by
  rw [conflicts_iff, Rivals, Access.Ahead]
  constructor
  · rintro ⟨hkind, ⟨hblock, hlt⟩ | ⟨hlt, hway⟩⟩
    · exact ⟨.inr ⟨hblock, hlt⟩, hkind, .inl hblock⟩
    · exact ⟨.inl hlt, hkind, .inr hway⟩
  · rintro ⟨hlt | ⟨hblock, hlt⟩, hkind, hway⟩
    · exact ⟨hkind, .inr ⟨hlt, hway.resolve_left (Nat.ne_of_lt hlt)⟩⟩
    · exact ⟨hkind, .inl ⟨hblock, hlt⟩⟩

end Plan

/-- The first access stands before the second one when blocks are taken in reverse postorder. -/
def FlowGraph.Rises (flow : FlowGraph) (a b : Access) : Prop :=
  flow.order.idxOf a.block < flow.order.idxOf b.block ∨
    flow.order.idxOf a.block = flow.order.idxOf b.block ∧ a.index < b.index

theorem FlowGraph.Describes.rises {flow : FlowGraph} {f : Function} (hflow : flow.Describes f)
    (hf : f.Numbered) (hred : Flow.Reducible f.Edge Function.entry) {a b : Access}
    (ha : f.Reachable a.block) (hahead : a.Ahead b) (hrivals : Plan.Rivals f a b) :
    flow.Rises a b := by
  rcases hrivals.2 with hblock | hway
  · rcases hahead with hlt | ⟨-, hlt⟩
    · exact absurd hblock (Nat.ne_of_lt hlt)
    · exact .inr ⟨by rw [hblock], hlt⟩
  · exact .inl (hflow.idxOf_lt_of_transGen hf ((hflow.reducible_iff hf).2 hred) ha hway).2

/-- What was asked for a graph of a function, and what came of it: each access is asked for its region,
and each pair of rivals for a verdict, once and in order, and the pairs with the verdict yes are the
dependencies. -/
structure Inquiry (f : Function) (g : Graph) (regions : List (Access × Option Region))
    (verdicts : List ((Access × Access) × Bool)) : Prop where
  lists : f.Lists (regions.map Prod.fst)
  nodup_nodes : (regions.map (·.1.node)).Nodup
  asked_once : (verdicts.map Prod.fst).Nodup
  asked_iff : ∀ a b, (a, b) ∈ verdicts.map Prod.fst ↔ a ∈ regions.map Prod.fst ∧
    b ∈ regions.map Prod.fst ∧ a.Ahead b ∧ Plan.Rivals f a b
  edges_eq : (g.edgesOfKind .dependency).map (fun e => (e.src, e.dst)) =
    (verdicts.filter Prod.snd).map fun v => (v.1.1.node, v.1.2.node)

namespace Plan

variable {p : Plan} {σ : Type} {d : Disambiguator σ} {oracle : σ} {cs : List (Access × Access)}

theorem Sound.nodup_nodes (hp : p.Sound) : (p.accessList.map Access.node).Nodup := by
  have hscope : p.Scope (p.frame 0 (p.wires .strict [] [])) (p.wires .strict [] []) :=
    hp.scope 0 (fun _ h => absurd h List.not_mem_nil) fun _ h => absurd h List.not_mem_nil
  have hlabels : (p.accessList.map Access.label).Nodup := hp.nodup_accesses
  refine List.pairwise_map.2 ((List.pairwise_map.1 hlabels).imp_of_mem fun {a b} ha hb hne h => ?_)
  have ha' := hp.places_frame ha 0 (p.wires .strict [] [])
  have hb' := hp.places_frame hb 0 (p.wires .strict [] [])
  rw [ha'.node_eq, hb'.node_eq] at h
  exact hne ((hscope.fits_whole.id_inj (mem_fullLabels ha'.laid) (mem_fullLabels hb'.laid)).1 h)

/-- The dependencies of a drawing are the pairs that are kept in order. -/
theorem Sound.edges_drawn (hp : p.Sound) (hcs : cs.Sublist (pairs p.accessList)) (o : Options)
    (start : Uid) :
    ((p.drawn o start (p.lowered d oracle o cs)).edgesOfKind .dependency).map
        (fun e => (e.src, e.dst)) =
      (p.orders d oracle cs).map fun q => (q.1.node, q.2.node) := by
  refine (Frame.ends_edges _ _ _).trans ?_
  rw [finished, draw_wires, lowered, filter_wires_dependency, List.map_map]
  refine List.map_congr_left fun q hq => ?_
  obtain ⟨h₁, h₂⟩ := mem_accessList_of_mem_orders hcs hq
  rw [(hp.places_frame h₁ start _).node_eq, (hp.places_frame h₂ start _).node_eq]
  rfl

theorem Sound.reachable_of_mem (hp : p.Sound) {f : Function}
    (hrounds : ReflTransGen Function.Round f p.function) {a : Access} (ha : a ∈ p.accessList) :
    f.Reachable a.block ∧ p.function.Reachable a.block :=
  ⟨((((Function.lists_iff hrounds).1 hp.lists_accessList).mem_iff _ _ _ _).1 ⟨_, ha⟩).1,
    ((hp.lists_accessList.mem_iff _ _ _ _).1 ⟨_, ha⟩).1⟩

theorem Sound.rivals_iff (hp : p.Sound) {f : Function} (hf : f.WellFormed)
    (hrounds : ReflTransGen Function.Round f p.function) {a b : Access} (ha : a ∈ p.accessList)
    (hb : b ∈ p.accessList) : Rivals p.function a b ↔ Rivals f a b := by
  have hlt : ∀ {a}, a ∈ p.accessList → a.block < f.blocks.length := fun ha =>
    hf.reachable_lt (hp.reachable_of_mem hrounds ha).1
  rw [Rivals, Rivals, Function.forward_iff hrounds (hlt ha) (hlt hb)]

theorem Sound.inquiry (hp : p.Sound) {f : Function} (hf : f.WellFormed)
    (hrounds : ReflTransGen Function.Round f p.function) (hcs : cs.Sublist (pairs p.accessList))
    (hmem : ∀ q, q ∈ cs ↔ q ∈ pairs p.accessList ∧ Conflicts p.function q) (o : Options)
    (start : Uid) :
    Inquiry f (p.drawn o start (p.lowered d oracle o cs)).toGraph (p.answers d oracle)
      (d.verdicts cs (d.regions p.accessList oracle).2) where
  lists := by
    rw [map_fst_answers]
    exact (Function.lists_iff hrounds).1 hp.lists_accessList
  nodup_nodes := by
    have hmap : (p.answers d oracle).map (·.1.node) = p.accessList.map Access.node := by
      rw [← map_fst_answers p d oracle, List.map_map]
      rfl
    exact hmap ▸ hp.nodup_nodes
  asked_once := by
    rw [d.map_fst_verdicts]
    exact (nodup_pairs (List.Nodup.of_map _ hp.nodup_nodes)).sublist hcs
  asked_iff a b := by
    have hpairs : (a, b) ∈ pairs p.accessList ↔ a ∈ p.accessList ∧ b ∈ p.accessList ∧ a.Ahead b :=
      mem_pairs_of_pairwise hp.lists_accessList.ascending fun _ _ h => Access.Ahead.asymm h
    rw [d.map_fst_verdicts, map_fst_answers, hmem, hpairs, and_assoc, and_assoc,
      ahead_conflicts_iff]
    exact and_congr_right fun ha => and_congr_right fun hb => and_congr_right fun _ =>
      hp.rivals_iff hf hrounds ha hb
  edges_eq := by
    refine (hp.edges_drawn hcs o start).trans ?_
    rw [orders, d.aliasing_eq_verdicts, List.map_map]
    rfl

end Plan

/-- **Questions and orderings are exact.** A log of the questions, kept while a function that passes the
check is lowered, changes nothing, and it holds first the regions of all accesses and then the verdicts
on all rivals. Every pair that is asked about, and so every dependency, leads upwards in the reverse
postorder, both of the function that is given and of the one with preheaders. -/
theorem Session.lower_asks {σ : Type} {s : Session} {f : Function} {d : Disambiguator σ}
    {oracle : σ} {g : Graph} (hf : f.check = .ok ()) (hg : (s.lower f d oracle).result = .ok g) :
    ∃ f' place flow flow', ∃ (regions : List (Access × Option Region))
      (verdicts : List ((Access × Access) × Bool)), f.withPreheaders = .ok f' ∧
      f'.Translates g place ∧
      FlowGraph.ofFunction f = .ok flow ∧ FlowGraph.ofFunction f' = .ok flow' ∧
      (s.lower f d.transcribed (oracle, [])).result = .ok g ∧
      (s.lower f d.transcribed (oracle, [])).oracle.2 =
        regions.map (fun x => .region x.1 x.2) ++ verdicts.map (fun v => .alias v.1.1 v.1.2 v.2) ∧
      (∀ x ∈ regions, x.1.node = place.instr x.1.block x.1.index) ∧
      Inquiry f g regions verdicts ∧
      ∀ v ∈ verdicts, flow.Rises v.1.1 v.1.2 ∧ flow'.Rises v.1.1 v.1.2 := by
  have hwf := Function.check_eq_ok_iff.1 hf
  have hsame := d.follows_transcribed.lower s f (oracle, [])
  obtain ⟨p, cs, hplan, hconflicting, hred, hp, hpre, hrounds, hcs, hmem, hsup, hcomplete, rfl⟩ :=
    lower_plan hwf hg
  have hscope : p.Scope _ (p.lowered d oracle s.options cs) :=
    hp.scope_lowered hcs s.options s.uids.next
  obtain ⟨flow, hflowf, hflow⟩ := FlowGraph.ofFunction_eq hwf.toNumbered
  obtain ⟨flow', hflowf', hflow'⟩ := FlowGraph.ofFunction_eq hp.wellFormed.toNumbered
  have hresult := hsame.1.trans hg
  have hinquiry : Inquiry f _ (p.answers d oracle) (d.verdicts cs (d.regions p.accessList oracle).2) :=
    hp.inquiry hwf hrounds hcs hmem s.options s.uids.next
  refine ⟨p.function, p.placement _, flow, flow', p.answers d oracle,
    d.verdicts cs (d.regions p.accessList oracle).2, hpre, hscope.translates hsup hcomplete, hflowf,
    hflowf', hresult, ?_, fun x hx => ?_, hinquiry, fun v hv => ?_⟩
  · have hlog := hp.lower_oracle hcs s hplan hconflicting hresult
    rw [d.log_regions, d.log_aliasing] at hlog
    rw [hlog]
    rfl
  · exact (hp.places_frame (Plan.fst_mem_of_mem_answers hx) s.uids.next _).node_eq
  · obtain ⟨ha, hb, hahead, hrivals⟩ := (hinquiry.asked_iff _ _).1 (List.mem_map_of_mem hv)
    rw [Plan.map_fst_answers] at ha hb
    obtain ⟨hreach, hreach'⟩ := hp.reachable_of_mem hrounds ha
    have hrivals' := (hp.rivals_iff hwf hrounds ha hb).2 hrivals
    exact ⟨hflow.rises hwf.toNumbered hred hreach hahead hrivals,
      hflow'.rises hp.wellFormed.toNumbered hsup.reducible hreach' hahead hrivals'⟩

/-- A loop that stores to a cell which is read before, in and behind it. -/
def Function.sharedCell : Function where
  name := "cell"
  params := [⟨"again", .int .w1⟩, ⟨"p", .ptr⟩]
  globals := []
  blocks := [
    ⟨0, "entry", [.store (.arg 1) (.arg 1), .load 0 .ptr (.arg 1)], .jump 1⟩,
    ⟨1, "head", [.load 1 .ptr (.arg 1)], .branch (.arg 0) 2 3⟩,
    ⟨2, "body", [.store (.arg 1) (.arg 1)], .jump 1⟩,
    ⟨3, "exit", [.load 2 .ptr (.arg 1)], .ret none⟩]

/-- Says yes to every other question. -/
def Disambiguator.fickle : Disambiguator Bool where
  region _ s := (some 0, s)
  mayAlias _ _ s := (s, !s)

/-- There are five accesses. Six of their pairs are asked about: loads are no rivals, and the store in
the loop gets to the load behind it by the back edge only. -/
theorem Session.lower_asks_sharedCell : Function.sharedCell.check = .ok () ∧
    ∃ g, (({} : Session).lower Function.sharedCell .fickle true).result = .ok g ∧
      (g.edgesOfKind .dependency).length = 3 ∧
      ∃ regions verdicts, Inquiry .sharedCell g regions verdicts ∧
        regions.length + verdicts.length = 11 := by
  have hf : Function.sharedCell.check = .ok () := by decide
  have hedges : (({} : Session).lower Function.sharedCell .fickle true).result.toOption.map
      (fun g => (g.edgesOfKind .dependency).length) = some 3 := by
    decide +kernel
  have hlength : (({} : Session).lower Function.sharedCell Disambiguator.fickle.transcribed
      (true, [])).oracle.2.length = 11 := by
    decide +kernel
  cases hg : (({} : Session).lower Function.sharedCell .fickle true).result with
  | error e =>
    rw [hg] at hedges
    cases hedges
  | ok g =>
    rw [hg] at hedges
    obtain ⟨-, -, -, -, regions, verdicts, -, -, -, -, -, hlog, -, hinquiry, -⟩ := lower_asks hf hg
    rw [hlog, List.length_append, List.length_map, List.length_map] at hlength
    exact ⟨hf, g, rfl, Option.some.inj hedges, regions, verdicts, hinquiry, hlength⟩

end Dataflow
