import Dataflow.Proofs.Lower.Builds
import Dataflow.Proofs.Lower.Translation
import Dataflow.Proofs.Net.Emission

/-!
# Graphs that share a supply

`Supply.Shared` is the history of a supply: lowerings and nets drawn by hand take their numbers from it,
one after the other, and some of them hand out a graph. Each net takes the numbers from where the supply
stood, whether it comes to anything or not, so the numbers of all nodes of all graphs rise
(`Supply.Shared.issued`), and the nodes have different names.
-/

namespace Dataflow

open Net Relation

/-- What has happened since a supply stood at `first`: the graphs that were handed out, in order, and
where the supply stands now. -/
inductive Supply.Shared (first : Supply) : List Graph → Supply → Prop
  | none : Shared first [] first
  /-- A function is lowered, in whatever way; a failure hands out no graph. -/
  | lower {graphs : List Graph} {s : Session} (h : Shared first graphs s.uids) {σ : Type}
      (f : Function) (d : Disambiguator σ) (oracle : σ) :
      Shared first (graphs ++ (s.lower f d oracle).result.toOption.toList)
        (s.lower f d oracle).session.uids
  /-- A net is drawn by hand and finished. -/
  | draw {graphs : List Graph} {uids : Supply} (h : Shared first graphs uids) {name : String}
      {net : Net} (hstart : Net.start name uids = .ok net) (ops : List Op) {g : Graph} {net' : Net}
      (hfinish : finish (ops.foldl after net) = .ok g net') : Shared first (graphs ++ [g]) net'.uids
  /-- A net is drawn by hand and given up. -/
  | abandon {graphs : List Graph} {uids : Supply} (h : Shared first graphs uids) {name : String}
      {net : Net} (hstart : Net.start name uids = .ok net) (ops : List Op) :
      Shared first graphs (ops.foldl after net).uids

namespace Supply

/-- Numbers that rise and that a supply has left behind. -/
structure Issued (uids : List Uid) (next : Uid) : Prop where
  rising : uids.Pairwise (· < ·)
  lt_next : ∀ uid ∈ uids, uid < next

theorem Issued.mono {uids : List Uid} {next next' : Uid} (h : Issued uids next) (hle : next ≤ next') :
    Issued uids next' :=
  ⟨h.rising, fun uid huid => Nat.lt_of_lt_of_le (h.lt_next uid huid) hle⟩

theorem Issued.append {uids : List Uid} {next : Uid} {net : Net} (h : Issued uids next)
    (hnet : net.Counted next) : Issued (uids ++ net.nodes.map Node.uid) net.uids.next := by
  have hrange : ∀ uid ∈ net.nodes.map Node.uid, next ≤ uid ∧ uid < net.uids.next := by
    intro uid huid
    rw [hnet.uids_eq, List.mem_range'_1] at huid
    rwa [hnet.next_eq]
  refine ⟨List.pairwise_append.2 ⟨h.rising, ?_, fun a ha b hb => ?_⟩, fun uid huid => ?_⟩
  · rw [hnet.uids_eq]
    exact List.pairwise_lt_range'
  · exact Nat.lt_of_lt_of_le (h.lt_next a ha) (hrange b hb).1
  · rcases List.mem_append.1 huid with hold | hnew
    · exact Nat.lt_of_lt_of_le (h.lt_next uid hold) hnet.le_next
    · exact (hrange uid hnew).2

theorem Shared.issued {first : Supply} {graphs : List Graph} {uids : Supply}
    (h : first.Shared graphs uids) :
    Issued (graphs.flatMap fun g => g.nodes.map Node.uid) uids.next := by
  induction h with
  | none => exact ⟨.nil, nofun⟩
  | @lower graphs s _ σ f d oracle ih =>
    rw [List.flatMap_append]
    rcases s.lower_moves f d oracle with ⟨⟨e, he⟩, hsame⟩ | ⟨net, name, start, hstart, hmoves, huids, hg⟩
    · rw [he, hsame]
      exact (List.append_nil _).symm ▸ ih
    · have hnet := counted_of_moves hstart hmoves
      rw [huids]
      cases hresult : (s.lower f d oracle).result with
      | error e => exact (List.append_nil _).symm ▸ ih.mono hnet.le_next
      | ok g =>
        obtain rfl := hg g hresult
        simpa [Except.toOption] using ih.append hnet
  | draw _ hstart ops hfinish ih =>
    obtain ⟨rfl, -⟩ := finish_eq_ok hfinish
    rw [finish_same hfinish, List.flatMap_append]
    simpa using ih.append (counted_foldl_after hstart ops)
  | abandon _ hstart ops ih =>
    exact ih.mono (counted_foldl_after hstart ops).le_next

/-- No two nodes of the graphs that a supply was used for have the same name. -/
theorem Shared.nodup_names {first : Supply} {graphs : List Graph} {uids : Supply}
    (h : first.Shared graphs uids) : (graphs.flatMap fun g => g.nodes.map Node.name).Nodup := by
  have hrising := h.issued.rising
  rw [← List.map_flatMap, List.pairwise_map] at hrising
  rw [← List.map_flatMap, List.Nodup, List.pairwise_map]
  exact hrising.imp fun hlt hname => Nat.ne_of_lt hlt (Node.uid_eq_of_name_eq hname)

end Supply

/-- The edge lines of a listing name the ports of a finished graph, each exactly once: a port is named
if and only if its index is below the length of the port list. In every dialect that has texts for the
graph, the listing consists of a line for each node and a line with the two ports for each edge; the
neutral dialect is one, and in it different ports have different texts. Over all lowerings and all nets
drawn by hand that share a supply, no two nodes of the graphs have the same name. -/
theorem listing_names_ports :
    (∀ {net net' : Net} {g : Graph}, net.Reached → finish net = .ok g net' →
      (∀ p : PortRef,
        g.portRefs.count p = if p.index < (g.ports p.node p.slot).length then 1 else 0) ∧
      (∀ d : Dialect, d.Covers g → ∃ (declare : Node × NodeId → String) (text : PortRef → String),
        (∀ n ∈ g.nodes.zipIdx, d.definition g n.2 n.1 = .ok (declare n)) ∧
        (∀ p : PortRef, p.node < g.nodes.length → d.port g p = .ok (text p)) ∧
        g.listing d = .ok (String.join (g.nodes.zipIdx.map fun n => declare n ++ "\n") ++
          String.join (g.edges.map fun e => text e.source ++ " -> " ++ text e.target ++ "\n"))) ∧
      ∀ format, (Dialect.plain format).Covers g ∧ ∀ (p q : PortRef) (text : String),
        (Dialect.plain format).port g p = .ok text → (Dialect.plain format).port g q = .ok text →
        p = q) ∧
    ∀ {first uids : Supply} {graphs : List Graph}, first.Shared graphs uids →
      (graphs.flatMap fun g => g.nodes.map Node.name).Nodup := by
  refine ⟨fun {net net' g} h hfinish => ?_, fun h => h.nodup_names⟩
  obtain ⟨rfl, haudit⟩ := finish_eq_ok hfinish
  have hstep := h.coherent.inStep
  have hg := hstep.printable h.anchored haudit
  refine ⟨hstep.count_portRefs, fun d hd => ?_, fun format => ?_⟩
  · exact ⟨d.declaration net.toGraph, d.portText net.toGraph, fun n => hd.definition_eq,
      fun p => hd.port_eq, hg.listing_eq_ok hd⟩
  · exact ⟨hg.plain_covers format, fun p q text => Dialect.plain_port_inj h.nodup_uids⟩

/-- A net drawn by hand, and a function that is lowered with the numbers behind it. -/
theorem listing_names_ports_carousel : ∃ g g', finish carousel = .ok g carousel ∧
    (({ uids := carousel.uids } : Session).lower Function.callingJoin .single ()).result = .ok g' ∧
    g.portRefs.count ⟨1, .ctrlIn, 1⟩ = 1 ∧ g.portRefs.count ⟨1, .ctrlIn, 2⟩ = 0 ∧
    ((g.nodes ++ g'.nodes).map Node.name).Nodup := by
  have hfinish : finish carousel = .ok carousel.toGraph carousel := rfl
  have hok : (({ uids := carousel.uids } : Session).lower Function.callingJoin .single
    ()).result.isOk = true := by decide +kernel
  have hdrawn : Supply.Shared ⟨0⟩ [carousel.toGraph] carousel.uids :=
    @Supply.Shared.draw ⟨0⟩ [] ⟨0⟩ .none "carousel" _ rfl _ _ _ hfinish
  have hlowered := @Supply.Shared.lower _ _ { uids := carousel.uids } hdrawn _ Function.callingJoin
    .single ()
  obtain ⟨hcount, -, -⟩ := listing_names_ports.1 carousel_reached hfinish
  have hnames := listing_names_ports.2 hlowered
  cases hg : (({ uids := carousel.uids } : Session).lower Function.callingJoin .single ()).result with
  | error e =>
    rw [hg] at hok
    cases hok
  | ok g' =>
    rw [hg] at hnames
    refine ⟨_, g', hfinish, rfl, ?_, ?_, ?_⟩
    · rw [hcount]
      decide +kernel
    · rw [hcount]
      decide +kernel
    · simpa [Except.toOption] using hnames

end Dataflow
