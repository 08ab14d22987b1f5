import Dataflow.Proofs.Lower.Accepted
import Dataflow.Proofs.Lower.Supplied

/-!
# The conditions of lowering, in terms of the function

What the plan of a function is checked for, said about the function that is given: it is
`Function.Lowerable`, the accesses are its loads and stores in declaration order (`Function.Lists`),
and its loops are as ambiguous as those of the plan.
-/

namespace Dataflow

open Relation

/-- The accesses are the loads and stores of the reachable blocks, in declaration order. -/
structure Function.Lists (f : Function) (as : List Access) : Prop where
  ascending : as.Pairwise fun a b => a.block < b.block ∨ a.block = b.block ∧ a.index < b.index
  mem_iff : ∀ kind b k addr, (∃ node, ⟨kind, node, b, k, addr⟩ ∈ as) ↔
    f.Reachable b ∧ f.HasAccess kind b k addr

theorem Function.lists_iff {f f' : Function} (hr : ReflTransGen Round f f') {as : List Access} :
    f'.Lists as ↔ f.Lists as := by
  constructor
  all_goals
    refine fun h => ⟨h.ascending, fun kind b k addr => ?_⟩
    rw [h.mem_iff, hasAccess_iff hr]

namespace Plan

variable {f : Function} {p : Plan}

/-! ## The plan of a function -/

/-- Once the preheaders are there, nothing can prevent the plan. -/
theorem exists_of_withPreheaders {f' : Function} (h : f.withPreheaders = .ok f')
    (hf' : f'.WellFormed) : ∃ p, ofFunction f = .ok p ∧ p.Sound ∧ p.function = f' := by
  obtain ⟨g, hgf, hg⟩ := FlowGraph.ofFunction_eq hf'.toNumbered
  refine ⟨⟨f', g, g.loops⟩, ?_, ⟨hf', hg, rfl⟩, rfl⟩
  rw [ofFunction, h, ok_bind, hgf, ok_bind]
  rfl

/-- A function has a plan, unless its identifiers do not suffice for preheaders. -/
theorem ofFunction_cases (hf : f.WellFormed) :
    (ofFunction f = .error .overflow ∧ ∃ id ∈ f.results, idLimit ≤ id + f.phiCount) ∨
      ∃ p, ofFunction f = .ok p ∧ p.Sound ∧ f.withPreheaders = .ok p.function ∧
        ReflTransGen Function.Round f p.function ∧
        (Flow.Reducible f.Edge Function.entry → p.function.SingleEntry) ∧
        (¬ Flow.Reducible f.Edge Function.entry → p.function = f) := by
  rcases Function.withPreheaders_cases hf with ⟨h, hshort⟩ | ⟨f', h, hrounds, hsingle, hsame⟩
  · exact .inl ⟨by rw [ofFunction, h, error_bind], hshort⟩
  · obtain ⟨p, hplan, hp, rfl⟩ := exists_of_withPreheaders h (Function.wellFormed_of_rounds hf hrounds)
    exact .inr ⟨p, hplan, hp, h, hrounds, hsingle, hsame⟩

/-! ## What is read -/

theorem find?_fst_eq {α β : Type} [DecidableEq α] {xs : List (α × β)} (hnd : (xs.map (·.1)).Nodup)
    {a : α} {b : β} (h : (a, b) ∈ xs) : xs.find? (·.1 = a) = some (a, b) := by
  induction xs with
  | nil => cases h
  | cons x xs ih =>
    rw [List.map_cons, List.nodup_cons] at hnd
    rcases List.mem_cons.1 h with rfl | h
    · simp
    · have hne : x.1 ≠ a := fun hxa => hnd.1 (hxa ▸ List.mem_map_of_mem h)
      rw [List.find?_cons_of_neg (by simpa using hne), ih hnd.2 h]

theorem mem_of_find?_fst {α β : Type} [DecidableEq α] {xs : List (α × β)} {a : α} {e : α × β}
    (h : xs.find? (·.1 = a) = some e) : (a, e.2) ∈ xs := by
  have hfst := List.find?_some h
  rw [← of_decide_eq_true hfst]
  exact List.mem_of_find?_eq_some h

section
variable (hp : p.Sound)
include hp

theorem Sound.known_inst {id : InstId} : p.Known (.inst id) ↔ p.function.Live id := by
  rw [Known, definition?, List.find?_isSome]
  constructor
  · rintro ⟨l, hl, hprod⟩
    obtain ⟨b, k, i, rfl, hi, hid⟩ := produces_iff.1 hprod
    obtain ⟨c, hc, hi⟩ := Option.bind_eq_some_iff.1 hi
    exact ⟨b, c, hc, (hp.mem_baseLabels.1 hl).1,
      List.mem_filterMap.2 ⟨i, List.mem_of_getElem? hi, hid⟩⟩
  · rintro ⟨b, c, hc, hr, hid⟩
    obtain ⟨i, hi, hid⟩ := List.mem_filterMap.1 hid
    obtain ⟨k, hk⟩ := List.mem_iff_getElem?.1 hi
    have hinstr : p.instr? b k = some i := by rw [instr?, hc, Option.bind_some, hk]
    exact ⟨.instr b k, hp.mem_baseLabels.2 ⟨hr, i, hinstr⟩,
      produces_iff.2 ⟨b, k, i, rfl, hinstr, hid⟩⟩

/-- An instruction is fed what it reads from reachable blocks. -/
theorem Sound.mem_reads {b : Block} (hb : b ∈ p.blocks) {i : Instr} (hi : i ∈ b.body) {v : Value} :
    v ∈ p.reads b.id i ↔ p.function.Reads v i := by
  cases i with
  | phi dest ty incoming =>
    obtain ⟨hnd, hentries⟩ := hp.wellFormed.entries b (hp.mem_blocks_function hb) hi
    have hpred : ∀ {u}, u ∈ p.flow.preds b.id ↔ p.function.Reachable u ∧ p.function.Edge u b.id :=
      hp.describes.mem_preds hp.wellFormed.toNumbered
    simp only [reads, List.mem_filterMap, Option.map_eq_some_iff]
    constructor
    · rintro ⟨u, hu, e, he, rfl⟩
      exact ⟨u, (hpred.1 hu).1, mem_of_find?_fst he⟩
    · rintro ⟨u, hr, huv⟩
      exact ⟨u, hpred.2 ⟨hr, (hentries u).1 (List.mem_map_of_mem huv)⟩, (u, v),
        find?_fst_eq hnd huv, rfl⟩
  | _ => exact Iff.rfl

theorem Sound.complete_iff : p.Complete ↔ p.function.Supplied := by
  constructor
  · rintro hcomplete b c hc hr id (⟨i, hi, hread⟩ | hread)
    all_goals
      obtain ⟨b, hb, rfl⟩ := hp.exists_block hr
      obtain rfl := Option.some.inj (hc.symm.trans (hp.mem_blocks.1 hb).1)
    · exact hp.known_inst.1 ((hcomplete c hb).1 i hi _ ((hp.mem_reads hb hi).2 hread))
    · exact hp.known_inst.1 ((hcomplete c hb).2 _ hread)
  · intro hsupplied b hb
    obtain ⟨hget, hr⟩ := hp.mem_blocks.1 hb
    refine ⟨fun i hi v hv => ?_, fun v hv => ?_⟩
    · cases v with
      | inst id =>
        exact hp.known_inst.2 (hsupplied b.id b hget hr id (.inl ⟨i, hi, (hp.mem_reads hb hi).1 hv⟩))
      | _ => trivial
    · cases v with
      | inst id => exact hp.known_inst.2 (hsupplied b.id b hget hr id (.inr hv))
      | _ => trivial

theorem Sound.lowerable_iff : p.Supported ∧ p.Complete ↔ p.function.Lowerable := by
  rw [hp.complete_iff]
  exact ⟨fun h => ⟨h.1.entry, h.1.reducible, h.2⟩, fun h => ⟨⟨h.entry_plain, h.reducible⟩, h.supplied⟩⟩

/-! ## Loops -/

theorem Sound.ambiguous_iff {o : Options} :
    p.Ambiguous o ↔ ¬ (o.mergeLatches = true ∨ p.function.SingleLatch) := by
  have hlatch : ∀ {u h}, u ∈ p.flow.latches h ↔
      Flow.IsBack p.function.Edge Function.entry u h :=
    hp.describes.mem_latches hp.wellFormed.toNumbered
  rw [not_or, Bool.not_eq_true]
  refine and_congr_right fun _ => ?_
  constructor
  · rintro ⟨h, hlen⟩ hsingle
    have hnd : (p.flow.latches h).Nodup := (hp.describes.nodup_preds h).filter _
    obtain ⟨u, v, hsub, hne⟩ : ∃ u v, [u, v].Sublist (p.flow.latches h) ∧ u ≠ v := by
      match hl : p.flow.latches h, hlen with
      | u :: v :: rest, _ =>
        rw [hl] at hnd
        exact ⟨u, v, ((List.nil_sublist rest).cons_cons v).cons_cons u, by
          rintro rfl
          simp at hnd⟩
    exact hne (hsingle h u v (hlatch.1 (hsub.subset (by simp))) (hlatch.1 (hsub.subset (by simp))))
  · intro hmany
    simp only [Function.SingleLatch, not_forall] at hmany
    obtain ⟨h, u, v, hu, hv, hne⟩ := hmany
    have hnd : [u, v].Nodup := by simpa using hne
    have hsub : [u, v] ⊆ p.flow.latches h := by simp [hlatch.2 hu, hlatch.2 hv]
    exact ⟨h, (hnd.subperm hsub).length_le⟩

/-! ## Accesses -/

omit hp in
theorem access?_eq_some {q : Placed} {a : Access} : q.access? = some a ↔
    q.instr.access? = some (a.kind, a.addr) ∧ a.node = q.node ∧ a.block = q.block ∧
      a.index = q.index := by
  obtain ⟨b, k, i, n⟩ := q
  obtain ⟨kind, node, block, index, addr⟩ := a
  cases i with
  | load dest ty addr' => simp [Placed.access?, Instr.access?]; grind
  | store addr' value => simp [Placed.access?, Instr.access?]; grind
  | _ => simp [Placed.access?, Instr.access?]

theorem Sound.pairwise_blocks : p.blocks.Pairwise fun b c => b.id < c.id := by
  refine List.pairwise_map.1 ?_
  rw [hp.ids_blocks]
  exact List.pairwise_lt_range.filter _

theorem Sound.lists_accessList : p.function.Lists p.accessList := by
  constructor
  · have hplaced : (p.blocks.flatMap (placedIn (p.frame 0 []))).Pairwise fun q r =>
        q.block < r.block ∨ q.block = r.block ∧ q.index < r.index := by
      refine List.pairwise_flatMap.2 ⟨fun b _ => ?_, hp.pairwise_blocks.imp fun {b c} hlt => ?_⟩
      · have hlt : (b.body.zipIdx.map Prod.snd).Pairwise (· < ·) := by
          rw [List.zipIdx_map_snd]
          exact List.pairwise_lt_range'
        exact List.pairwise_map.2 ((List.pairwise_map.1 hlt).imp fun h => .inr ⟨rfl, h⟩)
      · intro q hq r hr
        obtain ⟨i, -, rfl⟩ := List.mem_map.1 hq
        obtain ⟨j, -, rfl⟩ := List.mem_map.1 hr
        exact .inl hlt
    refine List.pairwise_filterMap.2 (hplaced.imp fun {q r} h a ha b hb => ?_)
    obtain ⟨-, -, hab, hak⟩ := access?_eq_some.1 ha
    obtain ⟨-, -, hbb, hbk⟩ := access?_eq_some.1 hb
    rwa [hab, hak, hbb, hbk]
  · intro kind b k addr
    simp only [accessList, accesses, List.mem_filterMap, List.mem_flatMap, placedIn, List.mem_map,
      Prod.exists, List.mem_zipIdx_iff_getElem?]
    constructor
    · rintro ⟨node, _, ⟨c, hc, i, n, hi, rfl⟩, haccess⟩
      obtain ⟨haccess, -, hb, hk⟩ := access?_eq_some.1 haccess
      cases hb
      cases hk
      obtain ⟨hget, hr⟩ := hp.mem_blocks.1 hc
      exact ⟨hr, c, i, hget, hi, haccess⟩
    · rintro ⟨hr, c, i, hc, hi, haccess⟩
      obtain ⟨b, hb, rfl⟩ := hp.exists_block hr
      obtain rfl := Option.some.inj (hc.symm.trans (hp.mem_blocks.1 hb).1)
      exact ⟨_, _, ⟨c, hb, i, k, hi, rfl⟩, access?_eq_some.2 ⟨haccess, rfl, rfl, rfl⟩⟩

end

end Plan

end Dataflow
