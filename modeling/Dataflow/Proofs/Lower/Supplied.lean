import Dataflow.Lower.Access
import Dataflow.Proofs.Lower.Rounds

/-!
# What a function needs to be lowered, before and after preheader insertion

The conditions of lowering are about the function that is given, but lowering looks at the function
with preheaders. The two agree on all conditions: on whether the entry has phis, on whether reachable
blocks miss a result (`Round.supplied_iff`), on the back edges, and on where the loads and stores of
reachable blocks stand (`Round.hasAccess_iff`).
-/

namespace Dataflow

open Relation

/-- What an instruction does to memory, and at which address. -/
def Instr.access? : Instr → Option (AccessKind × Value)
  | .load _ _ addr => some (.load, addr)
  | .store addr _ => some (.store, addr)
  | _ => none

namespace Function

/-! ## Conditions -/

/-- The identifier is the result of an instruction of a reachable block. -/
def Live (f : Function) (id : InstId) : Prop :=
  ∃ b c, f.blocks[b]? = some c ∧ f.Reachable b ∧ id ∈ blockResults c

/-- The value is read by an instruction of a reachable block, in a phi for a reachable
predecessor. -/
def Reads (f : Function) (v : Value) : Instr → Prop
  | .phi _ _ incoming => ∃ u, f.Reachable u ∧ (u, v) ∈ incoming
  | i => v ∈ i.operands

/-- Results that reachable blocks read are defined in reachable blocks. -/
def Supplied (f : Function) : Prop :=
  ∀ b c, f.blocks[b]? = some c → f.Reachable b → ∀ id,
    (∃ i ∈ c.body, f.Reads (.inst id) i) ∨ .inst id ∈ c.exit.operands → f.Live id

/-- The entry has no phi, all cycles go through a back edge, and no result is missing. -/
structure Lowerable (f : Function) : Prop where
  entry_plain : ∀ {b}, f.blocks[entry]? = some b → b.phis = []
  reducible : Flow.Reducible f.Edge entry
  supplied : f.Supplied

/-- No loop has two back edges. -/
def SingleLatch (f : Function) : Prop :=
  ∀ h u v, Flow.IsBack f.Edge entry u h → Flow.IsBack f.Edge entry v h → u = v

/-- A block has a load or store at a position. -/
def HasAccess (f : Function) (kind : AccessKind) (b : BlockId) (k : Nat) (addr : Value) : Prop :=
  ∃ c i, f.blocks[b]? = some c ∧ c.body[k]? = some i ∧ i.access? = some (kind, addr)

/-! ## One round -/

section
variable {f : Function} {header : BlockId} {entries : List BlockId} {fresh : InstId} {h : Block}
  (hE : f.Entered header entries fresh h)
include hE

theorem Entered.reachable_header : f.Reachable header := by
  obtain ⟨u, hu⟩ := List.exists_mem_of_ne_nil _ hE.entered
  have := hE.mem_entries.1 hu
  exact this.reaches.tail this.edge

theorem Entered.reachable_old {b : BlockId} {c : Block} (hb : f.blocks[b]? = some c) :
    (f.withPreheader header entries fresh h).Reachable b ↔ f.Reachable b :=
  hE.reachable_iff (Nat.ne_of_lt (List.getElem?_eq_some_iff.1 hb).1)

theorem Entered.live_iff {id : InstId} : (f.withPreheader header entries fresh h).Live id ↔
    f.Live id ∨ id ∈ List.range' fresh h.phis.length := by
  constructor
  · rintro ⟨b, c', hc', hr, hid⟩
    rcases withPreheader_getElem?.1 hc' with ⟨c, hc, rfl⟩ | ⟨rfl, rfl⟩
    · rw [blockResults_reroute] at hid
      exact .inl ⟨b, c, hc, (hE.reachable_old hc).1 hr, hid⟩
    · rw [blockResults_preheaderBlock] at hid
      exact .inr hid
  · rintro (⟨b, c, hc, hr, hid⟩ | hid)
    · refine ⟨b, _, withPreheader_old hc, (hE.reachable_old hc).2 hr, ?_⟩
      rwa [blockResults_reroute]
    · refine ⟨_, _, withPreheader_new, hE.reachable_new, ?_⟩
      rwa [blockResults_preheaderBlock]

/-- A predecessor that a phi of the old function names is old. -/
theorem Entered.reachable_incoming {b : BlockId} {c : Block} (hc : f.blocks[b]? = some c)
    {dest : InstId} {ty : Ty} {incoming : List (BlockId × Value)}
    (hi : .phi dest ty incoming ∈ c.body) {u : BlockId} {v : Value} (hu : (u, v) ∈ incoming) :
    (f.withPreheader header entries fresh h).Reachable u ↔ f.Reachable u := by
  have hedge := ((hE.wellFormed.entries c (List.mem_of_getElem? hc) hi).2 u).1
    (List.mem_map_of_mem hu)
  exact hE.reachable_iff (Nat.ne_of_lt (hE.wellFormed.edge_lt hedge).1)

theorem Entered.reads_iff {b : BlockId} {c : Block} (hc : f.blocks[b]? = some c) {i : Instr}
    (hi : i ∈ c.body) {v : Value} :
    (f.withPreheader header entries fresh h).Reads v i ↔ f.Reads v i := by
  cases i with
  | phi dest ty incoming =>
    refine exists_congr fun u => and_congr_left fun hu => hE.reachable_incoming hc hi hu
  | _ => exact Iff.rfl

theorem Entered.supplied' (hs : f.Supplied) : (f.withPreheader header entries fresh h).Supplied := by
  intro b c' hc' hr id hread
  rw [hE.live_iff]
  rcases hread with ⟨i, hi, hread⟩ | hread
  · cases hE.rerouted hc' hi with
    | @old _ c _ hc hmem _ =>
      have hread := (hE.reads_iff hc hmem).1 hread
      exact .inl (hs b c hc ((hE.reachable_old hc).1 hr) id (.inl ⟨i, hmem, hread⟩))
    | @inner dest k ty incoming hmem hk =>
      obtain ⟨u, hu, huv⟩ := hread
      rcases List.mem_append.1 huv with huv | huv
      · have huv := List.mem_of_mem_filter huv
        have hu := (hE.reachable_incoming hE.header_eq hmem huv).1 hu
        exact .inl (hs _ h hE.header_eq hE.reachable_header id (.inl ⟨_, hmem, u, hu, huv⟩))
      · cases List.mem_singleton.1 huv
        exact .inr hk
    | @outer dest k ty incoming hmem hk =>
      obtain ⟨u, hu, huv⟩ := hread
      have huv := List.mem_of_mem_filter huv
      have hu := (hE.reachable_incoming hE.header_eq hmem huv).1 hu
      exact .inl (hs _ h hE.header_eq hE.reachable_header id (.inl ⟨_, hmem, u, hu, huv⟩))
  · rcases withPreheader_getElem?.1 hc' with ⟨c, hc, rfl⟩ | ⟨rfl, rfl⟩
    · rw [reroute_exit_operands] at hread
      exact .inl (hs b c hc ((hE.reachable_old hc).1 hr) id (.inr hread))
    · cases hread

omit hE in
/-- Every instruction of the old function is one of the new function, phis of the header apart. -/
theorem mem_reroute {b : BlockId} {c : Block} {i : Instr} (hi : i ∈ c.body)
    (hphi : b = header → i.isPhi = false) :
    i ∈ (reroute header f.blocks.length entries fresh b c).body := by
  rw [reroute_body]
  split
  · rename_i hb
    rw [← c.phis_append] at hi
    refine List.mem_append_right _ ((List.mem_append.1 hi).resolve_left fun hmem => ?_)
    have := isPhi_of_mem_phis hmem
    rw [hphi hb] at this
    cases this
  · exact hi

/-- Every entry of a phi of the header is an entry of one of its two parts. -/
theorem Entered.reads_header {dest : InstId} {ty : Ty} {incoming : List (BlockId × Value)}
    (hi : .phi dest ty incoming ∈ h.body) {u : BlockId} (hu : f.Reachable u) {v : Value}
    (huv : (u, v) ∈ incoming) :
    ∃ b c i, (f.withPreheader header entries fresh h).blocks[b]? = some c ∧
      (f.withPreheader header entries fresh h).Reachable b ∧ i ∈ c.body ∧
      (f.withPreheader header entries fresh h).Reads v i := by
  have hu' := (hE.reachable_incoming hE.header_eq hi huv).2 hu
  have hphi : .phi dest ty incoming ∈ h.phis := by
    rw [← h.phis_append] at hi
    refine (List.mem_append.1 hi).resolve_right fun hmem => ?_
    cases hE.wellFormed.phis_first h (List.mem_of_getElem? hE.header_eq) _ hmem
  obtain ⟨k, hk⟩ : ∃ k, (Instr.phi dest ty incoming, k) ∈ h.phis.zipIdx fresh := by
    rw [← List.zipIdx_map_fst fresh h.phis] at hphi
    obtain ⟨⟨_, k⟩, hk, rfl⟩ := List.mem_map.1 hphi
    exact ⟨k, hk⟩
  by_cases hentry : u ∈ entries
  · refine ⟨_, _, _, withPreheader_new, hE.reachable_new, List.mem_map_of_mem hk, u, hu', ?_⟩
    exact List.mem_filter.2 ⟨huv, decide_eq_true hentry⟩
  · refine ⟨_, _, innerPhi entries f.blocks.length (.phi dest ty incoming, k),
      withPreheader_old hE.header_eq, (hE.reachable_old hE.header_eq).2 hE.reachable_header, ?_, u,
      hu', ?_⟩
    · rw [reroute_body, if_pos rfl]
      exact List.mem_append_left _ (List.mem_map_of_mem hk)
    · exact List.mem_append_left _ (List.mem_filter.2 ⟨huv, decide_eq_true hentry⟩)

theorem Entered.supplied_of (hs : (f.withPreheader header entries fresh h).Supplied) :
    f.Supplied := by
  intro b c hc hr id hread
  have hr' := (hE.reachable_old hc).2 hr
  have hmem := List.mem_of_getElem? hc
  -- the result is there in the old function, so it is not new
  have hold : (f.withPreheader header entries fresh h).Live id → f.Defines (.inst id) →
      f.Live id := by
    intro hlive hdef
    refine (hE.live_iff.1 hlive).resolve_right fun hnew => ?_
    exact Nat.lt_irrefl _ (Nat.lt_of_lt_of_le (hE.lt_fresh id hdef) (List.mem_range'_1.1 hnew).1)
  rcases hread with ⟨i, hi, hread⟩ | hread
  · have hdef : f.Defines (.inst id) := by
      refine hE.wellFormed.operands c hmem i hi _ ?_
      cases i with
      | phi dest ty incoming =>
        obtain ⟨u, -, huv⟩ := hread
        exact List.mem_map_of_mem huv
      | _ => exact hread
    refine hold ?_ hdef
    by_cases hphi : b = header → i.isPhi = false
    · exact hs b _ (withPreheader_old hc) hr' id
        (.inl ⟨i, mem_reroute hi hphi, (hE.reads_iff hc hi).2 hread⟩)
    · simp only [Classical.not_imp, Bool.not_eq_false] at hphi
      obtain ⟨rfl, hphi⟩ := hphi
      obtain rfl := hE.header_eq_of hc
      cases i with
      | phi dest ty incoming =>
        obtain ⟨u, hu, huv⟩ := hread
        obtain ⟨b', c', j, hc', hr', hj, hread⟩ := hE.reads_header hi hu huv
        exact hs b' c' hc' hr' id (.inl ⟨j, hj, hread⟩)
      | _ => cases hphi
  · refine hold ?_ (hE.wellFormed.exit_operands c hmem _ hread)
    refine hs b _ (withPreheader_old hc) hr' id (.inr ?_)
    rwa [reroute_exit_operands]

/-! ## Accesses -/

omit hE in
/-- An instruction that is no phi stays where it is. -/
theorem getElem?_reroute {b : BlockId} {c : Block} {k : Nat} {i : Instr} (hi : i.isPhi = false) :
    (reroute header f.blocks.length entries fresh b c).body[k]? = some i ↔ c.body[k]? = some i := by
  rw [reroute_body]
  split
  · have hlen : ((c.phis.zipIdx fresh).map (innerPhi entries f.blocks.length)).length =
        c.phis.length := by simp
    conv_rhs => rw [← c.phis_append]
    rw [List.getElem?_append, List.getElem?_append, hlen]
    split
    · rename_i hk
      refine iff_of_false (fun h => ?_) fun h => ?_
      · obtain ⟨⟨q, n⟩, hq, rfl⟩ := List.mem_map.1 (List.mem_of_getElem? h)
        rw [isPhi_innerPhi, isPhi_of_mem_phis (List.fst_mem_of_mem_zipIdx hq)] at hi
        cases hi
      · rw [isPhi_of_mem_phis (List.mem_of_getElem? h)] at hi
        cases hi
    · rfl
  · rfl

omit hE in
theorem isPhi_of_access? {i : Instr} {access : AccessKind × Value} (h : i.access? = some access) :
    i.isPhi = false := by
  cases i with
  | phi _ _ _ => cases h
  | _ => rfl

theorem Entered.hasAccess_iff {kind : AccessKind} {b : BlockId} {k : Nat} {addr : Value} :
    (f.withPreheader header entries fresh h).Reachable b ∧
        (f.withPreheader header entries fresh h).HasAccess kind b k addr ↔
      f.Reachable b ∧ f.HasAccess kind b k addr := by
  constructor
  · rintro ⟨hr, c', i, hc', hi, haccess⟩
    have hphi := isPhi_of_access? haccess
    rcases withPreheader_getElem?.1 hc' with ⟨c, hc, rfl⟩ | ⟨rfl, rfl⟩
    · exact ⟨(hE.reachable_old hc).1 hr, c, i, hc, (getElem?_reroute hphi).1 hi, haccess⟩
    · obtain ⟨⟨q, n⟩, hq, rfl⟩ := List.mem_map.1 (List.mem_of_getElem? hi)
      rw [isPhi_outerPhi, isPhi_of_mem_phis (List.fst_mem_of_mem_zipIdx hq)] at hphi
      cases hphi
  · rintro ⟨hr, c, i, hc, hi, haccess⟩
    exact ⟨(hE.reachable_old hc).2 hr, _, i, withPreheader_old hc,
      (getElem?_reroute (isPhi_of_access? haccess)).2 hi, haccess⟩

end

/-! ## All rounds -/

section
variable {f f' : Function}

theorem Round.supplied_iff (hr : Round f f') : f'.Supplied ↔ f.Supplied := by
  obtain ⟨header, entries, fresh, h, hE, rfl⟩ := hr
  exact ⟨hE.supplied_of, hE.supplied'⟩

theorem Round.hasAccess_iff (hr : Round f f') {kind : AccessKind} {b : BlockId} {k : Nat}
    {addr : Value} :
    f'.Reachable b ∧ f'.HasAccess kind b k addr ↔ f.Reachable b ∧ f.HasAccess kind b k addr := by
  obtain ⟨header, entries, fresh, h, hE, rfl⟩ := hr
  exact hE.hasAccess_iff

theorem Round.entry_plain_iff (hr : Round f f') : (∀ {b}, f'.blocks[entry]? = some b → b.phis = []) ↔
    ∀ {b}, f.blocks[entry]? = some b → b.phis = [] := by
  obtain ⟨header, entries, fresh, h, hE, rfl⟩ := hr
  have hphis : ∀ b : Block, (reroute header f.blocks.length entries fresh entry b).phis = b.phis := by
    intro b
    rw [Block.phis, Block.phis, reroute_body, if_neg hE.redirectable.head_ne.symm]
  constructor
  · intro hplain b hb
    rw [← hphis b]
    exact hplain (withPreheader_old hb)
  · intro hplain b' hb'
    rcases withPreheader_getElem?.1 hb' with ⟨b, hb, rfl⟩ | ⟨hentry, -⟩
    · rw [hphis]
      exact hplain hb
    · exact absurd hentry hE.redirectable.root_ne

/-- A function and the function with preheaders can be lowered or not together. -/
theorem lowerable_iff (hr : ReflTransGen Round f f')
    (hred : ¬ Flow.Reducible f.Edge entry → f' = f) : f'.Lowerable ↔ f.Lowerable := by
  by_cases hf : Flow.Reducible f.Edge entry
  · have hf' : Flow.Reducible f'.Edge entry := by
      clear hred
      induction hr with
      | refl => exact hf
      | tail _ hr ih => exact hr.reducible ih
    have hplain := rounds_iff (P := fun f => ∀ {b}, f.blocks[entry]? = some b → b.phis = [])
      Round.entry_plain_iff hr
    have hsupplied := rounds_iff (P := Supplied) Round.supplied_iff hr
    exact ⟨fun h => ⟨hplain.1 h.entry_plain, hf, hsupplied.1 h.supplied⟩,
      fun h => ⟨hplain.2 h.entry_plain, hf', hsupplied.2 h.supplied⟩⟩
  · rw [hred hf]

theorem singleLatch_iff (hr : ReflTransGen Round f f') : f'.SingleLatch ↔ f.SingleLatch :=
  rounds_iff (fun hr => by simp only [SingleLatch, hr.isBack_iff]) hr

theorem hasAccess_iff (hr : ReflTransGen Round f f') {kind : AccessKind} {b : BlockId} {k : Nat}
    {addr : Value} :
    f'.Reachable b ∧ f'.HasAccess kind b k addr ↔ f.Reachable b ∧ f.HasAccess kind b k addr :=
  rounds_iff (P := fun f => f.Reachable b ∧ f.HasAccess kind b k addr) (fun hr => hr.hasAccess_iff) hr

end

end Function

end Dataflow
