import Dataflow.Proofs.Lower.Supplied

/-!
# Definitions that come before their uses

`Function.Strict` says that, on the blocks that control can get to, every use of a result is
dominated by its definition: the definition stands earlier in the block of the use or in a block that
strictly dominates it, and a phi reads from a predecessor what is defined in a block that dominates
that predecessor. Preheaders leave this as it is (`strict_of_rounds`).
-/

namespace Dataflow

open Relation

namespace Function

/-- The instruction at a position of a block defines the result. -/
def DefinesAt (f : Function) (id : InstId) (b : BlockId) (k : Nat) : Prop :=
  ∃ c i, f.blocks[b]? = some c ∧ c.body[k]? = some i ∧ i.result? = some id

/-- The result is defined in front of position `k` of block `b`: earlier in the block, or in a block
that strictly dominates it. -/
def Available (f : Function) (id : InstId) (b : BlockId) (k : Nat) : Prop :=
  ∃ c j, f.DefinesAt id c j ∧ (c = b ∧ j < k ∨ c ≠ b ∧ f.Dominates c b)

/-- The result is defined in a block that dominates block `u`. -/
def AvailableAfter (f : Function) (id : InstId) (u : BlockId) : Prop :=
  ∃ c j, f.DefinesAt id c j ∧ f.Dominates c u

theorem Available.after {f : Function} {id : InstId} {b : BlockId} {k : Nat}
    (h : f.Available id b k) (hb : f.Reachable b) : f.AvailableAfter id b := by
  obtain ⟨c, j, hdef, ⟨rfl, -⟩ | ⟨-, hd⟩⟩ := h
  · exact ⟨c, j, hdef, .refl hb⟩
  · exact ⟨c, j, hdef, hd⟩

/-- On the blocks that control can get to, uses are dominated by definitions. -/
structure Strict (f : Function) : Prop where
  uses : ∀ b c, f.blocks[b]? = some c → f.Reachable b → ∀ (k : Nat) i, c.body[k]? = some i →
    i.isPhi = false → ∀ id, .inst id ∈ i.operands → f.Available id b k
  exits : ∀ b c, f.blocks[b]? = some c → f.Reachable b → ∀ id, .inst id ∈ c.exit.operands →
    f.Available id b c.body.length
  entries : ∀ b c, f.blocks[b]? = some c → f.Reachable b → ∀ dest ty incoming,
    .phi dest ty incoming ∈ c.body → ∀ u id, (u, .inst id) ∈ incoming → f.Reachable u →
    f.AvailableAfter id u

/-! ## One round -/

section
variable {f : Function} {header : BlockId} {entries : List BlockId} {fresh : InstId} {h : Block}

theorem DefinesAt.withPreheader {id : InstId} {b : BlockId} {k : Nat} (hdef : f.DefinesAt id b k) :
    (f.withPreheader header entries fresh h).DefinesAt id b k := by
  obtain ⟨c, i, hc, hi, hid⟩ := hdef
  have hmap : (c.body.map Instr.result?)[k]? = some (some id) := by
    rw [List.getElem?_map, hi, Option.map_some, hid]
  rw [← map_result?_reroute, List.getElem?_map] at hmap
  obtain ⟨i', hi', hid'⟩ := Option.map_eq_some_iff.1 hmap
  exact ⟨_, i', withPreheader_old hc, hi', hid'⟩

/-- The preheader defines the fresh identifiers. -/
theorem definesAt_fresh {id : InstId} (hid : id ∈ List.range' fresh h.phis.length) :
    ∃ k, (f.withPreheader header entries fresh h).DefinesAt id f.blocks.length k := by
  have hresults : blockResults (preheaderBlock header f.blocks.length entries fresh h) =
      List.range' fresh h.phis.length := blockResults_preheaderBlock
  rw [← hresults] at hid
  obtain ⟨i, hi, hres⟩ := List.mem_filterMap.1 hid
  obtain ⟨k, hk⟩ := List.mem_iff_getElem?.1 hi
  exact ⟨k, _, i, withPreheader_new, hk, hres⟩

variable (hE : f.Entered header entries fresh h)
include hE

theorem Entered.dominates {a b : BlockId} (hd : f.Dominates a b) :
    (f.withPreheader header entries fresh h).Dominates a b := by
  have hold : ∀ {c}, f.Reachable c → c ≠ f.blocks.length := fun hc =>
    Nat.ne_of_lt (hE.wellFormed.reachable_lt hc)
  unfold Dominates
  rw [hE.edge_eq]
  exact (hE.redirectable.dominates_iff_old (hold hd.reaches_left) (hold hd.reaches)).2 hd

theorem Entered.available {id : InstId} {b : BlockId} {k : Nat} (ha : f.Available id b k) :
    (f.withPreheader header entries fresh h).Available id b k := by
  obtain ⟨c, j, hdef, hpos⟩ := ha
  exact ⟨c, j, hdef.withPreheader, hpos.imp_right fun ⟨hne, hd⟩ => ⟨hne, hE.dominates hd⟩⟩

theorem Entered.availableAfter {id : InstId} {u : BlockId} (ha : f.AvailableAfter id u) :
    (f.withPreheader header entries fresh h).AvailableAfter id u := by
  obtain ⟨c, j, hdef, hd⟩ := ha
  exact ⟨c, j, hdef.withPreheader, hE.dominates hd⟩

theorem Entered.strict (hs : f.Strict) : (f.withPreheader header entries fresh h).Strict where
  uses b c' hc' hr k i hi hphi id hid := by
    rcases withPreheader_getElem?.1 hc' with ⟨c, hc, rfl⟩ | ⟨rfl, rfl⟩
    · have hr := (hE.reachable_old hc).1 hr
      exact hE.available (hs.uses b c hc hr k i ((getElem?_reroute hphi).1 hi) hphi id hid)
    · obtain ⟨⟨q, n⟩, hq, rfl⟩ := List.mem_map.1 (List.mem_of_getElem? hi)
      rw [isPhi_outerPhi, isPhi_of_mem_phis (List.fst_mem_of_mem_zipIdx hq)] at hphi
      cases hphi
  exits b c' hc' hr id hid := by
    rcases withPreheader_getElem?.1 hc' with ⟨c, hc, rfl⟩ | ⟨rfl, rfl⟩
    · rw [reroute_exit_operands] at hid
      have hlen : (reroute header f.blocks.length entries fresh b c).body.length = c.body.length := by
        rw [← List.length_map Instr.result?, map_result?_reroute, List.length_map]
      rw [hlen]
      exact hE.available (hs.exits b c hc ((hE.reachable_old hc).1 hr) id hid)
    · cases hid
  entries b c' hc' hr dest' ty' incoming' hi u id hu hru := by
    -- an entry of the old function comes from an old predecessor, and its definition stays
    have hold : ∀ {b c dest ty incoming}, f.blocks[b]? = some c → f.Reachable b →
        .phi dest ty incoming ∈ c.body → (u, .inst id) ∈ incoming →
        (f.withPreheader header entries fresh h).AvailableAfter id u := by
      intro b c dest ty incoming hc hr hi hu
      have hru := (hE.reachable_incoming hc hi hu).1 hru
      exact hE.availableAfter (hs.entries b c hc hr dest ty incoming hi u id hu hru)
    cases hE.rerouted hc' hi with
    | old hc hmem _ => exact hold hc ((hE.reachable_old hc).1 hr) hmem hu
    | inner hmem hk =>
      rcases List.mem_append.1 hu with hu | hu
      · exact hold hE.header_eq hE.reachable_header hmem (List.mem_of_mem_filter hu)
      · cases List.mem_singleton.1 hu
        obtain ⟨k, hdef⟩ := definesAt_fresh hk
        exact ⟨_, k, hdef, .refl hru⟩
    | outer hmem _ =>
      exact hold hE.header_eq hE.reachable_header hmem (List.mem_of_mem_filter hu)

end

theorem strict_of_rounds {f f' : Function} (hr : ReflTransGen Round f f') (hs : f.Strict) :
    f'.Strict := by
  induction hr with
  | refl => exact hs
  | tail _ hround ih =>
    obtain ⟨header, entries, fresh, h, hE, rfl⟩ := hround
    exact hE.strict ih

end Function

end Dataflow
