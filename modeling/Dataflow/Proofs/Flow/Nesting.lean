import Dataflow.Proofs.Flow.Loop
import Mathlib.Data.List.Perm.Subperm

/-!
# Loops within loops

`Flow.InLoop` says what the natural loop at a header is without computing it: the header and whatever
gets to a latch without going through the header. Two loops that share a block are one inside the
other (`InLoop.nested`), because what dominates a block is in a chain (`Dominates.total`).

`FlowGraph.loopBody` computes that loop (`Describes.mem_loopBody`), so what is listed nests as well
(`Describes.nested`), and as loops are listed by falling size, the last one around a block is inside all
others around it (`Describes.innermost`).
-/

namespace Dataflow

open Relation

namespace Flow

variable {E : BlockId → BlockId → Prop} {r a b c h h' u v x : BlockId}

/-- Of two blocks that dominate a third one, one dominates the other. -/
theorem Dominates.total (ha : Dominates E r a b) (hc : Dominates E r c b) :
    Dominates E r a c ∨ Dominates E r c a := by
  by_contra! hnot
  obtain ⟨hac, hca⟩ := hnot
  rw [dominates_iff] at hac hca
  push Not at hac hca
  obtain ⟨hra, hskip⟩ := hac hc.reaches_left
  obtain ⟨hrc, hskip'⟩ := hca ha.reaches_left
  -- whatever is reached can be reached around one of the two
  have haround : ∀ {v}, ReflTransGen E r v →
      ReflTransGen (Skip E a) r v ∨ ReflTransGen (Skip E c) r v := by
    intro v hv
    induction hv with
    | refl => exact .inl .refl
    | @tail v w _ he ih =>
      rcases ih with hv | hv
      · by_cases hwa : w = a
        · exact .inr (hwa ▸ hskip')
        · exact .inl (hv.tail ⟨he, hwa⟩)
      · by_cases hwc : w = c
        · exact .inl (hwc ▸ hskip)
        · exact .inr (hv.tail ⟨he, hwc⟩)
  rcases haround ha.reaches with hb | hb
  · exact (dominates_iff.1 ha).2 hra hb
  · exact (dominates_iff.1 hc).2 hrc hb

/-! ## Natural loops -/

/-- Some back edge leads to the block. -/
def Heads (E : BlockId → BlockId → Prop) (r h : BlockId) : Prop := ∃ u, IsBack E r u h

/-- The block is in the natural loop at `h`: it is `h` or gets to a latch without going through `h`. -/
def InLoop (E : BlockId → BlockId → Prop) (r h b : BlockId) : Prop :=
  b = h ∨ ReflTransGen E r b ∧ ∃ u, IsBack E r u h ∧ ReflTransGen (Skip E h) b u

theorem Heads.reaches (hh : Heads E r h) : ReflTransGen E r h := by
  obtain ⟨u, hu⟩ := hh
  exact hu.2.reaches_left

theorem InLoop.of_latch (hu : IsBack E r u h) : InLoop E r h u := .inr ⟨hu.2.reaches, u, hu, .refl⟩

/-- All ways into a loop lead through its header. -/
theorem InLoop.pred (hb : InLoop E r h b) (hne : b ≠ h) (hv : ReflTransGen E r v) (he : E v b) :
    InLoop E r h v := by
  obtain ⟨-, u, hu, hway⟩ := hb.resolve_left hne
  exact .inr ⟨hv, u, hu, hway.head ⟨he, hne⟩⟩

theorem InLoop.dominates (hh : ReflTransGen E r h) (hb : InLoop E r h b) : Dominates E r h b := by
  rcases hb with rfl | ⟨hb, u, hu, hway⟩
  · exact .refl hh
  · induction hway using ReflTransGen.head_induction_on with
    | refl => exact hu.2
    | head he _ ih => exact (ih (hb.tail he.1)).pred he.2.symm hb he.1

theorem InLoop.reaches (hh : ReflTransGen E r h) (hb : InLoop E r h b) : ReflTransGen E r b :=
  (hb.dominates hh).reaches

/-- A header outside a loop with which its own loop shares a block: the loop is inside its own. -/
theorem InLoop.mono (hh' : ReflTransGen E r h') (hout : ¬ InLoop E r h' h) (hb : InLoop E r h b)
    (hb' : InLoop E r h' b) (hx : InLoop E r h' x) : InLoop E r h x := by
  have hne : ∀ {v}, InLoop E r h' v → v ≠ h := fun hv hvh => hout (hvh ▸ hv)
  -- back from the shared block, both loops are left at the inner header only
  have hinner : InLoop E r h h' := by
    have hreach := hb'.reaches hh'
    induction hreach with
    | refl =>
      obtain rfl := (hb'.dominates hh').eq_root
      exact hb
    | @tail v b hv he ih =>
      by_cases hbh' : b = h'
      · exact hbh' ▸ hb
      · exact ih (hb.pred (hne hb') hv he) (hb'.pred hbh' hv he)
  rcases hx with rfl | ⟨hx, u, hu, hway⟩
  · exact hinner
  · induction hway using ReflTransGen.head_induction_on with
    | refl => exact hinner.pred (hne (.inl rfl)) hx hu.1
    | @head x c he hway ih =>
      have hc := hx.tail he.1
      exact (ih hc).pred (hne (.inr ⟨hc, u, hu, hway⟩)) hx he.1

/-- Of two loops that share a block one is inside the other, and without its header. -/
theorem InLoop.nested (hh : ReflTransGen E r h) (hh' : ReflTransGen E r h') (hne : h ≠ h')
    (hb : InLoop E r h b) (hb' : InLoop E r h' b) :
    ((∀ x, InLoop E r h' x → InLoop E r h x) ∧ ¬ InLoop E r h' h) ∨
      ((∀ x, InLoop E r h x → InLoop E r h' x) ∧ ¬ InLoop E r h h') := by
  rcases (hb.dominates hh).total (hb'.dominates hh') with hd | hd
  · have hout : ¬ InLoop E r h' h := fun hin => hne (hd.antisymm (hin.dominates hh'))
    exact .inl ⟨fun x hx => hb.mono hh' hout hb' hx, hout⟩
  · have hout : ¬ InLoop E r h h' := fun hin => hne ((hin.dominates hh).antisymm hd)
    exact .inr ⟨fun x hx => hb'.mono hh hout hb hx, hout⟩

end Flow

/-- The body of the other loop is part of the body of this one, and not all of it. -/
def NaturalLoop.Encloses (l l' : NaturalLoop) : Prop := l'.body ⊆ l.body ∧ ¬ l.body ⊆ l'.body

theorem NaturalLoop.Encloses.length_lt {l l' : NaturalLoop} (h : l.Encloses l')
    (hnd : l'.body.Nodup) : l'.body.length < l.body.length := by
  refine Nat.lt_of_not_le fun hle => h.2 ?_
  exact ((hnd.subperm h.1).perm_of_length_le hle).symm.subset

namespace FlowGraph

section
variable {g : FlowGraph} {f : Function} (hf : f.Numbered) (hg : g.Describes f)
include hf hg

/-- The search backwards from the latches finds the loop. -/
theorem Describes.mem_loopBody {h b : BlockId} (hh : f.Reachable h) :
    b ∈ g.loopBody h ↔ Flow.InLoop f.Edge Function.entry h b := by
  have hlt : ∀ {v}, f.Reachable v → v < g.count := fun hv => hg.count_eq ▸ hf.reachable_lt hv
  have hout : ∀ {v}, v ∈ (List.range g.count).erase h ↔ v ≠ h ∧ v < g.count := by
    intro v
    rw [List.nodup_range.mem_erase_iff, List.mem_range]
  simp only [loopBody, List.mem_filter, List.mem_range, decide_eq_true_eq, Flow.mem_gather]
  constructor
  · rintro ⟨-, rfl | ⟨u, hu, hu', hway⟩⟩
    · exact .inl rfl
    · have hfound : b ≠ h ∧ Flow.InLoop f.Edge Function.entry h b := by
        induction hway with
        | refl => exact ⟨(hout.1 hu').1, .of_latch ((hg.mem_latches hf).1 hu)⟩
        | tail _ hs ih =>
          obtain ⟨hw, he⟩ := (hg.mem_preds hf).1 hs.1
          exact ⟨(hout.1 hs.2).1, ih.2.pred ih.1 hw he⟩
      exact hfound.2
  · rintro (rfl | ⟨hb, u, hu, hway⟩)
    · exact ⟨hlt hh, .inl rfl⟩
    · refine ⟨hlt hb, or_iff_not_imp_left.2 fun hne => ⟨u, (hg.mem_latches hf).2 hu,
        hout.2 ⟨Flow.Skip.ne hway hne, hlt hu.2.reaches⟩, ?_⟩⟩
      induction hway using ReflTransGen.head_induction_on with
      | refl => exact .refl
      | head he _ ih =>
        exact (ih (hb.tail he.1) he.2).tail ⟨(hg.mem_preds hf).2 ⟨hb, he.1⟩, hout.2 ⟨hne, hlt hb⟩⟩

omit hf hg in
/-- The loops are listed by falling size. -/
theorem pairwise_loops (g : FlowGraph) :
    g.loops.Pairwise fun l l' => l'.body.length ≤ l.body.length := by
  have hbefore : ∀ a b : NaturalLoop, a.before b = true ↔ b.body.length < a.body.length ∨
      a.body.length = b.body.length ∧ a.header ≤ b.header := by
    simp [NaturalLoop.before]
  have htotal : ∀ a b : NaturalLoop, a.before b = true ∨ b.before a = true := by
    intro a b
    rw [hbefore, hbefore]
    rcases Nat.lt_trichotomy a.body.length b.body.length with h | h | h
    · exact .inr (.inl h)
    · exact (Nat.le_total a.header b.header).imp (fun hle => .inr ⟨h, hle⟩) fun hle => .inr ⟨h.symm, hle⟩
    · exact .inl (.inl h)
  have htrans : ∀ a b c : NaturalLoop, a.before b = true → b.before c = true → a.before c = true := by
    intro a b c
    simp only [hbefore]
    rintro (hab | ⟨hab, hle⟩) (hbc | ⟨hbc, hle'⟩)
    · exact .inl (hbc.trans hab)
    · exact .inl (hbc ▸ hab)
    · exact .inl (hab ▸ hbc)
    · exact .inr ⟨hab.trans hbc, Nat.le_trans hle hle'⟩
  refine (sortBy_pairwise htotal htrans _).imp fun {a b} h => ?_
  rcases (hbefore a b).1 h with h | ⟨h, -⟩
  · exact Nat.le_of_lt h
  · exact Nat.le_of_eq h.symm

omit hf hg in
theorem nodup_loopBody (g : FlowGraph) (h : BlockId) : (g.loopBody h).Nodup :=
  List.nodup_range.filter _

/-- The loops of two headers have no block in common, or one is inside the other. -/
theorem Describes.nested {h h' : BlockId} (hh : f.Reachable h) (hh' : f.Reachable h')
    (hne : h ≠ h') : (g.loopAt h).body.Disjoint (g.loopAt h').body ∨
      (g.loopAt h).Encloses (g.loopAt h') ∨ (g.loopAt h').Encloses (g.loopAt h) := by
  have hmem := fun b => hg.mem_loopBody hf (b := b) hh
  have hmem' := fun b => hg.mem_loopBody hf (b := b) hh'
  refine or_iff_not_imp_left.2 fun hshared => ?_
  obtain ⟨b, hb, hb'⟩ : ∃ b, b ∈ g.loopBody h ∧ b ∈ g.loopBody h' := by
    simpa [List.Disjoint, loopAt] using hshared
  rcases ((hmem b).1 hb).nested hh hh' hne ((hmem' b).1 hb') with ⟨hsub, hout⟩ | ⟨hsub, hout⟩
  · refine .inl ⟨fun x hx => (hmem x).2 (hsub x ((hmem' x).1 hx)), fun hrev => hout ?_⟩
    exact (hmem' h).1 (hrev ((hmem h).2 (.inl rfl)))
  · refine .inr ⟨fun x hx => (hmem' x).2 (hsub x ((hmem x).1 hx)), fun hrev => hout ?_⟩
    exact (hmem h').1 (hrev ((hmem' h').2 (.inl rfl)))

/-- The last loop around a block is inside all others around it. -/
theorem Describes.innermost {b : BlockId} {l l' : NaturalLoop}
    (hlast : (g.loops.filter (·.contains b)).getLast? = some l) (hl' : l' ∈ g.loops)
    (hb' : b ∈ l'.body) : l.body ⊆ l'.body := by
  have hmem' : l' ∈ g.loops.filter (·.contains b) :=
    List.mem_filter.2 ⟨hl', (contains_iff hl').2 hb'⟩
  obtain ⟨hl, hb⟩ := List.mem_filter.1 (List.mem_of_getLast? hlast)
  replace hb : b ∈ l.body := (contains_iff hl).1 hb
  -- the last loop is no larger than any other
  have hle : l.body.length ≤ l'.body.length := by
    obtain ⟨ls, hls⟩ := List.getLast?_eq_some_iff.1 hlast
    have hpair := g.pairwise_loops.filter (·.contains b)
    rw [hls, List.pairwise_append] at hpair
    rw [hls, List.mem_append, List.mem_singleton] at hmem'
    rcases hmem' with hmem' | rfl
    · exact hpair.2.2 l' hmem' l (List.mem_singleton_self l)
    · exact Nat.le_refl _
  obtain ⟨h, hh, -, rfl⟩ := mem_loops.1 hl
  obtain ⟨h', hh', -, rfl⟩ := mem_loops.1 hl'
  rw [hg.mem_order] at hh hh'
  by_cases hne : h = h'
  · exact hne ▸ List.Subset.refl _
  rcases hg.nested hf hh hh' hne with hdisjoint | hencloses | hencloses
  · exact absurd hb' (hdisjoint hb)
  · exact absurd hle (Nat.not_le.2 (hencloses.length_lt (g.nodup_loopBody h')))
  · exact hencloses.1

end

end FlowGraph

end Dataflow
