import Dataflow.Flow.Reach
import Dataflow.Proofs.Flow.Tree

/-!
# The dominator iteration

While a sweep stands in front of the block of order `k`, `Sweep k` holds of the records. Two of its
facts carry the proof:

* `dominated`: whatever strictly dominates a block dominates its record, so no dominator of a block
  is ever left out of its chain (`Sweep.above_of_dominates`);
* `tight`: what stands above all recorded predecessors of a block stands above its record, so a
  record only ever moves up, and the sum of the orders of all records bounds the number of sweeps
  (`settle_eq`). Moving one record shortens the chains below it; that `tight` survives this rests on
  `fresh`, which compares the record of a block with an earlier predecessor.

When a sweep changes nothing, every record is the lowest block above all predecessors, and then what
stands above a block also dominates it (`dominates_of_above`).
-/

namespace Dataflow.Flow.Idoms

open Relation

/-- The records while a sweep stands in front of the block of order `k`. -/
structure Sweep (E : BlockId → BlockId → Prop) (count : Nat) (entry : BlockId)
    (blocks : List BlockId) (preds : BlockId → List BlockId) (order : BlockId → Nat) (k : Nat)
    (idom : Idoms) : Prop extends Tree count entry blocks order idom where
  seen : ∀ b ∈ entry :: blocks, order b < k → (idom.get b).isSome
  closed : ∀ b ∈ entry :: blocks, ∀ c ∈ entry :: blocks, (idom.get b).isSome → order c ≤ order b →
    (idom.get c).isSome
  fresh : ∀ {b c}, idom.get b = some c → b ≠ entry → ∀ q ∈ preds b, order q < order b →
    (order b < k → Above idom c q) ∧
      (k ≤ order b → ∀ z, Above idom z c → k ≤ order z → Above idom z q)
  tight : ∀ {b c}, idom.get b = some c → b ≠ entry →
    ∀ x, (∀ p ∈ preds b, (idom.get p).isSome → Above idom x p) → Above idom x c
  dominated : ∀ {b c}, idom.get b = some c → b ≠ entry →
    ∀ t, Dominates E entry t b → t ≠ b → Dominates E entry t c

/-- The edges are those the predecessor lists give, and the listed blocks are the reachable ones. -/
structure Lists (E : BlockId → BlockId → Prop) (entry : BlockId) (blocks : List BlockId)
    (preds : BlockId → List BlockId) : Prop where
  edge : ∀ p ∈ entry :: blocks, ∀ b, E p b ↔ p ∈ preds b
  reaches : ∀ b, b ∈ entry :: blocks ↔ ReflTransGen E entry b

section
variable {E : BlockId → BlockId → Prop} {count : Nat} {entry : BlockId} {blocks : List BlockId}
  {preds : BlockId → List BlockId} {order : BlockId → Nat} {k : Nat} {idom : Idoms}

/-! ## Dominators stand above -/

theorem Sweep.above_of_dominates (hs : Sweep E count entry blocks preds order k idom)
    {t x : BlockId} (hx : (idom.get x).isSome) (h : Dominates E entry t x) : Above idom t x := by
  generalize hn : order x = n
  induction n using Nat.strongRecOn generalizing x with
  | ind n ih =>
    by_cases htx : t = x
    · exact htx ▸ .refl t
    obtain ⟨c, hc⟩ := Option.isSome_iff_exists.1 hx
    have hxe : x ≠ entry := by
      rintro rfl
      exact htx h.eq_root
    obtain ⟨hlt, hcs⟩ := hs.lower hc hxe
    exact .up hc (ih _ (hn ▸ hlt) hcs (hs.dominated hc hxe t h htx) rfl)

/-- A block between `x` and a dominator of `x` is dominated, too. -/
theorem Sweep.dominates_between (hs : Sweep E count entry blocks preds order k idom)
    {t x y : BlockId} (hyx : Above idom y x) (hty : Above idom t y) (h : Dominates E entry t x) :
    Dominates E entry t y := by
  induction hyx with
  | refl => exact h
  | @up x c hc hyc ih =>
    by_cases hxe : x = entry
    · subst hxe
      obtain rfl : y = x := hs.above_entry (.up hc hyc)
      exact h
    · refine ih (hs.dominated hc hxe t h ?_)
      rintro rfl
      have := (hs.lower hc hxe).1
      have := hs.order_le hyc
      have := hs.order_le hty
      omega

/-! ## One update -/

/-- The block has the lowest block above all its recorded predecessors as its record. -/
def Fixed (idom : Idoms) (preds : BlockId → List BlockId) (b : BlockId) : Prop :=
  ∃ c, idom.get b = some c ∧ Meets idom preds b c

section
variable (ho : Ordered count entry blocks preds order) (hl : Lists E entry blocks preds)
  {b₀ : BlockId} (hb₀ : b₀ ∈ blocks)
include ho hb₀

/-- In front of a block, one of its predecessors is recorded. -/
theorem Sweep.exists_pred (hs : Sweep E count entry blocks preds order (order b₀) idom) :
    ∃ q ∈ preds b₀, order q < order b₀ ∧ (idom.get q).isSome := by
  obtain ⟨q, hq, hlt⟩ := ho.earlier b₀ hb₀
  exact ⟨q, hq, hlt, hs.seen q (ho.preds_mem b₀ q hq) hlt⟩

/-- A block that keeps its record. -/
theorem Sweep.keep (hs : Sweep E count entry blocks preds order (order b₀) idom)
    (hf : Fixed idom preds b₀) : Sweep E count entry blocks preds order (order b₀ + 1) idom := by
  obtain ⟨c₀, hc₀, hm⟩ := hf
  refine { hs with seen := ?_, fresh := ?_ }
  · intro b hb hlt
    by_cases hbb : b = b₀
    · rw [hbb, hc₀]
      rfl
    · have : order b ≠ order b₀ := fun h =>
        hbb (ho.order_inj hb (List.mem_cons_of_mem _ hb₀) h)
      exact hs.seen b hb (by omega)
  · intro b c hc hbe q hq hlt
    obtain ⟨h₁, h₂⟩ := hs.fresh hc hbe q hq hlt
    refine ⟨fun hbk => ?_, fun hbk z hz hzk => h₂ (by omega) z hz (by omega)⟩
    have hb := hs.listed (b := b) (by rw [hc]; rfl)
    by_cases hbb : b = b₀
    · subst hbb
      rw [hc₀, Option.some.injEq] at hc
      subst hc
      exact hm.above q hq (hs.closed b hb q (ho.preds_mem b q hq) (by rw [hc₀]; rfl) (by omega))
    · have : order b ≠ order b₀ := fun h =>
        hbb (ho.order_inj hb (List.mem_cons_of_mem _ hb₀) h)
      exact h₁ (by omega)

/-- A new record stands above the old one. -/
theorem Sweep.moves_up (hs : Sweep E count entry blocks preds order (order b₀) idom) {c₀ : BlockId}
    (hm : Meets idom preds b₀ c₀) : ∀ i, idom.get b₀ = some i → Above idom c₀ i :=
  fun _ hi => hs.tight hi (ho.ne_entry (ho.order_pos hb₀)) c₀ hm.above

include hl

/-- What strictly dominates a block dominates its candidate. -/
theorem Sweep.dominates_candidate (hs : Sweep E count entry blocks preds order (order b₀) idom)
    {c₀ : BlockId} (hm : Meets idom preds b₀ c₀) {t : BlockId} (h : Dominates E entry t b₀)
    (hne : t ≠ b₀) : Dominates E entry t c₀ := by
  have hp : ∀ p ∈ preds b₀, Dominates E entry t p := fun p hp => by
    have hpm := ho.preds_mem b₀ p hp
    exact h.pred hne ((hl.reaches p).1 hpm) ((hl.edge p hpm b₀).2 hp)
  have htc : Above idom t c₀ := hm.lowest t fun p hpp hs' => hs.above_of_dominates hs' (hp p hpp)
  obtain ⟨q, hq, -, hqs⟩ := hs.exists_pred ho hb₀
  exact hs.dominates_between (hm.above q hq hqs) htc (hp q hq)

end

/-! ## Moving a record -/

section
variable (ho : Ordered count entry blocks preds order) {b₀ c₀ : BlockId} (hb₀ : b₀ ∈ blocks)
  (hs : Sweep E count entry blocks preds order (order b₀) idom) {idom' : Idoms}
  (hget : ∀ x, idom'.get x = if x = b₀ then some c₀ else idom.get x)
include ho hb₀ hs hget

theorem Sweep.seen_moved {b : BlockId} (hb : b ∈ entry :: blocks) (hlt : order b < order b₀ + 1) :
    (idom'.get b).isSome := by
  by_cases hbb : b = b₀
  · exact (isSome_moved hget).2 (.inl hbb)
  · have hne := mt (ho.order_inj hb (List.mem_cons_of_mem _ hb₀)) hbb
    exact (isSome_moved hget).2 (.inr (hs.seen b hb (by omega)))

theorem Sweep.closed_moved {b c : BlockId} (hb : b ∈ entry :: blocks) (hc : c ∈ entry :: blocks)
    (hbs : (idom'.get b).isSome) (hle : order c ≤ order b) : (idom'.get c).isSome := by
  rcases (isSome_moved hget).1 hbs with rfl | hbs
  · exact hs.seen_moved ho hb₀ hget hc (Nat.lt_succ_of_le hle)
  · exact (isSome_moved hget).2 (.inr (hs.closed b hb c hc hbs hle))

/-- Where the chain of a record goes through the moved block, what is earlier than that block and stands
above all recorded predecessors still stands above the record. -/
theorem Sweep.above_record_moved (ht : Tree count entry blocks order idom') {b c x : BlockId}
    (hc : idom.get b = some c) (hne : b ≠ entry) (hbc : Above idom b₀ c) (hlt : order x < order b₀)
    (hx : ∀ p ∈ preds b, (idom'.get p).isSome → Above idom' x p) : Above idom' x c := by
  have hbe := ho.ne_entry (ho.order_pos hb₀)
  have hbm := hs.listed (b := b) (by rw [hc]; rfl)
  -- the chain of an earlier predecessor goes through the moved block as well, and `x` is above
  obtain ⟨q, hq, hqlt⟩ := ho.earlier b ((List.mem_cons.1 hbm).resolve_left hne)
  have hle := hs.order_le hbc
  have hcb := (hs.lower hc hne).1
  have hbq := (hs.fresh hc hne q hq hqlt).2 (by omega) b₀ hbc (Nat.le_refl _)
  have hqs := hs.closed b hbm q (ho.preds_mem b q hq) (by rw [hc]; rfl) (by omega)
  have hbq' := above_moved_of_le hs.toTree hbe hget (Nat.le_refl _) hbq
  have hbc' := above_moved_of_le hs.toTree hbe hget (Nat.le_refl _) hbc
  have hxq := hx q hq ((isSome_moved hget).2 (.inr hqs))
  exact (ht.above_of_order_lt hxq hbq' hlt).trans hbc'

variable (hm : Meets idom preds b₀ c₀)
include hm

omit hget in
/-- The candidate is recorded, and earlier than the block. -/
theorem Sweep.candidate_lt : order c₀ < order b₀ ∧ (idom.get c₀).isSome := by
  obtain ⟨q, hq, hlt, hqs⟩ := hs.exists_pred ho hb₀
  have hcq := hm.above q hq hqs
  exact ⟨Nat.lt_of_le_of_lt (hs.order_le hcq) hlt, hs.above_isSome hcq hqs⟩

theorem Sweep.fresh_moved (ht : Tree count entry blocks order idom') {b c : BlockId}
    (hc : idom'.get b = some c) (hne : b ≠ entry) {q : BlockId} (hq : q ∈ preds b)
    (hlt : order q < order b) :
    (order b < order b₀ + 1 → Above idom' c q) ∧
      (order b₀ + 1 ≤ order b → ∀ z, Above idom' z c → order b₀ + 1 ≤ order z → Above idom' z q) := by
  rcases moved_cases hget hc with ⟨rfl, rfl⟩ | ⟨hb, hc⟩
  · have hqs := hs.seen q (ho.preds_mem b q hq) hlt
    exact ⟨fun _ => above_moved_of_lt hs.toTree hget hlt (hm.above q hq hqs), fun h => by omega⟩
  · obtain ⟨h₁, h₂⟩ := hs.fresh hc hne q hq hlt
    have hbe := ho.ne_entry (ho.order_pos hb₀)
    have hord := mt (ho.order_inj (hs.listed (by rw [hc]; rfl)) (List.mem_cons_of_mem _ hb₀)) hb
    refine ⟨fun hbk => ?_, fun hbk z hz hzk => ?_⟩
    · exact above_moved_of_lt hs.toTree hget (by omega) (h₁ (by omega))
    · have hz' := above_of_moved_of_le ht hbe hget (by omega) hz
      exact above_moved_of_le hs.toTree hbe hget (by omega) (h₂ (by omega) z hz' (by omega))

theorem Sweep.tight_moved (ht : Tree count entry blocks order idom') {b c : BlockId}
    (hc : idom'.get b = some c) (hne : b ≠ entry) {x : BlockId}
    (hx : ∀ p ∈ preds b, (idom'.get p).isSome → Above idom' x p) : Above idom' x c := by
  have hup := hs.moves_up ho hb₀ hm
  have hx' : ∀ p ∈ preds b, (idom.get p).isSome → Above idom x p := fun p hp hps =>
    above_of_moved hs.toTree hget hup hps (hx p hp ((isSome_moved hget).2 (.inr hps)))
  rcases moved_cases hget hc with ⟨rfl, rfl⟩ | ⟨-, hc⟩
  · exact above_moved_of_lt hs.toTree hget (hs.candidate_lt ho hb₀ hm).1 (hm.lowest x hx')
  · have hxc := hs.tight hc hne x hx'
    by_cases hbc : Above idom b₀ c
    · rcases Nat.lt_or_ge (order x) (order b₀) with hlt | hle
      · exact hs.above_record_moved ho hb₀ hget ht hc hne hbc hlt hx
      · exact above_moved_of_le hs.toTree (ho.ne_entry (ho.order_pos hb₀)) hget hle hxc
    · exact above_moved_of_not hget hbc hxc

theorem Sweep.dominated_moved (hl : Lists E entry blocks preds) {b c : BlockId}
    (hc : idom'.get b = some c) (hne : b ≠ entry) {t : BlockId} (hd : Dominates E entry t b)
    (htb : t ≠ b) : Dominates E entry t c := by
  rcases moved_cases hget hc with ⟨rfl, rfl⟩ | ⟨-, hc⟩
  · exact hs.dominates_candidate ho hl hb₀ hm hd htb
  · exact hs.dominated hc hne t hd htb

omit hget in
/-- A block whose record moves to its candidate. -/
theorem Sweep.move (hl : Lists E entry blocks preds) :
    Sweep E count entry blocks preds order (order b₀ + 1) (idom.set b₀ (some c₀)) := by
  have hbl : b₀ ∈ entry :: blocks := List.mem_cons_of_mem _ hb₀
  have hget := @get_set idom b₀ (some c₀) (by rw [hs.length]; exact ho.lt b₀ hbl)
  obtain ⟨hlt, hcs⟩ := hs.candidate_lt ho hb₀ hm
  have ht : Tree count entry blocks order (idom.set b₀ (some c₀)) :=
    hs.toTree.moved (ho.ne_entry (ho.order_pos hb₀)) hget List.length_set hbl hlt hcs
  exact { ht with
    seen := fun _ hb => hs.seen_moved ho hb₀ hget hb
    closed := fun _ hb _ hc => hs.closed_moved ho hb₀ hget hb hc
    fresh := fun hc hne _ hq => hs.fresh_moved ho hb₀ hget hm ht hc hne hq
    tight := fun hc hne _ => hs.tight_moved ho hb₀ hget hm ht hc hne
    dominated := fun hc hne _ => hs.dominated_moved ho hb₀ hget hm hl hc hne }

end

/-! ## The number of sweeps -/

theorem weight_const (n : Nat) (xs : List Nat) : weight (fun _ => n) xs = xs.length * n := by
  induction xs with
  | nil => exact (Nat.zero_mul n).symm
  | cons x xs ih => rw [weight, ih, List.length_cons, Nat.succ_mul, Nat.add_comm]

theorem weight_le {f g : Nat → Nat} (hle : ∀ x, g x ≤ f x) (xs : List Nat) :
    weight g xs ≤ weight f xs := by
  induction xs with
  | nil => exact Nat.le_refl _
  | cons x xs ih =>
    have := hle x
    simp only [weight]
    omega

theorem weight_lt {f g : Nat → Nat} (hle : ∀ x, g x ≤ f x) {xs : List Nat} {y : Nat} (hy : y ∈ xs)
    (hlt : g y < f y) : weight g xs < weight f xs := by
  induction xs with
  | nil => exact absurd hy List.not_mem_nil
  | cons x xs ih =>
    have := hle x
    have hxs := weight_le hle xs
    simp only [weight]
    rcases List.mem_cons.1 hy with rfl | hy
    · omega
    · have := ih hy
      omega

/-- The order of a block's record, above all orders if there is none. -/
def level (order : BlockId → Nat) (idom : Idoms) (b : BlockId) : Nat :=
  (idom.get b).elim idom.length order

theorem level_set {b₀ c₀ : BlockId} (hlen : b₀ < idom.length) (x : BlockId) :
    level order (idom.set b₀ (some c₀)) x = if x = b₀ then order c₀ else level order idom x := by
  unfold level
  rw [get_set hlen, List.length_set]
  by_cases hx : x = b₀ <;> simp [hx]

section
variable (ho : Ordered count entry blocks preds order) (hl : Lists E entry blocks preds)
  {b₀ : BlockId} (hb₀ : b₀ ∈ blocks)
include ho hb₀

/-- A new record is of lower order than the old one. -/
theorem Sweep.candidate_lt_level (hs : Sweep E count entry blocks preds order (order b₀) idom)
    {c₀ : BlockId} (hm : Meets idom preds b₀ c₀) (hnew : idom.get b₀ ≠ some c₀) :
    order c₀ < level order idom b₀ := by
  unfold level
  cases hi : idom.get b₀ with
  | none =>
    have hlt := (hs.candidate_lt ho hb₀ hm).1
    have hle := ho.order_le (List.mem_cons_of_mem entry hb₀)
    have hcount := ho.length_lt
    rw [hs.length]
    simp only [Option.elim_none]
    omega
  | some i =>
    refine hs.order_lt (hs.moves_up ho hb₀ hm i hi) ?_
    rintro rfl
    exact hnew hi

theorem Sweep.weight_move_lt (hs : Sweep E count entry blocks preds order (order b₀) idom)
    {c₀ : BlockId} (hm : Meets idom preds b₀ c₀) (hnew : idom.get b₀ ≠ some c₀) :
    weight (level order (idom.set b₀ (some c₀))) blocks < weight (level order idom) blocks := by
  have hlt := hs.candidate_lt_level ho hb₀ hm hnew
  have hlen : b₀ < idom.length := by
    rw [hs.length]
    exact ho.lt b₀ (List.mem_cons_of_mem _ hb₀)
  refine weight_lt (fun x => ?_) hb₀ (by rw [level_set hlen, if_pos rfl]; exact hlt)
  rw [level_set hlen]
  by_cases hx : x = b₀
  · rw [if_pos hx, hx]
    exact Nat.le_of_lt hlt
  · exact Nat.le_of_eq (if_neg hx)

include hl

/-- An update either finds its block at rest or moves its record up. -/
theorem update_eq (hs : Sweep E count entry blocks preds order (order b₀) idom) (changed : Bool) :
    ∃ s, update order preds (idom, changed) b₀ = .ok s ∧
      Sweep E count entry blocks preds order (order b₀ + 1) s.1 ∧
      (s = (idom, changed) ∧ Fixed idom preds b₀ ∨
        s.2 = true ∧ weight (level order s.1) blocks < weight (level order idom) blocks) := by
  obtain ⟨q, hq, -, hqs⟩ := hs.exists_pred ho hb₀
  obtain ⟨c₀, hc, hm⟩ := candidate_eq hs.toTree ho hq hqs
  by_cases hsame : idom.get b₀ = some c₀
  · refine ⟨(idom, changed), ?_, hs.keep ho hb₀ ⟨c₀, hsame, hm⟩, .inl ⟨rfl, c₀, hsame, hm⟩⟩
    simp [update, hc, hsame, bind, Except.bind, pure, Except.pure]
  · refine ⟨(idom.set b₀ (some c₀), true), ?_, hs.move ho hb₀ hm hl,
      .inr ⟨rfl, hs.weight_move_lt ho hb₀ hm hsame⟩⟩
    simp [update, hc, hsame, bind, Except.bind, pure, Except.pure]

end

section
variable (ho : Ordered count entry blocks preds order) (hl : Lists E entry blocks preds)
include ho

/-- The end of a sweep is as good as the beginning of the next one. -/
theorem Sweep.restart (hs : Sweep E count entry blocks preds order (blocks.length + 1) idom) :
    Sweep E count entry blocks preds order 1 idom := by
  refine { hs with seen := fun b hb _ => hs.seen b hb ?_, fresh := ?_ }
  · exact Nat.lt_succ_of_le (ho.order_le hb)
  · intro b c hc hne q hq hlt
    have hb := hs.listed (b := b) (by rw [hc]; rfl)
    have hcq := (hs.fresh hc hne q hq hlt).1 (Nat.lt_succ_of_le (ho.order_le hb))
    have := ho.order_pos ((List.mem_cons.1 hb).resolve_left hne)
    exact ⟨fun h => by omega, fun _ z hz _ => hz.trans hcq⟩

include hl

/-- The rest of a sweep either finds all its blocks at rest or moves some record up. -/
theorem foldlM_update_eq (after before : List BlockId) (hb : blocks = before ++ after)
    (hs : Sweep E count entry blocks preds order (before.length + 1) idom) (changed : Bool) :
    ∃ s, after.foldlM (update order preds) (idom, changed) = .ok s ∧
      Sweep E count entry blocks preds order (blocks.length + 1) s.1 ∧
      (s = (idom, changed) ∧ (∀ b ∈ after, Fixed idom preds b) ∨
        s.2 = true ∧ weight (level order s.1) blocks < weight (level order idom) blocks) := by
  induction after generalizing before idom changed with
  | nil =>
    rw [List.append_nil] at hb
    exact ⟨(idom, changed), rfl, by rw [hb]; exact hb ▸ hs, .inl ⟨rfl, by simp⟩⟩
  | cons b after ih =>
    have hord := ho.order_block before b after hb
    have hbm : b ∈ blocks := by rw [hb]; simp
    obtain ⟨s, hu, hs', hcase⟩ := update_eq ho hl hbm (by rw [hord]; exact hs) changed
    obtain ⟨s', hf, hs'', hcase'⟩ := ih (before ++ [b]) (by simpa using hb)
      (by simpa [hord] using hs') s.2
    refine ⟨s', ?_, hs'', ?_⟩
    · rw [List.foldlM_cons, hu]
      exact hf
    · rcases hcase with ⟨rfl, hfix⟩ | ⟨hc, hw⟩
      · rcases hcase' with ⟨rfl, hall⟩ | h
        · exact .inl ⟨rfl, List.forall_mem_cons.2 ⟨hfix, hall⟩⟩
        · exact .inr h
      · rcases hcase' with ⟨rfl, -⟩ | ⟨hc', hw'⟩
        · exact .inr ⟨hc, hw⟩
        · exact .inr ⟨hc', Nat.lt_trans hw' hw⟩

/-- The iteration comes to rest. -/
theorem settle_eq (fuel : Nat) (hs : Sweep E count entry blocks preds order 1 idom)
    (hf : weight (level order idom) blocks < fuel) :
    ∃ idom', settle order preds blocks fuel idom = .ok idom' ∧
      Sweep E count entry blocks preds order 1 idom' ∧ ∀ b ∈ blocks, Fixed idom' preds b := by
  induction fuel generalizing idom with
  | zero => exact absurd hf (Nat.not_lt_zero _)
  | succ fuel ih =>
    obtain ⟨s, hw, hs', hcase⟩ := foldlM_update_eq ho hl blocks [] rfl hs false
    have hs' := hs'.restart ho
    rcases hcase with ⟨rfl, hfix⟩ | ⟨hc, hlt⟩
    · refine ⟨idom, ?_, hs, hfix⟩
      simp [settle, sweep, hw, bind, Except.bind, pure, Except.pure]
    · obtain ⟨idom', hset, hres⟩ := ih hs' (by omega)
      refine ⟨idom', ?_, hres⟩
      simp [settle, sweep, hw, hc, hset, bind, Except.bind]

/-! ## The records at rest -/

omit ho hl in
theorem Sweep.isSome_of_fixed (hs : Sweep E count entry blocks preds order 1 idom)
    (hfix : ∀ b ∈ blocks, Fixed idom preds b) {b : BlockId} (hb : b ∈ entry :: blocks) :
    (idom.get b).isSome := by
  rcases List.mem_cons.1 hb with rfl | hb
  · rw [hs.root]
    rfl
  · obtain ⟨c, hc, -⟩ := hfix b hb
    rw [hc]
    rfl

/-- What stands above a block dominates it, once all records are at rest. -/
theorem dominates_of_above (hs : Sweep E count entry blocks preds order 1 idom)
    (hfix : ∀ b ∈ blocks, Fixed idom preds b) {a b : BlockId} (hb : b ∈ entry :: blocks)
    (h : Above idom a b) : Dominates E entry a b := by
  refine ⟨(hl.reaches b).1 hb, fun vs hw => ?_⟩
  induction hw with
  | single =>
    rw [hs.above_entry h]
    exact List.mem_singleton.2 rfl
  | @step p b vs hw he ih =>
    by_cases hab : a = b
    · simp [hab]
    refine List.mem_append_left _ ?_
    have hpm : p ∈ entry :: blocks := (hl.reaches p).2 hw.reaches
    refine ih hpm ?_
    rcases List.mem_cons.1 hb with rfl | hbb
    · exact absurd (hs.above_entry h) hab
    · obtain ⟨c, hc, hm⟩ := hfix b hbb
      have hpp : p ∈ preds b := (hl.edge p hpm b).1 he
      exact (h.of_ne hab hc).trans (hm.above p hpp (hs.isSome_of_fixed hfix hpm))

end

/-! ## The first records -/

theorem get_start (he : entry < count) (x : BlockId) :
    (start count entry).get x = if x = entry then some entry else none := by
  unfold start
  rw [get_set (by simpa using he)]
  have : Idoms.get (List.replicate count none) x = none := by
    unfold get
    rw [List.getElem?_replicate]
    split <;> rfl
  rw [this]

theorem sweep_start (ho : Ordered count entry blocks preds order) :
    Sweep E count entry blocks preds order 1 (start count entry) := by
  have hget := get_start (ho.lt entry List.mem_cons_self)
  -- only the entry has a record
  have hsome : ∀ {x}, ((start count entry).get x).isSome → x = entry := by
    intro x h
    rw [hget] at h
    by_contra hx
    simp [hx] at h
  have hne : ∀ {b c}, (start count entry).get b = some c → ¬ b ≠ entry :=
    fun h hb => hb (hsome (by rw [h]; rfl))
  refine { length := by simp [start], root := by rw [hget, if_pos rfl], lower := ?_, listed := ?_,
           seen := ?_, closed := ?_, fresh := ?_, tight := ?_, dominated := ?_ }
  · exact fun h hb => absurd hb (hne h)
  · exact fun h => hsome h ▸ List.mem_cons_self
  · intro b hb hlt
    rcases List.mem_cons.1 hb with rfl | hb
    · rw [hget, if_pos rfl]
      rfl
    · have := ho.order_pos hb
      omega
  · intro b hb c hc hbs hle
    rw [hsome hbs] at hle
    rw [ho.order_entry] at hle
    have : c = entry := by
      rcases List.mem_cons.1 hc with rfl | hc
      · rfl
      · have := ho.order_pos hc
        omega
    rw [this, hget, if_pos rfl]
    rfl
  · exact fun h hb => absurd hb (hne h)
  · exact fun h hb => absurd hb (hne h)
  · exact fun h hb => absurd hb (hne h)

theorem weight_start_le (ho : Ordered count entry blocks preds order) :
    weight (level order (start count entry)) blocks ≤ count * count := by
  have hle : ∀ x, level order (start count entry) x ≤ count := by
    intro x
    unfold level
    rw [get_start (ho.lt entry List.mem_cons_self)]
    by_cases hx : x = entry
    · simp [hx, ho.order_entry]
    · simp [hx, start]
  calc weight (level order (start count entry)) blocks
      ≤ weight (fun _ => count) blocks := weight_le hle blocks
    _ = blocks.length * count := weight_const count blocks
    _ ≤ count * count := Nat.mul_le_mul_right _ (Nat.le_of_lt ho.length_lt)

end

end Dataflow.Flow.Idoms

namespace Dataflow.Flow

open Idoms Relation

/-- What the computed records say: above a listed block stand exactly its dominators, and its record
is the lowest of those other than the block itself. -/
structure DominatorTree (E : BlockId → BlockId → Prop) (entry : BlockId) (blocks : List BlockId)
    (order : BlockId → Nat) (idom : Idoms) : Prop where
  get_entry : idom.get entry = none
  isSome : ∀ b ∈ blocks, (idom.get b).isSome
  listed : ∀ {b c}, idom.get b = some c → b ∈ blocks ∧ c ∈ entry :: blocks
  order_lt : ∀ {b c}, idom.get b = some c → order c < order b
  above_iff : ∀ {a b}, b ∈ entry :: blocks → (Above idom a b ↔ Dominates E entry a b)

section
variable {E : BlockId → BlockId → Prop} {count : Nat} {entry : BlockId} {blocks : List BlockId}
  {preds : BlockId → List BlockId}

/-- The records without that of the entry. -/
theorem get_set_entry {order : BlockId → Nat} {idom : Idoms} (ht : Tree count entry blocks order idom)
    (hentry : entry < count) {b c : BlockId} :
    Idoms.get (idom.set entry none) b = some c ↔ b ≠ entry ∧ idom.get b = some c := by
  rw [get_set (ht.length ▸ hentry)]
  by_cases hb : b = entry <;> simp [hb]

/-- Chains end at the entry, whether it has a record or not. -/
theorem above_set_entry {order : BlockId → Nat} {idom : Idoms} (ht : Tree count entry blocks order idom)
    (hentry : entry < count) {a b : BlockId} :
    Above (idom.set entry none) a b ↔ Above idom a b := by
  constructor
  · intro h
    induction h with
    | refl => exact .refl _
    | up hc _ ih => exact .up ((get_set_entry ht hentry).1 hc).2 ih
  · intro h
    induction h with
    | refl => exact .refl _
    | @up b c hc h ih =>
      by_cases hbe : b = entry
      · subst hbe
        rw [ht.above_entry (.up hc h)]
        exact .refl _
      · exact .up ((get_set_entry ht hentry).2 ⟨hbe, hc⟩) ih

theorem dominators_eq (ho : Ordered count entry blocks preds (entry :: blocks).idxOf)
    (hl : Lists E entry blocks preds) (hnd : entry ∉ blocks) :
    ∃ idom, dominators count (entry :: blocks) preds = .ok idom ∧ idom.length = count ∧
      DominatorTree E entry blocks (entry :: blocks).idxOf idom := by
  have hw : weight (level (entry :: blocks).idxOf (start count entry)) blocks < count * count + 2 :=
    Nat.lt_of_le_of_lt (weight_start_le ho) (Nat.lt_add_of_pos_right (by decide))
  obtain ⟨idom, hset, hs, hfix⟩ := settle_eq ho hl _ (sweep_start ho) hw
  have hentry := ho.lt entry List.mem_cons_self
  refine ⟨idom.set entry none, ?_, by rw [List.length_set, hs.length], ?_⟩
  · simp [dominators, hset, bind, Except.bind, pure, Except.pure]
  refine ⟨?_, fun b hb => ?_, fun h => ?_, fun h => ?_, fun {a b} hb => ?_⟩
  · rw [get_set (hs.length ▸ hentry), if_pos rfl]
  · obtain ⟨c, hc, -⟩ := hfix b hb
    have hbe : b ≠ entry := by
      rintro rfl
      exact hnd hb
    rw [(get_set_entry hs.toTree hentry).2 ⟨hbe, hc⟩]
    rfl
  · obtain ⟨hb, hc⟩ := (get_set_entry hs.toTree hentry).1 h
    have hbl := hs.listed (by rw [hc]; rfl)
    exact ⟨(List.mem_cons.1 hbl).resolve_left hb, hs.listed (hs.lower hc hb).2⟩
  · obtain ⟨hb, hc⟩ := (get_set_entry hs.toTree hentry).1 h
    exact (hs.lower hc hb).1
  · rw [above_set_entry hs.toTree hentry]
    exact ⟨dominates_of_above ho hl hs hfix hb, hs.above_of_dominates (hs.isSome_of_fixed hfix hb)⟩

end

end Dataflow.Flow
