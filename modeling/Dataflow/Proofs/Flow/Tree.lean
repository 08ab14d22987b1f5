import Dataflow.Flow.Dominator
import Dataflow.Proofs.Flow.Walk

/-!
# Trees of recorded dominators

The records of the dominator iteration form a tree (`Tree`): every recorded block other than the
entry has a recorded block of lower order above it. `Above idom a b` says that `a` is `b` or stands
above it. In such a tree `meet` ends on the lowest block above two others (`meet_eq`), and the
candidate for a block is the lowest one above all its recorded predecessors (`candidate_eq`).

The last section follows the chains when one record moves: `above_moved_of_le` and its companions
say which of them keep their blocks.
-/

namespace Dataflow.Flow.Idoms

open Relation

/-! ## Chains of records -/

/-- `a` is `b` or a block above it. -/
inductive Above (idom : Idoms) : BlockId → BlockId → Prop
  | refl (a : BlockId) : Above idom a a
  | up {a b c : BlockId} : idom.get b = some c → Above idom a c → Above idom a b

theorem Above.trans {idom : Idoms} {a b c : BlockId} (h₁ : Above idom a b) (h₂ : Above idom b c) :
    Above idom a c := by
  induction h₂ with
  | refl => exact h₁
  | up hc _ ih => exact .up hc ih

/-- A block above `b`, other than `b`, is above the record of `b`. -/
theorem Above.of_ne {idom : Idoms} {a b c : BlockId} (h : Above idom a b) (hne : a ≠ b)
    (hc : idom.get b = some c) : Above idom a c := by
  cases h with
  | refl => exact absurd rfl hne
  | up hc' h =>
    rw [hc, Option.some.injEq] at hc'
    exact hc' ▸ h

theorem get_set {idom : Idoms} {b : BlockId} {v : Option BlockId} (hb : b < idom.length)
    (x : BlockId) : Idoms.get (idom.set b v) x = if x = b then v else idom.get x := by
  unfold get
  rw [List.getElem?_set]
  by_cases h : x = b
  · subst h
    simp [hb]
  · simp [h, Ne.symm h]

/-! ## The order of the blocks -/

/-- What the iteration is given: the entry, the other blocks in their order, and predecessors, one
of which comes before the block. -/
structure Ordered (count : Nat) (entry : BlockId) (blocks : List BlockId)
    (preds : BlockId → List BlockId) (order : BlockId → Nat) : Prop where
  lt : ∀ b ∈ entry :: blocks, b < count
  length_lt : blocks.length < count
  order_entry : order entry = 0
  order_block : ∀ before b after, blocks = before ++ b :: after → order b = before.length + 1
  preds_mem : ∀ b, ∀ p ∈ preds b, p ∈ entry :: blocks
  earlier : ∀ b ∈ blocks, ∃ p ∈ preds b, order p < order b

section
variable {count : Nat} {entry : BlockId} {blocks : List BlockId} {preds : BlockId → List BlockId}
  {order : BlockId → Nat} (ho : Ordered count entry blocks preds order)
include ho

theorem Ordered.order_pos {b : BlockId} (hb : b ∈ blocks) : 0 < order b := by
  obtain ⟨before, after, h⟩ := List.append_of_mem hb
  rw [ho.order_block before b after h]
  exact Nat.succ_pos _

theorem Ordered.order_le {b : BlockId} (hb : b ∈ entry :: blocks) : order b ≤ blocks.length := by
  rcases List.mem_cons.1 hb with rfl | hb
  · rw [ho.order_entry]
    exact Nat.zero_le _
  · obtain ⟨before, after, h⟩ := List.append_of_mem hb
    rw [ho.order_block before b after h, h]
    simp

theorem Ordered.order_inj {a b : BlockId} (ha : a ∈ entry :: blocks) (hb : b ∈ entry :: blocks)
    (h : order a = order b) : a = b := by
  rcases List.mem_cons.1 ha with ha | ha' <;> rcases List.mem_cons.1 hb with hb | hb'
  · rw [ha, hb]
  · have := ho.order_pos hb'
    rw [← h, ha, ho.order_entry] at this
    exact absurd this (Nat.lt_irrefl 0)
  · have := ho.order_pos ha'
    rw [h, hb, ho.order_entry] at this
    exact absurd this (Nat.lt_irrefl 0)
  · obtain ⟨before, after, h₁⟩ := List.append_of_mem ha'
    obtain ⟨before', after', h₂⟩ := List.append_of_mem hb'
    rw [ho.order_block _ _ _ h₁, ho.order_block _ _ _ h₂, Nat.add_right_cancel_iff] at h
    have e₁ : blocks[before.length]? = some a := by rw [h₁]; simp
    have e₂ : blocks[before.length]? = some b := by rw [h, h₂]; simp
    exact Option.some.inj (e₁.symm.trans e₂)

theorem Ordered.ne_entry {b : BlockId} (h : 0 < order b) : b ≠ entry := by
  rintro rfl
  rw [ho.order_entry] at h
  exact Nat.lt_irrefl 0 h

end

/-! ## Trees of records -/

/-- The records lead up to the entry. -/
structure Tree (count : Nat) (entry : BlockId) (blocks : List BlockId) (order : BlockId → Nat)
    (idom : Idoms) : Prop where
  length : idom.length = count
  root : idom.get entry = some entry
  lower : ∀ {b c}, idom.get b = some c → b ≠ entry → order c < order b ∧ (idom.get c).isSome
  listed : ∀ {b}, (idom.get b).isSome → b ∈ entry :: blocks

section
variable {count : Nat} {entry : BlockId} {blocks : List BlockId} {order : BlockId → Nat}
  {idom : Idoms} (ht : Tree count entry blocks order idom)
include ht

theorem Tree.above_entry {a : BlockId} (h : Above idom a entry) : a = entry := by
  generalize hb : entry = b at h
  induction h with
  | refl => rfl
  | up hc _ ih =>
    subst hb
    rw [ht.root, Option.some.injEq] at hc
    exact (ih hc).trans hc.symm

theorem Tree.above_isSome {a b : BlockId} (h : Above idom a b) (hb : (idom.get b).isSome) :
    (idom.get a).isSome := by
  induction h with
  | refl => exact hb
  | @up b c hc _ ih =>
    by_cases hbe : b = entry
    · subst hbe
      rw [ht.root, Option.some.injEq] at hc
      exact ih (hc ▸ hb)
    · exact ih (ht.lower hc hbe).2

theorem Tree.order_lt {a b : BlockId} (h : Above idom a b) (hne : a ≠ b) : order a < order b := by
  induction h with
  | refl => exact absurd rfl hne
  | @up b c hc h ih =>
    by_cases hbe : b = entry
    · subst hbe
      exact absurd (ht.above_entry (.up hc h)) hne
    · have hlt := (ht.lower hc hbe).1
      by_cases hac : a = c
      · exact hac ▸ hlt
      · exact Nat.lt_trans (ih hac) hlt

theorem Tree.order_le {a b : BlockId} (h : Above idom a b) : order a ≤ order b := by
  by_cases hab : a = b
  · exact Nat.le_of_eq (congrArg order hab)
  · exact Nat.le_of_lt (ht.order_lt h hab)

/-- Of two blocks above a third, the lower one has the other one above it. -/
theorem Tree.above_of_order_lt {x y q : BlockId} (hx : Above idom x q) (hy : Above idom y q)
    (h : order x < order y) : Above idom x y := by
  induction hy with
  | refl => exact hx
  | @up q c hc hy ih =>
    refine ih (hx.of_ne ?_ hc)
    rintro rfl
    have := ht.order_le (.up hc hy)
    omega

/-! ## Where two chains meet -/

theorem meet_eq {preds : BlockId → List BlockId} (ho : Ordered count entry blocks preds order)
    (fuel : Nat) {a b : BlockId} (ha : (idom.get a).isSome) (hb : (idom.get b).isSome)
    (hf : order a + order b ≤ fuel) :
    ∃ m, meet order idom fuel a b = .ok m ∧ Above idom m a ∧ Above idom m b ∧
      ∀ x, Above idom x a → Above idom x b → Above idom x m := by
  induction fuel generalizing a b with
  | zero =>
    have hab : a = b := ho.order_inj (ht.listed ha) (ht.listed hb) (by omega)
    exact ⟨a, by simp [meet, hab], .refl a, hab ▸ .refl a, fun _ h _ => h⟩
  | succ fuel ih =>
    unfold meet
    by_cases hab : a = b
    · exact ⟨a, by simp [hab], .refl a, hab ▸ .refl a, fun _ h _ => h⟩
    simp only [hab, if_false]
    -- the later block goes up; it is not above the earlier one, so no block above both is passed
    have hne : order a ≠ order b := fun h => hab (ho.order_inj (ht.listed ha) (ht.listed hb) h)
    by_cases hlt : order b < order a
    · obtain ⟨c, hc⟩ := Option.isSome_iff_exists.1 ha
      obtain ⟨hco, hcs⟩ := ht.lower hc (ho.ne_entry (by omega))
      obtain ⟨m, hm, hmc, hmb, hmax⟩ := ih hcs hb (by omega)
      refine ⟨m, by simp [hlt, up, hc, hm], .up hc hmc, hmb, fun x hxa hxb => ?_⟩
      refine hmax x (hxa.of_ne ?_ hc) hxb
      rintro rfl
      have := ht.order_le hxb
      omega
    · obtain ⟨c, hc⟩ := Option.isSome_iff_exists.1 hb
      obtain ⟨hco, hcs⟩ := ht.lower hc (ho.ne_entry (by omega))
      obtain ⟨m, hm, hma, hmc, hmax⟩ := ih ha hcs (by omega)
      refine ⟨m, by simp [hlt, up, hc, hm], hma, .up hc hmc, fun x hxa hxb => ?_⟩
      refine hmax x hxa (hxb.of_ne ?_ hc)
      rintro rfl
      have := ht.order_le hxa
      omega

/-- The bound on the steps of `meet` is never reached. -/
theorem Tree.order_add_le {preds : BlockId → List BlockId}
    (ho : Ordered count entry blocks preds order) {a b : BlockId} (ha : (idom.get a).isSome)
    (hb : (idom.get b).isSome) : order a + order b ≤ idom.length * idom.length := by
  have h₁ := ho.order_le (ht.listed ha)
  have h₂ := ho.order_le (ht.listed hb)
  have h₃ := ho.length_lt
  rw [ht.length]
  obtain ⟨k, rfl⟩ := Nat.exists_eq_succ_of_ne_zero (Nat.ne_of_gt (Nat.zero_lt_of_lt h₃))
  have : (k + 1) * (k + 1) = k * k + 2 * k + 1 := by rw [Nat.succ_mul_succ]; omega
  simp only [Nat.succ_eq_add_one] at h₃ ⊢
  omega

/-- `m` is the lowest block above every recorded predecessor of `b`. -/
structure Meets (idom : Idoms) (preds : BlockId → List BlockId) (b m : BlockId) : Prop where
  above : ∀ p ∈ preds b, (idom.get p).isSome → Above idom m p
  lowest : ∀ x, (∀ p ∈ preds b, (idom.get p).isSome → Above idom x p) → Above idom x m

theorem foldlM_join {preds : BlockId → List BlockId} (ho : Ordered count entry blocks preds order)
    (ps : List BlockId) (hps : ∀ p ∈ ps, (idom.get p).isSome) {c : BlockId}
    (hc : (idom.get c).isSome) :
    ∃ m, ps.foldlM (join order idom) (some c) = .ok (some m) ∧ Above idom m c ∧
      (∀ p ∈ ps, Above idom m p) ∧
      ∀ x, Above idom x c → (∀ p ∈ ps, Above idom x p) → Above idom x m := by
  induction ps generalizing c with
  | nil => exact ⟨c, rfl, .refl c, by simp, fun _ h _ => h⟩
  | cons p ps ih =>
    obtain ⟨hp, hps⟩ := List.forall_mem_cons.1 hps
    obtain ⟨d, hd, hdp, hdc, hmax⟩ := meet_eq ht ho _ hp hc (ht.order_add_le ho hp hc)
    obtain ⟨m, hm, hmd, hmps, hmmax⟩ := ih hps (ht.above_isSome hdp hp)
    refine ⟨m, ?_, hmd.trans hdc, ?_, fun x hxc hx => ?_⟩
    · rw [List.foldlM_cons]
      simp only [join, hd]
      exact hm
    · exact List.forall_mem_cons.2 ⟨hmd.trans hdp, hmps⟩
    · obtain ⟨hxp, hxps⟩ := List.forall_mem_cons.1 hx
      exact hmmax x (hmax x hxp hxc) hxps

theorem candidate_eq {preds : BlockId → List BlockId} (ho : Ordered count entry blocks preds order)
    {b q : BlockId} (hq : q ∈ preds b) (hqs : (idom.get q).isSome) :
    ∃ m, candidate order preds idom b = .ok (some m) ∧ Meets idom preds b m := by
  unfold candidate
  have hmem : ∀ p, p ∈ (preds b).filter (fun p => (idom.get p).isSome) ↔
      p ∈ preds b ∧ (idom.get p).isSome := fun p => List.mem_filter
  cases hps : (preds b).filter (fun p => (idom.get p).isSome) with
  | nil => exact absurd ((hmem q).2 ⟨hq, hqs⟩) (by simp [hps])
  | cons p ps =>
    rw [hps] at hmem
    have hall : ∀ p' ∈ p :: ps, (idom.get p').isSome := fun p' h => ((hmem p').1 h).2
    obtain ⟨hp, hall⟩ := List.forall_mem_cons.1 hall
    obtain ⟨m, hm, hmp, hmps, hmax⟩ := foldlM_join ht ho ps hall hp
    refine ⟨m, hm, fun p' hp' hs => ?_, fun x hx => ?_⟩
    · exact List.forall_mem_cons.2 ⟨hmp, hmps⟩ p' ((hmem p').2 ⟨hp', hs⟩)
    · have hx' : ∀ p' ∈ p :: ps, Above idom x p' :=
        fun p' h => hx p' ((hmem p').1 h).1 ((hmem p').1 h).2
      exact hmax x (hx' p List.mem_cons_self) (List.forall_mem_cons.1 hx').2

end

/-! ## Moving one record -/

section
variable {count : Nat} {entry : BlockId} {blocks : List BlockId} {order : BlockId → Nat}
  {idom idom' : Idoms} {b₀ c₀ : BlockId} (ht : Tree count entry blocks order idom)
  (ht' : Tree count entry blocks order idom') (hb₀ : b₀ ≠ entry)
  (hget : ∀ x, idom'.get x = if x = b₀ then some c₀ else idom.get x)

include hget in
theorem isSome_moved {x : BlockId} : (idom'.get x).isSome ↔ x = b₀ ∨ (idom.get x).isSome := by
  rw [hget]
  by_cases hx : x = b₀ <;> simp [hx]

include hget in
/-- A record is the new one or one there was. -/
theorem moved_cases {b c : BlockId} (hc : idom'.get b = some c) :
    b = b₀ ∧ c = c₀ ∨ b ≠ b₀ ∧ idom.get b = some c := by
  rw [hget] at hc
  by_cases hb : b = b₀
  · rw [if_pos hb] at hc
    exact .inl ⟨hb, (Option.some.inj hc).symm⟩
  · rw [if_neg hb] at hc
    exact .inr ⟨hb, hc⟩

include ht hb₀ hget in
theorem Tree.moved (hlen : idom'.length = idom.length) (hmem : b₀ ∈ entry :: blocks)
    (hlt : order c₀ < order b₀) (hc₀ : (idom.get c₀).isSome) :
    Tree count entry blocks order idom' where
  length := hlen.trans ht.length
  root := by rw [hget, if_neg (Ne.symm hb₀), ht.root]
  lower {b c} hc hne := by
    rcases moved_cases hget hc with ⟨rfl, rfl⟩ | ⟨-, hc⟩
    · exact ⟨hlt, (isSome_moved hget).2 (.inr hc₀)⟩
    · obtain ⟨hlt, hcs⟩ := ht.lower hc hne
      exact ⟨hlt, (isSome_moved hget).2 (.inr hcs)⟩
  listed {b} hb := by
    rcases (isSome_moved hget).1 hb with rfl | hb
    · exact hmem
    · exact ht.listed hb

include ht hb₀ hget in
/-- Chains keep what is not below the order of the moved block. -/
theorem above_moved_of_le {y z : BlockId} (hz : order b₀ ≤ order z) (h : Above idom z y) :
    Above idom' z y := by
  induction h with
  | refl => exact .refl _
  | @up y c hc h ih =>
    refine .up ?_ ih
    rw [hget, if_neg, hc]
    rintro rfl
    have := (ht.lower hc hb₀).1
    have := ht.order_le h
    omega

include ht' hb₀ hget in
theorem above_of_moved_of_le {y z : BlockId} (hz : order b₀ ≤ order z) (h : Above idom' z y) :
    Above idom z y := by
  induction h with
  | refl => exact .refl _
  | @up y c hc h ih =>
    refine .up ?_ ih
    have hy : y ≠ b₀ := by
      rintro rfl
      have := (ht'.lower hc hb₀).1
      have := ht'.order_le h
      omega
    rw [← hc, hget, if_neg hy]

include ht hget in
/-- Chains from below the moved block stay as they are. -/
theorem above_moved_of_lt {y z : BlockId} (hy : order y < order b₀) (h : Above idom z y) :
    Above idom' z y := by
  induction h with
  | refl => exact .refl _
  | @up y c hc h ih =>
    have hyb : y ≠ b₀ := by rintro rfl; exact Nat.lt_irrefl _ hy
    have hcy : order c ≤ order y := ht.order_le (.up hc (.refl c))
    exact .up (by rw [hget, if_neg hyb, hc]) (ih (by omega))

include hget in
/-- A chain that does not go through the moved block stays as it is. -/
theorem above_moved_of_not {y z : BlockId} (hy : ¬ Above idom b₀ y) (h : Above idom z y) :
    Above idom' z y := by
  induction h with
  | refl => exact .refl _
  | @up y c hc h ih =>
    have hyb : y ≠ b₀ := by rintro rfl; exact hy (.refl _)
    exact .up (by rw [hget, if_neg hyb, hc]) (ih fun h => hy (.up hc h))

include ht hget in
/-- A record that moves up shortens the chains through it. -/
theorem above_of_moved {y z : BlockId} (hup : ∀ i, idom.get b₀ = some i → Above idom c₀ i)
    (hy : (idom.get y).isSome) (h : Above idom' z y) : Above idom z y := by
  induction h with
  | refl => exact .refl _
  | @up y c hc h ih =>
    by_cases hyb : y = b₀
    · subst hyb
      rw [hget, if_pos rfl, Option.some.injEq] at hc
      subst hc
      obtain ⟨i, hi⟩ := Option.isSome_iff_exists.1 hy
      have hci : Above idom c₀ y := .up hi (hup i hi)
      exact (ih (ht.above_isSome hci hy)).trans hci
    · rw [hget, if_neg hyb] at hc
      exact .up hc (ih (ht.above_isSome (.up hc (.refl c)) hy))

end

end Dataflow.Flow.Idoms
