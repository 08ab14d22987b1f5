import Dataflow.Proofs.Flow.Alike
import Dataflow.Proofs.Lower.Rounds
import Mathlib.Data.List.Forall2

/-!
# Functions that control cannot tell apart

`Function.Alike`: two functions have the same blocks where control can get to, except that the entries
of a phi may stand in another order and may differ for predecessors that control cannot come from.
What stands in the other blocks does not matter, apart from the largest identifier.

Such functions have flow graphs that agree (`Alike.flow`), and preheaders are inserted into both in the
same way (`withPreheaders_alike`).
-/

namespace Dataflow

open Relation

section
variable {α β : Type} {R S : α → β → Prop} {xs : List α} {ys : List β}

theorem forall₂_imp_of_mem (h : List.Forall₂ R xs ys)
    (himp : ∀ x ∈ xs, ∀ y ∈ ys, R x y → S x y) : List.Forall₂ S xs ys := by
  induction h with
  | nil => exact .nil
  | cons hxy _ ih =>
    refine .cons (himp _ List.mem_cons_self _ List.mem_cons_self hxy) (ih fun x hx y hy => ?_)
    exact himp x (List.mem_cons_of_mem _ hx) y (List.mem_cons_of_mem _ hy)

/-- Related lists are cut in related places. -/
theorem forall₂_span {p : α → Bool} {q : β → Bool} (h : List.Forall₂ R xs ys)
    (hpq : ∀ x y, R x y → p x = q y) :
    List.Forall₂ R (xs.takeWhile p) (ys.takeWhile q) ∧
      List.Forall₂ R (xs.dropWhile p) (ys.dropWhile q) := by
  induction h with
  | nil => exact ⟨.nil, .nil⟩
  | @cons x y xs ys hxy hrest ih =>
    rw [List.takeWhile_cons, List.takeWhile_cons, List.dropWhile_cons, List.dropWhile_cons,
      hpq x y hxy]
    cases q y with
    | true => exact ⟨.cons hxy ih.1, ih.2⟩
    | false => exact ⟨.nil, .cons hxy hrest⟩

theorem forall₂_zip {γ : Type} (h : List.Forall₂ R xs ys) (zs : List γ) :
    List.Forall₂ (fun x y => R x.1 y.1 ∧ x.2 = y.2) (xs.zip zs) (ys.zip zs) := by
  induction h generalizing zs with
  | nil => exact .nil
  | cons hxy _ ih =>
    cases zs with
    | nil => exact .nil
    | cons z zs => exact .cons ⟨hxy, rfl⟩ (ih zs)

theorem forall₂_zipIdx (h : List.Forall₂ R xs ys) (n : Nat) :
    List.Forall₂ (fun x y => R x.1 y.1 ∧ x.2 = y.2) (xs.zipIdx n) (ys.zipIdx n) := by
  rw [List.zipIdx_eq_zip_range', List.zipIdx_eq_zip_range', h.length_eq]
  exact forall₂_zip h _

end

/-! ## Instructions -/

namespace Instr

/-- What a phi takes from each predecessor; another instruction takes nothing. -/
def entries : Instr → List (BlockId × Value)
  | .phi _ _ incoming => incoming
  | _ => []

/-- The instruction without the entries of a phi. -/
def shape : Instr → Instr
  | .phi dest ty _ => .phi dest ty []
  | i => i

@[simp] theorem isPhi_shape (i : Instr) : i.shape.isPhi = i.isPhi := by cases i <;> rfl

@[simp] theorem result?_shape (i : Instr) : i.shape.result? = i.result? := by cases i <;> rfl

/-- The instructions are the same, but for the order of a phi's entries and for those whose
predecessors are not `live`. -/
structure Alike (live : BlockId → Prop) (i i' : Instr) : Prop where
  shape_eq : i.shape = i'.shape
  mem_entries : ∀ {u v}, live u → ((u, v) ∈ i.entries ↔ (u, v) ∈ i'.entries)

theorem Alike.refl (live : BlockId → Prop) (i : Instr) : i.Alike live i := ⟨rfl, fun _ => Iff.rfl⟩

section
variable {live : BlockId → Prop} {i i' : Instr} (h : i.Alike live i')
include h

theorem Alike.isPhi_eq : i.isPhi = i'.isPhi := by
  rw [← isPhi_shape, h.shape_eq, isPhi_shape]

/-- Only phis can differ. -/
theorem Alike.cases : (i' = i ∧ i.isPhi = false) ∨ ∃ dest ty incoming incoming',
    i = .phi dest ty incoming ∧ i' = .phi dest ty incoming' ∧
      ∀ {u v}, live u → ((u, v) ∈ incoming ↔ (u, v) ∈ incoming') := by
  obtain ⟨hshape, hmem⟩ := h
  cases i with
  | phi dest ty incoming =>
    cases i' with
    | phi dest' ty' incoming' =>
      cases hshape
      exact .inr ⟨dest, ty, incoming, incoming', rfl, rfl, hmem⟩
    | _ => cases hshape
  | _ =>
    cases i' with
    | phi => cases hshape
    | _ => exact .inl ⟨hshape.symm, rfl⟩

/-- A predecessor that nothing is taken from may become live. -/
theorem Alike.extend {live' : BlockId → Prop} {n : BlockId}
    (hlive : ∀ u, live' u → live u ∨ u = n) (hn : ∀ v, (n, v) ∉ i.entries)
    (hn' : ∀ v, (n, v) ∉ i'.entries) : i.Alike live' i' := by
  refine ⟨h.shape_eq, fun {u v} hu => ?_⟩
  rcases hlive u hu with hu | rfl
  · exact h.mem_entries hu
  · exact iff_of_false (hn v) (hn' v)

theorem Alike.innerPhi (entries : List BlockId) (preheader : BlockId) (id : InstId) :
    (Function.innerPhi entries preheader (i, id)).Alike live
      (Function.innerPhi entries preheader (i', id)) := by
  rcases h.cases with ⟨rfl, -⟩ | ⟨dest, ty, incoming, incoming', rfl, rfl, hmem⟩
  · exact .refl live _
  · refine ⟨rfl, fun {u v} hu => ?_⟩
    show (u, v) ∈ _ ++ _ ↔ (u, v) ∈ _ ++ _
    rw [List.mem_append, List.mem_append, List.mem_filter, List.mem_filter, hmem hu]

theorem Alike.outerPhi (entries : List BlockId) (id : InstId) :
    (Function.outerPhi entries (i, id)).Alike live (Function.outerPhi entries (i', id)) := by
  rcases h.cases with ⟨rfl, -⟩ | ⟨dest, ty, incoming, incoming', rfl, rfl, hmem⟩
  · exact .refl live _
  · refine ⟨rfl, fun {u v} hu => ?_⟩
    show (u, v) ∈ List.filter _ _ ↔ (u, v) ∈ List.filter _ _
    rw [List.mem_filter, List.mem_filter, hmem hu]

end

end Instr

/-! ## Blocks -/

namespace Block

/-- The blocks have the same identifier and exit, and the same instructions up to the entries of
phis. -/
structure Alike (live : BlockId → Prop) (b b' : Block) : Prop where
  id_eq : b.id = b'.id
  exit_eq : b.exit = b'.exit
  body : List.Forall₂ (Instr.Alike live) b.body b'.body

theorem Alike.refl (live : BlockId → Prop) (b : Block) : b.Alike live b :=
  ⟨rfl, rfl, List.forall₂_same.2 fun i _ => .refl live i⟩

section
variable {live : BlockId → Prop} {b b' : Block} (h : b.Alike live b')
include h

theorem Alike.phis : List.Forall₂ (Instr.Alike live) b.phis b'.phis :=
  (forall₂_span h.body fun _ _ hi => hi.isPhi_eq).1

theorem Alike.rest : List.Forall₂ (Instr.Alike live) (b.body.dropWhile Instr.isPhi)
    (b'.body.dropWhile Instr.isPhi) :=
  (forall₂_span h.body fun _ _ hi => hi.isPhi_eq).2

variable (header preheader : BlockId) (entries : List BlockId) (fresh : InstId)

theorem Alike.reroute (i : Nat) : (Function.reroute header preheader entries fresh i b).Alike live
    (Function.reroute header preheader entries fresh i b') := by
  refine ⟨by simpa using h.id_eq, ?_, ?_⟩
  · rw [Function.reroute_exit, Function.reroute_exit, h.exit_eq]
  · rw [Function.reroute_body, Function.reroute_body]
    split
    · refine List.rel_append (List.rel_map ?_ (forall₂_zipIdx h.phis fresh)) h.rest
      rintro ⟨j, id⟩ ⟨j', _⟩ ⟨hj, rfl⟩
      exact hj.innerPhi entries preheader id
    · exact h.body

theorem Alike.preheaderBlock : (Function.preheaderBlock header preheader entries fresh b).Alike live
    (Function.preheaderBlock header preheader entries fresh b') := by
  refine ⟨rfl, rfl, List.rel_map ?_ (forall₂_zipIdx h.phis fresh)⟩
  rintro ⟨j, id⟩ ⟨j', _⟩ ⟨hj, rfl⟩
  exact hj.outerPhi entries id

end

end Block

/-! ## Functions -/

/-- Whether control flow is reducible shows on the edges of blocks that control can get to. -/
theorem FlowGraph.Describes.reducible_iff_live {g : FlowGraph} {f : Function} (hg : g.Describes f)
    (hf : f.Numbered) : Flow.Reducible f.Edge Function.entry ↔
      ∀ u ∈ g.order, ∀ v ∈ g.succs u, g.isIrreducible u v = false := by
  rw [← hg.reducible_iff hf]
  constructor
  · exact fun h u _ v hv => h u v (hg.mem_succs.1 hv)
  · intro h u v he
    by_cases hu : u ∈ g.order
    · exact h u hu v (hg.mem_succs.2 he)
    · simp [isIrreducible, isReachable, hu]

namespace Function

/-- The functions agree in everything but what control cannot get to, and there in the largest
identifier. -/
structure Alike (f f' : Function) : Prop where
  name_eq : f.name = f'.name
  params_eq : f.params = f'.params
  globals_eq : f.globals = f'.globals
  length_eq : f.blocks.length = f'.blocks.length
  largest_eq : f.results.max? = f'.results.max?
  reachable_iff : ∀ {b}, f.Reachable b ↔ f'.Reachable b
  block : ∀ {i b b'}, f.Reachable i → f.blocks[i]? = some b → f'.blocks[i]? = some b' →
    b.Alike f.Reachable b'

/-- The largest of some numbers is what bounds them. -/
theorem max?_eq_iff {xs ys : List Nat} :
    xs.max? = ys.max? ↔ ∀ n, (∀ x ∈ xs, x < n) ↔ ∀ y ∈ ys, y < n := by
  have hbound : ∀ (zs : List Nat) n, (∀ z ∈ zs, z < n) ↔ ∀ m, zs.max? = some m → m < n := by
    intro zs n
    cases hm : zs.max? with
    | none => simp [List.max?_eq_none_iff.1 hm]
    | some m =>
      obtain ⟨hmem, hle⟩ := List.max?_eq_some_iff.1 hm
      constructor
      · rintro h _ ⟨⟩
        exact h m hmem
      · exact fun h z hz => Nat.lt_of_le_of_lt (hle z hz) (h m rfl)
  constructor
  · intro h n
    rw [hbound, hbound, h]
  · intro h
    simp only [hbound] at h
    cases hx : xs.max? with
    | none =>
      cases hy : ys.max? with
      | none => rfl
      | some m => simpa using (h 0).1 (by simp [hx]) m hy
    | some m =>
      cases hy : ys.max? with
      | none => simpa using (h 0).2 (by simp [hy]) m hx
      | some m' =>
        have h₁ := (h (m' + 1)).2 (by simp [hy]) m hx
        have h₂ := (h (m + 1)).1 (by simp [hx]) m' hy
        exact congrArg some (by omega)

theorem WellFormed.entries_lt {f : Function} (hf : f.WellFormed) {b : Block} (hb : b ∈ f.blocks)
    {i : Instr} (hi : i ∈ b.body) {u : BlockId} {v : Value} (huv : (u, v) ∈ i.entries) :
    u < f.blocks.length := by
  cases i with
  | phi dest ty incoming =>
    exact (hf.edge_lt (((hf.entries b hb hi).2 u).1 (List.mem_map_of_mem huv))).1
  | _ => cases huv

section
variable {f f' : Function} (hA : f.Alike f')
include hA

theorem Alike.idBound_eq : f.idBound = f'.idBound := by
  have hbounds := max?_eq_iff.1 hA.largest_eq
  exact Nat.le_antisymm (idBound_le ((hbounds _).2 fun _ => lt_idBound))
    (idBound_le ((hbounds _).1 fun _ => lt_idBound))

theorem Alike.freshId_eq : f.freshId = f'.freshId := by
  have hall : f.results.all (· < idLimit) = f'.results.all (· < idLimit) := by
    rw [Bool.eq_iff_iff]
    simpa using max?_eq_iff.1 hA.largest_eq idLimit
  have hbound := hA.idBound_eq
  unfold idBound at hbound
  rw [freshId, freshId, hall, hbound]

/-- The block that stands in the same place of the other function. -/
theorem Alike.exists_block {i : Nat} {b : Block} (hi : f.Reachable i) (hb : f.blocks[i]? = some b) :
    ∃ b', f'.blocks[i]? = some b' ∧ b.Alike f.Reachable b' := by
  have hlt : i < f'.blocks.length := hA.length_eq ▸ (List.getElem?_eq_some_iff.1 hb).1
  exact ⟨_, List.getElem?_eq_getElem hlt, hA.block hi hb (List.getElem?_eq_getElem hlt)⟩

theorem Alike.flow (hf : f.Numbered) (hf' : f'.Numbered) {g g' : FlowGraph}
    (hgf : FlowGraph.ofFunction f = .ok g) (hgf' : FlowGraph.ofFunction f' = .ok g')
    (hg : g.Describes f) : g.Alike g' := by
  refine FlowGraph.alike_of_exits hf hf' hgf hgf' hg hA.length_eq fun i hi => ?_
  obtain ⟨b, hb⟩ : ∃ b, f.blocks[i]? = some b := ⟨_, List.getElem?_eq_getElem (hf.reachable_lt hi)⟩
  obtain ⟨b', hb', halike⟩ := hA.exists_block hi hb
  rw [hb, hb', Option.map_some, Option.map_some, halike.exit_eq]

/-! ## Preheaders -/

/-- A round keeps functions alike. The new block is live, but no phi that was there has an entry for
it. -/
theorem Alike.withPreheader {header : BlockId} {entries : List BlockId} {fresh : InstId} {h h' : Block}
    (hE : f.Entered header entries fresh h) (hE' : f'.Entered header entries fresh h')
    (hheader : f.Reachable header) :
    (f.withPreheader header entries fresh h).Alike (f'.withPreheader header entries fresh h') := by
  have hblock : ∀ {i b b'}, f.Reachable i → f.blocks[i]? = some b → f'.blocks[i]? = some b' →
      b.Alike (f.withPreheader header entries fresh h).Reachable b' := by
    intro i b b' hi hb hb'
    obtain ⟨hid, hexit, hbody⟩ := hA.block hi hb hb'
    refine ⟨hid, hexit, forall₂_imp_of_mem hbody fun j hj j' hj' hjj' => ?_⟩
    refine hjj'.extend (n := f.blocks.length) (fun u hu => ?_) (fun v hv => ?_) (fun v hv => ?_)
    · -- what is live now was live before or is the new block, for which no phi has an entry
      by_cases hun : u = f.blocks.length
      · exact .inr hun
      · exact .inl ((hE.reachable_iff hun).1 hu)
    · exact Nat.lt_irrefl _ (hE.wellFormed.entries_lt (List.mem_of_getElem? hb) hj hv)
    · have hlt := hE'.wellFormed.entries_lt (List.mem_of_getElem? hb') hj' hv
      exact Nat.lt_irrefl _ (hA.length_eq ▸ hlt)
  have hh := hblock hheader hE.header_eq hE'.header_eq
  refine ⟨hA.name_eq, hA.params_eq, hA.globals_eq, ?_, ?_, fun {b} => ?_, ?_⟩
  · rw [withPreheader_length, withPreheader_length, hA.length_eq]
  · rw [withPreheader_results, withPreheader_results, hh.phis.length_eq, max?_eq_iff]
    intro n
    rw [List.forall_mem_append, List.forall_mem_append, max?_eq_iff.1 hA.largest_eq n]
  · by_cases hb : b = f.blocks.length
    · have hb' : b = f'.blocks.length := hb.trans hA.length_eq
      refine iff_of_true (hb ▸ hE.reachable_new) (hb' ▸ hE'.reachable_new)
    · rw [hE.reachable_iff hb, hE'.reachable_iff (hA.length_eq ▸ hb), hA.reachable_iff]
  · intro i b b' hi hb hb'
    rcases withPreheader_getElem?.1 hb with ⟨c, hc, rfl⟩ | ⟨rfl, rfl⟩
    · have hlt := (List.getElem?_eq_some_iff.1 hc).1
      rcases withPreheader_getElem?.1 hb' with ⟨c', hc', rfl⟩ | ⟨rfl, -⟩
      · rw [← hA.length_eq]
        exact (hblock ((hE.reachable_iff (Nat.ne_of_lt hlt)).1 hi) hc hc').reroute ..
      · exact absurd hlt (by rw [hA.length_eq]; exact Nat.lt_irrefl _)
    · rw [hA.length_eq, withPreheader_new] at hb'
      cases hb'
      rw [← hA.length_eq]
      exact hh.preheaderBlock ..

theorem Alike.addPreheader {header : BlockId} {entries : List BlockId} {h h' : Block}
    (hE : f.Entered header entries f.idBound h) (hE' : f'.Entered header entries f'.idBound h')
    (hheader : f.Reachable header) :
    Agree (fun h h' => h.WellFormed ∧ h'.WellFormed ∧ h.Alike h') (f.addPreheader header entries)
      (f'.addPreheader header entries) := by
  have hphis := (hA.block hheader hE.header_eq hE'.header_eq).phis.length_eq
  rw [← hA.idBound_eq] at hE'
  simp only [Function.addPreheader, lookup_eq_ok.2 hE.header_eq, lookup_eq_ok.2 hE'.header_eq,
    ← hA.freshId_eq]
  rcases f.freshId_cases with ⟨hfresh, -⟩ | hfresh
  · rw [hfresh]
    exact .error _
  rw [hfresh]
  simp only [ok_bind, ← hphis]
  by_cases hlt : idLimit < f.idBound + h.phis.length
  · simp only [hlt, if_true]
    exact .error _
  · simp only [hlt, if_false]
    exact .ok ⟨hE.wellFormed', hE'.wellFormed', hA.withPreheader hE hE' hheader⟩

end

/-- Preheaders are inserted in the same way into functions that are alike. -/
theorem addPreheaders_alike (fuel : Nat) {f f' : Function} (hf : f.WellFormed) (hf' : f'.WellFormed)
    (hA : f.Alike f') : Agree (fun h h' => h.WellFormed ∧ h'.WellFormed ∧ h.Alike h')
      (addPreheaders fuel f) (addPreheaders fuel f') := by
  induction fuel generalizing f f' with
  | zero => exact .error _
  | succ fuel ih =>
    obtain ⟨g, hgf, hg⟩ := FlowGraph.ofFunction_eq hf.toNumbered
    obtain ⟨g', hgf', hg'⟩ := FlowGraph.ofFunction_eq hf'.toNumbered
    have hflow := hA.flow hf.toNumbered hf'.toNumbered hgf hgf' hg
    obtain ⟨found, hirr, hred⟩ := hg.hasIrreducible_eq hf.toNumbered
    obtain ⟨found', hirr', hred'⟩ := hg'.hasIrreducible_eq hf'.toNumbered
    -- both flow graphs find the same irreducible edges and the same loop to split
    have hfound : found = found' := by
      have hiff : found = false ↔ found' = false := by
        rw [hred, hred', hg.reducible_iff_live hf.toNumbered, hg'.reducible_iff_live hf'.toNumbered,
          ← hflow.order_eq, ← hflow.isIrreducible_eq]
        refine forall₂_congr fun u hu => ?_
        rw [hflow.succs_eq u hu]
      cases found <;> cases found' <;> simp_all
    have hshared : g.sharedLoop? = g'.sharedLoop? := by
      rw [FlowGraph.sharedLoop?, FlowGraph.sharedLoop?, hflow.loops_eq, hflow.entries_eq]
    subst hfound
    simp only [addPreheaders, hgf, hgf', hirr, hirr', ok_bind, ← hshared]
    cases found with
    | true => exact .ok ⟨hf, hf', hA⟩
    | false =>
      rw [if_neg Bool.false_ne_true, if_neg Bool.false_ne_true]
      cases hs : g.sharedLoop? with
      | none => exact .ok ⟨hf, hf', hA⟩
      | some loop =>
        obtain ⟨header, entries⟩ := loop
        have hmem := (FlowGraph.mem_of_sharedLoop? hs).1
        have hr := hg.mem_order.1 (FlowGraph.mem_sharedHeaders.1 hmem).1
        have hh := List.getElem?_eq_getElem (hf.reachable_lt hr)
        obtain ⟨h', hh', -⟩ := hA.exists_block hr hh
        have hE := entered_of_sharedLoop? hf hg hs hh
        have hE' := entered_of_sharedLoop? hf' hg' (hshared ▸ hs) hh'
        exact (hA.addPreheader hE hE' hr).bind fun h h' hhh' => ih hhh'.1 hhh'.2.1 hhh'.2.2

theorem withPreheaders_alike {f f' : Function} (hf : f.WellFormed) (hf' : f'.WellFormed)
    (hA : f.Alike f') : Agree (fun h h' => h.WellFormed ∧ h'.WellFormed ∧ h.Alike h')
      f.withPreheaders f'.withPreheaders := by
  rw [withPreheaders, withPreheaders, ← hA.length_eq]
  exact addPreheaders_alike _ hf hf' hA

end Function

end Dataflow
