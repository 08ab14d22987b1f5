import Dataflow.Proofs.Flow.Loop
import Dataflow.Proofs.Flow.Redirect
import Dataflow.Proofs.Ssa.WellFormed
import Mathlib.Data.List.DropRight
import Mathlib.Data.List.TakeWhile

/-!
# One round of preheader insertion

`Function.withPreheader` is the function after the loop at a header has been given a preheader, and
`Function.Entered` what is known when that happens: the function is well formed, the entries of the
loop are the edges into its header from outside, and the fresh identifiers are above all others.
The control flow of the new function is the old one with these edges redirected
(`Entered.edge_iff`), and the new function is well formed (`Entered.wellFormed'`).
-/

namespace Dataflow

open Relation

namespace Exit

theorem mem_targets_retarget {e : Exit} {old new v : BlockId} :
    v ∈ (e.retarget old new).targets ↔ v ∈ e.targets ∧ v ≠ old ∨ v = new ∧ old ∈ e.targets := by
  cases e <;> simp only [retarget, targets, List.mem_cons, List.not_mem_nil, or_false] <;> grind

@[simp] theorem operands_retarget (e : Exit) (old new : BlockId) :
    (e.retarget old new).operands = e.operands := by
  cases e with
  | ret value => cases value <;> rfl
  | _ => rfl

end Exit

theorem isPhi_of_mem_phis {b : Block} {i : Instr} (h : i ∈ b.phis) : i.isPhi = true :=
  List.mem_takeWhile_imp h

theorem Block.phis_append (b : Block) : b.phis ++ b.body.dropWhile Instr.isPhi = b.body :=
  List.takeWhile_append_dropWhile

namespace Function

/-! ## Fresh identifiers -/

theorem le_foldl_max (ids : List InstId) (n : Nat) :
    n ≤ ids.foldl (fun n id => max n (id + 1)) n ∧
      ∀ id ∈ ids, id < ids.foldl (fun n id => max n (id + 1)) n := by
  induction ids generalizing n with
  | nil => simp
  | cons id ids ih =>
    obtain ⟨h₁, h₂⟩ := ih (max n (id + 1))
    simp only [List.foldl_cons, List.mem_cons, forall_eq_or_imp]
    exact ⟨Nat.le_trans (Nat.le_max_left ..) h₁, Nat.lt_of_lt_of_le (Nat.le_max_right ..) h₁, h₂⟩

theorem foldl_max_le {ids : List InstId} {n m : Nat} (hn : n ≤ m) (h : ∀ id ∈ ids, id < m) :
    ids.foldl (fun n id => max n (id + 1)) n ≤ m := by
  induction ids generalizing n with
  | nil => exact hn
  | cons id ids ih =>
    rw [List.forall_mem_cons] at h
    exact ih (Nat.max_le.2 ⟨hn, h.1⟩) h.2

/-- A bound above all identifiers that are defined. -/
def idBound (f : Function) : Nat := f.results.foldl (fun n id => max n (id + 1)) 0

theorem lt_idBound {f : Function} {id : InstId} (h : id ∈ f.results) : id < f.idBound :=
  (le_foldl_max _ _).2 id h

theorem idBound_le {f : Function} {m : Nat} (h : ∀ id ∈ f.results, id < m) : f.idBound ≤ m :=
  foldl_max_le (Nat.zero_le _) h

theorem freshId_cases (f : Function) :
    (f.freshId = .error .overflow ∧ idLimit < f.idBound) ∨ f.freshId = .ok f.idBound := by
  by_cases hids : f.results.all (· < idLimit)
  · exact .inr (if_pos hids)
  · refine .inl ⟨if_neg hids, ?_⟩
    obtain ⟨id, hid, hlt⟩ : ∃ id ∈ f.results, idLimit ≤ id := by simpa using hids
    exact Nat.lt_of_le_of_lt hlt (lt_idBound hid)

/-! ## The phis of a header and of its preheader -/

@[simp] theorem result?_innerPhi (entries : List BlockId) (preheader : BlockId)
    (phi : Instr × InstId) : (innerPhi entries preheader phi).result? = phi.1.result? := by
  obtain ⟨i, id⟩ := phi
  cases i <;> rfl

@[simp] theorem isPhi_innerPhi (entries : List BlockId) (preheader : BlockId)
    (phi : Instr × InstId) : (innerPhi entries preheader phi).isPhi = phi.1.isPhi := by
  obtain ⟨i, id⟩ := phi
  cases i <;> rfl

@[simp] theorem isPhi_outerPhi (entries : List BlockId) (phi : Instr × InstId) :
    (outerPhi entries phi).isPhi = phi.1.isPhi := by
  obtain ⟨i, id⟩ := phi
  cases i <;> rfl

theorem result?_outerPhi (entries : List BlockId) {phi : Instr × InstId}
    (h : phi.1.isPhi = true) : (outerPhi entries phi).result? = some phi.2 := by
  obtain ⟨i, id⟩ := phi
  cases i <;> first | rfl | cases h

/-- The function once the loop at `header` has a preheader. -/
def withPreheader (f : Function) (header : BlockId) (entries : List BlockId) (fresh : InstId)
    (h : Block) : Function :=
  { f with
    blocks := f.blocks.mapIdx (reroute header f.blocks.length entries fresh) ++
      [preheaderBlock header f.blocks.length entries fresh h] }

theorem addPreheader_eq_ok {f f' : Function} {header : BlockId} {entries : List BlockId} :
    f.addPreheader header entries = .ok f' ↔ ∃ fresh h, f.freshId = .ok fresh ∧
      f.blocks[header]? = some h ∧ fresh + h.phis.length ≤ idLimit ∧
      f' = f.withPreheader header entries fresh h := by
  simp only [addPreheader, throw_bind, bind_eq_ok, guard_eq_ok, lookup_eq_ok, pure_eq_ok,
    Nat.not_lt]
  constructor
  · rintro ⟨fresh, hfresh, h, hh, hle, rfl⟩
    exact ⟨fresh, h, hfresh, hh, hle, rfl⟩
  · rintro ⟨fresh, h, hfresh, hh, hle, rfl⟩
    exact ⟨fresh, hfresh, h, hh, hle, rfl⟩

/-- A loop of a function is given a preheader or the identifiers do not suffice. -/
theorem addPreheader_cases (f : Function) {header : BlockId} {h : Block} (entries : List BlockId)
    (hh : f.blocks[header]? = some h) :
    (f.addPreheader header entries = .error .overflow ∧ idLimit < f.idBound + h.phis.length) ∨
      f.addPreheader header entries = .ok (f.withPreheader header entries f.idBound h) := by
  rcases f.freshId_cases with ⟨hfresh, hlt⟩ | hfresh
  · refine .inl ⟨?_, Nat.lt_add_right _ hlt⟩
    rw [addPreheader, hfresh, error_bind]
  · by_cases hle : idLimit < f.idBound + h.phis.length
    · refine .inl ⟨?_, hle⟩
      simp only [addPreheader, hfresh, ok_bind, lookup_eq_ok.2 hh, hle]
      rfl
    · exact .inr (addPreheader_eq_ok.2 ⟨_, h, hfresh, hh, Nat.not_lt.1 hle, rfl⟩)

/-! ## The blocks of the new function -/

section
variable {header preheader : BlockId} {entries : List BlockId} {fresh : InstId} {i : Nat} {b : Block}

@[simp] theorem reroute_id : (reroute header preheader entries fresh i b).id = b.id := by
  unfold reroute innerHeader
  split <;> split <;> rfl

theorem reroute_exit : (reroute header preheader entries fresh i b).exit =
    if i ∈ entries then b.exit.retarget header preheader else b.exit := by
  unfold reroute innerHeader
  split <;> split <;> rfl

theorem reroute_body : (reroute header preheader entries fresh i b).body =
    if i = header then
      (b.phis.zipIdx fresh).map (innerPhi entries preheader) ++ b.body.dropWhile Instr.isPhi
    else b.body := by
  unfold reroute innerHeader
  split <;> split <;> rfl

theorem reroute_exit_operands :
    (reroute header preheader entries fresh i b).exit.operands = b.exit.operands := by
  rw [reroute_exit]
  split
  · exact Exit.operands_retarget ..
  · rfl

/-- Cutting phis in two leaves what each position of a block defines. -/
theorem map_result?_reroute : (reroute header preheader entries fresh i b).body.map Instr.result? =
    b.body.map Instr.result? := by
  rw [reroute_body]
  split
  · have hphis : ((b.phis.zipIdx fresh).map (innerPhi entries preheader)).map Instr.result? =
        b.phis.map Instr.result? := by
      conv_rhs => rw [← List.zipIdx_map_fst fresh b.phis]
      simp only [List.map_map, Function.comp_def, result?_innerPhi]
    rw [List.map_append, hphis, ← List.map_append, b.phis_append]
  · rfl

theorem blockResults_reroute :
    blockResults (reroute header preheader entries fresh i b) = blockResults b := by
  have hmap : ∀ c : Block, blockResults c = (c.body.map Instr.result?).filterMap id := fun c => by
    rw [List.filterMap_map]
    rfl
  rw [hmap, hmap, map_result?_reroute]

theorem length_phis_reroute :
    (reroute header preheader entries fresh i b).phis.length = b.phis.length := by
  rw [Block.phis, reroute_body]
  split
  · have hphis : ∀ q ∈ (b.phis.zipIdx fresh).map (innerPhi entries preheader), q.isPhi = true := by
      intro q hq
      obtain ⟨phi, hphi, rfl⟩ := List.mem_map.1 hq
      rw [isPhi_innerPhi]
      exact isPhi_of_mem_phis (List.fst_mem_of_mem_zipIdx hphi)
    have hrest : (b.body.dropWhile Instr.isPhi).takeWhile Instr.isPhi = [] :=
      List.takeWhile_eq_nil_iff.2 (List.dropWhile_get_zero_not _ _)
    rw [List.takeWhile_append_of_pos hphis, hrest, List.append_nil, List.length_map,
      List.length_zipIdx]
  · rfl

theorem blockResults_preheaderBlock :
    blockResults (preheaderBlock header preheader entries fresh b) =
      List.range' fresh b.phis.length := by
  rw [← List.zipIdx_map_snd fresh b.phis, blockResults, preheaderBlock, List.filterMap_map,
    ← List.filterMap_eq_map]
  refine List.filterMap_congr fun phi hphi => ?_
  exact result?_outerPhi entries (isPhi_of_mem_phis (List.fst_mem_of_mem_zipIdx hphi))

end

section
variable {f : Function} {header : BlockId} {entries : List BlockId} {fresh : InstId} {h : Block}

theorem withPreheader_length :
    (f.withPreheader header entries fresh h).blocks.length = f.blocks.length + 1 := by
  simp [withPreheader]

theorem withPreheader_getElem? {i : Nat} {b' : Block} :
    (f.withPreheader header entries fresh h).blocks[i]? = some b' ↔
      (∃ b, f.blocks[i]? = some b ∧
        b' = reroute header f.blocks.length entries fresh i b) ∨
      i = f.blocks.length ∧ b' = preheaderBlock header f.blocks.length entries fresh h := by
  rw [withPreheader, List.getElem?_append, List.length_mapIdx]
  split
  · rename_i hi
    rw [List.getElem?_mapIdx, List.getElem?_eq_getElem hi]
    simp [Nat.ne_of_lt hi, eq_comm]
  · rename_i hi
    rw [List.getElem?_eq_none (Nat.not_lt.1 hi), List.getElem?_singleton]
    have : i - f.blocks.length = 0 ↔ i = f.blocks.length := by omega
    simp [this, eq_comm]

theorem withPreheader_old {i : Nat} {b : Block} (hb : f.blocks[i]? = some b) :
    (f.withPreheader header entries fresh h).blocks[i]? =
      some (reroute header f.blocks.length entries fresh i b) :=
  withPreheader_getElem?.2 (.inl ⟨b, hb, rfl⟩)

theorem withPreheader_new : (f.withPreheader header entries fresh h).blocks[f.blocks.length]? =
    some (preheaderBlock header f.blocks.length entries fresh h) :=
  withPreheader_getElem?.2 (.inr ⟨rfl, rfl⟩)

theorem withPreheader_results : (f.withPreheader header entries fresh h).results =
    f.results ++ List.range' fresh h.phis.length := by
  have hold : (f.blocks.mapIdx (reroute header f.blocks.length entries fresh)).map blockResults =
      f.blocks.map blockResults := by
    refine List.ext_getElem? fun i => ?_
    rw [List.getElem?_map, List.getElem?_mapIdx, List.getElem?_map, Option.map_map]
    simp only [Function.comp_def, blockResults_reroute]
  have hflat : ∀ bs : List Block, bs.flatMap blockResults = (bs.map blockResults).flatten :=
    fun _ => List.flatMap_def
  change List.flatMap blockResults _ = List.flatMap blockResults _ ++ _
  rw [withPreheader, List.flatMap_append, hflat (List.mapIdx _ _), hold, ← hflat,
    List.flatMap_singleton, blockResults_preheaderBlock]

/-- A round takes as many identifiers as the header has phis. -/
theorem idBound_withPreheader :
    (f.withPreheader header entries f.idBound h).idBound = f.idBound + h.phis.length := by
  refine Nat.le_antisymm (idBound_le fun id hid => ?_) ?_
  · rw [withPreheader_results, List.mem_append, List.mem_range'_1] at hid
    rcases hid with hid | ⟨-, hlt⟩
    · exact Nat.lt_add_right _ (lt_idBound hid)
    · exact hlt
  · rcases Nat.eq_zero_or_pos h.phis.length with hzero | hpos
    · rw [hzero, Nat.add_zero]
      refine idBound_le fun id hid => lt_idBound ?_
      rw [withPreheader_results]
      exact List.mem_append_left _ hid
    · have hlast : f.idBound + h.phis.length - 1 ∈
          (f.withPreheader header entries f.idBound h).results := by
        rw [withPreheader_results, List.mem_append, List.mem_range'_1]
        omega
      exact Nat.le_of_pred_lt (lt_idBound hlast)

end

theorem defines_withPreheader {f : Function} {header : BlockId} {entries : List BlockId}
    {fresh : InstId} {h : Block} {v : Value} (hv : f.Defines v) :
    (f.withPreheader header entries fresh h).Defines v := by
  cases v with
  | inst id =>
    rw [Defines, withPreheader_results]
    exact List.mem_append_left _ hv
  | _ => exact hv

/-! ## One round -/

/-- The edges into a header from outside its loop are `entries`, and the identifiers from `fresh` on
are not in use. -/
structure Entered (f : Function) (header : BlockId) (entries : List BlockId) (fresh : InstId)
    (h : Block) : Prop where
  wellFormed : f.WellFormed
  header_eq : f.blocks[header]? = some h
  mem_entries : ∀ {u}, u ∈ entries ↔ Flow.Enters f.Edge entry header u
  entered : entries ≠ []
  lt_fresh : ∀ id ∈ f.results, id < fresh

section
variable {f : Function} {header : BlockId} {entries : List BlockId} {fresh : InstId} {h : Block}
  (hE : f.Entered header entries fresh h)
include hE

theorem Entered.header_lt : header < f.blocks.length := (List.getElem?_eq_some_iff.1 hE.header_eq).1

theorem Entered.redirectable : Flow.Redirectable f.Edge entry header f.blocks.length where
  no_source v he := Nat.lt_irrefl _ (hE.wellFormed.edge_lt he).1
  no_target u he := Nat.lt_irrefl _ (hE.wellFormed.edge_lt he).2
  root_ne := Nat.ne_of_lt hE.wellFormed.entry_lt
  head_ne := by
    obtain ⟨u, hu⟩ := List.exists_mem_of_ne_nil _ hE.entered
    rintro rfl
    exact hE.wellFormed.entry_untargeted u (hE.mem_entries.1 hu).edge
  entered := by
    obtain ⟨u, hu⟩ := List.exists_mem_of_ne_nil _ hE.entered
    exact ⟨u, hE.mem_entries.1 hu⟩

/-- The new control flow is the old one with the entries redirected. -/
theorem Entered.edge_iff {u v : BlockId} : (f.withPreheader header entries fresh h).Edge u v ↔
    Flow.Redirect f.Edge entry header f.blocks.length u v := by
  constructor
  · rintro ⟨b', hb', hv⟩
    rcases withPreheader_getElem?.1 hb' with ⟨b, hb, rfl⟩ | ⟨rfl, rfl⟩
    · rw [reroute_exit] at hv
      split at hv
      · rename_i hu
        rcases Exit.mem_targets_retarget.1 hv with ⟨hv, hne⟩ | ⟨rfl, -⟩
        · exact .old ⟨b, hb, hv⟩ fun hu => hne hu.2
        · exact .enter (hE.mem_entries.1 hu)
      · rename_i hu
        exact .old ⟨b, hb, hv⟩ fun hu' => hu (hE.mem_entries.2 hu'.1)
    · rw [preheaderBlock, Exit.targets, List.mem_singleton] at hv
      exact hv ▸ .arrive
  · rintro (⟨⟨b, hb, hv⟩, stays⟩ | hu | _)
    · refine ⟨_, withPreheader_old hb, ?_⟩
      rw [reroute_exit]
      split
      · rename_i hu
        exact Exit.mem_targets_retarget.2
          (.inl ⟨hv, fun hvh => stays ⟨hE.mem_entries.1 hu, hvh⟩⟩)
      · exact hv
    · obtain ⟨b, hb, hv⟩ := hu.edge
      refine ⟨_, withPreheader_old hb, ?_⟩
      rw [reroute_exit, if_pos (hE.mem_entries.2 hu)]
      exact Exit.mem_targets_retarget.2 (.inr ⟨rfl, hv⟩)
    · exact ⟨_, withPreheader_new, by simp [preheaderBlock, Exit.targets]⟩

theorem Entered.edge_eq : (f.withPreheader header entries fresh h).Edge =
    Flow.Redirect f.Edge entry header f.blocks.length := by
  funext u v
  exact propext hE.edge_iff

theorem Entered.edge_header {u : BlockId} :
    (f.withPreheader header entries fresh h).Edge u header ↔
      f.Edge u header ∧ u ∉ entries ∨ u = f.blocks.length := by
  rw [hE.edge_iff, hE.redirectable.redirect_head_iff, hE.mem_entries]

theorem Entered.edge_new {u : BlockId} :
    (f.withPreheader header entries fresh h).Edge u f.blocks.length ↔ u ∈ entries := by
  rw [hE.edge_iff, hE.redirectable.redirect_new_iff, hE.mem_entries]

theorem Entered.edge_other {u v : BlockId} (hv : v ≠ header) (hn : v ≠ f.blocks.length) :
    (f.withPreheader header entries fresh h).Edge u v ↔ f.Edge u v := by
  rw [hE.edge_iff]
  constructor
  · rintro (⟨he, -⟩ | _ | _)
    · exact he
    · exact absurd rfl hn
    · exact absurd rfl hv
  · exact fun he => .old he fun h => hv h.2

/-! ## The new function is well formed -/

theorem Entered.header_eq_of {b : Block} (hb : f.blocks[header]? = some b) : b = h :=
  Option.some.inj (hb.symm.trans hE.header_eq)

theorem Entered.nodup_results' : (f.withPreheader header entries fresh h).results.Nodup := by
  rw [withPreheader_results, List.nodup_append]
  refine ⟨hE.wellFormed.nodup_results, List.nodup_range', ?_⟩
  rintro id hid _ hid' rfl
  exact Nat.lt_irrefl _ (Nat.lt_of_lt_of_le (hE.lt_fresh id hid) (List.mem_range'_1.1 hid').1)

theorem Entered.phis_first' : ∀ b ∈ (f.withPreheader header entries fresh h).blocks,
    ∀ i ∈ b.body.dropWhile Instr.isPhi, i.isPhi = false := by
  intro b' hb'
  obtain ⟨i, hi⟩ := List.mem_iff_getElem?.1 hb'
  rcases withPreheader_getElem?.1 hi with ⟨b, hb, rfl⟩ | ⟨rfl, rfl⟩
  · have hfirst := hE.wellFormed.phis_first b (List.mem_of_getElem? hb)
    rw [reroute_body]
    split
    · rw [List.dropWhile_append_of_pos, List.dropWhile_idempotent]
      · exact hfirst
      · rintro _ hj
        obtain ⟨q, hq, rfl⟩ := List.mem_map.1 hj
        rw [isPhi_innerPhi]
        exact isPhi_of_mem_phis (List.fst_mem_of_mem_zipIdx hq)
    · exact hfirst
  · intro j hj
    exfalso
    rw [List.dropWhile_eq_nil_iff.2] at hj
    · cases hj
    · rintro _ hj
      obtain ⟨q, hq, rfl⟩ := List.mem_map.1 hj
      rw [isPhi_outerPhi]
      exact isPhi_of_mem_phis (List.fst_mem_of_mem_zipIdx hq)

theorem Entered.numbered : (f.withPreheader header entries fresh h).Numbered where
  nonempty := by simp [withPreheader]
  id_eq := by
    intro i b' hb'
    rcases withPreheader_getElem?.1 hb' with ⟨b, hb, rfl⟩ | ⟨rfl, rfl⟩
    · rw [reroute_id]
      exact hE.wellFormed.id_eq hb
    · rfl
  target_lt := by
    intro i b' hb' v hv
    rw [withPreheader_length]
    have he : (f.withPreheader header entries fresh h).Edge i v := ⟨b', hb', hv⟩
    rw [hE.edge_iff] at he
    cases he with
    | old he _ => exact Nat.lt_succ_of_lt (hE.wellFormed.edge_lt he).2
    | enter => exact Nat.lt_succ_self _
    | arrive => exact Nat.lt_succ_of_lt hE.header_lt

end

/-- The instructions of the new function: old ones, and the two parts of each phi of the header. -/
inductive Rerouted (f : Function) (header : BlockId) (entries : List BlockId) (fresh : InstId)
    (h : Block) : BlockId → Instr → Prop
  | old {b : BlockId} {c : Block} {i : Instr} (block : f.blocks[b]? = some c) (mem : i ∈ c.body)
    (stays : b = header → i.isPhi = false) : Rerouted f header entries fresh h b i
  | inner {dest k : InstId} {ty : Ty} {incoming : List (BlockId × Value)}
    (mem : .phi dest ty incoming ∈ h.body) (fresh_mem : k ∈ List.range' fresh h.phis.length) :
    Rerouted f header entries fresh h header
      (.phi dest ty (incoming.filter (·.1 ∉ entries) ++ [(f.blocks.length, .inst k)]))
  | outer {dest k : InstId} {ty : Ty} {incoming : List (BlockId × Value)}
    (mem : .phi dest ty incoming ∈ h.body) (fresh_mem : k ∈ List.range' fresh h.phis.length) :
    Rerouted f header entries fresh h f.blocks.length
      (.phi k ty (incoming.filter (·.1 ∈ entries)))

theorem exists_phi_of_mem_zipIdx {b : Block} {q : Instr} {k fresh : InstId}
    (hq : (q, k) ∈ b.phis.zipIdx fresh) : ∃ dest ty incoming, q = .phi dest ty incoming ∧
      .phi dest ty incoming ∈ b.body ∧ k ∈ List.range' fresh b.phis.length := by
  have hphi := isPhi_of_mem_phis (List.fst_mem_of_mem_zipIdx hq)
  have hmem : q ∈ b.body := (List.takeWhile_sublist _).subset (List.fst_mem_of_mem_zipIdx hq)
  have hk : k ∈ List.range' fresh b.phis.length := by
    rw [← List.zipIdx_map_snd fresh b.phis]
    exact List.mem_map_of_mem hq
  cases q with
  | phi dest ty incoming => exact ⟨dest, ty, incoming, rfl, hmem, hk⟩
  | _ => cases hphi

section
variable {f : Function} {header : BlockId} {entries : List BlockId} {fresh : InstId} {h : Block}
  (hE : f.Entered header entries fresh h)
include hE

theorem Entered.rerouted {i : Nat} {b' : Block} {j : Instr}
    (hb' : (f.withPreheader header entries fresh h).blocks[i]? = some b') (hj : j ∈ b'.body) :
    Rerouted f header entries fresh h i j := by
  rcases withPreheader_getElem?.1 hb' with ⟨b, hb, rfl⟩ | ⟨rfl, rfl⟩
  · rw [reroute_body] at hj
    split at hj
    · rename_i hi
      subst hi
      rcases List.mem_append.1 hj with hj | hj
      · obtain ⟨⟨q, k⟩, hq, rfl⟩ := List.mem_map.1 hj
        rw [hE.header_eq_of hb] at hq
        obtain ⟨dest, ty, incoming, rfl, hmem, hk⟩ := exists_phi_of_mem_zipIdx hq
        exact .inner hmem hk
      · refine .old hb ((List.dropWhile_sublist _).subset hj) fun _ => ?_
        exact hE.wellFormed.phis_first b (List.mem_of_getElem? hb) j hj
    · rename_i hi
      exact .old hb hj fun h => absurd h hi
  · obtain ⟨⟨q, k⟩, hq, rfl⟩ := List.mem_map.1 hj
    obtain ⟨dest, ty, incoming, rfl, hmem, hk⟩ := exists_phi_of_mem_zipIdx hq
    exact .outer hmem hk

theorem Entered.operands' {i : Nat} {j : Instr} (hj : Rerouted f header entries fresh h i j) :
    ∀ v ∈ j.operands, (f.withPreheader header entries fresh h).Defines v := by
  have hh := List.mem_of_getElem? hE.header_eq
  cases hj with
  | old hb hj _ =>
    intro v hv
    exact defines_withPreheader (hE.wellFormed.operands _ (List.mem_of_getElem? hb) j hj v hv)
  | @inner dest k ty incoming hmem hk =>
    simp only [Instr.operands, List.map_append, List.map_cons, List.map_nil, List.mem_append,
      List.mem_singleton]
    rintro v (hv | rfl)
    · refine defines_withPreheader (hE.wellFormed.operands h hh _ hmem v ?_)
      exact ((List.filter_sublist).map _).subset hv
    · rw [Defines, withPreheader_results]
      exact List.mem_append_right _ hk
  | @outer dest k ty incoming hmem hk =>
    intro v hv
    refine defines_withPreheader (hE.wellFormed.operands h hh _ hmem v ?_)
    exact ((List.filter_sublist).map _).subset hv

omit hE in
theorem map_fst_filter (incoming : List (BlockId × Value)) (q : BlockId → Bool) :
    (incoming.filter fun e => q e.1).map (·.1) = (incoming.map (·.1)).filter q := by
  rw [List.filter_map]
  rfl

theorem Entered.entries' {i : Nat} {dest : InstId} {ty : Ty} {incoming : List (BlockId × Value)}
    (hj : Rerouted f header entries fresh h i (.phi dest ty incoming)) :
    (incoming.map (·.1)).Nodup ∧ ∀ p, p ∈ incoming.map (·.1) ↔
      (f.withPreheader header entries fresh h).Edge p i := by
  have hh := List.mem_of_getElem? hE.header_eq
  have hid := hE.wellFormed.id_eq hE.header_eq
  generalize hjq : Instr.phi dest ty incoming = j at hj
  cases hj with
  | @old _ c _ hb hj stays =>
    subst hjq
    have hne : i ≠ header := fun hbh => Bool.noConfusion (stays hbh)
    have hn : i ≠ f.blocks.length := Nat.ne_of_lt (List.getElem?_eq_some_iff.1 hb).1
    obtain ⟨hnd, hmem⟩ := hE.wellFormed.entries c (List.mem_of_getElem? hb) hj
    rw [hE.wellFormed.id_eq hb] at hmem
    exact ⟨hnd, fun p => (hmem p).trans (hE.edge_other hne hn).symm⟩
  | @inner dest' k ty' incoming' hj hk =>
    cases hjq
    -- the header keeps its entries from within the loop and has one for the new block
    obtain ⟨hnd, hmem⟩ := hE.wellFormed.entries h hh hj
    rw [hid] at hmem
    simp only [List.map_append, map_fst_filter incoming' fun p => decide (p ∉ entries),
      List.map_cons, List.map_nil, hE.edge_header]
    refine ⟨?_, fun p => by simp [hmem]⟩
    refine List.nodup_append.2 ⟨hnd.filter _, List.nodup_singleton _, ?_⟩
    rintro p hp q hq rfl
    obtain rfl := List.mem_singleton.1 hq
    exact Nat.lt_irrefl _ (hE.wellFormed.edge_lt ((hmem _).1 (List.mem_filter.1 hp).1)).1
  | @outer dest' k ty' incoming' hj hk =>
    cases hjq
    -- the new block has those from outside
    obtain ⟨hnd, hmem⟩ := hE.wellFormed.entries h hh hj
    rw [hid] at hmem
    simp only [map_fst_filter incoming' fun p => decide (p ∈ entries), hE.edge_new]
    refine ⟨hnd.filter _, fun p => ?_⟩
    simp only [List.mem_filter, hmem, decide_eq_true_eq, and_iff_right_iff_imp]
    exact fun hp => (hE.mem_entries.1 hp).edge

/-- A function stays well formed when a loop is given a preheader. -/
theorem Entered.wellFormed' : (f.withPreheader header entries fresh h).WellFormed where
  toNumbered := hE.numbered
  phis_first := hE.phis_first'
  nodup_results := hE.nodup_results'
  entry_untargeted := by
    intro u he
    rw [hE.edge_other hE.redirectable.head_ne.symm hE.redirectable.root_ne] at he
    exact hE.wellFormed.entry_untargeted u he
  operands := by
    intro b hb j hj
    obtain ⟨i, hi⟩ := List.mem_iff_getElem?.1 hb
    exact hE.operands' (hE.rerouted hi hj)
  exit_operands := by
    intro b' hb' v hv
    obtain ⟨i, hi⟩ := List.mem_iff_getElem?.1 hb'
    rcases withPreheader_getElem?.1 hi with ⟨b, hb, rfl⟩ | ⟨rfl, rfl⟩
    · rw [reroute_exit_operands] at hv
      exact defines_withPreheader (hE.wellFormed.exit_operands b (List.mem_of_getElem? hb) v hv)
    · cases hv
  entries := by
    intro b hb dest ty incoming hj
    obtain ⟨i, hi⟩ := List.mem_iff_getElem?.1 hb
    rw [hE.numbered.id_eq hi]
    exact hE.entries' (hE.rerouted hi hj)

end

end Function

end Dataflow
