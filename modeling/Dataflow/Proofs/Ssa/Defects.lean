import Dataflow.Proofs.Ssa.WellFormed
import Mathlib.Data.List.TakeWhile

/-!
# What the check reports

`Function.HasDefect` says of every defect what is wrong with a function that has it.
`Function.check_exact`: the check accepts the functions without a defect, which are the well-formed
ones, and of any other function it reports a defect that the function has. It never fails otherwise:
by the time it looks up predecessors, the first pass has made sure that there are some to look up.

Both passes stop at the first defect, so what one step reports depends on the steps before it. The
first pass reaches an instruction with the identifiers of all instructions in front of it
(`foldlM_scanInstr`, `foldlM_scanBlock`); one that is found again there has been defined twice.
-/

namespace Dataflow

namespace Function

/-- The value is an operand somewhere in the function. -/
def Mentions (f : Function) (v : Value) : Prop :=
  ∃ b ∈ f.blocks, (∃ i ∈ b.body, v ∈ i.operands) ∨ v ∈ b.exit.operands

/-- Each block that branches to `b` has exactly one entry, and no other block has one. -/
def OneEntryEach (f : Function) (b : BlockId) (incoming : List (BlockId × Value)) : Prop :=
  (incoming.map (·.1)).Nodup ∧
    ∀ p, p ∈ incoming.map (·.1) ↔ ∃ c ∈ f.blocks, c.id = p ∧ b ∈ c.exit.targets

/-- What is wrong with a function that has a defect. -/
def HasDefect (f : Function) : Defect → Prop
  | .noBlocks name => f.blocks = [] ∧ name = f.name
  | .misplacedBlock => ∃ (i : Nat) (b : Block), f.blocks[i]? = some b ∧ b.id ≠ i
  | .latePhi block => ∃ b ∈ f.blocks, b.id = block ∧ ∃ before phi after,
      b.body = before ++ phi :: after ∧ phi.isPhi = true ∧ ∃ i ∈ before, i.isPhi = false
  | .reusedId id => 2 ≤ f.results.count id
  | .unknownTarget block target => ∃ b ∈ f.blocks, b.id = block ∧ target ∈ b.exit.targets ∧
      f.blocks.length ≤ target
  | .entryTargeted => ∃ b ∈ f.blocks, entry ∈ b.exit.targets
  | .unknownArg index => f.Mentions (.arg index) ∧ f.params.length ≤ index
  | .unknownGlobal id => f.Mentions (.global id) ∧ f.globals.length ≤ id
  | .undefinedValue id => f.Mentions (.inst id) ∧ id ∉ f.results
  | .phiEntries dest => ∃ b ∈ f.blocks, ∃ ty incoming, .phi dest ty incoming ∈ b.body ∧
      ¬ f.OneEntryEach b.id incoming

/-- The fault names a defect that the function has. -/
def Reports (f : Function) (fault : Fault) : Prop := ∃ d, fault = .illFormed d ∧ f.HasDefect d

variable {f : Function}

theorem HasDefect.reports {d : Defect} (h : f.HasDefect d) : f.Reports (.illFormed d) := ⟨d, rfl, h⟩

/-! ## Well-formed functions have no defect -/

theorem Numbered.edge_iff (hf : f.Numbered) {p t : BlockId} :
    f.Edge p t ↔ ∃ c ∈ f.blocks, c.id = p ∧ t ∈ c.exit.targets := by
  rw [← hf.mem_sources]
  simp only [List.mem_eraseDups, List.mem_map, List.mem_filter, decide_eq_true_eq]
  exact exists_congr fun c => by tauto

theorem WellFormed.defines_of_mentions (hf : f.WellFormed) {v : Value} (hv : f.Mentions v) :
    f.Defines v := by
  obtain ⟨b, hb, ⟨i, hi, hv⟩ | hv⟩ := hv
  · exact hf.operands b hb i hi v hv
  · exact hf.exit_operands b hb v hv

theorem WellFormed.not_hasDefect (hf : f.WellFormed) (d : Defect) : ¬ f.HasDefect d := by
  intro hd
  cases d with
  | noBlocks name => exact hf.nonempty hd.1
  | misplacedBlock =>
    obtain ⟨i, b, hb, hne⟩ := hd
    exact hne (hf.id_eq hb)
  | latePhi block =>
    obtain ⟨b, hb, -, before, phi, after, hbody, hphi, i, hi, hnot⟩ := hd
    -- behind the first instruction that is no phi there are no phis
    have hlate : phi ∈ b.body.dropWhile Instr.isPhi := by
      rw [hbody, List.dropWhile_append, if_neg]
      · exact List.mem_append_right _ List.mem_cons_self
      · intro hall
        rw [List.isEmpty_iff, List.dropWhile_eq_nil_iff] at hall
        rw [hall i hi] at hnot
        cases hnot
    rw [hf.phis_first b hb phi hlate] at hphi
    cases hphi
  | reusedId id =>
    have hle := List.nodup_iff_count_le_one.1 hf.nodup_results id
    exact absurd hd (by rw [HasDefect]; omega)
  | unknownTarget block target =>
    obtain ⟨b, hb, -, ht, hle⟩ := hd
    obtain ⟨i, hi⟩ := List.mem_iff_getElem?.1 hb
    exact Nat.not_lt.2 hle (hf.target_lt hi target ht)
  | entryTargeted =>
    obtain ⟨b, hb, ht⟩ := hd
    exact hf.entry_untargeted b.id (hf.edge_iff.2 ⟨b, hb, rfl, ht⟩)
  | unknownArg index => exact Nat.not_lt.2 hd.2 (hf.defines_of_mentions hd.1)
  | unknownGlobal id => exact Nat.not_lt.2 hd.2 (hf.defines_of_mentions hd.1)
  | undefinedValue id => exact hd.2 (hf.defines_of_mentions hd.1)
  | phiEntries dest =>
    obtain ⟨b, hb, ty, incoming, hphi, hnot⟩ := hd
    obtain ⟨hnd, hmem⟩ := hf.entries b hb hphi
    exact hnot ⟨hnd, fun p => (hmem p).trans hf.edge_iff⟩

/-! ## The first pass -/

/-- The block is past its phis only if one of its instructions is none. -/
theorem exists_of_pastPhis {block : BlockId} {body : List Instr} {s t : Scan}
    (h : body.foldlM (scanInstr block) s = .ok t) (ht : t.pastPhis = true) :
    s.pastPhis = true ∨ ∃ i ∈ body, i.isPhi = false := by
  induction body generalizing s with
  | nil =>
    obtain rfl := pure_eq_ok.1 h
    exact .inl ht
  | cons i body ih =>
    rw [List.foldlM_cons] at h
    obtain ⟨u, hu, hrest⟩ := bind_eq_ok.1 h
    refine .inr ?_
    rcases ih hrest with hpast | ⟨j, hj, hphi⟩
    · refine ⟨i, List.mem_cons_self, ?_⟩
      have hstep : u.pastPhis = !i.isPhi := by
        simp only [scanInstr, throw_bind, guard_eq_ok] at hu
        cases hid : i.result? with
        | none =>
          rw [hid] at hu
          rw [← pure_eq_ok.1 hu.2]
        | some id =>
          rw [hid] at hu
          rw [← pure_eq_ok.1 (guard_eq_ok.1 hu.2).2]
      simpa [hpast] using hstep
    · exact ⟨j, List.mem_cons_of_mem _ hj, hphi⟩

section
variable {before after : List Block} {b : Block} (hsplit : f.blocks = before ++ b :: after)
include hsplit

theorem scanInstr_reports {front rest : List Instr} {i : Instr} {s : Scan}
    (hbody : b.body = front ++ i :: rest)
    (hpast : s.pastPhis = true → ∃ j ∈ front, j.isPhi = false)
    (hdefined : ∀ id ∈ s.defined, id ∈ before.flatMap blockResults ++ front.filterMap Instr.result?) :
    FailsOnly f.Reports (scanInstr b.id s i) := by
  have hb : b ∈ f.blocks := hsplit ▸ List.mem_append_right _ List.mem_cons_self
  unfold scanInstr
  simp only [throw_bind]
  refine failsOnly_guard (fun hlate => ?_) fun _ => ?_
  · rw [Bool.and_eq_true] at hlate
    exact HasDefect.reports (d := .latePhi b.id)
      ⟨b, hb, rfl, front, i, rest, hbody, hlate.1, hpast hlate.2⟩
  · cases hid : i.result? with
    | none => exact failsOnly_ok _
    | some id =>
      refine failsOnly_guard (fun hmem => ?_) fun _ => failsOnly_ok _
      refine HasDefect.reports (d := .reusedId id) ?_
      -- once in front of the instruction, and once at it
      have hresults : f.results = (before.flatMap blockResults ++ front.filterMap Instr.result?) ++
          id :: (rest.filterMap Instr.result? ++ after.flatMap blockResults) := by
        have hflat : f.results = f.blocks.flatMap blockResults := rfl
        rw [hflat, hsplit, List.flatMap_append, List.flatMap_cons, blockResults, hbody,
          List.filterMap_append, List.filterMap_cons_some hid]
        simp only [List.append_assoc, List.cons_append]
      have hfront := List.count_pos_iff.2 (hdefined id hmem)
      rw [HasDefect, hresults, List.count_append, List.count_cons_self]
      omega

theorem scanBlock_reports {defined : List InstId}
    (hdefined : defined = (before.flatMap blockResults).reverse) (hnd : defined.Nodup) :
    FailsOnly f.Reports (scanBlock f.blocks.length defined (b, before.length)) := by
  have hget : f.blocks[before.length]? = some b := by
    rw [hsplit, List.getElem?_append_right (Nat.le_refl _), Nat.sub_self, List.getElem?_cons_zero]
  unfold scanBlock
  simp only [throw_bind]
  refine failsOnly_guard (fun hne => ?_) fun _ => ?_
  · exact HasDefect.reports (d := .misplacedBlock) ⟨before.length, b, hget, hne⟩
  refine .bind (failsOnly_foldlM fun front i rest s hbody hs => ?_) fun s => ?_
  · refine scanInstr_reports hsplit hbody (fun hpast => ?_) fun id hid => ?_
    · exact (exists_of_pastPhis hs hpast).resolve_left Bool.false_ne_true
    · obtain ⟨-, -, hids⟩ := (foldlM_scanInstr hnd).1 ⟨s.pastPhis, hs⟩
      rw [hids, hdefined, List.mem_append, List.mem_reverse, List.mem_reverse] at hid
      exact List.mem_append.2 hid.symm
  · refine .bind (failsOnly_each fun t ht => ?_) fun _ => failsOnly_ok _
    exact failsOnly_require fun hlt => HasDefect.reports (d := .unknownTarget b.id t)
      ⟨b, List.mem_of_getElem? hget, rfl, ht, Nat.not_lt.1 hlt⟩

end

theorem scan_reports : FailsOnly f.Reports f.scan := by
  refine failsOnly_foldlM fun front x rest defined hzip hdefined => ?_
  obtain ⟨before, after', hblocks, rfl, hrest⟩ := List.zipIdx_eq_append_iff.1 hzip
  obtain ⟨b, after, rfl, rfl, -⟩ := List.zipIdx_eq_cons_iff.1 hrest.symm
  obtain ⟨-, hnd, hids⟩ := (foldlM_scanBlock List.nodup_nil).1 hdefined
  rw [List.append_nil] at hids
  rw [Nat.zero_add]
  exact scanBlock_reports hblocks hids hnd

/-! ## The second pass -/

theorem checkValue_reports {v : Value} (hv : f.Mentions v) :
    FailsOnly f.Reports (f.checkValue f.results.reverse v) := by
  cases v with
  | const c => exact failsOnly_ok ()
  | arg i =>
    exact failsOnly_require fun h => HasDefect.reports (d := .unknownArg i) ⟨hv, Nat.not_lt.1 h⟩
  | global g =>
    exact failsOnly_require fun h => HasDefect.reports (d := .unknownGlobal g) ⟨hv, Nat.not_lt.1 h⟩
  | inst id =>
    exact failsOnly_require fun h => HasDefect.reports (d := .undefinedValue id)
      ⟨hv, fun hid => h (List.mem_reverse.2 hid)⟩

section
variable (hf : f.Numbered)
include hf

theorem Numbered.checkEntries_reports {b : Block} (hb : b ∈ f.blocks) {i : Instr} (hi : i ∈ b.body) :
    FailsOnly f.Reports (checkEntries
      (ascending ((f.blocks.filter (b.id ∈ ·.exit.targets)).map Block.id).eraseDups) i) := by
  cases i with
  | phi dest ty incoming =>
    refine failsOnly_require fun hne => HasDefect.reports (d := .phiEntries dest)
      ⟨b, hb, ty, incoming, hi, ?_⟩
    rintro ⟨hnd, hmem⟩
    have hok := (hf.checkEntries_eq_ok (t := b.id) (i := .phi dest ty incoming)).2 (by
      rintro _ _ _ ⟨rfl, rfl, rfl⟩
      exact ⟨hnd, fun p => (hmem p).trans hf.edge_iff.symm⟩)
    rw [checkEntries, if_neg hne] at hok
    cases hok
  | _ => exact failsOnly_ok ()

theorem Numbered.checkOperands_reports {b : Block} (hb : b ∈ f.blocks)
    {preds : List (List BlockId)} (hp : f.predecessors = .ok preds) :
    FailsOnly f.Reports (f.checkOperands f.results.reverse preds b) := by
  have hid : b.id < f.blocks.length := by
    obtain ⟨i, hi⟩ := List.mem_iff_getElem?.1 hb
    rw [hf.id_eq hi]
    exact (List.getElem?_eq_some_iff.1 hi).1
  unfold checkOperands
  refine .bind (failsOnly_each fun i hi => ?_) fun _ => failsOnly_each fun v hv => ?_
  · refine .bind (failsOnly_each fun v hv => ?_) fun _ => ?_
    · exact checkValue_reports ⟨b, hb, .inl ⟨i, hi, hv⟩⟩
    · split
      · -- the first pass has made sure that the block has predecessors to look up
        rw [hf.lookup_predecessors hp hid, ok_bind]
        exact hf.checkEntries_reports hb hi
      · exact failsOnly_ok ()
  · exact checkValue_reports ⟨b, hb, .inr hv⟩

end

theorem check_reports : FailsOnly f.Reports f.check := by
  unfold check
  simp only [throw_bind]
  refine failsOnly_guard (fun hnil => ?_) fun hne => ?_
  · exact HasDefect.reports (d := .noBlocks f.name) ⟨List.isEmpty_iff.1 hnil, rfl⟩
  refine scan_reports.andThen fun ids hscan => ?_
  obtain ⟨hshaped, -, rfl⟩ := scan_eq_ok.1 hscan
  have hf : f.Numbered := ⟨by simpa using hne, fun hb => (hshaped _ _ hb).id_eq,
    fun hb => (hshaped _ _ hb).target_lt⟩
  obtain ⟨preds, hp⟩ : ∃ preds, f.predecessors = .ok preds := ⟨_, hf.predecessors_eq⟩
  rw [hp, ok_bind, hf.lookup_predecessors hp hf.entry_lt, ok_bind]
  split
  · exact failsOnly_each fun b hb => hf.checkOperands_reports hb hp
  · rename_i hentry
    refine failsOnly_error (HasDefect.reports (d := .entryTargeted) ?_)
    obtain ⟨u, hu⟩ := List.exists_mem_of_ne_nil _ (by simpa [List.isEmpty_iff] using hentry)
    obtain ⟨b, hb, -, ht⟩ := hf.edge_iff.1 (hf.mem_sources.1 (mem_ascending.1 hu))
    exact ⟨b, hb, ht⟩

/-- **The check is exact.** It accepts the well-formed functions, which are the functions without a
defect. Of any other function it reports a defect that the function has; it does not fail in any other
way. -/
theorem check_exact (f : Function) :
    (f.check = .ok () ↔ f.WellFormed) ∧ (f.WellFormed ↔ ∀ d, ¬ f.HasDefect d) ∧
    ∀ fault, f.check = .error fault → ∃ d, fault = .illFormed d ∧ f.HasDefect d := by
  refine ⟨check_eq_ok_iff, ⟨WellFormed.not_hasDefect, fun hnone => ?_⟩, check_reports⟩
  cases hcheck : f.check with
  | ok _ => exact check_eq_ok_iff.1 hcheck
  | error fault =>
    obtain ⟨d, -, hd⟩ := check_reports fault hcheck
    exact absurd hd (hnone d)

/-- Both arms of a branch lead to one block, whose phi lists the one predecessor twice. -/
def doubledEntry : Function where
  name := "doubled"
  params := [⟨"c", .int .w1⟩]
  globals := []
  blocks := [⟨0, "entry", [], .branch (.arg 0) 1 1⟩,
    ⟨1, "join", [.phi 0 (.int .w1) [(0, .arg 0), (0, .arg 0)]], .ret (some (.inst 0))⟩]

theorem check_exact_doubledEntry :
    doubledEntry.check = .error (.illFormed (.phiEntries 0)) ∧
    doubledEntry.HasDefect (.phiEntries 0) ∧ ¬ doubledEntry.WellFormed := by
  have hcheck : doubledEntry.check = .error (.illFormed (.phiEntries 0)) := by decide
  obtain ⟨-, hwf, hreport⟩ := check_exact doubledEntry
  obtain ⟨d, hd, hdefect⟩ := hreport _ hcheck
  cases hd
  exact ⟨hcheck, hdefect, fun h => hwf.1 h _ hdefect⟩

end Function

end Dataflow
