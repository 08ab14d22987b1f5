import Dataflow.Proofs.Lower.Room

/-!
# When lowering succeeds

Whether a function is lowered, and why not, is decided by the function, the options and the regions
that the disambiguator names (`Verdict`). `Session.lower_verdict` says so of every function that
passes the check, with the two cases in which numbers run out. `Session.verdict_of_room` excludes
these two by bounds on the function and the session.
-/

namespace Dataflow

open Relation

/-- What becomes of a function whose accesses are given some regions: it is lowered if the function
is `Lowerable`, its loops are resolved and its accesses bound. Otherwise it is refused, for the first
of these reasons: it is unsupported, an access is unbound, or a loop is ambiguous. -/
structure Verdict (f : Function) (o : Options) (rs : List (Option Region))
    (result : Except Failure Graph) : Prop where
  ok_iff : (∃ g, result = .ok g) ↔
    f.Lowerable ∧ (o.mergeLatches = true ∨ f.SingleLatch) ∧ (o.defaultMemory = true ∨ none ∉ rs)
  unsupported : ¬ f.Lowerable → ∃ u, result = .error (.refused (.unsupported u))
  unbound : f.Lowerable → ¬ (o.defaultMemory = true ∨ none ∉ rs) →
    ∃ n, result = .error (.refused (.unboundAccess n))
  ambiguous : f.Lowerable → (o.defaultMemory = true ∨ none ∉ rs) →
    ¬ (o.mergeLatches = true ∨ f.SingleLatch) →
    ∃ n latches, result = .error (.refused (.unresolvedLoop n (.ambiguousLatches latches)))

namespace Verdict

variable {f : Function} {o : Options} {rs : List (Option Region)}

theorem of_unsupported (hf : ¬ f.Lowerable) (u : Unsupported) :
    Verdict f o rs (.error (.refused (.unsupported u))) where
  ok_iff := ⟨fun ⟨_, h⟩ => (nomatch h), fun h => absurd h.1 hf⟩
  unsupported _ := ⟨u, rfl⟩
  unbound h := absurd h hf
  ambiguous h := absurd h hf

theorem of_unbound (hf : f.Lowerable) (hrs : ¬ (o.defaultMemory = true ∨ none ∉ rs)) (n : NodeId) :
    Verdict f o rs (.error (.refused (.unboundAccess n))) where
  ok_iff := ⟨fun ⟨_, h⟩ => (nomatch h), fun h => absurd h.2.2 hrs⟩
  unsupported h := absurd hf h
  unbound _ _ := ⟨n, rfl⟩
  ambiguous _ h := absurd h hrs

theorem of_ambiguous (hf : f.Lowerable) (hrs : o.defaultMemory = true ∨ none ∉ rs)
    (hloops : ¬ (o.mergeLatches = true ∨ f.SingleLatch)) (n : NodeId) (latches : Nat) :
    Verdict f o rs (.error (.refused (.unresolvedLoop n (.ambiguousLatches latches)))) where
  ok_iff := ⟨fun ⟨_, h⟩ => (nomatch h), fun h => absurd h.2.1 hloops⟩
  unsupported h := absurd hf h
  unbound _ h := absurd hrs h
  ambiguous _ _ _ := ⟨n, latches, rfl⟩

/-- Every verdict is a graph or a refusal. -/
theorem ne_fault {result : Except Failure Graph} (h : Verdict f o rs result) (e : Fault) :
    result ≠ .error (.fault e) := by
  rintro rfl
  by_cases hf : f.Lowerable
  · by_cases hrs : o.defaultMemory = true ∨ none ∉ rs
    · by_cases hloops : o.mergeLatches = true ∨ f.SingleLatch
      · obtain ⟨_, hg⟩ := h.ok_iff.2 ⟨hf, hloops, hrs⟩
        cases hg
      · obtain ⟨_, _, hn⟩ := h.ambiguous hf hrs hloops
        cases hn
    · obtain ⟨_, hn⟩ := h.unbound hf hrs
      cases hn
  · obtain ⟨_, hu⟩ := h.unsupported hf
    cases hu

theorem of_ok (hf : f.Lowerable) (hrs : o.defaultMemory = true ∨ none ∉ rs)
    (hloops : o.mergeLatches = true ∨ f.SingleLatch) (g : Graph) : Verdict f o rs (.ok g) where
  ok_iff := ⟨fun _ => ⟨hf, hloops, hrs⟩, fun _ => ⟨g, rfl⟩⟩
  unsupported h := absurd hf h
  unbound _ h := absurd hrs h
  ambiguous _ _ h := absurd hloops h

end Verdict

namespace Plan

variable {p : Plan} {σ : Type}

theorem boundRegion_eq_none {o : Options} {r : Option Region} :
    boundRegion o r = none ↔ r = none ∧ o.defaultMemory = false := by
  cases r <;> simp [boundRegion]

section
variable {d : Disambiguator σ} {oracle : σ}

/-- An access is left unbound if there is no default and a region is missing. -/
theorem exists_unbound_iff {o : Options} : (∃ x ∈ p.answers d oracle, boundRegion o x.2 = none) ↔
    ¬ (o.defaultMemory = true ∨ none ∉ (d.regions p.accessList oracle).1) := by
  have hmap : (p.answers d oracle).map Prod.snd = (d.regions p.accessList oracle).1 :=
    List.map_snd_zip (Nat.le_of_eq (d.length_regions _ _))
  rw [not_or, not_not, ← hmap, List.mem_map, Bool.not_eq_true]
  simp only [boundRegion_eq_none]
  exact ⟨fun ⟨x, hx, hnone, ho⟩ => ⟨ho, x, hx, hnone⟩, fun ⟨ho, x, hx, hnone⟩ => ⟨x, hx, hnone, ho⟩⟩

variable (hp : p.Sound)
include hp

theorem Sound.answers_frame (start : Uid) (all : List (Wire Label)) :
    (p.answers d oracle).map Prod.fst = p.accesses (p.frame start all) := by
  rw [map_fst_answers, hp.accesses_frame]

/-- The audit of a lowerable function finds what the verdict says. -/
theorem Sound.verdict_audit {cs : List (Access × Access)} (hcs : cs.Sublist (pairs p.accessList))
    (o : Options) (start : Uid) (hlow : p.function.Lowerable) (hsingle : p.function.SingleEntry)
    (g : Graph) :
    Verdict p.function o (d.regions p.accessList oracle).1
      ((p.drawn o start (p.lowered d oracle o cs)).audit.map fun _ => g) := by
  have hscope : p.Scope (p.frame start (p.lowered d oracle o cs)) (p.lowered d oracle o cs) :=
    hp.scope_lowered hcs o start
  have hbinds : (∀ x ∈ p.answers d oracle, boundRegion o x.2 ≠ none) →
      (o.defaultMemory = true ∨ none ∉ (d.regions p.accessList oracle).1) := by
    intro hbound
    by_contra h
    obtain ⟨x, hx, hnone⟩ := exists_unbound_iff.2 h
    exact hbound x hx hnone
  change Verdict _ _ _ ((((p.frame start _).net (p.whole o _ _ _)).audit).map _)
  obtain ⟨hunbound, n, haudit⟩ | ⟨hbound, hmany, n, latches, haudit⟩ | ⟨hbound, hclear, haudit⟩ :=
    hscope.audit_cases (o := o) (hp.answers_frame _ _) (hp.lowerable_iff.2 hlow).1 hsingle
  all_goals rw [haudit]
  · exact .of_unbound hlow (exists_unbound_iff.1 hunbound) n
  · exact .of_ambiguous hlow (hbinds hbound) (hp.ambiguous_iff.1 hmany) n latches
  · exact .of_ok hlow (hbinds hbound) (not_not.1 fun h => hclear (hp.ambiguous_iff.2 h)) g

end

/-- The verdict on the function of a plan. -/
theorem Sound.verdict (hp : p.Sound) (s : Session) (d : Disambiguator σ) (oracle : σ) {f : Function}
    (hplan : ofFunction f = .ok p)
    (hsingle : p.function.Lowerable → p.function.SingleEntry) :
    ((s.lower f d oracle).result = .error (.fault .idsExhausted) ∧
      idLimit < s.uids.next + p.function.footprint) ∨
    Verdict p.function s.options (d.regions p.accessList oracle).1 (s.lower f d oracle).result := by
  obtain ⟨cs, hconflicting, hcs, -⟩ := hp.conflicting_eq p.accessList
  rcases hp.lower_cases hcs s d oracle hplan hconflicting with
    ⟨hshort, hres⟩ | ⟨hbad, u, hres⟩ | ⟨hgood, hres⟩
  · have hnodes : (p.fullLabels (p.lowered d oracle s.options cs)).length ≤ _ :=
      hp.length_fullLabels_le (hp.answers_frame 0 [])
    exact .inl ⟨hres, hshort.trans_le (Nat.add_le_add_left hnodes _)⟩
  · right
    rw [hres]
    exact .of_unsupported (fun h => hbad (hp.lowerable_iff.2 h)) u
  · right
    have hlow := hp.lowerable_iff.1 hgood
    rw [hres]
    exact hp.verdict_audit hcs s.options s.uids.next hlow (hsingle hlow) _

end Plan

/-- A verdict on the function with preheaders is one on the function itself. -/
theorem Verdict.of_rounds {f f' : Function} {o : Options} {rs : List (Option Region)}
    {result : Except Failure Graph} (hr : ReflTransGen Function.Round f f')
    (hred : ¬ Flow.Reducible f.Edge Function.entry → f' = f) (h : Verdict f' o rs result) :
    Verdict f o rs result where
  ok_iff := by
    rw [h.ok_iff, Function.lowerable_iff hr hred, Function.singleLatch_iff hr]
  unsupported := by
    rw [← Function.lowerable_iff hr hred]
    exact h.unsupported
  unbound := by
    rw [← Function.lowerable_iff hr hred]
    exact h.unbound
  ambiguous := by
    rw [← Function.lowerable_iff hr hred, ← Function.singleLatch_iff hr]
    exact h.ambiguous

namespace Session

variable {σ : Type} (s : Session) (d : Disambiguator σ) (oracle : σ) {f : Function}

theorem result_of_plan_error {e : Fault} (hplan : Plan.ofFunction f = .error e) :
    (s.lower f d oracle).result = .error (.fault e) := by
  rw [lower, prepare, hplan]
  rfl

/-- A function that has a plan is judged, or there are not enough numbers for its nodes. -/
theorem verdict_of_plan (hf : f.WellFormed) {p : Plan} (hplan : Plan.ofFunction f = .ok p) :
    f.withPreheaders = .ok p.function ∧ f.Lists p.accessList ∧
      (((s.lower f d oracle).result = .error (.fault .idsExhausted) ∧
        idLimit < s.uids.next + p.function.footprint) ∨
      Verdict f s.options (d.regions p.accessList oracle).1 (s.lower f d oracle).result) := by
  rcases Plan.ofFunction_cases hf with ⟨hover, -⟩ | ⟨q, hq, hp, hpre, hrounds, hsingle, hsame⟩
  · exact absurd (hplan.symm.trans hover) (by simp)
  obtain rfl : q = p := Except.ok.inj (hq.symm.trans hplan)
  refine ⟨hpre, (Function.lists_iff hrounds).1 hp.lists_accessList, ?_⟩
  have hverdict := hp.verdict s d oracle hplan fun hlow =>
    hsingle ((Function.lowerable_iff hrounds hsame).1 hlow).reducible
  exact hverdict.imp_right (Verdict.of_rounds hrounds hsame)

end Session

/-- **When lowering succeeds.** A function that passes the check is judged by `Verdict`, on the regions
that the disambiguator names for its accesses, whatever the session, the options and the
disambiguator. Only the supply of numbers can prevent that: of identifiers for the phis of
preheaders, or of numbers for the nodes. -/
theorem Session.lower_verdict {σ : Type} (s : Session) (f : Function) (d : Disambiguator σ)
    (oracle : σ) (hf : f.check = .ok ()) :
    ((s.lower f d oracle).result = .error (.fault .overflow) ∧
      ∃ id ∈ f.results, idLimit ≤ id + f.phiCount) ∨
    ∃ p, Plan.ofFunction f = .ok p ∧ f.withPreheaders = .ok p.function ∧ f.Lists p.accessList ∧
      (((s.lower f d oracle).result = .error (.fault .idsExhausted) ∧
        idLimit < s.uids.next + p.function.footprint) ∨
      Verdict f s.options (d.regions p.accessList oracle).1 (s.lower f d oracle).result) := by
  have hwf := Function.check_eq_ok_iff.1 hf
  rcases Plan.ofFunction_cases hwf with ⟨hplan, hshort⟩ | ⟨p, hplan, -⟩
  · exact .inl ⟨s.result_of_plan_error d oracle hplan, hshort⟩
  · exact .inr ⟨p, hplan, s.verdict_of_plan d oracle hwf hplan⟩

/-- A loop that is entered twice, goes back from two blocks and writes in between. -/
def Function.busyLoop : Function where
  name := "busy"
  params := [⟨"go", .int .w1⟩, ⟨"p", .ptr⟩]
  globals := []
  blocks := [
    ⟨0, "entry", [], .branch (.arg 0) 1 2⟩,
    ⟨1, "left", [], .jump 3⟩,
    ⟨2, "right", [], .jump 3⟩,
    ⟨3, "head",
      [.phi 0 .ptr [(1, .arg 1), (2, .arg 1), (3, .inst 0), (4, .inst 0)],
        .store (.inst 0) (.inst 0)],
      .branch (.arg 0) 3 4⟩,
    ⟨4, "again", [], .branch (.arg 0) 3 5⟩,
    ⟨5, "done", [], .ret none⟩]

theorem Session.lower_verdict_busyLoop : Function.busyLoop.check = .ok () ∧
    ∃ p, Plan.ofFunction Function.busyLoop = .ok p ∧
      Verdict Function.busyLoop .strict (Disambiguator.single.regions p.accessList ()).1
        (({} : Session).lower Function.busyLoop .single ()).result := by
  obtain ⟨h, -⟩ | ⟨p, hplan, -, -, ⟨h, -⟩ | h⟩ :=
    lower_verdict {} Function.busyLoop .single () (by decide)
  · exact absurd h (by decide +kernel)
  · exact absurd h (by decide +kernel)
  · exact ⟨by decide, p, hplan, h⟩

/-- With room for the identifiers of the phis and for the numbers of the nodes, there is always a
verdict. -/
theorem Session.verdict_of_room {σ : Type} (s : Session) {f : Function} (d : Disambiguator σ)
    (oracle : σ) (hf : f.check = .ok ()) (hids : f.HasRoom)
    (huids : s.uids.next + f.extent ≤ idLimit) :
    ∃ p, Plan.ofFunction f = .ok p ∧ f.withPreheaders = .ok p.function ∧ f.Lists p.accessList ∧
      Verdict f s.options (d.regions p.accessList oracle).1 (s.lower f d oracle).result := by
  have hwf := Function.check_eq_ok_iff.1 hf
  obtain ⟨f', hf', hrounds, -⟩ := Function.exists_withPreheaders hwf hids
  obtain ⟨p, hplan, -⟩ :=
    Plan.exists_of_withPreheaders hf' (Function.wellFormed_of_rounds hwf hrounds)
  obtain ⟨hpre, hlists, ⟨-, hshort⟩ | hverdict⟩ := s.verdict_of_plan d oracle hwf hplan
  · have hle := Function.footprint_withPreheaders_le hwf hpre
    omega
  · exact ⟨p, hplan, hpre, hlists, hverdict⟩

end Dataflow
