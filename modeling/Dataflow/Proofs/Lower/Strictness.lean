import Dataflow.Proofs.Lower.History
import Dataflow.Proofs.Lower.Questions
import Dataflow.Proofs.Lower.Verdict
import Dataflow.Proofs.Net.Moves

/-!
# What the options decide

Lowering reads the options in two places: where an access has no region (`Plan.routeAccess`), and where
a loop has several latches (`Plan.layLoop`). Both come behind the last question to the disambiguator, so
whatever is refused before is refused under all options (`Sound.lower_under`). A function that is lowered
under the strict options never got to either place. So it is lowered in the same way under all options,
and what the permissive options refuse, all options refuse (`Session.lower_conservative`).
-/

namespace Dataflow

namespace Plan

variable {p : Plan} {o o' : Options}

/-! ## Where the options are read -/

theorem routeAccess_eq {x : Access × Option Region} (hx : x.2 ≠ none) :
    routeAccess o x = routeAccess o' x := by
  obtain ⟨r, hr⟩ := Option.ne_none_iff_exists'.1 hx
  simp only [routeAccess, hr, Option.some_or]

theorem layLoop_eq {l : NaturalLoop} (hl : l.latches.length ≤ 1) : layLoop o l = layLoop o' l := by
  have hmany : ¬ 1 < l.latches.length := Nat.not_lt.2 hl
  simp only [layLoop, hmany, false_and, if_false]

/-- If every access has a region and no loop has two latches, options make no difference. -/
theorem complete_eq {xs : List (Access × Option Region)} (hxs : ∀ x ∈ xs, x.2 ≠ none)
    (hloops : ∀ l ∈ p.loops, l.latches.length ≤ 1) (ordered : List (Access × Access)) :
    p.complete o xs ordered = p.complete o' xs ordered := by
  rw [complete, complete, routeMemory, routeMemory, forM_congr fun x hx => routeAccess_eq (hxs x hx),
    forM_congr fun l hl => layLoop_eq (hloops l hl)]

/-! ## Up to the last question -/

/-- Construction that succeeds finds all accesses, and only succeeds if everything is supported. -/
theorem Sound.construct_eq_ok (hp : p.Sound) {uids : Supply} {net net' : Net} {accesses : List Access}
    (hstart : Net.start p.function.name uids = .ok net) (hrun : p.construct net = .ok accesses net') :
    (p.Supported ∧ p.Complete) ∧ accesses = p.accessList := by
  let all := p.wires .strict [] []
  have hscope : p.Scope (p.frame uids.next all) all :=
    hp.scope uids.next (fun _ h => absurd h List.not_mem_nil) fun _ h => absurd h List.not_mem_nil
  have hnet := start_eq (p := p) .strict (Net.start_eq_ok.1 hstart).1 all
  obtain rfl := Except.ok.inj (hstart.symm.trans hnet)
  have htries := hscope.tries_construct (o := .strict) (List.prefix_append _ _)
  by_cases hgood : p.Supported ∧ p.Complete
  · refine ⟨hgood, ?_⟩
    obtain hdrawn | ⟨-, _, hshort⟩ := (htries.draws hgood).run
    · cases hrun.symm.trans hdrawn
      exact hp.accesses_frame _
    · cases hrun.symm.trans hshort
  · obtain ⟨u, ⟨_, hrefused⟩ | ⟨-, _, hshort⟩⟩ := htries.refuses hgood
    · cases hrun.symm.trans hrefused
    · cases hrun.symm.trans hshort

end Plan

namespace Session

variable {σ : Type}

/-- The session with other options. -/
def under (s : Session) (o : Options) : Session := { s with options := o }

/-- What a lowering leaves, with other options for the session. -/
def Lowered.under (l : Lowered σ) (o : Options) : Lowered σ := { l with session := l.session.under o }

end Session

namespace Plan

variable {p : Plan} {σ : Type} {f : Function} {cs : List (Access × Access)}

/-- Lowering fails in the same way under all options, or gets to the questions in the same way. -/
theorem Sound.lower_under (hp : p.Sound) (hplan : ofFunction f = .ok p)
    (hconflicting : p.conflicting p.accessList = .ok cs) (s : Session) (d : Disambiguator σ)
    (oracle : σ) :
    (∃ e uids, ∀ o, (s.under o).lower f d oracle = ⟨.error e, ⟨uids, o⟩, oracle⟩) ∨
    (p.Supported ∧ p.Complete) ∧ ∃ net, ∀ o, (s.under o).lower f d oracle =
      (s.under o).settle p d oracle net p.accessList cs := by
  have hprepare : ∀ o, (s.under o).prepare f =
      (Net.start p.function.name s.uids).map fun net => (p, net) := by
    intro o
    rw [Session.prepare, hplan]
    rfl
  cases hstart : Net.start p.function.name s.uids with
  | error e =>
    refine .inl ⟨.fault e, s.uids, fun o => ?_⟩
    rw [Session.lower, hprepare, hstart]
    rfl
  | ok net =>
    cases hrun : p.construct net with
    | error e net' =>
      refine .inl ⟨e, net'.uids, fun o => ?_⟩
      rw [Session.lower, hprepare, hstart]
      simp only [Except.map, EStateM.run, hrun]
      rfl
    | ok accesses net' =>
      obtain ⟨hgood, rfl⟩ := hp.construct_eq_ok hstart hrun
      refine .inr ⟨hgood, net', fun o => ?_⟩
      rw [Session.lower, hprepare, hstart]
      simp only [Except.map, EStateM.run, hrun, hconflicting]

section
variable (hp : p.Sound) (hplan : ofFunction f = .ok p)
variable (hsingle : p.function.Lowerable → p.function.SingleEntry)
variable {d : Disambiguator σ} {oracle : σ} {s : Session}
include hp hplan hsingle

/-- What is lowered under the strict options is clear to all options. -/
theorem Sound.clear_of_strict {g : Graph}
    (hg : ((s.under .strict).lower f d oracle).result = .ok g) :
    (∀ x ∈ p.answers d oracle, x.2 ≠ none) ∧ ∀ l ∈ p.loops, l.latches.length ≤ 1 := by
  rcases hp.verdict (s.under .strict) d oracle hplan hsingle with ⟨hshort, -⟩ | hverdict
  · cases hg.symm.trans hshort
  obtain ⟨-, hlatch, hregions⟩ := hverdict.ok_iff.1 ⟨g, hg⟩
  have hregions : none ∉ (d.regions p.accessList oracle).1 := hregions.resolve_left Bool.false_ne_true
  constructor
  · intro x hx hnone
    exact hregions (hnone ▸ (List.of_mem_zip hx).2)
  · intro l hl
    rw [hp.loops_eq] at hl
    obtain ⟨h, -, -, rfl⟩ := FlowGraph.mem_loops.1 hl
    refine Nat.not_lt.1 fun hmany => ?_
    exact hp.ambiguous_iff.1 ⟨rfl, h, hmany⟩ hlatch

/-- What is lowered under the strict options is lowered in the same way under all options. -/
theorem Sound.lower_of_strict {g : Graph}
    (hg : ((s.under .strict).lower f d oracle).result = .ok g) (o : Options) :
    (s.under o).lower f d oracle = ((s.under .strict).lower f d oracle).under o := by
  obtain ⟨cs, hconflicting, -, -⟩ := hp.conflicting_eq p.accessList
  obtain ⟨hanswers, hloops⟩ := hp.clear_of_strict hplan hsingle hg
  rcases hp.lower_under hplan hconflicting s d oracle with ⟨e, uids, hfail⟩ | ⟨-, net, hsettle⟩
  · rw [hfail] at hg
    cases hg
  · have hcomplete : p.complete o (p.answers d oracle) (p.orders d oracle cs) =
        p.complete .strict (p.answers d oracle) (p.orders d oracle cs) := complete_eq hanswers hloops _
    rw [hsettle, hsettle, Session.settle, Session.settle]
    simp only [Session.under]
    rw [← answers, ← orders, hcomplete]
    cases (p.complete .strict (p.answers d oracle) (p.orders d oracle cs)).run net <;> rfl

/-- What the permissive options refuse, all options refuse. -/
theorem Sound.lower_of_permissive {r : Refusal}
    (hr : ((s.under .permissive).lower f d oracle).result = .error (.refused r)) (o : Options) :
    ((s.under o).lower f d oracle).result = .error (.refused r) := by
  obtain ⟨cs, hconflicting, -, -⟩ := hp.conflicting_eq p.accessList
  rcases hp.lower_under hplan hconflicting s d oracle with ⟨e, uids, hfail⟩ | ⟨hgood, -⟩
  · rw [hfail] at hr ⊢
    exact hr
  · -- everything is supported, and the permissive options refuse nothing else
    rcases hp.verdict (s.under .permissive) d oracle hplan hsingle with ⟨hshort, -⟩ | hverdict
    · cases hr.symm.trans hshort
    · obtain ⟨g, hg⟩ := hverdict.ok_iff.2 ⟨hp.lowerable_iff.1 hgood, .inl rfl, .inl rfl⟩
      cases hr.symm.trans hg

end

end Plan

/-- **The strict options are conservative.** A function that passes the check and is lowered under the
strict options is lowered to the same graph under all options, and with the same questions. A function
that the permissive options refuse is refused for the same reason under all options. -/
theorem Session.lower_conservative {σ : Type} (s : Session) {f : Function} (hf : f.check = .ok ())
    (d : Disambiguator σ) (oracle : σ) :
    (∀ g, ((s.under .strict).lower f d oracle).result = .ok g → ∀ o,
      ((s.under o).lower f d oracle).result = .ok g ∧
      ((s.under o).lower f d.recorded (oracle, [])).oracle.2 =
        ((s.under .strict).lower f d.recorded (oracle, [])).oracle.2) ∧
    ∀ r, ((s.under .permissive).lower f d oracle).result = .error (.refused r) → ∀ o,
      ((s.under o).lower f d oracle).result = .error (.refused r) := by
  have hwf := Function.check_eq_ok_iff.1 hf
  rcases Plan.ofFunction_cases hwf with ⟨hplan, -⟩ | ⟨p, hplan, hp, -, hrounds, hentry, hsame⟩
  · have hfail : ∀ o, ((s.under o).lower f d oracle).result = .error (.fault .overflow) := by
      intro o
      rw [lower, prepare, hplan]
      rfl
    refine ⟨fun g hg => ?_, fun r hr => ?_⟩
    · cases hg.symm.trans (hfail _)
    · cases hr.symm.trans (hfail _)
  · have hsingle : p.function.Lowerable → p.function.SingleEntry := fun hlow =>
      hentry ((Function.lowerable_iff hrounds hsame).1 hlow).reducible
    refine ⟨fun g hg o => ⟨?_, ?_⟩, fun r hr => hp.lower_of_permissive hplan hsingle hr⟩
    · rw [hp.lower_of_strict hplan hsingle hg o]
      exact hg
    · have hrecorded := (result_recorded (s.under .strict) f d oracle []).trans hg
      rw [hp.lower_of_strict hplan hsingle hrecorded o]
      rfl

/-- A load whose address is computed in a block that is never reached. -/
def Function.staleRead : Function where
  name := "stale"
  params := []
  globals := []
  blocks := [
    ⟨0, "entry", [.load 0 .ptr (.inst 1)], .ret none⟩,
    ⟨1, "dead", [.alloca 1 .ptr 1], .ret none⟩]

/-- Five accesses with known regions and a loop with one latch leave nothing to the options. The region
of the load in `Function.staleRead` is not known, but it is refused before that matters. -/
theorem Session.lower_conservative_sharedCell : Function.sharedCell.check = .ok () ∧
    (∃ g, ∀ o, ((({} : Session).under o).lower Function.sharedCell .fickle true).result = .ok g ∧
      ((({} : Session).under o).lower Function.sharedCell Disambiguator.fickle.recorded
        (true, [])).oracle.2.length = 11) ∧
    Function.staleRead.check = .ok () ∧
    ∀ o, ((({} : Session).under o).lower Function.staleRead (.ofTable ⟨[], none, .always true⟩)
      []).result = .error (.refused (.unsupported (.undefinedValue 1))) := by
  have hf : Function.sharedCell.check = .ok () := by decide
  have hf' : Function.staleRead.check = .ok () := by decide
  have hok : ((({} : Session).under .strict).lower Function.sharedCell .fickle true).result.isOk =
      true := by
    decide +kernel
  have hlength : ((({} : Session).under .strict).lower Function.sharedCell
      Disambiguator.fickle.recorded (true, [])).oracle.2.length = 11 := by
    decide +kernel
  refine ⟨hf, ?_, hf', (lower_conservative {} hf' _ _).2 _ (by decide +kernel)⟩
  cases hg : ((({} : Session).under .strict).lower Function.sharedCell .fickle true).result with
  | error e =>
    rw [hg] at hok
    cases hok
  | ok g =>
    refine ⟨g, fun o => ?_⟩
    obtain ⟨hresult, hquestions⟩ := (lower_conservative {} hf _ _).1 g hg o
    exact ⟨hresult, by rw [hquestions, hlength]⟩

end Dataflow
