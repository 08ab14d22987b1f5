import Dataflow.Proofs.Lower.Alongside
import Dataflow.Proofs.Lower.Translation
import Dataflow.Proofs.Lower.Verdict

/-!
# What a lowering keeps of those before it

A session remembers of its lowerings only how many numbers they took. `Session.Parallel`: two lowerings
end in the same way, up to the numbers they start from. `Session.lower_parallel`: so do all lowerings of
one function, in whatever sessions, as long as there are numbers enough; `Function.extent` says how many
are enough (`Session.parallel_of_extent`).
-/

namespace Dataflow

theorem Disambiguator.follows_recorded {σ : Type} (d : Disambiguator σ) :
    d.Follows d.recorded Prod.fst :=
  ⟨fun _ _ => ⟨rfl, rfl⟩, fun _ _ _ => ⟨rfl, rfl⟩⟩

namespace Session

variable {σ : Type}

/-- A record of the questions changes nothing else. -/
theorem result_recorded (s : Session) (f : Function) (d : Disambiguator σ) (oracle : σ)
    (qs : List Disambiguator.Question) :
    (s.lower f d.recorded (oracle, qs)).result = (s.lower f d oracle).result :=
  (d.follows_recorded.lower s f (oracle, qs)).1

/-! ## Parallel lowerings -/

/-- There are numbers enough to lower the function; `hasRoom_of_extent` says how many suffice. -/
def HasRoom (s : Session) (f : Function) (d : Disambiguator σ) (oracle : σ) : Prop :=
  (s.lower f d oracle).result ≠ .error (.fault .idsExhausted)

/-- The graphs are the same, with numbers counted from `m` and from `n`. -/
structure SameFrom (m n : Uid) (g g' : Graph) : Prop where
  renumber_eq : g.renumber (· - m) = g'.renumber (· - n)
  uid_eq : ∀ {i : Nat} {x : Node}, g.nodes[i]? = some x → x.uid = m + i
  uid_eq' : ∀ {i : Nat} {x : Node}, g'.nodes[i]? = some x → x.uid = n + i

/-- Lowerings in two sessions end in the same way, with as many numbers taken. -/
structure Parallel (s t : Session) (l l' : Lowered σ) : Prop where
  result : (∃ e, l.result = .error e ∧ l'.result = .error e) ∨
    ∃ g g', l.result = .ok g ∧ l'.result = .ok g' ∧ SameFrom s.uids.next t.uids.next g g'
  oracle_eq : l.oracle = l'.oracle
  taken_eq : l.session.uids.next + t.uids.next = l'.session.uids.next + s.uids.next
  options_eq : l.session.options = l'.session.options

theorem Parallel.symm {s t : Session} {l l' : Lowered σ} (h : Parallel s t l l') :
    Parallel t s l' l := by
  refine ⟨?_, h.oracle_eq.symm, h.taken_eq.symm, h.options_eq.symm⟩
  rcases h.result with ⟨e, he, he'⟩ | ⟨g, g', hg, hg', hsame⟩
  · exact .inl ⟨e, he', he⟩
  · exact .inr ⟨g', g, hg', hg, hsame.renumber_eq.symm, hsame.uid_eq', hsame.uid_eq⟩

/-- The nodes of a lowered function are numbered in order. -/
theorem uid_eq_of_lower {s : Session} {f : Function} {d : Disambiguator σ} {oracle : σ} {g : Graph}
    (hf : f.WellFormed) (hg : (s.lower f d oracle).result = .ok g) {i : Nat} {x : Node}
    (hx : g.nodes[i]? = some x) : x.uid = s.uids.next + i := by
  obtain ⟨p, cs, hp, -, -, hcs, -, -, -, rfl⟩ := lower_eq_ok hf hg
  have hscope : p.Scope _ (p.lowered d oracle s.options cs) :=
    hp.scope_lowered hcs s.options s.uids.next
  obtain ⟨l, hl, rfl⟩ := Option.map_eq_some_iff.1 (List.getElem?_map.symm.trans hx)
  exact congrArg (s.uids.next + ·) (hscope.fits_whole.id_eq hl)

/-- The session that started higher follows the other one. -/
theorem parallel_raise {f : Function} (hf : f.WellFormed) (s : Session) (k : Nat)
    (d : Disambiguator σ) (oracle : σ) (hroom : (s.raise k).HasRoom f d oracle) :
    Parallel s (s.raise k) (s.lower f d oracle) ((s.raise k).lower f d oracle) := by
  have hplan : Agree Plan.Alike (Plan.ofFunction f) (Plan.ofFunction f) := by
    cases Plan.ofFunction f with
    | error e => exact .error e
    | ok p => exact .ok (.refl p)
  rcases follows_lower hplan s k d oracle with ⟨-, hshort⟩ | hraise
  · exact absurd hshort hroom
  refine ⟨?_, by rw [hraise]; rfl, ?_, by rw [hraise]; rfl⟩
  · have hresult : ((s.raise k).lower f d oracle).result =
        (s.lower f d oracle).result.map (Graph.renumber (· + k)) := by rw [hraise]; rfl
    cases hg : (s.lower f d oracle).result with
    | error e =>
      rw [hg] at hresult
      exact .inl ⟨e, rfl, hresult⟩
    | ok g =>
      rw [hg] at hresult
      refine .inr ⟨g, _, rfl, hresult, ?_, uid_eq_of_lower hf hg, uid_eq_of_lower hf hresult⟩
      rw [Graph.renumber_renumber]
      simp only [raise, Nat.add_sub_add_right]
  · have hnext : ((s.raise k).lower f d oracle).session.uids.next =
        (s.lower f d oracle).session.uids.next + k := by rw [hraise]; rfl
    show _ + (s.uids.next + k) = _
    omega

/-- There is room if there is a number for everything that the function can bring. -/
theorem hasRoom_of_extent {s : Session} {f : Function} (hf : f.WellFormed) (d : Disambiguator σ)
    (oracle : σ) (huids : s.uids.next + f.extent ≤ idLimit) : s.HasRoom f d oracle := by
  rcases Plan.ofFunction_cases hf with ⟨hplan, -⟩ | ⟨p, hplan, -⟩
  · -- without a plan no number is taken
    rw [HasRoom, s.result_of_plan_error d oracle hplan]
    simp
  · obtain ⟨hpre, -, ⟨-, hshort⟩ | hverdict⟩ := s.verdict_of_plan d oracle hf hplan
    · have hle := Function.footprint_withPreheaders_le hf hpre
      omega
    · exact hverdict.ne_fault _

section
variable {f : Function} {s t : Session} (hoptions : s.options = t.options) {d : Disambiguator σ}
  {oracle : σ} (hs : s.HasRoom f d oracle) (ht : t.HasRoom f d oracle)
include hoptions hs ht

theorem parallel_of_hasRoom (hf : f.WellFormed) :
    Parallel s t (s.lower f d oracle) (t.lower f d oracle) := by
  have hraise : ∀ {s t : Session}, s.options = t.options → s.uids.next ≤ t.uids.next →
      t = s.raise (t.uids.next - s.uids.next) := by
    rintro ⟨⟨m⟩, o⟩ ⟨⟨n⟩, _⟩ rfl hle
    exact congrArg (fun n => (⟨⟨n⟩, o⟩ : Session)) (Nat.add_sub_of_le hle).symm
  rcases Nat.le_total s.uids.next t.uids.next with hle | hle
  · rw [hraise hoptions hle] at ht ⊢
    exact parallel_raise hf s _ d oracle ht
  · rw [hraise hoptions.symm hle] at hs ⊢
    exact (parallel_raise hf t _ d oracle hs).symm

/-- The questions are the same, because recorded lowerings are parallel, too. -/
theorem questions_eq_of_hasRoom (hf : f.WellFormed) :
    (s.lower f d.recorded (oracle, [])).oracle.2 = (t.lower f d.recorded (oracle, [])).oracle.2 := by
  have hs' : s.HasRoom f d.recorded (oracle, []) := by rwa [HasRoom, result_recorded]
  have ht' : t.HasRoom f d.recorded (oracle, []) := by rwa [HasRoom, result_recorded]
  rw [(parallel_of_hasRoom hoptions hs' ht' hf).oracle_eq]

end

/-- **Lowerings do not depend on those before.** In any two sessions with the same options, a function
is lowered in the same way, up to the number of its first node, and with the same questions. -/
theorem lower_parallel {f : Function} (hf : f.check = .ok ()) {s t : Session}
    (hoptions : s.options = t.options) (d : Disambiguator σ) (oracle : σ)
    (hs : s.HasRoom f d oracle) (ht : t.HasRoom f d oracle) :
    Parallel s t (s.lower f d oracle) (t.lower f d oracle) ∧
      (s.lower f d.recorded (oracle, [])).oracle.2 = (t.lower f d.recorded (oracle, [])).oracle.2 := by
  have hwf := Function.check_eq_ok_iff.1 hf
  exact ⟨parallel_of_hasRoom hoptions hs ht hwf, questions_eq_of_hasRoom hoptions hs ht hwf⟩

/-- The second lowering of a function in one session, against its first. -/
theorem lower_parallel_callingJoin :
    Function.callingJoin.check = .ok () ∧
    0 < (({} : Session).lower Function.callingJoin .single ()).session.uids.next ∧
    (({} : Session).lower Function.callingJoin .single ()).result.isOk = true ∧
    Parallel {} (({} : Session).lower Function.callingJoin .single ()).session
      (({} : Session).lower Function.callingJoin .single ())
      ((({} : Session).lower Function.callingJoin .single ()).session.lower Function.callingJoin
        .single ()) := by
  have hcheck : Function.callingJoin.check = .ok () := by decide +kernel
  have hroom : ∀ s : Session, s.uids.next + Function.callingJoin.extent ≤ idLimit →
      s.HasRoom Function.callingJoin .single () := fun s =>
    hasRoom_of_extent (Function.check_eq_ok_iff.1 hcheck) .single ()
  refine ⟨hcheck, by decide +kernel, by decide +kernel, ?_⟩
  exact (lower_parallel hcheck (by decide +kernel) .single () (hroom _ (by decide +kernel))
    (hroom _ (by decide +kernel))).1

/-- The same in numbers: sessions run parallel if each has numbers for the extent of the function. -/
theorem parallel_of_extent {f : Function} (hf : f.check = .ok ()) {s t : Session}
    (hoptions : s.options = t.options) (d : Disambiguator σ) (oracle : σ)
    (hs : s.uids.next + f.extent ≤ idLimit) (ht : t.uids.next + f.extent ≤ idLimit) :
    Parallel s t (s.lower f d oracle) (t.lower f d oracle) ∧
      (s.lower f d.recorded (oracle, [])).oracle.2 = (t.lower f d.recorded (oracle, [])).oracle.2 := by
  have hwf := Function.check_eq_ok_iff.1 hf
  have hs := hasRoom_of_extent hwf d oracle hs
  have ht := hasRoom_of_extent hwf d oracle ht
  exact ⟨parallel_of_hasRoom hoptions hs ht hwf, questions_eq_of_hasRoom hoptions hs ht hwf⟩

end Session

end Dataflow
