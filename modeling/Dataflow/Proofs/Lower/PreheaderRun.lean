import Dataflow.Proofs.Lower.SingleEntry
import Dataflow.Proofs.Ssa.Run

/-!
# Preheaders do not change what a function does

A run of a function with preheaders is erased (`State.erase`) by leaving out the states in inserted
blocks and forgetting the values of inserted phis. What is left are exactly the runs of the function
without preheaders. One step of the old function is one step of the new one, but for the edges that
enter a loop through its new preheader, which are two (`Entered.step_cases`).

`Function.run_iff_withPreheaders` says so whenever insertion does not overflow, and
`Function.run_iff_of_hasRoom` in terms of the identifiers that are left.
-/

namespace Dataflow

/-! ## Environments -/

namespace Env

variable {V : Type} {env : Env V} {ids : List InstId}

/-- The values of some identifiers. -/
def restrict (ids : List InstId) (env : Env V) : Env V := fun id => if id ∈ ids then env id else none

theorem restrict_set_of_mem {id : InstId} {v : V} (h : id ∈ ids) :
    (env.set id v).restrict ids = (env.restrict ids).set id v := by
  funext id'
  by_cases h' : id' = id <;> simp [restrict, set, h', h]

theorem restrict_set_of_not_mem {id : InstId} {v : V} (h : id ∉ ids) :
    (env.set id v).restrict ids = env.restrict ids := by
  funext id'
  by_cases h' : id' = id <;> simp [restrict, set, h', h]

theorem restrict_setAll_of_mem {vs : List (InstId × V)} (h : ∀ w ∈ vs, w.1 ∈ ids) :
    (env.setAll vs).restrict ids = (env.restrict ids).setAll vs := by
  induction vs generalizing env with
  | nil => rfl
  | cons w vs ih =>
    obtain ⟨hw, hvs⟩ := List.forall_mem_cons.1 h
    exact (ih hvs).trans (congrArg (setAll · vs) (restrict_set_of_mem hw))

theorem restrict_setAll_of_not_mem {vs : List (InstId × V)} (h : ∀ w ∈ vs, w.1 ∉ ids) :
    (env.setAll vs).restrict ids = env.restrict ids := by
  induction vs generalizing env with
  | nil => rfl
  | cons w vs ih =>
    obtain ⟨hw, hvs⟩ := List.forall_mem_cons.1 h
    exact (ih hvs).trans (restrict_set_of_not_mem hw)

theorem setAll_of_not_mem {vs : List (InstId × V)} {id : InstId} (h : id ∉ vs.map (·.1)) :
    env.setAll vs id = env id := by
  induction vs generalizing env with
  | nil => rfl
  | cons w vs ih =>
    rw [List.map_cons, List.mem_cons, not_or] at h
    exact (ih h.2).trans (if_neg h.1)

theorem setAll_of_mem {vs : List (InstId × V)} (hnd : (vs.map (·.1)).Nodup) {w : InstId × V}
    (hw : w ∈ vs) : env.setAll vs w.1 = some w.2 := by
  induction vs generalizing env with
  | nil => cases hw
  | cons x vs ih =>
    obtain ⟨hx, hnd⟩ := List.nodup_cons.1 hnd
    rcases List.mem_cons.1 hw with rfl | hw
    · exact (setAll_of_not_mem hx).trans (if_pos rfl)
    · exact ih hnd hw

theorem restrict_record {id : Option InstId} {v : Option V} (h : ∀ i, id = some i → i ∈ ids) :
    (env.record id v).restrict ids = (env.restrict ids).record id v := by
  cases id with
  | none => rfl
  | some id =>
    cases v with
    | none => rfl
    | some v => exact restrict_set_of_mem (h id rfl)

theorem restrict_restrict {ids ids' : List InstId} (h : ids ⊆ ids') :
    (env.restrict ids').restrict ids = env.restrict ids := by
  funext id
  by_cases hid : id ∈ ids <;> simp [restrict, hid, fun hid => h hid]

end Env

/-! ## Sequences of evaluations -/

section
variable {α β γ : Type}

theorem mapM_eq_some {xs : List α} {g : α → Option β} {ys : List β} :
    xs.mapM g = some ys ↔ xs.map g = ys.map some := by
  induction xs generalizing ys with
  | nil => cases ys <;> simp
  | cons x xs ih =>
    rw [List.mapM_cons]
    cases ys with
    | nil => simp [Option.bind_eq_some_iff]
    | cons y ys =>
      rw [List.map_cons, List.map_cons, List.cons.injEq, ← ih]
      simp [Option.bind_eq_some_iff]

theorem exists_of_mem_mapM {xs : List α} {g : α → Option β} {ys : List β} (h : xs.mapM g = some ys)
    {y : β} (hy : y ∈ ys) : ∃ x ∈ xs, g x = some y := by
  have hmem : some y ∈ xs.map g := mapM_eq_some.1 h ▸ List.mem_map_of_mem hy
  exact List.mem_map.1 hmem

/-- Evaluations that only differ in a mark their position puts on the result. -/
theorem mapM_zipIdx {xs : List α} {g : α → Option β} {mark : Nat → β → γ} (k : Nat) :
    ((xs.zipIdx k).mapM fun x => (g x.1).map (mark x.2)) =
      (xs.mapM g).map fun ys => (ys.zipIdx k).map fun y => mark y.2 y.1 := by
  induction xs generalizing k with
  | nil => rfl
  | cons x xs ih =>
    rw [List.zipIdx_cons, List.mapM_cons, List.mapM_cons, ih]
    cases g x with
    | none => rfl
    | some y => cases xs.mapM g <;> rfl

end

/-! ## Forgetting what was inserted -/

namespace State

variable {V M : Type}

/-- The state without the values that `f` does not define. -/
def project (f : Function) (s : State V M) : State V M := { s with env := s.env.restrict f.results }

/-- Whether the state is in a block of `f`, or at the end. -/
def isIn (f : Function) (s : State V M) : Bool :=
  match s.place with
  | .before b _ => b < f.blocks.length
  | .returned => true

/-- What a state is for `f`; in a block that `f` does not have it is nothing. -/
def erase (f : Function) (s : State V M) : Option (State V M) :=
  if s.isIn f then some (s.project f) else none

end State

namespace Function

variable {V M : Type} {I : Interp V M} {args : List V} {f : Function}

theorem read_restrict {env : Env V} {v : Value} (hv : f.Defines v) :
    I.read args (env.restrict f.results) v = I.read args env v := by
  cases v with
  | inst id => exact if_pos hv
  | _ => rfl

theorem execute_project {s : State V M} {b : BlockId} {index : Nat} {i : Instr}
    (hops : ∀ v ∈ i.operands, f.Defines v) (hres : ∀ id, i.result? = some id → id ∈ f.results) :
    execute I args (s.project f) b index i = (execute I args s b index i).map (State.project f) := by
  simp only [execute, State.project, mapM_congr fun v hv => read_restrict (hops v hv)]
  cases i.operands.mapM (I.read args s.env) with
  | none => rfl
  | some vs =>
    simp only [Option.bind_eq_bind, Option.bind_some]
    cases I.perform s.memory i vs with
    | none => rfl
    | some effect => simp [State.project, Env.restrict_record hres]

theorem choose_restrict {env : Env V} {exit : Exit} (hops : ∀ v ∈ exit.operands, f.Defines v) :
    I.choose args (env.restrict f.results) exit = I.choose args env exit := by
  cases exit with
  | jump => rfl
  | branch cond t e =>
    simp only [Interp.choose, read_restrict (hops cond (List.mem_singleton_self cond))]
  | ret value =>
    cases value with
    | none => rfl
    | some v => simp only [Interp.choose, read_restrict (hops v (List.mem_singleton_self v))]

theorem phiValue_restrict {env : Env V} {pred : BlockId} {i : Instr}
    (hops : ∀ v ∈ i.operands, f.Defines v) :
    I.phiValue args (env.restrict f.results) pred i = I.phiValue args env pred i := by
  cases i with
  | phi dest ty incoming =>
    simp only [Interp.phiValue]
    cases h : incoming.find? (·.1 = pred) with
    | none => rfl
    | some entry =>
      have hmem : entry.2 ∈ incoming.map (·.2) :=
        List.mem_map_of_mem (List.mem_of_find?_eq_some h)
      simp only [Option.bind_some, read_restrict (hops _ hmem)]
  | _ => rfl

theorem fst_of_phiValue {env : Env V} {pred : BlockId} {i : Instr} {w : InstId × V}
    (h : I.phiValue args env pred i = some w) : i.result? = some w.1 := by
  cases i with
  | phi dest ty incoming =>
    simp only [Interp.phiValue, Option.bind_eq_some_iff, Option.map_eq_some_iff] at h
    obtain ⟨-, -, -, -, rfl⟩ := h
    rfl
  | _ => cases h

/-- The state on arrival at a block with values for its phis. -/
def arrived (s : State V M) (target : BlockId) (b : Block) (values : List (InstId × V)) :
    State V M :=
  { place := .before target b.phis.length
    env := s.env.setAll values
    memory := s.memory
    action := none }

theorem arrive_eq {s : State V M} {pred target : BlockId} {b : Block}
    (hb : f.blocks[target]? = some b) : f.arrive I args s pred target =
      (b.phis.mapM (I.phiValue args s.env pred)).map (arrived s target b) := by
  rw [arrive, hb, Option.bind_eq_bind, Option.bind_some]
  cases b.phis.mapM (I.phiValue args s.env pred) <;> rfl

section
variable (hf : f.WellFormed) {b : Block} (hb : b ∈ f.blocks) {s : State V M} {pred : BlockId}
include hf hb

theorem phiValues_project : b.phis.mapM (I.phiValue args (s.project f).env pred) =
    b.phis.mapM (I.phiValue args s.env pred) :=
  mapM_congr fun _ hj =>
    phiValue_restrict (hf.operands b hb _ ((List.takeWhile_sublist _).subset hj))

omit hf in
theorem fst_mem_results {values : List (InstId × V)}
    (h : b.phis.mapM (I.phiValue args s.env pred) = some values) : ∀ w ∈ values, w.1 ∈ f.results := by
  intro w hw
  obtain ⟨j, hj, hjw⟩ := exists_of_mem_mapM h hw
  exact mem_results hb ((List.takeWhile_sublist _).subset hj) (fst_of_phiValue hjw)

end

/-! ## The two parts of a phi -/

section
variable {entries : List BlockId} {pred preheader : BlockId} {env : Env V} {q : Instr} {k : InstId}

theorem phiValue_innerPhi_old (hp : pred ∉ entries) (hn : pred ≠ preheader) :
    I.phiValue args env pred (innerPhi entries preheader (q, k)) = I.phiValue args env pred q := by
  cases q with
  | phi dest ty incoming =>
    have hfind : (incoming.filter (·.1 ∉ entries)).find? (·.1 = pred) =
        incoming.find? (·.1 = pred) := by
      rw [List.find?_filter]
      congr 1
      funext entry
      by_cases he : entry.1 = pred <;> simp [he, hp]
    simp only [Interp.phiValue, innerPhi, List.find?_append, hfind]
    simp [Ne.symm hn]
  | _ => rfl

theorem phiValue_innerPhi_new {dest : InstId} {ty : Ty} {incoming : List (BlockId × Value)}
    (hn : preheader ∉ incoming.map (·.1)) :
    I.phiValue args env preheader (innerPhi entries preheader (.phi dest ty incoming, k)) =
      (env k).map (dest, ·) := by
  have hfind : (incoming.filter (·.1 ∉ entries)).find? (·.1 = preheader) = none := by
    rw [List.find?_eq_none]
    intro entry he hne
    exact hn (List.mem_map.2 ⟨entry, (List.mem_filter.1 he).1, of_decide_eq_true hne⟩)
  simp only [Interp.phiValue, innerPhi, List.find?_append, hfind]
  simp [Interp.read]

theorem phiValue_outerPhi (hp : pred ∈ entries) :
    I.phiValue args env pred (outerPhi entries (q, k)) =
      (I.phiValue args env pred q).map fun w => (k, w.2) := by
  cases q with
  | phi dest ty incoming =>
    have hfind : (incoming.filter (·.1 ∈ entries)).find? (·.1 = pred) =
        incoming.find? (·.1 = pred) := by
      rw [List.find?_filter]
      congr 1
      funext entry
      by_cases he : entry.1 = pred <;> simp [he, hp]
    simp only [Interp.phiValue, outerPhi, hfind]
    cases incoming.find? (·.1 = pred) with
    | none => rfl
    | some entry =>
      simp only [Option.bind_some, Option.map_map]
      rfl
  | _ => rfl

end

/-! ## Arrivals -/

theorem phis_of_forall {b : Block} (h : ∀ i ∈ b.body, i.isPhi = true) : b.phis = b.body :=
  List.takeWhile_eq_self_iff.2 h

section
variable {header preheader : BlockId} {entries : List BlockId} {fresh : InstId} {i : Nat} {b : Block}

theorem phis_reroute (hb : ∀ j ∈ b.body.dropWhile Instr.isPhi, j.isPhi = false) :
    (reroute header preheader entries fresh i b).phis =
      if i = header then (b.phis.zipIdx fresh).map (innerPhi entries preheader) else b.phis := by
  rw [Block.phis, reroute_body]
  split
  · rw [List.takeWhile_append_of_pos]
    · rw [List.takeWhile_eq_nil_iff.2 fun _ => ?_, List.append_nil]
      rw [hb _ (List.get_mem _ _)]
      exact Bool.false_ne_true
    · rintro _ hj
      obtain ⟨q, hq, rfl⟩ := List.mem_map.1 hj
      rw [isPhi_innerPhi]
      exact isPhi_of_mem_phis (List.fst_mem_of_mem_zipIdx hq)
  · rfl

theorem phis_preheaderBlock : (preheaderBlock header preheader entries fresh b).phis =
    (b.phis.zipIdx fresh).map (outerPhi entries) := by
  refine phis_of_forall fun j hj => ?_
  obtain ⟨q, hq, rfl⟩ := List.mem_map.1 hj
  rw [isPhi_outerPhi]
  exact isPhi_of_mem_phis (List.fst_mem_of_mem_zipIdx hq)

end

section
variable {header : BlockId} {entries : List BlockId} {fresh : InstId} {h : Block}
  (hE : f.Entered header entries fresh h)
include hE

/-- An arrival along an edge that is not redirected. -/
theorem Entered.arrive_old {s : State V M} {p t : BlockId} {b : Block}
    (hb : f.blocks[t]? = some b) (hp : p ≠ f.blocks.length) (ht : t = header → p ∉ entries) :
    f.arrive I args (s.project f) p t =
      ((f.withPreheader header entries fresh h).arrive I args s p t).map (State.project f) := by
  have hmem := List.mem_of_getElem? hb
  have hphis := @phis_reroute header f.blocks.length entries fresh t b (hE.wellFormed.phis_first b hmem)
  have hlen : (reroute header f.blocks.length entries fresh t b).phis.length = b.phis.length := by
    rw [hphis]
    split <;> simp
  have hvalues : (reroute header f.blocks.length entries fresh t b).phis.mapM
      (I.phiValue args s.env p) = b.phis.mapM (I.phiValue args s.env p) := by
    rw [hphis]
    split
    · rename_i hth
      conv_rhs => rw [← List.zipIdx_map_fst fresh b.phis]
      rw [List.mapM_map, List.mapM_map]
      exact mapM_congr fun q _ => phiValue_innerPhi_old (ht hth) hp
    · rfl
  rw [arrive_eq hb, arrive_eq (withPreheader_old hb), hvalues, phiValues_project hE.wellFormed hmem]
  cases hws : b.phis.mapM (I.phiValue args s.env p) with
  | none => rfl
  | some ws =>
    simp only [Option.map_some, arrived, State.project, hlen,
      Env.restrict_setAll_of_mem (fst_mem_results hmem hws)]

/-- The values of the phis of a preheader, under their fresh identifiers. -/
def outerValues (fresh : InstId) (values : List (InstId × V)) : List (InstId × V) :=
  (values.zipIdx fresh).map fun y => (y.2, y.1.2)

omit hE in
theorem outerValues_fst (values : List (InstId × V)) :
    (outerValues fresh values).map (·.1) = List.range' fresh values.length := by
  rw [outerValues, List.map_map, ← List.zipIdx_map_snd fresh values]
  rfl

omit hE in
/-- An arrival at the preheader. -/
theorem arrive_new {s : State V M} {p : BlockId} (hp : p ∈ entries) :
    (f.withPreheader header entries fresh h).arrive I args s p f.blocks.length =
      (h.phis.mapM (I.phiValue args s.env p)).map fun values =>
        { place := .before f.blocks.length h.phis.length
          env := s.env.setAll (outerValues fresh values)
          memory := s.memory
          action := none } := by
  have hvalues : ((h.phis.zipIdx fresh).map (outerPhi entries)).mapM (I.phiValue args s.env p) =
      (h.phis.mapM (I.phiValue args s.env p)).map (outerValues fresh) := by
    rw [List.mapM_map]
    exact (mapM_congr fun q _ => phiValue_outerPhi hp).trans
      (@mapM_zipIdx _ _ _ h.phis (I.phiValue args s.env p) (fun k w => (k, w.2)) fresh)
  rw [arrive_eq withPreheader_new, phis_preheaderBlock, hvalues, Option.map_map]
  simp only [arrived, phis_preheaderBlock, List.length_map, List.length_zipIdx, Function.comp_def]

/-- From the preheader the phis of the header get the values they would have got directly. -/
theorem Entered.phiValues_new {env : Env V} {p : BlockId} {values : List (InstId × V)}
    (hvalues : h.phis.mapM (I.phiValue args env p) = some values) :
    ((h.phis.zipIdx fresh).map (innerPhi entries f.blocks.length)).mapM
      (I.phiValue args (env.setAll (outerValues fresh values)) f.blocks.length) = some values := by
  rw [mapM_eq_some] at hvalues ⊢
  refine List.ext_getElem? fun j => ?_
  have hj := congrArg (·[j]?) hvalues
  simp only [List.getElem?_map, List.getElem?_zipIdx] at hj ⊢
  cases hq : h.phis[j]? with
  | none => rw [← hj, hq]; rfl
  | some q =>
    rw [hq] at hj
    cases hw : values[j]? with
    | none => rw [hw] at hj; cases hj
    | some w =>
      rw [hw, Option.map_some, Option.map_some, Option.some.injEq] at hj
      simp only [Option.map_some, Option.some.injEq]
      have hmem : q ∈ h.phis := List.mem_of_getElem? hq
      -- the outer phi has left the value under a fresh identifier, where the inner one reads it
      have henv : env.setAll (outerValues fresh values) (fresh + j) = some w.2 := by
        refine Env.setAll_of_mem (w := (fresh + j, w.2)) ?_ ?_
        · rw [outerValues_fst]
          exact List.nodup_range'
        · refine List.mem_map.2 ⟨(w, fresh + j), ?_, rfl⟩
          exact List.mem_iff_getElem?.2 ⟨j, by rw [List.getElem?_zipIdx, hw]; rfl⟩
      cases q with
      | phi dest ty incoming =>
        have hdest : dest = w.1 := Option.some.inj (fst_of_phiValue hj)
        rw [phiValue_innerPhi_new, henv, hdest]
        · rfl
        · intro hn
          have hbody := (List.takeWhile_sublist _).subset hmem
          have hid := hE.wellFormed.id_eq hE.header_eq
          have hedge := ((hE.wellFormed.entries h (List.mem_of_getElem? hE.header_eq) hbody).2 _).1 hn
          exact hE.redirectable.no_source _ (hid ▸ hedge)
      | _ => cases isPhi_of_mem_phis hmem

omit hE in
theorem step_new {s : State V M}
    (hs : s.place = .before f.blocks.length h.phis.length) :
    (f.withPreheader header entries fresh h).step I args s =
      (f.withPreheader header entries fresh h).arrive I args s f.blocks.length header := by
  have hbody : (preheaderBlock header f.blocks.length entries fresh h).body[h.phis.length]? =
      none := by
    rw [List.getElem?_eq_none]
    simp [preheaderBlock]
  simp only [step, hs, withPreheader_new, Option.bind_eq_bind, Option.bind_some, hbody]
  rfl

/-- An arrival at the header from an entry is one at the preheader and a step from there. -/
theorem Entered.arrive_header {s : State V M} {p : BlockId} (hp : p ∈ entries) :
    f.arrive I args (s.project f) p header =
      ((f.withPreheader header entries fresh h).arrive I args s p f.blocks.length).bind fun s₁ =>
        ((f.withPreheader header entries fresh h).step I args s₁).map (State.project f) := by
  have hmem := List.mem_of_getElem? hE.header_eq
  rw [arrive_eq hE.header_eq, phiValues_project hE.wellFormed hmem, arrive_new hp]
  cases hvalues : h.phis.mapM (I.phiValue args s.env p) with
  | none => rfl
  | some values =>
    have hlen : values.length = h.phis.length := by
      simpa using (congrArg List.length (mapM_eq_some.1 hvalues)).symm
    have hfresh : ∀ w ∈ outerValues fresh values, w.1 ∉ f.results := by
      intro w hw hid
      have hr : w.1 ∈ List.range' fresh values.length :=
        outerValues_fst values ▸ List.mem_map_of_mem hw
      exact Nat.lt_irrefl _
        (Nat.lt_of_lt_of_le (hE.lt_fresh _ hid) (List.mem_range'_1.1 hr).1)
    have hphis := @phis_reroute header f.blocks.length entries fresh header h
      (hE.wellFormed.phis_first h hmem)
    rw [if_pos rfl] at hphis
    simp only [Option.map_some, Option.bind_some, step_new, arrive_eq (withPreheader_old hE.header_eq),
      hphis, hE.phiValues_new hvalues]
    simp only [arrived, State.project, hphis, List.length_map, List.length_zipIdx,
      Env.restrict_setAll_of_mem (fst_mem_results hmem hvalues),
      Env.restrict_setAll_of_not_mem hfresh]

end

/-! ## Steps -/

/-- The same choice, with control sent to `new` instead of `old`. -/
def redirectChoice (old new : BlockId) : Choice V → Choice V
  | .goto t => .goto (if t = old then new else t)
  | .ret value => .ret value

theorem choose_retarget {env : Env V} {e : Exit} {old new : BlockId} :
    I.choose args env (e.retarget old new) =
      (I.choose args env e).map (redirectChoice old new) := by
  cases e with
  | jump => rfl
  | branch cond t e =>
    simp only [Exit.retarget, Interp.choose, Option.bind_eq_bind, Option.map_bind]
    congr 1
    funext v
    simp only [Function.comp_apply, Option.map_bind]
    congr 1
    funext taken
    cases taken <;> rfl
  | ret value =>
    cases value with
    | none => rfl
    | some v =>
      simp only [Exit.retarget, Interp.choose]
      cases I.read args env v <;> rfl

theorem mem_targets_of_choose {env : Env V} {e : Exit} {t : BlockId}
    (h : I.choose args env e = some (.goto t)) : t ∈ e.targets := by
  cases e with
  | jump => cases h; exact List.mem_singleton_self t
  | branch cond t' e =>
    simp only [Interp.choose, Option.bind_eq_bind, Option.bind_eq_some_iff] at h
    obtain ⟨-, -, taken, -, h⟩ := h
    cases h
    cases taken <;> simp [Exit.targets]
  | ret value =>
    cases value with
    | none => cases h
    | some v =>
      simp only [Interp.choose, Option.bind_eq_bind, Option.bind_eq_some_iff] at h
      obtain ⟨v, -, h⟩ := h
      cases h

theorem isIn_of_arrive {f' : Function} {s s' : State V M} {p t : BlockId}
    (h : f'.arrive I args s p t = some s') : s'.isIn f = decide (t < f.blocks.length) := by
  simp only [arrive, Option.bind_eq_bind, Option.bind_eq_some_iff] at h
  obtain ⟨b, -, values, -, h⟩ := h
  cases h
  rfl

/-- How the next state of `f` is found from the next state of `f'`: directly, or by one more step
if that is in an inserted block. -/
inductive Matches (I : Interp V M) (args : List V) (f f' : Function) :
    Option (State V M) → Option (State V M) → Prop
  | direct {next : Option (State V M)} (isIn : ∀ t, next = some t → t.isIn f = true) :
    Matches I args f f' (next.map (State.project f)) next
  | detour {next : Option (State V M)}
    (isIn : ∀ t, next = some t → t.isIn f = false ∧
      ∀ t', f'.step I args t = some t' → t'.isIn f = true) :
    Matches I args f f' (next.bind fun t => (f'.step I args t).map (State.project f)) next

section
variable {header : BlockId} {entries : List BlockId} {fresh : InstId} {h : Block}
  (hE : f.Entered header entries fresh h)
include hE

theorem Entered.matches_arrive {s : State V M} {p t : BlockId} (hp : p < f.blocks.length)
    (ht : t < f.blocks.length) : Matches I args f (f.withPreheader header entries fresh h)
      (f.arrive I args (s.project f) p t)
      ((f.withPreheader header entries fresh h).arrive I args s p
        (if p ∈ entries ∧ t = header then f.blocks.length else t)) := by
  split
  · rename_i hpt
    obtain ⟨hpe, rfl⟩ := hpt
    rw [hE.arrive_header hpe]
    refine .detour fun s₁ hs₁ => ⟨by rw [isIn_of_arrive hs₁]; simp, fun s₂ hs₂ => ?_⟩
    have hplace : s₁.place = .before f.blocks.length h.phis.length := by
      rw [arrive_new hpe, Option.map_eq_some_iff] at hs₁
      obtain ⟨values, -, rfl⟩ := hs₁
      rfl
    rw [step_new hplace] at hs₂
    rw [isIn_of_arrive hs₂]
    exact decide_eq_true ht
  · rename_i hpt
    rw [hE.arrive_old (List.getElem?_eq_getElem ht) (Nat.ne_of_lt hp) fun hth hpe => hpt ⟨hpe, hth⟩]
    exact .direct fun s₁ hs₁ => by rw [isIn_of_arrive hs₁]; exact decide_eq_true ht

theorem Entered.matches_follow {s : State V M} {b : BlockId} (hb : b < f.blocks.length)
    {c : Choice V} (hc : ∀ t, c = .goto t → t < f.blocks.length) :
    Matches I args f (f.withPreheader header entries fresh h) (f.follow I args (s.project f) b c)
      ((f.withPreheader header entries fresh h).follow I args s b
        (if b ∈ entries then redirectChoice header f.blocks.length c else c)) := by
  cases c with
  | ret value =>
    rw [redirectChoice, ite_self]
    refine @Matches.direct V M I args f _
      (some { s with place := .returned, action := some (.ret value) }) fun t ht => ?_
    cases ht
    rfl
  | goto t =>
    have hgoto : (if b ∈ entries then redirectChoice header f.blocks.length (.goto t) else .goto t :
        Choice V) = .goto (if b ∈ entries ∧ t = header then f.blocks.length else t) := by
      by_cases hbe : b ∈ entries <;> simp [redirectChoice, hbe]
    rw [hgoto]
    exact hE.matches_arrive hb (hc t rfl)

theorem Entered.matches_leave {s : State V M} {b : BlockId} {blk : Block}
    (hb : f.blocks[b]? = some blk) : Matches I args f (f.withPreheader header entries fresh h)
      ((I.choose args (s.project f).env blk.exit).bind (f.follow I args (s.project f) b))
      ((I.choose args s.env (reroute header f.blocks.length entries fresh b blk).exit).bind
        ((f.withPreheader header entries fresh h).follow I args s b)) := by
  have hlt := (List.getElem?_eq_some_iff.1 hb).1
  have hops := hE.wellFormed.exit_operands blk (List.mem_of_getElem? hb)
  have hchoose : I.choose args s.env (reroute header f.blocks.length entries fresh b blk).exit =
      (I.choose args s.env blk.exit).map fun c =>
        if b ∈ entries then redirectChoice header f.blocks.length c else c := by
    rw [reroute_exit]
    split
    · exact choose_retarget
    · exact (Option.map_id' ..).symm
  rw [hchoose, State.project, choose_restrict hops]
  cases hc : I.choose args s.env blk.exit with
  | none => exact @Matches.direct V M I args f _ none fun _ h => by cases h
  | some c =>
    refine hE.matches_follow hlt fun t ht => ?_
    subst ht
    exact hE.wellFormed.target_lt hb t (mem_targets_of_choose hc)

omit hE in
/-- The instruction at a position is the same, or a phi on both sides. -/
theorem body_cases (b : BlockId) (blk : Block) (index : Nat) :
    (reroute header f.blocks.length entries fresh b blk).body[index]? = blk.body[index]? ∨
      ∃ i i', blk.body[index]? = some i ∧ i.isPhi = true ∧
        (reroute header f.blocks.length entries fresh b blk).body[index]? = some i' ∧
        i'.isPhi = true := by
  rw [reroute_body]
  split
  · have hbody : blk.body[index]? = (blk.phis ++ blk.body.dropWhile Instr.isPhi)[index]? := by
      rw [blk.phis_append]
    rw [hbody]
    by_cases hi : index < blk.phis.length
    · right
      refine ⟨blk.phis[index], innerPhi entries f.blocks.length (blk.phis[index], fresh + index), ?_,
        isPhi_of_mem_phis (List.getElem_mem hi), ?_, ?_⟩
      · rw [List.getElem?_append_left hi, List.getElem?_eq_getElem hi]
      · rw [List.getElem?_append_left (by simpa using hi)]
        simp [hi]
      · rw [isPhi_innerPhi]
        exact isPhi_of_mem_phis (List.getElem_mem hi)
    · left
      rw [List.getElem?_append_right (by simpa using hi),
        List.getElem?_append_right (Nat.not_lt.1 hi)]
      simp
  · exact .inl rfl

omit hE in
theorem execute_phi {s : State V M} {b : BlockId} {index : Nat} {i : Instr} (hi : i.isPhi = true) :
    execute I args s b index i = none := by
  cases i with
  | phi dest ty incoming =>
    simp only [execute, Interp.perform]
    cases (Instr.phi dest ty incoming).operands.mapM (I.read args s.env) <;> rfl
  | _ => cases hi

/-- A step of the old function is one step of the new one, or two through the preheader. -/
theorem Entered.step_cases {s : State V M} (hs : s.isIn f = true) :
    Matches I args f (f.withPreheader header entries fresh h) (f.step I args (s.project f))
      ((f.withPreheader header entries fresh h).step I args s) := by
  cases hplace : s.place with
  | returned =>
    simp only [step, State.project, hplace]
    exact @Matches.direct V M I args f _ none fun _ h => by cases h
  | before b index =>
    have hlt : b < f.blocks.length := by simpa [State.isIn, hplace] using hs
    have hb := List.getElem?_eq_getElem hlt
    have hmem := List.mem_of_getElem? hb
    have hplace' : (s.project f).place = .before b index := hplace
    simp only [step, hplace, hplace', hb, withPreheader_old hb, Option.bind_eq_bind,
      Option.bind_some]
    rcases body_cases b f.blocks[b] index with hbody | ⟨i, i', hi, hphi, hi', hphi'⟩
    · rw [hbody]
      cases hi : f.blocks[b].body[index]? with
      | none => exact hE.matches_leave hb
      | some i =>
        have him := List.mem_of_getElem? hi
        simp only
        rw [execute_project (hE.wellFormed.operands _ hmem i him) fun id => mem_results hmem him]
        refine .direct fun t ht => ?_
        simp only [execute, Option.bind_eq_bind, Option.bind_eq_some_iff] at ht
        obtain ⟨vs, -, effect, -, ht⟩ := ht
        cases ht
        exact decide_eq_true hlt
    · simp only [hi, hi', execute_phi hphi, execute_phi hphi']
      exact @Matches.direct V M I args f _ none fun _ h => by cases h

end

/-! ## Runs -/

theorem erase_eq_some {s : State V M} (h : s.isIn f = true) : s.erase f = some (s.project f) :=
  if_pos h

theorem erase_eq_none {s : State V M} (h : s.isIn f = false) : s.erase f = none := by
  simp [State.erase, h]

theorem filterMap_erase_append {trace : List (State V M)} {s : State V M} (h : s.isIn f = true) :
    (trace ++ [s]).filterMap (State.erase f) =
      trace.filterMap (State.erase f) ++ [s.project f] := by
  rw [List.filterMap_append, List.filterMap_cons_some (erase_eq_some h), List.filterMap_nil]

theorem filterMap_erase_append_none {trace : List (State V M)} {s : State V M}
    (h : s.isIn f = false) :
    (trace ++ [s]).filterMap (State.erase f) = trace.filterMap (State.erase f) := by
  rw [List.filterMap_append, List.filterMap_cons_none (erase_eq_none h), List.filterMap_nil,
    List.append_nil]

theorem getLast?_filterMap_erase {trace : List (State V M)} {s : State V M}
    (hs : trace.getLast? = some s) (h : s.isIn f = true) :
    (trace.filterMap (State.erase f)).getLast? = some (s.project f) := by
  obtain ⟨init, rfl⟩ := List.getLast?_eq_some_iff.1 hs
  rw [filterMap_erase_append h, List.getLast?_concat]

theorem project_initial (memory : M) :
    (initial memory : State V M).project f = initial memory := by
  simp only [State.project, initial, State.mk.injEq, true_and, and_true]
  funext id
  exact ite_self _

theorem isIn_initial (hf : f.Numbered) (memory : M) :
    (initial memory : State V M).isIn f = true := decide_eq_true hf.entry_lt

theorem filterMap_erase_initial (hf : f.Numbered) (memory : M) :
    [(initial memory : State V M)].filterMap (State.erase f) = [initial memory] := by
  rw [List.filterMap_cons_some (erase_eq_some (isIn_initial hf memory)), project_initial,
    List.filterMap_nil]

section
variable {header : BlockId} {entries : List BlockId} {fresh : InstId} {h : Block}
  (hE : f.Entered header entries fresh h)
include hE

/-- Every run of the old function is what is left of a run of the new one. -/
theorem Entered.exists_run {memory : M} {trace : List (State V M)}
    (hrun : Run I args f memory trace) :
    ∃ trace', Run I args (f.withPreheader header entries fresh h) memory trace' ∧
      trace'.filterMap (State.erase f) = trace ∧
      ∃ s, trace'.getLast? = some s ∧ s.isIn f = true := by
  have hf := hE.wellFormed.toNumbered
  induction hrun with
  | start => exact ⟨_, .start, filterMap_erase_initial hf memory, _, rfl, isIn_initial hf memory⟩
  | @next trace s t _ hlast hstep ih =>
    obtain ⟨trace', hrun', rfl, s', hs', hin⟩ := ih
    obtain rfl : s'.project f = s := by
      rw [getLast?_filterMap_erase hs' hin] at hlast
      exact Option.some.inj hlast
    have hcases := @Entered.step_cases V M I args f header entries fresh h hE s' hin
    generalize hnext : f.step I args (s'.project f) = next at hcases
    generalize hnext' : (f.withPreheader header entries fresh h).step I args s' = next' at hcases
    rw [hnext] at hstep
    cases hcases with
    | direct hisIn =>
      obtain ⟨t', rfl, rfl⟩ := Option.map_eq_some_iff.1 hstep
      exact ⟨_, hrun'.next hs' hnext', filterMap_erase_append (hisIn t' rfl), t',
        List.getLast?_concat, hisIn t' rfl⟩
    | detour hisIn =>
      -- one step into the header becomes two, through the new block
      obtain ⟨s₁, rfl, hs₁⟩ := Option.bind_eq_some_iff.1 hstep
      obtain ⟨t', ht', rfl⟩ := Option.map_eq_some_iff.1 hs₁
      obtain ⟨hout, hback⟩ := hisIn s₁ rfl
      refine ⟨_, (hrun'.next hs' hnext').next List.getLast?_concat ht', ?_, t',
        List.getLast?_concat, hback t' ht'⟩
      rw [filterMap_erase_append (hback t' ht'), filterMap_erase_append_none hout]

/-- What is left of a run of the new function is a run of the old one. Its last state is the last
one of the new run, or that one is in the preheader and the old function is about to do what the
new one does next. -/
theorem Entered.run_erase {memory : M} {trace' : List (State V M)}
    (hrun : Run I args (f.withPreheader header entries fresh h) memory trace') :
    Run I args f memory (trace'.filterMap (State.erase f)) ∧
      ∃ s, trace'.getLast? = some s ∧ (s.isIn f = true ∨
        s.isIn f = false ∧ ∃ t, (trace'.filterMap (State.erase f)).getLast? = some t ∧
          f.step I args t =
            ((f.withPreheader header entries fresh h).step I args s).map (State.project f) ∧
          ∀ t', (f.withPreheader header entries fresh h).step I args s = some t' →
            t'.isIn f = true) := by
  have hf := hE.wellFormed.toNumbered
  induction hrun with
  | start =>
    rw [filterMap_erase_initial hf memory]
    exact ⟨.start, _, rfl, .inl (isIn_initial hf memory)⟩
  | @next trace' s t _ hlast hstep ih =>
    obtain ⟨hrun, s', hs', hcase⟩ := ih
    obtain rfl : s' = s := Option.some.inj (hs'.symm.trans hlast)
    rcases hcase with hin | ⟨hout, t₀, ht₀, hnext, hback⟩
    · have hcases := @Entered.step_cases V M I args f header entries fresh h hE s' hin
      have hlast := getLast?_filterMap_erase hs' hin
      generalize hnext : f.step I args (s'.project f) = next at hcases
      rw [hstep] at hcases
      generalize hsome : some t = next' at hcases
      cases hcases with
      | direct hisIn =>
        subst hsome
        have htin := hisIn t rfl
        rw [filterMap_erase_append htin]
        exact ⟨hrun.next hlast hnext, t, List.getLast?_concat, .inl htin⟩
      | detour hisIn =>
        subst hsome
        -- the run is in the new block now, while the erased run waits
        obtain ⟨hout, hback⟩ := hisIn t rfl
        rw [filterMap_erase_append_none hout]
        exact ⟨hrun, t, List.getLast?_concat, .inr ⟨hout, _, hlast, hnext, hback⟩⟩
    · -- leaving the new block is the step that the erased run has waited for
      have htin := hback t hstep
      rw [filterMap_erase_append htin]
      rw [hstep, Option.map_some] at hnext
      exact ⟨hrun.next ht₀ hnext, t, List.getLast?_concat, .inl htin⟩

theorem Entered.run_iff {memory : M} {trace : List (State V M)} :
    Run I args f memory trace ↔
      ∃ trace', Run I args (f.withPreheader header entries fresh h) memory trace' ∧
        trace'.filterMap (State.erase f) = trace := by
  constructor
  · intro hrun
    obtain ⟨trace', hrun', herase, -⟩ := hE.exists_run hrun
    exact ⟨trace', hrun', herase⟩
  · rintro ⟨trace', hrun', rfl⟩
    exact (hE.run_erase hrun').1

end

/-! ## All rounds -/

theorem erase_self_iff {s : State V M} :
    s.erase f = some s ↔ s.isIn f = true ∧ s.env.restrict f.results = s.env := by
  obtain ⟨place, env, memory, action⟩ := s
  by_cases h : State.isIn f ⟨place, env, memory, action⟩ = true
  · simp [erase_eq_some h, h, State.project]
  · simp [State.erase, h]

theorem erase_arrive {s t : State V M} (hs : s.env.restrict f.results = s.env) {p b : BlockId}
    (hb : b < f.blocks.length) (h : f.arrive I args s p b = some t) : t.erase f = some t := by
  rw [erase_self_iff]
  refine ⟨by rw [isIn_of_arrive h]; exact decide_eq_true hb, ?_⟩
  rw [arrive_eq (List.getElem?_eq_getElem hb), Option.map_eq_some_iff] at h
  obtain ⟨values, hvalues, rfl⟩ := h
  simp only [arrived, Env.restrict_setAll_of_mem (fst_mem_results (List.getElem_mem hb) hvalues), hs]

section
variable (hf : f.WellFormed)
include hf

/-- A function only computes what it defines, and stays in its blocks. -/
theorem erase_step {s t : State V M} (hs : s.erase f = some s) (h : f.step I args s = some t) :
    t.erase f = some t := by
  obtain ⟨hin, henv⟩ := erase_self_iff.1 hs
  cases hplace : s.place with
  | returned => simp [step, hplace] at h
  | before b index =>
    have hlt : b < f.blocks.length := by simpa [State.isIn, hplace] using hin
    have hmem := List.getElem_mem hlt
    simp only [step, hplace, List.getElem?_eq_getElem hlt, Option.bind_eq_bind,
      Option.bind_some] at h
    cases hi : f.blocks[b].body[index]? with
    | some i =>
      have him := List.mem_of_getElem? hi
      simp only [hi, execute, Option.bind_eq_bind, Option.bind_eq_some_iff] at h
      obtain ⟨vs, -, effect, -, h⟩ := h
      cases h
      rw [erase_self_iff, Env.restrict_record fun id => mem_results hmem him, henv]
      exact ⟨decide_eq_true hlt, rfl⟩
    | none =>
      simp only [hi, Option.bind_eq_some_iff] at h
      obtain ⟨c, hc, h⟩ := h
      cases c with
      | ret value =>
        cases h
        exact erase_self_iff.2 ⟨rfl, henv⟩
      | goto target =>
        have ht := hf.target_lt (List.getElem?_eq_getElem hlt) target (mem_targets_of_choose hc)
        exact erase_arrive henv ht h

theorem erase_of_run {memory : M} {trace : List (State V M)} (h : Run I args f memory trace) :
    trace.filterMap (State.erase f) = trace ∧
      ∀ s, trace.getLast? = some s → s.erase f = some s := by
  induction h with
  | start =>
    refine ⟨filterMap_erase_initial hf.toNumbered memory, fun s hs => ?_⟩
    rw [List.getLast?_singleton, Option.some.injEq] at hs
    rw [← hs, erase_eq_some (isIn_initial hf.toNumbered memory), project_initial]
  | next _ hlast hstep ih =>
    have ht := erase_step hf (ih.2 _ hlast) hstep
    refine ⟨?_, fun s hs => ?_⟩
    · rw [List.filterMap_append, ih.1, List.filterMap_cons_some ht, List.filterMap_nil]
    · rw [List.getLast?_concat, Option.some.injEq] at hs
      exact hs ▸ ht

end

/-- A function has no fewer blocks and results after some rounds. -/
theorem grows_of_rounds {f f' : Function} (h : Relation.ReflTransGen Round f f') :
    f.results ⊆ f'.results ∧ f.blocks.length ≤ f'.blocks.length := by
  induction h with
  | refl => exact ⟨fun _ h => h, Nat.le_refl _⟩
  | tail _ hr ih =>
    obtain ⟨header, entries, fresh, h, hE, rfl⟩ := hr
    rw [withPreheader_results, withPreheader_length]
    exact ⟨fun _ h => List.mem_append_left _ (ih.1 h), Nat.le_succ_of_le ih.2⟩

theorem erase_bind_erase {f f' : Function} (hr : f.results ⊆ f'.results)
    (hl : f.blocks.length ≤ f'.blocks.length) (s : State V M) :
    (s.erase f').bind (State.erase f) = s.erase f := by
  by_cases h : s.isIn f = true
  · have h' : s.isIn f' = true := by
      unfold State.isIn at h ⊢
      split
      · rename_i hplace
        simp only [hplace, decide_eq_true_eq] at h ⊢
        exact Nat.lt_of_lt_of_le h hl
      · rfl
    have hp : (s.project f').isIn f = true := h
    rw [erase_eq_some h', Option.bind_some, erase_eq_some hp, erase_eq_some h]
    simp only [State.project, Env.restrict_restrict hr]
  · rw [Bool.not_eq_true] at h
    rw [erase_eq_none h]
    by_cases h' : s.isIn f' = true
    · have hp : (s.project f').isIn f = false := h
      rw [erase_eq_some h', Option.bind_some, erase_eq_none hp]
    · rw [Bool.not_eq_true] at h'
      rw [erase_eq_none h', Option.bind_none]

theorem run_iff_of_rounds {f f' : Function} (hf : f.WellFormed)
    (hr : Relation.ReflTransGen Round f f') {memory : M} {trace : List (State V M)} :
    Run I args f memory trace ↔
      ∃ trace', Run I args f' memory trace' ∧ trace'.filterMap (State.erase f) = trace := by
  induction hr with
  | refl =>
    constructor
    · exact fun h => ⟨trace, h, (erase_of_run hf h).1⟩
    · rintro ⟨trace', h, rfl⟩
      rwa [(erase_of_run hf h).1]
  | @tail f₁ f₂ hr hround ih =>
    obtain ⟨header, entries, fresh, h, hE, rfl⟩ := hround
    obtain ⟨hres, hlen⟩ := grows_of_rounds hr
    have hcomp : ∀ trace' : List (State V M), (trace'.filterMap (State.erase f₁)).filterMap
        (State.erase f) = trace'.filterMap (State.erase f) := fun trace' => by
      rw [List.filterMap_filterMap]
      exact List.filterMap_congr fun s _ => erase_bind_erase hres hlen s
    rw [ih]
    constructor
    · rintro ⟨trace₁, h₁, rfl⟩
      obtain ⟨trace', h', rfl⟩ := hE.run_iff.1 h₁
      exact ⟨trace', h', (hcomp trace').symm⟩
    · rintro ⟨trace', h', rfl⟩
      exact ⟨_, hE.run_iff.2 ⟨trace', h', rfl⟩, hcomp trace'⟩

/-- The runs of a well-formed function are what is left of the runs of the function with preheaders
once the inserted blocks and the values of the inserted phis are erased. -/
theorem run_iff_withPreheaders {f : Function} (hf : f.check = .ok ())
    (hids : f.withPreheaders ≠ .error .overflow) :
    ∃ f', f.withPreheaders = .ok f' ∧
      ∀ {V M : Type} (I : Interp V M) (args : List V) (memory : M) (trace : List (State V M)),
        Run I args f memory trace ↔
          ∃ trace', Run I args f' memory trace' ∧ trace'.filterMap (State.erase f) = trace := by
  have hwf := check_eq_ok_iff.1 hf
  obtain ⟨h, -⟩ | ⟨f', hf', hr, -⟩ := withPreheaders_cases hwf
  · exact absurd h hids
  · exact ⟨f', hf', fun I args memory trace => run_iff_of_rounds hwf hr⟩

/-- A loop that two blocks enter and whose phis swap their values. -/
def swappingLoop : Function where
  name := "swapping"
  params := [⟨"again", .int .w1⟩, ⟨"p", .ptr⟩, ⟨"q", .ptr⟩]
  globals := []
  blocks := [
    ⟨0, "entry", [], .branch (.arg 0) 1 2⟩,
    ⟨1, "left", [], .jump 3⟩,
    ⟨2, "right", [], .jump 3⟩,
    ⟨3, "head",
      [.phi 0 .ptr [(1, .arg 1), (2, .arg 2), (3, .inst 1)],
        .phi 1 .ptr [(3, .inst 0), (2, .arg 1), (1, .arg 2)],
        .store (.inst 0) (.inst 1)],
      .branch (.arg 0) 3 4⟩,
    ⟨4, "exit", [], .ret (some (.inst 0))⟩]

theorem run_iff_swappingLoop : swappingLoop.check = .ok () ∧
    swappingLoop.withPreheaders ≠ .error .overflow ∧
    swappingLoop.withPreheaders ≠ .ok swappingLoop ∧
    ∃ f', swappingLoop.withPreheaders = .ok f' ∧
      ∀ {V M : Type} (I : Interp V M) (args : List V) (memory : M) (trace : List (State V M)),
        Run I args swappingLoop memory trace ↔
          ∃ trace', Run I args f' memory trace' ∧
            trace'.filterMap (State.erase swappingLoop) = trace :=
  ⟨by decide, by decide +kernel, by decide +kernel,
    run_iff_withPreheaders (by decide) (by decide +kernel)⟩

/-- The same in numbers: runs are kept if there is an identifier for every phi that is cut in two. -/
theorem run_iff_of_hasRoom {f : Function} (hf : f.check = .ok ()) (hroom : f.HasRoom) :
    ∃ f', f.withPreheaders = .ok f' ∧
      ∀ {V M : Type} (I : Interp V M) (args : List V) (memory : M) (trace : List (State V M)),
        Run I args f memory trace ↔
          ∃ trace', Run I args f' memory trace' ∧ trace'.filterMap (State.erase f) = trace := by
  have hwf := check_eq_ok_iff.1 hf
  obtain ⟨f', hf', hr, -⟩ := exists_withPreheaders hwf hroom
  exact ⟨f', hf', fun I args memory trace => run_iff_of_rounds hwf hr⟩

end Function

end Dataflow
