import Dataflow.Fault

/-!
# When computations that can fail succeed

A sequence of steps succeeds exactly if every step does. These lemmas take apart a success of the
checks of the library, one construct at a time.
-/

namespace Dataflow

variable {ε α β : Type}

theorem bind_eq_ok {x : Except ε α} {k : α → Except ε β} {b : β} :
    (x >>= k) = .ok b ↔ ∃ a, x = .ok a ∧ k a = .ok b := by
  cases x <;> simp [bind, Except.bind]

theorem seq_eq_ok {x : Except ε Unit} {k : Unit → Except ε β} {b : β} :
    (x >>= k) = .ok b ↔ x = .ok () ∧ k () = .ok b := by
  cases x <;> simp [bind, Except.bind]

@[simp] theorem ok_bind (a : α) (k : α → Except ε β) : (Except.ok a >>= k) = k a := rfl

@[simp] theorem error_bind (e : ε) (k : α → Except ε β) : (Except.error e >>= k) = .error e := rfl

@[simp] theorem pure_eq_ok {a b : α} : (pure a : Except ε α) = .ok b ↔ a = b := by
  simp [pure, Except.pure]

@[simp] theorem throw_ne_ok {e : ε} {a : α} : (throw e : Except ε α) ≠ .ok a := by
  simp [throw, throwThe, MonadExceptOf.throw]

@[simp] theorem throw_bind (e : ε) (k : α → Except ε β) :
    ((throw e : Except ε α) >>= k) = throw e := rfl

/-- A guard in front of the rest of a computation. -/
theorem guard_eq_ok {c : Prop} [Decidable c] {e : ε} {k : Except ε β} {b : β} :
    (if c then throw e else k) = .ok b ↔ ¬ c ∧ k = .ok b := by
  by_cases h : c <;> simp [h]

/-- The same, with the failure in the other branch. -/
theorem guard_eq_ok' {c : Prop} [Decidable c] {e : ε} {k : Except ε β} {b : β} :
    (if c then k else throw e) = .ok b ↔ c ∧ k = .ok b := by
  by_cases h : c <;> simp [h]

theorem forM_cons {m : Type → Type} [Monad m] (x : α) (xs : List α) (step : α → m Unit) :
    (x :: xs).forM step = step x >>= fun _ => xs.forM step := rfl

theorem forM_eq_ok {xs : List α} {step : α → Except ε Unit} :
    xs.forM step = .ok () ↔ ∀ x ∈ xs, step x = .ok () := by
  induction xs with
  | nil => exact iff_of_true rfl (by simp)
  | cons x xs ih =>
    rw [forM_cons, seq_eq_ok, List.forall_mem_cons, ← ih]

/-- A sequence succeeds or fails as one of its steps does. -/
theorem forM_cases (xs : List α) (step : α → Except ε Unit) :
    xs.forM step = .ok () ∨ ∃ x ∈ xs, ∃ e, step x = .error e ∧ xs.forM step = .error e := by
  induction xs with
  | nil => exact .inl rfl
  | cons x xs ih =>
    rw [forM_cons]
    cases hx : step x with
    | error e => exact .inr ⟨x, List.mem_cons_self, e, hx, rfl⟩
    | ok _ =>
      rcases ih with h | ⟨y, hy, e, he, h⟩
      · exact .inl h
      · exact .inr ⟨y, List.mem_cons_of_mem x hy, e, he, h⟩

theorem anyM_eq_ok {xs : List α} {test : α → Except ε Bool} {holds : α → Bool}
    (h : ∀ x ∈ xs, test x = .ok (holds x)) : xs.anyM test = .ok (xs.any holds) := by
  induction xs with
  | nil => rfl
  | cons x xs ih =>
    obtain ⟨hx, hxs⟩ := List.forall_mem_cons.1 h
    rw [List.anyM, hx, ok_bind, List.any_cons]
    cases holds x
    · exact ih hxs
    · rfl

theorem filterM_eq_ok {α : Type} {xs : List α} {test : α → Except ε Bool} {holds : α → Bool}
    (h : ∀ x ∈ xs, test x = .ok (holds x)) : xs.filterM test = .ok (xs.filter holds) := by
  have haux : ∀ acc, xs.filterAuxM test acc = .ok ((xs.filter holds).reverse ++ acc) := by
    induction xs with
    | nil => exact fun acc => rfl
    | cons x xs ih =>
      intro acc
      obtain ⟨hx, hxs⟩ := List.forall_mem_cons.1 h
      rw [List.filterAuxM, hx, ok_bind, ih hxs]
      cases hx : holds x <;> simp [hx]
  rw [List.filterM, haux, ok_bind]
  simp [pure, Except.pure]

theorem filterM_congr {α : Type} {xs : List α} {test test' : α → Except ε Bool}
    (h : ∀ x ∈ xs, test x = test' x) : xs.filterM test = xs.filterM test' := by
  have haux : ∀ acc, xs.filterAuxM test acc = xs.filterAuxM test' acc := by
    induction xs with
    | nil => exact fun acc => rfl
    | cons x xs ih =>
      intro acc
      obtain ⟨hx, hxs⟩ := List.forall_mem_cons.1 h
      rw [List.filterAuxM, List.filterAuxM, hx]
      exact congrArg _ (funext fun b => ih hxs _)
  rw [List.filterM, List.filterM, haux]

theorem mapM_eq_ok {xs : List α} {step : α → Except ε β} {value : α → Option β}
    (h : ∀ x ∈ xs, ∃ y, value x = some y ∧ step x = .ok y) :
    xs.mapM step = .ok (xs.filterMap value) := by
  induction xs with
  | nil => rfl
  | cons x xs ih =>
    obtain ⟨⟨y, hy, hx⟩, hxs⟩ := List.forall_mem_cons.1 h
    rw [List.mapM_cons, hx, ih hxs, List.filterMap_cons_some hy]
    rfl

theorem mapM_eq_ok_map {xs : List α} {step : α → Except ε β} {f : α → β}
    (h : ∀ x ∈ xs, step x = .ok (f x)) : xs.mapM step = .ok (xs.map f) := by
  rw [← List.filterMap_eq_map]
  exact mapM_eq_ok fun x hx => ⟨f x, rfl, h x hx⟩

theorem eq_map_of_mapM {xs : List α} {step : α → Except ε β} {f : α → β} {ys : List β}
    (hf : ∀ x y, step x = .ok y → y = f x) (h : xs.mapM step = .ok ys) : ys = xs.map f := by
  induction xs generalizing ys with
  | nil => exact (pure_eq_ok.1 h).symm
  | cons x xs ih =>
    rw [List.mapM_cons] at h
    obtain ⟨y, hy, h⟩ := bind_eq_ok.1 h
    obtain ⟨ys', hys', h⟩ := bind_eq_ok.1 h
    rw [← pure_eq_ok.1 h, hf x y hy, ih hys', List.map_cons]

theorem exists_mapM_eq_ok {xs : List α} {step : α → Except ε β}
    (h : ∀ x ∈ xs, ∃ y, step x = .ok y) : ∃ ys, xs.mapM step = .ok ys := by
  induction xs with
  | nil => exact ⟨[], rfl⟩
  | cons x xs ih =>
    obtain ⟨⟨y, hy⟩, hxs⟩ := List.forall_mem_cons.1 h
    obtain ⟨ys, hys⟩ := ih hxs
    refine ⟨y :: ys, ?_⟩
    rw [List.mapM_cons, hy, hys]
    rfl

theorem exists_of_mapM_eq_ok {xs : List α} {step : α → Except ε β} {ys : List β}
    (h : xs.mapM step = .ok ys) : ∀ x ∈ xs, ∃ y, step x = .ok y := by
  induction xs generalizing ys with
  | nil => simp
  | cons x xs ih =>
    rw [List.mapM_cons] at h
    obtain ⟨y, hy, h⟩ := bind_eq_ok.1 h
    obtain ⟨ys', hys', -⟩ := bind_eq_ok.1 h
    exact List.forall_mem_cons.2 ⟨⟨y, hy⟩, ih hys'⟩

theorem mapM_congr {m : Type → Type} [Monad m] [LawfulMonad m] {xs : List α} {step step' : α → m β}
    (h : ∀ x ∈ xs, step x = step' x) : xs.mapM step = xs.mapM step' := by
  induction xs with
  | nil => rfl
  | cons x xs ih =>
    obtain ⟨hx, hxs⟩ := List.forall_mem_cons.1 h
    rw [List.mapM_cons, List.mapM_cons, hx, ih hxs]

theorem forM_congr {m : Type → Type} [Monad m] {xs : List α} {step step' : α → m Unit}
    (h : ∀ x ∈ xs, step x = step' x) : xs.forM step = xs.forM step' := by
  induction xs with
  | nil => rfl
  | cons x xs ih =>
    obtain ⟨hx, hxs⟩ := List.forall_mem_cons.1 h
    rw [forM_cons, forM_cons, hx, ih hxs]

/-- Every failure of a computation has a property. -/
def FailsOnly (p : ε → Prop) (x : Except ε α) : Prop := ∀ e, x = .error e → p e

section
variable {p : ε → Prop}

theorem failsOnly_ok (a : α) : FailsOnly p (.ok a : Except ε α) := fun _ h => by cases h

theorem failsOnly_error {e : ε} (h : p e) : FailsOnly p (.error e : Except ε α) :=
  fun _ he => Except.error.inj he ▸ h

theorem FailsOnly.andThen {x : Except ε α} {k : α → Except ε β} (hx : FailsOnly p x)
    (hk : ∀ a, x = .ok a → FailsOnly p (k a)) : FailsOnly p (x >>= k) := by
  cases x with
  | error e => exact failsOnly_error (hx e rfl)
  | ok a => exact hk a rfl

theorem FailsOnly.bind {x : Except ε α} {k : α → Except ε β} (hx : FailsOnly p x)
    (hk : ∀ a, FailsOnly p (k a)) : FailsOnly p (x >>= k) := hx.andThen fun a _ => hk a

theorem failsOnly_each {xs : List α} {step : α → Except ε Unit}
    (h : ∀ x ∈ xs, FailsOnly p (step x)) : FailsOnly p (xs.forM step) := by
  rcases forM_cases xs step with hok | ⟨x, hx, e, he, herror⟩
  · rw [hok]
    exact failsOnly_ok ()
  · rw [herror]
    exact failsOnly_error (h x hx e he)

/-- A fold fails as the step behind some part of the list that went well. -/
theorem failsOnly_foldlM {xs : List α} {step : β → α → Except ε β} {s : β}
    (h : ∀ before x after t, xs = before ++ x :: after → before.foldlM step s = .ok t →
      FailsOnly p (step t x)) : FailsOnly p (xs.foldlM step s) := by
  induction xs generalizing s with
  | nil => exact failsOnly_ok s
  | cons x xs ih =>
    rw [List.foldlM_cons]
    refine (h [] x xs s rfl rfl).andThen fun t ht => ih fun before y after u hxs hu => ?_
    refine h (x :: before) y after u (congrArg (x :: ·) hxs) ?_
    rw [List.foldlM_cons, ht, ok_bind, hu]

theorem failsOnly_guard {c : Prop} [Decidable c] {e : ε} {k : Except ε β} (hc : c → p e)
    (hk : ¬ c → FailsOnly p k) : FailsOnly p (if c then throw e else k) := by
  split
  · exact failsOnly_error (hc ‹c›)
  · exact hk ‹¬ c›

theorem failsOnly_require {c : Prop} [Decidable c] {a : α} {e : ε} (h : ¬ c → p e) :
    FailsOnly p (if c then .ok a else .error e) := by
  split
  · exact failsOnly_ok a
  · exact failsOnly_error (h ‹¬ c›)

theorem failsOnly_mapM {xs : List α} {step : α → Except ε β}
    (h : ∀ x ∈ xs, FailsOnly p (step x)) : FailsOnly p (xs.mapM step) := by
  induction xs with
  | nil => exact failsOnly_ok []
  | cons x xs ih =>
    obtain ⟨hx, hxs⟩ := List.forall_mem_cons.1 h
    rw [List.mapM_cons]
    exact hx.bind fun _ => (ih hxs).bind fun _ => failsOnly_ok _

end

/-- Two computations fail in the same way or succeed with related answers. -/
inductive Agree (R : α → β → Prop) : Except ε α → Except ε β → Prop
  | ok {a : α} {b : β} (h : R a b) : Agree R (.ok a) (.ok b)
  | error (e : ε) : Agree R (.error e) (.error e)

theorem Agree.bind {γ δ : Type} {R : α → β → Prop} {S : γ → δ → Prop} {x : Except ε α}
    {y : Except ε β} {k : α → Except ε γ} {k' : β → Except ε δ} (hxy : Agree R x y)
    (hk : ∀ a b, R a b → Agree S (k a) (k' b)) : Agree S (x >>= k) (y >>= k') := by
  cases hxy with
  | ok h => exact hk _ _ h
  | error e => exact .error e

theorem lookup_eq_ok {xs : List α} {i : Nat} {x : α} : lookup xs i = .ok x ↔ xs[i]? = some x := by
  unfold lookup
  cases xs[i]? <;> simp

end Dataflow
