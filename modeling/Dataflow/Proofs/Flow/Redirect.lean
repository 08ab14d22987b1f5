import Dataflow.Proofs.Flow.Walk

/-!
# Sending the entries of a header through a new vertex

`Redirect E r h p` is the edge relation `E` with every edge that enters `h` from outside of what `h`
dominates sent to a new vertex `p`, from which one edge leads on to `h`. What can be reached and
what dominates what stays as it was, and `p` is dominated by what strictly dominates `h` and
dominates what `h` dominates. So no back edge comes or goes, and a graph without cycles of forward
edges stays one.
-/

namespace Dataflow.Flow

open Relation

variable {E : BlockId → BlockId → Prop} {r h p a b u v w : BlockId}

/-- An edge leads from `u` into `h` from outside of what `h` dominates. -/
structure Enters (E : BlockId → BlockId → Prop) (r h u : BlockId) : Prop where
  reaches : ReflTransGen E r u
  edge : E u h
  not_dominates : ¬ Dominates E r h u

/-- Whatever is reached is entered from outside. -/
theorem exists_enters (hh : ReflTransGen E r h) (hr : h ≠ r) : ∃ u, Enters E r h u := by
  -- the first edge into `h` on the way to it
  have key : ∀ {v}, ReflTransGen E r v → ReflTransGen (Skip E h) r v ∨
      ∃ u, ReflTransGen (Skip E h) r u ∧ E u h := by
    intro v hv
    induction hv with
    | refl => exact .inl .refl
    | @tail v w _ he ih =>
      rcases ih with ih | ih
      · by_cases hw : w = h
        · exact .inr ⟨v, ih, hw ▸ he⟩
        · exact .inl (ih.tail ⟨he, hw⟩)
      · exact .inr ih
  rcases key hh with hskip | ⟨u, hskip, he⟩
  · exact absurd rfl (Skip.ne hskip hr.symm)
  · exact ⟨u, Skip.reaches hskip, he, fun hd => (dominates_iff.1 hd).2 hr.symm hskip⟩

/-- The edges once `p` stands in front of `h`. -/
inductive Redirect (E : BlockId → BlockId → Prop) (r h p : BlockId) : BlockId → BlockId → Prop
  | old {u v : BlockId} (edge : E u v) (stays : ¬ (Enters E r h u ∧ v = h)) : Redirect E r h p u v
  | enter {u : BlockId} (enters : Enters E r h u) : Redirect E r h p u p
  | arrive : Redirect E r h p p h

/-- `p` is new and some edge enters `h`, which is not the root. -/
structure Redirectable (E : BlockId → BlockId → Prop) (r h p : BlockId) : Prop where
  no_source : ∀ v, ¬ E p v
  no_target : ∀ u, ¬ E u p
  root_ne : r ≠ p
  head_ne : h ≠ r
  entered : ∃ u, Enters E r h u

namespace Redirectable

section
variable (hR : Redirectable E r h p)
include hR

theorem head_ne_new : h ≠ p := by
  obtain ⟨u, hu⟩ := hR.entered
  rintro rfl
  exact hR.no_target u hu.edge

theorem ne_of_reaches (hu : ReflTransGen E r u) : u ≠ p := by
  cases hu with
  | refl => exact hR.root_ne
  | tail _ he => exact fun h => hR.no_target _ (h ▸ he)

theorem reaches_head : ReflTransGen E r h := by
  obtain ⟨u, hu⟩ := hR.entered
  exact hu.reaches.tail hu.edge

theorem redirect_head_iff : Redirect E r h p u h ↔ E u h ∧ ¬ Enters E r h u ∨ u = p := by
  constructor
  · intro he
    cases he with
    | old he stays => exact .inl ⟨he, fun hu => stays ⟨hu, rfl⟩⟩
    | enter => exact absurd rfl hR.head_ne_new
    | arrive => exact .inr rfl
  · rintro (⟨he, hu⟩ | rfl)
    · exact .old he fun hu' => hu hu'.1
    · exact .arrive

theorem redirect_new_iff : Redirect E r h p u p ↔ Enters E r h u := by
  refine ⟨fun he => ?_, .enter⟩
  cases he with
  | old he _ => exact absurd he (hR.no_target u)
  | enter hu => exact hu
  | arrive => exact absurd rfl hR.head_ne_new

/-! ## Reachability -/

/-- A step of the old graph is one or two of the new one. -/
theorem skip_redirect (ha : a ≠ p) (hs : Skip E a u v) :
    ReflTransGen (Skip (Redirect E r h p) a) u v := by
  by_cases hent : Enters E r h u ∧ v = h
  · obtain ⟨hu, rfl⟩ := hent
    exact (ReflTransGen.single ⟨.enter hu, ha.symm⟩).tail ⟨.arrive, hs.2⟩
  · exact .single ⟨.old hs.1 hent, hs.2⟩

theorem reaches_redirect (hs : E u v) : ReflTransGen (Redirect E r h p) u v := by
  by_cases hent : Enters E r h u ∧ v = h
  · obtain ⟨hu, rfl⟩ := hent
    exact (ReflTransGen.single (.enter hu)).tail .arrive
  · exact .single (.old hs hent)

/-- Where the old graph stands while the new one is at `u`: on the way to `h` it is there already. -/
def shadow (h p u : BlockId) : BlockId := if u = p then h else u

omit hR in
@[simp] theorem shadow_new : shadow h p p = h := if_pos rfl

omit hR in
theorem shadow_of_ne (hu : u ≠ p) : shadow h p u = u := if_neg hu

/-- The old graph does not move while the new one goes from `p` to `h`. -/
theorem shadow_arrive (hu : u = p) (hv : v = h) : shadow h p v = shadow h p u := by
  rw [hu, hv, shadow_new, shadow_of_ne hR.head_ne_new]

/-- A step of the new graph is at most one of the old one. -/
theorem shadow_step (hs : Redirect E r h p u v) :
    E (shadow h p u) (shadow h p v) ∨ u = p ∧ v = h := by
  cases hs with
  | old he _ =>
    have hu : u ≠ p := fun hu => hR.no_source v (hu ▸ he)
    have hv : v ≠ p := fun hv => hR.no_target u (hv ▸ he)
    exact .inl (by rwa [shadow_of_ne hu, shadow_of_ne hv])
  | enter hu =>
    refine .inl ?_
    rw [shadow_new, shadow_of_ne (hR.ne_of_reaches hu.reaches)]
    exact hu.edge
  | arrive => exact .inr ⟨rfl, rfl⟩

theorem reaches_shadow (hs : ReflTransGen (Redirect E r h p) u v) :
    ReflTransGen E (shadow h p u) (shadow h p v) := by
  induction hs with
  | refl => exact .refl
  | tail _ he ih =>
    rcases hR.shadow_step he with he | ⟨hu, hv⟩
    · exact ih.tail he
    · rwa [hR.shadow_arrive hu hv]

theorem reaches_iff (hb : b ≠ p) :
    ReflTransGen (Redirect E r h p) r b ↔ ReflTransGen E r b := by
  constructor
  · intro hs
    have := hR.reaches_shadow hs
    rwa [shadow_of_ne hR.root_ne, shadow_of_ne hb] at this
  · intro hs
    induction hs with
    | refl => exact .refl
    | tail hs he ih => exact (ih (hR.ne_of_reaches hs)).trans (hR.reaches_redirect he)

theorem reaches_new : ReflTransGen (Redirect E r h p) r p := by
  obtain ⟨u, hu⟩ := hR.entered
  exact ((hR.reaches_iff (hR.ne_of_reaches hu.reaches)).2 hu.reaches).tail (.enter hu)

/-! ## Dominance -/

theorem skip_shadow (hah : a ≠ h) (hs : ReflTransGen (Skip (Redirect E r h p) a) u v) :
    ReflTransGen (Skip E a) (shadow h p u) (shadow h p v) := by
  induction hs with
  | refl => exact .refl
  | @tail v w _ he ih =>
    rcases hR.shadow_step he.1 with hs | ⟨hv, hw⟩
    · refine ih.tail ⟨hs, ?_⟩
      unfold shadow
      split
      · exact hah.symm
      · exact he.2
    · rwa [hR.shadow_arrive hv hw]

/-- What the new graph reaches without `h`, the old one does too, but for `p`. -/
theorem skip_head (hs : ReflTransGen (Skip (Redirect E r h p) h) u v) :
    v = p ∨ ReflTransGen (Skip E h) u v := by
  induction hs with
  | refl => exact .inr .refl
  | tail _ he ih =>
    obtain ⟨he, hne⟩ := he
    cases he with
    | old he _ =>
      rcases ih with rfl | ih
      · exact absurd he (hR.no_source _)
      · exact .inr (ih.tail ⟨he, hne⟩)
    | enter => exact .inl rfl
    | arrive => exact absurd rfl hne

/-- What the new graph reaches without `p`, the old one reaches without `h`. -/
theorem skip_new (hs : ReflTransGen (Skip (Redirect E r h p) p) r v) :
    ReflTransGen (Skip E h) r v := by
  induction hs with
  | refl => exact .refl
  | @tail u v hs he ih =>
    have hu : u ≠ p := Skip.ne hs hR.root_ne
    obtain ⟨he, hne⟩ := he
    cases he with
    | old he stays =>
      refine ih.tail ⟨he, ?_⟩
      rintro rfl
      -- an edge into the head that has not been redirected comes from what the head dominates
      refine stays ⟨⟨Skip.reaches ih, he, fun hd => ?_⟩, rfl⟩
      exact (dominates_iff.1 hd).2 hR.head_ne.symm ih
    | enter => exact absurd rfl hne
    | arrive => exact absurd rfl hu

theorem dominates_iff_old (ha : a ≠ p) (hb : b ≠ p) :
    Dominates (Redirect E r h p) r a b ↔ Dominates E r a b := by
  rw [dominates_iff, dominates_iff, hR.reaches_iff hb]
  refine and_congr_right' (forall_congr' fun hra => not_congr ⟨fun hs => ?_, fun hs => ?_⟩)
  · by_cases hah : a = h
    · subst hah
      exact (hR.skip_head hs).resolve_left hb
    · have := hR.skip_shadow hah hs
      rwa [shadow_of_ne hR.root_ne, shadow_of_ne hb] at this
  · clear hb
    induction hs with
    | refl => exact .refl
    | tail _ he ih => exact ih.trans (hR.skip_redirect ha he)

theorem new_dominates_iff (hb : b ≠ p) :
    Dominates (Redirect E r h p) r p b ↔ Dominates E r h b := by
  rw [dominates_iff, dominates_iff, hR.reaches_iff hb]
  refine and_congr_right fun _ => ?_
  have hskip : ReflTransGen (Skip (Redirect E r h p) p) r b ↔ ReflTransGen (Skip E h) r b := by
    refine ⟨hR.skip_new, ReflTransGen.mono ?_ _ _⟩
    rintro u v ⟨he, hne⟩
    exact ⟨.old he fun hu => hne hu.2, fun hv => hR.no_target u (hv ▸ he)⟩
  rw [hskip]
  exact ⟨fun hs _ => hs hR.root_ne, fun hs _ => hs hR.head_ne.symm⟩

theorem dominates_new_iff (ha : a ≠ p) :
    Dominates (Redirect E r h p) r a p ↔ Dominates E r a h ∧ a ≠ h := by
  have hph : Dominates (Redirect E r h p) r p h :=
    (hR.new_dominates_iff hR.head_ne_new).2 (.refl hR.reaches_head)
  constructor
  · intro hd
    refine ⟨(hR.dominates_iff_old ha hR.head_ne_new).1 (hd.trans hph), ?_⟩
    rintro rfl
    exact ha (hd.antisymm hph)
  · rintro ⟨hd, hah⟩
    refine .of_preds hR.reaches_new hR.root_ne.symm fun u _ he => ?_
    have hu := hR.redirect_new_iff.1 he
    exact (hR.dominates_iff_old ha (hR.ne_of_reaches hu.reaches)).2 (hd.pred hah hu.reaches hu.edge)

/-! ## Back edges -/

theorem isBack_iff : IsBack (Redirect E r h p) r u v ↔ IsBack E r u v := by
  constructor
  · rintro ⟨he, hd⟩
    cases he with
    | old he _ =>
      have hu : u ≠ p := fun hu => hR.no_source v (hu ▸ he)
      have hv : v ≠ p := fun hv => hR.no_target u (hv ▸ he)
      exact ⟨he, (hR.dominates_iff_old hv hu).1 hd⟩
    | enter hu =>
      exact absurd ((hR.new_dominates_iff (hR.ne_of_reaches hu.reaches)).1 hd) hu.not_dominates
    | arrive => exact absurd rfl ((hR.dominates_new_iff hR.head_ne_new).1 hd).2
  · rintro ⟨he, hd⟩
    have hu : u ≠ p := fun hu => hR.no_source v (hu ▸ he)
    have hv : v ≠ p := fun hv => hR.no_target u (hv ▸ he)
    refine ⟨.old he ?_, (hR.dominates_iff_old hv hu).2 hd⟩
    rintro ⟨hent, rfl⟩
    exact hent.not_dominates hd

theorem shadow_forward (hs : IsForward (Redirect E r h p) r u v) :
    IsForward E r (shadow h p u) (shadow h p v) ∨ u = p ∧ v = h := by
  obtain ⟨he, hd⟩ := hs
  cases he with
  | old he _ =>
    have hu : u ≠ p := fun hu => hR.no_source v (hu ▸ he)
    have hv : v ≠ p := fun hv => hR.no_target u (hv ▸ he)
    rw [shadow_of_ne hu, shadow_of_ne hv]
    exact .inl ⟨he, fun hd' => hd ((hR.dominates_iff_old hv hu).2 hd')⟩
  | enter hu =>
    rw [shadow_new, shadow_of_ne (hR.ne_of_reaches hu.reaches)]
    exact .inl ⟨hu.edge, hu.not_dominates⟩
  | arrive => exact .inr ⟨rfl, rfl⟩

theorem transGen_shadow (hs : TransGen (IsForward (Redirect E r h p) r) u v) :
    TransGen (IsForward E r) (shadow h p u) (shadow h p v) ∨ u = p ∧ v = h := by
  induction hs with
  | single he => exact (hR.shadow_forward he).imp_left .single
  | tail _ he ih =>
    refine .inl ?_
    rcases ih with ih | ⟨hu, hv⟩ <;> rcases hR.shadow_forward he with he | ⟨hv', hw⟩
    · exact ih.tail he
    · rwa [hR.shadow_arrive hv' hw]
    · rw [hv, shadow_of_ne hR.head_ne_new] at he
      rw [hu, shadow_new]
      exact .single he
    · exact absurd (hv.symm.trans hv') hR.head_ne_new

/-- A step that is not a back edge stays one, or leads through `p`. -/
theorem transGen_redirect (hs : IsForward E r u v) :
    TransGen (IsForward (Redirect E r h p) r) u v := by
  have hforward : ∀ {u v}, Redirect E r h p u v → ¬ IsBack E r u v →
      IsForward (Redirect E r h p) r u v :=
    fun he hback => ⟨he, fun hd => hback (hR.isBack_iff.1 ⟨he, hd⟩)⟩
  by_cases hent : Enters E r h u ∧ v = h
  · obtain ⟨hu, rfl⟩ := hent
    exact (TransGen.single (hforward (.enter hu) fun hback => hR.no_target u hback.1)).tail
      (hforward .arrive fun hback => hR.no_source v hback.1)
  · exact .single (hforward (.old hs.1 hent) fun hback => hs.2 hback.2)

theorem transGen_iff (hu : u ≠ p) (hv : v ≠ p) :
    TransGen (IsForward (Redirect E r h p) r) u v ↔ TransGen (IsForward E r) u v := by
  constructor
  · intro hs
    rcases hR.transGen_shadow hs with hs | ⟨hup, -⟩
    · rwa [shadow_of_ne hu, shadow_of_ne hv] at hs
    · exact absurd hup hu
  · exact fun hs => hs.lift' id fun _ _ => hR.transGen_redirect

theorem reducible (hE : Reducible E r) : Reducible (Redirect E r h p) r := by
  intro u hu hcycle
  rcases hR.transGen_shadow hcycle with hcycle | ⟨hup, huh⟩
  · refine hE _ ?_ hcycle
    have := hR.reaches_shadow hu
    rwa [shadow_of_ne hR.root_ne] at this
  · exact hR.head_ne_new (huh.symm.trans hup)

end

end Redirectable

end Dataflow.Flow
