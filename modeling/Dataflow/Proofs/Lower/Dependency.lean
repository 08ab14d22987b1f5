import Dataflow.Proofs.Lower.Translation

/-!
# Which accesses a lowered function keeps in order

If everything may alias, two accesses of which one writes are kept in order exactly if the first one
is declared before the second one and can run before it (`Session.lower_orders`). A way against the
order of declaration is not looked for: in `Function.backwards` a store runs before a load that is
declared in front of it, and the graph does not say so (`Session.lower_orders_backwards`).
-/

namespace Dataflow

open Relation

/-- The access is declared in front of another one. -/
def Access.Ahead (a b : Access) : Prop := a.block < b.block ∨ a.block = b.block ∧ a.index < b.index

theorem Access.Ahead.asymm {a b : Access} (h : a.Ahead b) : ¬ b.Ahead a := by
  rintro (h' | ⟨heq, hlt⟩)
  · rcases h with h | ⟨heq, -⟩
    · exact Nat.lt_asymm h h'
    · exact Nat.lt_irrefl _ (heq ▸ h')
  · rcases h with h | ⟨-, h⟩
    · exact Nat.lt_irrefl _ (heq ▸ h)
    · exact Nat.lt_asymm h hlt

namespace Plan

variable {p : Plan} {o : Options} {F : Frame Label} {xs : List (Access × Option Region)}
  {ordered : List (Access × Access)}

theorem mem_wires_dependency {l l' : Label} : ⟨.dependency, l, l'⟩ ∈ p.wires o xs ordered ↔
    ∃ q ∈ ordered, q.1.label = l ∧ q.2.label = l' := by
  have hother : ⟨.dependency, l, l'⟩ ∈ p.wires o xs ordered ↔
      (⟨.dependency, l, l'⟩ : Wire Label) ∈ ordered.map orderWire :=
    ⟨mem_wires_of_kind, fun hw => List.mem_append_right _ (List.mem_append_right _ hw)⟩
  rw [hother, List.mem_map]
  simp only [orderWire, Wire.mk.injEq, true_and]

/-- Accesses that are paired and conflict, by where they stand. -/
theorem conflicts_iff {f : Function} {a b : Access} : a.Ahead b ∧ Conflicts f (a, b) ↔
    (a.kind = .store ∨ b.kind = .store) ∧ (a.block = b.block ∧ a.index < b.index ∨
      a.block < b.block ∧ TransGen (Flow.IsForward f.Edge Function.entry) a.block b.block) := by
  have hkinds : ¬ (a.kind = .load ∧ b.kind = .load) ↔ a.kind = .store ∨ b.kind = .store := by
    cases a.kind <;> cases b.kind <;> simp
  rw [Conflicts, hkinds, Precedes, Access.Ahead]
  by_cases hblock : a.block = b.block
  · have hlt : ¬ a.block < b.block := Nat.not_lt.2 (Nat.le_of_eq hblock.symm)
    simp only [hblock, if_true, lt_self_iff_false, false_or, false_and, or_false, true_and]
    exact ⟨fun h => h.2, fun h => ⟨h.2, h⟩⟩
  · simp only [hblock, if_false, false_and, or_false, false_or]
    exact ⟨fun ⟨hlt, hkind, hway⟩ => ⟨hkind, hlt, hway⟩, fun ⟨hkind, hlt, hway⟩ => ⟨hlt, hkind, hway⟩⟩

/-- The dependencies of a graph in which everything may alias are the conflicts of accesses that are
declared in order. -/
theorem Sound.hasEdge_dependency (hp : p.Sound) {cs : List (Access × Access)}
    (hcs : cs.Sublist (pairs p.accessList))
    (hmem : ∀ q, q ∈ cs ↔ q ∈ pairs p.accessList ∧ Conflicts p.function q) (start : Uid)
    {a b : Access} (ha : a ∈ p.accessList) (hb : b ∈ p.accessList) :
    (p.drawn o start (p.lowered .single () o cs)).hasEdge .dependency
      ((p.frame start (p.lowered .single () o cs)).id a.label)
      ((p.frame start (p.lowered .single () o cs)).id b.label) = true ↔
    a.Ahead b ∧ Conflicts p.function (a, b) := by
  have hscope : p.Scope _ (p.lowered .single () o cs) := hp.scope_lowered hcs o start
  have hlaid : ∀ {a}, a ∈ p.accessList → a.label ∈ p.fullLabels (p.lowered .single () o cs) :=
    fun ha => mem_fullLabels (hp.places_frame ha 0 []).laid
  have horders : p.orders .single () cs = cs := Disambiguator.aliasing_single cs
  have hpairs : ∀ {a b}, (a, b) ∈ pairs p.accessList ↔
      a ∈ p.accessList ∧ b ∈ p.accessList ∧ a.Ahead b :=
    mem_pairs_of_pairwise hp.lists_accessList.ascending fun _ _ h => Access.Ahead.asymm h
  refine (hscope.fits_whole.hasEdge_iff (hlaid ha) (hlaid hb)).trans ?_
  rw [draw_wires, mem_wires_dependency, horders]
  have hunique : ∀ {a' : Access}, a' ∈ p.accessList → ∀ {a}, a ∈ p.accessList →
      a'.label = a.label → a' = a := fun ha' _ ha h =>
    List.inj_on_of_nodup_map (hp.nodup_accesses (F := p.frame 0 [])) ha' ha h
  constructor
  · rintro ⟨⟨a', b'⟩, hq, hla, hlb⟩
    obtain ⟨hpair, hconflict⟩ := (hmem _).1 hq
    obtain ⟨ha', hb', hahead⟩ := hpairs.1 hpair
    obtain rfl := hunique ha' ha hla
    obtain rfl := hunique hb' hb hlb
    exact ⟨hahead, hconflict⟩
  · rintro ⟨hahead, hconflict⟩
    exact ⟨(a, b), (hmem _).2 ⟨hpairs.2 ⟨ha, hb, hahead⟩, hconflict⟩, rfl, rfl⟩

end Plan

/-- **Which accesses are kept in order.** If everything may alias, there is a dependency between two
accesses of a function that is lowered exactly if one of them writes, and the first one stands in
front of the second one in a block, or in a block that is declared earlier and has a way to that of
the second one without a back edge. -/
theorem Session.lower_orders {s : Session} {f : Function} {g : Graph} (hf : f.check = .ok ())
    (hg : (s.lower f .single ()).result = .ok g) :
    ∃ f' place, f.withPreheaders = .ok f' ∧ f'.Translates g place ∧
      ∀ kind b k addr kind' b' k' addr', f.Reachable b → f.HasAccess kind b k addr →
        f.Reachable b' → f.HasAccess kind' b' k' addr' →
        (g.hasEdge .dependency (place.instr b k) (place.instr b' k') = true ↔
          (kind = .store ∨ kind' = .store) ∧ (b = b' ∧ k < k' ∨
            b < b' ∧ TransGen (Flow.IsForward f.Edge Function.entry) b b')) := by
  have hwf := Function.check_eq_ok_iff.1 hf
  obtain ⟨p, cs, hp, hpre, hrounds, hcs, hmem, hsup, hcomplete, rfl⟩ := lower_eq_ok hwf hg
  have hscope : p.Scope _ (p.lowered .single () s.options cs) :=
    hp.scope_lowered hcs s.options s.uids.next
  refine ⟨p.function, p.placement _, hpre, hscope.translates hsup hcomplete, ?_⟩
  intro kind b k addr kind' b' k' addr' hb ha hb' ha'
  have hlists := (Function.lists_iff hrounds).1 hp.lists_accessList
  obtain ⟨node, hmema⟩ := (hlists.mem_iff kind b k addr).2 ⟨hb, ha⟩
  obtain ⟨node', hmema'⟩ := (hlists.mem_iff kind' b' k' addr').2 ⟨hb', ha'⟩
  refine (hp.hasEdge_dependency hcs hmem s.uids.next hmema hmema').trans ?_
  rw [Plan.conflicts_iff, Function.forward_iff hrounds (hwf.reachable_lt hb) (hwf.reachable_lt hb')]

/-- A store that runs before a load and is declared behind it. -/
def Function.backwards : Function where
  name := "backwards"
  params := [⟨"p", .ptr⟩]
  globals := []
  blocks := [
    ⟨0, "entry", [], .jump 2⟩,
    ⟨1, "late", [.load 0 .ptr (.arg 0)], .ret none⟩,
    ⟨2, "early", [.store (.arg 0) (.arg 0)], .jump 1⟩]

theorem Function.forward_backwards :
    TransGen (Flow.IsForward Function.backwards.Edge Function.entry) 2 1 := by
  have hedge : Function.backwards.Edge 2 1 := ⟨_, rfl, by decide⟩
  refine .single ⟨hedge, fun hdom => ?_⟩
  have hway : Flow.Walk Function.backwards.Edge Function.entry 2 [0, 2] :=
    .step (.single 0) ⟨_, rfl, by decide⟩
  exact absurd (hdom.mem _ hway) (by decide)

/-- The two accesses conflict and one runs before the other, but they are not kept in order. -/
theorem Session.lower_orders_backwards : Function.backwards.check = .ok () ∧
    TransGen (Flow.IsForward Function.backwards.Edge Function.entry) 2 1 ∧
    ∃ g f' place, (({} : Session).lower Function.backwards .single ()).result = .ok g ∧
      Function.backwards.withPreheaders = .ok f' ∧ f'.Translates g place ∧
      g.hasEdge .dependency (place.instr 2 0) (place.instr 1 0) = false := by
  have hok : (({} : Session).lower Function.backwards .single ()).result.isOk = true := by
    decide +kernel
  have hway := Function.forward_backwards
  have hreach₂ : Function.backwards.Reachable 2 := .single ⟨_, rfl, by decide⟩
  have hreach₁ : Function.backwards.Reachable 1 := hreach₂.tail ⟨_, rfl, by decide⟩
  cases hg : (({} : Session).lower Function.backwards .single ()).result with
  | error e =>
    rw [hg] at hok
    cases hok
  | ok g =>
    obtain ⟨f', place, hpre, htranslates, horders⟩ := lower_orders (by decide) hg
    refine ⟨by decide, hway, g, f', place, rfl, hpre, htranslates, ?_⟩
    have hstore : Function.backwards.HasAccess .store 2 0 (.arg 0) := ⟨_, _, rfl, rfl, rfl⟩
    have hload : Function.backwards.HasAccess .load 1 0 (.arg 0) := ⟨_, _, rfl, rfl, rfl⟩
    rw [Bool.eq_false_iff, ne_eq, horders _ _ _ _ _ _ _ _ hreach₂ hstore hreach₁ hload]
    rintro ⟨-, ⟨h, -⟩ | ⟨h, -⟩⟩
    · cases h
    · exact absurd h (by decide)

end Dataflow
