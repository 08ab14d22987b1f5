import Dataflow.Proofs.Net.Rewiring
import Mathlib.Data.List.Induction
import Mathlib.Data.List.Pairwise

/-!
# Rebinding

An access may be bound again and again, each time with all its edges moved from the old unit to the
new one. `Net.reached_bindAll` says that this leaves no trace: only the last call that changed the unit
of an access counts (`Binding.lasting`).

Serving an access on a unit and parting it again gives back the graph (`InStep.unserve_serve`), and
parting it does not interfere with how others are served (`InStep.unserve_serve_of_ne`). So after any
calls the graph is the one in which the accesses are served by the lasting calls, one after the other
(`InStep.rebind_serveAll` for one more call, `Net.bindAll_eq_ok` for all of them).
-/

namespace Dataflow

/-- The last unit counts. -/
theorem NodeKind.bindTo_comp_bindTo (unit unit' : NodeId) :
    bindTo unit ∘ bindTo unit' = bindTo unit := by
  funext kind
  cases kind with
  | instr i =>
    have hop : (i.op.withMemory unit').withMemory unit = i.op.withMemory unit := by
      cases i.op <;> rfl
    simp only [Function.comp, bindTo, hop]
  | _ => rfl

namespace AccessKind

@[simp] theorem sourceSlot_request (k : AccessKind) : k.request.sourceSlot = .memReq := by
  cases k <;> rfl

@[simp] theorem targetSlot_response (k : AccessKind) : k.response.targetSlot = .memResp := by
  cases k <;> rfl

theorem request_ne_response (k k' : AccessKind) : k.request ≠ k'.response := by
  cases k <;> cases k' <;> exact fun h => by cases h

end AccessKind

namespace Graph

/-! ## Serving and parting -/

section
variable {g : Graph} {a u b w n : NodeId} {k k' : AccessKind}

theorem serve_eq : g.serve k a u =
    ((g.link k.request a u).link k.response u a).modifyKind a (NodeKind.bindTo u) := by
  rw [serve, link_modifyKind, link_modifyKind]

theorem kind?_serve : (g.serve k a u).kind? n =
    if a = n then (g.kind? n).map (NodeKind.bindTo u) else g.kind? n := by
  rw [serve, kind?_link, kind?_link, kind?_modifyKind]

theorem length_serve : (g.serve k a u).nodes.length = g.nodes.length := by
  rw [serve, length_link, length_link, length_modifyKind]

theorem serve_modifyKind (hne : b ≠ a) (f : NodeKind → NodeKind) :
    (g.modifyKind b f).serve k a u = (g.serve k a u).modifyKind b f := by
  rw [serve_eq, link_modifyKind, link_modifyKind, modifyKind_comm hne, serve_eq]

theorem serve_bindTo : (g.modifyKind a (NodeKind.bindTo w)).serve k a u = g.serve k a u := by
  rw [serve, modifyKind_modifyKind, NodeKind.bindTo_comp_bindTo]
  rfl

theorem kind?_parted (old : Option NodeId) :
    (old.elim g (g.unserve k a)).kind? n = g.kind? n := by
  cases old with
  | none => rfl
  | some old => exact (kind?_unlink ..).trans (kind?_unlink ..)

theorem length_parted (old : Option NodeId) :
    (old.elim g (g.unserve k a)).nodes.length = g.nodes.length := by
  cases old with
  | none => rfl
  | some old => exact (length_unlink ..).trans (length_unlink ..)

section
variable (ha : a < g.nodes.length) (hu : u < g.nodes.length)
include ha hu

/-- An access gets its unit as a port for requests and for responses, and the unit the access. -/
theorem ports_serve (s : Slot) : (g.serve k a u).ports n s = g.ports n s ++
    ((if a = n ∧ (s = .memReq ∨ s = .memResp) then [u] else []) ++
      if u = n ∧ (s = k.request.targetSlot ∨ s = k.response.sourceSlot) then [a] else []) := by
  rw [serve_eq, ports_modifyKind, ports_link (by rwa [length_link]) (by rwa [length_link]),
    ports_link ha hu, List.append_assoc]
  congr 1
  cases k <;> cases s <;> simp [Edge.spot?, nextEdge, AccessKind.request, AccessKind.response,
    EdgeKind.sourceSlot, EdgeKind.targetSlot] <;> split <;> rfl

theorem ports_serve_memory {s : Slot} (hs : s = .memReq ∨ s = .memResp) :
    (g.serve k a u).ports n s = g.ports n s ++ if a = n then [u] else [] := by
  rw [ports_serve ha hu]
  cases k <;> rcases hs with rfl | rfl <;>
    simp [AccessKind.request, AccessKind.response, EdgeKind.sourceSlot, EdgeKind.targetSlot]

theorem InStep.serve (hg : g.InStep) : (g.serve k a u).InStep := by
  rw [serve_eq]
  exact ((hg.link ha hu _).link (by rwa [length_link]) (by rwa [length_link]) _).modifyKind _ _

theorem InStep.unlink_serve (hg : g.InStep) {kind : EdgeKind} {c d : NodeId}
    (hrequest : ¬ (k.request = kind ∧ a = c ∧ u = d))
    (hresponse : ¬ (k.response = kind ∧ u = c ∧ a = d)) :
    (g.serve k a u).unlink kind c d = (g.unlink kind c d).serve k a u := by
  rw [serve_eq, unlink_modifyKind, (hg.link ha hu _).unlink_link (by rwa [length_link])
    (by rwa [length_link]) hresponse, hg.unlink_link ha hu hrequest, serve_eq]

/-- Parting one access from its unit does not touch how another one is served. -/
theorem InStep.unserve_serve_of_ne (hg : g.InStep) (hne : a ≠ b) :
    (g.serve k a u).unserve k' b w = (g.unserve k' b w).serve k a u := by
  rw [unserve, hg.unlink_serve ha hu, (hg.unlink _ _ _).unlink_serve]
  · rfl
  · rwa [length_unlink]
  · rwa [length_unlink]
  · exact fun h => AccessKind.request_ne_response _ _ h.1
  · exact fun h => hne h.2.2
  · exact fun h => hne h.2.1
  · exact fun h => AccessKind.request_ne_response _ _ h.1.symm

/-- Parting an access from the unit that serves it leaves the ports and edges as they were before. -/
theorem InStep.unserve_serve (hg : g.InStep) (hreq : g.ports a .memReq = [])
    (hresp : g.ports a .memResp = []) :
    (g.serve k a u).unserve k a u = g.modifyKind a (NodeKind.bindTo u) := by
  have hrequest : g.ports a k.request.sourceSlot = [] := by
    rw [AccessKind.sourceSlot_request, hreq]
  have hresponse : g.ports a k.response.targetSlot = [] := by
    rw [AccessKind.targetSlot_response, hresp]
  -- the request is removed first, from in front of the response
  rw [serve_eq, unserve, unlink_modifyKind, unlink_modifyKind,
    (hg.link ha hu _).unlink_link (by rwa [length_link]) (by rwa [length_link])
      fun h => AccessKind.request_ne_response _ _ h.1.symm,
    hg.unlink_link_self ha hu fun e he => hg.joins_eq_false (.inl hrequest) he,
    hg.unlink_link_self hu ha fun e he => hg.joins_eq_false (.inr hresponse) he]

end

end

end Graph

/-! ## Calls -/

/-- A call that binds an access to a unit. -/
structure Binding where
  access : NodeId
  unit : NodeId
deriving DecidableEq

namespace Binding

/-- The calls are for different accesses. -/
abbrev Apart (c c' : Binding) : Prop := c.access ≠ c'.access

/-- The unit that the last of the calls for an access names. -/
def unitAfter (calls : List Binding) (access : NodeId) : Option NodeId :=
  (calls.reverse.find? (·.access = access)).map Binding.unit

/-- The calls that change the unit of their access. -/
def changes (calls : List Binding) : List Binding :=
  (calls.zipIdx.filter fun c => unitAfter (calls.take c.2) c.1.access ≠ some c.1.unit).map Prod.fst

/-- For each access the last call that changes its unit, in the order of the calls. -/
def lasting (calls : List Binding) : List Binding :=
  (changes calls).pwFilter Apart

theorem unitAfter_concat (calls : List Binding) (c : Binding) (access : NodeId) :
    unitAfter (calls ++ [c]) access =
      if c.access = access then some c.unit else unitAfter calls access := by
  by_cases h : c.access = access <;> simp [unitAfter, h]

theorem changes_concat (calls : List Binding) (c : Binding) : changes (calls ++ [c]) =
    changes calls ++ if unitAfter calls c.access = some c.unit then [] else [c] := by
  have hold : (calls.zipIdx.filter fun x =>
      unitAfter ((calls ++ [c]).take x.2) x.1.access ≠ some x.1.unit) =
      calls.zipIdx.filter fun x => unitAfter (calls.take x.2) x.1.access ≠ some x.1.unit := by
    refine List.filter_congr fun x hx => ?_
    have hlt := (List.getElem?_eq_some_iff.1 (List.mem_zipIdx_iff_getElem?.1 hx)).1
    rw [List.take_append_of_le_length (Nat.le_of_lt hlt)]
  rw [changes, List.zipIdx_append, List.filter_append, List.map_append, hold]
  by_cases h : unitAfter calls c.access = some c.unit <;> simp [changes, h]

/-- The last call takes the place of earlier ones for its access. -/
theorem pwFilter_concat (calls : List Binding) (c : Binding) :
    (calls ++ [c]).pwFilter Apart = (calls.pwFilter Apart).filter (·.access ≠ c.access) ++ [c] := by
  induction calls with
  | nil => rfl
  | cons x calls ih =>
    have hall : ∀ xs : List Binding, (∀ y ∈ xs.pwFilter Apart, Apart x y) ↔ ∀ y ∈ xs, Apart x y :=
      List.forall_mem_pwFilter (fun h => by grind) x
    rw [List.cons_append]
    by_cases hx : ∀ y ∈ calls, Apart x y
    · rw [List.pwFilter_cons_of_pos ((hall calls).2 hx), List.filter_cons]
      by_cases hc : x.access = c.access
      · rw [List.pwFilter_cons_of_neg (mt (hall _).1 fun h => h c (by simp) hc), ih]
        simp [hc]
      · have hxc : ∀ y ∈ calls ++ [c], Apart x y :=
          List.forall_mem_append.2 ⟨hx, by simpa using hc⟩
        rw [List.pwFilter_cons_of_pos ((hall _).2 hxc), ih]
        simp [hc]
    · rw [List.pwFilter_cons_of_neg (mt (hall calls).1 hx), List.pwFilter_cons_of_neg, ih]
      exact mt (hall _).1 fun h => hx fun y hy => h y (List.mem_append_left _ hy)

/-- One more call takes the place of the call that counted for its access, if it changes the unit. -/
theorem lasting_concat (calls : List Binding) (c : Binding) : lasting (calls ++ [c]) =
    if unitAfter calls c.access = some c.unit then lasting calls
    else (lasting calls).filter (·.access ≠ c.access) ++ [c] := by
  rw [lasting, changes_concat]
  split
  · rw [List.append_nil, lasting]
  · rw [pwFilter_concat, lasting]

theorem mem_of_mem_lasting {calls : List Binding} {c : Binding} (h : c ∈ lasting calls) :
    c ∈ calls := by
  obtain ⟨x, hx, rfl⟩ := List.mem_map.1 (List.pwFilter_subset _ h)
  exact List.mem_of_getElem? (List.mem_zipIdx_iff_getElem?.1 (List.mem_filter.1 hx).1)

theorem pairwise_lasting (calls : List Binding) : (lasting calls).Pairwise Apart :=
  List.pairwise_pwFilter _

theorem mem_lasting_iff {calls : List Binding} {c : Binding} :
    c ∈ lasting calls ↔ unitAfter calls c.access = some c.unit := by
  induction calls using List.reverseRecOn with
  | nil => simp [lasting, changes, unitAfter]
  | append_singleton calls x ih =>
    rw [lasting_concat, unitAfter_concat]
    obtain ⟨a, u⟩ := c
    obtain ⟨b, w⟩ := x
    grind

theorem access_ne_of_unitAfter {calls : List Binding} {access : NodeId}
    (h : unitAfter calls access = none) : ∀ c ∈ lasting calls, c.access ≠ access := by
  rintro c hc rfl
  cases h.symm.trans (mem_lasting_iff.1 hc)

/-- The one call that lasts for an access, among those for other accesses. -/
theorem exists_split_lasting {calls : List Binding} {access unit : NodeId}
    (h : unitAfter calls access = some unit) : ∃ before behind : List Binding,
      lasting calls = before ++ ⟨access, unit⟩ :: behind ∧
      (∀ c ∈ before, c.access ≠ access) ∧ (∀ c ∈ behind, c.access ≠ access) := by
  have hmem : ⟨access, unit⟩ ∈ lasting calls := mem_lasting_iff.2 h
  obtain ⟨before, behind, hsplit⟩ := List.append_of_mem hmem
  have hpair := pairwise_lasting calls
  rw [hsplit] at hpair
  obtain ⟨-, hbehind, hbefore⟩ := List.pairwise_append.1 hpair
  exact ⟨before, behind, hsplit, fun c hc => hbefore c hc _ List.mem_cons_self,
    fun c hc => ((List.pairwise_cons.1 hbehind).1 c hc).symm⟩

/-- Calls for different accesses all last. -/
theorem lasting_eq_self {calls : List Binding} (h : calls.Pairwise Apart) : lasting calls = calls := by
  induction calls using List.reverseRecOn with
  | nil => rfl
  | append_singleton calls c ih =>
    obtain ⟨hcalls, -, hlast⟩ := List.pairwise_append.1 h
    have hne : ∀ x ∈ calls, x.access ≠ c.access :=
      fun x hx => hlast x hx c (List.mem_singleton_self c)
    have hunit : unitAfter calls c.access ≠ some c.unit := by
      intro hunit
      have hmem : c ∈ lasting calls := mem_lasting_iff.2 hunit
      rw [ih hcalls] at hmem
      exact hne c hmem rfl
    rw [lasting_concat, if_neg hunit, ih hcalls,
      List.filter_eq_self.2 fun x hx => by simpa using hne x hx]

end Binding

namespace Graph

open Binding

/-! ## Serving one access after the other -/

/-- Serves accesses of given kinds on given units. -/
def serveAll (g : Graph) (kinds : NodeId → AccessKind) (calls : List Binding) : Graph :=
  calls.foldl (fun g c => g.serve (kinds c.access) c.access c.unit) g

variable {g : Graph} {kinds : NodeId → AccessKind}

theorem serveAll_append (calls calls' : List Binding) :
    g.serveAll kinds (calls ++ calls') = (g.serveAll kinds calls).serveAll kinds calls' :=
  List.foldl_append

theorem serveAll_cons (c : Binding) (calls : List Binding) : g.serveAll kinds (c :: calls) =
    (g.serve (kinds c.access) c.access c.unit).serveAll kinds calls := rfl

theorem length_serveAll (calls : List Binding) :
    (g.serveAll kinds calls).nodes.length = g.nodes.length := by
  induction calls generalizing g with
  | nil => rfl
  | cons c calls ih => exact ih.trans length_serve

theorem kind?_serveAll_of_not_mem {n : NodeId} {calls : List Binding}
    (hn : ∀ c ∈ calls, c.access ≠ n) : (g.serveAll kinds calls).kind? n = g.kind? n := by
  induction calls generalizing g with
  | nil => rfl
  | cons c calls ih =>
    rw [List.forall_mem_cons] at hn
    refine (ih hn.2).trans ?_
    rw [kind?_serve, if_neg hn.1]

theorem kind?_serveAll_of_mem {c : Binding} {calls : List Binding} (hc : c ∈ calls)
    (h : calls.Pairwise Apart) :
    (g.serveAll kinds calls).kind? c.access =
      (g.kind? c.access).map (NodeKind.bindTo c.unit) := by
  obtain ⟨before, behind, rfl⟩ := List.append_of_mem hc
  obtain ⟨-, hbehind, hbefore⟩ := List.pairwise_append.1 h
  obtain ⟨hbehind, -⟩ := List.pairwise_cons.1 hbehind
  rw [serveAll_append, serveAll_cons, kind?_serveAll_of_not_mem fun x hx => (hbehind x hx).symm,
    kind?_serve, if_pos rfl, kind?_serveAll_of_not_mem fun x hx => hbefore x hx c List.mem_cons_self]

/-- Serving accesses does not make a unit of a node, or of a unit something else. -/
theorem kind?_serveAll_eq_memory {n : NodeId} {r : Region} {calls : List Binding} :
    (g.serveAll kinds calls).kind? n = some (.memory r) ↔ g.kind? n = some (.memory r) := by
  induction calls generalizing g with
  | nil => rfl
  | cons c calls ih =>
    rw [serveAll_cons, ih, kind?_serve]
    split
    · cases g.kind? n with
      | none => rfl
      | some kind => cases kind <;> simp [NodeKind.bindTo]
    · rfl

theorem serveAll_modifyKind {a : NodeId} {calls : List Binding} (ha : ∀ c ∈ calls, c.access ≠ a)
    (f : NodeKind → NodeKind) :
    (g.modifyKind a f).serveAll kinds calls = (g.serveAll kinds calls).modifyKind a f := by
  induction calls generalizing g with
  | nil => rfl
  | cons c calls ih =>
    rw [List.forall_mem_cons] at ha
    show ((g.modifyKind a f).serve _ c.access c.unit).serveAll kinds calls = _
    rw [serve_modifyKind (Ne.symm ha.1), ih ha.2]
    rfl

/-- The nodes that the calls name exist. -/
def Holds (g : Graph) (calls : List Binding) : Prop :=
  ∀ c ∈ calls, c.access < g.nodes.length ∧ c.unit < g.nodes.length

theorem Holds.serve {c : Binding} {calls : List Binding} (h : g.Holds (c :: calls)) :
    (g.serve (kinds c.access) c.access c.unit).Holds calls := by
  intro x hx
  rw [length_serve]
  exact h x (List.mem_cons_of_mem c hx)

section
variable {calls : List Binding} (hcalls : g.Holds calls)
include hcalls

theorem InStep.serveAll (hg : g.InStep) : (g.serveAll kinds calls).InStep := by
  induction calls generalizing g with
  | nil => exact hg
  | cons c calls ih =>
    obtain ⟨haccess, hunit⟩ := hcalls c List.mem_cons_self
    exact ih hcalls.serve (hg.serve haccess hunit)

/-- Serving other accesses gives an access no memory ports. -/
theorem ports_serveAll_of_not_mem {n : NodeId} (hn : ∀ c ∈ calls, c.access ≠ n) {s : Slot}
    (hs : s = .memReq ∨ s = .memResp) : (g.serveAll kinds calls).ports n s = g.ports n s := by
  induction calls generalizing g with
  | nil => rfl
  | cons c calls ih =>
    obtain ⟨haccess, hunit⟩ := hcalls c List.mem_cons_self
    obtain ⟨hne, hn⟩ := List.forall_mem_cons.1 hn
    rw [serveAll_cons, ih hcalls.serve hn, ports_serve_memory haccess hunit hs, if_neg hne,
      List.append_nil]

/-- An access that is served once has the unit as its one memory port. -/
theorem ports_serveAll_of_mem {c : Binding} (hc : c ∈ calls) (h : calls.Pairwise Apart) {s : Slot}
    (hs : s = .memReq ∨ s = .memResp) (hnil : g.ports c.access s = []) :
    (g.serveAll kinds calls).ports c.access s = [c.unit] := by
  induction calls generalizing g with
  | nil => cases hc
  | cons x calls ih =>
    obtain ⟨haccess, hunit⟩ := hcalls x List.mem_cons_self
    obtain ⟨hx, h⟩ := List.pairwise_cons.1 h
    rw [serveAll_cons]
    rcases List.mem_cons.1 hc with rfl | hc
    · rw [ports_serveAll_of_not_mem hcalls.serve (fun y hy => (hx y hy).symm) hs,
        ports_serve_memory haccess hunit hs, hnil, if_pos rfl, List.nil_append]
    · refine ih hcalls.serve hc h ?_
      rw [ports_serve_memory haccess hunit hs, hnil, if_neg (hx c hc), List.nil_append]

theorem InStep.unserve_serveAll (hg : g.InStep) {a u : NodeId} {k : AccessKind}
    (ha : ∀ c ∈ calls, c.access ≠ a) :
    (g.serveAll kinds calls).unserve k a u = (g.unserve k a u).serveAll kinds calls := by
  induction calls generalizing g with
  | nil => rfl
  | cons c calls ih =>
    obtain ⟨haccess, hunit⟩ := hcalls c List.mem_cons_self
    obtain ⟨hne, ha⟩ := List.forall_mem_cons.1 ha
    rw [serveAll_cons, ih hcalls.serve (hg.serve haccess hunit) ha,
      hg.unserve_serve_of_ne haccess hunit hne, serveAll_cons]

end

/-- An access that moves to another unit might as well have been served there in the first place,
behind all others. -/
theorem InStep.serve_unserve_serveAll (hg : g.InStep) {before behind : List Binding} {c : Binding}
    (hcalls : g.Holds (before ++ c :: behind)) (hbefore : ∀ x ∈ before, x.access ≠ c.access)
    (hbehind : ∀ x ∈ behind, x.access ≠ c.access) (hreq : g.ports c.access .memReq = [])
    (hresp : g.ports c.access .memResp = []) (unit : NodeId) :
    ((g.serveAll kinds (before ++ c :: behind)).unserve (kinds c.access) c.access c.unit).serve
      (kinds c.access) c.access unit = g.serveAll kinds (before ++ behind ++ [⟨c.access, unit⟩]) := by
  let g' := g.serveAll kinds before
  have hheld : g.Holds before := fun x hx => hcalls x (List.mem_append_left _ hx)
  have hg' : g'.InStep := hg.serveAll hheld
  have hcalls' : g'.Holds (c :: behind) := by
    intro x hx
    rw [length_serveAll]
    exact hcalls x (List.mem_append_right _ hx)
  obtain ⟨haccess, hunit⟩ := hcalls' c List.mem_cons_self
  have hreq' : g'.ports c.access .memReq = [] := by
    rw [ports_serveAll_of_not_mem hheld hbefore (.inl rfl), hreq]
  have hresp' : g'.ports c.access .memResp = [] := by
    rw [ports_serveAll_of_not_mem hheld hbefore (.inr rfl), hresp]
  -- without its ports and edges only the name of the old unit is left, which the new one replaces
  have hparted : (g.serveAll kinds (before ++ c :: behind)).unserve (kinds c.access) c.access c.unit =
      (g.serveAll kinds (before ++ behind)).modifyKind c.access (NodeKind.bindTo c.unit) := by
    rw [serveAll_append, serveAll_cons,
      (hg'.serve haccess hunit).unserve_serveAll hcalls'.serve hbehind,
      hg'.unserve_serve haccess hunit hreq' hresp', serveAll_modifyKind hbehind, serveAll_append]
  rw [hparted, serve_bindTo, serveAll_append (before ++ behind)]
  rfl

/-- One more call makes the graph of the calls that last then. -/
theorem InStep.rebind_serveAll (hg : g.InStep) {calls : List Binding}
    (hcalls : g.Holds (lasting calls)) (c : Binding) (hreq : g.ports c.access .memReq = [])
    (hresp : g.ports c.access .memResp = []) :
    (g.serveAll kinds (lasting calls)).rebind (kinds c.access) c.access (unitAfter calls c.access)
      c.unit = g.serveAll kinds (lasting (calls ++ [c])) := by
  rw [lasting_concat, rebind]
  by_cases hsame : unitAfter calls c.access = some c.unit
  · rw [if_pos hsame, if_pos hsame]
  · rw [if_neg hsame, if_neg hsame]
    cases hunit : unitAfter calls c.access with
    | none =>
      have hne := access_ne_of_unitAfter hunit
      rw [List.filter_eq_self.2 fun x hx => by simpa using hne x hx, serveAll_append]
      rfl
    | some unit =>
      -- the access is bound elsewhere, by a call that others may have followed
      obtain ⟨before, behind, hsplit, hbefore, hbehind⟩ := exists_split_lasting hunit
      rw [hsplit] at hcalls ⊢
      rw [List.filter_append, List.filter_cons_of_neg (by simp),
        List.filter_eq_self.2 fun x hx => by simpa using hbefore x hx,
        List.filter_eq_self.2 fun x hx => by simpa using hbehind x hx]
      exact hg.serve_unserve_serveAll hcalls hbefore hbehind hreq hresp c.unit

/-! ## Requests and responses in pairs -/

/-- Requests and responses of a unit stand in the same order. -/
def Paired (g : Graph) (unit : NodeId) : Prop :=
  g.ports unit .readReq = g.ports unit .readResp ∧ g.ports unit .writeReq = g.ports unit .writeResp

theorem Paired.serveAll {unit : NodeId} (h : g.Paired unit) {calls : List Binding}
    (hcalls : g.Holds calls) : (g.serveAll kinds calls).Paired unit := by
  induction calls generalizing g with
  | nil => exact h
  | cons c calls ih =>
    obtain ⟨haccess, hunit⟩ := hcalls c List.mem_cons_self
    refine ih ?_ hcalls.serve
    unfold Paired at h ⊢
    rw [ports_serve haccess hunit, ports_serve haccess hunit, ports_serve haccess hunit,
      ports_serve haccess hunit, h.1, h.2]
    cases kinds c.access <;>
      simp [AccessKind.request, AccessKind.response, EdgeKind.sourceSlot, EdgeKind.targetSlot]

/-! ## Accesses and units -/

/-- A load or store that is bound to no unit. -/
def Unbound (g : Graph) (access : NodeId) : Prop :=
  ∃ i, g.kind? access = some (.instr i) ∧ i.op.kind.isAccess = true ∧ i.op.memory? = none

instance (g : Graph) (access : NodeId) : Decidable (g.Unbound access) :=
  decidable_of_iff (((g.node? access).bind Node.instr?).any fun i =>
      i.op.kind.isAccess && i.op.memory? = none) <| by
    simp only [Option.any_eq_true, Option.bind_eq_some_iff, Bool.and_eq_true, decide_eq_true_eq]
    constructor
    · rintro ⟨i, ⟨node, hnode, hi⟩, haccess, hmemory⟩
      exact ⟨i, kind?_eq_some.2 ⟨node, hnode, Node.kind_of_instr? hi⟩, haccess, hmemory⟩
    · rintro ⟨i, hi, haccess, hmemory⟩
      obtain ⟨node, hnode, hkind⟩ := kind?_eq_some.1 hi
      exact ⟨i, ⟨node, hnode, by simp [Node.instr?, hkind]⟩, haccess, hmemory⟩

/-- The kind of an access. -/
def accessKind (g : Graph) (access : NodeId) : AccessKind :=
  ((g.node? access).bind Node.access?).getD .load

theorem accessKind_eq {access : NodeId} {i : InstrNode} {k : AccessKind}
    (hi : g.kind? access = some (.instr i)) (hk : i.op.kind.access? = some k) :
    g.accessKind access = k := by
  obtain ⟨node, hnode, hkind⟩ := kind?_eq_some.1 hi
  simp [accessKind, node?, hnode, Node.access?, Node.instr?, hkind, hk]

theorem holds_lasting {calls : List Binding} (hcalls : ∀ c ∈ calls, g.Unbound c.access)
    (hunits : ∀ c ∈ calls, ∃ r, g.kind? c.unit = some (.memory r)) : g.Holds (lasting calls) := by
  intro c hc
  obtain ⟨i, hi, -⟩ := hcalls c (mem_of_mem_lasting hc)
  obtain ⟨r, hr⟩ := hunits c (mem_of_mem_lasting hc)
  exact ⟨lt_of_kind? hi, lt_of_kind? hr⟩

theorem Unbound.unserved {access : NodeId} (h : g.Unbound access) (hg : g.Coherent) :
    g.ports access .memReq = [] ∧ g.ports access .memResp = [] := by
  obtain ⟨i, hi, haccess, hmemory⟩ := h
  obtain ⟨k, hk⟩ := Option.isSome_iff_exists.1 haccess
  exact hg.unserved hi hk hmemory

/-- What calls make of an access: it is bound to the unit that the last one names. -/
theorem Unbound.kind?_serveAll {access : NodeId} (h : g.Unbound access) (calls : List Binding) :
    ∃ i, (g.serveAll g.accessKind (lasting calls)).kind? access = some (.instr i) ∧
      i.op.kind.access? = some (g.accessKind access) ∧ i.op.memory? = unitAfter calls access := by
  obtain ⟨i, hi, haccess, hmemory⟩ := h
  obtain ⟨k, hk⟩ := Option.isSome_iff_exists.1 haccess
  rw [accessKind_eq hi hk]
  cases hunit : unitAfter calls access with
  | none =>
    refine ⟨i, ?_, hk, hmemory⟩
    rw [kind?_serveAll_of_not_mem (access_ne_of_unitAfter hunit), hi]
  | some unit =>
    have hmem : ⟨access, unit⟩ ∈ lasting calls := mem_lasting_iff.2 hunit
    refine ⟨{ i with op := i.op.withMemory unit }, ?_, by simpa using hk,
      Opcode.memory?_withMemory hk unit⟩
    rw [kind?_serveAll_of_mem hmem (pairwise_lasting calls), hi]
    rfl

end Graph

namespace Net

open Binding

/-! ## Making the calls -/

/-- Makes the calls one after the other. -/
def bindAll (calls : List Binding) : NetM Unit := calls.forM fun c => bind c.access c.unit

theorem bindAll_concat (calls : List Binding) (c : Binding) :
    bindAll (calls ++ [c]) = bindAll calls >>= fun _ => bind c.access c.unit := by
  simp [bindAll]

section
variable {net net' : Net} (hnet : net.Coherent) {calls : List Binding}
variable (hcalls : ∀ c ∈ calls, net.Unbound c.access)
include hnet hcalls

/-- Making calls has the effect of serving the accesses by those that last. -/
theorem bindAll_eq_ok (hrun : bindAll calls net = .ok () net') :
    net' = net.withGraph (net.serveAll net.accessKind (lasting calls)) ∧ net'.Coherent ∧
      ∀ c ∈ calls, ∃ r, net.kind? c.unit = some (.memory r) := by
  induction calls using List.reverseRecOn generalizing net' with
  | nil =>
    cases hrun
    exact ⟨rfl, hnet, by simp⟩
  | append_singleton calls c ih =>
    rw [bindAll_concat] at hrun
    obtain ⟨_, mid, hmid, hlast⟩ := run_bind_eq_ok hrun
    obtain ⟨hcalls, hc⟩ := List.forall_mem_append.1 hcalls
    have hc : net.Unbound c.access := hc c (List.mem_singleton_self c)
    obtain ⟨rfl, hcoherent, hunits⟩ := ih hcalls hmid
    rcases bind_settles hcoherent c.access c.unit with ⟨e, he⟩ | ⟨_, mid', hok, hbinds, hmoves⟩
    · cases hlast.symm.trans he
    cases hlast.symm.trans hok
    cases hbinds with
    | @intro i k r hi hk hunit =>
      refine ⟨?_, coherent_of_moves hmoves hcoherent, ?_⟩
      · obtain ⟨i', hi', hk', hmemory⟩ := hc.kind?_serveAll calls
        obtain rfl : i' = i := NodeKind.instr.inj (Option.some.inj (hi'.symm.trans hi))
        obtain rfl : net.accessKind c.access = k := Option.some.inj (hk'.symm.trans hk)
        obtain ⟨hreq, hresp⟩ := hc.unserved hnet
        rw [hmemory]
        exact congrArg net.withGraph (hnet.inStep.rebind_serveAll
          (Graph.holds_lasting hcalls hunits) c hreq hresp)
      · refine List.forall_mem_append.2 ⟨hunits, fun x hx => ?_⟩
        obtain rfl := List.mem_singleton.1 hx
        exact ⟨r, Graph.kind?_serveAll_eq_memory.1 hunit⟩

theorem bindAll_succeeds (hunits : ∀ c ∈ calls, ∃ r, net.kind? c.unit = some (.memory r)) :
    ∃ net', bindAll calls net = .ok () net' := by
  induction calls using List.reverseRecOn with
  | nil => exact ⟨net, rfl⟩
  | append_singleton calls c ih =>
    obtain ⟨hcalls, hc⟩ := List.forall_mem_append.1 hcalls
    obtain ⟨hunits, hunit⟩ := List.forall_mem_append.1 hunits
    obtain ⟨mid, hmid⟩ := ih hcalls hunits
    obtain ⟨rfl, hcoherent, -⟩ := bindAll_eq_ok hnet hcalls hmid
    obtain ⟨i, hi, hk, -⟩ := (hc c (List.mem_singleton_self c)).kind?_serveAll calls
    obtain ⟨r, hr⟩ := hunit c (List.mem_singleton_self c)
    obtain ⟨_, net', hrun, -⟩ :=
      bind_succeeds hcoherent hi hk (Graph.kind?_serveAll_eq_memory.2 hr)
    refine ⟨net', ?_⟩
    rw [bindAll_concat]
    exact (run_bind hmid).trans hrun

end

/-- Rebinding leaves no trace. After calls that bind accesses, all of them unbound before, the net is
what it would be if of the calls for each access only the last one that changed its unit had been made,
in the order of these calls. Each of the accesses then has the unit of that call as its one memory port.
If no memory unit had a port before, each unit has its requests and its responses in the same order. -/
theorem reached_bindAll {net net' : Net} (h : net.Reached) {calls : List Binding}
    (hcalls : ∀ c ∈ calls, net.Unbound c.access) (hrun : bindAll calls net = .ok () net') :
    bindAll (lasting calls) net = .ok () net' ∧
    (∀ c ∈ lasting calls,
      net'.ports c.access .memReq = [c.unit] ∧ net'.ports c.access .memResp = [c.unit]) ∧
    ((∀ unit r s, net.kind? unit = some (.memory r) → net.ports unit s = []) →
      ∀ unit r, net'.kind? unit = some (.memory r) →
        net'.ports unit .readReq = net'.ports unit .readResp ∧
        net'.ports unit .writeReq = net'.ports unit .writeResp) := by
  have hnet := h.coherent
  obtain ⟨rfl, -, hunits⟩ := bindAll_eq_ok hnet hcalls hrun
  have hheld : net.Holds (lasting calls) := Graph.holds_lasting hcalls hunits
  have hcalls' : ∀ c ∈ lasting calls, net.Unbound c.access :=
    fun c hc => hcalls c (mem_of_mem_lasting hc)
  refine ⟨?_, fun c hc => ?_, fun hnil unit r hunit => ?_⟩
  · obtain ⟨net', hrun'⟩ :=
      bindAll_succeeds hnet hcalls' fun c hc => hunits c (mem_of_mem_lasting hc)
    obtain ⟨rfl, -⟩ := bindAll_eq_ok hnet hcalls' hrun'
    rwa [lasting_eq_self (pairwise_lasting calls)] at hrun'
  · obtain ⟨hreq, hresp⟩ := (hcalls' c hc).unserved hnet
    exact ⟨Graph.ports_serveAll_of_mem hheld hc (pairwise_lasting calls) (.inl rfl) hreq,
      Graph.ports_serveAll_of_mem hheld hc (pairwise_lasting calls) (.inr rfl) hresp⟩
  · have hunit : net.kind? unit = some (.memory r) := Graph.kind?_serveAll_eq_memory.1 hunit
    have hpaired : net.Paired unit :=
      ⟨(hnil unit r _ hunit).trans (hnil unit r _ hunit).symm,
        (hnil unit r _ hunit).trans (hnil unit r _ hunit).symm⟩
    exact hpaired.serveAll hheld

/-- Two loads, a store and two units. -/
def switchyard : Net :=
  [.addBlock 0 .plain, .addInstr 1 (.load .ptr none) (some 0), .addInstr 1 (.load .ptr none) (some 1),
    .addInstr 1 (.store none) (some 2), .addMemory 0, .addMemory 1].foldl after
    { name := "switchyard", nodes := [{ uid := 0, kind := .split [] }], edges := [], entry := 0
      uids := ⟨1⟩ }

/-- Calls that bind everything to the first unit in the end. -/
def shunting : List Binding :=
  [⟨2, 5⟩, ⟨3, 5⟩, ⟨4, 6⟩, ⟨2, 6⟩, ⟨2, 6⟩, ⟨3, 5⟩, ⟨4, 5⟩, ⟨2, 5⟩]

theorem reached_bindAll_switchyard : ∃ net', bindAll shunting switchyard = .ok () net' ∧
    lasting shunting = [⟨3, 5⟩, ⟨4, 5⟩, ⟨2, 5⟩] ∧
    bindAll (lasting shunting) switchyard = .ok () net' ∧
    net'.ports 5 .readReq = [3, 2] ∧ net'.ports 5 .readReq = net'.ports 5 .readResp := by
  have hreached : switchyard.Reached := .steps (@Reached.start "switchyard" ⟨0⟩ _ rfl) _
  have hcalls : ∀ c ∈ shunting, switchyard.Unbound c.access := by decide +kernel
  have hunits : ∀ c ∈ shunting, switchyard.kind? c.unit = some (.memory (c.unit - 5)) := by
    decide +kernel
  obtain ⟨net', hrun⟩ := bindAll_succeeds hreached.coherent hcalls fun c hc => ⟨_, hunits c hc⟩
  obtain ⟨hlasting, -, hpaired⟩ := reached_bindAll hreached hcalls hrun
  obtain ⟨rfl, -⟩ := bindAll_eq_ok hreached.coherent hcalls hrun
  refine ⟨_, hrun, by decide +kernel, hlasting, by decide +kernel, (hpaired ?_ 5 0 ?_).1⟩
  · intro unit r s _
    refine List.eq_nil_iff_forall_not_mem.2 fun x hx => ?_
    obtain ⟨e, he, -⟩ := hreached.coherent.inStep.exists_edge hx
    have hedges : switchyard.edges = [] := by decide +kernel
    rw [hedges] at he
    cases he
  · decide +kernel

end Net

end Dataflow
