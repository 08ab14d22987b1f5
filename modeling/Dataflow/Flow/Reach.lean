/-!
# Searching a finite graph

Two searches over numbered vertices whose edges are given by a function, restricted to a list of
vertices that are still to be found. Each vertex leaves that list when it is found, so the work that
is left can be counted: `weight` adds up what the unfound vertices can still contribute.

* `gather` collects what can be reached from some vertices.
* `postorder` is depth-first search; it lists a vertex in front of everything found later from it.
-/

namespace Dataflow.Flow

/-- The sum of `w` over a list. -/
def weight {α : Type} (w : α → Nat) : List α → Nat
  | [] => 0
  | v :: vs => w v + weight w vs

theorem weight_erase {α : Type} [BEq α] [LawfulBEq α] (w : α → Nat) {vs : List α} {v : α}
    (h : v ∈ vs) : weight w (vs.erase v) + w v = weight w vs := by
  induction vs with
  | nil => cases h
  | cons x vs ih =>
    by_cases hx : x = v
    · subst hx
      rw [List.erase_cons_head, weight, Nat.add_comm]
    · have hmem : v ∈ vs := (List.mem_cons.1 h).resolve_left (Ne.symm hx)
      rw [List.erase_cons_tail (by simpa using hx), weight, weight, Nat.add_assoc, ih hmem]

/-- The vertices of `unfound` that can be reached from `pending` through vertices of `unfound`. -/
def gather (next : Nat → List Nat) (unfound pending : List Nat) : List Nat :=
  match pending with
  | [] => []
  | v :: rest =>
    if v ∈ unfound then v :: gather next (unfound.erase v) (next v ++ rest)
    else gather next unfound rest
termination_by pending.length + weight (fun v => (next v).length) unfound
decreasing_by
  · rename_i h
    have := weight_erase (fun v => (next v).length) h
    simp only [List.length_append, List.length_cons]
    omega
  · simp

/-- Depth-first search from a stack of vertices, each with the edges of it that are still to be
followed. A vertex goes in front of `done` once all its edges have been followed. -/
def postorder (next : Nat → List Nat) (unfound : List Nat) (stack : List (Nat × List Nat))
    (done : List Nat) : List Nat :=
  match stack with
  | [] => done
  | (v, []) :: rest => postorder next unfound rest (v :: done)
  | (v, t :: ts) :: rest =>
    if t ∈ unfound then
      postorder next (unfound.erase t) ((t, next t) :: (v, ts) :: rest) done
    else postorder next unfound ((v, ts) :: rest) done
termination_by weight (fun f => f.2.length + 1) stack + weight (fun v => (next v).length + 1) unfound
decreasing_by
  · simp [weight]
  · rename_i h
    have := weight_erase (fun v => (next v).length + 1) h
    simp only [weight, List.length_cons]
    omega
  · simp [weight]

end Dataflow.Flow
