/-!
# Sorting

Insertion sort by a Boolean order. Elements that are equal in the order keep their places
relative to each other. What is sorted is searched by halves.
-/

namespace Dataflow

variable {α : Type}

/-- Puts an element in front of the first one it is not greater than. -/
def insertBy (le : α → α → Bool) (a : α) : List α → List α
  | [] => [a]
  | b :: bs => if le a b then a :: b :: bs else b :: insertBy le a bs

/-- The elements of a list in ascending order. -/
def sortBy (le : α → α → Bool) : List α → List α
  | [] => []
  | a :: as => insertBy le a (sortBy le as)

/-- Numbers in ascending order. -/
def ascending (ns : List Nat) : List Nat := sortBy (fun a b => a ≤ b) ns

/-- Looks for a number among ascending ones: the middle one says in which half it can be. -/
def bisect (ns : List Nat) (n : Nat) : Bool :=
  match h : ns[ns.length / 2]? with
  | none => false
  | some m =>
    if n = m then true
    else if n < m then bisect (ns.take (ns.length / 2)) n
    else bisect (ns.drop (ns.length / 2 + 1)) n
termination_by ns.length
decreasing_by
  all_goals
    have := (List.getElem?_eq_some_iff.1 h).1
    simp only [List.length_take, List.length_drop]
    omega

theorem insertBy_perm (le : α → α → Bool) (a : α) :
    ∀ as : List α, (insertBy le a as).Perm (a :: as)
  | [] => .refl _
  | b :: bs => by
    unfold insertBy
    split
    · exact .refl _
    · exact ((insertBy_perm le a bs).cons b).trans (.swap a b bs)

theorem sortBy_perm (le : α → α → Bool) : ∀ as : List α, (sortBy le as).Perm as
  | [] => .refl _
  | a :: as => (insertBy_perm le a _).trans ((sortBy_perm le as).cons a)

theorem insertBy_pairwise {le : α → α → Bool} (total : ∀ a b, le a b = true ∨ le b a = true)
    (trans : ∀ a b c, le a b = true → le b c = true → le a c = true) (a : α) :
    ∀ {as : List α}, as.Pairwise (fun x y => le x y = true) →
      (insertBy le a as).Pairwise fun x y => le x y = true
  | [], _ => by simp [insertBy]
  | b :: bs, h => by
    obtain ⟨hb, hbs⟩ := List.pairwise_cons.1 h
    unfold insertBy
    split
    · rename_i hab
      refine List.pairwise_cons.2 ⟨fun x hx => ?_, h⟩
      rcases List.mem_cons.1 hx with rfl | hx
      · exact hab
      · exact trans _ _ _ hab (hb x hx)
    · rename_i hab
      refine List.pairwise_cons.2 ⟨fun x hx => ?_, insertBy_pairwise total trans a hbs⟩
      rcases List.mem_cons.1 ((insertBy_perm le a bs).subset hx) with rfl | hx
      · exact (total x b).resolve_left hab
      · exact hb x hx

theorem sortBy_pairwise {le : α → α → Bool} (total : ∀ a b, le a b = true ∨ le b a = true)
    (trans : ∀ a b c, le a b = true → le b c = true → le a c = true) :
    ∀ as : List α, (sortBy le as).Pairwise fun x y => le x y = true
  | [] => .nil
  | a :: as => insertBy_pairwise total trans a (sortBy_pairwise total trans as)

@[simp] theorem mem_ascending {n : Nat} {ns : List Nat} : n ∈ ascending ns ↔ n ∈ ns :=
  (sortBy_perm _ ns).mem_iff

theorem ascending_sorted (ns : List Nat) : (ascending ns).Pairwise (· ≤ ·) := by
  have h := @sortBy_pairwise Nat (fun a b => decide (a ≤ b))
    (fun a b => by simp only [decide_eq_true_eq]; omega)
    (fun a b c => by simp only [decide_eq_true_eq]; omega) ns
  exact h.imp fun h => of_decide_eq_true h

/-- The search by halves finds what is there. -/
theorem bisect_iff {ns : List Nat} {n : Nat} (hns : ns.Pairwise (· ≤ ·)) :
    bisect ns n = true ↔ n ∈ ns := by
  have hsplit : ∀ {ns : List Nat} {i m : Nat}, ns[i]? = some m →
      ns = ns.take i ++ m :: ns.drop (i + 1) := by
    intro ns i m h
    obtain ⟨hi, rfl⟩ := List.getElem?_eq_some_iff.1 h
    rw [← List.drop_eq_getElem_cons hi, List.take_append_drop]
  fun_induction bisect ns n with
  | case1 ns h =>
    have hnil : ns = [] := List.length_eq_zero_iff.1 (by have := List.getElem?_eq_none_iff.1 h; omega)
    simp [hnil]
  | case2 ns h => simpa using List.mem_of_getElem? h
  | case3 ns m h hne hlt ih =>
    -- what stands behind the middle is too large
    refine (ih (hns.sublist (List.take_sublist _ _))).trans ⟨List.mem_of_mem_take, fun hn => ?_⟩
    rw [hsplit h] at hn hns
    obtain ⟨-, hright, -⟩ := List.pairwise_append.1 hns
    rcases List.mem_append.1 hn with hn | hn
    · exact hn
    · have hle := (List.pairwise_cons.1 hright).1 n ((List.mem_cons.1 hn).resolve_left hne)
      omega
  | case4 ns m h hne hlt ih =>
    -- what stands in front of the middle is too small
    refine (ih (hns.sublist (List.drop_sublist _ _))).trans ⟨List.mem_of_mem_drop, fun hn => ?_⟩
    rw [hsplit h] at hn hns
    obtain ⟨-, -, hcross⟩ := List.pairwise_append.1 hns
    rcases List.mem_append.1 hn with hn | hn
    · have hle := hcross n hn m List.mem_cons_self
      omega
    · exact (List.mem_cons.1 hn).resolve_left hne

end Dataflow
