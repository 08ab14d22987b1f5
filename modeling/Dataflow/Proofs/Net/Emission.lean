import Dataflow.Proofs.Net.Printing
import Dataflow.Proofs.Text

/-!
# What a listing names

The edges of a graph in step name each of its ports once (`InStep.count_portRefs`). In the neutral
form the text of a port determines the port, provided that no two nodes share a number
(`plain_port_inj`): names hold no point, so the first point ends the name; the digits behind the last
underscore of a name are the number of the node (`Node.uid_eq_of_name_eq`).
-/

namespace Dataflow

/-! ## Ports named by edges -/

theorem Edge.count_ends (e : Edge) (p : PortRef) : [e.source, e.target].count p =
    ((e.spot? p.node p.slot).toList.map Prod.snd).count p.index := by
  obtain ⟨n, s, i⟩ := p
  have hne := e.kind.sourceSlot_ne_targetSlot e.kind
  rw [List.count_cons, List.count_singleton, spot?]
  by_cases hsource : e.src = n ∧ e.kind.sourceSlot = s
  · obtain ⟨rfl, rfl⟩ := hsource
    simp [source, target, hne.symm, List.count_singleton]
  · by_cases htarget : e.dst = n ∧ e.kind.targetSlot = s
    · obtain ⟨rfl, rfl⟩ := htarget
      simp [source, target, hne, List.count_singleton]
    · have hs : e.source ≠ ⟨n, s, i⟩ :=
        fun h => hsource ⟨congrArg PortRef.node h, congrArg PortRef.slot h⟩
      have ht : e.target ≠ ⟨n, s, i⟩ :=
        fun h => htarget ⟨congrArg PortRef.node h, congrArg PortRef.slot h⟩
      simp [hs, ht, hsource, htarget]

namespace Graph

variable {g : Graph}

/-- The ports that the lines of a listing name, from the first edge to the last. -/
def portRefs (g : Graph) : List PortRef := g.edges.flatMap fun e => [e.source, e.target]

theorem InStep.count_portRefs (hg : g.InStep) (p : PortRef) :
    g.portRefs.count p = if p.index < (g.ports p.node p.slot).length then 1 else 0 := by
  have hspots : g.portRefs.count p = ((g.spots p.node p.slot).map Prod.snd).count p.index := by
    unfold portRefs spots
    induction g.edges with
    | nil => rfl
    | cons e es ih =>
      have hcons : (e :: es).filterMap (·.spot? p.node p.slot) =
          (e.spot? p.node p.slot).toList ++ es.filterMap (·.spot? p.node p.slot) := by
        cases h : e.spot? p.node p.slot <;> simp [h]
      rw [List.flatMap_cons, List.count_append, ih, hcons, List.map_append, List.count_append,
        e.count_ends]
  rw [hspots, ((hg p.node p.slot).map Prod.snd).count_eq, List.zipIdx_map_snd,
    (List.nodup_range').count]
  simp

end Graph

/-! ## Names -/

theorem Node.toList_name (n : Node) :
    n.name.toList = n.kind.stem.toList ++ '_' :: Nat.toDigits 10 n.uid := by
  have hname : n.name = n.kind.stem ++ "_" ++ n.uid.repr := rfl
  rw [hname, String.toList_append, String.toList_append, Nat.toList_repr, List.append_assoc]
  rfl

theorem Node.uid_eq_of_name_eq {n m : Node} (h : n.name = m.name) : n.uid = m.uid := by
  have hlist := congrArg (fun s => s.toList.reverse) h
  simp only [toList_name, List.reverse_append, List.reverse_cons, List.append_assoc,
    List.singleton_append] at hlist
  have hdigits := (eq_of_append_cons (by simp [Nat.underscore_not_in_toDigits])
    (by simp [Nat.underscore_not_in_toDigits]) hlist).1
  exact toDigits_ten_inj (List.reverse_injective hdigits)

theorem NodeKind.dot_not_mem_stem (kind : NodeKind) : '.' ∉ kind.stem.toList := by
  cases kind with
  | instr i =>
    show '.' ∉ i.op.kind.stem.toList
    cases i.op.kind with
    | cast op => cases op <;> decide
    | _ => decide
  | _ => simp [stem]

theorem Slot.name_injective {s t : Slot} (h : s.name = t.name) : s = t := by
  cases s <;> cases t <;> first | rfl | exact absurd h (by decide)

theorem Slot.bracket_not_mem_name (s : Slot) : '[' ∉ s.name.toList := by
  cases s <;> decide

theorem Node.dot_not_mem_name (n : Node) : '.' ∉ n.name.toList := by
  rw [toList_name, List.mem_append, List.mem_cons]
  rintro (hstem | hunderscore | hdigit)
  · exact n.kind.dot_not_mem_stem hstem
  · exact absurd hunderscore (by decide)
  · exact absurd (Nat.isDigit_of_mem_toDigits (by decide) (by decide) hdigit) (by decide)

/-! ## Texts of ports -/

namespace Dialect

variable {g : Graph} {format : Format} {p q : PortRef} {text : String}

theorem plain_port_eq_ok : (plain format).port g p = .ok text ↔ ∃ n, g.nodes[p.node]? = some n ∧
    text.toList = n.name.toList ++ '.' :: (p.slot.name.toList ++ '[' ::
      (Nat.toDigits 10 p.index ++ [']'])) := by
  have hport : ∀ n : Node, n.name ++ "." ++ p.slot.name ++ "[" ++ p.index.repr ++ "]" = text ↔
      text.toList = n.name.toList ++ '.' :: (p.slot.name.toList ++ '[' ::
        (Nat.toDigits 10 p.index ++ [']'])) := by
    intro n
    rw [← String.toList_inj]
    simp [eq_comm]
  constructor
  · intro h
    obtain ⟨n, hn, htext⟩ := bind_eq_ok.1 h
    exact ⟨n, lookup_eq_ok.1 hn, (hport n).1 (pure_eq_ok.1 htext)⟩
  · rintro ⟨n, hn, htext⟩
    exact bind_eq_ok.2 ⟨n, lookup_eq_ok.2 hn, pure_eq_ok.2 ((hport n).2 htext)⟩

/-- The text of a port determines the port. -/
theorem plain_port_inj (huids : (g.nodes.map Node.uid).Nodup)
    (hp : (plain format).port g p = .ok text) (hq : (plain format).port g q = .ok text) : p = q := by
  obtain ⟨n, hn, htext⟩ := plain_port_eq_ok.1 hp
  obtain ⟨m, hm, htext'⟩ := plain_port_eq_ok.1 hq
  obtain ⟨hname, hrest⟩ := eq_of_append_cons n.dot_not_mem_name m.dot_not_mem_name
    (htext.symm.trans htext')
  obtain ⟨hslot, hrest⟩ := eq_of_append_cons p.slot.bracket_not_mem_name
    q.slot.bracket_not_mem_name hrest
  have huid : n.uid = m.uid := Node.uid_eq_of_name_eq (String.toList_inj.1 hname)
  have hnode : p.node = q.node := by
    refine (List.getElem?_inj ?_ huids).1 ?_
    · rw [List.length_map]
      exact (List.getElem?_eq_some_iff.1 hn).1
    · rw [List.getElem?_map, List.getElem?_map, hn, hm, Option.map_some, Option.map_some, huid]
  have hindex : p.index = q.index := toDigits_ten_inj (List.append_cancel_right hrest)
  obtain ⟨a, s, i⟩ := p
  obtain ⟨b, t, j⟩ := q
  obtain rfl : a = b := hnode
  obtain rfl : s = t := Slot.name_injective (String.toList_inj.1 hslot)
  obtain rfl : i = j := hindex
  rfl

end Dialect

end Dataflow
