import Dataflow.Lower.Preheader
import Dataflow.Proofs.Outcome
import Dataflow.Proofs.Ssa.Calls
import Dataflow.Proofs.Ssa.WellFormed

/-!
# What a call does to a draft

`Draft.perform_eq_ok` says once what a call does that succeeds (`Draft.Performed`), for all calls in the
same terms: what is declared, where the next instruction goes, and what becomes of the instructions that
are there. Adding an entry to a phi changes an instruction anywhere in the draft. That it changes no
other one rests on the identifiers in use, which are distinct (`modify_withEntry_eq`).
-/

namespace Dataflow.Draft

/-! ## What a draft holds -/

/-- The instructions of a block, none if it is not declared. -/
def bodyAt (d : Draft) (b : BlockId) : List Instr := (d.blocks[b]?.map OpenBlock.body).getD []

/-- The exit of a block. -/
def exitAt (d : Draft) (b : BlockId) : Option Exit := d.blocks[b]?.bind OpenBlock.exit

/-- The identifiers that are in use. -/
def results (d : Draft) : List InstId := d.blocks.flatMap fun o => o.body.filterMap Instr.result?

/-- What a call does to a draft. -/
structure Performed (d : Draft) (call : Call) (d' : Draft) : Prop where
  name_eq : d'.name = d.name
  params_eq : d'.params = d.params ++ call.param?.toList
  globals_eq : d'.globals = d.globals ++ call.global?.toList
  names_eq : d'.blocks.map OpenBlock.name = d.blocks.map OpenBlock.name ++ call.declared?.toList
  current_eq : d'.current = call.move d.current
  next_eq : d'.ids.next = d.ids.next + if call.isDefine then 1 else 0
  body_eq : ∀ b, d'.bodyAt b = (d.bodyAt b).map (extended [call]) ++
    if d.current = some b then (call.instr? d.ids.next).toList else []
  exit_eq : ∀ b, (d'.exitAt b).toList = (d.exitAt b).toList ++
    if d.current = some b then call.exit?.toList else []
  results_perm : d'.results.Perm (d.results ++ if call.isDefine then [d.ids.next] else [])
  placed : call.isFilling = true → ∃ b < d.blocks.length, d.current = some b

/-! ## Changing one element of a list -/

section
variable {α β : Type} {xs : List α} {k : Nat} {x : α} {w : α → α}

theorem getElem?_modify_eq (hx : xs[k]? = some x) (j : Nat) :
    (xs.modify k w)[j]? = if j = k then some (w x) else xs[j]? := by
  rw [List.getElem?_modify]
  by_cases hj : j = k
  · subst hj
    simp [hx]
  · simp [hj, Ne.symm hj]

theorem map_modify_eq {g : α → β} (h : ∀ x, g (w x) = g x) : (xs.modify k w).map g = xs.map g := by
  refine List.ext_getElem? fun j => ?_
  rw [List.getElem?_map, List.getElem?_modify, List.getElem?_map]
  cases xs[j]? with
  | none => rfl
  | some y => by_cases hj : k = j <;> simp [hj, h]

theorem filterMap_modify_eq {g : α → Option β} (h : ∀ x, g (w x) = g x) :
    (xs.modify k w).filterMap g = xs.filterMap g := by
  have hmap : ∀ ys : List α, ys.filterMap g = (ys.map g).filterMap id := fun ys => by
    rw [List.filterMap_map]
    rfl
  rw [hmap, hmap, map_modify_eq h]

theorem flatMap_modify_perm {g : α → List β} {ys : List β} (hx : xs[k]? = some x)
    (h : g (w x) = g x ++ ys) : ((xs.modify k w).flatMap g).Perm (xs.flatMap g ++ ys) := by
  obtain ⟨hk, rfl⟩ := List.getElem?_eq_some_iff.1 hx
  have hsplit : xs = xs.take k ++ xs[k] :: xs.drop (k + 1) := by
    rw [← List.drop_eq_getElem_cons hk, List.take_append_drop]
  rw [List.modify_eq_take_cons_drop hk]
  conv_rhs => rw [hsplit]
  simp only [List.flatMap_append, List.flatMap_cons, h, List.append_assoc]
  exact (List.perm_append_comm.append_left _).append_left _

end

/-! ## Calls that succeed -/

/-- An identifier is defined at one place. -/
theorem place_unique {d : Draft} (hnd : d.results.Nodup) {b b' k k' : Nat} {o o' : OpenBlock}
    {i i' : Instr} {id : InstId} (ho : d.blocks[b]? = some o) (hi : o.body[k]? = some i)
    (hid : i.result? = some id) (ho' : d.blocks[b']? = some o') (hi' : o'.body[k']? = some i')
    (hid' : i'.result? = some id) : b = b' ∧ k = k' := by
  have hmem : ∀ {o : OpenBlock} {k : Nat} {i : Instr}, o.body[k]? = some i → i.result? = some id →
      id ∈ o.body.filterMap Instr.result? :=
    fun hi hid => List.mem_filterMap.2 ⟨_, List.mem_of_getElem? hi, hid⟩
  obtain rfl := Function.index_eq_of_flatMap hnd ho ho' (hmem hi hid) (hmem hi' hid')
  obtain rfl := Option.some.inj (ho.symm.trans ho')
  have hbody := (List.nodup_flatMap.1 hnd).1 o (List.mem_of_getElem? ho)
  exact ⟨rfl, Function.index_eq_of_filterMap hbody hi hi' hid hid'⟩

theorem run_bind_eq_ok {α β : Type} {m : DraftM α} {k : α → DraftM β} {d d'' : Draft} {b : β} :
    (m >>= k) d = .ok (b, d'') ↔ ∃ a d', m d = .ok (a, d') ∧ k a d' = .ok (b, d'') := by
  have hrun : (m >>= k) d = m d >>= fun p => k p.1 p.2 := rfl
  rw [hrun, bind_eq_ok, Prod.exists]

theorem selected_eq_ok {d : Draft} {b : BlockId} :
    d.selected = .ok b ↔ d.current = some b ∧ ∃ o, d.blocks[b]? = some o ∧ o.exit = none := by
  unfold selected
  cases hc : d.current with
  | none => simp
  | some c =>
    simp only [throw_bind, bind_eq_ok, guard_eq_ok, lookup_eq_ok, pure_eq_ok, Option.some.injEq]
    constructor
    · rintro ⟨o, ho, hopen, rfl⟩
      exact ⟨rfl, o, ho, by simpa using hopen⟩
    · rintro ⟨rfl, o, ho, hopen⟩
      exact ⟨o, ho, by simp [hopen], rfl⟩

theorem append_eq_ok {i : Instr} {d d' : Draft} (h : append i d = .ok ((), d')) :
    ∃ b o, d.current = some b ∧ d.blocks[b]? = some o ∧
      d' = { d with blocks := d.blocks.modify b fun o => { o with body := o.body ++ [i] } } := by
  obtain ⟨b, hb, heq⟩ := bind_eq_ok.1 h
  obtain ⟨hcurrent, o, ho, -⟩ := selected_eq_ok.1 hb
  exact ⟨b, o, hcurrent, ho, (Prod.mk.inj (pure_eq_ok.1 heq)).2.symm⟩

theorem terminate_eq_ok {exit : Exit} {d d' : Draft} (h : terminate exit d = .ok ((), d')) :
    ∃ b o, d.current = some b ∧ d.blocks[b]? = some o ∧ o.exit = none ∧
      d' = { d with
        blocks := d.blocks.modify b fun o => { o with exit := some exit }
        current := none } := by
  obtain ⟨b, hb, heq⟩ := bind_eq_ok.1 h
  obtain ⟨hcurrent, o, ho, hopen⟩ := selected_eq_ok.1 hb
  exact ⟨b, o, hcurrent, ho, hopen, (Prod.mk.inj (pure_eq_ok.1 heq)).2.symm⟩

theorem place_of_locate? {d : Draft} {id : InstId} {b k : Nat} (h : d.locate? id = some (b, k)) :
    ∃ o i, d.blocks[b]? = some o ∧ o.body[k]? = some i ∧ i.result? = some id := by
  obtain ⟨before, ⟨o, b'⟩, after, hsplit, hfind, -⟩ := List.findSome?_eq_some_iff.1 h
  obtain ⟨k', hk, heq⟩ := Option.map_eq_some_iff.1 hfind
  obtain ⟨rfl, rfl⟩ := Prod.mk.inj heq
  obtain ⟨hlt, hid, -⟩ := List.findIdx?_eq_some_iff_getElem.1 hk
  have hmem : (o, b') ∈ d.blocks.zipIdx := by
    rw [hsplit]
    exact List.mem_append_right _ List.mem_cons_self
  exact ⟨o, o.body[k'], List.mem_zipIdx_iff_getElem?.1 hmem, List.getElem?_eq_getElem hlt,
    of_decide_eq_true hid⟩

theorem extendPhi_eq_ok {phi value : Value} {block : BlockId} {d d' : Draft}
    (h : extendPhi phi block value d = .ok ((), d')) :
    ∃ id b k o ty incoming, phi = .inst id ∧ d.blocks[b]? = some o ∧
      o.body[k]? = some (.phi id ty incoming) ∧
      d' = { d with
        blocks := d.blocks.modify b fun o =>
          { o with body := o.body.modify k (withEntry (block, value)) } } := by
  unfold extendPhi at h
  cases phi with
  | inst id =>
    cases hplace : d.locate? id with
    | none => simp [Value.inst?, hplace] at h
    | some place =>
      obtain ⟨b, k⟩ := place
      obtain ⟨o, i, ho, hi, hid⟩ := place_of_locate? hplace
      simp only [Value.inst?, hplace, lookup_eq_ok.2 ho, lookup_eq_ok.2 hi, ok_bind] at h
      cases i with
      | phi dest ty incoming =>
        obtain rfl := Option.some.inj hid
        exact ⟨dest, b, k, o, ty, incoming, rfl, ho, hi, (Prod.mk.inj (pure_eq_ok.1 h)).2.symm⟩
      | _ => cases h
  | _ => cases h

theorem bodyAt_modify {d d' : Draft} {b : BlockId} {o : OpenBlock} {w : OpenBlock → OpenBlock}
    (ho : d.blocks[b]? = some o) (hd : d'.blocks = d.blocks.modify b w) (c : BlockId) :
    d'.bodyAt c = if c = b then (w o).body else d.bodyAt c := by
  rw [bodyAt, hd, getElem?_modify_eq ho]
  split <;> rfl

theorem exitAt_modify {d d' : Draft} {b : BlockId} {o : OpenBlock} {w : OpenBlock → OpenBlock}
    (ho : d.blocks[b]? = some o) (hd : d'.blocks = d.blocks.modify b w) (c : BlockId) :
    d'.exitAt c = if c = b then (w o).exit else d.exitAt c := by
  rw [exitAt, hd, getElem?_modify_eq ho]
  split <;> rfl

theorem bodyAt_eq {d : Draft} {b : BlockId} {o : OpenBlock} (ho : d.blocks[b]? = some o) :
    d.bodyAt b = o.body := by
  rw [bodyAt, ho]
  rfl

theorem exitAt_eq {d : Draft} {b : BlockId} {o : OpenBlock} (ho : d.blocks[b]? = some o) :
    d.exitAt b = o.exit := by
  rw [exitAt, ho]
  rfl

/-- What a call that issues an instruction does not do. -/
structure Call.Plain (call : Call) : Prop where
  param? : call.param? = none
  global? : call.global? = none
  declared? : call.declared? = none
  exit? : call.exit? = none
  move : ∀ current, call.move current = current
  entry? : ∀ id, call.entry? id = none

theorem Call.plain_of_instr? {call : Call} {id : InstId} {i : Instr} (h : call.instr? id = some i) :
    call.Plain := by
  cases call with
  | define | store | callVoid => exact ⟨rfl, rfl, rfl, rfl, fun _ => rfl, fun _ => rfl⟩
  | _ => cases h

theorem Definition.result?_instr (definition : Definition) (id : InstId) :
    (definition.instr id).result? = some id := by
  cases definition <;> rfl

theorem Call.result?_of_instr? {call : Call} {id : InstId} {i : Instr} (h : call.instr? id = some i) :
    i.result?.toList = if call.isDefine then [id] else [] := by
  cases call with
  | define definition =>
    obtain rfl := Option.some.inj h
    rw [definition.result?_instr]
    rfl
  | store | callVoid =>
    obtain rfl := Option.some.inj h
    rfl
  | _ => cases h

theorem performed_append {d d' : Draft} {call : Call} {i : Instr}
    (hi : call.instr? d.ids.next = some i)
    (h : append i { d with ids := ⟨d.ids.next + if call.isDefine then 1 else 0⟩ } = .ok ((), d')) :
    Performed d call d' := by
  obtain ⟨b, o, hb, ho, rfl⟩ := append_eq_ok h
  replace hb : d.current = some b := hb
  replace ho : d.blocks[b]? = some o := ho
  have hplain := Call.plain_of_instr? hi
  exact {
    name_eq := rfl
    params_eq := by simp [hplain.param?]
    globals_eq := by simp [hplain.global?]
    names_eq := by
      rw [hplain.declared?, Option.toList_none, List.append_nil]
      exact map_modify_eq fun _ => rfl
    current_eq := (hplain.move _).symm
    next_eq := rfl
    body_eq c := by
      rw [bodyAt_modify ho rfl, map_extended_eq_self hplain.entry?, hb, hi]
      by_cases hc : c = b
      · subst hc
        simp [bodyAt_eq ho]
      · simp [hc, Ne.symm hc]
    exit_eq c := by
      rw [exitAt_modify ho rfl, hplain.exit?]
      by_cases hc : c = b
      · subst hc
        simp [exitAt_eq ho]
      · simp [hc]
    results_perm := by
      refine flatMap_modify_perm ho ?_
      rw [List.filterMap_append, ← Call.result?_of_instr? hi]
      cases hid : i.result? <;> simp [hid]
    placed _ := ⟨b, (List.getElem?_eq_some_iff.1 ho).1, hb⟩ }

theorem performed_terminate {d d' : Draft} {exit : Exit} (h : terminate exit d = .ok ((), d')) :
    Performed d (.terminate exit) d' := by
  obtain ⟨b, o, hb, ho, hopen, rfl⟩ := terminate_eq_ok h
  exact {
    name_eq := rfl
    params_eq := (List.append_nil _).symm
    globals_eq := (List.append_nil _).symm
    names_eq := by
      refine Eq.trans ?_ (List.append_nil _).symm
      exact map_modify_eq fun _ => rfl
    current_eq := rfl
    next_eq := rfl
    body_eq c := by
      rw [bodyAt_modify ho rfl, map_extended_eq_self fun _ => rfl]
      by_cases hc : c = b
      · subst hc
        simp [bodyAt_eq ho, Call.instr?]
      · simp [hc, Call.instr?]
    exit_eq c := by
      rw [exitAt_modify ho rfl, hb]
      by_cases hc : c = b
      · subst hc
        simp [exitAt_eq ho, hopen, Call.exit?]
      · simp [hc, Ne.symm hc]
    results_perm := flatMap_modify_perm ho (List.append_nil _).symm
    placed _ := ⟨b, (List.getElem?_eq_some_iff.1 ho).1, hb⟩ }

/-- The entry goes to the phi that it is for, wherever this stands, and to nothing else. -/
theorem modify_withEntry_eq {d : Draft} (hnd : d.results.Nodup) {id : InstId} {b c k : Nat}
    {o o' : OpenBlock} {ty : Ty} {incoming : List (BlockId × Value)} {block : BlockId} {value : Value}
    (ho : d.blocks[b]? = some o) (hi : o.body[k]? = some (.phi id ty incoming))
    (ho' : d.blocks[c]? = some o') :
    (if c = b then o'.body.modify k (withEntry (block, value)) else o'.body) =
      o'.body.map (extended [.extendPhi (.inst id) block value]) := by
  refine List.ext_getElem? fun j => ?_
  rw [List.getElem?_map]
  cases hj : o'.body[j]? with
  | none =>
    split
    · simp [List.getElem?_modify, hj]
    · simp [hj]
  | some i =>
    by_cases hid : i.result? = some id
    · obtain ⟨rfl, rfl⟩ := place_unique hnd ho hi rfl ho' hj hid
      obtain rfl := Option.some.inj (ho.symm.trans ho')
      obtain rfl := Option.some.inj (hi.symm.trans hj)
      simp [getElem?_modify_eq hi, withEntry, extended, Call.entry?]
    · have hself : extended [.extendPhi (.inst id) block value] i = i := by
        refine extended_eq_self fun id' hid' => if_neg ?_
        rintro rfl
        exact hid hid'
      rw [Option.map_some, hself]
      split
      · rename_i hcb
        subst hcb
        obtain rfl := Option.some.inj (ho.symm.trans ho')
        rw [getElem?_modify_eq hi, if_neg, hj]
        rintro rfl
        obtain rfl := Option.some.inj (hi.symm.trans hj)
        exact hid rfl
      · exact hj

theorem performed_extendPhi {d d' : Draft} (hnd : d.results.Nodup) {phi value : Value}
    {block : BlockId} (h : extendPhi phi block value d = .ok ((), d')) :
    Performed d (.extendPhi phi block value) d' := by
  obtain ⟨id, b, k, o, ty, incoming, rfl, ho, hi, rfl⟩ := extendPhi_eq_ok h
  have hresult : ∀ i, (withEntry (block, value) i).result? = i.result? := by
    intro i
    cases i <;> rfl
  exact {
    name_eq := rfl
    params_eq := (List.append_nil _).symm
    globals_eq := (List.append_nil _).symm
    names_eq := by
      refine Eq.trans ?_ (List.append_nil _).symm
      exact map_modify_eq fun _ => rfl
    current_eq := rfl
    next_eq := rfl
    body_eq c := by
      rw [bodyAt_modify ho rfl]
      cases hc : d.blocks[c]? with
      | none =>
        have hne : c ≠ b := by
          rintro rfl
          rw [ho] at hc
          cases hc
        simp [hne, bodyAt, hc, Call.instr?]
      | some o' =>
        rw [bodyAt_eq hc, ← modify_withEntry_eq hnd ho hi hc]
        by_cases hcb : c = b
        · subst hcb
          obtain rfl := Option.some.inj (ho.symm.trans hc)
          simp [Call.instr?]
        · simp [hcb, Call.instr?]
    exit_eq c := by
      rw [exitAt_modify ho rfl]
      by_cases hc : c = b
      · subst hc
        simp [exitAt_eq ho, Call.exit?]
      · simp [hc, Call.exit?]
    results_perm := by
      refine flatMap_modify_perm ho ?_
      rw [filterMap_modify_eq hresult]
      exact (List.append_nil _).symm
    placed hfill := by cases hfill }

/-- A block that has just been declared. -/
def declare (name : String) : OpenBlock := { name }

/-- A call that fills no block can only add an empty one. -/
theorem performed_outside {d d' : Draft} {call : Call} (hfill : call.isFilling = false)
    (hentry : ∀ id, call.entry? id = none)
    (hname : d'.name = d.name) (hparams : d'.params = d.params ++ call.param?.toList)
    (hglobals : d'.globals = d.globals ++ call.global?.toList)
    (hcurrent : d'.current = call.move d.current) (hids : d'.ids = d.ids)
    (hblocks : d'.blocks = d.blocks ++ call.declared?.toList.map declare) :
    Performed d call d' := by
  have hquiet : call.isDefine = false ∧ call.exit? = none ∧ ∀ id, call.instr? id = none := by
    cases call with
    | define | store | callVoid | terminate => cases hfill
    | _ => exact ⟨rfl, rfl, fun _ => rfl⟩
  obtain ⟨hdefine, hexit, hinstr⟩ := hquiet
  -- all that can be new is a block without instructions and exit
  have hlook : ∀ b : BlockId, d'.blocks[b]? = d.blocks[b]? ∨
      d.blocks[b]? = none ∧ ∃ name, d'.blocks[b]? = some (declare name) := by
    intro b
    rw [hblocks, List.getElem?_append]
    split
    · exact .inl rfl
    · rename_i hb
      rw [List.getElem?_eq_none (Nat.not_lt.1 hb)]
      cases hnew : (call.declared?.toList.map declare)[b - d.blocks.length]? with
      | none => exact .inl rfl
      | some o =>
        obtain ⟨name, -, rfl⟩ := List.mem_map.1 (List.mem_of_getElem? hnew)
        exact .inr ⟨rfl, name, rfl⟩
  exact {
    name_eq := hname
    params_eq := hparams
    globals_eq := hglobals
    names_eq := by
      rw [hblocks, List.map_append, List.map_map]
      exact congrArg _ (List.map_id _)
    current_eq := hcurrent
    next_eq := by rw [hids, hdefine]; rfl
    body_eq b := by
      rw [map_extended_eq_self hentry, hinstr, bodyAt, bodyAt]
      rcases hlook b with hsame | ⟨hnone, name, hnew⟩
      · simp [hsame]
      · simp [hnone, hnew, declare]
    exit_eq b := by
      rw [hexit, exitAt, exitAt]
      rcases hlook b with hsame | ⟨hnone, name, hnew⟩
      · simp [hsame]
      · simp [hnone, hnew, declare]
    results_perm := by
      have hempty : (call.declared?.toList.map declare).flatMap
          (fun o => o.body.filterMap Instr.result?) = [] := by
        rw [List.flatMap_eq_nil_iff]
        intro o ho
        obtain ⟨name, -, rfl⟩ := List.mem_map.1 ho
        rfl
      rw [results, hblocks, List.flatMap_append, hempty, hdefine]
      exact .refl _
    placed h := by rw [hfill] at h; cases h }

/-- A call that succeeds does what it is for. -/
theorem perform_eq_ok {d d' : Draft} {call : Call} {r : Reply} (hnd : d.results.Nodup)
    (h : perform call d = .ok (r, d')) : Performed d call d' := by
  cases call with
  | param name ty =>
    obtain ⟨-, rfl⟩ := Prod.mk.inj (Except.ok.inj h)
    exact performed_outside rfl (fun _ => rfl) rfl rfl (List.append_nil _).symm rfl rfl
      (List.append_nil _).symm
  | global name ty =>
    obtain ⟨-, rfl⟩ := Prod.mk.inj (Except.ok.inj h)
    exact performed_outside rfl (fun _ => rfl) rfl (List.append_nil _).symm rfl rfl rfl
      (List.append_nil _).symm
  | block name =>
    obtain ⟨-, rfl⟩ := Prod.mk.inj (Except.ok.inj h)
    exact performed_outside rfl (fun _ => rfl) rfl (List.append_nil _).symm (List.append_nil _).symm
      rfl rfl rfl
  | select b =>
    obtain ⟨⟨⟩, d₁, hselect, hr⟩ := run_bind_eq_ok.1 h
    obtain ⟨-, rfl⟩ := Prod.mk.inj (Except.ok.inj hr)
    obtain ⟨-, hselect⟩ := guard_eq_ok'.1 hselect
    obtain ⟨-, rfl⟩ := Prod.mk.inj (Except.ok.inj hselect)
    exact performed_outside rfl (fun _ => rfl) rfl (List.append_nil _).symm (List.append_nil _).symm
      rfl rfl (List.append_nil _).symm
  | define definition =>
    obtain ⟨v, d₁, hdefine, hr⟩ := run_bind_eq_ok.1 h
    obtain ⟨⟨id, ids⟩, htake, hrest⟩ := bind_eq_ok.1 hdefine
    obtain ⟨-, rfl, rfl⟩ := Supply.take_eq_ok.1 htake
    obtain ⟨⟨⟨⟩, d₂⟩, happend, hv⟩ := bind_eq_ok.1 hrest
    obtain ⟨-, rfl⟩ := Prod.mk.inj (pure_eq_ok.1 hv)
    obtain ⟨-, rfl⟩ := Prod.mk.inj (Except.ok.inj hr)
    exact performed_append rfl happend
  | store addr value =>
    obtain ⟨⟨⟩, d₁, happend, hr⟩ := run_bind_eq_ok.1 h
    obtain ⟨-, rfl⟩ := Prod.mk.inj (Except.ok.inj hr)
    exact performed_append rfl happend
  | callVoid callee args =>
    obtain ⟨⟨⟩, d₁, happend, hr⟩ := run_bind_eq_ok.1 h
    obtain ⟨-, rfl⟩ := Prod.mk.inj (Except.ok.inj hr)
    exact performed_append rfl happend
  | extendPhi phi b value =>
    obtain ⟨⟨⟩, d₁, hextend, hr⟩ := run_bind_eq_ok.1 h
    obtain ⟨-, rfl⟩ := Prod.mk.inj (Except.ok.inj hr)
    exact performed_extendPhi hnd hextend
  | terminate exit =>
    obtain ⟨⟨⟩, d₁, hterminate, hr⟩ := run_bind_eq_ok.1 h
    obtain ⟨-, rfl⟩ := Prod.mk.inj (Except.ok.inj hr)
    exact performed_terminate hterminate

end Dataflow.Draft
