import Dataflow.Proofs.Ssa.Performed
import Mathlib.Data.List.Induction

/-!
# What a draft records

`Draft.toFunction_records`: if no call on a draft fails and the draft can be finished, the function is the
one that the calls ask for, and every value that was handed out is found where it was defined. A draft
that records some calls (`Draft.Recorded`) records one more behind them (`Recorded.concat`), so each call of
a run meets a draft that records the calls before it (`exists_recorded_before`).
-/

namespace Dataflow

namespace Draft

/-- The function is what the calls ask for, and so are the replies. -/
structure Records (name : String) (calls : List Call) (replies : List Reply) (f : Function) :
    Prop where
  name_eq : f.name = name
  params_eq : f.params = calls.filterMap Call.param?
  globals_eq : f.globals = calls.filterMap Call.global?
  names_eq : f.blocks.map Block.name = calls.filterMap Call.declared?
  block : ∀ {k : Nat} {b : Block}, f.blocks[k]? = some b →
    b.id = k ∧ b.body = written calls k ∧ exits calls k = [b.exit]
  placed : ∀ {i : Nat} {call : Call}, calls[i]? = some call → call.isFilling = true →
    ∃ b ∈ f.blocks, cursor (calls.take i) = some b.id
  reply : ∀ {i : Nat} {call : Call}, calls[i]? = some call →
    replies[i]? = some (call.reply (calls.take i))
  results_perm : f.results.Perm (List.range (defined calls))
  find : ∀ {i : Nat} {definition : Definition}, calls[i]? = some (.define definition) →
    ∃ b, cursor (calls.take i) = some b ∧ f.find? (defined (calls.take i)) =
      some (b, extended (calls.drop (i + 1)) (definition.instr (defined (calls.take i))))

/-! ## Runs -/

/-- The draft holds what the calls ask for. -/
structure Recorded (name : String) (calls : List Call) (d : Draft) : Prop where
  name_eq : d.name = name
  params_eq : d.params = calls.filterMap Call.param?
  globals_eq : d.globals = calls.filterMap Call.global?
  names_eq : d.blocks.map OpenBlock.name = calls.filterMap Call.declared?
  current_eq : d.current = cursor calls
  next_eq : d.ids.next = defined calls
  body_eq : ∀ b, d.bodyAt b = written calls b
  exit_eq : ∀ b, (d.exitAt b).toList = exits calls b
  results_perm : d.results.Perm (List.range (defined calls))

theorem recorded_nil (name : String) : Recorded name [] { name } :=
  ⟨rfl, rfl, rfl, rfl, rfl, rfl, fun _ => rfl, fun _ => rfl, .refl _⟩

theorem Recorded.nodup_results {name : String} {calls : List Call} {d : Draft}
    (h : Recorded name calls d) : d.results.Nodup :=
  h.results_perm.nodup_iff.2 List.nodup_range

theorem Recorded.length_blocks {name : String} {calls : List Call} {d : Draft}
    (h : Recorded name calls d) : d.blocks.length = (calls.filterMap Call.declared?).length := by
  rw [← h.names_eq, List.length_map]

theorem Recorded.concat {name : String} {calls : List Call} {call : Call} {d d' : Draft}
    (h : Recorded name calls d) (hp : Performed d call d') : Recorded name (calls ++ [call]) d' where
  name_eq := hp.name_eq.trans h.name_eq
  params_eq := by rw [hp.params_eq, h.params_eq, filterMap_concat]
  globals_eq := by rw [hp.globals_eq, h.globals_eq, filterMap_concat]
  names_eq := by rw [hp.names_eq, h.names_eq, filterMap_concat]
  current_eq := by rw [hp.current_eq, h.current_eq, cursor_concat]
  next_eq := by rw [hp.next_eq, h.next_eq, defined_concat]
  body_eq b := by rw [hp.body_eq, h.body_eq, h.current_eq, h.next_eq, written_concat]
  exit_eq b := by rw [hp.exit_eq, h.exit_eq, h.current_eq, exits_concat]
  results_perm := by
    refine hp.results_perm.trans ((h.results_perm.append_right _).trans ?_)
    rw [h.next_eq, defined_concat]
    split
    · rw [List.range_succ]
    · rw [List.append_nil, Nat.add_zero]

/-- A call answers by what it finds recorded. -/
theorem Recorded.reply_eq {name : String} {calls : List Call} {call : Call} {d d' : Draft} {r : Reply}
    (h : Recorded name calls d) (hc : perform call d = .ok (r, d')) : r = call.reply calls := by
  cases call with
  | param => rw [← (Prod.mk.inj (Except.ok.inj hc)).1, h.params_eq]; rfl
  | global => rw [← (Prod.mk.inj (Except.ok.inj hc)).1, h.globals_eq]; rfl
  | block => rw [← (Prod.mk.inj (Except.ok.inj hc)).1, h.length_blocks]; rfl
  | define definition =>
    obtain ⟨v, d₁, hdefine, hr⟩ := run_bind_eq_ok.1 hc
    obtain ⟨⟨id, ids⟩, htake, hrest⟩ := bind_eq_ok.1 hdefine
    obtain ⟨-, rfl, -⟩ := Supply.take_eq_ok.1 htake
    obtain ⟨_, -, hv⟩ := bind_eq_ok.1 hrest
    obtain ⟨rfl, -⟩ := Prod.mk.inj (pure_eq_ok.1 hv)
    rw [← (Prod.mk.inj (Except.ok.inj hr)).1, h.next_eq]
    rfl
  | _ =>
    obtain ⟨_, _, -, hr⟩ := run_bind_eq_ok.1 hc
    exact (Prod.mk.inj (Except.ok.inj hr)).1.symm

theorem mapM_append_eq_ok {front back : List Call} {d d'' : Draft} {replies : List Reply} :
    (front ++ back).mapM perform d = .ok (replies, d'') ↔ ∃ rs d' ss,
      front.mapM perform d = .ok (rs, d') ∧ back.mapM perform d' = .ok (ss, d'') ∧
      replies = rs ++ ss := by
  rw [List.mapM_append, run_bind_eq_ok]
  constructor
  · rintro ⟨rs, d', hfront, h⟩
    obtain ⟨ss, d₁, hback, h⟩ := run_bind_eq_ok.1 h
    obtain ⟨rfl, rfl⟩ := Prod.mk.inj (pure_eq_ok.1 h)
    exact ⟨rs, d', ss, hfront, hback, rfl⟩
  · rintro ⟨rs, d', ss, hfront, hback, rfl⟩
    exact ⟨rs, d', hfront, run_bind_eq_ok.2 ⟨ss, d'', hback, rfl⟩⟩

theorem mapM_cons_eq_ok {call : Call} {calls : List Call} {d d'' : Draft} {replies : List Reply} :
    (call :: calls).mapM perform d = .ok (replies, d'') ↔ ∃ r d' rs,
      perform call d = .ok (r, d') ∧ calls.mapM perform d' = .ok (rs, d'') ∧ replies = r :: rs := by
  rw [List.mapM_cons, run_bind_eq_ok]
  constructor
  · rintro ⟨r, d', hcall, h⟩
    obtain ⟨rs, d₁, hcalls, h⟩ := run_bind_eq_ok.1 h
    obtain ⟨rfl, rfl⟩ := Prod.mk.inj (pure_eq_ok.1 h)
    exact ⟨r, d', rs, hcall, hcalls, rfl⟩
  · rintro ⟨r, d', rs, hcall, hcalls, rfl⟩
    exact ⟨r, d', hcall, run_bind_eq_ok.2 ⟨rs, d'', hcalls, rfl⟩⟩

theorem length_of_mapM {calls : List Call} {replies : List Reply} {d d' : Draft}
    (h : calls.mapM perform d = .ok (replies, d')) : replies.length = calls.length := by
  induction calls generalizing replies d with
  | nil =>
    rw [← (Prod.mk.inj (Except.ok.inj h)).1]
    rfl
  | cons call calls ih =>
    obtain ⟨r, d₁, rs, -, hcalls, rfl⟩ := mapM_cons_eq_ok.1 h
    rw [List.length_cons, List.length_cons, ih hcalls]

theorem recorded_run {name : String} {calls : List Call} {replies : List Reply} {d : Draft}
    (h : calls.mapM perform { name } = .ok (replies, d)) : Recorded name calls d := by
  induction calls using List.reverseRecOn generalizing replies d with
  | nil =>
    obtain ⟨-, rfl⟩ := Prod.mk.inj (Except.ok.inj h)
    exact recorded_nil name
  | append_singleton calls call ih =>
    obtain ⟨rs, d₁, ss, hrun, hlast, -⟩ := mapM_append_eq_ok.1 h
    obtain ⟨r, d₂, _, hcall, hnil, -⟩ := mapM_cons_eq_ok.1 hlast
    obtain ⟨-, rfl⟩ := Prod.mk.inj (Except.ok.inj hnil)
    exact (ih hrun).concat (perform_eq_ok (ih hrun).nodup_results hcall)

/-- Each call of a run meets a draft that records the calls before it. -/
theorem exists_recorded_before {name : String} {calls : List Call} {replies : List Reply} {d : Draft}
    (h : calls.mapM perform { name } = .ok (replies, d)) {i : Nat} {call : Call}
    (hcall : calls[i]? = some call) : ∃ d₁ d₂ r, Recorded name (calls.take i) d₁ ∧
      perform call d₁ = .ok (r, d₂) ∧ replies[i]? = some r := by
  obtain ⟨hi, rfl⟩ := List.getElem?_eq_some_iff.1 hcall
  rw [← List.take_append_drop i calls, List.drop_eq_getElem_cons hi] at h
  obtain ⟨rs, d₁, ss, hfront, hback, rfl⟩ := mapM_append_eq_ok.1 h
  obtain ⟨r, d₂, _, hperform, -, rfl⟩ := mapM_cons_eq_ok.1 hback
  have hlength : rs.length = i := by
    rw [length_of_mapM hfront, List.length_take, Nat.min_eq_left (Nat.le_of_lt hi)]
  refine ⟨d₁, d₂, r, recorded_run hfront, hperform, ?_⟩
  rw [List.getElem?_append_right (Nat.le_of_eq hlength), hlength, Nat.sub_self]
  rfl

/-! ## The finished function -/

/-- The block that comes of a block with an exit. -/
def closed (o : OpenBlock × Nat) : Block :=
  { id := o.2, name := o.1.name, body := o.1.body, exit := o.1.exit.getD (.ret none) }

theorem close_eq_ok {o : OpenBlock × Nat} {b : Block} :
    close o = .ok b ↔ o.1.exit.isSome = true ∧ b = closed o := by
  unfold close closed
  cases o.1.exit <;> simp [eq_comm]

/-- The function that comes of a draft without open blocks. -/
def finished (d : Draft) : Function where
  name := d.name
  params := d.params
  globals := d.globals
  blocks := d.blocks.zipIdx.map closed

theorem toFunction_eq_ok {d : Draft} {f : Function} (h : d.toFunction = .ok f) :
    f = d.finished ∧ ∀ o ∈ d.blocks, o.exit.isSome = true := by
  obtain ⟨blocks, hblocks, heq⟩ := bind_eq_ok.1 h
  obtain rfl := eq_map_of_mapM (fun _ _ hb => (close_eq_ok.1 hb).2) hblocks
  refine ⟨(pure_eq_ok.1 heq).symm, fun o ho => ?_⟩
  rw [← List.zipIdx_map_fst 0 d.blocks, List.mem_map] at ho
  obtain ⟨p, hp, rfl⟩ := ho
  obtain ⟨b, hb⟩ := exists_of_mapM_eq_ok hblocks p hp
  exact (close_eq_ok.1 hb).1

end Draft

/-- The first place that defines an identifier is the only one. -/
theorem Function.find?_eq_some {f : Function} (hnd : f.results.Nodup) {b : Block} (hb : b ∈ f.blocks)
    {i : Instr} (hi : i ∈ b.body) {id : InstId} (hid : i.result? = some id) :
    f.find? id = some (b.id, i) := by
  obtain ⟨hbody, hblocks⟩ := List.pairwise_flatMap.1 hnd
  obtain ⟨before, after, hsplit⟩ := List.append_of_mem hb
  obtain ⟨front, back, hbsplit⟩ := List.append_of_mem hi
  have hfirst : b.body.find? (·.result? = some id) = some i := by
    refine List.find?_eq_some_iff_append.2 ⟨decide_eq_true hid, front, back, hbsplit, fun j hj => ?_⟩
    have hpairs := List.pairwise_filterMap.1 (hbody b hb)
    rw [hbsplit] at hpairs
    have hne := (List.pairwise_append.1 hpairs).2.2 j hj i List.mem_cons_self
    simpa using fun hjd => hne id hjd id hid rfl
  refine List.findSome?_eq_some_iff.2 ⟨before, b, after, hsplit, by rw [hfirst]; rfl, fun c hc => ?_⟩
  rw [Option.map_eq_none_iff, List.find?_eq_none]
  intro j hj hjd
  rw [hsplit] at hblocks
  have hne := (List.pairwise_append.1 hblocks).2.2 c hc b List.mem_cons_self
  exact hne id (List.mem_filterMap.2 ⟨j, hj, of_decide_eq_true hjd⟩) id
    (List.mem_filterMap.2 ⟨i, hi, hid⟩) rfl

namespace Draft

theorem results_finished (d : Draft) : d.finished.results = d.results := by
  conv_rhs => rw [results, ← List.zipIdx_map_fst 0 d.blocks]
  rw [List.flatMap_map, Function.results, finished, List.flatMap_map]
  rfl

theorem names_finished (d : Draft) :
    d.finished.blocks.map Block.name = d.blocks.map OpenBlock.name := by
  conv_rhs => rw [← List.zipIdx_map_fst 0 d.blocks]
  rw [finished, List.map_map, List.map_map]
  rfl

theorem Recorded.finished_block {name : String} {calls : List Call} {d : Draft}
    (h : Recorded name calls d) (hclosed : ∀ o ∈ d.blocks, o.exit.isSome = true) {k : Nat} {b : Block}
    (hb : d.finished.blocks[k]? = some b) :
    b.id = k ∧ b.body = written calls k ∧ exits calls k = [b.exit] := by
  rw [finished, List.getElem?_map, List.getElem?_zipIdx, Option.map_map,
    Option.map_eq_some_iff] at hb
  obtain ⟨o, ho, rfl⟩ := hb
  obtain ⟨exit, hexit⟩ := Option.isSome_iff_exists.1 (hclosed o (List.mem_of_getElem? ho))
  refine ⟨Nat.zero_add k, ?_, ?_⟩
  · rw [← h.body_eq, bodyAt_eq ho]
    rfl
  · rw [← h.exit_eq, exitAt_eq ho, hexit]
    simp [closed, hexit]

/-- What is issued goes to a block of the function. -/
theorem exists_finished_block {name : String} {calls : List Call} {replies : List Reply} {d : Draft}
    (h : calls.mapM perform { name } = .ok (replies, d)) {i : Nat} {call : Call}
    (hcall : calls[i]? = some call) (hfill : call.isFilling = true) :
    ∃ b ∈ d.finished.blocks, cursor (calls.take i) = some b.id := by
  obtain ⟨d₁, d₂, r, hd₁, hperform, -⟩ := exists_recorded_before h hcall
  obtain ⟨b, hb, hcurrent⟩ := (perform_eq_ok hd₁.nodup_results hperform).placed hfill
  have hlt : b < d.blocks.length := by
    refine Nat.lt_of_lt_of_le hb ?_
    rw [hd₁.length_blocks, (recorded_run h).length_blocks]
    exact ((List.take_sublist i calls).filterMap _).length_le
  refine ⟨closed (d.blocks[b], b), List.mem_map_of_mem ?_, hd₁.current_eq.symm.trans hcurrent⟩
  exact List.mem_zipIdx_iff_getElem?.2 (List.getElem?_eq_getElem hlt)

/-- **A draft records exactly what was asked for.** Whatever the order in which blocks are declared,
selected and filled, if no call fails and no block is left open, then the function has the declared blocks
with what was issued while each one was selected, and entries that were added to a phi later on are in
that phi and nowhere else. -/
theorem toFunction_records {name : String} {calls : List Call} {replies : List Reply} {d : Draft}
    {f : Function} (hrun : calls.mapM perform { name } = .ok (replies, d))
    (hfinish : d.toFunction = .ok f) : Records name calls replies f := by
  have hd := recorded_run hrun
  obtain ⟨rfl, hclosed⟩ := toFunction_eq_ok hfinish
  have hperm := d.results_finished ▸ hd.results_perm
  exact {
    name_eq := hd.name_eq
    params_eq := hd.params_eq
    globals_eq := hd.globals_eq
    names_eq := d.names_finished.trans hd.names_eq
    block := hd.finished_block hclosed
    placed := exists_finished_block hrun
    reply hcall := by
      obtain ⟨d₁, d₂, r, hd₁, hperform, hr⟩ := exists_recorded_before hrun hcall
      rw [hr, hd₁.reply_eq hperform]
    results_perm := hperm
    find {i definition} hcall := by
      obtain ⟨b, hb, hcursor⟩ := exists_finished_block hrun hcall rfl
      refine ⟨b.id, hcursor, ?_⟩
      obtain ⟨k, hk⟩ := List.mem_iff_getElem?.1 hb
      obtain ⟨rfl, hbody, -⟩ := hd.finished_block hclosed hk
      refine Function.find?_eq_some (hperm.nodup_iff.2 List.nodup_range) hb ?_ ?_
      · rw [hbody]
        exact mem_during hcall hcursor rfl
      · rw [result?_extended, definition.result?_instr] }

/-- A walk through a list: the loop is begun first, left for the entry, taken up again and ended, and only
then does its phi get the entry for the way round. -/
def interleaved : List Call := [
  .param "list" .ptr, .block "entry", .block "loop", .block "exit",
  .select 1, .define (.phi .ptr [(0, .arg 0)]),
  .select 0, .define (.load .ptr (.arg 0)), .terminate (.jump 1),
  .select 1, .define (.load .ptr (.inst 0)), .define (.icmp .ne (.inst 2) (.inst 1)),
  .terminate (.branch (.inst 3) 1 2), .extendPhi (.inst 0) 1 (.inst 2),
  .select 2, .store (.inst 0) (.arg 0), .terminate (.ret none)]

/-- What `interleaved` writes. -/
def interleavedFunction : Function where
  name := "walk"
  params := [⟨"list", .ptr⟩]
  globals := []
  blocks := [
    ⟨0, "entry", [.load 1 .ptr (.arg 0)], .jump 1⟩,
    ⟨1, "loop", [.phi 0 .ptr [(0, .arg 0), (1, .inst 2)], .load 2 .ptr (.inst 0),
      .icmp 3 .ne (.inst 2) (.inst 1)], .branch (.inst 3) 1 2⟩,
    ⟨2, "exit", [.store (.inst 0) (.arg 0)], .ret none⟩]

theorem toFunction_records_interleaved : ∃ replies d,
    interleaved.mapM perform { name := "walk" } = .ok (replies, d) ∧
    d.toFunction = .ok interleavedFunction ∧
    Records "walk" interleaved replies interleavedFunction := by
  have hwrite : (interleaved.mapM perform { name := "walk" } >>= fun p => p.2.toFunction) =
      .ok interleavedFunction := by
    decide +kernel
  obtain ⟨⟨replies, d⟩, hrun, hfinish⟩ := bind_eq_ok.1 hwrite
  exact ⟨replies, d, hrun, hfinish, toFunction_records hrun hfinish⟩

end Draft

end Dataflow
