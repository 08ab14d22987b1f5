import Dataflow.Ssa.Draft
import Mathlib.Data.List.Basic

/-!
# What the calls on a draft ask for

The calls say by themselves which function is written, without a draft: `Draft.cursor` is the block that
is selected after some calls, `Draft.written` the instructions that go to a block and `Draft.exits` the
exits it is given. The instruction of a call depends on the calls in front of it, which give its
identifier, and on the calls behind it, which may add entries to it if it is a phi.

All of it is followed along a run from the left, so the lemmas say what one more call at the end adds.
-/

namespace Dataflow.Draft

/-! ## What the calls ask for -/

namespace Call

/-- The block that is selected after the call. -/
def move (current : Option BlockId) : Call → Option BlockId
  | .select b => some b
  | .terminate _ => none
  | _ => current

def param? : Call → Option Decl
  | .param name ty => some ⟨name, ty⟩
  | _ => none

def global? : Call → Option Decl
  | .global name ty => some ⟨name, ty⟩
  | _ => none

/-- The name of the block that the call declares. -/
def declared? : Call → Option String
  | .block name => some name
  | _ => none

def isDefine : Call → Bool
  | .define _ => true
  | _ => false

/-- The instruction that the call issues, where `id` is the next identifier. -/
def instr? (id : InstId) : Call → Option Instr
  | .define definition => some (definition.instr id)
  | .store addr value => some (.store addr value)
  | .callVoid callee args => some (.call none callee args)
  | _ => none

def exit? : Call → Option Exit
  | .terminate exit => some exit
  | _ => none

/-- The entry that the call adds to the phi that defines `id`. -/
def entry? (id : InstId) : Call → Option (BlockId × Value)
  | .extendPhi (.inst phi) b value => if phi = id then some (b, value) else none
  | _ => none

/-- Whether the call is for the selected block. -/
def isFilling : Call → Bool
  | .define _ | .store .. | .callVoid .. | .terminate _ => true
  | _ => false

end Call

/-- The block that is selected after some calls. -/
def cursor (calls : List Call) : Option BlockId := calls.foldl Call.move none

/-- The number of values that some calls define, which is the next identifier. -/
def defined (calls : List Call) : Nat := calls.countP Call.isDefine

/-- The answer to a call behind some others. -/
def Call.reply (before : List Call) : Call → Reply
  | .param .. => .value (.arg (before.filterMap Call.param?).length)
  | .global .. => .value (.global (before.filterMap Call.global?).length)
  | .block _ => .block (before.filterMap Call.declared?).length
  | .define _ => .value (.inst (defined before))
  | _ => .done

/-- An instruction with the entries that later calls add to it. -/
def extended (after : List Call) : Instr → Instr
  | .phi dest ty incoming => .phi dest ty (incoming ++ after.filterMap (Call.entry? dest))
  | i => i

/-- What is asked for while `b` is selected, call by call. What a call asks for can depend on the calls
before and after it. -/
def during {α : Type} (calls : List Call) (b : BlockId)
    (asked : List Call → Call → List Call → Option α) : List α :=
  calls.zipIdx.filterMap fun c =>
    if cursor (calls.take c.2) = some b then asked (calls.take c.2) c.1 (calls.drop (c.2 + 1)) else none

/-- The instructions that are issued while `b` is selected. -/
def written (calls : List Call) (b : BlockId) : List Instr :=
  during calls b fun before call after => (call.instr? (defined before)).map (extended after)

/-- The exits that are issued while `b` is selected. -/
def exits (calls : List Call) (b : BlockId) : List Exit := during calls b fun _ call _ => call.exit?

/-! ## One more call -/

@[simp] theorem cursor_concat (calls : List Call) (call : Call) :
    cursor (calls ++ [call]) = call.move (cursor calls) := by
  simp [cursor]

@[simp] theorem defined_concat (calls : List Call) (call : Call) :
    defined (calls ++ [call]) = defined calls + if call.isDefine then 1 else 0 := by
  simp [defined, List.countP_append, List.countP_singleton]

@[simp] theorem extended_nil (i : Instr) : extended [] i = i := by
  cases i <;> simp [extended]

theorem extended_concat (after : List Call) (call : Call) (i : Instr) :
    extended (after ++ [call]) i = extended [call] (extended after i) := by
  cases i <;> simp [extended]

@[simp] theorem result?_extended (after : List Call) (i : Instr) :
    (extended after i).result? = i.result? := by
  cases i <;> rfl

/-- A call that adds no entry to the phi leaves it alone. -/
theorem extended_eq_self {call : Call} {i : Instr}
    (h : ∀ id, i.result? = some id → call.entry? id = none) : extended [call] i = i := by
  cases i with
  | phi dest ty incoming => simp [extended, h dest rfl]
  | _ => rfl

theorem filterMap_concat {α β : Type} (g : α → Option β) (xs : List α) (x : α) :
    (xs ++ [x]).filterMap g = xs.filterMap g ++ (g x).toList := by
  cases h : g x <;> simp [h]

theorem during_concat {α : Type} (calls : List Call) (call : Call) (b : BlockId)
    (asked : List Call → Call → List Call → Option α) :
    during (calls ++ [call]) b asked =
      during calls b (fun before c after => asked before c (after ++ [call])) ++
        if cursor calls = some b then (asked calls call []).toList else [] := by
  rw [during, List.zipIdx_append, List.filterMap_append]
  congr 1
  · refine List.filterMap_congr fun c hc => ?_
    have hlt := (List.getElem?_eq_some_iff.1 (List.mem_zipIdx_iff_getElem?.1 hc)).1
    rw [List.take_append_of_le_length (Nat.le_of_lt hlt), List.drop_append_of_le_length hlt]
  · by_cases h : cursor calls = some b
    · cases hasked : asked calls call [] <;> simp [h, hasked]
    · simp [h]

theorem mem_during {α : Type} {calls : List Call} {b : BlockId}
    {asked : List Call → Call → List Call → Option α} {x : α} {i : Nat} {call : Call}
    (hcall : calls[i]? = some call) (hb : cursor (calls.take i) = some b)
    (hx : asked (calls.take i) call (calls.drop (i + 1)) = some x) : x ∈ during calls b asked := by
  refine List.mem_filterMap.2 ⟨(call, i), List.mem_zipIdx_iff_getElem?.2 hcall, ?_⟩
  rw [if_pos hb, hx]

theorem written_concat (calls : List Call) (call : Call) (b : BlockId) :
    written (calls ++ [call]) b = (written calls b).map (extended [call]) ++
      if cursor calls = some b then (call.instr? (defined calls)).toList else [] := by
  rw [written, during_concat, written, during, during, List.map_filterMap]
  congr 1
  · refine List.filterMap_congr fun c _ => ?_
    by_cases h : cursor (calls.take c.2) = some b
    · simp only [h, if_true, Option.map_map]
      exact congrArg (Option.map · _) (funext (extended_concat _ call))
    · simp [h]
  · have hself : extended [] = id := funext extended_nil
    rw [hself, Option.map_id]
    rfl

theorem exits_concat (calls : List Call) (call : Call) (b : BlockId) :
    exits (calls ++ [call]) b =
      exits calls b ++ if cursor calls = some b then call.exit?.toList else [] :=
  during_concat calls call b _

/-- A call that adds no entry to a phi leaves all instructions alone. -/
theorem map_extended_eq_self {call : Call} (h : ∀ id, call.entry? id = none) (body : List Instr) :
    body.map (extended [call]) = body := by
  refine (List.map_congr_left fun i _ => ?_).trans (List.map_id _)
  exact extended_eq_self fun id _ => h id

end Dataflow.Draft
