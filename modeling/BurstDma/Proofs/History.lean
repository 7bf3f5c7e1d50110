import BurstDma.Machine.Basic
import BurstDma.Proofs.Place

/-!
# Histories

What happened to a machine is a list of *moments*: an operation, and the state it found.
A tick is an operation like the others, so a history interleaves register accesses and
stream traffic with the clock in any order.

The machine forgets what it has done, so laws about a whole transfer are laws about its
history. Everything such a law speaks of is read off the moments with the machine's own
functions: which descriptor an engine took in a cycle, which beat it handed to its
buffer, which word the memory sent or stored. A log is then `past.flatMap` of one of
these readings.
-/

namespace BurstDma

/-- What can be done to a machine from outside. -/
inductive Operation where
  | write (addr value : UInt32)
  | read (addr : UInt32)
  | push (port : Nat) (beats : List Beat)
  | take (port : Nat)
  | load (base : Nat) (words : List Word)
  | tick
  | reset
deriving Repr, DecidableEq

/-- The machine after an operation. A refused image leaves it as it was. -/
def Operation.apply (s : Machine) : Operation → Except Fault Machine
  | .write addr value => (s.writeRegister addr value).result
  | .read addr => (s.readRegister addr).result.map fun _ => s
  | .push port beats => s.pushStream port beats
  | .take port => (s.takeOutput port).map (·.2)
  | .load base words =>
    match s.loadMemory base words with
    | .ok s => .ok s
    | .error (.problem _) => .ok s
    | .error (.fault fault) => .error fault
  | .tick => s.tick.result
  | .reset => s.reset.result

/-- An operation and the state it found. -/
abbrev Moment := Machine × Operation

/-- `History s₀ past s`: the moments `past`, oldest first, led from `s₀` to `s`. -/
inductive History (s₀ : Machine) : List Moment → Machine → Prop where
  | start : History s₀ [] s₀
  | step {past : List Moment} {s s' : Machine} {op : Operation} :
      History s₀ past s → op.apply s = .ok s' → History s₀ (past ++ [(s, op)]) s'

/-- A state that a machine with these parameters can get into. -/
def Machine.Reachable (params : MachineParams) (s : Machine) : Prop :=
  ∃ (s₀ : Machine) (past : List Moment), Machine.ofParams params = .ok s₀ ∧ History s₀ past s

/-- Nothing was dropped on the way. -/
def Uninterrupted (past : List Moment) : Prop :=
  ∀ e ∈ past, e.2 ≠ .reset

instance (past : List Moment) : Decidable (Uninterrupted past) :=
  inferInstanceAs (Decidable (∀ e ∈ past, e.2 ≠ .reset))

theorem uninterrupted_concat {past : List Moment} {e : Moment} :
    Uninterrupted (past ++ [e]) ↔ Uninterrupted past ∧ e.2 ≠ .reset := by
  simp only [Uninterrupted, List.mem_append, List.mem_singleton]
  constructor
  · intro h
    exact ⟨fun e' he' => h e' (Or.inl he'), h e (Or.inr rfl)⟩
  · rintro ⟨h, he⟩ e' (he' | rfl)
    · exact h e' he'
    · exact he

/-- A log grows with every moment. -/
theorem log_concat {ε α : Type} (f : ε → List α) (past : List ε) (e : ε) :
    (past ++ [e]).flatMap f = past.flatMap f ++ f e := by
  rw [List.flatMap_append, List.flatMap_singleton]

/-- Carries out a list of operations and keeps its moments. -/
def Machine.replay (s : Machine) : List Operation → Except Fault (List Moment × Machine)
  | [] => .ok ([], s)
  | op :: ops => do
    let next ← op.apply s
    let (past, last) ← next.replay ops
    return ((s, op) :: past, last)

theorem History.append_replay {s₀ s t : Machine} {before past : List Moment}
    {ops : List Operation} (h : History s₀ before s) (hr : s.replay ops = .ok (past, t)) :
    History s₀ (before ++ past) t := by
  induction ops generalizing before past s with
  | nil =>
      cases hr
      simpa using h
  | cons op ops ih =>
      obtain ⟨next, hn, hr⟩ := except_bind_eq_ok.mp hr
      obtain ⟨⟨rest, last⟩, hrest, hr⟩ := except_bind_eq_ok.mp hr
      cases hr
      have := ih (h.step hn) hrest
      rwa [List.append_assoc] at this

theorem Machine.history_of_replay {s t : Machine} {past : List Moment} {ops : List Operation}
    (h : s.replay ops = .ok (past, t)) : History s past t :=
  History.append_replay .start h

/-- Operations that were carried out were so in two parts. -/
theorem Machine.replay_append {s t : Machine} {past : List Moment} {before after : List Operation}
    (h : s.replay (before ++ after) = .ok (past, t)) :
    ∃ first mid rest, s.replay before = .ok (first, mid) ∧ mid.replay after = .ok (rest, t) := by
  induction before generalizing s past with
  | nil => exact ⟨[], s, past, rfl, h⟩
  | cons op before ih =>
      obtain ⟨next, hop, h⟩ := except_bind_eq_ok.mp h
      obtain ⟨⟨later, last⟩, hlater, h⟩ := except_bind_eq_ok.mp h
      cases h
      obtain ⟨first, mid, rest, hfirst, hrest⟩ := ih hlater
      exact ⟨(s, op) :: first, mid, rest,
        except_bind_eq_ok.mpr ⟨next, hop, except_bind_eq_ok.mpr ⟨_, hfirst, rfl⟩⟩, hrest⟩

/-- Every moment of a history was reached, and left again. -/
theorem History.moment {s₀ s : Machine} {past before after : List Moment} {e : Moment}
    (h : History s₀ past s) (hpast : past = before ++ e :: after) :
    History s₀ before e.1 ∧ ∃ s', e.2.apply e.1 = .ok s' := by
  induction h generalizing after with
  | start =>
      have := congrArg List.length hpast
      simp at this
  | @step past s s' op hist hop ih =>
      rcases List.eq_nil_or_concat after with rfl | ⟨init, last, rfl⟩
      · obtain ⟨rfl, hlast⟩ := List.append_inj' hpast rfl
        cases hlast
        exact ⟨hist, s', hop⟩
      · rw [List.concat_eq_append, ← List.cons_append, ← List.append_assoc] at hpast
        exact ih (List.append_inj' hpast rfl).1

/-- The register accesses that program an engine with a descriptor. -/
def Operation.program (port : Nat) (side : Side) (start words burst : UInt32) :
    List Operation :=
  [ .write (Register.address port side Register.start.index) start,
    .write (Register.address port side Register.length.index) words,
    .write (Register.address port side Register.burst.index) burst,
    .write (Register.address port side Register.valid.index) 1 ]

/-- Carries out operations on a new machine and looks at what came of them. -/
def Machine.trial (params : MachineParams) (ops : List Operation)
    (look : List Moment → Machine → Bool) : Bool :=
  match ofParams params with
  | .error _ => false
  | .ok s =>
    match s.replay ops with
    | .error _ => false
    | .ok (past, t) => look past t

theorem Machine.exists_of_trial {params : MachineParams} {ops : List Operation}
    {look : List Moment → Machine → Bool} (h : trial params ops look = true) :
    ∃ s₀ past s, ofParams params = .ok s₀ ∧ History s₀ past s ∧ look past s = true := by
  unfold trial at h
  split at h
  · cases h
  · rename_i s₀ h₀
    split at h
    · cases h
    · rename_i past s hr
      exact ⟨s₀, past, s, h₀, history_of_replay hr, h⟩

theorem Machine.trial_eq {params : MachineParams} {s₀ t : Machine} {past : List Moment}
    {ops : List Operation} (h₀ : ofParams params = .ok s₀) (h : s₀.replay ops = .ok (past, t))
    (look : List Moment → Machine → Bool) : trial params ops look = look past t := by
  unfold trial
  rw [h₀]
  dsimp only
  rw [h]

namespace Moment

/-- The wires of the cycle, if the operation is one. -/
def wires? : Moment → Option MachineWires
  | (s, .tick) => s.wires.toOption
  | _ => none

/-! ## What the engines did -/

/-- What the reader of port `i` saw at the clock edge, and what it did. -/
def readerEdge (i : Nat) (e : Moment) : Option (ReadInputs × ReadStep) := do
  let w ← e.wires?
  let p ← e.1.ports[i]?
  let bus ← w.reads.up[i]?
  let (_, step) ← (p.reader.tick (p.readInputs bus)).result.toOption
  return (p.readInputs bus, step)

/-- The descriptor that the reader of port `i` took. -/
def readerTakes (i : Nat) (e : Moment) : List Descriptor :=
  ((e.readerEdge i).bind fun (inputs, step) => if step.taken then inputs.desc else none).toList

/-- The beat that the reader of port `i` handed to its buffer. -/
def readerPushes (i : Nat) (e : Moment) : List Beat :=
  ((e.readerEdge i).bind fun (_, step) => step.push).toList

/-- What the writer of port `i` saw at the clock edge, and what it did. -/
def writerEdge (i : Nat) (e : Moment) : Option (WriteInputs × WriteStep) := do
  let w ← e.wires?
  let p ← e.1.ports[i]?
  let bus ← w.writes.up[i]?
  let (_, step) ← (p.writer.tick (p.writeInputs bus)).result.toOption
  return (p.writeInputs bus, step)

/-- The descriptor that the writer of port `i` took. -/
def writerTakes (i : Nat) (e : Moment) : List Descriptor :=
  ((e.writerEdge i).bind fun (inputs, step) => if step.taken then inputs.desc else none).toList

/-- The beat that the writer of port `i` took out of its buffer. -/
def writerPops (i : Nat) (e : Moment) : List Beat :=
  match e.writerEdge i, e.1.ports[i]? with
  | some (_, step), some p => if step.pop then p.writeFifo.head?.toList else []
  | _, _ => []

/-- The burst for which the writer of port `i` got its address accepted. -/
def writerIssues (i : Nat) (e : Moment) : List Burst :=
  ((e.writerEdge i).bind fun (_, step) => step.issued).toList

/-- The response that the writer of port `i` received. -/
def writerAnswers (i : Nat) (e : Moment) : List WriteResp :=
  ((e.writerEdge i).bind fun (inputs, _) => inputs.b).toList

/-! ## What the streams did -/

/-- The beats that were queued for port `i`. -/
def offers (i : Nat) : Moment → List Beat
  | (_, .push port beats) => if port = i then beats else []
  | _ => []

/-- The beats that were collected from port `i`. -/
def collects (i : Nat) : Moment → List Beat
  | (s, .take port) => if port = i then ((s.ports[i]?).map (·.sink.received)).getD [] else []
  | _ => []

/-! ## What the memory did -/

/-- The beat that the memory sent, with the words it held in that cycle, if the beat is
for port `i`. -/
def memorySends (i : Nat) (e : Moment) : List (ReadBeat × Store) :=
  match e.wires?.bind (·.reads.down.rFired) with
  | some beat => if beat.id = i then [(beat, e.1.memory.store)] else []
  | none => []

end Moment

/-- The write that the memory completes in a cycle: its address request and its data. -/
def Memory.completes? (m : Memory) (bus : WriteBus) : Option (AddrReq × List WriteBeat) :=
  let m := m.collect bus
  match m.dataDone, m.aw with
  | true, some aw => some (aw, m.collected)
  | _, _ => none

namespace Moment

/-- The requester of the write that the memory stored, and its words with their places. -/
def memoryStores? (e : Moment) : Option (Nat × List (Place × Word)) := do
  let w ← e.wires?
  let (aw, beats) ← e.1.memory.completes? w.writes.down
  return (aw.id, burstWrites e.1.memory.store.geometry aw.addr beats)

/-- The words that the memory stored for port `i`, with their places. -/
def memoryStores (i : Nat) (e : Moment) : List (Place × Word) :=
  match e.memoryStores? with
  | some (id, writes) => if id = i then writes else []
  | none => []

/-- What a moment made of the words in memory. -/
def storeAfter (s : Store) (e : Moment) : Store :=
  match e.2 with
  | .tick => s.putAll ((e.memoryStores?.map (·.2)).getD [])
  | .load base words =>
    match s.load base words with
    | .ok loaded => loaded
    | .error _ => s
  | _ => s

end Moment

end BurstDma
