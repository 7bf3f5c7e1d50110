import BurstDma.Proofs.Bounds
import BurstDma.Proofs.Handover

/-!
# No descriptor is lost, and none runs twice

A descriptor that a program submits goes one of two ways: if the place is taken it is
dropped and counted, and otherwise it waits there until the engine takes it. **So what was
accepted is what the engine took, in this order, and what waits.** Of what it took an engine
has finished all but the one that it is busy with. None of this depends on what the program
does meanwhile: a waiting descriptor has left the registers in which it was staged.

What a program does is read off the moments with the decoder of the machine, so that it does
not matter which of its addresses a register is written at.
-/

namespace BurstDma

/-! ## What a program writes -/

/-- The lowest bit of a value, which is all that VALID and IRQ look at. -/
def lowBit (value : UInt32) : Bool :=
  value &&& 1 != 0

/-- What the values `w`, written to some of the registers, make of them. -/
structure RegisterFile.Written (f : RegisterFile) (w : Register → Option UInt32)
    (f' : RegisterFile) : Prop where
  start : f'.start = (w .start).getD f.start
  length : f'.length = (w .length).getD f.length
  burst : f'.burst = (w .burst).getD f.burst
  /-- A one in VALID submits the staged descriptor: it waits if there is a place for it. -/
  holding : f'.holding
    = if (w .valid).any lowBit && f.holding.isNone then some f.staged else f.holding
  dropped : f'.dropped
    = f.dropped + if (w .valid).any lowBit && f.holding.isSome then 1 else 0
  irq : f'.irq = ((w .irq).map lowBit).getD f.irq

theorem RegisterFile.written_none (f : RegisterFile) : f.Written (fun _ => none) f :=
  ⟨rfl, rfl, rfl, rfl, rfl, rfl⟩

/-- **Every register keeps to its meaning**, at whatever index it is written. -/
theorem RegisterFile.written_write {f f' : RegisterFile} {index : Nat} {value : UInt32}
    (h : (f.write index value).result = .ok f') :
    f.Written (fun r => if Register.ofIndex? index = some r then some value else none) f' := by
  unfold write at h
  cases hr : Register.ofIndex? index with
  | none =>
      rw [hr] at h
      cases h
      exact f.written_none
  | some r =>
      rw [hr] at h
      cases r with
      | start | length | burst | remaining | error | fifo | irq =>
          cases h
          exact ⟨rfl, rfl, rfl, rfl, rfl, rfl⟩
      | valid =>
          dsimp only at h
          -- the only register whose write is a command
          suffices hheld : f'.holding
              = (if lowBit value && f.holding.isNone then some f.staged else f.holding)
            ∧ f'.dropped = (f.dropped + if lowBit value && f.holding.isSome then 1 else 0)
            ∧ f'.start = f.start ∧ f'.length = f.length ∧ f'.burst = f.burst
            ∧ f'.irq = f.irq by
            obtain ⟨hholding, hdropped, hstart, hlength, hburst, hirq⟩ := hheld
            exact ⟨hstart, hlength, hburst, hholding, hdropped, hirq⟩
          by_cases hv : value &&& 1 = 0
          · rw [if_pos hv] at h
            cases h
            rw [show lowBit value = false from bne_eq_false_iff_eq.mpr hv]
            exact ⟨rfl, rfl, rfl, rfl, rfl, rfl⟩
          · rw [if_neg hv] at h
            unfold submit at h
            rw [show lowBit value = true from bne_iff_ne.mpr hv]
            cases hf : f.holding with
            | none =>
                rw [hf] at h
                cases h
                exact ⟨rfl, rfl, rfl, rfl, rfl, rfl⟩
            | some d =>
                rw [hf] at h
                cases h
                exact ⟨rfl, rfl, rfl, rfl, rfl, rfl⟩

namespace Moment

/-- The value that a moment writes to register `r` of the engine on a side of port `i`. -/
def writesTo (i : Nat) (side : Side) (r : Register) : Moment → Option UInt32
  | (s, .write addr value) =>
    match (s.decode addr).result with
    | .ok (some (p, side', index)) =>
      if p.index = i ∧ side' = side ∧ Register.ofIndex? index = some r then some value else none
    | _ => none
  | _ => none

/-- Whether a moment submits a descriptor: it writes a one to VALID. -/
def submits (i : Nat) (side : Side) (e : Moment) : Bool :=
  (e.writesTo i side .valid).any lowBit

/-- The descriptor that was staged when a moment submitted it and there was a place for it. -/
def accepts (i : Nat) (side : Side) (e : Moment) : List Descriptor :=
  match e.1.ports[i]? with
  | some p =>
    if e.submits i side && (p.view side).regs.holding.isNone then [(p.view side).regs.staged]
    else []
  | none => []

/-- Whether a moment submits a descriptor to a place that is taken. -/
def drops (i : Nat) (side : Side) (e : Moment) : Bool :=
  e.submits i side && (e.1.ports[i]?).any (·.view side |>.regs.holding.isSome)

/-- Whether an engine says in this cycle that it is done. -/
def pulses (i : Nat) (side : Side) : Moment → Bool
  | (s, .tick) => (s.ports[i]?).any (·.view side |>.done)
  | _ => false

/-- Whether a moment raises the line of an engine: a transfer is done, or a one is written to
IRQ. -/
def raises (i : Nat) (side : Side) (e : Moment) : Bool :=
  e.pulses i side || (e.writesTo i side .irq).any lowBit

/-- Whether a moment lowers the line: IRQ is written without its lowest bit. -/
def lowers (i : Nat) (side : Side) (e : Moment) : Bool :=
  (e.writesTo i side .irq).any (!lowBit ·)

end Moment

/-- The value last written to a register, zero if there is none. -/
def lastWritten (i : Nat) (side : Side) (r : Register) (past : List Moment) : UInt32 :=
  ((past.filterMap (Moment.writesTo i side r)).getLast?).getD 0

/-- Something raised the line of an engine, and nothing lowered it since. -/
def LineHigh (i : Nat) (side : Side) (past : List Moment) : Prop :=
  ∃ before e after, past = before ++ e :: after ∧ Moment.raises i side e = true
    ∧ ∀ e' ∈ after, Moment.lowers i side e' = false

section

variable {i : Nat} {side : Side} {past : List Moment} {e : Moment}

theorem lastWritten_concat (r : Register) :
    lastWritten i side r (past ++ [e])
      = (e.writesTo i side r).getD (lastWritten i side r past) := by
  unfold lastWritten
  rw [List.filterMap_append, List.getLast?_append]
  cases hw : e.writesTo i side r with
  | none =>
      rw [List.filterMap_cons_none hw]
      rfl
  | some value =>
      rw [List.filterMap_cons_some hw]
      rfl

/-- Only the last moment decides, or it leaves the line as it was. -/
theorem lineHigh_concat :
    LineHigh i side (past ++ [e]) ↔
      e.raises i side = true ∨ LineHigh i side past ∧ e.lowers i side = false := by
  constructor
  · rintro ⟨before, e', after, hpast, hraises, hkept⟩
    rcases List.eq_nil_or_concat after with rfl | ⟨init, last, rfl⟩
    · obtain ⟨_, hlast⟩ := List.append_inj' hpast rfl
      cases hlast
      exact Or.inl hraises
    · rw [List.concat_eq_append, ← List.cons_append, ← List.append_assoc] at hpast
      obtain ⟨hinit, hlast⟩ := List.append_inj' hpast rfl
      cases hlast
      rw [List.concat_eq_append] at hkept
      refine Or.inr ⟨⟨before, e', init, hinit, hraises, fun e'' he => ?_⟩, ?_⟩
      · exact hkept e'' (List.mem_append_left _ he)
      · exact hkept e (List.mem_append_right _ List.mem_cons_self)
  · rintro (hraises | ⟨⟨before, e', after, rfl, hraises, hkept⟩, hlowers⟩)
    · exact ⟨past, e, [], rfl, hraises, fun e' he => absurd he List.not_mem_nil⟩
    · refine ⟨before, e', after ++ [e], by rw [List.append_assoc]; rfl, hraises, ?_⟩
      intro e'' he
      rcases List.mem_append.mp he with he | he
      · exact hkept e'' he
      · rw [List.mem_singleton.mp he]
        exact hlowers

end
/-! ## What it makes of an engine -/

/-- The port with other registers on a side. -/
def Port.withRegs (p : Port) (regs : RegisterFile) : Side → Port
  | .reader => { p with readRegs := regs }
  | .writer => { p with writeRegs := regs }

theorem Port.withRegs_index (p : Port) (regs : RegisterFile) (side : Side) :
    (p.withRegs regs side).index = p.index := by
  cases side <;> rfl

theorem Port.view_withRegs (p : Port) (regs : RegisterFile) (side : Side) :
    (p.withRegs regs side).view side = { p.view side with regs } := by
  cases side <;> rfl

theorem Port.view_withRegs_of_ne (p : Port) (regs : RegisterFile) {side side' : Side}
    (h : side' ≠ side) : (p.withRegs regs side').view side = p.view side := by
  cases side <;> cases side' <;> first | rfl | exact absurd rfl h

/-- A clock edge clears the place when its descriptor is taken, and raises the line. -/
theorem Port.nextRegs_kept (f : RegisterFile) (done taken : Bool) :
    (nextRegs f done taken).start = f.start ∧ (nextRegs f done taken).length = f.length
      ∧ (nextRegs f done taken).burst = f.burst
      ∧ (nextRegs f done taken).dropped = f.dropped
      ∧ (nextRegs f done taken).irq = (f.irq || done) := by
  cases done with
  | false => cases taken <;> exact ⟨rfl, rfl, rfl, rfl, (Bool.or_false _).symm⟩
  | true => cases taken <;> exact ⟨rfl, rfl, rfl, rfl, (Bool.or_true _).symm⟩

/-- What came of an engine between two ticks: some of its registers were written. -/
def EngineView.Accessed (v : EngineView) (w : Register → Option UInt32) (v' : EngineView) : Prop :=
  ∃ regs, v' = { v with regs } ∧ v.regs.Written w regs

/-- Nothing was written. -/
theorem EngineView.accessed_self {v : EngineView} {w : Register → Option UInt32}
    (h : ∀ r, w r = none) : v.Accessed w v := by
  rw [funext h]
  exact ⟨_, rfl, RegisterFile.written_none _⟩

namespace Machine

variable {s s' : Machine} {i : Nat} {p p' q : Port} {side : Side} {addr value : UInt32}

/-- What an address leads to is a port of the machine. -/
theorem exists_port_of_decode {index : Nat}
    (h : (s.decode addr).result = .ok (some (q, side, index))) :
    ∃ k : Nat, s.ports[k]? = some q := by
  unfold decode at h
  split at h
  · cases h
  · rename_i p hp
    cases h
    exact ⟨_, hp⟩

theorem writeRegister_found {index : Nat}
    (hf : (s.decode addr).result = .ok (some (q, side, index)))
    (h : (s.writeRegister addr value).result = .ok s') :
    ∃ regs, ((q.view side).regs.write index value).result = .ok regs
      ∧ s' = s.setPort (q.withRegs regs side) := by
  obtain ⟨found, hf', h⟩ := Run.result_bind_eq_ok.mp h
  rw [hf] at hf'
  cases hf'
  cases side with
  | reader =>
      obtain ⟨regs, hregs, h⟩ := Run.result_bind_eq_ok.mp h
      cases h
      exact ⟨regs, hregs, rfl⟩
  | writer =>
      obtain ⟨regs, hregs, h⟩ := Run.result_bind_eq_ok.mp h
      cases h
      exact ⟨regs, hregs, rfl⟩

/-- **A write reaches the engine that its address leads to**, and no other. -/
theorem view_writeRegister (hi : s.Indexed) (h : (s.writeRegister addr value).result = .ok s')
    (hp' : s'.ports[i]? = some p') (side : Side) :
    ∃ p, s.ports[i]? = some p ∧ (p.view side).Accessed
      (fun r => Moment.writesTo i side r (s, .write addr value)) (p'.view side) := by
  obtain ⟨found, hf, hrest⟩ := Run.result_bind_eq_ok.mp h
  cases found with
  | none =>
      cases hrest
      refine ⟨p', hp', EngineView.accessed_self fun r => ?_⟩
      unfold Moment.writesTo
      dsimp only
      rw [hf]
  | some found =>
      obtain ⟨q, side', index⟩ := found
      have hwrites : ∀ r, Moment.writesTo i side r (s, .write addr value)
          = if q.index = i ∧ side' = side ∧ Register.ofIndex? index = some r then some value
            else none := by
        intro r
        unfold Moment.writesTo
        dsimp only
        rw [hf]
      obtain ⟨k, hk⟩ := exists_port_of_decode hf
      obtain ⟨regs, hregs, rfl⟩ := writeRegister_found hf h
      rw [setPort_getElem? hi hk (q.withRegs_index regs side')] at hp'
      by_cases hik : i = k
      · subst hik
        rw [if_pos rfl] at hp'
        cases hp'
        refine ⟨q, hk, ?_⟩
        by_cases hside : side' = side
        · subst hside
          rw [q.view_withRegs regs]
          refine ⟨regs, rfl, ?_⟩
          have hvalues : (fun r => Moment.writesTo i side' r (s, .write addr value))
              = fun r => if Register.ofIndex? index = some r then some value else none := by
            funext r
            rw [hwrites r]
            exact if_congr ⟨fun hc => hc.2.2, fun hc => ⟨hi i q hk, rfl, hc⟩⟩ rfl rfl
          rw [hvalues]
          exact RegisterFile.written_write hregs
        · rw [q.view_withRegs_of_ne regs hside]
          exact EngineView.accessed_self fun r =>
            (hwrites r).trans (if_neg fun hc => hside hc.2.1)
      · rw [if_neg hik] at hp'
        have hother : q.index ≠ i := fun hc => hik (hc.symm.trans (hi k q hk))
        exact ⟨p', hp', EngineView.accessed_self fun r =>
          (hwrites r).trans (if_neg fun hc => hother hc.1)⟩

/-- What replaces a port and looks the same leaves every engine as it was. -/
theorem view_setPort (hi : s.Indexed) {k : Nat} (hp' : (s.setPort q).ports[i]? = some p')
    (hp : s.ports[k]? = some p) (hindex : q.index = p.index) (hsame : q.view side = p.view side) :
    ∃ r, s.ports[i]? = some r ∧ p'.view side = r.view side := by
  rw [setPort_getElem? hi hp hindex] at hp'
  by_cases hik : i = k
  · subst hik
    rw [if_pos rfl] at hp'
    cases hp'
    exact ⟨p, hp, hsame⟩
  · rw [if_neg hik] at hp'
    exact ⟨p', hp', rfl⟩

/-- Between two ticks only register writes reach an engine. -/
theorem view_apply {op : Operation} (hi : s.Indexed) (h : op.apply s = .ok s') (ht : op ≠ .tick)
    (hr : op ≠ .reset) (hp' : s'.ports[i]? = some p') (side : Side) :
    ∃ p, s.ports[i]? = some p
      ∧ (p.view side).Accessed (fun r => Moment.writesTo i side r (s, op)) (p'.view side) := by
  have hquiet : (∀ r, Moment.writesTo i side r (s, op) = none) →
      (∃ p, s.ports[i]? = some p ∧ p'.view side = p.view side) → ∃ p, s.ports[i]? = some p
        ∧ (p.view side).Accessed (fun r => Moment.writesTo i side r (s, op)) (p'.view side) := by
    rintro hnone ⟨p, hp, hsame⟩
    rw [hsame]
    exact ⟨p, hp, EngineView.accessed_self hnone⟩
  cases op with
  | write addr value => exact view_writeRegister hi h hp' side
  | read addr =>
      obtain ⟨_, _, rfl⟩ := except_map_eq_ok.mp h
      exact hquiet (fun _ => rfl) ⟨p', hp', rfl⟩
  | push port beats =>
      simp only [Operation.apply, pushStream] at h
      split at h
      · cases h
      · rename_i p hp
        cases h
        exact hquiet (fun _ => rfl) (view_setPort hi hp' hp rfl (by cases side <;> rfl))
  | take port =>
      obtain ⟨⟨beats, t⟩, ht, rfl⟩ := except_map_eq_ok.mp h
      unfold takeOutput at ht
      split at ht
      · cases ht
      · rename_i p hp
        cases ht
        exact hquiet (fun _ => rfl) (view_setPort hi hp' hp rfl (by cases side <;> rfl))
  | load base words =>
      refine hquiet (fun _ => rfl) ⟨p', ?_, rfl⟩
      simp only [Operation.apply, loadMemory] at h
      cases hl : s.memory.store.load base words with
      | ok store =>
          rw [hl] at h
          cases h
          exact hp'
      | error stop =>
          rw [hl] at h
          cases stop with
          | fault fault => cases h
          | problem problem =>
              cases h
              exact hp'
  | tick => exact absurd rfl ht
  | reset => exact absurd rfl hr

end Machine

/-- One descriptor is taken at most, and it is the one that waited. It is a transfer that the
engine is busy with until it counts it, and a cycle later says that it is done. -/
theorem EngineView.Edge.taken_flow {v v' : EngineView} {taken : List Descriptor}
    (h : v.Edge taken v') :
    v.regs.holding.toList = taken ++ v'.regs.holding.toList
      ∧ v'.transfers + (if v'.idle || v'.done then 0 else 1)
        = v.transfers + (if v.idle || v.done then 0 else 1) + taken.length
      ∧ (if v.done then 1 else 0) + (if v'.idle then 0 else 1)
        = (if v.idle then 0 else 1) + taken.length := by
  obtain ⟨took, finished, hmove, rfl, hregs, htransfers⟩ := h
  rw [htransfers, hregs, Port.nextRegs_holding]
  generalize hoffer : v.offered = desc at hmove ⊢
  unfold offered at hoffer
  generalize v.idle = idle at hmove hoffer ⊢
  generalize v.done = done at hmove ⊢
  generalize v'.idle = idle' at hmove ⊢
  generalize v'.done = done' at hmove ⊢
  cases hmove with
  | rest => exact ⟨rfl, rfl, rfl⟩
  | take d =>
      rw [if_pos rfl] at hoffer
      rw [hoffer]
      cases finished <;> exact ⟨rfl, rfl, rfl⟩
  | work => cases finished <;> exact ⟨rfl, rfl, rfl⟩
  | settle => exact ⟨rfl, rfl, rfl⟩

/-! ## The ledger -/

/-- What happened to the descriptors of an engine that looks like `v` now. -/
structure DescriptorLedger (i : Nat) (side : Side) (past : List Moment) (v : EngineView) :
    Prop where
  staged : v.regs.start = lastWritten i side .start past
    ∧ v.regs.length = lastWritten i side .length past
    ∧ v.regs.burst = lastWritten i side .burst past
  /-- Every submission was accepted or dropped. -/
  submitted : past.countP (Moment.submits i side)
    = past.countP (Moment.drops i side) + (past.flatMap (Moment.accepts i side)).length
  dropped : v.regs.dropped = past.countP (Moment.drops i side)
  /-- What was accepted was taken, or it waits. -/
  accepted : past.flatMap (Moment.accepts i side)
    = past.flatMap (Moment.takes i side) ++ v.regs.holding.toList
  /-- A transfer is counted when it is over, and an engine that is not done with it yet says
  so one cycle later. -/
  transfers : v.transfers + (if v.idle || v.done then 0 else 1)
    = (past.flatMap (Moment.takes i side)).length
  pulses : past.countP (Moment.pulses i side) + (if v.idle then 0 else 1)
    = (past.flatMap (Moment.takes i side)).length
  line : v.regs.irq = true ↔ LineHigh i side past

namespace DescriptorLedger

variable {i : Nat} {side : Side} {past : List Moment} {v v' : EngineView} {s : Machine} {p : Port}

theorem init (hregs : v.regs = {}) (hidle : v.idle = true) (htransfers : v.transfers = 0) :
    DescriptorLedger i side [] v := by
  refine ⟨?_, rfl, ?_, ?_, ?_, ?_, ?_⟩
  · rw [hregs]
    exact ⟨rfl, rfl, rfl⟩
  · rw [hregs]
    rfl
  · rw [hregs]
    rfl
  · rw [hidle, htransfers]
    rfl
  · rw [hidle]
    rfl
  · rw [hregs]
    constructor
    · intro hc
      cases hc
    · rintro ⟨before, e, after, hpast, _⟩
      cases before <;> cases hpast

/-- **What the program writes keeps the ledger right.** -/
theorem accessed {op : Operation} (h : DescriptorLedger i side past (p.view side))
    (hp : s.ports[i]? = some p) (ht : op ≠ .tick)
    (ha : (p.view side).Accessed (fun r => Moment.writesTo i side r (s, op)) v') :
    DescriptorLedger i side (past ++ [(s, op)]) v' := by
  obtain ⟨regs, rfl, hw⟩ := ha
  have htakes : Moment.takes i side (s, op) = [] := Moment.takes_silent ht i side
  have hpulses : Moment.pulses i side (s, op) = false := by
    cases op with
    | tick => exact absurd rfl ht
    | write addr value | read addr | push port beats | take port | load base words | reset => rfl
  have haccepts : Moment.accepts i side (s, op)
      = if Moment.submits i side (s, op) && (p.view side).regs.holding.isNone then
          [(p.view side).regs.staged] else [] := by
    unfold Moment.accepts
    rw [hp]
  have hdrops : Moment.drops i side (s, op)
      = (Moment.submits i side (s, op) && (p.view side).regs.holding.isSome) := by
    unfold Moment.drops
    rw [hp]
    rfl
  have hholding := hw.holding
  have hdropped := hw.dropped
  rw [show (Moment.writesTo i side .valid (s, op)).any lowBit = Moment.submits i side (s, op)
    from rfl] at hholding hdropped
  obtain ⟨hstart, hlength, hburst⟩ := h.staged
  refine ⟨⟨?_, ?_, ?_⟩, ?_, ?_, ?_, ?_, ?_, ?_⟩
  · rw [lastWritten_concat, ← hstart]
    exact hw.start
  · rw [lastWritten_concat, ← hlength]
    exact hw.length
  · rw [lastWritten_concat, ← hburst]
    exact hw.burst
  · rw [List.countP_append, List.countP_append, log_concat, List.length_append, h.submitted,
      List.countP_singleton, List.countP_singleton, haccepts, hdrops]
    cases Moment.submits i side (s, op) <;> cases (p.view side).regs.holding <;>
      simp <;> omega
  · rw [List.countP_append, List.countP_singleton, hdrops, ← h.dropped]
    exact hdropped
  · rw [log_concat, log_concat, htakes, List.append_nil, h.accepted, haccepts, hholding]
    cases Moment.submits i side (s, op) <;> cases (p.view side).regs.holding <;> simp
  · rw [log_concat, htakes, List.append_nil]
    exact h.transfers
  · rw [log_concat, htakes, List.append_nil, List.countP_append, List.countP_singleton, hpulses]
    exact h.pulses
  · rw [lineHigh_concat, ← h.line]
    unfold Moment.raises Moment.lowers
    rw [hpulses, Bool.false_or, hw.irq]
    cases Moment.writesTo i side .irq (s, op) with
    | none => simp
    | some value => simp

/-- **The clock keeps the ledger right**: what the engine takes leaves the place, and a
completion raises the line. -/
theorem edge (h : DescriptorLedger i side past (p.view side)) (hp : s.ports[i]? = some p)
    (he : (p.view side).Edge (Moment.takes i side (s, .tick)) v') :
    DescriptorLedger i side (past ++ [(s, .tick)]) v' := by
  obtain ⟨hwaits, hcounts, hdone⟩ := he.taken_flow
  obtain ⟨took, _, _, _, hregs, _⟩ := he
  have hpulses : Moment.pulses i side (s, .tick) = (p.view side).done := by
    show (s.ports[i]?).any _ = _
    rw [hp]
    rfl
  have haccepts : Moment.accepts i side (s, .tick) = [] := by
    unfold Moment.accepts
    rw [hp]
    rfl
  obtain ⟨hstart, hlength, hburst, hdropped, hirq⟩ :=
    Port.nextRegs_kept (p.view side).regs (p.view side).done took
  rw [← hregs] at hstart hlength hburst hdropped hirq
  obtain ⟨hs, hl, hb⟩ := h.staged
  refine ⟨⟨?_, ?_, ?_⟩, ?_, ?_, ?_, ?_, ?_, ?_⟩
  · rw [lastWritten_concat, hstart, hs]
    rfl
  · rw [lastWritten_concat, hlength, hl]
    rfl
  · rw [lastWritten_concat, hburst, hb]
    rfl
  · rw [List.countP_append, List.countP_append, log_concat, haccepts, List.append_nil]
    exact h.submitted
  · rw [List.countP_append, hdropped]
    exact h.dropped
  · rw [log_concat, log_concat, haccepts, List.append_nil, List.append_assoc, ← hwaits]
    exact h.accepted
  · rw [log_concat, List.length_append, ← h.transfers]
    exact hcounts
  · rw [log_concat, List.length_append, List.countP_append, List.countP_singleton, hpulses,
      Nat.add_assoc, hdone, ← Nat.add_assoc, h.pulses]
  · rw [lineHigh_concat, ← h.line, hirq]
    unfold Moment.raises Moment.lowers
    rw [hpulses]
    simp [Moment.writesTo, or_comm]

end DescriptorLedger

section

variable {params : MachineParams} {s₀ s : Machine} {past : List Moment} {i : Nat} {p : Port}

/-- **Every engine of every machine keeps its ledger**, whatever is written and whenever. -/
theorem History.descriptorLedger (h₀ : Machine.ofParams params = .ok s₀) (h : History s₀ past s)
    (hu : Uninterrupted past) (hp : s.ports[i]? = some p) (side : Side) :
    DescriptorLedger i side past (p.view side) := by
  induction h generalizing p with
  | start =>
      rw [Machine.getElem?_ofParams h₀] at hp
      obtain ⟨q, _, rfl⟩ := Option.map_eq_some_iff.mp hp
      cases side with
      | reader => exact .init rfl rfl rfl
      | writer => exact .init rfl rfl rfl
  | @step past s s' op hist hop ih =>
      obtain ⟨hpast, hreset⟩ := uninterrupted_concat.mp hu
      by_cases ht : op = .tick
      · subst ht
        obtain ⟨slave, hedge⟩ := Machine.tick_edge hop
        obtain ⟨q, rstep, wstep, hq, hport⟩ := hedge.port' hp
        exact (ih hpast hq).edge hq (Port.Edge.view hedge hq hport side)
      · have hi := (hist.formed h₀).indexed
        obtain ⟨q, hq, haccess⟩ := Machine.view_apply hi hop ht hreset hp side
        exact (ih hpast hq).accessed hq ht haccess

/-- What a moment accepts is what was last written to the registers before it. -/
theorem History.accepts_eq (h₀ : Machine.ofParams params = .ok s₀) (h : History s₀ past s)
    (hu : Uninterrupted past) (hp : s.ports[i]? = some p) (side : Side)
    {before after : List Moment} {e : Moment} (hpast : past = before ++ e :: after) :
    e.accepts i side =
      if e.submits i side && !e.drops i side then
        [Descriptor.clamped (lastWritten i side .start before).toNat
          (lastWritten i side .length before).toNat (lastWritten i side .burst before).toNat]
      else [] := by
  obtain ⟨hbefore, _⟩ := h.moment hpast
  have hu' : Uninterrupted before := by
    intro e' he'
    exact hu e' (hpast ▸ List.mem_append_left _ he')
  have hlt : i < e.1.ports.length := by
    obtain ⟨hlt, _⟩ := List.getElem?_eq_some_iff.mp hp
    rwa [(h.formed h₀).length, ← (hbefore.formed h₀).length] at hlt
  have hq := List.getElem?_eq_getElem hlt
  obtain ⟨hstart, hlength, hburst⟩ := (hbefore.descriptorLedger h₀ hu' hq side).staged
  have haccepts : e.accepts i side
      = if e.submits i side && (e.1.ports[i].view side).regs.holding.isNone then
          [(e.1.ports[i].view side).regs.staged] else [] := by
    unfold Moment.accepts
    rw [hq]
  rw [haccepts, ← hstart, ← hlength, ← hburst]
  unfold Moment.drops
  rw [hq, Option.any_some]
  cases e.submits i side with
  | false => rfl
  | true => cases (e.1.ports[i].view side).regs.holding <;> rfl

/-- **No descriptor is lost, and none runs twice.** Every one that is submitted is dropped and
counted, or taken, or it waits. What the engine takes, and what waits then, is what was staged
at each submission that found a place, in this order, whatever was written to the registers
since. The engine has said of every transfer but the one that it is busy with that it is done,
and has counted it when it was. The line is high if a completion or the program raised it and
the program has not lowered it since. -/
theorem descriptors_taken_once (h₀ : Machine.ofParams params = .ok s₀) (h : History s₀ past s)
    (hu : Uninterrupted past) (hp : s.ports[i]? = some p) (side : Side) :
    let v := p.view side
    let taken := past.flatMap (Moment.takes i side)
    past.countP (Moment.submits i side)
        = v.regs.dropped + taken.length + (if v.regs.holding.isSome then 1 else 0)
      ∧ past.countP (Moment.pulses i side) + (if v.idle then 0 else 1) = taken.length
      ∧ v.transfers + (if v.idle || v.done then 0 else 1) = taken.length
      ∧ taken ++ v.regs.holding.toList = past.flatMap (Moment.accepts i side)
      ∧ (∀ before e after, past = before ++ e :: after → e.accepts i side =
        if e.submits i side && !e.drops i side then
          [Descriptor.clamped (lastWritten i side .start before).toNat
            (lastWritten i side .length before).toNat (lastWritten i side .burst before).toNat]
        else [])
      ∧ (v.regs.irq = true ↔ LineHigh i side past) := by
  intro v taken
  have hl := h.descriptorLedger h₀ hu hp side
  refine ⟨?_, hl.pulses, hl.transfers, hl.accepted.symm, ?_, hl.line⟩
  · rw [hl.submitted, hl.dropped, hl.accepted, List.length_append, Nat.add_assoc]
    cases (p.view side).regs.holding <;> rfl
  · intro before e after hpast
    exact h.accepts_eq h₀ hu hp side hpast

end

/-- A second descriptor waits while the first runs, and a third one finds no place. The program
goes on to write START, and lowers the line after the first completion. -/
theorem descriptors_taken_once_two_of_three :
    ∃ s₀ past s p, Machine.ofParams { ports := [{}, {}] } = .ok s₀ ∧ History s₀ past s
      ∧ Uninterrupted past ∧ s.ports[1]? = some p ∧ p.readRegs.dropped = 1
      ∧ past.flatMap (Moment.accepts 1 .reader) = [⟨64, 2, 2⟩, ⟨128, 3, 16⟩]
      ∧ past.countP (Moment.submits 1 .reader) = 3
      ∧ past.countP (Moment.pulses 1 .reader) = 1 ∧ p.reader.stats.transfers = 1
      ∧ ¬ LineHigh 1 .reader past := by
  have hrun : Machine.trial { ports := [{}, {}] }
      (Operation.program 1 .reader 64 2 2 ++ [.tick] ++ Operation.program 1 .reader 128 3 99
        ++ Operation.program 1 .reader 256 4 1
        ++ [.write (Register.address 1 .reader Register.start.index) 512]
        ++ List.replicate 20 .tick
        ++ [.write (Register.address 1 .reader Register.irq.index) 0])
      (fun past s => decide (Uninterrupted past)
        && decide (past.flatMap (Moment.takes 1 .reader) = [⟨64, 2, 2⟩, ⟨128, 3, 16⟩])
        && (s.ports[1]?).any fun p => p.readRegs.dropped == 1 && p.readRegs.holding.isNone
          && !p.reader.isIdle && !p.reader.core.outputs.done && !p.readRegs.irq) = true := by
    decide +kernel
  obtain ⟨s₀, past, s, h₀, h, hlook⟩ := Machine.exists_of_trial hrun
  rw [Bool.and_eq_true, Bool.and_eq_true, decide_eq_true_eq, decide_eq_true_eq] at hlook
  obtain ⟨⟨hu, htaken⟩, hport⟩ := hlook
  obtain ⟨p, hp, hport⟩ := (Option.any_eq_true _ _).mp hport
  simp only [Bool.and_eq_true, Bool.not_eq_true', beq_iff_eq, Option.isNone_iff_eq_none] at hport
  obtain ⟨⟨⟨⟨hdropped, hplace⟩, hidle⟩, hdone⟩, hirq⟩ := hport
  obtain ⟨hsubmitted, hpulses, htransfers, haccepted, _, hline⟩ :=
    descriptors_taken_once h₀ h hu hp .reader
  have hregs : (p.view .reader).regs = p.readRegs := rfl
  have hbusy : (p.view .reader).idle = false := hidle
  have hrunning : (p.view .reader).done = false := hdone
  simp only [hregs, hbusy, hrunning, htaken, hdropped, hplace]
    at hsubmitted hpulses htransfers haccepted hline
  refine ⟨s₀, past, s, p, h₀, h, hu, hp, hdropped, haccepted.symm, hsubmitted,
    Nat.succ.inj hpulses, Nat.succ.inj htransfers, fun hhigh => ?_⟩
  rw [hline.mpr hhigh] at hirq
  cases hirq

end BurstDma
