import BurstDma.Proofs.ReadTransfer
import BurstDma.Proofs.WriteLedger

/-!
# Handing descriptors over one at a time

An engine and its registers can be used in a simple way: a descriptor is handed over, the
line rises when the transfer is done, and the line is cleared before the next descriptor is
handed over. **Then nothing is dropped and no two completions meet in the line.** Three
counts say all there is to say: the descriptors that were handed over, those that the engine
took, and those whose completion was acknowledged. They differ by one at most, and where
they differ the place, the engine and the line tell why.
-/

namespace BurstDma

/-! ## Engines from outside -/

/-- How a clock edge moves an engine on, as far as descriptors go: from being idle or done,
with a descriptor on offer, to being idle or done. -/
inductive EngineMove : (idle done : Bool) → Option Descriptor → (taken finished : Bool) →
    (idle' done' : Bool) → Prop where
  | rest : EngineMove true false none false false true false
  /-- A transfer of no words is done at once. -/
  | take (d : Descriptor) (done' : Bool) : EngineMove true false (some d) true done' false done'
  | work (desc : Option Descriptor) (done' : Bool) :
      EngineMove false false desc false done' false done'
  | settle (desc : Option Descriptor) : EngineMove false true desc false false true false

/-- An engine that is neither idle nor done works on. -/
theorem ReadCore.move_of_busy {ph ph' : ReadPhase} (hidle : (ph == .idle) = false)
    (hdone : (ph == .done) = false) (hidle' : (ph' == .idle) = false) (desc : Option Descriptor) :
    EngineMove (ph == .idle) (ph == .done) desc false (ReadEngine.finishes ph ph')
      (ph' == .idle) (ph' == .done) := by
  have hfinishes : ReadEngine.finishes ph ph' = (ph' == .done) := by
    unfold ReadEngine.finishes bne
    rw [hdone, Bool.not_false, Bool.and_true]
  rw [hfinishes, hidle, hdone, hidle']
  exact .work desc _

theorem ReadCore.next_move {g : Geometry} {c c' : ReadCore} {i : ReadInputs} {step : ReadStep}
    (h : (c.next g i).result = .ok (c', step)) :
    EngineMove (c.phase == .idle) (c.phase == .done) i.desc step.taken
      (ReadEngine.finishes c.phase c'.phase) (c'.phase == .idle) (c'.phase == .done) := by
  obtain ⟨⟨r, push⟩, hr, h⟩ := Run.result_bind_eq_ok.mp h
  obtain ⟨⟨core, step'⟩, hm, h⟩ := Run.result_bind_eq_ok.mp h
  cases h
  obtain ⟨⟨bursts, error, rfl⟩, _⟩ := receive_eq hr
  cases proceed_moves hm with
  | rest hph hd =>
      dsimp only at hph ⊢
      rw [hph, hd]
      exact .rest
  | take d hph hd =>
      dsimp only at hph ⊢
      rw [hph, hd]
      by_cases hw : d.words = 0
      · rw [if_pos hw]
        exact .take d true
      · rw [if_neg hw]
        exact .take d false
  | settle hph =>
      dsimp only at hph ⊢
      rw [hph]
      exact .settle _
  | size hph | clamp hph | encode _ hph _ | grant hph _ | starve hph _ | stall hph _
  | issue hph _ _ | again hph _ | last hph _ | await hph _ | complete hph _ =>
      dsimp only at hph ⊢
      rw [hph]
      exact move_of_busy rfl rfl rfl _

theorem WriteCore.move_of_busy {ph ph' : WritePhase} (hidle : (ph == .idle) = false)
    (hdone : (ph == .done) = false) (hidle' : (ph' == .idle) = false) (desc : Option Descriptor) :
    EngineMove (ph == .idle) (ph == .done) desc false (WriteEngine.finishes ph ph')
      (ph' == .idle) (ph' == .done) := by
  have hfinishes : WriteEngine.finishes ph ph' = (ph' == .done) := by
    unfold WriteEngine.finishes bne
    rw [hdone, Bool.not_false, Bool.and_true]
  rw [hfinishes, hidle, hdone, hidle']
  exact .work desc _

theorem WriteCore.next_move {g : Geometry} {c c' : WriteCore} {i : WriteInputs} {step : WriteStep}
    (h : (c.next g i).result = .ok (c', step)) :
    EngineMove (c.phase == .idle) (c.phase == .done) i.desc step.taken
      (WriteEngine.finishes c.phase c'.phase) (c'.phase == .idle) (c'.phase == .done) := by
  obtain ⟨error, hm⟩ := next_moves h
  cases hm with
  | rest hph hd =>
      dsimp only at hph ⊢
      rw [hph, hd]
      exact .rest
  | take d hph hd =>
      dsimp only at hph ⊢
      rw [hph, hd]
      cases hw : !c.frameMode && d.words == 0 with
      | true => exact .take d true
      | false => exact .take d false
  | settle hph =>
      dsimp only at hph ⊢
      rw [hph]
      exact .settle _
  | close pending hph _ _ =>
      dsimp only at hph ⊢
      rw [hph]
      cases c.finalBurst with
      | true => exact move_of_busy rfl rfl rfl _
      | false => exact move_of_busy rfl rfl rfl _
  | size hph | clamp hph | starve hph _ | offer _ _ _ hph _ _ | stall hph _ | issue _ hph _
  | wait hph _ | send _ hph _ _ | await hph _ | complete hph _ =>
      dsimp only at hph ⊢
      rw [hph]
      exact move_of_busy rfl rfl rfl _

/-- What a program sees of an engine: its registers, whether it is idle or done, and the
transfers that it has counted. -/
structure EngineView where
  regs : RegisterFile
  idle : Bool
  done : Bool
  transfers : Nat

/-- The engine on a side of a port. -/
def Port.view (p : Port) : Side → EngineView
  | .reader => ⟨p.readRegs, p.reader.isIdle, p.reader.core.outputs.done, p.reader.stats.transfers⟩
  | .writer => ⟨p.writeRegs, p.writer.isIdle, p.writeOutputs.done, p.writer.stats.transfers⟩

/-- The descriptor that the engine on a side of port `i` took. -/
def Moment.takes (i : Nat) : Side → Moment → List Descriptor
  | .reader => readerTakes i
  | .writer => writerTakes i

/-- Nothing is taken between the ticks. -/
theorem Moment.takes_silent {s : Machine} {op : Operation} (ht : op ≠ .tick) (i : Nat)
    (side : Side) : Moment.takes i side (s, op) = [] := by
  cases side with
  | reader => exact (Moment.reader_silent ht i).1
  | writer => exact (Moment.writer_silent ht i).1

/-- What an engine finds on offer: it looks at the waiting descriptor only when it is idle. -/
def EngineView.offered (v : EngineView) : Option Descriptor :=
  if v.idle then v.regs.holding else none

/-- A clock edge of an engine from outside, in which it took the descriptors `taken`. -/
def EngineView.Edge (v : EngineView) (taken : List Descriptor) (v' : EngineView) : Prop :=
  ∃ took finished, EngineMove v.idle v.done v.offered took finished v'.idle v'.done
    ∧ taken = (if took then v.offered else none).toList
    ∧ v'.regs = Port.nextRegs v.regs v.done took
    ∧ v'.transfers = v.transfers + if finished then 1 else 0

theorem ReadEngine.tick_move {e e' : ReadEngine} {i : ReadInputs} {step : ReadStep}
    (h : (e.tick i).result = .ok (e', step)) :
    ∃ finished, EngineMove e.isIdle e.core.outputs.done i.desc step.taken finished e'.isIdle
        e'.core.outputs.done
      ∧ e'.stats.transfers = e.stats.transfers + if finished then 1 else 0 := by
  obtain ⟨⟨core, step'⟩, hnext, h⟩ := Run.result_bind_eq_ok.mp h
  obtain ⟨_, _, h⟩ := Run.result_bind_eq_ok.mp h
  cases h
  exact ⟨_, ReadCore.next_move hnext, rfl⟩

theorem WriteEngine.tick_move {e e' : WriteEngine} {i : WriteInputs} {step : WriteStep}
    (head head' : Option Beat) (h : (e.tick i).result = .ok (e', step)) :
    ∃ finished, EngineMove e.isIdle (e.core.outputs head).done i.desc step.taken finished e'.isIdle
        (e'.core.outputs head').done
      ∧ e'.stats.transfers = e.stats.transfers + if finished then 1 else 0 := by
  obtain ⟨⟨core, step'⟩, hnext, h⟩ := Run.result_bind_eq_ok.mp h
  obtain ⟨_, _, h⟩ := Run.result_bind_eq_ok.mp h
  cases h
  exact ⟨_, WriteCore.next_move hnext, rfl⟩

theorem Port.Edge.view {s s' : Machine} {slave : ReadSlave} {i : Nat} {p p' : Port}
    {rstep : ReadStep} {wstep : WriteStep} (h : s.Edge slave s') (hp : s.ports[i]? = some p)
    (hedge : p.Edge (s.readBus slave i p) (s.writeBus i p) rstep wstep p') (side : Side) :
    (p.view side).Edge (Moment.takes i side (s, .tick)) (p'.view side) := by
  cases side with
  | reader =>
      obtain ⟨htakes, _⟩ := Moment.reader_tick h.drives hp hedge
      obtain ⟨finished, hmove, htransfers⟩ := ReadEngine.tick_move hedge.reader
      exact ⟨_, finished, hmove, htakes, hedge.readRegs, htransfers⟩
  | writer =>
      obtain ⟨htakes, _⟩ := Moment.writer_tick h.drives hp hedge
      obtain ⟨finished, hmove, htransfers⟩ := WriteEngine.tick_move p.writeFifo.head?
        p'.writeFifo.head? hedge.writer
      exact ⟨_, finished, hmove, htakes, hedge.writeRegs, htransfers⟩

/-! ## The three counts -/

/-- An engine was handed the first `handed` of the descriptors `descs`, it took those in
`takes`, and `seen` completions were acknowledged. -/
structure EngineView.Handover (descs : Nat → Descriptor) (handed seen : Nat)
    (takes : List Descriptor) (v : EngineView) : Prop where
  inOrder : takes = (List.range takes.length).map descs
  counts : seen ≤ takes.length ∧ takes.length ≤ handed ∧ handed ≤ seen + 1
  /-- A descriptor that was not taken waits. -/
  holding : v.regs.holding = if takes.length < handed then some (descs takes.length) else none
  /-- The line tells of a completion that was not acknowledged. -/
  line : v.regs.irq = true → seen < takes.length
  /-- The engine rests if it has taken nothing, or has finished it. -/
  idle : v.idle = true ↔ v.regs.irq = true ∨ takes.length = seen
  transfers : v.transfers + (if v.idle || v.done then 0 else 1) = takes.length
  dropped : v.regs.dropped = 0

namespace EngineView.Handover

variable {descs : Nat → Descriptor} {handed seen : Nat} {takes taken : List Descriptor}
  {v v' : EngineView}

/-- An engine that was not used yet. -/
theorem init (hregs : v.regs = {}) (hidle : v.idle = true) (htransfers : v.transfers = 0) :
    v.Handover descs 0 0 [] := by
  refine ⟨rfl, by decide, by rw [hregs]; rfl, ?_, ?_, ?_, by rw [hregs]⟩
  · rw [hregs]
    intro h
    cases h
  · rw [hidle]
    exact ⟨fun _ => Or.inr rfl, fun _ => rfl⟩
  · rw [hidle, htransfers]
    rfl

/-- A clock edge in which the engine takes nothing leaves the counts alone. -/
theorem keep (h : v.Handover descs handed seen takes) {done : Bool}
    (hregs : v'.regs = Port.nextRegs v.regs done false)
    (hline : v'.regs.irq = true → seen < takes.length)
    (hidle : v'.idle = true ↔ v'.regs.irq = true ∨ takes.length = seen)
    (htransfers : v'.transfers + (if v'.idle || v'.done then 0 else 1) = takes.length) :
    v'.Handover descs handed seen (takes ++ []) := by
  have hsame : v'.regs.holding = v.regs.holding ∧ v'.regs.dropped = v.regs.dropped := by
    rw [hregs]
    cases done <;> exact ⟨rfl, rfl⟩
  rw [List.append_nil]
  exact ⟨h.inOrder, h.counts, hsame.1.trans h.holding, hline, hidle, htransfers,
    hsame.2.trans h.dropped⟩

/-- An engine that takes the waiting descriptor empties the place. Its line is low then, as
everything before was acknowledged. -/
theorem take (h : v.Handover descs handed seen takes) (hlt : takes.length < handed)
    (hregs : v'.regs = Port.nextRegs v.regs false true) (hidle : v'.idle = false)
    (htransfers : v'.transfers + (if v'.done then 0 else 1) = v.transfers + 1) :
    v'.Handover descs handed seen (takes ++ [descs takes.length]) := by
  obtain ⟨hseen, htaken, hhanded⟩ := h.counts
  have hlow : v.regs.irq = false := Bool.eq_false_iff.mpr fun hc => by
    have := h.line hc
    omega
  have hlow' : v'.regs.irq = false := by
    rw [hregs]
    exact hlow
  have hrested : v.transfers = takes.length := by
    have hcount := h.transfers
    rw [h.idle.mpr (Or.inr (by omega))] at hcount
    exact hcount
  have hlen : (takes ++ [descs takes.length]).length = takes.length + 1 := List.length_append
  refine ⟨?_, by omega, ?_, ?_, ?_, ?_, ?_⟩
  · rw [hlen, List.range_succ, List.map_append, ← h.inOrder]
    rfl
  · rw [hlen, if_neg (by omega), hregs]
    rfl
  · rw [hlow']
    intro hc
    cases hc
  · rw [hidle, hlow', hlen]
    constructor
    · intro hc
      cases hc
    · rintro (hc | hc)
      · cases hc
      · omega
  · rw [hidle, Bool.false_or, htransfers, hlen, hrested]
  · rw [hregs]
    exact h.dropped

/-- **The clock keeps the counts right.** -/
theorem edge (h : v.Handover descs handed seen takes) (he : v.Edge taken v') :
    v'.Handover descs handed seen (takes ++ taken) := by
  obtain ⟨took, finished, hmove, rfl, hregs, htransfers⟩ := he
  obtain ⟨hseen, htaken, hhanded⟩ := h.counts
  have hidle := h.idle
  have hcount := h.transfers
  generalize hi : v.idle = idle at hmove hidle hcount
  generalize hd : v.done = done at hmove hregs hcount
  generalize ho : v.offered = desc at hmove ⊢
  generalize hi' : v'.idle = idle' at hmove
  generalize hd' : v'.done = done' at hmove
  unfold EngineView.offered at ho
  rw [hi] at ho
  cases hmove with
  | rest =>
      have hirq : v'.regs.irq = v.regs.irq := by rw [hregs]; rfl
      refine h.keep hregs ?_ ?_ ?_
      · rw [hirq]
        exact h.line
      · rw [hi', hirq]
        exact hidle
      · rw [hi', htransfers]
        exact hcount
  | take d =>
      -- the place held the next descriptor, so the line was low
      rw [if_pos rfl, h.holding] at ho
      split at ho
      · rename_i hlt
        cases ho
        refine h.take hlt hregs hi' ?_
        rw [hd', htransfers]
        cases finished <;> rfl
      · cases ho
  | work =>
      have hirq : v'.regs.irq = v.regs.irq := by rw [hregs]; rfl
      refine h.keep hregs ?_ ?_ ?_
      · rw [hirq]
        exact h.line
      · rw [hi', hirq]
        exact hidle
      · rw [hi', hd', htransfers, ← hcount]
        cases finished <;> rfl
  | settle =>
      -- the line rises
      have hirq : v'.regs.irq = true := by rw [hregs]; rfl
      have hbusy : takes.length ≠ seen := fun hc => Bool.false_ne_true (hidle.mpr (Or.inr hc))
      refine h.keep hregs ?_ ?_ ?_
      · intro _
        omega
      · rw [hi', hirq]
        exact ⟨fun _ => Or.inl rfl, fun _ => rfl⟩
      · rw [hi', htransfers]
        exact hcount

/-! ## What the program does -/

/-- Writes that neither hand over nor acknowledge leave the counts alone. -/
theorem congr (h : v.Handover descs handed seen takes) {regs : RegisterFile}
    (hholding : regs.holding = v.regs.holding) (hirq : regs.irq = v.regs.irq)
    (hdropped : regs.dropped = v.regs.dropped) :
    EngineView.Handover descs handed seen takes { v with regs } :=
  ⟨h.inOrder, h.counts, hholding.trans h.holding, hirq ▸ h.line, hirq ▸ h.idle, h.transfers,
    hdropped.trans h.dropped⟩

/-- When all completions are acknowledged, the place is free. -/
theorem free (h : v.Handover descs handed handed takes) :
    v.regs.holding = none ∧ takes.length = handed := by
  obtain ⟨hseen, htaken, _⟩ := h.counts
  refine ⟨?_, by omega⟩
  rw [h.holding, if_neg (by omega)]

/-- The next descriptor is handed over. -/
theorem submit (h : v.Handover descs handed handed takes) (hnext : v.regs.staged = descs handed) :
    EngineView.Handover descs (handed + 1) handed takes
      { v with regs := { v.regs with holding := some v.regs.staged } } := by
  obtain ⟨_, hlen⟩ := h.free
  refine ⟨h.inOrder, by omega, ?_, h.line, h.idle, h.transfers, h.dropped⟩
  rw [if_pos (by omega), hlen, hnext]

/-- The completion that the line tells of is acknowledged. -/
theorem acknowledge (h : v.Handover descs handed seen takes) (hirq : v.regs.irq = true) :
    handed = seen + 1 ∧ EngineView.Handover descs handed (seen + 1) takes
      { v with regs := { v.regs with irq := false } } := by
  obtain ⟨hseen, htaken, hhanded⟩ := h.counts
  have hline := h.line hirq
  refine ⟨by omega, h.inOrder, by omega, h.holding, ?_, ?_, h.transfers, h.dropped⟩
  · intro hc
    cases hc
  · exact ⟨fun _ => Or.inr (by omega), fun _ => h.idle.mpr (Or.inl hirq)⟩

/-- **When everything is acknowledged, every descriptor was taken and finished.** -/
theorem transfers_eq (h : v.Handover descs handed handed takes) :
    v.transfers = handed ∧ v.idle = true := by
  obtain ⟨_, hlen⟩ := h.free
  have hidle := h.idle.mpr (Or.inr hlen)
  have hcount := h.transfers
  rw [hidle] at hcount
  exact ⟨hcount.trans hlen, hidle⟩

end EngineView.Handover

end BurstDma
