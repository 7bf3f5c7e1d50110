import BurstDma.Proofs.Handover
import BurstDma.Proofs.LoopbackLayout

/-!
# Two scripts in step

The two scripts of a port meet in the line of the writer. The writer's script hands a frame
over, waits for the line, and goes on when the line is low again; the reader's script waits
for the line too, and clears it before it reads the frame back. Where each of them stands is
the number of the commands that it has finished, and **these two numbers say how far both
engines are**: the writer was handed the frames whose command has passed, and the reader's
script has acknowledged the frames that it has come to.

`InStep` is that relation for one port. It is kept by every command that finishes, whichever
script it belongs to and whatever happens in between, and by every clock edge.
-/

namespace BurstDma

/-- The port with other registers on one side. -/
def Port.setRegs (p : Port) (side : Side) (regs : RegisterFile) : Port :=
  match side with
  | .reader => { p with readRegs := regs }
  | .writer => { p with writeRegs := regs }

/-- A clock edge keeps the staged descriptor and a line that is high. -/
theorem EngineView.Edge.regs {v v' : EngineView} {taken : List Descriptor} (h : v.Edge taken v') :
    v'.regs.start = v.regs.start ∧ v'.regs.length = v.regs.length
      ∧ v'.regs.burst = v.regs.burst ∧ (v.regs.irq = true → v'.regs.irq = true) := by
  obtain ⟨took, _, _, _, hregs, _⟩ := h
  rw [hregs]
  cases v.done with
  | true => cases took <;> exact ⟨rfl, rfl, rfl, fun _ => rfl⟩
  | false => cases took <;> exact ⟨rfl, rfl, rfl, fun h => h⟩

namespace Loopback

variable {l : Loopback} {i frame j seen nw nr : Nat} {side : Side}

/-! ## Handing a frame over -/

/-- A script has finished `j` of the commands that hand a frame over, and perhaps more. The
fourth of them fills the place; the ones before it stage the descriptor. -/
structure Submission (l : Loopback) (i : Nat) (side : Side) (frame j seen : Nat)
    (takes : List Descriptor) (v : EngineView) : Prop where
  handover : v.Handover (l.descriptor i side) (frame + if 4 ≤ j then 1 else 0) seen takes
  /-- The frames before are acknowledged. -/
  fresh : j ≤ 3 → seen = frame
  start : 1 ≤ j → j ≤ 3 → v.regs.start = UInt32.ofNat (l.frameAddress i frame)
  length : 2 ≤ j → j ≤ 3 → v.regs.length = UInt32.ofNat (l.submittedWords side)
  burst : j = 3 → v.regs.burst = UInt32.ofNat (frameBurst frame)

namespace Submission

variable {takes taken : List Descriptor} {v v' : EngineView}

/-- Between two frames nothing is staged. -/
theorem init (h : v.Handover (l.descriptor i side) frame frame takes) :
    l.Submission i side frame 0 frame takes v :=
  ⟨h, fun _ => rfl, fun h => absurd h (by decide), fun h => absurd h (by decide),
    fun h => absurd h (by decide)⟩

/-- Behind the fourth command nothing is staged either. -/
theorem later (h : l.Submission i side frame j seen takes v) {j' : Nat} (hj : 4 ≤ j)
    (hj' : 4 ≤ j') : l.Submission i side frame j' seen takes v := by
  have hhandover := h.handover
  rw [if_pos hj] at hhandover
  refine ⟨?_, fun hlt => ?_, fun _ hlt => ?_, fun _ hlt => ?_, fun hlt => ?_⟩
  · rw [if_pos hj']
    exact hhandover
  all_goals omega

theorem edge (h : l.Submission i side frame j seen takes v) (he : v.Edge taken v') :
    l.Submission i side frame j seen (takes ++ taken) v' := by
  obtain ⟨hstart, hlength, hburst, _⟩ := he.regs
  refine ⟨h.handover.edge he, h.fresh, ?_, ?_, ?_⟩
  · rw [hstart]
    exact h.start
  · rw [hlength]
    exact h.length
  · rw [hburst]
    exact h.burst

/-- With the fourth command the staged descriptor fills the place, which is free. -/
theorem submits (h : l.Submission i side frame 3 seen takes v)
    (haddr : l.frameAddress i frame < limit32) (hwords : l.words < limit32) :
    (v.regs.write Register.valid.index 1).result
        = .ok { v.regs with holding := some v.regs.staged }
      ∧ l.Submission i side frame 4 seen takes
        { v with regs := { v.regs with holding := some v.regs.staged } } := by
  obtain rfl := h.fresh (by decide)
  have hhandover : v.Handover (l.descriptor i side) seen seen takes := h.handover
  have hsubmitted : l.submittedWords side < limit32 := by
    refine Nat.lt_of_le_of_lt ?_ hwords
    cases side with
    | reader => exact Nat.le_refl _
    | writer =>
        show (if l.frameMode then 0 else l.words) ≤ l.words
        split
        · exact Nat.zero_le _
        · exact Nat.le_refl _
  have hburst : frameBurst seen < limit32 := by
    have := Nat.mod_lt seen (by decide : 16 > 0)
    have hlimit : limit32 = 4294967296 := rfl
    unfold frameBurst
    omega
  have hstaged : v.regs.staged = l.descriptor i side seen := by
    unfold RegisterFile.staged descriptor
    rw [h.start (by decide) (by decide), h.length (by decide) (by decide), h.burst rfl,
      UInt32.toNat_ofNat_of_lt' haddr, UInt32.toNat_ofNat_of_lt' hsubmitted,
      UInt32.toNat_ofNat_of_lt' hburst]
  refine ⟨?_, hhandover.submit hstaged, fun h => absurd h (by decide),
    fun _ h => absurd h (by decide), fun _ h => absurd h (by decide),
    fun h => absurd h (by decide)⟩
  show (v.regs.submit).result = _
  unfold RegisterFile.submit
  rw [hhandover.free.1]
  rfl

/-- **Each of the commands does its part.** -/
theorem command (h : l.Submission i side frame j seen takes v)
    (haddr : l.frameAddress i frame < limit32) (hwords : l.words < limit32) (hj : j < 5) :
    ∃ (r : Register) (value : UInt32) (regs : RegisterFile),
      (l.submitCommands i side frame)[j]? = some (.write (Register.address i side r.index) value)
        ∧ (v.regs.write r.index value).result = .ok regs
        ∧ l.Submission i side frame (j + 1) seen takes { v with regs } ∧ regs.irq = v.regs.irq := by
  have hcases : j = 0 ∨ j = 1 ∨ j = 2 ∨ j = 3 ∨ j = 4 := by omega
  rcases hcases with rfl | rfl | rfl | rfl | rfl
  · refine ⟨.start, _, _, rfl, rfl, ⟨h.handover.congr rfl rfl rfl, fun _ => h.fresh (by decide),
      fun _ _ => rfl, fun h => absurd h (by decide), fun h => absurd h (by decide)⟩, rfl⟩
  · refine ⟨.length, _, _, rfl, rfl, ⟨h.handover.congr rfl rfl rfl, fun _ => h.fresh (by decide),
      fun _ _ => h.start (by decide) (by decide), fun _ _ => rfl,
      fun h => absurd h (by decide)⟩, rfl⟩
  · refine ⟨.burst, _, _, rfl, rfl, ⟨h.handover.congr rfl rfl rfl, fun _ => h.fresh (by decide),
      fun _ _ => h.start (by decide) (by decide), fun _ _ => h.length (by decide) (by decide),
      fun _ => rfl⟩, rfl⟩
  · obtain ⟨hwrite, hnext⟩ := h.submits haddr hwords
    exact ⟨.valid, 1, _, rfl, hwrite, hnext, rfl⟩
  · exact ⟨.valid, 0, v.regs, rfl, rfl, h.later (by decide) (by decide), rfl⟩

end Submission

/-! ## A port with its scripts -/

/-- The scripts of port `i` have finished `nw` and `nr` commands, and the engines have taken
the descriptors in `takes`. -/
structure InStep (l : Loopback) (i nw nr : Nat) (takes : Side → List Descriptor) (p : Port) :
    Prop where
  writer :
    l.Submission i .writer (nw / 7) (nw % 7) ((nr + 7) / 9) (takes .writer) (p.view .writer)
  reader :
    l.Submission i .reader (nr / 9) (nr % 9 - 2) (nr / 9) (takes .reader) (p.view .reader)
  /-- A script that has seen a line clears it, and until then it is high. -/
  stored : nr % 9 = 1 → p.writeRegs.irq = true
  fetched : nr % 9 = 8 → p.readRegs.irq = true
  /-- The writer's script has seen its line, which only the reader's script can clear. -/
  polled : nw % 7 = 6 → p.writeRegs.irq = true ∨ nw / 7 + 1 = (nr + 7) / 9

/-- The line of the engine on a side of port `i`. -/
def line (i : Nat) : Side → Nat
  | .writer => 2 * i
  | .reader => 2 * i + 1

/-- What a command does to port `i`: it writes a register, or waits for a line to be high or
low. With that it is finished, and `next` holds. -/
inductive Finishes (i : Nat) (p : Port) (next : Port → Prop) : Command → Prop where
  | write (side : Side) (r : Register) (value : UInt32) (regs : RegisterFile) :
      ((p.view side).regs.write r.index value).result = .ok regs → next (p.setRegs side regs) →
      Finishes i p next (.write (Register.address i side r.index) value)
  | wait (side : Side) : ((p.view side).regs.irq = true → next p) →
      Finishes i p next (.waitIrq (line i side))
  | poll (side : Side) : ((p.view side).regs.irq = false → next p) →
      Finishes i p next (.poll (Register.address i side Register.irq.index) 0)

namespace InStep

variable {takes : Side → List Descriptor} {p p' : Port} {c : Command}

/-- Before the first command. -/
theorem init (hw : (p.view .writer).Handover (l.descriptor i .writer) 0 0 (takes .writer))
    (hr : (p.view .reader).Handover (l.descriptor i .reader) 0 0 (takes .reader)) :
    l.InStep i 0 0 takes p :=
  ⟨.init hw, .init hr, fun h => absurd h (by decide), fun h => absurd h (by decide),
    fun h => absurd h (by decide)⟩

/-- **A clock edge keeps the scripts in step with the engines.** -/
theorem edge {taken : Side → List Descriptor} (h : l.InStep i nw nr takes p)
    (he : ∀ side, (p.view side).Edge (taken side) (p'.view side)) :
    l.InStep i nw nr (fun side => takes side ++ taken side) p' := by
  obtain ⟨_, _, _, hwirq⟩ := (he .writer).regs
  obtain ⟨_, _, _, hrirq⟩ := (he .reader).regs
  refine ⟨h.writer.edge (he .writer), h.reader.edge (he .reader), ?_, ?_, ?_⟩
  · intro hm
    exact hwirq (h.stored hm)
  · intro hm
    exact hrirq (h.fetched hm)
  · intro hm
    exact (h.polled hm).imp_left hwirq

/-- The commands of the writer's script. -/
theorem writerCommand (h : l.InStep i nw nr takes p)
    (haddr : l.frameAddress i (nw / 7) < limit32) (hwords : l.words < limit32)
    (hc : (l.frameCommands i .writer (nw / 7))[nw % 7]? = some c) :
    Finishes i p (l.InStep i (nw + 1) nr takes) c := by
  have hcases : nw % 7 < 5 ∨ nw % 7 = 5 ∨ nw % 7 = 6 := by omega
  rcases hcases with hj | hj | hj
  · obtain ⟨r, value, regs, hcommand, hwrite, hnext, hirq⟩ := h.writer.command haddr hwords hj
    rw [frameCommands, List.getElem?_append_left hj, hcommand] at hc
    cases hc
    have hdiv : (nw + 1) / 7 = nw / 7 := by omega
    have hmod : (nw + 1) % 7 = nw % 7 + 1 := by omega
    refine .write .writer r value regs hwrite ⟨?_, h.reader, ?_, h.fetched, ?_⟩
    · rw [hdiv, hmod]
      exact hnext
    · intro hm
      exact hirq.trans (h.stored hm)
    · omega
  · rw [hj] at hc
    cases hc
    have hdiv : (nw + 1) / 7 = nw / 7 := by omega
    refine .wait .writer fun hirq => ⟨?_, h.reader, h.stored, h.fetched, fun _ => Or.inl hirq⟩
    rw [hdiv]
    exact h.writer.later (by omega) (by omega)
  · rw [hj] at hc
    cases hc
    refine .poll .writer fun hirq => ⟨?_, h.reader, h.stored, h.fetched, by omega⟩
    -- the line is low because the reader's script has come to this frame
    have hseen : nw / 7 + 1 = (nr + 7) / 9 := by
      rcases h.polled hj with hhigh | hseen
      · rw [show p.writeRegs.irq = false from hirq] at hhigh
        cases hhigh
      · exact hseen
    have hhandover := h.writer.handover
    have hdiv : (nw + 1) / 7 = nw / 7 + 1 := by omega
    have hmod : (nw + 1) % 7 = 0 := by omega
    rw [if_pos (by omega), ← hseen] at hhandover
    rw [hdiv, hmod, ← hseen]
    exact .init hhandover

/-! The reader's script, command by command. -/

/-- It sees that the frame is stored. -/
theorem seesStored (h : l.InStep i nw nr takes p) (hj : nr % 9 = 0)
    (hirq : p.writeRegs.irq = true) : l.InStep i nw (nr + 1) takes p := by
  have hseen : (nr + 1 + 7) / 9 = (nr + 7) / 9 := by omega
  have hdiv : (nr + 1) / 9 = nr / 9 := by omega
  have hmod : (nr + 1) % 9 - 2 = nr % 9 - 2 := by omega
  refine ⟨?_, ?_, fun _ => hirq, by omega, ?_⟩
  · rw [hseen]
    exact h.writer
  · rw [hdiv, hmod]
    exact h.reader
  · rw [hseen]
    exact h.polled

/-- It clears the line that it has seen: the frame is acknowledged. -/
theorem acknowledgesStored (h : l.InStep i nw nr takes p) (hj : nr % 9 = 1) :
    l.InStep i nw (nr + 1) takes (p.setRegs .writer { p.writeRegs with irq := false }) := by
  obtain ⟨hhanded, hack⟩ := h.writer.handover.acknowledge (h.stored hj)
  have hfresh := h.writer.fresh
  have hseen : (nr + 1 + 7) / 9 = (nr + 7) / 9 + 1 := by omega
  have hdiv : (nr + 1) / 9 = nr / 9 := by omega
  have hmod : (nr + 1) % 9 - 2 = nr % 9 - 2 := by omega
  refine ⟨?_, ?_, by omega, by omega, ?_⟩
  · rw [hseen]
    refine ⟨hack, ?_, h.writer.start, h.writer.length, h.writer.burst⟩
    intro hlow
    have := hfresh hlow
    rw [if_neg (by omega)] at hhanded
    omega
  · rw [hdiv, hmod]
    exact h.reader
  · intro hm
    rw [if_pos (by omega)] at hhanded
    exact Or.inr (by omega)

/-- It hands the frame over to the reader. -/
theorem handsOver (h : l.InStep i nw nr takes p) (haddr : l.frameAddress i (nr / 9) < limit32)
    (hwords : l.words < limit32) (hlow : 2 ≤ nr % 9) (hhigh : nr % 9 < 7)
    (hc : (l.submitCommands i .reader (nr / 9))[nr % 9 - 2]? = some c) :
    Finishes i p (l.InStep i nw (nr + 1) takes) c := by
  obtain ⟨r, value, regs, hcommand, hwrite, hnext, _⟩ := h.reader.command haddr hwords (by omega)
  rw [hcommand] at hc
  cases hc
  have hseen : (nr + 1 + 7) / 9 = (nr + 7) / 9 := by omega
  have hdiv : (nr + 1) / 9 = nr / 9 := by omega
  have hmod : (nr + 1) % 9 - 2 = nr % 9 - 2 + 1 := by omega
  refine .write .reader r value regs hwrite ⟨?_, ?_, by omega, by omega, ?_⟩
  · rw [hseen]
    exact h.writer
  · rw [hdiv, hmod]
    exact hnext
  · rw [hseen]
    exact h.polled

/-- It sees that the frame has been read back. -/
theorem seesFetched (h : l.InStep i nw nr takes p) (hj : nr % 9 = 7)
    (hirq : p.readRegs.irq = true) : l.InStep i nw (nr + 1) takes p := by
  have hseen : (nr + 1 + 7) / 9 = (nr + 7) / 9 := by omega
  have hdiv : (nr + 1) / 9 = nr / 9 := by omega
  refine ⟨?_, ?_, by omega, fun _ => hirq, ?_⟩
  · rw [hseen]
    exact h.writer
  · rw [hdiv]
    exact h.reader.later (by omega) (by omega)
  · rw [hseen]
    exact h.polled

/-- It clears the line of the reader, and is done with the frame. -/
theorem acknowledgesFetched (h : l.InStep i nw nr takes p) (hj : nr % 9 = 8) :
    l.InStep i nw (nr + 1) takes (p.setRegs .reader { p.readRegs with irq := false }) := by
  obtain ⟨hhanded, hack⟩ := h.reader.handover.acknowledge (h.fetched hj)
  have hseen : (nr + 1 + 7) / 9 = (nr + 7) / 9 := by omega
  have hdiv : (nr + 1) / 9 = nr / 9 + 1 := by omega
  have hmod : (nr + 1) % 9 - 2 = 0 := by omega
  rw [hhanded] at hack
  refine ⟨?_, ?_, by omega, by omega, ?_⟩
  · rw [hseen]
    exact h.writer
  · rw [hdiv, hmod]
    exact .init hack
  · rw [hseen]
    exact h.polled

/-- The commands of the reader's script. -/
theorem readerCommand (h : l.InStep i nw nr takes p)
    (haddr : l.frameAddress i (nr / 9) < limit32) (hwords : l.words < limit32)
    (hc : (l.frameCommands i .reader (nr / 9))[nr % 9]? = some c) :
    Finishes i p (l.InStep i nw (nr + 1) takes) c := by
  have hcases : nr % 9 = 0 ∨ nr % 9 = 1 ∨ (2 ≤ nr % 9 ∧ nr % 9 < 7) ∨ nr % 9 = 7 ∨ nr % 9 = 8 := by
    omega
  rcases hcases with hj | hj | ⟨hlow, hhigh⟩ | hj | hj
  · rw [hj] at hc
    cases hc
    exact .wait .writer fun hirq => h.seesStored hj hirq
  · rw [hj] at hc
    cases hc
    exact .write .writer .irq 0 { p.writeRegs with irq := false } rfl (h.acknowledgesStored hj)
  · refine h.handsOver haddr hwords hlow hhigh ?_
    rwa [frameCommands, List.getElem?_append_left hhigh, List.getElem?_append_right hlow] at hc
  · rw [hj] at hc
    cases hc
    exact .wait .reader fun hirq => h.seesFetched hj hirq
  · rw [hj] at hc
    cases hc
    exact .write .reader .irq 0 { p.readRegs with irq := false } rfl (h.acknowledgesFetched hj)

end InStep

end Loopback

end BurstDma
