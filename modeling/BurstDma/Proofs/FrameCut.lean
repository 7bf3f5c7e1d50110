import BurstDma.Proofs.FrameStream
import BurstDma.Proofs.WriteTransfer

/-!
# Frames of any stream

`FrameStream` knows the frames in advance. Here the stream is whatever was queued, complete
frames or not, and the writer still finds every end of a frame: **a burst ends with the mark
if it is the final one of its transfer, and holds no mark otherwise**. So what a transfer has
sent while it goes on is a run of beats without a mark, and its count of words is bounded by
the stream alone.
-/

namespace BurstDma

/-- Among the next `n` beats the last one is marked if a transfer ends there, and no other. -/
def CutAt (beats : List Beat) (n : Nat) (final : Bool) : Prop :=
  n ≤ beats.length ∧
    ∀ (k : Nat) (b : Beat), k < n → beats[k]? = some b → (b.last = true ↔ final = true ∧ k + 1 = n)

/-- A frame, complete or not, has fewer than 2^32 beats: beats in a row of which none but the
last is marked. -/
def FramesFit (beats : List Beat) : Prop :=
  ∀ run : List Beat, run <:+: beats → (∀ b ∈ run.dropLast, b.last = false) →
    run.length < limit32

theorem framesFit_of_length {beats : List Beat} (h : beats.length < limit32) : FramesFit beats :=
  fun _ hrun _ => Nat.lt_of_le_of_lt hrun.length_le h

theorem FramesFit.part {beats part : List Beat} (h : FramesFit beats) (hp : part <:+: beats) :
    FramesFit part :=
  fun run hrun => h run (hrun.trans hp)

theorem CutAt.append {beats : List Beat} {n : Nat} {final : Bool} (h : CutAt beats n final)
    (more : List Beat) : CutAt (beats ++ more) n final := by
  refine ⟨?_, ?_⟩
  · rw [List.length_append]
    exact Nat.le_trans h.1 (Nat.le_add_right _ _)
  · intro k b hk hb
    rw [List.getElem?_append_left (Nat.lt_of_lt_of_le hk h.1)] at hb
    exact h.2 k b hk hb

/-- The first beat leaves the rest of the burst. -/
theorem CutAt.tail {beats : List Beat} {n : Nat} {final : Bool} (h : CutAt beats (n + 1) final) :
    CutAt beats.tail n final := by
  refine ⟨?_, ?_⟩
  · rw [List.length_tail]
    exact Nat.le_sub_of_add_le h.1
  · intro k b hk hb
    rw [List.getElem?_tail] at hb
    rw [h.2 (k + 1) b (Nat.succ_lt_succ hk) hb, Nat.add_right_cancel_iff]

namespace WriteCore

variable {g : Geometry} {c c' : WriteCore} {f : Fifo} {i : WriteInputs} {step : WriteStep}

/-- The burst on offer, or what is left of the open one, cuts the buffer right. -/
structure CutRight (beats : List Beat) (c : WriteCore) : Prop where
  offered : c.phase = .issueBurst → CutAt beats c.burst c.finalBurst
  sending : c.phase = .transferBurst → CutAt beats (c.burst - c.beat) c.finalBurst

theorem cutRight_of_closed {beats : List Beat} (hi : c.phase ≠ .issueBurst)
    (ht : c.phase ≠ .transferBurst) : c.CutRight beats :=
  ⟨fun h => absurd h hi, fun h => absurd h ht⟩

/-- Between the taking of a descriptor and the last word. -/
def Midway (c : WriteCore) : Prop :=
  c.phase ≠ .idle ∧ c.phase ≠ .done ∧ c.phase ≠ .waitForCompletion

theorem midway_of_phase {ph : WritePhase} (hph : c.phase = ph)
    (hne : ph ≠ .idle ∧ ph ≠ .done ∧ ph ≠ .waitForCompletion) : c.Midway := by
  unfold Midway
  rw [hph]
  exact hne

/-- **A burst is sized to cut the buffer right.** With the mark inside, nothing lies behind
it; without it, no beat is marked. -/
theorem cutAt_of_sized {burst : Nat} {finalBurst : Bool} (hm : c.frameMode = true)
    (hf : f.Latched) (hl : f.frameLatch = true) (hshort : f.beats.length < limit32)
    (hlevel : i.fifoLevel = f.level) (hheld : i.frameHeld = f.frameHeld)
    (h : c.sized? i = some (burst, finalBurst)) : CutAt f.beats burst finalBurst := by
  have hexact : f.level = f.beats.length := Nat.mod_eq_of_lt hshort
  unfold sized? at h
  rw [hm, Bool.true_and, hheld, hlevel, hexact] at h
  cases ho : f.frameHeld with
  | true =>
      rw [ho, if_pos rfl] at h
      dsimp only at h
      split at h
      · cases h
        refine ⟨Nat.min_le_right _ _, ?_⟩
        intro k b hk hb
        constructor
        · -- a marked beat is the newest one
          intro hlast
          have hnewest := hf.newest k b hb hlast
          have hall : f.beats.length ≤ c.candidate := by omega
          exact ⟨decide_eq_true hall, by omega⟩
        · rintro ⟨hfin, hend⟩
          have hall := of_decide_eq_true hfin
          obtain ⟨b', hb', hlast⟩ := hf.held ho
          have hk' : k = f.beats.length - 1 := by omega
          rw [hk', hb'] at hb
          cases hb
          exact hlast
      · cases h
  | false =>
      rw [ho, if_neg Bool.false_ne_true] at h
      split at h
      · rename_i hcredit
        cases h
        refine ⟨of_decide_eq_true hcredit, ?_⟩
        intro k b _ hb
        have hopen := hf.open hl ho b (List.mem_of_getElem? hb)
        rw [hopen]
        simp
      · cases h

/-- **The cut lasts**: a beat that is sent leaves the rest of the burst. -/
theorem cutRight_next (hm : c.frameMode = true) (hc : c.CutRight f.beats) (hf : f.Latched)
    (hl : f.frameLatch = true) (hshort : f.beats.length < limit32)
    (hlevel : i.fifoLevel = f.level) (hheld : i.frameHeld = f.frameHeld)
    (hbeat : c.phase = .transferBurst → c.beat < c.burst)
    (h : (c.next g i).result = .ok (c', step)) :
    c'.CutRight (if step.pop then f.beats.tail else f.beats) := by
  obtain ⟨error, hmove⟩ := next_moves h
  cases hmove with
  | rest hph _ => exact cutRight_of_closed (by dsimp only; rw [hph]; nofun) (by dsimp only; rw [hph]; nofun)
  | take d hph _ =>
      refine cutRight_of_closed ?_ ?_ <;> dsimp only <;>
        cases !c.frameMode && d.words == 0 <;> nofun
  | size _ => exact cutRight_of_closed nofun nofun
  | clamp _ => exact cutRight_of_closed nofun nofun
  | starve hph _ =>
      exact cutRight_of_closed (by dsimp only; rw [hph]; nofun) (by dsimp only; rw [hph]; nofun)
  | offer burst finalBurst request hph hsize _ =>
      exact ⟨fun _ => cutAt_of_sized hm hf hl hshort hlevel hheld hsize, nofun⟩
  | stall hph _ => exact ⟨hc.offered, hc.sending⟩
  | issue pending hph _ => exact ⟨nofun, fun _ => hc.offered hph⟩
  | wait hph _ => exact ⟨hc.offered, hc.sending⟩
  | send pending hph _ hlast =>
      have hlt := hbeat hph
      have hmore : c.beat + 1 ≠ c.burst := beq_eq_false_iff_ne.mp hlast
      have hcut := hc.sending hph
      rw [show c.burst - c.beat = c.burst - (c.beat + 1) + 1 by omega] at hcut
      refine ⟨?_, fun _ => hcut.tail⟩
      dsimp only
      rw [hph]
      nofun
  | close pending hph _ _ =>
      refine cutRight_of_closed ?_ ?_ <;> dsimp only <;> cases c.finalBurst <;> nofun
  | await _ _ => exact cutRight_of_closed nofun nofun
  | complete _ _ => exact cutRight_of_closed nofun nofun
  | settle _ => exact cutRight_of_closed nofun nofun

/-- **In frame mode a transfer goes on until its final burst is sent.** -/
theorem midway_next (hm : c.frameMode = true) (h : (c.next g i).result = .ok (c', step)) :
    c'.Midway ↔ step.taken = true
      ∨ c.Midway ∧ ¬ (step.pop = true ∧ c.finalBurst = true ∧ c.onLastBeat = true) := by
  obtain ⟨error, hmove⟩ := next_moves h
  -- a move that neither takes nor ends keeps the transfer going, or at rest
  have still : ∀ {ph ph' : WritePhase} {st : WriteStep}, c.phase = ph → st.taken = false →
      st.pop = false → (ph' ≠ .idle ∧ ph' ≠ .done ∧ ph' ≠ .waitForCompletion ↔
        ph ≠ .idle ∧ ph ≠ .done ∧ ph ≠ .waitForCompletion) →
      (ph' ≠ .idle ∧ ph' ≠ .done ∧ ph' ≠ .waitForCompletion ↔ st.taken = true
        ∨ c.Midway ∧ ¬ (st.pop = true ∧ c.finalBurst = true ∧ c.onLastBeat = true)) := by
    intro ph ph' st hph ht hp hsame
    rw [hsame, ht, hp, Midway, hph]
    simp
  cases hmove with
  | rest hph _ => exact still hph rfl rfl (by rw [show c.phase = _ from hph])
  | take d hph _ => simp [Midway, hm]
  | size hph => exact still hph rfl rfl (by simp)
  | clamp hph => exact still hph rfl rfl (by simp)
  | starve hph _ => exact still hph rfl rfl (by rw [show c.phase = _ from hph])
  | offer _ _ _ hph _ _ => exact still hph rfl rfl (by simp)
  | stall hph _ => exact still hph rfl rfl (by rw [show c.phase = _ from hph])
  | issue _ hph _ => exact still hph rfl rfl (by simp)
  | wait hph _ => exact still hph rfl rfl (by rw [show c.phase = _ from hph])
  | send _ hph _ hlast =>
      have hph' : c.phase = .transferBurst := hph
      have hlast' : c.onLastBeat = false := hlast
      simp [Midway, hph', hlast']
  | close _ hph _ hlast =>
      have hph' : c.phase = .transferBurst := hph
      have hlast' : c.onLastBeat = true := hlast
      cases hfin : c.finalBurst <;> simp [Midway, hph', hlast']
  | await hph _ => exact still hph rfl rfl (by simp)
  | complete hph _ => exact still hph rfl rfl (by simp)
  | settle hph => exact still hph rfl rfl (by simp)

end WriteCore

namespace Port

variable {g : Geometry} {q : PortParams} {s : Machine} {slave : ReadSlave} {i : Nat}
  {p p' : Port} {rstep : ReadStep} {wstep : WriteStep} {given : List Beat}

/-- A port in frame mode that was given some beats: its buffer is cut right, and what the
transfer has sent while it goes on are beats in a row without a mark. -/
structure Framed (given : List Beat) (p : Port) : Prop where
  latched : p.writeFifo.Latched
  cut : p.writer.core.CutRight p.writeFifo.beats
  stream : ∃ before sent,
    given = before ++ (sent ++ (p.writeFifo.beats ++ p.source.queue))
      ∧ sent.length = p.writer.core.written
      ∧ (p.writer.core.Midway → ∀ b ∈ sent, b.last = false)

/-- The beat that is sent is marked exactly if it ends the final burst. -/
theorem head_of_cut {head : Beat} (hc : p.writer.core.CutRight p.writeFifo.beats)
    (hbeat : p.writer.core.phase = .transferBurst → p.writer.core.beat < p.writer.core.burst)
    (hph : p.writer.core.phase = .transferBurst) (hh : p.writeFifo.head? = some head) :
    head.last = true ↔ p.writer.core.finalBurst = true ∧ p.writer.core.onLastBeat = true := by
  have hlt := hbeat hph
  have hfirst : p.writeFifo.beats[0]? = some head := by
    rw [← List.head?_eq_getElem?]
    exact hh
  have hends : 0 + 1 = p.writer.core.burst - p.writer.core.beat
      ↔ p.writer.core.beat + 1 = p.writer.core.burst := by omega
  rw [(hc.sending hph).2 0 head (by omega) hfirst, WriteCore.onLastBeat, beq_iff_eq, hends]

theorem Framed.edge (hf : p.Framed given) (hb : p.Built g i q) (hmode : q.frameMode = true)
    (hbeat : p.writer.core.phase = .transferBurst → p.writer.core.beat < p.writer.core.burst)
    (hshort : p.writeFifo.beats.length < limit32)
    (h : p.Edge (s.readBus slave i p) (s.writeBus i p) rstep wstep p') : p'.Framed given := by
  obtain ⟨hcore, _⟩ := WriteEngine.tick_core h.writer
  have hm : p.writer.core.frameMode = true := hb.frameMode.trans hmode
  have hlatch : p.writeFifo.frameLatch = true := hb.writeLatch.trans hmode
  obtain ⟨more, hbeats, hqueue⟩ := h.moves
  have hcut := WriteCore.cutRight_next hm hf.cut hf.latched hlatch hshort rfl rfl hbeat hcore
  have hmid := WriteCore.midway_next hm hcore
  obtain ⟨hwritten, hquiet⟩ := WriteCore.written_next hcore
  refine ⟨latched_edge hf.latched hlatch h, ?_, ?_⟩
  · rw [hbeats]
    exact ⟨fun hph => (hcut.offered hph).append more, fun hph => (hcut.sending hph).append more⟩
  obtain ⟨before, sent, hgiven, hlen, hclean⟩ := hf.stream
  cases ht : wstep.taken with
  | true =>
      -- a new transfer: what the last one has sent lies behind it
      have hp := hquiet ht
      rw [hp, if_neg Bool.false_ne_true] at hbeats
      refine ⟨before ++ sent, [], ?_, ?_, fun _ b hb' => by cases hb'⟩
      · rw [hgiven, hbeats, hqueue]
        simp
      · rw [hwritten, ht]
        rfl
  | false =>
      rw [ht] at hwritten hmid
      cases hp : wstep.pop with
      | false =>
          rw [hp, if_neg Bool.false_ne_true] at hbeats
          rw [hp] at hmid hwritten
          refine ⟨before, sent, ?_, hlen.trans hwritten.symm, fun hmid' => ?_⟩
          · rw [hgiven, hbeats, hqueue]
            simp
          · rcases hmid.mp hmid' with hc | ⟨hc, _⟩
            · cases hc
            · exact hclean hc
      | true =>
          have hfire : (s.writeBus i p).wFired.isSome = true :=
            (Machine.served_edge h).pop.symm.trans hp
          obtain ⟨hph, hhead⟩ := (s.phase_of_fires i p).2 hfire
          obtain ⟨head, hhead⟩ := Option.isSome_iff_exists.mp hhead
          obtain ⟨rest, hrest⟩ := List.head?_eq_some_iff.mp hhead
          rw [hp, if_pos rfl, hrest, List.tail_cons] at hbeats
          rw [hp] at hmid hwritten
          refine ⟨before, sent ++ [head], ?_, ?_, fun hmid' => ?_⟩
          · rw [hgiven, hbeats, hqueue, hrest]
            simp
          · rw [List.length_append, hlen]
            exact hwritten.symm
          · rcases hmid.mp hmid' with hc | ⟨hc, hgoes⟩
            · cases hc
            · -- the marked beat would have ended the transfer
              have hopen : head.last = false := by
                refine Bool.eq_false_iff.mpr fun hlast => hgoes ?_
                exact ⟨rfl, (head_of_cut hf.cut hbeat hph hhead).mp hlast⟩
              intro b hb'
              rcases List.mem_append.mp hb' with hb' | hb'
              · exact hclean hc b hb'
              · rw [List.mem_singleton.mp hb']
                exact hopen

/-- What a frame-mode writer counts is bounded by the frames. -/
theorem Framed.written_lt (hf : p.Framed given) (hfit : FramesFit given)
    (hph : p.writer.core.phase = .transferBurst) (hhead : p.writeFifo.head?.isSome = true) :
    p.writer.core.written + 1 < limit32 := by
  obtain ⟨before, sent, hgiven, hlen, hclean⟩ := hf.stream
  obtain ⟨head, hhead⟩ := Option.isSome_iff_exists.mp hhead
  obtain ⟨rest, hrest⟩ := List.head?_eq_some_iff.mp hhead
  have hmid : p.writer.core.Midway := WriteCore.midway_of_phase hph (by decide)
  -- what was sent, and the beat to send, stand in a row
  have hrun : sent ++ [head] <:+: given := by
    refine ⟨before, rest ++ p.source.queue, ?_⟩
    rw [hgiven, hrest]
    simp
  have hlt := hfit _ hrun (by
    rw [List.dropLast_concat]
    exact hclean hmid)
  rw [List.length_append, hlen] at hlt
  exact hlt

end Port

end BurstDma
