import BurstDma.Proofs.WriteLedger

/-!
# Frames in a stream

In frame mode a transfer is as long as its frame, and the writer learns that only from the
end mark in its buffer. The latch of the buffer closes the entrance behind an end mark, so
the buffer never holds words of the frame after the one being sent. **With the mark inside,
the buffer holds exactly the rest of the frame; without it, less than that**, and so a burst
is the last one of its transfer exactly if it takes the marked beat with it.
-/

namespace BurstDma

/-- A complete frame: only its last beat is marked, and its length is a word. -/
structure IsFrame (beats : List Beat) : Prop where
  nonempty : beats ≠ []
  short : beats.length < limit32
  marked : beats.map (·.last) = endMarks 0 beats.length

instance (beats : List Beat) : Decidable (IsFrame beats) :=
  decidable_of_iff
    (beats ≠ [] ∧ beats.length < limit32 ∧ beats.map (·.last) = endMarks 0 beats.length)
    ⟨fun h => ⟨h.1, h.2.1, h.2.2⟩, fun h => ⟨h.nonempty, h.short, h.marked⟩⟩

theorem IsFrame.last_iff {beats : List Beat} (h : IsFrame beats) {k : Nat} {b : Beat}
    (hb : beats[k]? = some b) : b.last = true ↔ k + 1 = beats.length := by
  have hk := (List.getElem?_eq_some_iff.mp hb).1
  have hmark := congrArg (·[k]?) h.marked
  unfold endMarks at hmark
  rw [List.getElem?_map, hb, List.getElem?_map, Nat.sub_zero, List.getElem?_range' hk] at hmark
  simp only [Option.map_some, Option.some.injEq, Nat.zero_add, Nat.one_mul] at hmark
  rw [hmark, beq_iff_eq]

/-- The number of words of frame `k`. A transfer whose frame has not begun yet will take
one word at least. -/
def frameSize (frames : List (List Beat)) (k : Nat) : Nat :=
  (frames[k]?.map (·.length)).getD 1

/-- The number of words in front of frame `k`. -/
def frameStart (frames : List (List Beat)) (k : Nat) : Nat :=
  ((List.range k).map (frameSize frames)).sum

/-! ## Positions -/

section

variable {frames : List (List Beat)}

theorem frameStart_succ (frames : List (List Beat)) (k : Nat) :
    frameStart frames (k + 1) = frameStart frames k + frameSize frames k := by
  unfold frameStart
  rw [List.range_succ]
  simp

theorem frameStart_cons (frame : List Beat) (frames : List (List Beat)) (k : Nat) :
    frameStart (frame :: frames) (k + 1) = frame.length + frameStart frames k := by
  unfold frameStart
  rw [List.range_succ_eq_map, List.map_cons, List.sum_cons, List.map_map]
  rfl

theorem frameStart_mono {j k : Nat} (h : j ≤ k) : frameStart frames j ≤ frameStart frames k := by
  induction k with
  | zero => exact Nat.le_of_eq (by rw [Nat.le_zero.mp h])
  | succ k ih =>
      rcases Nat.lt_or_eq_of_le h with hlt | rfl
      · rw [frameStart_succ]
        exact Nat.le_trans (ih (Nat.le_of_lt_succ hlt)) (Nat.le_add_right _ _)
      · exact Nat.le_refl _

/-- As far as there are frames, their words are counted. -/
theorem frameStart_eq {k : Nat} (h : k ≤ frames.length) :
    frameStart frames k = (frames.take k).flatten.length := by
  induction frames generalizing k with
  | nil =>
      rw [Nat.le_zero.mp h]
      rfl
  | cons frame frames ih =>
      cases k with
      | zero => rfl
      | succ k =>
          rw [frameStart_cons, ih (Nat.le_of_succ_le_succ h)]
          simp

theorem length_take_flatten (frames : List (List Beat)) (k : Nat) :
    (frames.take k).flatten.length = frameStart frames (min k frames.length) := by
  rw [frameStart_eq (Nat.min_le_right _ _), ← List.take_eq_take_min]

/-- The first frames are a front of the stream. -/
theorem take_flatten_front (frames : List (List Beat)) (k : Nat) :
    (frames.take k).flatten <+: frames.flatten := by
  conv => rhs; rw [← List.take_append_drop k frames, List.flatten_append]
  exact List.prefix_append _ _

theorem frameSize_pos (hframes : ∀ f ∈ frames, IsFrame f) (k : Nat) :
    0 < frameSize frames k := by
  unfold frameSize
  cases hk : frames[k]? with
  | none => exact Nat.one_pos
  | some f => exact List.length_pos_iff.mpr (hframes f (List.mem_of_getElem? hk)).nonempty

theorem frameSize_lt (hframes : ∀ f ∈ frames, IsFrame f) (k : Nat) :
    frameSize frames k < limit32 := by
  unfold frameSize
  cases hk : frames[k]? with
  | none => exact (by decide : 1 < limit32)
  | some f => exact (hframes f (List.mem_of_getElem? hk)).short

/-- Where a stream of frames goes further, a frame has begun. -/
theorem lt_of_frameStart_lt {k : Nat}
    (h : frameStart frames k < frames.flatten.length) : k < frames.length := by
  have hall : frameStart frames frames.length = frames.flatten.length := by
    rw [frameStart_eq (Nat.le_refl _), List.take_length]
  by_cases hk : k < frames.length
  · exact hk
  · have hmono : frameStart frames frames.length ≤ frameStart frames k :=
      frameStart_mono (Nat.le_of_not_lt hk)
    omega

/-- A beat of a frame is marked exactly if it is the last one. -/
theorem mark_of_frame (hframes : ∀ f ∈ frames, IsFrame f) {k m : Nat} {b : Beat}
    (hm : m < frameSize frames k) (hb : frames.flatten[frameStart frames k + m]? = some b) :
    b.last = true ↔ m + 1 = frameSize frames k := by
  induction frames generalizing k with
  | nil => simp at hb
  | cons frame frames ih =>
      cases k with
      | zero =>
          have hstart : frameStart (frame :: frames) 0 + m = m := Nat.zero_add m
          have hsize : frameSize (frame :: frames) 0 = frame.length := rfl
          rw [hsize] at hm ⊢
          rw [hstart, List.flatten_cons, List.getElem?_append_left hm] at hb
          exact (hframes frame List.mem_cons_self).last_iff hb
      | succ k =>
          have hsize : frameSize (frame :: frames) (k + 1) = frameSize frames k := rfl
          rw [hsize] at hm ⊢
          rw [frameStart_cons, List.flatten_cons, Nat.add_assoc,
            List.getElem?_append_right (Nat.le_add_right _ _), Nat.add_sub_cancel_left] at hb
          exact ih (fun f hf => hframes f (List.mem_cons_of_mem _ hf)) hm hb

end

/-! ## The rest of a frame in a buffer -/

/-- The next `left` beats are the rest of a frame. -/
def FrameAhead (left : Nat) (beats : List Beat) : Prop :=
  ∀ (j : Nat) (b : Beat), beats[j]? = some b → j < left → (b.last = true ↔ j + 1 = left)

namespace Fifo

variable {f : Fifo} {left : Nat}

/-- With the end of the frame inside, the buffer holds the rest of the frame. -/
theorem length_of_held (h : f.Latched) (ha : FrameAhead left f.beats) (hpos : 0 < left)
    (ho : f.frameHeld = true) : f.beats.length = left := by
  obtain ⟨b, hb, hlast⟩ := h.held ho
  have hlt := (List.getElem?_eq_some_iff.mp hb).1
  by_cases hin : f.beats.length - 1 < left
  · have := (ha _ b hb hin).mp hlast
    omega
  · -- an earlier beat would end the frame, and nothing is kept behind such a beat
    have hlt' : left - 1 < f.beats.length := by omega
    have hb' : f.beats[left - 1]? = some f.beats[left - 1] := List.getElem?_eq_getElem hlt'
    have hlast' := (ha _ _ hb' (by omega)).mpr (by omega)
    have := h.newest _ _ hb' hlast'
    omega

/-- Without it, some of the frame is still to come. -/
theorem length_of_open (h : f.Latched) (hl : f.frameLatch = true)
    (ha : FrameAhead left f.beats) (hpos : 0 < left) (ho : f.frameHeld = false) :
    f.beats.length < left := by
  by_cases hin : f.beats.length < left
  · exact hin
  · have hlt' : left - 1 < f.beats.length := by omega
    have hb' : f.beats[left - 1]? = some f.beats[left - 1] := List.getElem?_eq_getElem hlt'
    have hlast' := (ha _ _ hb' (by omega)).mpr (by omega)
    have := h.open hl ho _ (List.getElem_mem hlt')
    rw [hlast'] at this
    cases this

end Fifo

/-- **In frame mode bursts are sized right.** -/
theorem WriteCore.sizedRight_of_frame {g : Geometry} {left : Nat} {c : WriteCore} {f : Fifo}
    {i : WriteInputs} (hs : c.Sound g left) (hm : c.frameMode = true) (hf : f.Latched)
    (hl : f.frameLatch = true) (ha : FrameAhead left f.beats) (hshort : left < limit32)
    (hlevel : i.fifoLevel = f.level) (hheld : i.frameHeld = f.frameHeld) :
    c.SizedRight left i := by
  intro hph burst finalBurst hsize
  obtain ⟨hpos, _⟩ := hs.busy (Or.inr (Or.inr hph))
  unfold sized? at hsize
  rw [hm, Bool.true_and, hheld, hlevel] at hsize
  cases ho : f.frameHeld with
  | true =>
      -- the buffer holds the rest of the frame, so its level is what is left
      have hlen := Fifo.length_of_held hf ha hpos ho
      have hexact : f.level = left := by
        unfold Fifo.level
        rw [hlen]
        exact Nat.mod_eq_of_lt hshort
      rw [ho, if_pos rfl, hexact] at hsize
      dsimp only at hsize
      split at hsize
      · cases hsize
        refine ⟨Nat.min_le_right _ _, ?_⟩
        rw [decide_eq_true_eq]
        omega
      · cases hsize
  | false =>
      -- more of the frame is to come than the buffer holds
      have hlen := Fifo.length_of_open hf hl ha hpos ho
      have hle := f.level_le
      rw [ho, if_neg Bool.false_ne_true] at hsize
      split at hsize
      · rename_i hcredit
        have hfit : c.candidate ≤ f.level := of_decide_eq_true hcredit
        cases hsize
        refine ⟨by omega, ?_⟩
        constructor
        · intro hc; cases hc
        · intro hc; omega
      · cases hsize

/-! ## The latch along a history -/

namespace Port

variable {s : Machine} {slave : ReadSlave} {i : Nat} {p p' : Port} {rstep : ReadStep}
  {wstep : WriteStep}

theorem latched_edge (hl : p.writeFifo.Latched) (hlatch : p.writeFifo.frameLatch = true)
    (h : p.Edge (s.readBus slave i p) (s.writeBus i p) rstep wstep p') :
    p'.writeFifo.Latched := by
  obtain ⟨f, b, hpop, hfill⟩ := h.fill
  -- what the writer takes out leaves the latch in order
  have hpopped : f.Latched ∧ f.frameLatch = true := by
    split at hpop
    · obtain ⟨⟨a, f'⟩, hf, rfl⟩ := except_map_eq_ok.mp hpop
      obtain ⟨_, _, _, hsame, _⟩ := Fifo.pop_eq_ok hf
      exact ⟨Fifo.latched_pop hl hf, hsame.trans hlatch⟩
    · cases hpop
      exact ⟨hl, hlatch⟩
  rcases Source.tick_eq hfill with ⟨_, hsame⟩ | ⟨a, _, hpush⟩
  · rw [hsame]
    exact hpopped.1
  · exact Fifo.latched_push hpopped.1 hpopped.2 hpush

end Port

end BurstDma
