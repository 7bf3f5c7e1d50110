import BurstDma.Proofs.Buffer

/-!
# A buffer in use

A buffer decides by a counter whether a beat may enter, and the counter is kept beside the beats:
it goes up with an end of a frame that enters and down with one that leaves. Its user can push,
pop and clear in any order, and can be refused. **The counter is exact throughout**, so nothing
that the user does stops the model, a beat is refused for the two reasons there are and for no
other, and with the latch on the buffer holds beats of one frame.

What happened is kept as events. The beats that entered are those that went out again, in the
order in which they entered, and behind them the ones still inside.
-/

namespace BurstDma

/-- What can be done with a buffer. -/
inductive BufferAction where
  | push (b : Beat)
  | pop
  | clear
deriving Repr, DecidableEq

/-- What came of it. -/
inductive BufferEvent where
  | entered (b : Beat)
  | refused (b : Beat)
  | left (b : Beat)
  /-- There was no beat to take out. -/
  | empty
  | dropped (beats : List Beat)
deriving Repr, DecidableEq

namespace BufferEvent

/-- The beats that come into the buffer. -/
def ins : BufferEvent → List Beat
  | entered b => [b]
  | _ => []

/-- The beats that go out of it. -/
def outs : BufferEvent → List Beat
  | left b => [b]
  | dropped beats => beats
  | _ => []

end BufferEvent

namespace Fifo

/-- Does something with a buffer. -/
def act (f : Fifo) : BufferAction → Except Fault (BufferEvent × Fifo)
  | .push b =>
    match f.push? b with
    | some f' => .ok (.entered b, f')
    | none => .ok (.refused b, f)
  | .pop => do
    let (beat, f') ← f.pop
    match beat with
    | some b => return (.left b, f')
    | none => return (.empty, f')
  | .clear => .ok (.dropped f.beats, f.clear)

/-- Does one thing after another. -/
def play (f : Fifo) : List BufferAction → Except Fault (List BufferEvent × Fifo)
  | [] => .ok ([], f)
  | a :: rest => do
    let (e, f') ← f.act a
    let (events, last) ← f'.play rest
    return (e :: events, last)

/-! ## What is exact -/

/-- Why a beat is refused: there is no place left, or the latch holds an end of a frame. -/
def Refuses (f : Fifo) : Prop :=
  f.beats.length = f.capacity ∨ (f.frameLatch = true ∧ ∃ e ∈ f.beats, e.last = true)

/-- **A buffer says of itself what is in it**, and gives the beats as it got them. -/
structure Exact (f : Fifo) : Prop where
  ends : f.endsHeld = f.beats.countP (·.last)
  level : f.level = f.beats.length
  fits : f.beats.length ≤ f.capacity
  places : f.level + f.free = f.capacity
  /-- A beat that is refused changes nothing. -/
  refused : ∀ b, f.act (.push b) = .ok (.refused b, f) ↔ f.Refuses
  entered : ∀ b, ¬ f.Refuses → ∃ f', f.act (.push b) = .ok (.entered b, f')
    ∧ f'.beats = f.beats ++ [b]
  empty : f.beats = [] → f.act .pop = .ok (.empty, f)
  left : ∀ b rest, f.beats = b :: rest → ∃ f', f.act .pop = .ok (.left b, f') ∧ f'.beats = rest

/-- The frame of the beat at a place of a stream: so many frames end in front of it. -/
def frameAt (stream : List Beat) (k : Nat) : Nat :=
  (stream.take k).countP (·.last)

/-- **Of a stream the buffer holds beats of one frame**, from place `n` on: one of them at most
ends the frame, and that is the newest. -/
structure OneFrame (f : Fifo) (stream : List Beat) (n : Nat) : Prop where
  ends_le : f.endsHeld ≤ 1
  newest : ∀ (j : Nat) (b : Beat), f.beats[j]? = some b → b.last = true → j + 1 = f.beats.length
  same : ∀ k, k < f.beats.length → frameAt stream (n + k) = frameAt stream n

variable {f f' : Fifo} {b : Beat}

theorem Tallied.frameHeld_iff (h : f.Tallied) :
    f.frameHeld = true ↔ f.frameLatch = true ∧ ∃ e ∈ f.beats, e.last = true := by
  unfold frameHeld
  rw [Bool.and_eq_true, decide_eq_true_eq, h.ends, List.countP_pos_iff]

/-- A beat is refused for want of room or for the latch, and for nothing else. -/
theorem Tallied.canPush_eq_false_iff (h : f.Tallied) : f.canPush = false ↔ f.Refuses := by
  have hfull : ¬ f.beats.length < f.capacity ↔ f.beats.length = f.capacity := by
    have hfits := h.fits
    omega
  unfold canPush Refuses
  rw [Bool.and_eq_false_iff, decide_eq_false_iff_not, hfull, Bool.not_eq_false', h.frameHeld_iff]

/-- **What the count says is all that there is to know.** -/
theorem Tallied.exact (h : f.Tallied) (hcapacity : f.capacity < limit32) : f.Exact := by
  have hfits := h.fits
  have hlevel : f.level = f.beats.length := Nat.mod_eq_of_lt (by omega)
  have hclosed : ∀ b, f.push? b = none ↔ f.Refuses := fun b =>
    push?_eq_none_iff.trans h.canPush_eq_false_iff
  refine ⟨h.ends, hlevel, hfits, ?_, fun b => ?_, fun b hopen => ?_, fun hb => ?_,
    fun b rest hb => ?_⟩
  · rw [hlevel, free_eq_room hcapacity, room]
    omega
  · rw [← hclosed b, act]
    cases f.push? b with
    | none => exact iff_of_true rfl rfl
    | some f' => exact iff_of_false nofun nofun
  · cases hp : f.push? b with
    | none => exact absurd ((hclosed b).mp hp) hopen
    | some f' => exact ⟨f', by rw [act, hp], (push?_eq_some hp).2.1⟩
  · rw [act, Fifo.pop, hb]
    rfl
  · obtain ⟨beat, f', hp, _, htail⟩ := h.pop
    obtain ⟨_, hhead, _⟩ := pop_eq_ok hp
    rw [head?, hb] at hhead
    rw [hb] at htail
    rw [hhead] at hp
    exact ⟨f', by rw [act, hp]; rfl, htail⟩

/-- No frame ends in front of the newest beat. -/
theorem Latched.countP_take (h : f.Latched) {k : Nat} (hk : k < f.beats.length) :
    (f.beats.take k).countP (·.last) = 0 := by
  rw [List.countP_eq_zero]
  intro b hb hlast
  obtain ⟨j, hj⟩ := List.mem_iff_getElem?.mp hb
  have hlt : j < k := by
    have := (List.getElem?_eq_some_iff.mp hj).1
    rw [List.length_take] at this
    omega
  rw [List.getElem?_take_of_lt hlt] at hj
  have hnewest := h.newest j b hj hlast
  omega

theorem Latched.oneFrame (h : f.Latched) (before : List Beat) :
    f.OneFrame (before ++ f.beats) before.length where
  ends_le := by
    rw [h.ends]
    rcases Nat.eq_zero_or_pos f.beats.length with hnone | hsome
    · rw [List.length_eq_zero_iff.mp hnone]
      exact Nat.zero_le 1
    · have hfront := h.countP_take (Nat.sub_lt hsome Nat.one_pos)
      rw [← List.take_append_drop (f.beats.length - 1) f.beats, List.countP_append, hfront,
        Nat.zero_add]
      refine Nat.le_trans List.countP_le_length ?_
      rw [List.length_drop]
      omega
  newest := h.newest
  same k hk := by
    unfold frameAt
    rw [List.take_length_add_append, List.countP_append, h.countP_take hk, List.take_left]
    rfl

/-! ## What an action keeps -/

/-- What some events leave as it was, and how the beats moved in them. -/
structure Keeps (f : Fifo) (events : List BufferEvent) (f' : Fifo) : Prop where
  capacity : f'.capacity = f.capacity
  frameLatch : f'.frameLatch = f.frameLatch
  tallied : f'.Tallied
  latched : f.frameLatch = true → f.Latched → f'.Latched
  moved : f.beats ++ events.flatMap (·.ins) = events.flatMap (·.outs) ++ f'.beats

theorem Tallied.keeps_self (h : f.Tallied) : f.Keeps [] f :=
  ⟨rfl, rfl, h, fun _ hl => hl, List.append_nil _⟩

theorem Keeps.trans {events more : List BufferEvent} {last : Fifo} (h : f.Keeps events f')
    (h' : f'.Keeps more last) : f.Keeps (events ++ more) last where
  capacity := h'.capacity.trans h.capacity
  frameLatch := h'.frameLatch.trans h.frameLatch
  tallied := h'.tallied
  latched hon hl := h'.latched (h.frameLatch.trans hon) (h.latched hon hl)
  moved := by
    rw [List.flatMap_append, List.flatMap_append, ← List.append_assoc, h.moved, List.append_assoc,
      h'.moved, List.append_assoc]

/-- **Whatever is done with a buffer, something comes of it**, and the count stays exact. -/
theorem Tallied.act_ok (h : f.Tallied) (a : BufferAction) :
    ∃ e f', f.act a = .ok (e, f') ∧ f.Keeps [e] f' := by
  unfold act
  cases a with
  | push b =>
      dsimp only
      cases hp : f.push? b with
      | none => exact ⟨_, _, rfl, rfl, rfl, h, fun _ hl => hl, List.append_nil _⟩
      | some f' =>
          obtain ⟨_, hbeats, hcapacity, hlatch, _⟩ := push?_eq_some hp
          exact ⟨_, _, rfl, hcapacity, hlatch, h.push hp,
            fun hon hl => latched_push hl hon hp, hbeats.symm⟩
  | pop =>
      obtain ⟨beat, f', hp, htallied, _⟩ := h.pop
      obtain ⟨hbeats, _, hcapacity, hlatch, _⟩ := pop_eq_ok hp
      have hkept : f.frameLatch = true → f.Latched → f'.Latched := fun _ hl => latched_pop hl hp
      dsimp only
      rw [hp]
      cases beat with
      | none =>
          refine ⟨_, _, rfl, hcapacity, hlatch, htallied, hkept, ?_⟩
          rw [hbeats]
          exact List.append_nil _
      | some b =>
          refine ⟨_, _, rfl, hcapacity, hlatch, htallied, hkept, ?_⟩
          rw [hbeats]
          exact List.append_nil _
  | clear =>
      refine ⟨_, _, rfl, rfl, rfl, tallied_empty _ _, fun _ _ => latched_empty _ _, ?_⟩
      exact (List.append_nil _).trans ((List.append_nil _).trans (List.append_nil _)).symm

/-- **So it is with any number of actions.** -/
theorem Tallied.play_ok (h : f.Tallied) (actions : List BufferAction) :
    ∃ events last, f.play actions = .ok (events, last) ∧ f.Keeps events last := by
  induction actions generalizing f with
  | nil => exact ⟨[], f, rfl, h.keeps_self⟩
  | cons a actions ih =>
      obtain ⟨e, f', hact, hkeeps⟩ := h.act_ok a
      obtain ⟨events, last, hplay, hrest⟩ := ih hkeeps.tallied
      refine ⟨e :: events, last, ?_, hkeeps.trans hrest⟩
      exact except_bind_eq_ok.mpr ⟨_, hact, except_bind_eq_ok.mpr ⟨_, hplay, rfl⟩⟩

end Fifo

/-- **A buffer is exact whatever was done with it**: nothing of that stops the model, the beats
that entered are those that went out and behind them those inside, in their order, and with the
latch on those inside are of one frame. -/
theorem buffer_stays_exact (capacity : Nat) (frameLatch : Bool) (hcapacity : capacity < limit32)
    (actions : List BufferAction) :
    ∃ events f, ({ capacity, frameLatch } : Fifo).play actions = .ok (events, f)
      ∧ f.capacity = capacity ∧ f.frameLatch = frameLatch ∧ f.Exact
      ∧ events.flatMap (·.ins) = events.flatMap (·.outs) ++ f.beats
      ∧ (frameLatch = true →
          f.OneFrame (events.flatMap (·.ins)) (events.flatMap (·.outs)).length) := by
  obtain ⟨events, f, hplay, hkeeps⟩ := (Fifo.tallied_empty capacity frameLatch).play_ok actions
  have hmoved : events.flatMap (·.ins) = events.flatMap (·.outs) ++ f.beats := hkeeps.moved
  refine ⟨events, f, hplay, hkeeps.capacity, hkeeps.frameLatch,
    hkeeps.tallied.exact (hkeeps.capacity ▸ hcapacity), hmoved, fun hon => ?_⟩
  rw [hmoved]
  exact (hkeeps.latched hon (Fifo.latched_empty capacity frameLatch)).oneFrame _

/-- A frame of two beats that fills the latch, a beat of the next one that is refused, and the
same beat again once the frame has left. -/
theorem buffer_stays_exact_second_frame :
    (8 : Nat) < limit32
      ∧ ({ capacity := 8, frameLatch := true } : Fifo).play
          [.push ⟨1, false⟩, .push ⟨2, true⟩, .push ⟨3, false⟩, .pop, .pop, .push ⟨3, false⟩]
        = .ok ([.entered ⟨1, false⟩, .entered ⟨2, true⟩, .refused ⟨3, false⟩, .left ⟨1, false⟩,
            .left ⟨2, true⟩, .entered ⟨3, false⟩],
          { capacity := 8, frameLatch := true, beats := [⟨3, false⟩] })
      ∧ ({ capacity := 8, frameLatch := true, beats := [⟨3, false⟩] } : Fifo).Exact
      ∧ Fifo.OneFrame { capacity := 8, frameLatch := true, beats := [⟨3, false⟩] }
          [⟨1, false⟩, ⟨2, true⟩, ⟨3, false⟩] 2 := by
  obtain ⟨events, f, hplay, -, -, hexact, -, hframe⟩ :=
    buffer_stays_exact 8 true (by decide)
      [.push ⟨1, false⟩, .push ⟨2, true⟩, .push ⟨3, false⟩, .pop, .pop, .push ⟨3, false⟩]
  have hrun : ({ capacity := 8, frameLatch := true } : Fifo).play
      [.push ⟨1, false⟩, .push ⟨2, true⟩, .push ⟨3, false⟩, .pop, .pop, .push ⟨3, false⟩]
      = .ok ([.entered ⟨1, false⟩, .entered ⟨2, true⟩, .refused ⟨3, false⟩, .left ⟨1, false⟩,
          .left ⟨2, true⟩, .entered ⟨3, false⟩],
        { capacity := 8, frameLatch := true, beats := [⟨3, false⟩] }) := rfl
  rw [hrun] at hplay
  cases hplay
  exact ⟨by decide, hrun, hexact, hframe rfl⟩

end BurstDma
