import BurstDma.Queue.Skid
import BurstDma.Stream.Endpoint
import BurstDma.Proofs.Result

/-!
# Buffers keep what passes through them

Every buffer here is a queue, and one law covers all of them: **what was inside,
followed by what came in, is what went out, followed by what is inside now.** A skid
buffer says it about a clock edge, a stream buffer about each of its two operations, and
the two ends of a stream about a cycle.
-/

namespace BurstDma

namespace Skid

variable {α : Type}

/-- The second place is used only while the first one is. -/
def Packed (s : Skid α) : Prop :=
  s.second.isSome → s.first.isSome

theorem packed_empty : Packed ({} : Skid α) := by
  intro h; cases h

/-- What is offered stands in front of what is inside. -/
theorem contents_of_peek {s : Skid α} {a : α} (h : s.peek = some a) :
    s.contents = a :: s.second.toList := by
  have hfirst : s.first = some a := h
  rw [contents, hfirst]
  rfl

/-- A buffer that offers nothing holds nothing. -/
theorem empty_of_packed {s : Skid α} (hs : s.Packed) (h : s.peek = none) : s.contents = [] := by
  have hfirst : s.first = none := h
  have hsecond : s.second = none := by
    cases hc : s.second with
    | none => rfl
    | some a =>
        have hsome := hs (congrArg Option.isSome hc)
        rw [hfirst] at hsome
        cases hsome
  rw [contents, hfirst, hsecond]
  rfl

/-- **The oldest payload is offered.** -/
theorem Packed.peek_eq {s : Skid α} (hs : s.Packed) : s.peek = s.contents.head? := by
  cases hp : s.peek with
  | none =>
      rw [empty_of_packed hs hp]
      rfl
  | some a =>
      rw [contents_of_peek hp]
      rfl

theorem eq_of_empty {s : Skid α} (h : s.contents = []) : s = {} := by
  obtain ⟨hfirst, hsecond⟩ := List.append_eq_nil_iff.mp h
  obtain ⟨first, second⟩ := s
  rw [Option.toList_eq_nil_iff] at hfirst hsecond
  subst hfirst hsecond
  rfl

theorem isEmpty_iff {s : Skid α} : s.isEmpty = true ↔ s = {} := by
  obtain ⟨first, second⟩ := s
  cases first <;> cases second <;> simp [isEmpty]

/-- **A clock edge is refused in one case**: a payload arrives, both places are taken, and no
payload leaves. -/
theorem tick_eq_error_iff {s : Skid α} {pushed : Option α} {popped : Bool} {fault : Fault} :
    s.tick pushed popped = .error fault ↔
      pushed.isSome = true ∧ popped = false ∧ s.first.isSome = true ∧ s.second.isSome = true
        ∧ fault = .violation .skidOverrun := by
  obtain ⟨first, second⟩ := s
  cases pushed with
  | none => simp [tick]
  | some a =>
      cases popped with
      -- the second place is free then, whatever moved up to the first
      | true => cases second <;> simp [tick, drop, push]
      | false => cases first <;> cases second <;> simp [tick, drop, push, eq_comm]

/-- **A skid buffer that was ready takes what comes.** -/
theorem tick_ok {s : Skid α} {pushed : Option α} (popped : Bool)
    (h : pushed.isSome = true → s.ready = true) : ∃ s', s.tick pushed popped = .ok s' := by
  cases ht : s.tick pushed popped with
  | ok s' => exact ⟨s', rfl⟩
  | error fault =>
      obtain ⟨hpushed, _, _, hsecond, _⟩ := tick_eq_error_iff.mp ht
      have hfree := Option.isNone_iff_eq_none.mp (h hpushed)
      rw [hfree] at hsecond
      cases hsecond

/-- **A clock edge keeps the order of the payloads.** -/
theorem tick_contents {s s' : Skid α} {pushed : Option α} {popped : Bool} (hs : s.Packed)
    (hp : popped = true → s.first.isSome) (h : s.tick pushed popped = .ok s') :
    s'.Packed ∧
      s.contents ++ pushed.toList
        = (if popped then s.peek else none).toList ++ s'.contents := by
  obtain ⟨first, second⟩ := s
  cases first with
  | none =>
      cases eq_of_empty (empty_of_packed hs rfl)
      have hpop : popped = false := by
        cases popped with
        | false => rfl
        | true => exact absurd (hp rfl) (by simp)
      subst hpop
      cases pushed <;> cases h <;> simp [Packed, contents, drop]
  | some a =>
      cases popped <;> cases second <;> cases pushed <;> cases h <;>
        simp [Packed, contents, peek, drop]

end Skid

/-! ## Stream buffers -/

namespace Fifo

/-- The free places, without the bound of a word. -/
def room (f : Fifo) : Nat :=
  f.capacity - f.beats.length

theorem free_le_room (f : Fifo) : f.free ≤ f.room :=
  Nat.mod_le _ _

theorem free_eq_room {f : Fifo} (h : f.capacity < limit32) : f.free = f.room := by
  unfold free room
  exact Nat.mod_eq_of_lt (Nat.lt_of_le_of_lt (Nat.sub_le _ _) h)

theorem level_le (f : Fifo) : f.level ≤ f.beats.length :=
  Nat.mod_le _ _

theorem push?_eq_some {f f' : Fifo} {b : Beat} (h : f.push? b = some f') :
    f.canPush = true ∧ f'.beats = f.beats ++ [b] ∧ f'.capacity = f.capacity
      ∧ f'.frameLatch = f.frameLatch
      ∧ f'.endsHeld = f.endsHeld + (if b.last then 1 else 0) := by
  unfold push? at h
  split at h
  · rename_i hc
    cases h
    exact ⟨hc, rfl, rfl, rfl, rfl⟩
  · cases h

theorem push?_eq_none_iff {f : Fifo} {b : Beat} : f.push? b = none ↔ f.canPush = false := by
  unfold push?
  split
  · rename_i hc
    exact iff_of_false nofun (by rw [hc]; exact nofun)
  · rename_i hc
    exact iff_of_true rfl (Bool.eq_false_iff.mpr hc)

/-- Without the latch there is nothing but the capacity to refuse a beat. -/
theorem push?_isSome {f : Fifo} (b : Beat) (hl : f.frameLatch = false) (hr : 0 < f.room) :
    ∃ f', f.push? b = some f' := by
  unfold room at hr
  have hc : f.canPush = true := by
    have hlt : f.beats.length < f.capacity := by omega
    simp [canPush, frameHeld, hl, hlt]
  exact ⟨_, if_pos hc⟩

theorem pop_eq_ok {f f' : Fifo} {b : Option Beat} (h : f.pop = .ok (b, f')) :
    f.beats = b.toList ++ f'.beats ∧ b = f.head? ∧ f'.capacity = f.capacity
      ∧ f'.frameLatch = f.frameLatch
      ∧ f.endsHeld = f'.endsHeld + (if b.any (·.last) then 1 else 0) := by
  unfold pop at h
  split at h
  · rename_i hnil
    cases h
    exact ⟨by simp, by simp [head?, hnil], rfl, rfl, by simp⟩
  · rename_i a rest hcons
    split at h
    · rename_i hlast
      obtain ⟨ends, he, h⟩ := except_bind_eq_ok.mp h
      obtain ⟨hle, rfl⟩ := Checked.sub_eq_ok_iff.mp he
      cases h
      refine ⟨by simp [hcons], by simp [head?, hcons], rfl, rfl, ?_⟩
      simp only [Option.any_some, hlast, if_true]
      omega
    · rename_i hlast
      cases h
      refine ⟨by simp [hcons], by simp [head?, hcons], rfl, rfl, ?_⟩
      simp [hlast]

/-- A buffer counts the ends of frames that it holds, and holds no more than it has places
for. -/
structure Tallied (f : Fifo) : Prop where
  ends : f.endsHeld = f.beats.countP (·.last)
  fits : f.beats.length ≤ f.capacity

theorem tallied_empty (capacity : Nat) (frameLatch : Bool) :
    Tallied { capacity, frameLatch } :=
  ⟨rfl, Nat.zero_le _⟩

theorem Tallied.push {f f' : Fifo} {b : Beat} (h : f.Tallied) (hp : f.push? b = some f') :
    f'.Tallied := by
  obtain ⟨hcan, hbeats, hcap, _, hends⟩ := push?_eq_some hp
  have hroom : f.beats.length < f.capacity := by
    unfold canPush at hcan
    rw [Bool.and_eq_true, decide_eq_true_eq] at hcan
    exact hcan.1
  refine ⟨?_, ?_⟩
  · rw [hends, hbeats, List.countP_append, h.ends, List.countP_singleton]
  · rw [hbeats, hcap, List.length_append]
    exact hroom

/-- **Taking a beat out never fails**: an end of a frame that leaves was counted. -/
theorem Tallied.pop {f : Fifo} (h : f.Tallied) :
    ∃ b f', f.pop = .ok (b, f') ∧ f'.Tallied ∧ f'.beats = f.beats.tail := by
  unfold Fifo.pop
  have hends := h.ends
  have hfits := h.fits
  cases hb : f.beats with
  | nil => exact ⟨none, f, rfl, h, by rw [hb]; rfl⟩
  | cons b rest =>
      rw [hb, List.countP_cons] at hends
      rw [hb, List.length_cons] at hfits
      cases hl : b.last with
      | true =>
          rw [hl, if_pos rfl] at hends
          have hsub : Checked.sub f.endsHeld 1 = .ok (f.endsHeld - 1) := if_pos (by omega)
          dsimp only
          rw [hl, if_pos rfl, hsub]
          refine ⟨_, _, rfl, ⟨?_, ?_⟩, rfl⟩
          · dsimp only; omega
          · exact Nat.le_of_succ_le hfits
      | false =>
          rw [hl] at hends
          dsimp only
          rw [hl, if_neg Bool.false_ne_true]
          exact ⟨_, _, rfl, ⟨hends, Nat.le_of_succ_le hfits⟩, rfl⟩

/-- A buffer with the frame latch holds at most one end of a frame, and nothing behind
it. -/
structure Latched (f : Fifo) : Prop where
  ends : f.endsHeld = f.beats.countP (·.last)
  newest : ∀ (j : Nat) (b : Beat), f.beats[j]? = some b → b.last = true →
    j + 1 = f.beats.length

theorem latched_empty (capacity : Nat) (frameLatch : Bool) :
    Latched { capacity, frameLatch } :=
  ⟨rfl, by intro j b hb; simp at hb⟩

/-- Without an end of a frame inside, no beat ends one. -/
theorem Latched.open {f : Fifo} (h : f.Latched) (hl : f.frameLatch = true)
    (ho : f.frameHeld = false) : ∀ b ∈ f.beats, b.last = false := by
  have hzero : f.endsHeld = 0 := by
    unfold frameHeld at ho
    rw [hl, Bool.true_and, decide_eq_false_iff_not] at ho
    omega
  intro b hb
  have hcount := h.ends
  rw [hzero] at hcount
  exact Bool.eq_false_iff.mpr (List.countP_eq_zero.mp hcount.symm b hb)

/-- With one inside, the newest beat is the one. -/
theorem Latched.held {f : Fifo} (h : f.Latched) (ho : f.frameHeld = true) :
    ∃ b, f.beats[f.beats.length - 1]? = some b ∧ b.last = true := by
  have hpos : 0 < f.endsHeld := by
    unfold frameHeld at ho
    rw [Bool.and_eq_true, decide_eq_true_eq] at ho
    exact ho.2
  rw [h.ends, List.countP_pos_iff] at hpos
  obtain ⟨b, hb, hlast⟩ := hpos
  obtain ⟨j, hj⟩ := List.mem_iff_getElem?.mp hb
  have hnewest := h.newest j b hj hlast
  refine ⟨b, ?_, hlast⟩
  rw [← hnewest, Nat.add_sub_cancel]
  exact hj

/-- **The latch keeps a second frame out.** -/
theorem latched_push {f f' : Fifo} {b : Beat} (h : f.Latched) (hl : f.frameLatch = true)
    (hp : f.push? b = some f') : f'.Latched := by
  obtain ⟨hcan, hbeats, _, _, hends⟩ := push?_eq_some hp
  have hopen : f.frameHeld = false := by
    unfold canPush at hcan
    rw [Bool.and_eq_true, Bool.not_eq_true'] at hcan
    exact hcan.2
  refine ⟨?_, ?_⟩
  · rw [hends, hbeats, List.countP_append, h.ends, List.countP_singleton]
  · intro j a ha hlast
    rw [hbeats, List.length_append, List.length_singleton]
    by_cases hj : j < f.beats.length
    · rw [hbeats, List.getElem?_append_left hj] at ha
      have := h.open hl hopen a (List.mem_of_getElem? ha)
      rw [hlast] at this
      cases this
    · have hlt := (List.getElem?_eq_some_iff.mp ha).1
      rw [hbeats, List.length_append, List.length_singleton] at hlt
      omega

theorem latched_pop {f f' : Fifo} {b : Option Beat} (h : f.Latched)
    (hp : f.pop = .ok (b, f')) : f'.Latched := by
  obtain ⟨hbeats, _, _, _, hends⟩ := pop_eq_ok hp
  cases b with
  | none =>
      have hsame : f'.beats = f.beats := by
        rw [hbeats]
        rfl
      refine ⟨?_, ?_⟩
      · have := h.ends
        rw [hends] at this
        rw [hsame, ← this]
        rfl
      · rw [hsame]
        exact h.newest
  | some a =>
      have hcons : f.beats = a :: f'.beats := hbeats
      refine ⟨?_, ?_⟩
      · have hcount := h.ends
        rw [hends, hcons, List.countP_cons] at hcount
        have hone : (some a).any (·.last) = a.last := rfl
        rw [hone] at hcount
        omega
      · intro j c hc hlast
        have hnewest := h.newest (j + 1) c (by rw [hcons]; exact hc) hlast
        rw [hcons, List.length_cons] at hnewest
        omega

end Fifo

namespace Source

/-- A cycle of the source: it rests, it finds nothing to do, or it moves a beat. -/
theorem tick_cases {s s' : Source} {f f' : Fifo} {b : Option Beat} (h : s.tick f = (b, s', f')) :
    (0 < s.wait ∧ s' = { s with wait := s.wait - 1 } ∧ f' = f)
      ∨ (s.wait = 0 ∧ (s.queue = [] ∨ f.canPush = false) ∧ s' = s ∧ f' = f)
      ∨ ∃ a rest, s.wait = 0 ∧ s.queue = a :: rest ∧ f.push? a = some f'
        ∧ s' = { s with queue := rest, pushed := s.pushed + 1, wait := s.throttle } := by
  unfold tick at h
  split at h
  · rename_i hw
    cases h
    exact Or.inl ⟨hw, rfl, rfl⟩
  · rename_i hw
    have hzero : s.wait = 0 := by omega
    split at h
    · rename_i hq
      cases h
      exact Or.inr (Or.inl ⟨hzero, Or.inl hq, rfl, rfl⟩)
    · rename_i a rest hq
      split at h
      · rename_i hp
        cases h
        exact Or.inr (Or.inl ⟨hzero, Or.inr (Fifo.push?_eq_none_iff.mp hp), rfl, rfl⟩)
      · rename_i g hg
        cases h
        exact Or.inr (Or.inr ⟨a, rest, hzero, hq, hg, rfl⟩)

/-- A cycle of the source moves at most one beat, from the queue into the buffer. -/
theorem tick_eq {s s' : Source} {f f' : Fifo} {b : Option Beat} (h : s.tick f = (b, s', f')) :
    (s'.queue = s.queue ∧ f' = f)
      ∨ ∃ a, s.queue = a :: s'.queue ∧ f.push? a = some f' := by
  rcases tick_cases h with ⟨_, rfl, rfl⟩ | ⟨_, _, rfl, rfl⟩ | ⟨a, rest, _, hq, hp, rfl⟩
  · exact Or.inl ⟨rfl, rfl⟩
  · exact Or.inl ⟨rfl, rfl⟩
  · exact Or.inr ⟨a, hq, hp⟩

theorem tick_shape {s s' : Source} {f f' : Fifo} {b : Option Beat}
    (h : s.tick f = (b, s', f')) :
    f'.capacity = f.capacity ∧ f'.frameLatch = f.frameLatch := by
  rcases tick_eq h with ⟨_, rfl⟩ | ⟨a, _, hp⟩
  · exact ⟨rfl, rfl⟩
  · obtain ⟨_, _, hc, hl, _⟩ := Fifo.push?_eq_some hp
    exact ⟨hc, hl⟩

end Source

namespace Sink

/-- A cycle of the sink: it rests, it finds nothing, or it takes a beat. -/
theorem tick_eq {s s' : Sink} {f f' : Fifo} {b : Option Beat}
    (h : s.tick f = .ok (b, s', f')) :
    (0 < s.wait ∧ s'.wait = s.wait - 1 ∧ f' = f)
      ∨ (s.wait = 0 ∧ f.beats = [] ∧ s' = s ∧ f' = f)
      ∨ (s.wait = 0 ∧ s'.wait = s.throttle ∧ ∃ a, f.pop = .ok (some a, f')) := by
  unfold tick at h
  split at h
  · rename_i hw
    cases h
    exact Or.inl ⟨hw, rfl, rfl⟩
  · rename_i hw
    have hzero : s.wait = 0 := by omega
    obtain ⟨⟨a, g⟩, hp, h⟩ := except_bind_eq_ok.mp h
    cases a with
    | none =>
        cases h
        refine Or.inr (Or.inl ⟨hzero, ?_, rfl, ?_⟩)
        · obtain ⟨_, hhead, _⟩ := Fifo.pop_eq_ok hp
          exact List.head?_eq_none_iff.mp hhead.symm
        · unfold Fifo.pop at hp
          split at hp
          · cases hp
            rfl
          · split at hp
            · obtain ⟨_, _, hp⟩ := except_bind_eq_ok.mp hp
              cases hp
            · cases hp
    | some a =>
        cases h
        exact Or.inr (Or.inr ⟨hzero, rfl, a, hp⟩)

/-- A cycle of the sink moves at most one beat, from the buffer to the beats kept. -/
theorem tick_contents {s s' : Sink} {f f' : Fifo} {b : Option Beat}
    (h : s.tick f = .ok (b, s', f')) :
    s'.received ++ f'.beats = s.received ++ f.beats ∧ f'.capacity = f.capacity
      ∧ f'.frameLatch = f.frameLatch ∧ f'.beats.length ≤ f.beats.length := by
  unfold tick at h
  split at h
  · cases h
    exact ⟨rfl, rfl, rfl, Nat.le_refl _⟩
  · obtain ⟨⟨a, g⟩, hp, h⟩ := except_bind_eq_ok.mp h
    obtain ⟨hb, _, hc, hl, _⟩ := Fifo.pop_eq_ok hp
    have hlen : g.beats.length ≤ f.beats.length := by
      rw [hb]; simp
    cases a with
    | none =>
        cases h
        exact ⟨by simp [hb], hc, hl, hlen⟩
    | some a =>
        cases h
        exact ⟨by simp [received, hb], hc, hl, hlen⟩

end Sink

/-! ## One cycle of a source or a sink -/

/-- What becomes of the rest of a source or a sink, in a clock edge or without one, and which
beats move. A rest begins with a beat that moves, and no beat moves while it lasts. -/
inductive Rests (throttle wait : Nat) : Bool → List Beat → Nat → Prop where
  | goes_on : Rests throttle wait true [] (wait - 1)
  | begins (b : Beat) : wait = 0 → Rests throttle wait true [b] throttle
  | stands : Rests throttle wait false [] wait

/-- A beat that cannot move begins no rest. -/
theorem Rests.ended {throttle wait : Nat} (h : wait = 0) : Rests throttle wait true [] wait := by
  have hrest : Rests throttle wait true [] (wait - 1) := .goes_on
  rwa [h] at hrest ⊢

/-- A source moved the beat `b`, if it moved one: the beat left its queue and entered the
buffer. -/
structure Source.Fed (s : Source) (f : Fifo) (b : Option Beat) (s' : Source) (f' : Fifo) :
    Prop where
  queue : s.queue = b.toList ++ s'.queue
  buffer : f'.beats = f.beats ++ b.toList
  pushed : s'.pushed = s.pushed + b.toList.length
  throttle : s'.throttle = s.throttle
  rest : Rests s.throttle s.wait true b.toList s'.wait

/-- A sink moved the beat `b`, if it moved one: the beat left the buffer and was kept. -/
structure Sink.Drained (s : Sink) (f : Fifo) (b : Option Beat) (s' : Sink) (f' : Fifo) :
    Prop where
  buffer : f.beats = b.toList ++ f'.beats
  received : s'.received = s.received ++ b.toList
  throttle : s'.throttle = s.throttle
  rest : Rests s.throttle s.wait true b.toList s'.wait

namespace Source

/-- A source that moves nothing stays as it is, but for its rest. -/
theorem fed_none {s : Source} {f : Fifo} (h : s.wait = 0) : s.Fed f none s f :=
  ⟨rfl, (List.append_nil _).symm, rfl, rfl, .ended h⟩

/-- **A beat that the buffer refuses stays where it is**, and any other that moves arrives. -/
theorem tick_fed {s s' : Source} {f f' : Fifo} {b : Option Beat} (h : s.tick f = (b, s', f')) :
    s.Fed f b s' f' := by
  unfold tick at h
  split at h
  · cases h
    exact ⟨rfl, (List.append_nil _).symm, rfl, rfl, .goes_on⟩
  · rename_i hw
    have hzero : s.wait = 0 := by omega
    split at h
    · cases h
      exact fed_none hzero
    · rename_i a rest hq
      split at h
      · cases h
        exact fed_none hzero
      · rename_i g hg
        cases h
        exact ⟨hq, (Fifo.push?_eq_some hg).2.1, rfl, rfl, .begins a hzero⟩

end Source

/-- **A beat that leaves the buffer is kept.** -/
theorem Sink.tick_drained {s s' : Sink} {f f' : Fifo} {b : Option Beat}
    (h : s.tick f = .ok (b, s', f')) : s.Drained f b s' f' := by
  unfold tick at h
  split at h
  · cases h
    exact ⟨rfl, (List.append_nil _).symm, rfl, .goes_on⟩
  · rename_i hw
    have hzero : s.wait = 0 := by omega
    obtain ⟨⟨a, g⟩, hp, h⟩ := except_bind_eq_ok.mp h
    have hbeats := (Fifo.pop_eq_ok hp).1
    cases a with
    | none =>
        cases h
        exact ⟨hbeats, (List.append_nil _).symm, rfl, .ended hzero⟩
    | some a =>
        cases h
        refine ⟨hbeats, ?_, rfl, .begins a hzero⟩
        simp [received]

end BurstDma
