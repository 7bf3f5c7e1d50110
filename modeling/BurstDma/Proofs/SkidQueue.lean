import BurstDma.Proofs.Buffer

/-!
# Two places make a queue

A skid buffer is used from two sides, and both look at it before the clock edge: the sender hands
over to a buffer that is ready, and the receiver takes what is offered. In one edge the taken
payload leaves, the one behind it moves up, and the arriving one goes to the first place that is
free. **Whatever the two sides do in any number of edges, the buffer is the queue of what was
handed over and not yet taken**, with two places, and it is never overrun.

The argument turns on the order of the places: the second is used only behind the first
(`Skid.Packed`), so a buffer that is not ready is full, and one that offers nothing is empty.
-/

namespace BurstDma

/-- What passes the two sides of a skid buffer in a clock edge. -/
structure SkidEdge (α : Type) where
  /-- What the sender hands over. -/
  pushed : Option α := none
  /-- Whether the receiver takes what is offered. -/
  popped : Bool := false
deriving Repr, DecidableEq

namespace Skid

variable {α : Type}

/-- What the receiver gets in a clock edge. -/
def taken (s : Skid α) (e : SkidEdge α) : Option α :=
  if e.popped then s.peek else none

/-- One clock edge after another, with what the receiver got in them. -/
def play (s : Skid α) : List (SkidEdge α) → Except Fault (List α × Skid α)
  | [] => .ok ([], s)
  | e :: rest => do
    let s' ← s.tick e.pushed e.popped
    let (got, last) ← s'.play rest
    return ((s.taken e).toList ++ got, last)

/-- Both sides heed what the buffer shows before the edge. -/
structure Allows (s : Skid α) (e : SkidEdge α) : Prop where
  pushed : e.pushed.isSome = true → s.ready = true
  popped : e.popped = true → s.peek.isSome = true

/-- Both sides heed it in one edge after another, as far as the buffer comes. -/
def Heeded (s : Skid α) : List (SkidEdge α) → Prop
  | [] => True
  | e :: rest => s.Allows e ∧ ∀ s', s.tick e.pushed e.popped = .ok s' → s'.Heeded rest

/-- **A buffer shows itself as a queue of two places.** -/
structure TwoPlaces (s : Skid α) : Prop where
  /-- The second place is used only behind the first. -/
  packed : s.second.isSome = true → s.first.isSome = true
  /-- The oldest payload is offered. -/
  offered : s.peek = s.contents.head?
  /-- It is ready as long as there is a free place. -/
  ready : s.ready = true ↔ s.size ≤ 1
  fits : s.size ≤ 2

variable {s s' : Skid α} {e : SkidEdge α}

theorem Packed.twoPlaces (h : s.Packed) : s.TwoPlaces := by
  refine ⟨h, h.peek_eq, ?_, ?_⟩
  · unfold size
    cases hp : s.peek with
    | none =>
        rw [eq_of_empty (empty_of_packed h hp)]
        exact iff_of_true rfl (Nat.zero_le 1)
    | some a =>
        rw [contents_of_peek hp, Skid.ready]
        cases s.second <;> simp
  · obtain ⟨first, second⟩ := s
    cases first <;> cases second <;> simp [size, contents]

/-! ## What an edge keeps -/

/-- What some edges leave of a buffer, and what came out in them: the receiver got one payload for
each time it took one. -/
structure Passes (s : Skid α) (edges : List (SkidEdge α)) (got : List α) (s' : Skid α) :
    Prop where
  packed : s'.Packed
  moved : s.contents ++ edges.flatMap (·.pushed.toList) = got ++ s'.contents
  length : got.length = edges.countP (·.popped)

theorem Packed.passes_nil (h : s.Packed) : s.Passes [] [] s :=
  ⟨h, List.append_nil _, rfl⟩

theorem Passes.trans {edges more : List (SkidEdge α)} {got later : List α} {last : Skid α}
    (h : s.Passes edges got s') (h' : s'.Passes more later last) :
    s.Passes (edges ++ more) (got ++ later) last where
  packed := h'.packed
  moved := by
    rw [List.flatMap_append, ← List.append_assoc, h.moved, List.append_assoc, h'.moved,
      List.append_assoc]
  length := by rw [List.length_append, List.countP_append, h.length, h'.length]

/-- **An edge that both sides heed is never refused**, and passes on what is taken. -/
theorem Packed.tick_passes (h : s.Packed) (ha : s.Allows e) :
    ∃ s', s.tick e.pushed e.popped = .ok s' ∧ s.Passes [e] (s.taken e).toList s' := by
  obtain ⟨s', ht⟩ := tick_ok e.popped ha.pushed
  obtain ⟨hpacked, hmoved⟩ := tick_contents h ha.popped ht
  refine ⟨s', ht, hpacked, ?_, ?_⟩
  · rw [List.flatMap_cons, List.flatMap_nil, List.append_nil]
    exact hmoved
  · unfold taken
    cases hp : e.popped with
    | false => simp [hp]
    | true =>
        obtain ⟨a, hoffered⟩ := Option.isSome_iff_exists.mp (ha.popped hp)
        simp [hp, hoffered]

/-- **So it is with any number of edges.** -/
theorem Packed.play_passes (h : s.Packed) {edges : List (SkidEdge α)} (hh : s.Heeded edges) :
    ∃ got last, s.play edges = .ok (got, last) ∧ s.Passes edges got last := by
  induction edges generalizing s with
  | nil => exact ⟨[], s, rfl, h.passes_nil⟩
  | cons e edges ih =>
      obtain ⟨ha, hrest⟩ := hh
      -- what is heeded later is known only of a buffer that came through this edge
      obtain ⟨s', ht, hpasses⟩ := h.tick_passes ha
      obtain ⟨got, last, hplay, hlater⟩ := ih hpasses.packed (hrest s' ht)
      refine ⟨(s.taken e).toList ++ got, last, ?_, hpasses.trans hlater⟩
      exact except_bind_eq_ok.mpr ⟨s', ht, except_bind_eq_ok.mpr ⟨(got, last), hplay, rfl⟩⟩

end Skid

/-- **A skid buffer is a queue of two places**: as long as both sides heed what it shows, it is
never overrun, the payloads that were taken and behind them those inside are those that were
handed over, in their order, and it is ready as long as it holds one payload at most. -/
theorem skid_is_two_place_queue {α : Type} (edges : List (SkidEdge α))
    (h : ({} : Skid α).Heeded edges) :
    ∃ got s, ({} : Skid α).play edges = .ok (got, s)
      ∧ got ++ s.contents = edges.flatMap (·.pushed.toList)
      ∧ got.length = edges.countP (·.popped) ∧ s.TwoPlaces := by
  obtain ⟨got, s, hplay, hpasses⟩ := Skid.packed_empty.play_passes h
  exact ⟨got, s, hplay, hpasses.moved.symm, hpasses.length, hpasses.packed.twoPlaces⟩

/-- Two payloads fill the buffer, the first is taken, and in one edge the second is taken while a
third arrives. -/
theorem skid_is_two_place_queue_stalled :
    ({} : Skid Nat).Heeded [⟨some 1, false⟩, ⟨some 2, false⟩, ⟨none, true⟩, ⟨some 3, true⟩]
      ∧ ({} : Skid Nat).play [⟨some 1, false⟩, ⟨some 2, false⟩, ⟨none, true⟩, ⟨some 3, true⟩]
        = .ok ([1, 2], { first := some 3 })
      ∧ [1, 2] ++ ({ first := some 3 } : Skid Nat).contents = [1, 2, 3]
      ∧ ({ first := some 3 } : Skid Nat).TwoPlaces := by
  have hheeded : ({} : Skid Nat).Heeded
      [⟨some 1, false⟩, ⟨some 2, false⟩, ⟨none, true⟩, ⟨some 3, true⟩] := by
    refine ⟨⟨fun _ => rfl, nofun⟩, fun s₁ h₁ => ?_⟩
    cases h₁
    refine ⟨⟨fun _ => rfl, nofun⟩, fun s₂ h₂ => ?_⟩
    cases h₂
    refine ⟨⟨nofun, fun _ => rfl⟩, fun s₃ h₃ => ?_⟩
    cases h₃
    exact ⟨⟨fun _ => rfl, fun _ => rfl⟩, fun _ _ => trivial⟩
  obtain ⟨got, s, hplay, hmoved, -, hplaces⟩ := skid_is_two_place_queue _ hheeded
  have hrun : ({} : Skid Nat).play
      [⟨some 1, false⟩, ⟨some 2, false⟩, ⟨none, true⟩, ⟨some 3, true⟩]
      = .ok ([1, 2], { first := some 3 }) := rfl
  rw [hrun] at hplay
  cases hplay
  exact ⟨hheeded, hrun, hmoved, hplaces⟩

end BurstDma
