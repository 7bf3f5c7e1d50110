import BurstDma.Proofs.Range
import BurstDma.Proofs.ReadPlan
import BurstDma.Proofs.RunLedger

/-!
# A reader keeps its account with any bus

The data of a read engine comes from elsewhere: from an arbiter and a memory in the machine,
from anything that keeps to the bus in general. All that an engine needs of it is that a beat
arrives only for a burst granted in an earlier cycle, in the order of the grants, and that the
end of each burst is marked. **Then the numbers of the engine are what happened on the bus**:
the words delivered are the beats that arrived in this transfer, the pending words and bursts
are what is due of the bursts granted, and the rest is what was not asked for. The three always
add up to the length.

The engine leaves a transfer only with nothing due, so no beat ever belongs to an earlier
transfer; that is why the end mark of a frame can be told from the number of beats alone.
-/

namespace BurstDma

/-- One clock edge of a read engine: what it was given and what it did. -/
structure ReadEdge where
  inputs : ReadInputs
  step : ReadStep
deriving Repr, DecidableEq

/-- The descriptor that was taken. -/
def ReadEdge.taken (e : ReadEdge) : Option Descriptor :=
  if e.step.taken then e.inputs.desc else none

namespace ReadCore

/-- The bursts granted so far. -/
def granted (past : List ReadEdge) : List Burst :=
  issued (past.map (·.step))

/-- The number of beats that arrived. -/
def returned (past : List ReadEdge) : Nat :=
  past.countP (·.inputs.beat.isSome)

/-- The words due, one number for each burst that has not returned as a whole. -/
def due (past : List ReadEdge) : List Nat :=
  Burst.due (granted past) (returned past)

/-- What a bus may give an engine: beats of the bursts granted, in their order and with the
end of each burst marked. Descriptors, the room in the buffer, the handshake of the address and
the responses are free. -/
structure Allowed (past : List ReadEdge) (i : ReadInputs) : Prop where
  /-- The length comes from a 32-bit register. -/
  desc : ∀ d ∈ i.desc, d.words < limit32
  /-- It is due, and it ends its burst exactly if nothing else of that burst is. -/
  beat : ∀ b ∈ i.beat, (due past).head?.map (· == 1) = some b.last

instance (past : List ReadEdge) (i : ReadInputs) : Decidable (Allowed past i) :=
  decidable_of_iff ((∀ d ∈ i.desc, d.words < limit32)
      ∧ ∀ b ∈ i.beat, (due past).head?.map (· == 1) = some b.last)
    ⟨fun h => ⟨h.1, h.2⟩, fun h => ⟨h.desc, h.beat⟩⟩

/-- The clock edges of an engine from reset on, on a bus that gives what it may. -/
inductive Edges (g : Geometry) : List ReadEdge → ReadCore → Prop where
  | reset : Edges g [] {}
  | edge {past : List ReadEdge} {c c' : ReadCore} {i : ReadInputs} {step : ReadStep} :
      Edges g past c → Allowed past i → (c.next g i).result = .ok (c', step) →
      Edges g (past ++ [⟨i, step⟩]) c'

variable {g : Geometry} {past : List ReadEdge} {c c' : ReadCore} {i : ReadInputs}
  {step : ReadStep} {d : Descriptor} {during : List ReadEdge}

theorem granted_concat (past : List ReadEdge) (e : ReadEdge) :
    granted (past ++ [e]) = granted past ++ e.step.issued.toList := by
  rw [granted, List.map_append, List.map_singleton, issued_concat]
  rfl

theorem returned_concat (past : List ReadEdge) (e : ReadEdge) :
    returned (past ++ [e]) = returned past + if e.inputs.beat.isSome then 1 else 0 := by
  rw [returned, List.countP_append, List.countP_singleton]
  rfl

/-- An allowed beat is of the burst in front. -/
theorem Allowed.front (hi : Allowed past i) {b : ReadBeat} (hb : i.beat = some b) :
    ∃ w behind, due past = w :: behind ∧ b.last = (w == 1) := by
  obtain ⟨w, hhead, hlast⟩ := Option.map_eq_some_iff.mp (hi.beat b hb)
  obtain ⟨behind, hdue⟩ := List.head?_eq_some_iff.mp hhead
  exact ⟨w, behind, hdue, hlast.symm⟩

theorem Allowed.due_ne_nil (hi : Allowed past i) (hb : i.beat.isSome = true) :
    due past ≠ [] := by
  obtain ⟨b, hb⟩ := Option.isSome_iff_exists.mp hb
  obtain ⟨w, behind, hdue, _⟩ := hi.front hb
  rw [hdue]
  exact List.cons_ne_nil _ _

/-- A beat that is allowed is awaited. -/
theorem Allowed.awaited (hi : Allowed past i)
    (ho : Burst.Orderly (granted past) (returned past)) :
    i.beat.toList.length ≤ (due past).sum := by
  cases hb : i.beat with
  | none => exact Nat.zero_le _
  | some b =>
      have hsome : due past ≠ [] := hi.due_ne_nil (by rw [hb]; rfl)
      exact Nat.le_trans (List.length_pos_iff.mpr hsome)
        (Burst.length_le_sum (Burst.due_pos ho.whole _))

/-- A burst is due until its last beat. -/
theorem Allowed.length_takeWord (hi : Allowed past i) :
    (if i.beat.isSome then Burst.takeWord (due past) else due past).length
      = (due past).length - if i.beat.any (·.last) then 1 else 0 := by
  cases hb : i.beat with
  | none => rfl
  | some b =>
      obtain ⟨w, behind, hdue, hlast⟩ := hi.front hb
      rw [hdue, Option.isSome_some, if_pos rfl, Burst.takeWord, Option.any_some, hlast]
      by_cases hw : w = 1
      · rw [hw]
        rfl
      · rw [if_neg hw, beq_eq_false_iff_ne.mpr hw]
        rfl

/-- The inputs as the engine reads them: an acceptance counts only for a request on offer. -/
def gated (c : ReadCore) (i : ReadInputs) : ReadInputs :=
  { i with arFires := i.arFires && c.phase == .issueBurst }

theorem gated_offered (c : ReadCore) (i : ReadInputs) :
    (c.gated i).arFires = true → c.phase = .issueBurst := by
  intro h
  exact beq_iff_eq.mp (Bool.and_eq_true_iff.mp h).2

/-- An acceptance without a request changes nothing. -/
theorem next_gated (g : Geometry) (c : ReadCore) (i : ReadInputs) :
    (c.next g (c.gated i)).result = (c.next g i).result := by
  have hrec : c.receive (c.gated i) = c.receive i := rfl
  have hproc : ∀ r push, (c.receive i).result = .ok (r, push) →
      proceed g c.pending r (c.gated i) = proceed g c.pending r i := by
    intro r push hr
    obtain ⟨⟨bursts, error, rfl⟩, _⟩ := receive_eq hr
    unfold proceed
    dsimp only
    cases hph : c.phase with
    | issueBurst =>
        have hsame : (c.gated i).arFires = i.arFires := by
          rw [gated, hph]
          exact Bool.and_true _
        rw [hsame]
    | _ => rfl
  unfold next
  rw [hrec, Run.result_bind, Run.result_bind]
  cases hr : (c.receive i).result with
  | error fault => rfl
  | ok received =>
      obtain ⟨r, push⟩ := received
      dsimp only [Except.bind]
      rw [hproc r push hr]

/-- The clock edge that some inputs make, if the bus may give them. -/
def attempt (g : Geometry) (past : List ReadEdge) (c : ReadCore) (i : ReadInputs) :
    Option (ReadEdge × ReadCore) :=
  if Allowed past i then (c.next g i).result.toOption.map fun (c', step) => (⟨i, step⟩, c')
  else none

theorem Edges.attempt {e : ReadEdge} (h : Edges g past c)
    (ha : ReadCore.attempt g past c i = some (e, c')) : Edges g (past ++ [e]) c' := by
  rw [ReadCore.attempt] at ha
  split at ha
  · rename_i hi
    obtain ⟨⟨next, step⟩, hnext, hsame⟩ := Option.map_eq_some_iff.mp ha
    cases hsame
    exact h.edge hi (ok_of_toOption hnext)
  · cases ha

/-- What the registers show of the newest transfer; before the first one they show none. -/
def Shows (g : Geometry) (c : ReadCore) : Option (Descriptor × List ReadEdge) → Prop
  | none => c.length = 0
  | some (d, during) =>
    d.words < limit32 ∧ c.length = d.words ∧ c.delivered = returned during
      ∧ c.addr + c.remaining * g.wordBytes = g.align d.start + d.words * g.wordBytes

/-- The numbers of a reader are what happened on its bus. -/
structure Accounted (g : Geometry) (past : List ReadEdge) (c : ReadCore) : Prop where
  sound : c.Sound (due past).sum
  bursts : c.pending.bursts = (due past).length
  orderly : Burst.Orderly (granted past) (returned past)
  sized : c.Sized
  shows : c.Shows g (newest ReadEdge.taken past)

theorem accounted_init (g : Geometry) : Accounted g [] {} :=
  ⟨sound_init, rfl, ⟨nofun, Nat.le_refl _⟩, sized_init, rfl⟩

/-- A clock edge takes the next transfer, or goes on with the newest one. -/
theorem Accounted.shows_next (ha : Accounted g past c) (hi : Allowed past i)
    (h : (c.next g i).result = .ok (c', step)) :
    c'.Shows g (newest ReadEdge.taken (past ++ [⟨i, step⟩])) := by
  have hgated := (next_gated g c i).trans h
  obtain ⟨hkept, hbegun⟩ := extent_next h
  obtain ⟨_, htransfer⟩ := next_transfer ha.sound (c.gated_offered i) hgated
  rcases htransfer with ⟨_, d, hbegins⟩ | hgo
  · obtain ⟨hdesc, htaken⟩ := hbegins.taken
    obtain ⟨d', hd', hlen, hstop⟩ := hbegun htaken
    have hsame : i.desc = some d := hdesc
    cases hsame.symm.trans hd'
    rw [newest_of_taken (show ReadEdge.taken ⟨i, step⟩ = some d from (if_pos htaken).trans hsame)]
    exact ⟨hi.desc d hsame, hlen, hbegins.delivered, hstop⟩
  · obtain ⟨hlen, hstop⟩ := hkept hgo.taken
    have hdelivered : c'.delivered = c.delivered + i.beat.toList.length := hgo.delivered
    have hshows := ha.shows
    rw [newest_of_going (show ReadEdge.taken ⟨i, step⟩ = none from
      if_neg (Bool.eq_false_iff.mp hgo.taken))]
    cases hnow : newest ReadEdge.taken past with
    | none =>
        rw [hnow] at hshows
        exact hlen.trans hshows
    | some now =>
        obtain ⟨d, during⟩ := now
        rw [hnow] at hshows
        obtain ⟨hwords, hlength, hcount, hend⟩ := hshows
        refine ⟨hwords, hlen.trans hlength, ?_, hstop.trans hend⟩
        rw [hdelivered, hcount, returned_concat, length_toList_eq]

/-- A burst that is granted was sized, and its request asks for its words. -/
theorem Accounted.issued_next (ha : Accounted g past c)
    (h : (c.next g i).result = .ok (c', step)) :
    (∀ b ∈ step.issued, 0 < b.words)
      ∧ c.asked (c.gated i) = (step.issued.toList.map (·.words)).sum := by
  have hoffered := c.gated_offered i
  rw [next_issued hoffered ((next_gated g c i).trans h), asked]
  cases hfire : (c.gated i).arFires with
  | false => exact ⟨nofun, rfl⟩
  | true =>
      have hph := hoffered hfire
      obtain ⟨hpos, _, _⟩ := ha.sized.burst (Or.inr (Or.inr hph))
      obtain ⟨_, hbeats⟩ := ha.sound.request (Or.inr hph)
      refine ⟨fun b hb => ?_, ?_⟩
      · cases hb
        exact hpos
      · rw [if_pos rfl, if_pos rfl, hbeats]
        rfl

/-- **A beat takes from the words due, and a grant adds to them.** -/
theorem Accounted.due_next (ha : Accounted g past c) (hi : Allowed past i)
    (h : (c.next g i).result = .ok (c', step)) :
    Burst.Orderly (granted (past ++ [⟨i, step⟩])) (returned (past ++ [⟨i, step⟩]))
      ∧ due (past ++ [⟨i, step⟩])
        = (if i.beat.isSome then Burst.takeWord (due past) else due past)
          ++ step.issued.toList.map (·.words) := by
  obtain ⟨hwhole, _⟩ := ha.issued_next h
  have hnext := ha.orderly.next hi.due_ne_nil hwhole
  rw [← granted_concat past ⟨i, step⟩, ← returned_concat past ⟨i, step⟩] at hnext
  exact hnext

/-- **A clock edge keeps the account.** -/
theorem Accounted.next (ha : Accounted g past c) (hi : Allowed past i)
    (h : (c.next g i).result = .ok (c', step)) : Accounted g (past ++ [⟨i, step⟩]) c' := by
  have hgated := (next_gated g c i).trans h
  have hoffered := c.gated_offered i
  obtain ⟨_, hasked⟩ := ha.issued_next h
  obtain ⟨horderly, hdue⟩ := ha.due_next hi h
  have hawaited := hi.awaited ha.orderly
  have hsum : (due (past ++ [⟨i, step⟩])).sum
      = (due past).sum + c.asked (c.gated i) - i.beat.toList.length := by
    rw [hdue, List.sum_append, ← hasked, length_toList_eq]
    have hpos : ∀ w ∈ due past, 0 < w := Burst.due_pos ha.orderly.whole _
    rw [length_toList_eq] at hawaited
    cases hbeat : i.beat.isSome with
    | false => rfl
    | true =>
        rw [hbeat] at hawaited
        rw [if_pos rfl, if_pos rfl, Burst.sum_takeWord hpos]
        exact (Nat.sub_add_comm hawaited).symm
  have hbursts : c'.pending.bursts = (due (past ++ [⟨i, step⟩])).length := by
    rw [hdue, List.length_append, hi.length_takeWord, List.length_map, ← ha.bursts,
      next_issued hoffered hgated, next_bursts hoffered hgated]
    cases (c.gated i).arFires <;> rfl
  refine ⟨?_, hbursts, horderly, ha.sized.next h, ha.shows_next hi h⟩
  rw [hsum]
  exact sound_next ha.sound hawaited hoffered hgated

theorem Edges.accounted (h : Edges g past c) : Accounted g past c := by
  induction h with
  | reset => exact accounted_init g
  | edge _ hi hnext ih => exact ih.next hi hnext

/-- At rest nothing is pending. -/
theorem Accounted.rest (ha : Accounted g past c) (hph : c.phase = .idle ∨ c.phase = .done) :
    c.pending = {} ∧ c.delivered = c.length ∧ c.remaining = 0 := by
  obtain ⟨hrem, hnone⟩ := ha.sound.resting hph
  have hacc := ha.sound.account
  have hwords : c.pending.words = 0 := ha.sound.pending.trans hnone
  have hfew := Burst.length_le_sum (Burst.due_pos ha.orderly.whole (returned past))
  have hbursts : c.pending.bursts = 0 := by
    rw [ha.bursts]
    exact Nat.le_zero.mp (Nat.le_trans hfew (Nat.le_of_eq hnone))
  refine ⟨?_, by omega, hrem⟩
  calc c.pending = ⟨c.pending.words, c.pending.bursts⟩ := rfl
    _ = {} := by rw [hwords, hbursts]

/-- A beat belongs to the newest transfer, which still lacks it. -/
theorem Accounted.push_next (ha : Accounted g past c) (hi : Allowed past i)
    (h : (c.next g i).result = .ok (c', step)) {b : ReadBeat} (hb : i.beat = some b) :
    ∃ d during, newest ReadEdge.taken past = some (d, during) ∧ returned during < d.words
      ∧ step.push = some ⟨b.data, returned during + 1 == d.words⟩ := by
  obtain ⟨hpush, _⟩ :=
    next_transfer ha.sound (c.gated_offered i) ((next_gated g c i).trans h)
  have hpush' : step.push = i.beat.map fun b => ⟨b.data, c.delivered + 1 == c.length⟩ := hpush
  have hawaited := hi.awaited ha.orderly
  have hacc := ha.sound.account
  have hshows := ha.shows
  rw [hb, Option.toList_some, List.length_singleton] at hawaited
  cases hnow : newest ReadEdge.taken past with
  | none =>
      -- no word is awaited before the first transfer
      rw [hnow] at hshows
      have hzero : c.length = 0 := hshows
      omega
  | some now =>
      obtain ⟨d, during⟩ := now
      rw [hnow] at hshows
      obtain ⟨_, hlength, hcount, _⟩ := hshows
      refine ⟨d, during, rfl, by omega, ?_⟩
      rw [hpush', hb, hcount, hlength]
      rfl

/-- An engine whose transfer ends below the top of the address space has a next state. -/
theorem Accounted.next_ok (ha : Accounted g past c) (hi : Allowed past i)
    (hrange : ∀ d during, newest ReadEdge.taken past = some (d, during) →
      g.align d.start + d.words * g.wordBytes < limit64) :
    ∃ c' step, (c.next g i).result = .ok (c', step) := by
  have hshows := ha.shows
  have hacc := ha.sound.account
  have hbursts : c.pending.bursts ≤ (due past).sum := by
    rw [ha.bursts]
    exact Burst.length_le_sum (Burst.due_pos ha.orderly.whole _)
  have hextent : c.length < limit32
      ∧ (c.phase = .issueBurst → c.addr + c.remaining * g.wordBytes < limit64) := by
    cases hnow : newest ReadEdge.taken past with
    | none =>
        rw [hnow] at hshows
        have hzero : c.length = 0 := hshows
        refine ⟨by rw [hzero]; decide, fun hph => ?_⟩
        have hpos := ha.sized.left (Or.inr (Or.inr (Or.inr (Or.inr hph))))
        omega
    | some now =>
        obtain ⟨d, during⟩ := now
        rw [hnow] at hshows
        obtain ⟨hwords, hlength, _, hstop⟩ := hshows
        rw [hlength, hstop]
        exact ⟨hwords, fun _ => hrange d during hnow⟩
  exact ha.sized.next_ok hextent.1 hextent.2 ha.sound (hi.awaited ha.orderly) hbursts

/-- **A read engine keeps its account on any bus** that returns what it was asked for, in
order. What was delivered, what is on its way and what was not asked for add up to the length;
what is on its way are the words and the bursts due. Each beat is passed on, and the one that
completes the transfer ends the frame. The engine is done only when the transfer is, and takes
nothing over into the next one; and until its transfer reaches the top of the address space, it
always has a next state. -/
theorem words_accounted (h : Edges g past c) :
    c.delivered + c.pending.words + c.remaining = c.length
      ∧ c.pending = ⟨(due past).sum, (due past).length⟩
      ∧ (∀ d during, newest ReadEdge.taken past = some (d, during) →
        c.length = d.words ∧ c.delivered = returned during)
      ∧ (c.phase = .done → c.pending = {} ∧ c.delivered = c.length ∧ c.remaining = 0)
      ∧ (c.phase = .idle → c.pending = {})
      ∧ (∀ i c' step, Allowed past i → (c.next g i).result = .ok (c', step) →
        (i.beat = none → step.push = none)
          ∧ ∀ b, i.beat = some b → ∃ d during, newest ReadEdge.taken past = some (d, during)
            ∧ returned during < d.words
            ∧ step.push = some ⟨b.data, returned during + 1 == d.words⟩)
      ∧ ∀ i, Allowed past i →
        (∀ d during, newest ReadEdge.taken past = some (d, during) →
          g.align d.start + d.words * g.wordBytes < limit64) →
        ∃ c' step, (c.next g i).result = .ok (c', step) := by
  have ha := h.accounted
  refine ⟨?_, ?_, ?_, fun hph => ha.rest (Or.inr hph), fun hph => (ha.rest (Or.inl hph)).1, ?_,
    fun i hi hrange => ha.next_ok hi hrange⟩
  · have hacc := ha.sound.account
    rw [ha.sound.pending]
    exact hacc
  · calc c.pending = ⟨c.pending.words, c.pending.bursts⟩ := rfl
      _ = ⟨(due past).sum, (due past).length⟩ := by rw [ha.sound.pending, ha.bursts]
  · intro d during hnow
    have hshows := ha.shows
    rw [hnow] at hshows
    obtain ⟨_, hlength, hcount, _⟩ := hshows
    exact ⟨hlength, hcount⟩
  · intro i c' step hi hnext
    refine ⟨fun hnone => ?_, fun b hb => ha.push_next hi hnext hb⟩
    obtain ⟨hpush, _⟩ :=
      next_transfer ha.sound (c.gated_offered i) ((next_gated g c i).trans hnext)
    have hpush' : step.push = i.beat.map fun b => ⟨b.data, c.delivered + 1 == c.length⟩ := hpush
    rw [hpush', hnone]
    rfl

/-- Three words from 16 bytes below a boundary on. The first of two words arrives in the cycle in
which the second burst is granted; the next one ends its burst, but not the frame. -/
theorem words_accounted_two_bursts :
    ∃ (past : List ReadEdge) (c c' : ReadCore) (step : ReadStep),
      Edges {} past c ∧ due past = [1, 1] ∧ c.pending = ⟨2, 2⟩
        ∧ c.delivered + c.pending.words + c.remaining = c.length
        ∧ Allowed past { beat := some ⟨0, 7, .okay, true⟩ }
        ∧ (c.next {} { beat := some ⟨0, 7, .okay, true⟩ }).result = .ok (c', step)
        ∧ step.push = some ⟨7, false⟩ := by
  obtain ⟨past, c, hrun, hseen⟩ := exists_run_of_seen (Edges {}) (attempt {})
    (fun _ _ _ _ _ => Edges.attempt) .reset
    [{ desc := some ⟨4080, 3, 16⟩ }, {}, {}, {}, { fifoFree := 16 },
      { arFires := true }, {}, {}, {}, {}, { fifoFree := 16 },
      { arFires := true, beat := some ⟨0, 5, .okay, false⟩ }]
    (fun (past, _) => due past = [1, 1]
      ∧ newest ReadEdge.taken past = some (⟨4080, 3, 16⟩, past.tail)
      ∧ returned past.tail = 1
      ∧ Allowed past { beat := some ⟨0, 7, .okay, true⟩ })
    (by decide +kernel)
  obtain ⟨hdue, hnow, hcount, hallowed⟩ := hseen
  obtain ⟨hsum, hpending, _, _, _, hpush, hgoes⟩ := words_accounted hrun
  have hrange : ∀ d during, newest ReadEdge.taken past = some (d, during) →
      Geometry.align {} d.start + d.words * Geometry.wordBytes {} < limit64 := by
    intro d during h
    cases hnow.symm.trans h
    decide
  obtain ⟨c', step, hnext⟩ := hgoes _ hallowed hrange
  obtain ⟨d, during, h, _, hbeat⟩ := (hpush _ c' step hallowed hnext).2 _ rfl
  cases hnow.symm.trans h
  refine ⟨past, c, c', step, hrun, hdue, ?_, hsum, hallowed, hnext, ?_⟩
  · rw [hpending, hdue]
    rfl
  · rw [hbeat, hcount]
    rfl

end ReadCore

end BurstDma
