import BurstDma.Engine.Reader
import BurstDma.Proofs.Place

/-!
# The account of a read engine

A read engine keeps three numbers of a transfer: the words it has delivered, the words
that are on their way, and the words it has not asked for. **They always add up to the
length of the transfer**, and the words on their way are exactly the ones that the
engine counts as pending.

`Sound` is that account, given how many words really are on their way; `Covered` says
that the buffer has room for all of them, and for the next burst once it is offered. The
moves of the engine are listed once, in `Moves`; everything else is a case analysis on
them.
-/

namespace BurstDma

namespace ReadCore

/-- What arrived in a cycle changes the count of what is on its way and of what has been
delivered, and nothing else that matters. -/
theorem receive_eq {c r : ReadCore} {i : ReadInputs} {push : Option Beat}
    (h : (c.receive i).result = .ok (r, push)) :
    (∃ bursts error, r = { c with
      pending := ⟨c.pending.words - i.beat.toList.length, bursts⟩
      delivered := c.delivered + i.beat.toList.length
      error })
      ∧ push = i.beat.map fun b => ⟨b.data, c.delivered + 1 == c.length⟩ := by
  unfold receive at h
  cases hb : i.beat with
  | none =>
      rw [hb] at h
      cases hc : i.clearError <;> rw [hc] at h <;> cases h <;> exact ⟨⟨_, _, rfl⟩, rfl⟩
  | some beat =>
      rw [hb] at h
      obtain ⟨pending, hp, h⟩ := Run.result_bind_eq_ok.mp h
      obtain ⟨delivered, hd, h⟩ := Run.result_bind_eq_ok.mp h
      obtain ⟨_, _, hp⟩ := Run.result_bind_eq_ok.mp hp
      obtain ⟨_, _, hp⟩ := Run.result_bind_eq_ok.mp hp
      obtain ⟨_, rfl⟩ := Checked.add_eq_ok_iff.mp hd
      cases hc : i.clearError <;> rw [hc] at h hp <;> cases hp <;> cases h <;>
        exact ⟨⟨_, _, rfl⟩, rfl⟩

/-- The moves of a read engine. `c` holds what arrived in the cycle, `before` is what was
on its way before. -/
inductive Moves (g : Geometry) (before : Pending) (c : ReadCore) (i : ReadInputs) :
    ReadCore → ReadStep → Prop where
  | rest : c.phase = .idle → i.desc = none → Moves g before c i c {}
  | take (d : Descriptor) : c.phase = .idle → i.desc = some d →
      Moves g before c i { c with
        phase := if d.words = 0 then .done else .sizing
        addr := g.align d.start
        length := d.words
        remaining := d.words
        delivered := 0
        maxBurst := clampBurst d.maxBurst } { taken := true }
  | size : c.phase = .sizing →
      Moves g before c i
        { c with phase := .clamping, candidate := burstCandidate c.remaining c.maxBurst } {}
  | clamp : c.phase = .clamping →
      Moves g before c i
        { c with phase := .encoding, burst := min c.candidate (g.wordsUntilBoundary c.addr) } {}
  | encode (request : AddrReq) : c.phase = .encoding →
      AddrReq.incrementing c.addr c.burst g = .ok request →
      Moves g before c i { c with phase := .waitForCredit, request } {}
  | grant : c.phase = .waitForCredit → before.words + c.burst ≤ i.fifoFree →
      Moves g before c i { c with phase := .issueBurst } {}
  | starve : c.phase = .waitForCredit → i.fifoFree < before.words + c.burst →
      Moves g before c i { c with phase := .waitForCredit } {}
  | stall : c.phase = .issueBurst → i.arFires = false → Moves g before c i c {}
  | issue : c.phase = .issueBurst → i.arFires = true → c.burst ≤ c.remaining →
      Moves g before c i { c with
        phase := .transferBurst
        pending := ⟨c.pending.words + c.burst, c.pending.bursts + 1⟩
        addr := c.addr + c.burst * g.wordBytes
        remaining := c.remaining - c.burst } { issued := some ⟨c.addr, c.burst⟩ }
  | again : c.phase = .transferBurst → 0 < c.remaining →
      Moves g before c i { c with phase := .sizing } {}
  | last : c.phase = .transferBurst → c.remaining = 0 →
      Moves g before c i { c with phase := .waitForCompletion } {}
  | await : c.phase = .waitForCompletion → c.pending.isIdle = false →
      Moves g before c i { c with phase := .waitForCompletion } {}
  | complete : c.phase = .waitForCompletion → c.pending.words = 0 →
      Moves g before c i { c with phase := .done } {}
  | settle : c.phase = .done → Moves g before c i { c with phase := .idle } {}

theorem proceed_moves {g : Geometry} {before : Pending} {c c' : ReadCore} {i : ReadInputs}
    {step : ReadStep} (h : proceed g before c i = .ok (c', step)) :
    Moves g before c i c' step := by
  unfold proceed at h
  cases hph : c.phase with
  | idle =>
      simp only [hph] at h
      cases hd : i.desc with
      | none =>
          rw [hd] at h
          cases h
          exact .rest hph hd
      | some d =>
          rw [hd] at h
          cases h
          exact .take d hph hd
  | sizing =>
      simp only [hph] at h
      cases h
      exact .size hph
  | clamping =>
      simp only [hph] at h
      cases h
      exact .clamp hph
  | encoding =>
      simp only [hph] at h
      obtain ⟨request, hr, h⟩ := except_bind_eq_ok.mp h
      cases h
      exact .encode request hph hr
  | waitForCredit =>
      simp only [hph] at h
      obtain ⟨granted, hg, h⟩ := except_bind_eq_ok.mp h
      obtain ⟨needed, hn, hg⟩ := except_bind_eq_ok.mp hg
      obtain ⟨_, rfl⟩ := Checked.add_eq_ok_iff.mp hn
      cases hg
      cases h
      split
      · rename_i hle
        exact .grant hph (of_decide_eq_true hle)
      · rename_i hle
        exact .starve hph (Nat.lt_of_not_le fun hc => hle (decide_eq_true hc))
  | issueBurst =>
      simp only [hph] at h
      split at h
      · rename_i hf
        obtain ⟨pending, hp, h⟩ := except_bind_eq_ok.mp h
        obtain ⟨addr, ha, h⟩ := except_bind_eq_ok.mp h
        obtain ⟨remaining, hr, h⟩ := except_bind_eq_ok.mp h
        obtain ⟨words, hw, hp⟩ := except_bind_eq_ok.mp hp
        obtain ⟨bursts, hb, hp⟩ := except_bind_eq_ok.mp hp
        obtain ⟨_, rfl⟩ := Checked.add_eq_ok_iff.mp hw
        obtain ⟨_, rfl⟩ := Checked.add_eq_ok_iff.mp hb
        obtain ⟨_, rfl⟩ := Checked.add_eq_ok_iff.mp ha
        obtain ⟨hle, rfl⟩ := Checked.sub_eq_ok_iff.mp hr
        cases hp
        cases h
        exact .issue hph hf hle
      · rename_i hf
        cases h
        exact .stall hph (Bool.eq_false_iff.mpr hf)
  | transferBurst =>
      simp only [hph] at h
      cases h
      split
      · rename_i hpos
        exact .again hph hpos
      · rename_i hpos
        exact .last hph (Nat.eq_zero_of_not_pos hpos)
  | waitForCompletion =>
      simp only [hph] at h
      cases h
      split
      · rename_i hidle
        simp only [Pending.isIdle, Bool.and_eq_true, beq_iff_eq] at hidle
        exact .complete hph hidle.1
      · rename_i hbusy
        exact .await hph (Bool.eq_false_iff.mpr hbusy)
  | done =>
      simp only [hph] at h
      cases h
      exact .settle hph

/-! ## The account -/

/-- The account of a reader with `awaited` words on their way. -/
structure Sound (awaited : Nat) (c : ReadCore) : Prop where
  pending : c.pending.words = awaited
  account : c.delivered + awaited + c.remaining = c.length
  /-- Nothing is left over from a transfer. -/
  resting : c.phase = .idle ∨ c.phase = .done → c.remaining = 0 ∧ awaited = 0
  waiting : c.phase = .waitForCompletion → c.remaining = 0
  /-- The request on offer is the burst that was sized. -/
  request : c.phase = .waitForCredit ∨ c.phase = .issueBurst →
    c.request.addr = c.addr ∧ c.request.beats = c.burst

section

variable {awaited : Nat} {c : ReadCore}

/-- In the phases between the waiting ones only the sums count. -/
theorem sound_of_busy (hp : c.pending.words = awaited)
    (ha : c.delivered + awaited + c.remaining = c.length)
    (hph : c.phase = .sizing ∨ c.phase = .clamping ∨ c.phase = .encoding
      ∨ c.phase = .transferBurst) : c.Sound awaited := by
  refine ⟨hp, ha, ?_, ?_, ?_⟩
  · rcases hph with hph | hph | hph | hph <;> rw [hph] <;> rintro (h | h) <;> cases h
  · rcases hph with hph | hph | hph | hph <;> rw [hph] <;> intro h <;> cases h
  · rcases hph with hph | hph | hph | hph <;> rw [hph] <;> rintro (h | h) <;> cases h

/-- While a request is made ready or offered, it is the burst that was sized. -/
theorem sound_of_request (hp : c.pending.words = awaited)
    (ha : c.delivered + awaited + c.remaining = c.length)
    (hph : c.phase = .waitForCredit ∨ c.phase = .issueBurst)
    (hreq : c.request.addr = c.addr ∧ c.request.beats = c.burst) : c.Sound awaited := by
  refine ⟨hp, ha, ?_, ?_, fun _ => hreq⟩
  · rcases hph with hph | hph <;> rw [hph] <;> rintro (h | h) <;> cases h
  · rcases hph with hph | hph <;> rw [hph] <;> intro h <;> cases h

/-- At the end of a transfer there is nothing to ask for. -/
theorem sound_of_asked (hp : c.pending.words = awaited)
    (ha : c.delivered + awaited + c.remaining = c.length) (hph : c.phase = .waitForCompletion)
    (hrem : c.remaining = 0) : c.Sound awaited := by
  refine ⟨hp, ha, ?_, fun _ => hrem, ?_⟩
  · rw [hph]
    rintro (h | h) <;> cases h
  · rw [hph]
    rintro (h | h) <;> cases h

/-- In rest nothing is on its way either. -/
theorem sound_of_rest (hp : c.pending.words = 0) (ha : c.delivered = c.length)
    (hph : c.phase = .idle ∨ c.phase = .done) (hrem : c.remaining = 0) : c.Sound 0 := by
  refine ⟨hp, by omega, fun _ => ⟨hrem, rfl⟩, fun _ => hrem, ?_⟩
  rcases hph with hph | hph <;> rw [hph] <;> rintro (h | h) <;> cases h

theorem sound_init : Sound 0 {} :=
  sound_of_rest rfl rfl (Or.inl rfl) rfl

end

/-- The words that a request fired in a cycle adds to those on their way. -/
def asked (c : ReadCore) (i : ReadInputs) : Nat :=
  if i.arFires then c.request.beats else 0

/-- **The account stays sound.** A beat arrives only while one is awaited, and a request
is accepted only while it is offered. -/
theorem sound_next {g : Geometry} {c c' : ReadCore} {i : ReadInputs} {step : ReadStep}
    {awaited : Nat} (hs : c.Sound awaited) (hb : i.beat.toList.length ≤ awaited)
    (hf : i.arFires = true → c.phase = .issueBurst)
    (h : (c.next g i).result = .ok (c', step)) :
    c'.Sound (awaited + c.asked i - i.beat.toList.length) := by
  obtain ⟨⟨r, push⟩, hrec, h⟩ := Run.result_bind_eq_ok.mp h
  obtain ⟨⟨core, st⟩, hproc, h⟩ := Run.result_bind_eq_ok.mp h
  cases h
  obtain ⟨⟨bursts, error, rfl⟩, _⟩ := receive_eq hrec
  obtain ⟨hpend, hacc, hrest, hwait, hreq⟩ := hs
  -- what arrives leaves the words on their way and joins the delivered ones
  have hway : c.pending.words - i.beat.toList.length = awaited - i.beat.toList.length := by
    rw [hpend]
  have hsum : c.delivered + i.beat.toList.length + (awaited - i.beat.toList.length)
      + c.remaining = c.length := by
    omega
  have hquiet : ∀ {ph : ReadPhase}, c.phase = ph → ph ≠ .issueBurst →
      awaited + c.asked i - i.beat.toList.length = awaited - i.beat.toList.length := by
    intro ph hph hne
    have hnone : c.asked i = 0 := if_neg fun hfire => hne (hph.symm.trans (hf hfire))
    rw [hnone, Nat.add_zero]
  cases proceed_moves hproc with
  | rest hph _ =>
      obtain ⟨hr, rfl⟩ := hrest (Or.inl hph)
      rw [hquiet hph nofun, Nat.zero_sub]
      exact sound_of_rest (by dsimp only; omega) (by dsimp only; omega) (Or.inl hph) hr
  | take d hph _ =>
      obtain ⟨_, rfl⟩ := hrest (Or.inl hph)
      have hnone : i.beat.toList.length = 0 := Nat.le_zero.mp hb
      rw [hquiet hph nofun, Nat.zero_sub]
      by_cases hz : d.words = 0
      · exact sound_of_rest (by dsimp only; omega) hz.symm (Or.inr (if_pos hz)) hz
      · exact sound_of_busy (by dsimp only; omega) (by dsimp only; omega) (Or.inl (if_neg hz))
  | size hph =>
      rw [hquiet hph nofun]
      exact sound_of_busy hway hsum (Or.inr (Or.inl rfl))
  | clamp hph =>
      rw [hquiet hph nofun]
      exact sound_of_busy hway hsum (Or.inr (Or.inr (Or.inl rfl)))
  | encode request hph hr =>
      obtain ⟨haddr, hbeats, _, _⟩ := AddrReq.incrementing_eq_ok hr
      rw [hquiet hph nofun]
      exact sound_of_request hway hsum (Or.inl rfl) ⟨haddr, hbeats⟩
  | grant hph _ =>
      rw [hquiet hph nofun]
      exact sound_of_request hway hsum (Or.inr rfl) (hreq (Or.inl hph))
  | starve hph _ =>
      rw [hquiet hph nofun]
      exact sound_of_request hway hsum (Or.inl rfl) (hreq (Or.inl hph))
  | stall hph hfire =>
      have hnone : c.asked i = 0 := if_neg (Bool.eq_false_iff.mp hfire)
      rw [hnone, Nat.add_zero]
      exact sound_of_request hway hsum (Or.inr hph) (hreq (Or.inr hph))
  | issue hph hfire hle =>
      obtain ⟨_, hbeats⟩ := hreq (Or.inr hph)
      have hburst : c.asked i = c.burst := (if_pos hfire).trans hbeats
      dsimp only at hle
      exact sound_of_busy (by dsimp only; omega) (by dsimp only; omega)
        (Or.inr (Or.inr (Or.inr rfl)))
  | again hph _ =>
      rw [hquiet hph nofun]
      exact sound_of_busy hway hsum (Or.inl rfl)
  | last hph hz =>
      rw [hquiet hph nofun]
      exact sound_of_asked hway hsum rfl hz
  | await hph _ =>
      rw [hquiet hph nofun]
      exact sound_of_asked hway hsum rfl (hwait hph)
  | complete hph hz =>
      have hrem := hwait hph
      have hnone : awaited - i.beat.toList.length = 0 := hway.symm.trans hz
      rw [hquiet hph nofun, hnone]
      exact sound_of_rest hz (by dsimp only; omega) (Or.inr rfl) hrem
  | settle hph =>
      obtain ⟨hr, rfl⟩ := hrest (Or.inr hph)
      rw [hquiet hph nofun, Nat.zero_sub]
      exact sound_of_rest (by dsimp only; omega) (by dsimp only; omega) (Or.inl rfl) hr

/-! ## What a clock edge does to a transfer -/

/-- What the reader still has to ask for. -/
def toAsk (g : Geometry) (c : ReadCore) : List Nat :=
  g.span c.addr c.remaining

/-- A clock edge begins a transfer. -/
structure Begins (g : Geometry) (i : ReadInputs) (d : Descriptor) (c' : ReadCore)
    (step : ReadStep) : Prop where
  taken : i.desc = some d ∧ step.taken = true
  toAsk : c'.toAsk g = g.span (g.align d.start) d.words
  length : c'.length = d.words
  delivered : c'.delivered = 0

/-- A clock edge goes on with a transfer. -/
structure Continues (g : Geometry) (c : ReadCore) (i : ReadInputs) (c' : ReadCore)
    (step : ReadStep) : Prop where
  taken : step.taken = false
  toAsk : c.toAsk g = (if i.arFires then c.request.addresses g else []) ++ c'.toAsk g
  length : c'.length = c.length
  delivered : c'.delivered = c.delivered + i.beat.toList.length

/-- A transfer begins in rest, and goes on in every other cycle. Whatever arrives goes to
the stream, and the last word of the transfer ends the frame. -/
theorem next_transfer {g : Geometry} {c c' : ReadCore} {i : ReadInputs} {step : ReadStep}
    {awaited : Nat} (hs : c.Sound awaited) (hf : i.arFires = true → c.phase = .issueBurst)
    (h : (c.next g i).result = .ok (c', step)) :
    step.push = (i.beat.map fun b => ⟨b.data, c.delivered + 1 == c.length⟩) ∧
      ((c.phase = .idle ∧ ∃ d, Begins g i d c' step) ∨ Continues g c i c' step) := by
  obtain ⟨⟨r, push⟩, hrec, h⟩ := Run.result_bind_eq_ok.mp h
  obtain ⟨⟨core, st⟩, hproc, h⟩ := Run.result_bind_eq_ok.mp h
  cases h
  obtain ⟨⟨bursts, error, rfl⟩, hpush⟩ := receive_eq hrec
  refine ⟨hpush, ?_⟩
  have hquiet : ∀ {ph : ReadPhase}, c.phase = ph → ph ≠ .issueBurst → i.arFires = false := by
    intro ph hph hne
    cases hfire : i.arFires with
    | false => rfl
    | true => exact absurd (hph.symm.trans (hf hfire)) hne
  -- outside `issueBurst` neither the address nor the rest of the transfer changes
  have still : ∀ {core : ReadCore} {st : ReadStep}, i.arFires = false → st.taken = false →
      core.addr = c.addr → core.remaining = c.remaining → core.length = c.length →
      core.delivered = c.delivered + i.beat.toList.length →
      Continues g c i core { st with push } := by
    intro core st hfire ht ha hr hl hd
    refine ⟨ht, ?_, hl, hd⟩
    unfold toAsk
    rw [hfire, ha, hr]
    rfl
  cases proceed_moves hproc with
  | take d hph hd => exact Or.inl ⟨hph, d, ⟨hd, rfl⟩, rfl, rfl, rfl⟩
  | issue hph hfire hle =>
      obtain ⟨haddr, hbeats⟩ := hs.request (Or.inr hph)
      dsimp only at hle
      refine Or.inr ⟨rfl, ?_, rfl, rfl⟩
      have hsplit : c.remaining = c.burst + (c.remaining - c.burst) := by omega
      unfold toAsk AddrReq.addresses
      rw [hfire, if_pos rfl, haddr, hbeats, hsplit, Geometry.span_add]
      dsimp only
      rw [Nat.add_sub_cancel_left]
  | stall hph hfire => exact Or.inr (still hfire rfl rfl rfl rfl rfl)
  | rest hph _ => exact Or.inr (still (hquiet hph nofun) rfl rfl rfl rfl rfl)
  | size hph => exact Or.inr (still (hquiet hph nofun) rfl rfl rfl rfl rfl)
  | clamp hph => exact Or.inr (still (hquiet hph nofun) rfl rfl rfl rfl rfl)
  | encode _ hph _ => exact Or.inr (still (hquiet hph nofun) rfl rfl rfl rfl rfl)
  | grant hph _ => exact Or.inr (still (hquiet hph nofun) rfl rfl rfl rfl rfl)
  | starve hph _ => exact Or.inr (still (hquiet hph nofun) rfl rfl rfl rfl rfl)
  | again hph _ => exact Or.inr (still (hquiet hph nofun) rfl rfl rfl rfl rfl)
  | last hph _ => exact Or.inr (still (hquiet hph nofun) rfl rfl rfl rfl rfl)
  | await hph _ => exact Or.inr (still (hquiet hph nofun) rfl rfl rfl rfl rfl)
  | complete hph _ => exact Or.inr (still (hquiet hph nofun) rfl rfl rfl rfl rfl)
  | settle hph => exact Or.inr (still (hquiet hph nofun) rfl rfl rfl rfl rfl)

/-- The descriptors that a clock edge took. -/
def taken (i : ReadInputs) (step : ReadStep) : List Descriptor :=
  (if step.taken then i.desc else none).toList

/-- The end marks of the words that have not arrived. -/
def marksLeft (c : ReadCore) : List Bool :=
  endMarks c.delivered c.length

/-- **A clock edge keeps the words in order.** What the reader had to ask for, and what it
takes on, is what it asks for now and what it still has to ask for; and the words that had
not arrived are the one that arrives now and those that have not arrived yet. -/
theorem next_flow {g : Geometry} {c c' : ReadCore} {i : ReadInputs} {step : ReadStep}
    {awaited : Nat} (hs : c.Sound awaited) (hb : i.beat.toList.length ≤ awaited)
    (hf : i.arFires = true → c.phase = .issueBurst)
    (h : (c.next g i).result = .ok (c', step)) :
    c.toAsk g ++ addressesOf g (whole (taken i step))
        = (if i.arFires then c.request.addresses g else []) ++ c'.toAsk g
      ∧ c.marksLeft ++ marksOf (whole (taken i step))
        = step.push.toList.map (·.last) ++ c'.marksLeft
      ∧ step.push.toList.map (·.data) = i.beat.toList.map (·.data)
      ∧ c'.length = ((taken i step).getLast?.map (·.words)).getD c.length := by
  obtain ⟨hpush, hcase⟩ := next_transfer hs hf h
  have hdata : step.push.toList.map (·.data) = i.beat.toList.map (·.data) := by
    rw [hpush]
    cases i.beat <;> rfl
  rcases hcase with ⟨hph, d, hbegin⟩ | hgo
  · obtain ⟨hrem, hzero⟩ := hs.resting (Or.inl hph)
    have hacc := hs.account
    have hnone : i.beat = none := by
      cases hbeat : i.beat with
      | none => rfl
      | some b =>
          rw [hbeat, Option.toList_some, List.length_singleton] at hb
          omega
    have hquiet : i.arFires = false := by
      cases hfire : i.arFires with
      | false => rfl
      | true =>
          have := hf hfire
          rw [hph] at this
          cases this
    obtain ⟨hdesc, htaken⟩ := hbegin.taken
    have htake : taken i step = [d] := by
      unfold taken
      rw [htaken, if_pos rfl, hdesc]
      rfl
    refine ⟨?_, ?_, hdata, ?_⟩
    · rw [htake, hquiet, hbegin.toAsk, toAsk, hrem]
      exact addressesOf_singleton g d d.words
    · rw [htake, hpush, hnone, marksLeft, marksLeft, hbegin.length, hbegin.delivered,
        endMarks_of_le (by omega)]
      simp [marksOf, whole]
    · rw [htake]
      exact hbegin.length
  · have htake : taken i step = [] := by
      unfold taken
      rw [hgo.taken]
      rfl
    rw [htake]
    refine ⟨?_, ?_, hdata, hgo.length⟩
    · rw [← hgo.toAsk]
      exact List.append_nil _
    · have hacc := hs.account
      rw [hpush, marksLeft, marksLeft, hgo.length, hgo.delivered]
      cases hbeat : i.beat with
      | none => simp [marksOf, whole]
      | some b =>
          rw [hbeat, Option.toList_some, List.length_singleton] at hb
          rw [endMarks_of_lt (by omega)]
          simp [marksOf, whole]

/-! ## The bursts on their way -/

theorem receive_bursts {c r : ReadCore} {i : ReadInputs} {push : Option Beat}
    (h : (c.receive i).result = .ok (r, push)) :
    r.pending.bursts = c.pending.bursts - if i.beat.any (·.last) then 1 else 0 := by
  unfold receive at h
  cases hb : i.beat with
  | none =>
      rw [hb] at h
      cases hc : i.clearError <;> rw [hc] at h <;> cases h <;> rfl
  | some beat =>
      rw [hb] at h
      obtain ⟨pending, hp, h⟩ := Run.result_bind_eq_ok.mp h
      obtain ⟨delivered, _, h⟩ := Run.result_bind_eq_ok.mp h
      obtain ⟨_, _, hp⟩ := Run.result_bind_eq_ok.mp hp
      obtain ⟨_, _, hp⟩ := Run.result_bind_eq_ok.mp hp
      show _ = _ - if beat.last then 1 else 0
      cases hl : beat.last <;> cases hc : i.clearError <;> rw [hc, hl] at hp <;> cases hp <;>
        cases h <;> rfl

/-- **The bursts are counted at their two ends**: one more with an accepted request, one
less with the last beat of a burst. -/
theorem next_bursts {g : Geometry} {c c' : ReadCore} {i : ReadInputs} {step : ReadStep}
    (hf : i.arFires = true → c.phase = .issueBurst) (h : (c.next g i).result = .ok (c', step)) :
    c'.pending.bursts = c.pending.bursts - (if i.beat.any (·.last) then 1 else 0)
      + if i.arFires then 1 else 0 := by
  obtain ⟨⟨r, push⟩, hrec, h⟩ := Run.result_bind_eq_ok.mp h
  obtain ⟨⟨core, st⟩, hproc, h⟩ := Run.result_bind_eq_ok.mp h
  cases h
  have hr := receive_bursts hrec
  obtain ⟨⟨bursts, error, rfl⟩, _⟩ := receive_eq hrec
  have hquiet : ∀ {ph : ReadPhase}, c.phase = ph → ph ≠ .issueBurst → i.arFires = false := by
    intro ph hph hne
    cases hfire : i.arFires with
    | false => rfl
    | true => exact absurd (hph.symm.trans (hf hfire)) hne
  -- only an accepted request adds a burst
  have still : ∀ {core : ReadCore}, core.pending.bursts = bursts → i.arFires = false →
      core.pending.bursts = c.pending.bursts - (if i.beat.any (·.last) then 1 else 0)
        + if i.arFires then 1 else 0 := by
    intro core hkept hfire
    rw [hkept, hfire]
    exact hr
  cases proceed_moves hproc with
  | issue _ hfire _ =>
      rw [hfire, if_pos rfl]
      exact congrArg (· + 1) hr
  | stall _ hfire => exact still rfl hfire
  | rest hph _ => exact still rfl (hquiet hph nofun)
  | take _ hph _ => exact still rfl (hquiet hph nofun)
  | size hph => exact still rfl (hquiet hph nofun)
  | clamp hph => exact still rfl (hquiet hph nofun)
  | encode _ hph _ => exact still rfl (hquiet hph nofun)
  | grant hph _ => exact still rfl (hquiet hph nofun)
  | starve hph _ => exact still rfl (hquiet hph nofun)
  | again hph _ => exact still rfl (hquiet hph nofun)
  | last hph _ => exact still rfl (hquiet hph nofun)
  | await hph _ => exact still rfl (hquiet hph nofun)
  | complete hph _ => exact still rfl (hquiet hph nofun)
  | settle hph => exact still rfl (hquiet hph nofun)

/-- A reader asks for the burst that it sized, exactly when its request is accepted. -/
theorem next_issued {g : Geometry} {c c' : ReadCore} {i : ReadInputs} {step : ReadStep}
    (hf : i.arFires = true → c.phase = .issueBurst) (h : (c.next g i).result = .ok (c', step)) :
    step.issued = if i.arFires then some ⟨c.addr, c.burst⟩ else none := by
  obtain ⟨⟨r, push⟩, hrec, h⟩ := Run.result_bind_eq_ok.mp h
  obtain ⟨⟨core, st⟩, hproc, h⟩ := Run.result_bind_eq_ok.mp h
  cases h
  obtain ⟨⟨bursts, error, rfl⟩, _⟩ := receive_eq hrec
  have quiet : c.phase ≠ .issueBurst →
      none = if i.arFires then some (⟨c.addr, c.burst⟩ : Burst) else none := fun hph =>
    (if_neg fun hc => hph (hf hc)).symm
  cases proceed_moves hproc with
  | issue _ hfire _ => exact (if_pos hfire).symm
  | stall _ hfire => exact (if_neg (Bool.eq_false_iff.mp hfire)).symm
  | rest hph _ | take _ hph _ | size hph | clamp hph | encode _ hph _ | grant hph _ | starve hph _
  | again hph _ | last hph _ | await hph _ | complete hph _ | settle hph =>
      refine quiet fun hc => ?_
      rw [hph] at hc
      cases hc

/-! ## Credit -/

/-- A buffer with `room` free places has one for every word on its way, and for every word
of a burst that is on offer. -/
def Covered (room : Nat) (c : ReadCore) : Prop :=
  c.pending.words ≤ room ∧ (c.phase = .issueBurst → c.pending.words + c.burst ≤ room)

theorem Covered.mono {room room' : Nat} {c : ReadCore} (h : c.Covered room)
    (hle : room ≤ room') : c.Covered room' :=
  ⟨Nat.le_trans h.1 hle, fun hph => Nat.le_trans (h.2 hph) hle⟩

/-- **Credit lasts.** It is looked at before the burst is offered; what arrives later takes
a place and frees one. -/
theorem covered_next {g : Geometry} {c c' : ReadCore} {i : ReadInputs} {step : ReadStep}
    {awaited room : Nat} (hs : c.Sound awaited) (hb : i.beat.toList.length ≤ awaited)
    (hc : c.Covered room) (hfree : i.fifoFree ≤ room)
    (h : (c.next g i).result = .ok (c', step)) :
    c'.Covered (room - i.beat.toList.length) := by
  obtain ⟨⟨r, push⟩, hrec, h⟩ := Run.result_bind_eq_ok.mp h
  obtain ⟨⟨core, st⟩, hproc, h⟩ := Run.result_bind_eq_ok.mp h
  cases h
  obtain ⟨⟨bursts, error, rfl⟩, _⟩ := receive_eq hrec
  obtain ⟨hroom, hoffer⟩ := hc
  have hp := hs.pending
  have hlow : c.pending.words - i.beat.toList.length ≤ room - i.beat.toList.length := by omega
  cases proceed_moves hproc with
  | grant hph hle =>
      refine ⟨hlow, fun _ => ?_⟩
      dsimp only at hle ⊢
      omega
  | issue hph hfire hle =>
      have hall := hoffer hph
      refine ⟨?_, (by intro hp'; cases hp')⟩
      dsimp only
      omega
  | stall hph _ =>
      have hall := hoffer hph
      refine ⟨hlow, fun _ => ?_⟩
      dsimp only
      omega
  | rest hph _ => exact ⟨hlow, (by intro hp'; rw [hph] at hp'; cases hp')⟩
  | take d hph _ =>
      refine ⟨hlow, ?_⟩
      intro hp'
      dsimp only at hp'
      split at hp' <;> cases hp'
  | size _ => exact ⟨hlow, (by intro hp'; cases hp')⟩
  | clamp _ => exact ⟨hlow, (by intro hp'; cases hp')⟩
  | encode _ _ _ => exact ⟨hlow, (by intro hp'; cases hp')⟩
  | starve _ _ => exact ⟨hlow, (by intro hp'; cases hp')⟩
  | again _ _ => exact ⟨hlow, (by intro hp'; cases hp')⟩
  | last _ _ => exact ⟨hlow, (by intro hp'; cases hp')⟩
  | await _ _ => exact ⟨hlow, (by intro hp'; cases hp')⟩
  | complete _ _ => exact ⟨hlow, (by intro hp'; cases hp')⟩
  | settle _ => exact ⟨hlow, (by intro hp'; cases hp')⟩

end ReadCore

/-- The clock edge of an engine is that of its core. -/
theorem ReadEngine.tick_core {e e' : ReadEngine} {i : ReadInputs} {step : ReadStep}
    (h : (e.tick i).result = .ok (e', step)) :
    (e.core.next e.geometry i).result = .ok (e'.core, step) ∧ e'.geometry = e.geometry := by
  obtain ⟨⟨core, st⟩, hn, h⟩ := Run.result_bind_eq_ok.mp h
  obtain ⟨_, _, h⟩ := Run.result_bind_eq_ok.mp h
  cases h
  exact ⟨hn, rfl⟩

/-- What an engine tells does not stop it. -/
theorem ReadEngine.report_ok (e : ReadEngine) (i : ReadInputs) (core : ReadCore)
    (step : ReadStep) : (e.report i core step).result = .ok () := by
  unfold report
  cases i.desc <;> cases step.issued <;> cases i.beat <;> simp [Except.bind]

end BurstDma
