import BurstDma.Proofs.Range
import BurstDma.Proofs.RunLedger
import BurstDma.Proofs.WritePlan

/-!
# A writer keeps its counters with any bus

Four counters of a write engine change at different handshakes: the beats of the burst under
way, the words and bursts pending, the bursts that are not answered, and the words written. The
answers come whenever the bus likes, in any phase. **Each counter is a number of things that
happened on the bus**: what is pending is what is left to send of the bursts that were granted,
which is never more than one burst, and the bursts not answered are those granted less the
answers.

Of the bus only two things are asked. It accepts what is on offer, and it answers a burst after
its last word. So a transfer that the engine calls done is done on the bus.
-/

namespace BurstDma

/-- One clock edge of a write engine: what it was given and what it did. -/
structure WriteEdge where
  inputs : WriteInputs
  step : WriteStep
deriving Repr, DecidableEq

/-- The descriptor that was taken. -/
def WriteEdge.taken (e : WriteEdge) : Option Descriptor :=
  if e.step.taken then e.inputs.desc else none

namespace WriteCore

/-- The bursts granted so far. -/
def granted (past : List WriteEdge) : List Burst :=
  issued (past.map (·.step))

/-- The number of words sent. -/
def sent (past : List WriteEdge) : Nat :=
  pops (past.map (·.step))

/-- The number of answers that arrived. -/
def answered (past : List WriteEdge) : Nat :=
  past.countP (·.inputs.b.isSome)

/-- The words to send, one number for each granted burst that is not complete. -/
def toSend (past : List WriteEdge) : List Nat :=
  Burst.due (granted past) (sent past)

/-- What a bus may give an engine whose buffer shows the beat `head`: it accepts what is on
offer, and answers a burst, once, after its last word. Descriptors and the level of the buffer
are free. -/
structure Allowed (past : List WriteEdge) (c : WriteCore) (head : Option Beat)
    (i : WriteInputs) : Prop where
  aw : i.awFires = true → (c.outputs head).aw.isSome = true
  w : i.wFires = true → (c.outputs head).w.isSome = true
  /-- There are more complete bursts than answers. -/
  b : i.b.isSome = true → answered past + (toSend past).length < (granted past).length

instance (past : List WriteEdge) (c : WriteCore) (head : Option Beat) (i : WriteInputs) :
    Decidable (Allowed past c head i) :=
  decidable_of_iff ((i.awFires = true → (c.outputs head).aw.isSome = true)
      ∧ (i.wFires = true → (c.outputs head).w.isSome = true)
      ∧ (i.b.isSome = true → answered past + (toSend past).length < (granted past).length))
    ⟨fun h => ⟨h.1, h.2.1, h.2.2⟩, fun h => ⟨h.aw, h.w, h.b⟩⟩

/-- The clock edges of an engine from reset on, on a bus that gives what it may. -/
inductive Edges (g : Geometry) (frameMode : Bool) : List WriteEdge → WriteCore → Prop where
  | reset : Edges g frameMode [] { frameMode }
  | edge {past : List WriteEdge} {c c' : WriteCore} {head : Option Beat} {i : WriteInputs}
      {step : WriteStep} : Edges g frameMode past c → Allowed past c head i →
      (c.next g i).result = .ok (c', step) → Edges g frameMode (past ++ [⟨i, step⟩]) c'

variable {g : Geometry} {frameMode : Bool} {past : List WriteEdge} {c c' : WriteCore}
  {head : Option Beat} {i : WriteInputs} {step : WriteStep}

/-- The clock edge that some inputs make with a head of the buffer, if the bus may give them. -/
def attempt (g : Geometry) (past : List WriteEdge) (c : WriteCore)
    (driven : Option Beat × WriteInputs) : Option (WriteEdge × WriteCore) :=
  if Allowed past c driven.1 driven.2 then
    (c.next g driven.2).result.toOption.map fun (c', step) => (⟨driven.2, step⟩, c')
  else none

theorem Edges.attempt {driven : Option Beat × WriteInputs} {e : WriteEdge}
    (h : Edges g frameMode past c)
    (ha : WriteCore.attempt g past c driven = some (e, c')) :
    Edges g frameMode (past ++ [e]) c' := by
  rw [WriteCore.attempt] at ha
  split at ha
  · rename_i hi
    obtain ⟨⟨next, step⟩, hnext, hsame⟩ := Option.map_eq_some_iff.mp ha
    cases hsame
    exact h.edge hi (ok_of_toOption hnext)
  · cases ha

theorem granted_concat (past : List WriteEdge) (e : WriteEdge) :
    granted (past ++ [e]) = granted past ++ e.step.issued.toList := by
  rw [granted, List.map_append, List.map_singleton, issued_concat]
  rfl

theorem sent_concat (past : List WriteEdge) (e : WriteEdge) :
    sent (past ++ [e]) = sent past + if e.step.pop then 1 else 0 := by
  rw [sent, List.map_append, List.map_singleton, pops_concat]
  rfl

theorem answered_concat (past : List WriteEdge) (e : WriteEdge) :
    answered (past ++ [e]) = answered past + if e.inputs.b.isSome then 1 else 0 := by
  rw [answered, List.countP_append, List.countP_singleton]
  rfl

theorem Allowed.issues (hi : Allowed past c head i) (h : i.awFires = true) :
    c.phase = .issueBurst := by
  refine Decidable.byContradiction fun hne => ?_
  have hoffer := hi.aw h
  rw [outputs, if_neg hne] at hoffer
  cases hoffer

theorem Allowed.sends (hi : Allowed past c head i) (h : i.wFires = true) :
    c.phase = .transferBurst := by
  refine Decidable.byContradiction fun hne => ?_
  have hoffer := hi.w h
  rw [outputs, if_neg hne] at hoffer
  cases hoffer

/-- What is left to send of the burst under way. -/
def underWay (c : WriteCore) : List Nat :=
  if c.phase = .transferBurst then [c.burst - c.beat] else []

/-- An address brings its burst under way, and nothing was under way before. -/
theorem underWay_opened (hv : Served c i c' step) (hph : c.phase = .issueBurst)
    (ha : i.awFires = true) : c.underWay = [] ∧ c'.underWay = [c.burst] := by
  obtain ⟨hzero, _, hburst⟩ := hv.opened ha
  have hph' := hv.sending.mpr (Or.inl ha)
  refine ⟨if_neg (by rw [hph]; decide), ?_⟩
  rw [underWay, if_pos hph', hzero, hburst]
  rfl

/-- Without a handshake the burst under way waits. -/
theorem underWay_kept (hv : Served c i c' step) (ha : i.awFires = false)
    (hd : i.wFires = false) : c'.underWay = c.underWay := by
  have hsame : c'.phase = .transferBurst ↔ c.phase = .transferBurst := by
    rw [hv.sending, ha, hd]
    simp
  rw [underWay, underWay]
  by_cases hph : c.phase = .transferBurst
  · have hph' := hsame.mpr hph
    obtain ⟨hbeat', _, hburst⟩ := hv.kept hph hph'
    rw [if_pos hph', if_pos hph, hbeat', hburst, hd]
    rfl
  · rw [if_neg hph, if_neg fun hc => hph (hsame.mp hc)]

/-- A word takes from the burst under way. -/
theorem underWay_sent (hv : Served c i c' step) (hph : c.phase = .transferBurst)
    (hlt : c.beat < c.burst) (ha : i.awFires = false) (hd : i.wFires = true) :
    c'.underWay = Burst.takeWord c.underWay := by
  have hsend := hv.sending
  rw [ha, hd] at hsend
  rw [underWay, underWay, if_pos hph, Burst.takeWord]
  cases hl : c.onLastBeat with
  | true =>
      have hone : c.burst - c.beat = 1 := by
        have hend : c.beat + 1 = c.burst := beq_iff_eq.mp hl
        omega
      have hph' : c'.phase ≠ .transferBurst := fun hc => by
        have := hsend.mp hc
        simp [hl] at this
      rw [if_pos hone, if_neg hph']
  | false =>
      have hmore : c.burst - c.beat ≠ 1 := by
        have hend : c.beat + 1 ≠ c.burst := beq_eq_false_iff_ne.mp hl
        omega
      have hph' : c'.phase = .transferBurst := hsend.mpr (Or.inr ⟨hph, by simp [hl]⟩)
      obtain ⟨hbeat', _, hburst⟩ := hv.kept hph hph'
      rw [if_neg hmore, if_pos hph', hbeat', hburst, hd]
      rfl

/-- A burst comes under way with its address, and each word takes from it. -/
theorem underWay_next (hbeat : c.phase = .transferBurst → c.beat < c.burst)
    (hi : Allowed past c head i) (h : (c.next g i).result = .ok (c', step)) :
    c'.underWay = (if step.pop then Burst.takeWord c.underWay else c.underWay)
      ++ step.issued.toList.map (·.words) := by
  have hv := next_served hi.issues hi.sends h
  rw [hv.pop, hv.issued]
  cases ha : i.awFires with
  | true =>
      have hph := hi.issues ha
      obtain ⟨hnone, hopen⟩ := underWay_opened hv hph ha
      have hd : i.wFires = false := by
        refine Bool.eq_false_iff.mpr fun hc => ?_
        have := hi.sends hc
        rw [hph] at this
        cases this
      rw [hd, hnone, hopen]
      rfl
  | false =>
      rw [if_neg Bool.false_ne_true, Option.toList_none, List.map_nil, List.append_nil]
      cases hd : i.wFires with
      | false => exact underWay_kept hv ha hd
      | true =>
          have hph := hi.sends hd
          exact underWay_sent hv hph (hbeat hph) ha hd

/-- What the registers show of the newest transfer. -/
def Shows (c : WriteCore) (now : Option (Descriptor × List WriteEdge)) : Prop :=
  ∀ d during, now = some (d, during) → c.length = d.words ∧ c.written = sent during

/-- The counters of a writer are what happened on its bus. -/
structure Accounted (g : Geometry) (past : List WriteEdge) (c : WriteCore) : Prop where
  sized : c.Sized g
  settled : c.Settled
  pending : c.pending = ⟨c.openWords, if c.phase = .transferBurst then 1 else 0⟩
  orderly : Burst.Orderly (granted past) (sent past)
  toSend : WriteCore.toSend past = c.underWay
  outstanding : c.outstanding + answered past = (granted past).length
  /-- Every burst of the transfer that is not answered has its words among those written, but
  for the one under way. -/
  few : c.outstanding ≤ c.written + c.underWay.length
  shows : c.Shows (newest WriteEdge.taken past)

theorem accounted_init (g : Geometry) (frameMode : Bool) : Accounted g [] { frameMode } :=
  ⟨sized_init g frameMode, fun _ => rfl, rfl, ⟨nofun, Nat.le_refl _⟩, rfl, rfl, Nat.le_refl _,
    nofun⟩

/-- No more than one burst is under way. -/
theorem length_underWay (c : WriteCore) :
    c.underWay.length = if c.phase = .transferBurst then 1 else 0 := by
  unfold underWay
  split <;> rfl

theorem underWay_of_closed (hph : c.phase ≠ .transferBurst) : c.underWay = [] :=
  if_neg hph

/-- An answer is to a burst that was granted. -/
theorem Accounted.awaited (ha : Accounted g past c) (hi : Allowed past c head i) :
    i.b.toList.length ≤ c.outstanding := by
  have hsum := ha.outstanding
  rw [length_toList_eq]
  cases hb : i.b.isSome with
  | false => exact Nat.zero_le _
  | true =>
      have hmore := hi.b hb
      rw [if_pos rfl]
      omega

/-- **The bursts not answered** are those granted less the answers. -/
theorem Accounted.outstanding_next (ha : Accounted g past c) (hi : Allowed past c head i)
    (h : (c.next g i).result = .ok (c', step)) :
    c'.outstanding + answered (past ++ [⟨i, step⟩]) = (granted (past ++ [⟨i, step⟩])).length := by
  have hv := next_served hi.issues hi.sends h
  have hsum := ha.outstanding
  have hawaited := ha.awaited hi
  have hgrant : step.issued.toList.length = if i.awFires then 1 else 0 := by
    rw [hv.issued]
    cases i.awFires <;> rfl
  rw [hv.outstanding, answered_concat, granted_concat, List.length_append, hgrant,
    ← length_toList_eq]
  dsimp only
  omega

/-- The bursts not answered are of this transfer, since it began with none. -/
theorem Accounted.few_next (ha : Accounted g past c)
    (h : (c.next g i).result = .ok (c', step)) :
    c'.outstanding ≤ c'.written + c'.underWay.length := by
  have hfew := ha.few
  have hsettled := ha.settled
  obtain ⟨error, hm⟩ := next_moves h
  rw [length_underWay] at hfew ⊢
  cases hm with
  | take d hph _ =>
      -- at rest every burst was answered
      have hnone : c.outstanding = 0 := hsettled (Or.inl hph)
      dsimp only
      rw [hnone, Nat.zero_sub]
      exact Nat.zero_le _
  | issue pending hph _ =>
      have hph' : c.phase = .issueBurst := hph
      rw [hph'] at hfew
      dsimp only at hfew ⊢
      simp at hfew ⊢
      omega
  | send pending hph _ _ =>
      have hph' : c.phase = .transferBurst := hph
      rw [if_pos hph'] at hfew
      dsimp only
      rw [if_pos hph']
      omega
  | close pending hph _ _ =>
      have hph' : c.phase = .transferBurst := hph
      rw [if_pos hph'] at hfew
      dsimp only
      omega
  | rest hph _ | starve hph _ | stall hph _ | wait hph _ =>
      dsimp only
      omega
  | size hph | clamp hph | offer _ _ _ hph _ _ | await hph _ | complete hph _ | settle hph =>
      -- no burst is under way before or after
      have hclosed : ¬ c.phase = .transferBurst := by
        intro hc
        cases hc.symm.trans hph
      rw [if_neg hclosed] at hfew
      dsimp only
      omega

/-- A clock edge takes the next transfer, or goes on with the newest one. -/
theorem Accounted.shows_next (ha : Accounted g past c)
    (h : (c.next g i).result = .ok (c', step)) :
    c'.Shows (newest WriteEdge.taken (past ++ [⟨i, step⟩])) := by
  obtain ⟨hwritten, _⟩ := written_next h
  obtain ⟨hkept, hbegun⟩ := length_next h
  intro d during hnow
  cases ht : step.taken with
  | true =>
      obtain ⟨d', hdesc⟩ := desc_of_taken h ht
      have htaken : WriteEdge.taken ⟨i, step⟩ = some d' := (if_pos ht).trans hdesc
      rw [newest_of_taken htaken] at hnow
      cases hnow
      refine ⟨hbegun d hdesc ht, ?_⟩
      rw [hwritten, ht]
      rfl
  | false =>
      have hgoing : WriteEdge.taken ⟨i, step⟩ = none := if_neg (Bool.eq_false_iff.mp ht)
      rw [newest_of_going hgoing] at hnow
      obtain ⟨⟨d', earlier⟩, hbefore, hsame⟩ := Option.map_eq_some_iff.mp hnow
      cases hsame
      obtain ⟨hlength, hcount⟩ := ha.shows d earlier hbefore
      refine ⟨(hkept ht).trans hlength, ?_⟩
      rw [hwritten, ht, if_neg Bool.false_ne_true, sent_concat, hcount]

/-- **A clock edge keeps the counters.** -/
theorem Accounted.next (ha : Accounted g past c) (hi : Allowed past c head i)
    (h : (c.next g i).result = .ok (c', step)) : Accounted g (past ++ [⟨i, step⟩]) c' := by
  have hv := next_served hi.issues hi.sends h
  have hmoves : step.pop = true → Burst.due (granted past) (sent past) ≠ [] := by
    intro hpop
    have hph := hi.sends (hv.pop.symm.trans hpop)
    rw [← WriteCore.toSend, ha.toSend, underWay, if_pos hph]
    exact List.cons_ne_nil _ _
  have hwhole : ∀ b ∈ step.issued, 0 < b.words := by
    rw [hv.issued]
    intro b hb
    split at hb
    · rename_i hfire
      cases hb
      exact (ha.sized.burst (Or.inl (hi.issues hfire))).1
    · cases hb
  obtain ⟨horderly, hdue⟩ := ha.orderly.next hmoves hwhole
  have hlist : WriteCore.toSend (past ++ [⟨i, step⟩])
      = (if step.pop then Burst.takeWord (WriteCore.toSend past) else WriteCore.toSend past)
        ++ step.issued.toList.map (·.words) := by
    rw [WriteCore.toSend, granted_concat, sent_concat]
    exact hdue
  refine ⟨ha.sized.next h, settled_next ha.settled h,
    pending_next ha.sized.beat ha.pending hi.issues hi.sends h, ?_, ?_, ha.outstanding_next hi h,
    ha.few_next h, ha.shows_next h⟩
  · rw [granted_concat, sent_concat]
    exact horderly
  · rw [hlist, ha.toSend, underWay_next ha.sized.beat hi h]

theorem Edges.accounted (h : Edges g frameMode past c) : Accounted g past c := by
  induction h with
  | reset => exact accounted_init g frameMode
  | edge _ hi hnext ih => exact ih.next hi hnext

theorem Edges.mode (h : Edges g frameMode past c) : c.frameMode = frameMode := by
  induction h with
  | reset => rfl
  | edge _ _ hnext ih => exact (frameMode_next hnext).trans ih

/-- **A write engine keeps its counters on any bus** that answers a burst after its last word,
in both modes. While a burst is being sent, what is left of it is pending, and nothing else ever
is; the beat on offer ends the burst exactly if it is the last one due. The bursts not answered
are those granted less the answers. In length mode what was written and what remains make up
the length whenever no burst is under way. The engine is done only when every burst is answered,
and then it has written the length; and it has a next state as long as its words can be counted
and its addresses exist. -/
theorem counters_exact (h : Edges g frameMode past c) :
    c.pending = (if c.phase = .transferBurst then ⟨c.burst - c.beat, 1⟩ else {})
      ∧ toSend past = (if c.phase = .transferBurst then [c.burst - c.beat] else [])
      ∧ (c.phase = .transferBurst → c.beat < c.burst)
      ∧ (∀ head w, (c.outputs head).w = some w →
        (w.last = true ↔ c.beat + 1 = c.burst) ∧ (w.last = true ↔ toSend past = [1]))
      ∧ c.outstanding + answered past = (granted past).length
      ∧ (∀ d during, newest WriteEdge.taken past = some (d, during) →
        c.length = d.words ∧ c.written = sent during)
      ∧ (frameMode = false → c.written ≤ c.length
        ∧ (c.phase ≠ .transferBurst → c.written + c.remaining = c.length))
      ∧ (c.phase = .done → c.outstanding = 0 ∧ c.pending = {}
        ∧ (frameMode = false → c.written = c.length))
      ∧ ∀ head i, Allowed past c head i →
        (i.awFires = true ∨ i.wFires = true → c.written + 1 < limit32) →
        (i.wFires = true → c.addr + c.burst * g.wordBytes < limit64) →
        ∃ c' step, (c.next g i).result = .ok (c', step) := by
  have ha := h.accounted
  have hmode := h.mode
  have hpending : c.pending
      = if c.phase = .transferBurst then ⟨c.burst - c.beat, 1⟩ else {} := by
    rw [ha.pending, openWords]
    split <;> rfl
  refine ⟨hpending, ha.toSend, ha.sized.beat, ?_, ha.outstanding, ha.shows, ?_, ?_, ?_⟩
  · intro head w hw
    have hph : c.phase = .transferBurst := by
      refine Decidable.byContradiction fun hne => ?_
      rw [outputs, if_neg hne] at hw
      cases hw
    have hlast : w.last = c.onLastBeat := by
      rw [outputs, if_pos hph] at hw
      obtain ⟨b, _, rfl⟩ := Option.map_eq_some_iff.mp hw
      rfl
    have hbeat := ha.sized.beat hph
    have hend : w.last = true ↔ c.beat + 1 = c.burst := by
      rw [hlast]
      exact beq_iff_eq
    refine ⟨hend, ?_⟩
    rw [hend, ha.toSend, underWay, if_pos hph, List.cons_eq_cons]
    refine ⟨fun hc => ⟨by omega, rfl⟩, fun hc => ?_⟩
    have := hc.1
    omega
  · intro hlength
    obtain ⟨hle, hsound⟩ := ha.sized.account (hmode.trans hlength)
    refine ⟨hle, fun hph => ?_⟩
    rw [hsound.remaining (hmode.trans hlength) hph]
    exact Nat.add_sub_cancel' hle
  · intro hph
    refine ⟨ha.settled (Or.inr hph), ?_, fun hlength => ?_⟩
    · rw [hpending, if_neg (by rw [hph]; decide)]
    · obtain ⟨hle, hsound⟩ := ha.sized.account (hmode.trans hlength)
      have hnone := hsound.resting (Or.inr (Or.inl hph))
      omega
  · intro head i hi hcount haddr
    refine ha.sized.next_ok ha.pending ?_ (fun hw _ => hcount (Or.inr hw))
      fun hw _ _ => haddr hw
    intro haw hph
    have hfew := ha.few
    rw [underWay_of_closed (by rw [hph]; decide)] at hfew
    exact Nat.lt_of_le_of_lt (Nat.succ_le_succ hfew) (hcount (Or.inl haw))

/-- Three words from 16 bytes below a boundary on: the first burst is answered while the last
word of the second one is sent, and the second burst when the engine waits for it. -/
theorem counters_exact_late_answer :
    ∃ (past : List WriteEdge) (c c' : WriteCore) (step : WriteStep),
      Edges {} false past c ∧ c.phase = .waitForCompletion ∧ answered past = 1
        ∧ c.outstanding + 1 = 2 ∧ c.pending = {} ∧ c.written + c.remaining = c.length
        ∧ Allowed past c none { b := some ⟨0, .okay⟩ }
        ∧ (c.next {} { b := some ⟨0, .okay⟩ }).result = .ok (c', step) := by
  obtain ⟨past, c, hrun, hseen⟩ := exists_run_of_seen (Edges {} false) (attempt {})
    (fun _ _ _ _ _ => Edges.attempt) .reset
    [(none, { desc := some ⟨4080, 3, 16⟩ }), (none, {}), (none, {}),
      (none, { fifoLevel := 3 }), (some ⟨5, false⟩, { awFires := true }),
      (some ⟨5, false⟩, { wFires := true }), (some ⟨6, false⟩, { wFires := true }),
      (none, {}), (none, {}), (none, { fifoLevel := 1 }),
      (some ⟨7, true⟩, { awFires := true }),
      (some ⟨7, true⟩, { wFires := true, b := some ⟨0, .okay⟩ })]
    (fun (past, c) => c.phase = .waitForCompletion ∧ answered past = 1
      ∧ (granted past).length = 2 ∧ Allowed past c none { b := some ⟨0, .okay⟩ })
    (by decide +kernel)
  obtain ⟨hph, hanswered, hgranted, hallowed⟩ := hseen
  obtain ⟨hpending, _, _, _, hout, _, hlength, _, hgoes⟩ := counters_exact hrun
  obtain ⟨c', step, hnext⟩ := hgoes none _ hallowed (by rintro (hc | hc) <;> cases hc) nofun
  refine ⟨past, c, c', step, hrun, hph, hanswered, ?_, ?_, ?_, hallowed, hnext⟩
  · rw [hanswered, hgranted] at hout
    exact hout
  · rw [hpending, hph]
    rfl
  · exact (hlength rfl).2 (by rw [hph]; nofun)

end WriteCore

end BurstDma
