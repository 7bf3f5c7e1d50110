import BurstDma.Proofs.WriteLedger

/-!
# What a writer in length mode stores

In length mode the descriptor says how many words a transfer takes from the stream. The
words go to consecutive places from its start, and **when the writer says that it is done,
every one of them is in memory and every burst has been answered**. What the memory holds
is what all ports stored, in the order in which it stored it.
-/

namespace BurstDma

/-! ## The memory is what was stored -/

section

variable {params : MachineParams} {s₀ s : Machine} {past : List Moment} {i : Nat} {p : Port}

/-- **Nothing but the logged stores and images changes a word.** -/
theorem History.store_eq (h₀ : Machine.ofParams params = .ok s₀) (h : History s₀ past s) :
    s.memory.store = past.foldl Moment.storeAfter s₀.memory.store := by
  induction h with
  | start => rfl
  | @step past s s' op hist hop ih =>
      rw [List.foldl_append, ← ih]
      by_cases ht : op = .tick
      · subst ht
        -- only ticks and images touch the words
        obtain ⟨slave, hedge⟩ := Machine.tick_edge hop
        exact hedge.store
      · by_cases hr : op = .reset
        · subst hr
          rw [Machine.reset_eq_ok hop]
          rfl
        · have htouch := Machine.touched_of_apply (hist.formed h₀).indexed hop ht hr
          rw [htouch.memory]
          rfl

/-- A reset closes the open burst. -/
theorem Machine.writeOrderly_reset {s s' : Machine} (h : s.reset.result = .ok s') :
    s'.WriteOrderly := by
  have hs := reset_eq_ok h
  subst hs
  refine writeOrderly_of_rest rfl (.select rfl rfl rfl rfl) fun i p hp => ?_
  simp only [List.getElem?_map, Option.map_eq_some_iff] at hp
  obtain ⟨q, _, rfl⟩ := hp
  exact ⟨rfl, rfl⟩

/-- **In every reachable machine the lock, the memory and the ports agree**, and so at most
one write burst is open. -/
theorem Machine.writeOrderly_reachable (h : Machine.Reachable params s) : s.WriteOrderly := by
  refine (h.induction (P := WriteOrderly) ?_ ?_ ?_ ?_).2
  · intro s h₀
    exact writeOrderly_ofParams h₀
  · intro s s' slave _ ho hedge
    exact writeOrderly_edge ho hedge
  · intro s s' op _ ho htouch
    exact writeOrderly_touched ho htouch
  · intro s s' _ _ hreset
    exact writeOrderly_reset hreset

/-! ## Length mode -/

theorem History.lengthLedger {q : PortParams} (h₀ : Machine.ofParams params = .ok s₀)
    (h : History s₀ past s) (hu : Uninterrupted past) (hq : params.ports[i]? = some q)
    (hmode : q.frameMode = false) (hp : s.ports[i]? = some p) :
    WriteLedger (fun _ d => d.words) params.geometry i past s p := by
  have hrun : s.WriteOrderly ∧ ∀ p, s.ports[i]? = some p →
      WriteLedger (fun _ d => d.words) params.geometry i past s p := by
    refine h.induction (P := fun past s => s.WriteOrderly ∧ ∀ p, s.ports[i]? = some p →
      WriteLedger (fun _ d => d.words) params.geometry i past s p) h₀ hu ?_ ?_ ?_
    · exact ⟨Machine.writeOrderly_ofParams h₀, fun p hp => writeLedger_init h₀ hp⟩
    · rintro past s s' slave hf ⟨ho, hl⟩ hedge
      refine ⟨Machine.writeOrderly_edge ho hedge, fun p' hp' => ?_⟩
      obtain ⟨p, rstep, wstep, hp, hport⟩ := hedge.port' hp'
      obtain ⟨q', hq', hb⟩ := hf.port i p hp
      rw [hq] at hq'
      cases hq'
      have hcore : p.writer.core.frameMode = false := hb.frameMode.trans hmode
      refine writeLedger_edge hf ho (hl p hp) hedge hp hport ?_ ?_
      · intro k d
        refine ⟨fun _ => rfl, fun hc => ?_⟩
        rw [hcore] at hc
        cases hc
      · exact WriteCore.sizedRight_of_length (hl p hp).sound hcore
    · rintro past s s' op ht hf ⟨ho, hl⟩ htouch
      refine ⟨Machine.writeOrderly_touched ho htouch, fun p' hp' => ?_⟩
      obtain ⟨p, hp, hport⟩ := htouch.port' hp'
      exact writeLedger_touched ht (hl p hp) htouch hport
  exact hrun.2 p hp

/-- The line of a writer rises only with its done pulse. -/
theorem irq_of_done {s s' : Machine} (h : s.tick.result = .ok s') (hp : s.ports[i]? = some p)
    (hlow : s.irq (2 * i) = false) (hhigh : s'.irq (2 * i) = true) :
    p.writeOutputs.done = true := by
  obtain ⟨slave, hedge⟩ := Machine.tick_edge h
  obtain ⟨rstep, wstep, p', hp', hport⟩ := hedge.port i p hp
  have hline : 2 * i / 2 = i := Nat.mul_div_cancel_left i (by decide)
  have heven : 2 * i % 2 = 0 := Nat.mul_mod_right 2 i
  unfold Machine.irq at hlow hhigh
  rw [hline] at hlow hhigh
  rw [hp, heven] at hlow
  rw [hp', heven] at hhigh
  simp only [if_true] at hlow hhigh
  rw [hport.writeRegs] at hhigh
  -- taking a descriptor leaves the line alone
  cases hd : p.writeOutputs.done with
  | true => rfl
  | false =>
      have hsame : (Port.nextRegs p.writeRegs false wstep.taken).irq = p.writeRegs.irq := by
        cases wstep.taken <;> rfl
      rw [hd, hsame, hlow] at hhigh
      cases hhigh

/-- **A writer in length mode stores what its descriptors say.** Of the stream of its port
it takes for every transfer exactly the words that the descriptor asks for, and stores
word after word from the start of the transfer on; nothing else is stored for that port.
Only the newest transfer can be unfinished. When the writer says that it is done, all its
words are stored and all its bursts are answered, and only then its line rises. -/
theorem write_transfer {q : PortParams} (hg : params.geometry.Legal)
    (h₀ : Machine.ofParams params = .ok s₀) (h : History s₀ past s) (hu : Uninterrupted past)
    (hq : params.ports[i]? = some q) (hmode : q.frameMode = false)
    (hp : s.ports[i]? = some p) :
    let accepted := past.flatMap (Moment.writerTakes i)
    let consumed := past.flatMap (Moment.writerPops i)
    let stored := past.flatMap (Moment.memoryStores i)
    consumed <+: past.flatMap (Moment.offers i)
      ∧ stored = expectedWrites params.geometry (whole accepted) (consumed.take stored.length)
      ∧ (accepted.dropLast.map (·.words)).sum ≤ stored.length
      ∧ stored.length ≤ consumed.length
      ∧ consumed.length ≤ (accepted.map (·.words)).sum
      ∧ (p.writeOutputs.done = true →
        stored.length = (accepted.map (·.words)).sum
          ∧ consumed.length = (accepted.map (·.words)).sum
          ∧ (past.flatMap (Moment.writerAnswers i)).length
            = (past.flatMap (Moment.writerIssues i)).length)
      ∧ s.memory.store = past.foldl Moment.storeAfter s₀.memory.store
      ∧ ∀ s', s.tick.result = .ok s' → s.irq (2 * i) = false → s'.irq (2 * i) = true →
        p.writeOutputs.done = true := by
  intro accepted consumed stored
  have hl := h.lengthLedger h₀ hu hq hmode hp
  have ho := Machine.writeOrderly_reachable ⟨s₀, past, h₀, h⟩
  have hts : transfersOf (fun _ d => d.words) i past = whole accepted := sized_words _
  have hlen := hl.stored_length
  have hfits := hl.fits
  have hfin := hl.finished
  have heq := hl.stored_eq hg
  rw [hts] at hfits hfin heq
  have hdrop : (whole accepted).dropLast = whole accepted.dropLast := by
    unfold whole
    rw [List.map_dropLast]
  rw [hdrop, wordCount_whole] at hfin
  rw [wordCount_whole] at hfits
  refine ⟨?_, heq, hfin, ?_, hfits, ?_, h.store_eq h₀, ?_⟩
  · rw [hl.stream]
    exact List.prefix_append _ _
  · show stored.length ≤ consumed.length
    have : stored.length + (s.gathered i).length = consumed.length := hlen
    omega
  · intro hd
    have hph : p.writer.core.phase = .done := beq_iff_eq.mp hd
    have hsent := hl.all_sent (Or.inr hph)
    obtain ⟨hstored, hanswered⟩ := hl.all_stored (ho.port i p hp) (Or.inr hph)
    rw [hts, wordCount_whole] at hsent hstored
    exact ⟨hstored, hsent, hanswered⟩
  · intro s' ht hlow hhigh
    exact irq_of_done ht hp hlow hhigh

end

/-- Next to another writer, a writer that was asked for three words and says that it is
done has stored three. -/
theorem write_transfer_three_words :
    ∃ s₀ past s p, Machine.ofParams { ports := [{}, {}] } = .ok s₀ ∧ History s₀ past s
      ∧ s.ports[0]? = some p ∧ p.writeOutputs.done = true
      ∧ past.flatMap (Moment.writerTakes 0) = [⟨11, 3, 2⟩]
      ∧ (past.flatMap (Moment.memoryStores 0)).length = 3 := by
  have hrun : Machine.trial { ports := [{}, {}] }
      ([.push 0 [⟨5, false⟩, ⟨6, true⟩, ⟨7, false⟩], .push 1 [⟨9, true⟩]]
        ++ Operation.program 0 .writer 11 3 2 ++ Operation.program 1 .writer 0 1 1
        ++ List.replicate 17 .tick)
      (fun past s => decide (Uninterrupted past)
        && decide (past.flatMap (Moment.writerTakes 0) = [⟨11, 3, 2⟩])
        && (s.ports[0]?).any (·.writeOutputs.done)) = true := by
    decide +kernel
  obtain ⟨s₀, past, s, h₀, h, hlook⟩ := Machine.exists_of_trial hrun
  rw [Bool.and_eq_true, Bool.and_eq_true, decide_eq_true_eq, decide_eq_true_eq] at hlook
  obtain ⟨⟨hu, htakes⟩, hdone⟩ := hlook
  obtain ⟨p, hp, hdone⟩ := (Option.any_eq_true _ _).mp hdone
  obtain ⟨_, _, _, _, _, hall, _⟩ := write_transfer (by decide) h₀ h hu rfl rfl hp
  refine ⟨s₀, past, s, p, h₀, h, hp, hdone, htakes, ?_⟩
  rw [(hall hdone).1, htakes]
  rfl

end BurstDma
