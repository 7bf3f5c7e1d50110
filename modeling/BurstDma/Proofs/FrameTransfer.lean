import BurstDma.Proofs.FrameStream
import BurstDma.Proofs.WriteTransfer

/-!
# What a writer in frame mode stores

In frame mode the stream says how many words a transfer takes: **the `k`-th transfer takes
the `k`-th frame**, whatever length its descriptor names, however slowly the frame arrives
and however it is cut into bursts. The bursts keep within the limit of the descriptor and
the 4096-byte windows, and the one that takes the end of the frame is marked as the last.
-/

namespace BurstDma

/-- Every transfer takes its frame. -/
def framed (frames : List (List Beat)) : Nat → Descriptor → Nat :=
  fun k _ => frameSize frames k

section

variable {params : MachineParams} {frames : List (List Beat)} {s₀ s : Machine}
  {past : List Moment} {i : Nat} {p : Port}

/-! ## Transfers and frames -/

theorem wordCount_framed (frames : List (List Beat)) (ds : List Descriptor) :
    wordCount (sized (framed frames) ds) = frameStart frames ds.length := by
  have hindex : (sized (framed frames) ds).map (·.2)
      = (ds.zipIdx.map Prod.snd).map (frameSize frames) := by
    unfold sized
    rw [List.map_map, List.map_map]
    rfl
  unfold wordCount frameStart
  rw [hindex, List.zipIdx_map_snd, List.range_eq_range']

theorem dropLast_sized (size : Nat → Descriptor → Nat) (ds : List Descriptor) :
    (sized size ds).dropLast = sized size ds.dropLast := by
  rcases List.eq_nil_or_concat ds with rfl | ⟨init, d, rfl⟩
  · rfl
  · rw [List.concat_eq_append, sized_concat, List.dropLast_concat, List.dropLast_concat]

/-- The words in front of the transfer that is being sent. -/
theorem wordCount_dropLast_framed (frames : List (List Beat)) (ds : List Descriptor) :
    wordCount (sized (framed frames) ds).dropLast = frameStart frames (ds.length - 1) := by
  rw [dropLast_sized, wordCount_framed, List.length_dropLast]

/-- Pairing transfers with frames stops where there are no more frames. -/
theorem zip_frames (frames : List (List Beat)) (ds : List Descriptor) :
    ds.zip (frames.map (·.length)) = (sized (framed frames) ds).take frames.length := by
  refine List.ext_getElem? fun k => ?_
  have hsized : (sized (framed frames) ds)[k]? = ds[k]?.map fun d => (d, frameSize frames k) := by
    unfold sized framed
    rw [List.getElem?_map, List.getElem?_zipIdx, Option.map_map, Nat.zero_add]
    rfl
  rw [List.getElem?_take, hsized, List.zip, List.getElem?_zipWith, List.getElem?_map]
  by_cases hk : k < frames.length
  · rw [if_pos hk, frameSize, List.getElem?_eq_getElem hk]
    cases ds[k]? <;> rfl
  · rw [if_neg hk, List.getElem?_eq_none (Nat.le_of_not_lt hk)]
    cases ds[k]? <;> rfl

theorem wordCount_zip_frames (frames : List (List Beat)) (ds : List Descriptor) :
    wordCount (ds.zip (frames.map (·.length))) = (frames.take ds.length).flatten.length := by
  by_cases h : ds.length ≤ frames.length
  · have hlen : (sized (framed frames) ds).length = ds.length := by simp [sized]
    rw [zip_frames, List.take_of_length_le (by rw [hlen]; exact h), wordCount_framed,
      frameStart_eq h]
  · have hle : frames.length ≤ ds.length := Nat.le_of_not_le h
    unfold wordCount
    rw [List.map_snd_zip (by rw [List.length_map]; exact hle), List.take_of_length_le hle,
      List.length_flatten]

/-- Words that are not there do not matter. -/
theorem zipWith_append_of_le {α β γ : Type} (f : α → β → γ) {xs : List α} (xs' : List α)
    {ys : List β} (h : ys.length ≤ xs.length) :
    List.zipWith f (xs ++ xs') ys = List.zipWith f xs ys := by
  refine List.ext_getElem? fun k => ?_
  rw [List.getElem?_zipWith, List.getElem?_zipWith]
  by_cases hk : k < ys.length
  · rw [List.getElem?_append_left (Nat.lt_of_lt_of_le hk h)]
  · rw [List.getElem?_eq_none (Nat.le_of_not_lt hk)]
    cases (xs ++ xs')[k]? <;> cases xs[k]? <;> rfl

theorem expectedWrites_zip (g : Geometry) (frames : List (List Beat)) (ds : List Descriptor)
    {beats : List Beat} (h : beats.length ≤ wordCount (ds.zip (frames.map (·.length)))) :
    expectedWrites g (sized (framed frames) ds) beats
      = expectedWrites g (ds.zip (frames.map (·.length))) beats := by
  have hsplit : wordsOf (sized (framed frames) ds) = wordsOf (ds.zip (frames.map (·.length)))
      ++ wordsOf ((sized (framed frames) ds).drop frames.length) := by
    rw [zip_frames, ← wordsOf_append, List.take_append_drop]
  unfold expectedWrites
  rw [hsplit]
  exact zipWith_append_of_le _ _ (by rw [length_wordsOf]; exact h)

/-! ## The ledger in frame mode -/

namespace WriteLedger

/-- While words are left, a transfer was taken. -/
theorem taken_of_left (hleft : 0 < wordsLeft (framed frames) i past) :
    ∃ k, (past.flatMap (Moment.writerTakes i)).length = k + 1 := by
  cases hn : (past.flatMap (Moment.writerTakes i)).length with
  | succ k => exact ⟨k, rfl⟩
  | zero =>
      have hcount := wordCount_framed frames (past.flatMap (Moment.writerTakes i))
      have hzero : frameStart frames 0 = 0 := rfl
      unfold wordsLeft transfersOf at hleft
      rw [hcount, hn] at hleft
      omega

/-- The newest transfer takes its frame: some words of it were sent, the others are left. -/
theorem inFrame (hl : WriteLedger (framed frames) params.geometry i past s p) {k : Nat}
    (hk : (past.flatMap (Moment.writerTakes i)).length = k + 1) :
    (past.flatMap (Moment.writerPops i)).length = frameStart frames k + p.writer.core.written
      ∧ p.writer.core.written + wordsLeft (framed frames) i past = frameSize frames k := by
  have hcount := wordCount_framed frames (past.flatMap (Moment.writerTakes i))
  have hdrop := wordCount_dropLast_framed frames (past.flatMap (Moment.writerTakes i))
  have hwritten := hl.written
  have hfits := hl.fits
  unfold wordsLeft transfersOf
  unfold transfersOf at hwritten hfits
  rw [hdrop, hk, Nat.add_sub_cancel] at hwritten
  rw [hcount, hk, frameStart_succ] at hfits ⊢
  omega

/-- What lies in the buffer of a writer is the rest of its frame, and more. -/
theorem frameAhead (hframes : ∀ f ∈ frames, IsFrame f)
    (hl : WriteLedger (framed frames) params.geometry i past s p)
    (hstream : past.flatMap (Moment.offers i) <+: frames.flatten) :
    FrameAhead (wordsLeft (framed frames) i past) p.writeFifo.beats := by
  intro j b hb hj
  obtain ⟨k, hk⟩ := taken_of_left (Nat.lt_of_le_of_lt (Nat.zero_le j) hj)
  obtain ⟨hsent, hleft⟩ := hl.inFrame hk
  obtain ⟨rest, hrest⟩ := hstream
  -- what is sent, what is buffered and what is queued make up the stream
  have hpos : frames.flatten[frameStart frames k + (p.writer.core.written + j)]? = some b := by
    rw [← hrest, hl.stream, List.append_assoc, List.append_assoc, ← Nat.add_assoc, ← hsent,
      List.getElem?_append_right (Nat.le_add_right _ _), Nat.add_sub_cancel_left,
      List.getElem?_append_left (List.getElem?_eq_some_iff.mp hb).1]
    exact hb
  rw [mark_of_frame hframes (by omega) hpos]
  omega

theorem left_lt (hframes : ∀ f ∈ frames, IsFrame f)
    (hl : WriteLedger (framed frames) params.geometry i past s p) :
    wordsLeft (framed frames) i past < limit32 := by
  cases hleft : wordsLeft (framed frames) i past with
  | zero => exact (by decide : 0 < limit32)
  | succ n =>
      obtain ⟨k, hk⟩ := taken_of_left (by rw [hleft]; exact Nat.succ_pos n)
      have hshort := frameSize_lt hframes k
      obtain ⟨_, hsplit⟩ := hl.inFrame hk
      omega

end WriteLedger

theorem History.frameLedger {q : PortParams} (h₀ : Machine.ofParams params = .ok s₀)
    (h : History s₀ past s) (hu : Uninterrupted past) (hq : params.ports[i]? = some q)
    (hmode : q.frameMode = true) (hframes : ∀ f ∈ frames, IsFrame f)
    (hstream : past.flatMap (Moment.offers i) <+: frames.flatten) (hp : s.ports[i]? = some p) :
    WriteLedger (framed frames) params.geometry i past s p := by
  have hrun : s.WriteOrderly ∧ ∀ p, s.ports[i]? = some p → p.writeFifo.Latched ∧
      (past.flatMap (Moment.offers i) <+: frames.flatten →
        WriteLedger (framed frames) params.geometry i past s p) := by
    refine h.induction (P := fun past s => s.WriteOrderly ∧ ∀ p, s.ports[i]? = some p →
      p.writeFifo.Latched ∧ (past.flatMap (Moment.offers i) <+: frames.flatten →
        WriteLedger (framed frames) params.geometry i past s p)) h₀ hu ?_ ?_ ?_
    · refine ⟨Machine.writeOrderly_ofParams h₀, fun p hp => ⟨?_, fun _ => writeLedger_init h₀ hp⟩⟩
      rw [Machine.getElem?_ofParams h₀] at hp
      obtain ⟨q, _, rfl⟩ := Option.map_eq_some_iff.mp hp
      exact Fifo.latched_empty _ _
    · rintro past s s' slave hf ⟨ho, hl⟩ hedge
      refine ⟨Machine.writeOrderly_edge ho hedge, fun p' hp' => ?_⟩
      obtain ⟨p, rstep, wstep, hp, hport⟩ := hedge.port' hp'
      obtain ⟨q', hq', hb⟩ := hf.port i p hp
      rw [hq] at hq'
      cases hq'
      -- the port was built with the latch, and the latch stays
      have hlatch : p.writeFifo.frameLatch = true := hb.writeLatch.trans hmode
      have hcore : p.writer.core.frameMode = true := hb.frameMode.trans hmode
      obtain ⟨hfifo, hledger⟩ := hl p hp
      refine ⟨Port.latched_edge hfifo hlatch hport, fun hstream => ?_⟩
      rw [log_concat] at hstream
      have hbefore := (List.prefix_append _ _).trans hstream
      have hl := hledger hbefore
      refine writeLedger_edge hf ho hl hedge hp hport ?_ ?_
      · intro k d
        refine ⟨fun hc => ?_, fun _ => frameSize_pos hframes k⟩
        rw [hcore] at hc
        cases hc
      · exact WriteCore.sizedRight_of_frame hl.sound hcore hfifo hlatch
          (hl.frameAhead hframes hbefore) (hl.left_lt hframes) rfl rfl
    · rintro past s s' op ht hf ⟨ho, hl⟩ htouch
      refine ⟨Machine.writeOrderly_touched ho htouch, fun p' hp' => ?_⟩
      obtain ⟨p, hp, hport⟩ := htouch.port' hp'
      obtain ⟨hfifo, hledger⟩ := hl p hp
      refine ⟨by rw [hport.writeFifo]; exact hfifo, fun hstream => ?_⟩
      rw [log_concat] at hstream
      exact writeLedger_touched ht (hledger ((List.prefix_append _ _).trans hstream)) htouch hport
  exact (hrun.2 p hp).2 hstream

/-! ## Complete frames -/

/-- What a writer sent is the front of the frames. -/
theorem WriteLedger.consumed_front (hl : WriteLedger (framed frames) params.geometry i past s p)
    (hstream : past.flatMap (Moment.offers i) <+: frames.flatten) :
    past.flatMap (Moment.writerPops i) ++ p.writeFifo.beats <+: frames.flatten := by
  refine List.IsPrefix.trans ?_ hstream
  rw [hl.stream, ← List.append_assoc]
  exact List.prefix_append _ _

/-- At rest a writer has sent as many frames as it took descriptors. -/
theorem WriteLedger.whole_frames (hframes : ∀ f ∈ frames, IsFrame f)
    (hl : WriteLedger (framed frames) params.geometry i past s p)
    (hstream : past.flatMap (Moment.offers i) <+: frames.flatten)
    (hph : p.writer.core.phase = .idle ∨ p.writer.core.phase = .done) :
    (past.flatMap (Moment.writerTakes i)).length ≤ frames.length
      ∧ past.flatMap (Moment.writerPops i)
        = (frames.take (past.flatMap (Moment.writerTakes i)).length).flatten := by
  have hsent := hl.all_sent hph
  unfold transfersOf at hsent
  rw [wordCount_framed] at hsent
  have hprefix := (List.prefix_append _ _).trans (hl.consumed_front hstream)
  have hcount : (past.flatMap (Moment.writerTakes i)).length ≤ frames.length := by
    cases hn : (past.flatMap (Moment.writerTakes i)).length with
    | zero => exact Nat.zero_le _
    | succ k =>
        -- the newest transfer took a word at least, so its frame has begun
        have hsize := frameSize_pos hframes k
        have hlen := hprefix.length_le
        rw [hsent, hn, frameStart_succ] at hlen
        exact lt_of_frameStart_lt (by omega)
  refine ⟨hcount, ?_⟩
  have hlen := hsent.trans (frameStart_eq hcount)
  exact (List.prefix_of_prefix_length_le hprefix (take_flatten_front _ _)
    (Nat.le_of_eq hlen)).eq_of_length hlen

/-! ## Bursts -/

/-- What can be said of the burst `b` that the writer `p` offers after `past`, when its
stream consists of `frames`. -/
structure FrameBurst (frames : List (List Beat)) (g : Geometry) (i : Nat) (past : List Moment)
    (p : Port) (b : Burst) : Prop where
  asked : p.writer.core.request.addr = b.addr ∧ p.writer.core.request.beats = b.words
  nonempty : 1 ≤ b.words
  limit : ∃ d, (past.flatMap (Moment.writerTakes i)).getLast? = some d
    ∧ b.words ≤ clampBurst d.maxBurst
  window : (b.addr + b.words * g.wordBytes - 1) / boundaryBytes = b.addr / boundaryBytes
  /-- It takes up the stream where the bursts before it left it. -/
  sent : ((past.flatMap (Moment.writerIssues i)).map (·.words)).sum
    = (past.flatMap (Moment.writerPops i)).length
  /-- There is a frame for the transfer. -/
  owned : (past.flatMap (Moment.writerTakes i)).length ≤ frames.length
  /-- The bursts before it reach into that frame, and it reaches no further. -/
  inside : (frames.take ((past.flatMap (Moment.writerTakes i)).length - 1)).flatten.length
      ≤ ((past.flatMap (Moment.writerIssues i)).map (·.words)).sum
    ∧ ((past.flatMap (Moment.writerIssues i)).map (·.words)).sum + b.words
      ≤ (frames.take (past.flatMap (Moment.writerTakes i)).length).flatten.length
  /-- It is marked as the last one exactly if it takes the end of the frame. -/
  final : p.writer.core.finalBurst = true
    ↔ ((past.flatMap (Moment.writerIssues i)).map (·.words)).sum + b.words
      = (frames.take (past.flatMap (Moment.writerTakes i)).length).flatten.length

theorem WriteLedger.frameBurst (hg : params.geometry.Legal)
    (hl : WriteLedger (framed frames) params.geometry i past s p)
    (hstream : past.flatMap (Moment.offers i) <+: frames.flatten)
    (hph : p.writer.core.phase = .issueBurst) :
    FrameBurst frames params.geometry i past p ⟨p.writer.core.addr, p.writer.core.burst⟩ := by
  obtain ⟨hpos, hfit, hfinal, haddr, hbeats, hmax, hbound⟩ := hl.sound.offered hph
  obtain ⟨k, hk⟩ := taken_of_left (Nat.lt_of_lt_of_le hpos hfit)
  obtain ⟨hsent, hleft⟩ := hl.inFrame hk
  have hissued : ((past.flatMap (Moment.writerIssues i)).map (·.words)).sum
      = (past.flatMap (Moment.writerPops i)).length := by
    have hcut := hl.cut
    unfold WriteCore.openWords at hcut
    rw [hph] at hcut
    exact hcut
  -- the words of the burst are in the buffer, and so in the stream
  have hheld := hl.backed.1 hph
  have hlen := (hl.consumed_front hstream).length_le
  rw [List.length_append] at hlen
  have hframe : k < frames.length := lt_of_frameStart_lt (by omega)
  have hbegin := frameStart_eq (Nat.le_of_lt hframe)
  have hend : frameStart frames (k + 1) = (frames.take (k + 1)).flatten.length :=
    frameStart_eq hframe
  rw [frameStart_succ] at hend
  -- its first word is one of the words of the transfer
  have hword : p.writer.core.addr
      ∈ addressesOf params.geometry (transfersOf (framed frames) i past) := by
    obtain ⟨addrs, hall, _, _⟩ := hl.sent
    obtain ⟨n, hn⟩ := Nat.exists_eq_add_one.mpr (Nat.lt_of_lt_of_le hpos hfit)
    have hnext : p.writer.core.nextAddr params.geometry = p.writer.core.addr := by
      unfold WriteCore.nextAddr
      rw [hph]
      rfl
    rw [hall, hn, hnext]
    exact List.mem_append_right _ List.mem_cons_self
  obtain ⟨d, hd⟩ : ∃ d, (past.flatMap (Moment.writerTakes i)).getLast? = some d := by
    cases hlast : (past.flatMap (Moment.writerTakes i)).getLast? with
    | some d => exact ⟨d, rfl⟩
    | none =>
        rw [List.getLast?_eq_none_iff.mp hlast] at hk
        cases hk
  refine ⟨⟨haddr, hbeats⟩, hpos, ⟨d, hd, ?_⟩, ?_, hissued, ?_, ?_, ?_⟩
  · rw [← hl.limit d hd]
    exact hmax
  · exact Geometry.window_of_wordsUntilBoundary hg (addressesOf_mod hg hword) hpos hbound
  · rw [hk]
    exact hframe
  · rw [hk, Nat.add_sub_cancel, hissued]
    dsimp only
    omega
  · rw [hk, hissued, hfinal]
    dsimp only
    omega

/-- Only a writer that offers a burst issues one. -/
theorem Moment.offered_of_issued {e : Moment} {s' : Machine} {b : Burst}
    (h : e.2.apply e.1 = .ok s') (hb : b ∈ writerIssues i e) :
    ∃ p, e.1.ports[i]? = some p ∧ p.writer.core.phase = .issueBurst
      ∧ b = ⟨p.writer.core.addr, p.writer.core.burst⟩ := by
  obtain ⟨s, op⟩ := e
  by_cases ht : op = .tick
  · subst ht
    obtain ⟨slave, hedge⟩ := Machine.tick_edge h
    cases hp : s.ports[i]? with
    | none => simp [writerIssues, writerEdge, hp] at hb
    | some p =>
        obtain ⟨rstep, wstep, p', _, hport⟩ := hedge.port i p hp
        obtain ⟨_, hissues, _⟩ := writer_tick hedge.drives hp hport
        rw [hissues, (Machine.served_edge hport).issued] at hb
        split at hb
        · rename_i hfire
          exact ⟨p, rfl, (s.phase_of_fires i p).1 hfire, List.mem_singleton.mp hb⟩
        · cases hb
  · obtain ⟨_, _, hissues, _, _⟩ := writer_silent (s := s) ht i
    rw [hissues] at hb
    cases hb

/-- Every burst that a writer issues in frame mode is one of `FrameBurst`. -/
theorem History.frameBurst {q : PortParams} {before after : List Moment} {e : Moment}
    {b : Burst} (h₀ : Machine.ofParams params = .ok s₀) (h : History s₀ past s)
    (hu : Uninterrupted past) (hq : params.ports[i]? = some q) (hmode : q.frameMode = true)
    (hg : params.geometry.Legal) (hstream : past.flatMap (Moment.offers i) <+: frames.flatten)
    (hframes : ∀ f ∈ frames, IsFrame f) (hpast : past = before ++ e :: after)
    (hb : b ∈ Moment.writerIssues i e) :
    ∃ p, e.1.ports[i]? = some p ∧ FrameBurst frames params.geometry i before p b := by
  -- the ledger of the history up to the moment speaks about the burst
  obtain ⟨hbefore, s', hstep⟩ := h.moment hpast
  obtain ⟨p, hp, hph, rfl⟩ := Moment.offered_of_issued hstep hb
  have hstream' : before.flatMap (Moment.offers i) <+: frames.flatten := by
    refine List.IsPrefix.trans ?_ hstream
    rw [hpast, List.flatMap_append]
    exact List.prefix_append _ _
  have hu' : Uninterrupted before := by
    intro e' he'
    exact hu e' (by rw [hpast]; exact List.mem_append_left _ he')
  have hl := hbefore.frameLedger h₀ hu' hq hmode hframes hstream' hp
  exact ⟨p, hp, hl.frameBurst hg hstream' hph⟩

/-! ## What the registers show -/

/-- After a transfer the register shows what it took. -/
theorem WriteLedger.remaining_eq (hl : WriteLedger (framed frames) params.geometry i past s p)
    (hmode : p.writer.core.frameMode = true) (hi : i < 256) (hp : s.ports[i]? = some p)
    (hph : p.writer.core.phase = .idle ∨ p.writer.core.phase = .done) {k : Nat} {f : List Beat}
    (hk : (past.flatMap (Moment.writerTakes i)).length = k + 1) (hf : frames[k]? = some f) :
    (s.readRegister (Register.address i .writer Register.remaining.index)).result
      = .ok (UInt32.ofNat f.length) := by
  have hsent := hl.all_sent hph
  obtain ⟨hcount, hsplit⟩ := hl.inFrame hk
  have hnone : wordsLeft (framed frames) i past = 0 := by
    unfold wordsLeft
    omega
  have hsize : frameSize frames k = f.length := by
    unfold frameSize
    rw [hf]
    rfl
  have hwritten : p.writer.core.written = f.length := by omega
  -- in frame mode the register shows the words that were sent
  have hstatus : p.writeStatus = .ok {
      remaining := p.writer.core.written
      error := p.writer.core.error
      fifoLevel := p.writeFifo.level } := by
    unfold Port.writeStatus WriteCore.remainingWords
    rw [hmode]
    rfl
  unfold Machine.readRegister
  refine Run.result_bind_eq_ok.mpr ⟨_, Machine.decode_address hi hp .remaining, ?_⟩
  refine Run.result_bind_eq_ok.mpr ⟨_, hstatus, ?_⟩
  rw [hwritten]
  rfl

/-! ## Frame mode -/

/-- What a writer sent belongs to the frames of its transfers. -/
theorem WriteLedger.consumed_frames (hl : WriteLedger (framed frames) params.geometry i past s p)
    (hstream : past.flatMap (Moment.offers i) <+: frames.flatten) :
    past.flatMap (Moment.writerPops i)
      <+: (frames.take (past.flatMap (Moment.writerTakes i)).length).flatten := by
  have hfits := hl.fits
  have hprefix := (List.prefix_append _ _).trans (hl.consumed_front hstream)
  have hlen := hprefix.length_le
  unfold transfersOf at hfits
  rw [wordCount_framed] at hfits
  refine List.prefix_of_prefix_length_le hprefix (take_flatten_front _ _) ?_
  by_cases h : (past.flatMap (Moment.writerTakes i)).length ≤ frames.length
  · rw [← frameStart_eq h]
    exact hfits
  · rw [List.take_of_length_le (Nat.le_of_not_le h)]
    exact hlen

/-- **A writer in frame mode stores frame after frame.** Its `k`-th transfer takes the
`k`-th frame of the stream and stores it word after word from the start of the transfer on;
nothing else is stored for that port, and only the newest transfer can be unfinished. When
the writer is done, the frames of all its transfers are stored, all its bursts are
answered, and its register shows the length of the last frame. Every burst is one of
`FrameBurst`. -/
theorem frame_transfer {q : PortParams} (hg : params.geometry.Legal)
    (h₀ : Machine.ofParams params = .ok s₀) (h : History s₀ past s) (hu : Uninterrupted past)
    (hq : params.ports[i]? = some q) (hmode : q.frameMode = true)
    (hframes : ∀ f ∈ frames, IsFrame f)
    (hstream : past.flatMap (Moment.offers i) <+: frames.flatten)
    (hp : s.ports[i]? = some p) :
    let accepted := past.flatMap (Moment.writerTakes i)
    let consumed := past.flatMap (Moment.writerPops i)
    let stored := past.flatMap (Moment.memoryStores i)
    consumed <+: past.flatMap (Moment.offers i)
      ∧ stored = expectedWrites params.geometry (accepted.zip (frames.map (·.length)))
          (consumed.take stored.length)
      ∧ (frames.take (accepted.length - 1)).flatten.length ≤ stored.length
      ∧ stored.length ≤ consumed.length
      ∧ consumed <+: (frames.take accepted.length).flatten
      ∧ (p.writer.isIdle = true ∨ p.writeOutputs.done = true →
        accepted.length ≤ frames.length
          ∧ consumed = (frames.take accepted.length).flatten
          ∧ stored.length = consumed.length
          ∧ (past.flatMap (Moment.writerAnswers i)).length
            = (past.flatMap (Moment.writerIssues i)).length
          ∧ ∀ k f, accepted.length = k + 1 → frames[k]? = some f →
            (s.readRegister (Register.address i .writer Register.remaining.index)).result
              = .ok (UInt32.ofNat f.length))
      ∧ s.memory.store = past.foldl Moment.storeAfter s₀.memory.store
      ∧ ∀ before e after, past = before ++ e :: after → ∀ b ∈ Moment.writerIssues i e,
        ∃ p, e.1.ports[i]? = some p ∧ FrameBurst frames params.geometry i before p b := by
  intro accepted consumed stored
  have hl := h.frameLedger h₀ hu hq hmode hframes hstream hp
  have ho := Machine.writeOrderly_reachable ⟨s₀, past, h₀, h⟩
  have hlen : stored.length + (s.gathered i).length = consumed.length := hl.stored_length
  have hfront : consumed <+: (frames.take accepted.length).flatten := hl.consumed_frames hstream
  refine ⟨?_, ?_, ?_, ?_, ?_, ?_, h.store_eq h₀, ?_⟩
  · rw [hl.stream]
    exact List.prefix_append _ _
  · refine (hl.stored_eq hg).trans (expectedWrites_zip _ _ _ ?_)
    rw [wordCount_zip_frames, List.length_take]
    exact Nat.le_trans (Nat.min_le_right _ _) hfront.length_le
  · have hfin := hl.finished
    unfold transfersOf at hfin
    rw [wordCount_dropLast_framed] at hfin
    rw [length_take_flatten]
    exact Nat.le_trans (frameStart_mono (Nat.min_le_left _ _)) hfin
  · omega
  · exact hfront
  · intro hrest
    have hph : p.writer.core.phase = .idle ∨ p.writer.core.phase = .done := by
      rcases hrest with hrest | hrest
      · exact Or.inl (beq_iff_eq.mp hrest)
      · exact Or.inr (beq_iff_eq.mp hrest)
    obtain ⟨hcount, hwhole⟩ := hl.whole_frames hframes hstream hph
    obtain ⟨hstored, hanswered⟩ := hl.all_stored (ho.port i p hp) hph
    refine ⟨hcount, hwhole, hstored.trans (hl.all_sent hph).symm, hanswered, ?_⟩
    intro k f hk hf
    obtain ⟨q', hq', hb⟩ := (h.formed h₀).port i p hp
    rw [hq] at hq'
    cases hq'
    have hports : params.ports.length ≤ 32 := Machine.length_ofParams h₀
    have hi := (List.getElem?_eq_some_iff.mp hq).1
    exact hl.remaining_eq (hb.frameMode.trans hmode) (by omega) hp hph hk hf
  · intro before e after hpast b hb
    exact h.frameBurst h₀ hu hq hmode hg hstream hframes hpast hb

end

/-- A writer that was asked for nothing stores the three words of its first frame; the
second frame waits. -/
theorem frame_transfer_three_words :
    ∃ s₀ past s p,
      Machine.ofParams { ports := [{ fifoDepth := 4, frameMode := true }, {}] } = .ok s₀
      ∧ History s₀ past s ∧ s.ports[0]? = some p ∧ p.writeOutputs.done = true
      ∧ past.flatMap (Moment.writerTakes 0) = [⟨8, 0, 2⟩]
      ∧ (past.flatMap (Moment.writerPops 0)).map (·.data) = [5, 6, 7]
      ∧ (past.flatMap (Moment.memoryStores 0)).length = 3 := by
  have hrun : Machine.trial { ports := [{ fifoDepth := 4, frameMode := true }, {}] }
      ([.push 0 [⟨5, false⟩, ⟨6, false⟩, ⟨7, true⟩, ⟨8, true⟩]]
        ++ Operation.program 0 .writer 8 0 2 ++ List.replicate 14 .tick)
      (fun past s => decide (Uninterrupted past)
        && decide (past.flatMap (Moment.writerTakes 0) = [⟨8, 0, 2⟩])
        && decide (past.flatMap (Moment.offers 0)
          = [⟨5, false⟩, ⟨6, false⟩, ⟨7, true⟩, ⟨8, true⟩])
        && (s.ports[0]?).any (·.writeOutputs.done)) = true := by
    decide +kernel
  obtain ⟨s₀, past, s, h₀, h, hlook⟩ := Machine.exists_of_trial hrun
  rw [Bool.and_eq_true, Bool.and_eq_true, Bool.and_eq_true, decide_eq_true_eq,
    decide_eq_true_eq, decide_eq_true_eq] at hlook
  obtain ⟨⟨⟨hu, htakes⟩, hoffers⟩, hdone⟩ := hlook
  obtain ⟨p, hp, hdone⟩ := (Option.any_eq_true _ _).mp hdone
  have hframes : ∀ f ∈ [[⟨5, false⟩, ⟨6, false⟩, ⟨7, true⟩], [⟨8, true⟩]], IsFrame f := by
    decide
  obtain ⟨_, _, _, _, _, hall, _⟩ := frame_transfer (by decide) h₀ h hu rfl rfl hframes
    (by rw [hoffers]; exact List.prefix_refl _) hp
  obtain ⟨_, hconsumed, hstored, _⟩ := hall (Or.inr hdone)
  rw [hconsumed, htakes] at hstored
  refine ⟨s₀, past, s, p, h₀, h, hp, hdone, htakes, ?_, hstored⟩
  rw [hconsumed, htakes]
  rfl

end BurstDma
