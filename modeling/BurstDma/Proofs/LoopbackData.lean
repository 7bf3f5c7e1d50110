import BurstDma.Proofs.FrameTransfer
import BurstDma.Proofs.LoopbackRun
import BurstDma.Proofs.StoreContents
import BurstDma.Proofs.Totality

/-!
# The words of a self-check

Word `m` of what a port sends belongs at one index of the memory, and nobody else writes
there: all writes to it carry the same value. The reader's script hands a frame over only
after it has seen it stored, and so **a word is in memory before it is asked for**. What a
port sends therefore comes back to it, word for word, however the other ports and the clock
interleave with it.
-/

namespace BurstDma

/-! ## Transfers of equal length -/

section

variable {ds : List Descriptor} {n : Nat}

theorem wordCount_uniform (ds : List Descriptor) (n : Nat) :
    wordCount (ds.map fun d => (d, n)) = ds.length * n := by
  have hmap : (ds.map fun d => (d, n)).map (·.2) = List.replicate ds.length n := by
    rw [List.map_map]
    exact List.map_const' ..
  unfold wordCount
  rw [hmap, List.sum_replicate_nat]

/-- The descriptor and the position that a word belongs to. -/
theorem wordsOf_uniform {m : Nat} {t : Descriptor × Nat}
    (h : (wordsOf (ds.map fun d => (d, n)))[m]? = some t) :
    ds[m / n]? = some t.1 ∧ t.2 = m % n := by
  have hn : 0 < n := by
    rcases Nat.eq_zero_or_pos n with rfl | hn
    · have hm := (List.getElem?_eq_some_iff.mp h).1
      rw [length_wordsOf, wordCount_uniform, Nat.mul_zero] at hm
      cases hm
    · exact hn
  have hj := Nat.mod_lt m hn
  unfold wordsOf at h
  rw [List.flatMap_def, List.map_map, ← Nat.div_add_mod' m n,
    flatten_rows_getElem? _ _ hj] at h
  · obtain ⟨row, hrow, h⟩ := Option.bind_eq_some_iff.mp h
    rw [List.getElem?_map] at hrow
    obtain ⟨d, hd, rfl⟩ := Option.map_eq_some_iff.mp hrow
    rw [Function.comp_apply, List.getElem?_map, List.getElem?_range hj] at h
    cases h
    exact ⟨hd, rfl⟩
  · intro row hrow
    obtain ⟨d, _, rfl⟩ := List.mem_map.mp hrow
    exact (List.length_map _).trans List.length_range

theorem whole_uniform (h : ∀ d ∈ ds, d.words = n) : whole ds = ds.map fun d => (d, n) :=
  List.map_congr_left fun d hd => by rw [h d hd]

theorem sized_uniform {size : Nat → Descriptor → Nat}
    (h : ∀ k d, ds[k]? = some d → size k d = n) : sized size ds = ds.map fun d => (d, n) := by
  refine List.ext_getElem? fun k => ?_
  unfold sized
  rw [List.getElem?_map, List.getElem?_zipIdx, List.getElem?_map, Option.map_map, Nat.zero_add]
  cases hk : ds[k]? with
  | none => rfl
  | some d => exact congrArg (fun j => some (d, j)) (h k d hk)

end

namespace Loopback

variable {l : Loopback} {v : LoopbackVectors} {params : MachineParams} {s₀ s s' : Machine}
  {pos : Role → Nat} {past : List Moment} {i m : Nat} {p : Port} {beats : List Beat} {b : Beat}

theorem Bench.wordBytes_pos (hb : l.Bench v params s₀) : 0 < l.wordBytes :=
  hb.width ▸ hb.legal.wordBytes_pos

/-- Every port has an input. -/
theorem Bench.input (hb : l.Bench v params s₀) (hi : i < l.ports) :
    ∃ beats, v.inputs[i]? = some beats :=
  ⟨_, List.getElem?_eq_getElem (hb.vectors.ports.symm ▸ hi)⟩

/-- The place of a word, on either side: its index counts the words of all ports. -/
theorem Bench.word_place (hb : l.Bench v params s₀) {side : Side} {ds : List Descriptor}
    (hds : ds = (List.range ds.length).map (l.descriptor i side)) {t : Descriptor × Nat}
    (ht : (wordsOf (ds.map fun d => (d, l.words)))[m]? = some t) :
    (t.1.place params.geometry t.2).index = i * l.portWords + m := by
  obtain ⟨hd, hk⟩ := wordsOf_uniform ht
  have hlt := (List.getElem?_eq_some_iff.mp hd).1
  rw [hds, List.getElem?_map, List.getElem?_range hlt] at hd
  have hdesc : l.descriptor i side (m / l.words) = t.1 := Option.some.inj hd
  rw [← hdesc, descriptor_place hb.legal hb.width, hk, Nat.div_add_mod']

namespace Running

/-! ## How far the engines are -/

theorem offers_eq (h : l.Running v s₀ pos past s) (hin : v.inputs[i]? = some beats) :
    past.flatMap (Moment.offers i) = beats := by
  rw [h.offers, hin]
  rfl

theorem lt_ports (hb : l.Bench v params s₀) (h : l.Running v s₀ pos past s)
    (hp : s.ports[i]? = some p) : i < l.ports :=
  h.length hb ▸ (List.getElem?_eq_some_iff.mp hp).1

/-- The descriptors that an engine took are those of its frames. -/
theorem inOrder (h : l.Running v s₀ pos past s) (hp : s.ports[i]? = some p) (side : Side) :
    past.flatMap (Moment.takes i side)
      = (List.range (past.flatMap (Moment.takes i side)).length).map (l.descriptor i side) := by
  cases side with
  | writer => exact (h.port i p hp).writer.handover.inOrder
  | reader => exact (h.port i p hp).reader.handover.inOrder

theorem takes_words (h : l.Running v s₀ pos past s) (hp : s.ports[i]? = some p) (side : Side) :
    ∀ d ∈ past.flatMap (Moment.takes i side), d.words = l.submittedWords side := by
  intro d hd
  rw [h.inOrder hp side] at hd
  obtain ⟨k, _, rfl⟩ := List.mem_map.mp hd
  rfl

/-- A writer takes a frame at most as often as there are frames. -/
theorem written_le (h : l.Running v s₀ pos past s) (hp : s.ports[i]? = some p) :
    (past.flatMap (Moment.writerTakes i)).length ≤ l.frames := by
  obtain ⟨_, hle, _⟩ := (h.port i p hp).writer.handover.counts
  have hwithin := h.within (i, .writer)
  rw [length_commands] at hwithin
  dsimp only [frameLength] at hwithin
  refine Nat.le_trans hle ?_
  split <;> omega

/-- The frames that the reader's script has seen stored. -/
theorem seen_le (h : l.Running v s₀ pos past s) (i : Nat) :
    (pos (i, .reader) + 7) / 9 ≤ l.frames := by
  have hwithin := h.within (i, .reader)
  rw [length_commands] at hwithin
  dsimp only [frameLength] at hwithin
  omega

/-- Only frames that were seen stored are read back. -/
theorem asked_le (h : l.Running v s₀ pos past s) (hp : s.ports[i]? = some p) :
    (past.flatMap (Moment.readerTakes i)).length ≤ (pos (i, .reader) + 7) / 9 := by
  obtain ⟨_, hle, _⟩ := (h.port i p hp).reader.handover.counts
  refine Nat.le_trans hle ?_
  split <;> omega

/-- What a reader is asked for. -/
theorem asked_eq (h : l.Running v s₀ pos past s) (hp : s.ports[i]? = some p) :
    whole (past.flatMap (Moment.readerTakes i))
      = (past.flatMap (Moment.readerTakes i)).map fun d => (d, l.words) :=
  whole_uniform (h.takes_words hp .reader)

/-! ## What is stored -/

/-- The frames of a port are frames as the stream knows them, unless they have no words. -/
theorem isFrame_of_input (hb : l.Bench v params s₀) (hi : i < l.ports) (hpos : 0 < l.words)
    {frames : List (List Beat)} (hlen : frames.length = l.frames)
    (hframes : ∀ f ∈ frames, f.length = l.words ∧ f.map (·.last) = endMarks 0 l.words) :
    ∀ f ∈ frames, IsFrame f := by
  intro f hf
  obtain ⟨hwords, hmarks⟩ := hframes f hf
  have hsome : 0 < l.frames := hlen ▸ List.length_pos_of_mem hf
  have hlt := hb.vectors.words_lt hb.wordBytes_pos hi hsome
  rw [← hwords] at hpos hmarks hlt
  exact ⟨List.length_pos_iff.mp hpos, hlt, hmarks⟩

/-- The ledger of a writer in length mode: every descriptor asks for a frame. -/
theorem lengthLedger (hb : l.Bench v params s₀) (h : l.Running v s₀ pos past s)
    (hp : s.ports[i]? = some p) (hmode : l.frameMode = false) :
    ∃ size, WriteLedger size params.geometry i past s p
      ∧ transfersOf size i past
        = (past.flatMap (Moment.writerTakes i)).map fun d => (d, l.words) := by
  obtain ⟨q, hq, _⟩ := (h.reachable hb).formed.port i p hp
  have hqmode := (hb.mode q (List.mem_of_getElem? hq)).trans hmode
  refine ⟨_, h.history.lengthLedger hb.machine h.uninterrupted hq hqmode hp, ?_⟩
  refine (sized_words _).trans (whole_uniform fun d hd => ?_)
  rw [h.takes_words hp .writer d hd]
  exact if_neg (hmode ▸ Bool.false_ne_true)

/-- The ledger of a writer in frame mode: every transfer takes a frame. Frames without words
are no frames there. -/
theorem frameLedger (hb : l.Bench v params s₀) (h : l.Running v s₀ pos past s)
    (hp : s.ports[i]? = some p) (hmode : l.frameMode = true) :
    ∃ size, WriteLedger size params.geometry i past s p
      ∧ (0 < l.words → transfersOf size i past
        = (past.flatMap (Moment.writerTakes i)).map fun d => (d, l.words)) := by
  have hi := h.lt_ports hb hp
  obtain ⟨beats, hin⟩ := hb.input hi
  obtain ⟨q, hq, _⟩ := (h.reachable hb).formed.port i p hp
  have hqmode := (hb.mode q (List.mem_of_getElem? hq)).trans hmode
  obtain ⟨frames, hbeats, hlen, hframes⟩ := hb.vectors.input i beats hin
  have hoffers := h.offers_eq hin
  rcases Nat.eq_zero_or_pos l.words with hzero | hpos
  · -- there is no beat at all
    have hnone : beats = [] := by
      refine List.eq_nil_of_length_eq_zero ?_
      rw [hb.vectors.length_input hin, portWords, hzero, Nat.mul_zero]
    have hnoframe : ∀ f ∈ ([] : List (List Beat)), IsFrame f := fun f hf =>
      absurd hf List.not_mem_nil
    refine ⟨_, h.history.frameLedger hb.machine h.uninterrupted hq hqmode hnoframe ?_ hp,
      fun hpos => by omega⟩
    rw [hoffers, hnone]
    exact List.nil_prefix
  · have hstream : past.flatMap (Moment.offers i) <+: frames.flatten :=
      ⟨[], by rw [List.append_nil, hoffers, hbeats]⟩
    refine ⟨_, h.history.frameLedger hb.machine h.uninterrupted hq hqmode
      (isFrame_of_input hb hi hpos hlen hframes) hstream hp,
      fun _ => sized_uniform fun k d hk => ?_⟩
    have hlt : k < frames.length := by
      rw [hlen]
      exact Nat.lt_of_lt_of_le (List.getElem?_eq_some_iff.mp hk).1 (h.written_le hp)
    show frameSize frames k = l.words
    unfold frameSize
    rw [List.getElem?_eq_getElem hlt]
    exact (hframes _ (List.getElem_mem hlt)).1

/-- The ledger of a writer, in either mode. -/
theorem writeLedger (hb : l.Bench v params s₀) (h : l.Running v s₀ pos past s)
    (hp : s.ports[i]? = some p) :
    ∃ size, WriteLedger size params.geometry i past s p
      ∧ (0 < l.words → transfersOf size i past
        = (past.flatMap (Moment.writerTakes i)).map fun d => (d, l.words)) := by
  cases hmode : l.frameMode with
  | false =>
      obtain ⟨size, hl, htransfers⟩ := h.lengthLedger hb hp hmode
      exact ⟨size, hl, fun _ => htransfers⟩
  | true => exact h.frameLedger hb hp hmode

/-- What a writer sent is the front of the input. -/
theorem sent_prefix (hb : l.Bench v params s₀) (h : l.Running v s₀ pos past s)
    (hp : s.ports[i]? = some p) (hin : v.inputs[i]? = some beats) :
    past.flatMap (Moment.writerPops i) <+: beats := by
  obtain ⟨size, hl, _⟩ := h.writeLedger hb hp
  rw [← h.offers_eq hin, hl.stream]
  exact List.prefix_append _ _

/-- **Every word is stored where it belongs.** -/
theorem stored_word (hb : l.Bench v params s₀) (h : l.Running v s₀ pos past s)
    (hp : s.ports[i]? = some p) (hin : v.inputs[i]? = some beats) {w : Place × Word}
    (hw : (past.flatMap (Moment.memoryStores i))[m]? = some w) :
    w.1.index = i * l.portWords + m ∧ ∃ b, beats[m]? = some b ∧ w.2 = b.data := by
  obtain ⟨size, hl, htransfers⟩ := h.writeLedger hb hp
  rw [hl.stored_eq hb.legal] at hw
  unfold expectedWrites at hw
  obtain ⟨t, b, ht, hb', rfl⟩ := List.getElem?_zipWith_eq_some.mp hw
  -- its beat is that of the input
  rw [List.getElem?_take] at hb'
  split at hb'
  · obtain ⟨rest, hrest⟩ := h.sent_prefix hb hp hin
    have hbeat : beats[m]? = some b := by
      rw [← hrest, List.getElem?_append_left (List.getElem?_eq_some_iff.mp hb').1]
      exact hb'
    have hpos : 0 < l.words := by
      rcases Nat.eq_zero_or_pos l.words with hzero | hpos
      · have hm := (List.getElem?_eq_some_iff.mp hbeat).1
        rw [hb.vectors.length_input hin, portWords, hzero, Nat.mul_zero] at hm
        cases hm
      · exact hpos
    rw [htransfers hpos] at ht
    exact ⟨hb.word_place (h.inOrder hp .writer) ht, b, hbeat, rfl⟩
  · cases hb'

/-- **The frames that the reader's script has seen are stored.** -/
theorem stored_le (hb : l.Bench v params s₀) (h : l.Running v s₀ pos past s)
    (hp : s.ports[i]? = some p) :
    (pos (i, .reader) + 7) / 9 * l.words ≤ (past.flatMap (Moment.memoryStores i)).length := by
  obtain ⟨size, hl, htransfers⟩ := h.writeLedger hb hp
  rcases Nat.eq_zero_or_pos l.words with hzero | hpos
  · rw [hzero]
    exact Nat.zero_le _
  have hover := (h.port i p hp).writer.handover
  obtain ⟨hseen, _, _⟩ := hover.counts
  have hcount : (past.flatMap (Moment.takes i .writer)).length
      = (past.flatMap (Moment.writerTakes i)).length := rfl
  rcases Nat.lt_or_eq_of_le hseen with hlt | heq
  · -- only the newest transfer can be unfinished, and it was not seen
    have hfin := hl.finished
    rw [htransfers hpos, ← List.map_dropLast, wordCount_uniform, List.length_dropLast] at hfin
    exact Nat.le_trans (Nat.mul_le_mul_right _ (by omega)) hfin
  · -- an engine whose completions were all seen rests
    have hidle := hover.idle.mpr (Or.inr heq.symm)
    have ho := Machine.writeOrderly_reachable (h.reachable hb)
    obtain ⟨hstored, _⟩ := hl.all_stored (ho.port i p hp) (Or.inl (beq_iff_eq.mp hidle))
    rw [htransfers hpos, wordCount_uniform] at hstored
    rw [hstored, heq]
    exact Nat.le_refl _

/-- All writes to a word of the memory carry the word of the reference. -/
theorem agreed (hb : l.Bench v params s₀) (h : l.Running v s₀ pos past s) :
    History.Agreed params past fun k => (v.memoryRef[k]?).getD 0 := by
  refine ⟨hb.faultless, fun e he base words hload => ?_, fun i hi w hw => ?_⟩
  · have hplain := h.plain e he
    rw [hload] at hplain
    exact hplain
  · have hlen : s.ports.length = params.ports.length := (h.reachable hb).formed.length
    have hp := List.getElem?_eq_getElem (hlen.symm ▸ hi : i < s.ports.length)
    obtain ⟨beats, hin⟩ := hb.input (hb.ports ▸ hi)
    obtain ⟨m, hm⟩ := List.mem_iff_getElem?.mp hw
    obtain ⟨hindex, b, hbeat, hdata⟩ := h.stored_word hb hp hin hm
    rw [hindex, hb.vectors.memoryRef_word hin hbeat]
    exact hdata

/-- **A word that was stored is in memory.** -/
theorem holds_stored (hb : l.Bench v params s₀) (h : l.Running v s₀ pos past s)
    (hp : s.ports[i]? = some p) (hin : v.inputs[i]? = some beats)
    (hm : m < (past.flatMap (Moment.memoryStores i)).length) (hbeat : beats[m]? = some b) :
    s.memory.store.get? (i * l.portWords + m) = some b.data := by
  obtain ⟨hindex, _⟩ := h.stored_word hb hp hin (List.getElem?_eq_getElem hm)
  have href := hb.vectors.memoryRef_word hin hbeat
  have hsize : i * l.portWords + m < params.memory.sizeWords := by
    rw [hb.size, ← hb.vectors.length_memoryRef]
    exact (List.getElem?_eq_some_iff.mp href).1
  have hget := (h.agreed hb).written hb.machine h.history (List.getElem_mem hm) (hindex ▸ hsize)
  rw [hindex, href] at hget
  exact hget

/-! ## What comes back -/

/-- Without failing regions, memory shows what it holds. -/
theorem valueAt_eq (hb : l.Bench v params s₀) (h : l.Running v s₀ pos past s) (q : Place) :
    s.memory.store.valueAt q = (s.memory.store.get? q.index).getD 0 := by
  have hregions := (h.reachable hb).formed.regions
  unfold Store.valueAt Store.faulty
  rw [hregions, hb.faultless]
  rfl

/-- The words that the memory has sent for a port are among those stored for it. -/
theorem fetched_le (hb : l.Bench v params s₀) (h : l.Running v s₀ pos past s)
    (hp : s.ports[i]? = some p) :
    (past.flatMap (Moment.memorySends i)).length ≤ (pos (i, .reader) + 7) / 9 * l.words := by
  obtain ⟨hl, _⟩ := h.history.readLedger hb.machine h.uninterrupted hp
  obtain ⟨addrs, hall, hlen, _⟩ := hl.sent
  have hcount := congrArg List.length hall
  rw [addressesOf, List.length_map, length_wordsOf, h.asked_eq hp, wordCount_uniform,
    List.length_append, hlen] at hcount
  have hasked := Nat.mul_le_mul_right l.words (h.asked_le hp)
  omega

end Running

/-- Every word that the memory has sent for a port was read when its place held what the port
had stored there. -/
def Fetched (l : Loopback) (v : LoopbackVectors) (past : List Moment) : Prop :=
  ∀ (i : Nat) (beats : List Beat) (m : Nat) (x : ReadBeat × Store) (b : Beat),
    v.inputs[i]? = some beats → (past.flatMap (Moment.memorySends i))[m]? = some x →
    beats[m]? = some b → ∀ q : Place, q.index = i * l.portWords + m → x.2.valueAt q = b.data

namespace Fetched

theorem init : l.Fetched v [] := by
  intro i beats m x b _ hx
  cases hx

/-- Between the ticks the memory sends nothing. -/
theorem quiet (h : l.Fetched v past) {more : List Moment} (hmore : ∀ e ∈ more, e.2 ≠ .tick) :
    l.Fetched v (past ++ more) := by
  intro i beats m x b hin hx
  have hnone : more.flatMap (Moment.memorySends i) = [] := by
    rw [List.flatMap_eq_nil_iff]
    intro e he
    exact (Moment.reader_silent (hmore e he) i).2.2
  rw [List.flatMap_append, hnone, List.append_nil] at hx
  exact h i beats m x b hin hx

/-- **A word that the memory sends was stored before.** -/
theorem tick (hb : l.Bench v params s₀) (h : l.Running v s₀ pos past s) (hf : l.Fetched v past)
    (ht : s.tick.result = .ok s') : l.Fetched v (past ++ [(s, .tick)]) := by
  intro i beats m x b hin hx hbeat q hq
  have h' := h.tick ht
  have hi : i < l.ports := hb.vectors.ports ▸ (List.getElem?_eq_some_iff.mp hin).1
  have hp := List.getElem?_eq_getElem ((h.length hb).symm ▸ hi)
  have hp' := List.getElem?_eq_getElem ((h'.length hb).symm ▸ hi)
  have hfetched := h'.fetched_le hb hp'
  have hm := (List.getElem?_eq_some_iff.mp hx).1
  rw [log_concat] at hx hm hfetched
  by_cases hold : m < (past.flatMap (Moment.memorySends i)).length
  · rw [List.getElem?_append_left hold] at hx
    exact hf i beats m x b hin hx hbeat q hq
  · rw [List.getElem?_append_right (Nat.le_of_not_lt hold)] at hx
    -- the word is read from memory as it is now
    have hx' : x.2 = s.memory.store := by
      have hmem := List.mem_of_getElem? hx
      unfold Moment.memorySends at hmem
      split at hmem
      · split at hmem
        · rw [List.mem_singleton.mp hmem]
        · cases hmem
      · cases hmem
    have hstored := Nat.lt_of_lt_of_le (Nat.lt_of_lt_of_le hm hfetched) (h.stored_le hb hp)
    rw [hx', h.valueAt_eq hb, hq, h.holds_stored hb hp hin hstored hbeat]
    rfl

end Fetched

namespace Running

/-- A beat that a reader delivers is that of the input. -/
theorem delivered_word (hb : l.Bench v params s₀) (h : l.Running v s₀ pos past s)
    (hf : l.Fetched v past) (hp : s.ports[i]? = some p) (hin : v.inputs[i]? = some beats)
    {b' : Beat} (hb' : (past.flatMap (Moment.readerPushes i))[m]? = some b')
    (hbeat : beats[m]? = some b) : b' = b := by
  obtain ⟨hl, _⟩ := h.history.readLedger hb.machine h.uninterrupted hp
  rw [hl.pushed_eq hb.legal] at hb'
  unfold expectedBeats at hb'
  obtain ⟨t, store, ht, hstore, rfl⟩ := List.getElem?_zipWith_eq_some.mp hb'
  rw [List.getElem?_map] at hstore
  obtain ⟨x, hx, rfl⟩ := Option.map_eq_some_iff.mp hstore
  rw [List.getElem?_take] at hx
  split at hx
  · rw [h.asked_eq hp] at ht
    obtain ⟨hd, hk⟩ := wordsOf_uniform ht
    -- its data is the word that was stored, its mark is that of its place in the frame
    have hdata := hf i beats m x b hin hx hbeat _ (hb.word_place (h.inOrder hp .reader) ht)
    have hlast := hb.vectors.input_last hin hbeat
    have hwords : t.1.words = l.words :=
      h.takes_words hp .reader t.1 (List.mem_of_getElem? hd)
    rw [hdata, hwords, hk, ← hlast]
  · cases hx

/-- A reader delivers no more than the input has. -/
theorem delivered_le (hb : l.Bench v params s₀) (h : l.Running v s₀ pos past s)
    (hp : s.ports[i]? = some p) :
    (past.flatMap (Moment.readerPushes i)).length ≤ l.portWords := by
  obtain ⟨hl, _⟩ := h.history.readLedger hb.machine h.uninterrupted hp
  obtain ⟨hwords, _⟩ := hl.delivered_le
  rw [h.asked_eq hp, wordCount_uniform] at hwords
  exact Nat.le_trans hwords (Nat.mul_le_mul_right _ (Nat.le_trans (h.asked_le hp) (h.seen_le i)))

/-- **What a reader delivers is the front of the input**, with its marks. -/
theorem delivered_prefix (hb : l.Bench v params s₀) (h : l.Running v s₀ pos past s)
    (hf : l.Fetched v past) (hp : s.ports[i]? = some p) (hin : v.inputs[i]? = some beats) :
    past.flatMap (Moment.readerPushes i) <+: beats := by
  have hlen := h.delivered_le hb hp
  rw [← hb.vectors.length_input hin] at hlen
  refine List.prefix_iff_getElem?.mpr fun m hm => ?_
  have hbeat := List.getElem?_eq_getElem (Nat.lt_of_lt_of_le hm hlen)
  rw [h.delivered_word hb hf hp hin (List.getElem?_eq_getElem hm) hbeat]
  exact hbeat

/-! ## A cycle is never refused -/

/-- **The clock can always tick.** -/
theorem tick_ok (hb : l.Bench v params s₀) (h : l.Running v s₀ pos past s) :
    ∃ s', s.tick.result = .ok s' := by
  refine Machine.tick_ok hb.legal (h.reachable hb) fun i p hp _ hhead => ?_
  obtain ⟨beats, hin⟩ := hb.input (h.lt_ports hb hp)
  obtain ⟨size, hl, _⟩ := h.writeLedger hb hp
  -- the stream bounds the count: the beat on offer was not sent
  have hwritten := hl.written
  have hstream := congrArg List.length hl.stream
  rw [h.offers_eq hin, hb.vectors.length_input hin, List.length_append, List.length_append]
    at hstream
  have hfifo : 0 < p.writeFifo.beats.length := by
    obtain ⟨head, hhead⟩ := Option.isSome_iff_exists.mp hhead
    exact List.length_pos_of_mem (List.mem_of_mem_head? hhead)
  have hlimit := hb.vectors.portWords_lt hb.wordBytes_pos (h.lt_ports hb hp)
  omega

end Running

/-! ## When all scripts are done -/

/-- All scripts are at their end. -/
def AllPlayed (l : Loopback) (pos : Role → Nat) : Prop :=
  ∀ role : Role, role.1 < l.ports → pos role = (l.commands role.1 role.2).length

namespace Running

/-- In the end all frames have been handed over, and all completions seen. -/
theorem handed_all (hb : l.Bench v params s₀) (h : l.Running v s₀ pos past s)
    (hdone : l.AllPlayed pos) (hp : s.ports[i]? = some p) (side : Side) :
    (p.view side).Handover (l.descriptor i side) l.frames l.frames
      (past.flatMap (Moment.takes i side)) := by
  have hi := h.lt_ports hb hp
  have hw := hdone (i, .writer) hi
  have hr := hdone (i, .reader) hi
  have hport := h.port i p hp
  rw [hw, hr, length_commands, length_commands] at hport
  dsimp only [frameLength] at hport
  cases side with
  | writer =>
      have hhanded := hport.writer.handover
      rw [Nat.mul_div_cancel _ (by decide), Nat.mul_mod_left] at hhanded
      have hseen : (l.frames * 9 + 7) / 9 = l.frames := by omega
      rw [hseen] at hhanded
      exact hhanded
  | reader =>
      have hhanded := hport.reader.handover
      rw [Nat.mul_div_cancel _ (by decide), Nat.mul_mod_left] at hhanded
      exact hhanded

/-- In the end all words of a port are stored. -/
theorem stored_all (hb : l.Bench v params s₀) (h : l.Running v s₀ pos past s)
    (hdone : l.AllPlayed pos) (hp : s.ports[i]? = some p) :
    l.portWords ≤ (past.flatMap (Moment.memoryStores i)).length := by
  have hseen : ((l.commands i .reader).length + 7) / 9 = l.frames := by
    rw [length_commands, frameLength]
    omega
  have hle := h.stored_le hb hp
  rw [hdone (i, .reader) (h.lt_ports hb hp), hseen] at hle
  exact hle

/-- Behind the words of the ports nothing is ever stored. -/
theorem rest_unwritten (hb : l.Bench v params s₀) (h : l.Running v s₀ pos past s) {k : Nat}
    (hk : l.totalWords ≤ k) (hin : k < v.memoryWords) : s.memory.store.get? k = some 0 := by
  refine (h.agreed hb).unwritten hb.machine h.history (fun j hj w hw hindex => ?_) (hb.size ▸ hin)
  have hlen : s.ports.length = params.ports.length := (h.reachable hb).formed.length
  have hp := List.getElem?_eq_getElem (hlen.symm ▸ hj : j < s.ports.length)
  obtain ⟨beats, hinput⟩ := hb.input (hb.ports ▸ hj)
  obtain ⟨m, hm⟩ := List.mem_iff_getElem?.mp hw
  obtain ⟨hword, b, hbeat, _⟩ := h.stored_word hb hp hinput hm
  have hlt := (List.getElem?_eq_some_iff.mp hbeat).1
  have hrow : (j + 1) * l.portWords ≤ l.ports * l.portWords :=
    Nat.mul_le_mul_right _ (hb.ports ▸ hj)
  rw [hb.vectors.length_input hinput] at hlt
  rw [Nat.succ_mul] at hrow
  rw [totalWords_eq] at hk
  omega

/-- **In the end the memory is the reference.** -/
theorem memory_eq (hb : l.Bench v params s₀) (h : l.Running v s₀ pos past s)
    (hdone : l.AllPlayed pos) : s.memory.store.words.toList = v.memoryRef := by
  have hsize : s.memory.store.size = v.memoryWords :=
    ((h.agreed hb).size hb.machine h.history).trans hb.size
  refine List.ext_getElem? fun k => ?_
  rw [Array.getElem?_toList]
  show s.memory.store.get? k = _
  by_cases hword : k < l.totalWords
  · -- the word of a port
    obtain ⟨j, beats, hin, hk, hm⟩ := hb.vectors.exists_word hword
    have hj : j < l.ports := hb.vectors.ports ▸ (List.getElem?_eq_some_iff.mp hin).1
    have hp := List.getElem?_eq_getElem ((h.length hb).symm ▸ hj)
    have hbeat := List.getElem?_eq_getElem hm
    rw [hb.vectors.length_input hin] at hm
    have hstored := Nat.lt_of_lt_of_le hm (h.stored_all hb hdone hp)
    rw [hk, h.holds_stored hb hp hin hstored hbeat, hb.vectors.memoryRef_word hin hbeat]
  · by_cases hin : k < v.memoryWords
    · rw [h.rest_unwritten hb (Nat.le_of_not_lt hword) hin,
        hb.vectors.memoryRef_rest (Nat.le_of_not_lt hword) hin]
    · have hnone : s.memory.store.get? k = none :=
        Array.getElem?_eq_none (Nat.le_trans (Nat.le_of_eq hsize) (Nat.le_of_not_lt hin))
      rw [hnone, List.getElem?_eq_none]
      rw [hb.vectors.length_memoryRef]
      exact Nat.le_of_not_lt hin

/-- **In the end a sink has seen its input**, unless something is left in its buffer. -/
theorem received_eq (hb : l.Bench v params s₀) (h : l.Running v s₀ pos past s)
    (hf : l.Fetched v past) (hdone : l.AllPlayed pos) (hp : s.ports[i]? = some p)
    (hin : v.inputs[i]? = some beats) (hempty : p.readFifo.beats = []) :
    p.sink.received = beats := by
  obtain ⟨hl, hc⟩ := h.history.readLedger hb.machine h.uninterrupted hp
  have hhanded := h.handed_all hb hdone hp .reader
  obtain ⟨_, hidle⟩ := hhanded.transfers_eq
  obtain ⟨_, htaken⟩ := hhanded.free
  have htaken' : (past.flatMap (Moment.readerTakes i)).length = l.frames := htaken
  have hall := hl.all_of_rest (hc i p hp).1 (Or.inl (beq_iff_eq.mp hidle))
  rw [h.asked_eq hp, wordCount_uniform, htaken'] at hall
  have hpushed : past.flatMap (Moment.readerPushes i) = beats :=
    (h.delivered_prefix hb hf hp hin).eq_of_length
      (hall.trans (hb.vectors.length_input hin).symm)
  -- nothing was collected on the way
  have hnone : past.flatMap (Moment.collects i) = [] := by
    rw [List.flatMap_eq_nil_iff]
    rintro ⟨t, op⟩ he
    have hplain := h.plain _ he
    cases op with
    | take port => exact absurd hplain id
    | write _ _ | read _ | push _ _ | load _ _ | tick | reset => rfl
  have hstream := hl.stream
  rw [hnone, hempty, hpushed, List.nil_append, List.append_nil] at hstream
  exact hstream

end Running

end Loopback

end BurstDma
