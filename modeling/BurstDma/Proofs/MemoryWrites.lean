import BurstDma.Proofs.MemoryReads
import BurstDma.Proofs.StoredWrites
import BurstDma.Proofs.Tally

/-!
# The memory stores its writes one by one

The address of a write and its data come on channels of their own, in any order and with any
stalls between them. What a memory makes of them can be told from the channels alone: **the
first address belongs to the first group of data, the second to the second**, and a group ends
with a beat that says so. A write is complete when the later of its two parts is, and in that
cycle all of it is stored.

The memory holds at most one part without its other part, and at most one answer. Until the
answer is taken it accepts no part of another write; that is why the parts cannot be mixed up.
-/

namespace BurstDma

/-! ## What the channels say -/

/-- Data as it comes in: the groups that are complete, each with the cycle of its last beat, and
the beats of the one that is not. -/
structure DataGroups where
  done : List (Nat × List WriteBeat) := []
  rest : List WriteBeat := []
deriving Repr, DecidableEq

/-- A beat joins the open group, and ends it if it says so. -/
def DataGroups.add (g : DataGroups) (b : Nat × WriteBeat) : DataGroups :=
  if b.2.last then ⟨g.done ++ [(b.1, g.rest ++ [b.2])], []⟩ else ⟨g.done, g.rest ++ [b.2]⟩

/-- The write of an address and a group of data, each with its cycle. -/
def MemoryWrite.pair (aw : Nat × AddrReq) (data : Nat × List WriteBeat) : MemoryWrite :=
  ⟨aw.2, data.2, max aw.1 data.1⟩

namespace Memory

/-- The write addresses accepted, with their cycles. -/
def writeRequests (past : List MemoryCycle) : List (Nat × AddrReq) :=
  past.filterMap fun e => e.writes.awFired.map (e.state.cycle, ·)

/-- The write data accepted, with its cycles. -/
def writeData (past : List MemoryCycle) : List (Nat × WriteBeat) :=
  past.filterMap fun e => e.writes.wFired.map (e.state.cycle, ·)

/-- The write data accepted, in groups. -/
def writeGroups (past : List MemoryCycle) : DataGroups :=
  (writeData past).foldl DataGroups.add {}

/-- The writes that are complete. -/
def completed (past : List MemoryCycle) : List MemoryWrite :=
  List.zipWith MemoryWrite.pair (writeRequests past) (writeGroups past).done

/-- The answers taken. -/
def answered (past : List MemoryCycle) : List WriteResp :=
  past.filterMap (·.writes.bFired)

theorem writeRequests_concat (past : List MemoryCycle) (e : MemoryCycle) :
    writeRequests (past ++ [e])
      = writeRequests past ++ (e.writes.awFired.map (e.state.cycle, ·)).toList := by
  unfold writeRequests
  rw [List.filterMap_append]
  cases h : e.writes.awFired <;> simp [h]

theorem writeGroups_concat (past : List MemoryCycle) (e : MemoryCycle) :
    writeGroups (past ++ [e])
      = match e.writes.wFired with
        | none => writeGroups past
        | some b => (writeGroups past).add (e.state.cycle, b) := by
  unfold writeGroups writeData
  rw [List.filterMap_append, List.foldl_append]
  cases h : e.writes.wFired <;> simp [h]

theorem answered_concat (past : List MemoryCycle) (e : MemoryCycle) :
    answered (past ++ [e]) = answered past ++ e.writes.bFired.toList := by
  unfold answered
  rw [List.filterMap_append]
  cases h : e.writes.bFired <;> simp [h]

end Memory

/-! ## Parts of writes -/

/-- Some of the parts of writes make up `writes`; the others have no other part yet. -/
structure Parts (requests : List (Nat × AddrReq)) (groups : List (Nat × List WriteBeat))
    (aw : Option (Nat × AddrReq)) (data : Option (Nat × List WriteBeat))
    (writes : List MemoryWrite) : Prop where
  paired : ∃ rs gs, rs.length = gs.length ∧ writes = List.zipWith MemoryWrite.pair rs gs
    ∧ requests = rs ++ aw.toList ∧ groups = gs ++ data.toList

namespace Parts

variable {requests : List (Nat × AddrReq)} {groups : List (Nat × List WriteBeat)}
  {aw : Option (Nat × AddrReq)} {data : Option (Nat × List WriteBeat)} {writes : List MemoryWrite}

/-- While one of the channels is not ahead, the writes are the pairs there are. -/
theorem eq_zip (h : Parts requests groups aw data writes) (hapart : aw = none ∨ data = none) :
    writes = List.zipWith MemoryWrite.pair requests groups := by
  obtain ⟨rs, gs, hlen, rfl, rfl, rfl⟩ := h.paired
  rw [List.zipWith_append hlen]
  rcases hapart with rfl | rfl <;> simp

theorem lengths (h : Parts requests groups aw data writes) :
    requests.length = writes.length + aw.toList.length
      ∧ groups.length = writes.length + data.toList.length := by
  obtain ⟨rs, gs, hlen, rfl, rfl, rfl⟩ := h.paired
  rw [List.length_append, List.length_append, List.length_zipWith, hlen, Nat.min_self]
  exact ⟨rfl, rfl⟩

theorem addRequest (h : Parts requests groups none data writes) (r : Nat × AddrReq) :
    Parts (requests ++ [r]) groups (some r) data writes := by
  obtain ⟨rs, gs, hlen, hwrites, rfl, hgroups⟩ := h.paired
  exact ⟨rs, gs, hlen, hwrites, by rw [Option.toList_none, List.append_nil]; rfl, hgroups⟩

theorem addGroup (h : Parts requests groups aw none writes) (g : Nat × List WriteBeat) :
    Parts requests (groups ++ [g]) aw (some g) writes := by
  obtain ⟨rs, gs, hlen, hwrites, hrequests, rfl⟩ := h.paired
  exact ⟨rs, gs, hlen, hwrites, hrequests, by rw [Option.toList_none, List.append_nil]; rfl⟩

/-- Two parts that are both there make a write. -/
theorem join {r : Nat × AddrReq} {g : Nat × List WriteBeat}
    (h : Parts requests groups (some r) (some g) writes) :
    Parts requests groups none none (writes ++ [.pair r g]) := by
  obtain ⟨rs, gs, hlen, rfl, rfl, rfl⟩ := h.paired
  refine ⟨rs ++ [r], gs ++ [g], by simp [hlen], ?_, by simp, by simp⟩
  rw [List.zipWith_append hlen]
  rfl

end Parts

namespace Memory

variable {m₀ m m' : Memory} {past : List MemoryCycle} {reads : ReadBus} {writes : WriteBus}

/-- The group of data that waits for its address. -/
def waitingData (m : Memory) : Option (List WriteBeat) :=
  if m.dataDone then some m.collected else none

/-- The beats of the group that is not complete. -/
def openData (m : Memory) : List WriteBeat :=
  if m.dataDone then [] else m.collected

/-- The memory takes a part of a write only if it has none like it and no answer waits. -/
theorem free_of_fired (hslave : m.writeWires = writes.slave) :
    (writes.awFired.isSome = true → m.aw = none ∧ m.response = none)
      ∧ (writes.wFired.isSome = true → m.dataDone = false ∧ m.response = none) := by
  unfold WriteBus.awFired WriteBus.wFired
  rw [← hslave]
  unfold writeWires
  refine ⟨fun h => ?_, fun h => ?_⟩
  · split at h
    · rename_i hready
      obtain ⟨haw, hresponse⟩ := Bool.and_eq_true_iff.mp hready
      exact ⟨Option.isNone_iff_eq_none.mp haw, Option.isNone_iff_eq_none.mp hresponse⟩
    · cases h
  · split at h
    · rename_i hready
      obtain ⟨hdone, hresponse⟩ := Bool.and_eq_true_iff.mp hready
      exact ⟨by simpa using hdone, Option.isNone_iff_eq_none.mp hresponse⟩
    · cases h

/-- What the channels gave is in the store, in the answer that waits, or in the memory as a part
without its other part. -/
structure Commits (m₀ : Memory) (past : List MemoryCycle) (m : Memory) : Prop where
  params : m.params = m₀.params
  /-- At most one of the two channels is ahead. -/
  parts : ∃ aw data, Parts (writeRequests past) (writeGroups past).done aw data (completed past)
    ∧ aw.map (·.2) = m.aw ∧ data.map (·.2) = m.waitingData ∧ (aw = none ∨ data = none)
    ∧ (∀ r ∈ aw, r.1 < m.cycle) ∧ ∀ g ∈ data, g.1 < m.cycle
  rest : (writeGroups past).rest = m.openData
  store : m.store = (completed past).foldl Store.commit m₀.store
  answers : (completed past).map (·.answer m₀.store) = answered past ++ m.answers
  /-- The answer is that to the last write, and nothing of another one is there. -/
  response : ∀ b due, m.response = some (b, due) →
    m.aw = none ∧ m.waitingData = none
      ∧ ∃ w, (completed past).getLast? = some w ∧ due = w.complete + max 1 m₀.params.writeLatency

theorem commits_init (hrest : m₀.reset = m₀) : Commits m₀ [] m₀ := by
  have haw : m₀.aw = none := (congrArg Memory.aw hrest).symm
  have hdone : m₀.dataDone = false := (congrArg Memory.dataDone hrest).symm
  have hcollected : m₀.collected = [] := (congrArg Memory.collected hrest).symm
  have hresponse : m₀.response = none := (congrArg Memory.response hrest).symm
  refine ⟨rfl, ⟨none, none, ⟨[], [], rfl, rfl, rfl, rfl⟩, haw.symm, ?_, Or.inl rfl, nofun, nofun⟩,
    ?_, rfl, ?_, ?_⟩
  · unfold waitingData
    rw [hdone]
    rfl
  · unfold openData
    rw [hdone, hcollected]
    rfl
  · unfold answers
    rw [hresponse]
    rfl
  · intro b due h
    rw [hresponse] at h
    cases h

/-- Writing leaves the shape of a store as it is. -/
theorem foldl_commit_shape (s : Store) (ws : List MemoryWrite) :
    (ws.foldl Store.commit s).geometry = s.geometry
      ∧ (ws.foldl Store.commit s).regions = s.regions
      ∧ (ws.foldl Store.commit s).size = s.size := by
  induction ws generalizing s with
  | nil => exact ⟨rfl, rfl, rfl⟩
  | cons w ws ih =>
      obtain ⟨hgeo, hregions, hsize⟩ := s.commit_shape w
      obtain ⟨hgeo', hregions', hsize'⟩ := ih (s.commit w)
      exact ⟨hgeo'.trans hgeo, hregions'.trans hregions, hsize'.trans hsize⟩

section

variable {requests : List (Nat × AddrReq)} {groups : List (Nat × List WriteBeat)}
  {aw : Option (Nat × AddrReq)} {data : Option (Nat × List WriteBeat)} {ws : List MemoryWrite}

/-- An address that is accepted is a new part without its other part. -/
theorem collect_request (reads : ReadBus) (hslave : m.writeWires = writes.slave)
    (hparts : Parts (writeRequests past) groups aw data ws) (haw : aw.map (·.2) = m.aw) :
    ∃ aw', Parts (writeRequests (past ++ [⟨m, reads, writes⟩])) groups aw' data ws
      ∧ aw'.map (·.2) = (m.collect writes).aw ∧ (aw' = aw ∨ ∃ r, aw' = some (m.cycle, r)) := by
  obtain ⟨haw', _⟩ := m.collect_eq (rfl : writes.awFired = _) rfl rfl
  rw [writeRequests_concat, haw']
  cases hfired : writes.awFired with
  | none =>
      refine ⟨aw, ?_, haw, Or.inl rfl⟩
      rw [Option.map_none, Option.toList_none, List.append_nil]
      exact hparts
  | some r =>
      obtain ⟨hnone, _⟩ := (free_of_fired hslave).1 (by rw [hfired]; rfl)
      rw [hnone, Option.map_eq_none_iff] at haw
      subst haw
      exact ⟨some (m.cycle, r), hparts.addRequest _, rfl, Or.inr ⟨r, rfl⟩⟩

/-- A beat that is accepted joins the open group, and with the last beat the group is a new
part without its other part. -/
theorem collect_data (reads : ReadBus) (hslave : m.writeWires = writes.slave)
    (hparts : Parts requests (writeGroups past).done aw data ws)
    (hdata : data.map (·.2) = m.waitingData) (hrest : (writeGroups past).rest = m.openData) :
    ∃ data', Parts requests (writeGroups (past ++ [⟨m, reads, writes⟩])).done aw data' ws
      ∧ data'.map (·.2) = (m.collect writes).waitingData
      ∧ (data' = data ∨ ∃ g, data' = some (m.cycle, g))
      ∧ (writeGroups (past ++ [⟨m, reads, writes⟩])).rest = (m.collect writes).openData := by
  obtain ⟨_, hcollected, hdone, _⟩ := m.collect_eq rfl (rfl : writes.wFired = _) rfl
  unfold waitingData at hdata ⊢
  unfold openData at hrest ⊢
  rw [writeGroups_concat, hcollected, hdone]
  cases hfired : writes.wFired with
  | none =>
      refine ⟨data, hparts, ?_, Or.inl rfl, ?_⟩
      · rw [Option.toList_none, List.append_nil]
        exact hdata
      · rw [Option.toList_none, List.append_nil]
        exact hrest
  | some b =>
      obtain ⟨hopen, _⟩ := (free_of_fired hslave).2 (by rw [hfired]; rfl)
      rw [hopen, if_neg Bool.false_ne_true] at hdata hrest
      have hnone := Option.map_eq_none_iff.mp hdata
      subst hnone
      dsimp only [Option.map_some, Option.getD_some, Option.toList_some]
      unfold DataGroups.add
      rw [hrest]
      obtain ⟨word, last⟩ := b
      cases last with
      | true => exact ⟨_, hparts.addGroup _, rfl, Or.inr ⟨_, rfl⟩, rfl⟩
      | false => exact ⟨none, hparts, rfl, Or.inl rfl, rfl⟩

end

/-- **What a clock edge collects.** Before any parts are joined, the channels and the memory are
one part further; and if two parts can be joined now, one of them is new. -/
theorem Commits.collect (hc : Commits m₀ past m) (reads : ReadBus)
    (hslave : m.writeWires = writes.slave) :
    ∃ aw data,
      Parts (writeRequests (past ++ [⟨m, reads, writes⟩]))
        (writeGroups (past ++ [⟨m, reads, writes⟩])).done aw data (completed past)
      ∧ aw.map (·.2) = (m.collect writes).aw
      ∧ data.map (·.2) = (m.collect writes).waitingData
      ∧ (∀ r ∈ aw, r.1 ≤ m.cycle) ∧ (∀ g ∈ data, g.1 ≤ m.cycle)
      ∧ (∀ r ∈ aw, ∀ g ∈ data, max r.1 g.1 = m.cycle)
      ∧ (writeGroups (past ++ [⟨m, reads, writes⟩])).rest = (m.collect writes).openData := by
  obtain ⟨aw, data, hparts, haw, hdata, hapart, hawTime, hdataTime⟩ := hc.parts
  obtain ⟨aw', hparts, haw', hnewAw⟩ := collect_request reads hslave hparts haw
  obtain ⟨data', hparts, hdata', hnewData, hrest⟩ :=
    collect_data reads hslave hparts hdata hc.rest
  have hawLe : ∀ r ∈ aw', r.1 ≤ m.cycle := by
    rcases hnewAw with rfl | ⟨r, rfl⟩
    · exact fun r hr => Nat.le_of_lt (hawTime r hr)
    · rintro _ ⟨⟩
      exact Nat.le_refl _
  have hdataLe : ∀ g ∈ data', g.1 ≤ m.cycle := by
    rcases hnewData with rfl | ⟨g, rfl⟩
    · exact fun g hg => Nat.le_of_lt (hdataTime g hg)
    · rintro _ ⟨⟩
      exact Nat.le_refl _
  refine ⟨aw', data', hparts, haw', hdata', hawLe, hdataLe, fun r hr g hg => ?_, hrest⟩
  rcases hnewAw with rfl | ⟨r', rfl⟩
  · rcases hnewData with rfl | ⟨g', rfl⟩
    · -- neither is new
      rcases hapart with rfl | rfl
      · cases hr
      · cases hg
    · cases hg
      exact Nat.max_eq_right (hawLe r hr)
  · cases hr
    exact Nat.max_eq_left (hdataLe g hg)

/-- What a clock edge does with the parts that it collected: they stay, or they are a write,
which is stored as a whole and answered. -/
theorem tick_write (hpos : m.store.geometry.wordBytes ≠ 0)
    (h : (m.tick reads writes).result = .ok m') :
    (m.completes? writes = none ∧ m'.store = m.store ∧ m'.aw = (m.collect writes).aw
        ∧ m'.waitingData = (m.collect writes).waitingData
        ∧ m'.openData = (m.collect writes).openData
        ∧ m'.response = (m.collect writes).response)
      ∨ ∃ w : MemoryWrite, m.completes? writes = some (w.request, w.beats)
        ∧ w.complete = m.cycle ∧ m'.store = m.store.commit w ∧ m'.aw = none
        ∧ m'.dataDone = false ∧ m'.collected = []
        ∧ m'.response = some (w.answer m.store, m.cycle + max m.params.writeLatency 1) := by
  obtain ⟨t, ht, h⟩ := Run.result_bind_eq_ok.mp h
  cases h
  obtain ⟨hkept, hcompletes, hstore, haw, hcollected, hdone, hresponse⟩ :=
    m.tickReads_writes reads writes
  obtain ⟨⟨hparams, hcycle, _⟩, _⟩ := m.tickReads_counts reads
  rcases tickWrites_cases ht with ⟨hnone, rfl⟩ | ⟨aw, store, resp, hsome, hst, rfl⟩
  · refine Or.inl ⟨hcompletes.symm.trans hnone, hstore, haw, ?_, ?_, hresponse⟩
    · unfold waitingData
      rw [← hcollected, ← hdone]
    · unfold openData
      rw [← hcollected, ← hdone]
  · rw [hkept] at hst
    obtain ⟨hcommit, hanswer⟩ := storeBeats_commit
      (w := ⟨aw, ((m.tickReads reads).collect writes).collected, m.cycle⟩) hpos hst
    refine Or.inr ⟨_, hcompletes.symm.trans hsome, rfl, hcommit, rfl, rfl, rfl, ?_⟩
    rw [hcycle, hparams, ← hanswer]

/-- A write is complete if both of its parts are there. -/
theorem completes?_eq (m : Memory) (writes : WriteBus) :
    m.completes? writes
      = (m.collect writes).waitingData.bind fun beats =>
        (m.collect writes).aw.map fun aw => (aw, beats) := by
  unfold completes? waitingData
  dsimp only
  cases (m.collect writes).dataDone <;> cases (m.collect writes).aw <;> rfl

/-- While an answer waits, no part of another write comes in. -/
theorem Commits.quiet (hc : Commits m₀ past m) (hslave : m.writeWires = writes.slave)
    (hresponse : m.response ≠ none) :
    (m.collect writes).aw = none ∧ (m.collect writes).waitingData = none := by
  obtain ⟨⟨b, due⟩, hr⟩ := Option.ne_none_iff_exists'.mp hresponse
  obtain ⟨haw, hdata, _⟩ := hc.response b due hr
  obtain ⟨hfreeAw, hfreeData⟩ := free_of_fired hslave
  have hnoAw : writes.awFired = none :=
    Option.not_isSome_iff_eq_none.mp fun hf => hresponse (hfreeAw hf).2
  have hnoData : writes.wFired = none :=
    Option.not_isSome_iff_eq_none.mp fun hf => hresponse (hfreeData hf).2
  obtain ⟨haw', hcollected, hdone, _⟩ := m.collect_eq hnoAw hnoData rfl
  refine ⟨haw'.trans haw, ?_⟩
  unfold waitingData at hdata ⊢
  rw [hdone, hcollected, Option.toList_none, List.append_nil]
  exact hdata

theorem Commits.shape (hc : Commits m₀ past m) :
    m.store.geometry = m₀.store.geometry ∧ m.store.regions = m₀.store.regions
      ∧ m.store.size = m₀.store.size := by
  rw [hc.store]
  exact foldl_commit_shape _ _

/-- A cycle without a write. -/
theorem Commits.wait (hc : Commits m₀ past m) (hslave : m.writeWires = writes.slave)
    (h : (m.tick reads writes).result = .ok m') (hnone : m.completes? writes = none)
    (hstore : m'.store = m.store) (haw : m'.aw = (m.collect writes).aw)
    (hdata : m'.waitingData = (m.collect writes).waitingData)
    (hopen : m'.openData = (m.collect writes).openData)
    (hresponse : m'.response = (m.collect writes).response) :
    completed (past ++ [⟨m, reads, writes⟩]) = completed past
      ∧ Commits m₀ (past ++ [⟨m, reads, writes⟩]) m' := by
  obtain ⟨aw, data, hparts, haw', hdata', hawLe, hdataLe, _, hrest⟩ :=
    hc.collect reads hslave
  have hapart : aw = none ∨ data = none := by
    rw [completes?_eq, ← haw', ← hdata'] at hnone
    cases aw with
    | none => exact Or.inl rfl
    | some r =>
        cases data with
        | none => exact Or.inr rfl
        | some g => cases hnone
  have hsame : completed (past ++ [⟨m, reads, writes⟩]) = completed past :=
    (hparts.eq_zip hapart).symm
  obtain ⟨_, _, hanswers⟩ := collect_flow hslave.symm
  have hcycle := tick_cycle h
  refine ⟨hsame, (tick_params h).trans hc.params, ⟨aw, data, ?_, haw'.trans haw.symm,
    hdata'.trans hdata.symm, hapart, ?_, ?_⟩, hrest.trans hopen.symm, ?_, ?_, ?_⟩
  · rw [hsame]
    exact hparts
  · intro r hr
    rw [hcycle]
    exact Nat.lt_succ_of_le (hawLe r hr)
  · intro g hg
    rw [hcycle]
    exact Nat.lt_succ_of_le (hdataLe g hg)
  · rw [hsame, hstore, hc.store]
  · have hleft : m'.answers = (m.collect writes).answers :=
      congrArg (fun response => response.toList.map (·.1)) hresponse
    rw [hsame, hc.answers, answered_concat, hanswers, hleft, List.append_assoc]
  · intro b due hb
    obtain ⟨_, _, _, hcollected⟩ := m.collect_eq rfl rfl (rfl : writes.bFired = _)
    rw [hresponse, hcollected] at hb
    split at hb
    · cases hb
    · obtain ⟨hnoAw, hnoData⟩ := hc.quiet hslave (by rw [hb]; nofun)
      obtain ⟨_, _, w, hlast, hdue⟩ := hc.response b due hb
      exact ⟨haw.trans hnoAw, hdata.trans hnoData, w, by rw [hsame]; exact hlast, hdue⟩

/-- A write that is complete is the pair of the parts that waited or came in. -/
theorem Commits.joined (hc : Commits m₀ past m) (reads : ReadBus)
    (hslave : m.writeWires = writes.slave) {w : MemoryWrite}
    (hsome : m.completes? writes = some (w.request, w.beats)) (htime : w.complete = m.cycle) :
    Parts (writeRequests (past ++ [⟨m, reads, writes⟩]))
        (writeGroups (past ++ [⟨m, reads, writes⟩])).done none none (completed past ++ [w])
      ∧ completed (past ++ [⟨m, reads, writes⟩]) = completed past ++ [w]
      ∧ (writeGroups (past ++ [⟨m, reads, writes⟩])).rest = [] := by
  obtain ⟨aw, data, hparts, haw, hdata, _, _, hjoin, hrest⟩ := hc.collect reads hslave
  rw [completes?_eq] at hsome
  obtain ⟨beats, hbeats, hsome⟩ := Option.bind_eq_some_iff.mp hsome
  obtain ⟨r, hr, hsame⟩ := Option.map_eq_some_iff.mp hsome
  obtain ⟨rfl, rfl⟩ := Prod.mk.inj hsame
  obtain ⟨⟨t, r⟩, rfl, hreq⟩ := Option.map_eq_some_iff.mp (haw.trans hr)
  obtain ⟨⟨u, g⟩, rfl, hgroup⟩ := Option.map_eq_some_iff.mp (hdata.trans hbeats)
  have hpair : MemoryWrite.pair (t, r) (u, g) = w := by
    have hmax : max t u = w.complete := (hjoin _ rfl _ rfl).trans htime.symm
    unfold MemoryWrite.pair
    dsimp only at hreq hgroup ⊢
    rw [hmax, hreq, hgroup]
  have hjoined := hparts.join
  rw [hpair] at hjoined
  refine ⟨hjoined, (hjoined.eq_zip (Or.inl rfl)).symm, hrest.trans ?_⟩
  unfold openData
  unfold waitingData at hbeats
  cases hdone : (m.collect writes).dataDone with
  | true => rfl
  | false =>
      rw [hdone] at hbeats
      cases hbeats

/-- A cycle in which a write is complete. -/
theorem Commits.store_next (hc : Commits m₀ past m) (hslave : m.writeWires = writes.slave)
    (h : (m.tick reads writes).result = .ok m') {w : MemoryWrite}
    (hsome : m.completes? writes = some (w.request, w.beats)) (htime : w.complete = m.cycle)
    (hstore : m'.store = m.store.commit w) (haw : m'.aw = none) (hdone : m'.dataDone = false)
    (hcollected : m'.collected = [])
    (hresponse : m'.response = some (w.answer m.store, m.cycle + max m.params.writeLatency 1)) :
    completed (past ++ [⟨m, reads, writes⟩]) = completed past ++ [w]
      ∧ Commits m₀ (past ++ [⟨m, reads, writes⟩]) m' := by
  obtain ⟨hjoined, hwrites, hrest⟩ := hc.joined reads hslave hsome htime
  -- an answer that waits would have kept them out
  have hquiet : m.response = none := by
    by_contra hwaits
    rw [completes?_eq, (hc.quiet hslave hwaits).2] at hsome
    cases hsome
  have hnoAnswer : m.answers = [] := by
    unfold Memory.answers
    rw [hquiet]
    rfl
  have hnotTaken : writes.bFired = none := by
    by_contra hfired
    obtain ⟨b, hb⟩ := Option.ne_none_iff_exists'.mp hfired
    have hone := (fired_of_wires hslave.symm).1 b hb
    rw [hnoAnswer] at hone
    cases hone
  obtain ⟨hgeo, hregions, hsize⟩ := hc.shape
  have hnoData : m'.waitingData = none := by
    unfold waitingData
    rw [hdone]
    rfl
  refine ⟨hwrites, (tick_params h).trans hc.params, ⟨none, none, ?_, haw.symm, hnoData.symm,
    Or.inl rfl, nofun, nofun⟩, ?_, ?_, ?_, ?_⟩
  · rw [hwrites]
    exact hjoined
  · unfold openData
    rw [hrest, hdone, hcollected]
    rfl
  · rw [hwrites, List.foldl_append, hstore, hc.store]
    rfl
  · have hanswers : m'.answers = [w.answer m₀.store] := by
      unfold Memory.answers
      rw [hresponse, w.answer_congr hgeo hregions hsize]
      rfl
    rw [hwrites, List.map_append, hc.answers, hnoAnswer, answered_concat, hanswers]
    dsimp only
    rw [hnotTaken, Option.toList_none, List.append_nil, List.map_singleton]
  · intro b due hb
    rw [hresponse] at hb
    obtain ⟨rfl, rfl⟩ := Prod.mk.inj (Option.some.inj hb)
    refine ⟨haw, hnoData, w, ?_, ?_⟩
    · rw [hwrites, List.getLast?_concat]
    · rw [htime, hc.params, Nat.max_comm]

/-- **What a clock edge stores.** -/
theorem Commits.next (hc : Commits m₀ past m) (hpos : m₀.store.geometry.wordBytes ≠ 0)
    (hslave : m.writeWires = writes.slave) (h : (m.tick reads writes).result = .ok m') :
    ∃ new : Option MemoryWrite,
      completed (past ++ [⟨m, reads, writes⟩]) = completed past ++ new.toList
      ∧ (∀ w ∈ new, w.complete = m.cycle)
      ∧ m'.store = new.elim m.store m.store.commit
      ∧ Commits m₀ (past ++ [⟨m, reads, writes⟩]) m' := by
  have hgeo := hc.shape.1
  rcases tick_write (by rwa [hgeo]) h with ⟨hnone, hstore, haw, hdata, hopen, hresponse⟩
    | ⟨w, hsome, htime, hstore, haw, hdone, hcollected, hresponse⟩
  · obtain ⟨hsame, hnext⟩ := hc.wait hslave h hnone hstore haw hdata hopen hresponse
    exact ⟨none, by rw [hsame, Option.toList_none, List.append_nil], nofun, hstore, hnext⟩
  · obtain ⟨hone, hnext⟩ :=
      hc.store_next hslave h hsome htime hstore haw hdone hcollected hresponse
    refine ⟨some w, hone, ?_, hstore, hnext⟩
    rintro _ ⟨⟩
    exact htime

theorem Cycles.commits (hpos : m₀.store.geometry.wordBytes ≠ 0) (hrest : m₀.reset = m₀)
    (h : Cycles m₀ past m) : Commits m₀ past m := by
  induction h with
  | start => exact commits_init hrest
  | cycle _ _ hslave hnext ih =>
      obtain ⟨_, _, _, _, hc⟩ := ih.next hpos hslave hnext
      exact hc

/-- The answer that waits is the next one, and it is shown from its time on. -/
theorem Commits.shown (hc : Commits m₀ past m) :
    m.writeWires.b = ((completed past)[(answered past).length]?).bind fun w =>
      if w.complete + max 1 m₀.params.writeLatency ≤ m.cycle then some (w.answer m₀.store)
      else none := by
  have hanswers := hc.answers
  have hlengths := congrArg List.length hanswers
  rw [List.length_map, List.length_append] at hlengths
  unfold writeWires
  dsimp only
  unfold Memory.answers at hanswers hlengths
  cases hr : m.response with
  | none =>
      rw [hr, Option.toList_none, List.map_nil, List.length_nil, Nat.add_zero] at hlengths
      rw [List.getElem?_eq_none (Nat.le_of_eq hlengths)]
      rfl
  | some answer =>
      obtain ⟨b, due⟩ := answer
      obtain ⟨_, _, w, hlast, hdue⟩ := hc.response b due hr
      rw [hr, Option.toList_some, List.map_singleton] at hanswers hlengths
      have hw : (completed past)[(answered past).length]? = some w := by
        rw [← hlast, List.getLast?_eq_getElem?, hlengths]
        rfl
      have hb : w.answer m₀.store = b := by
        have hget := congrArg (·[(answered past).length]?) hanswers
        simpa [hw] using hget
      rw [hw, hdue, Option.bind_some, hb, Option.filter_some]
      by_cases htime : w.complete + max 1 m₀.params.writeLatency ≤ m.cycle
      · rw [if_pos htime, if_pos (decide_eq_true htime)]
        rfl
      · rw [if_neg htime, if_neg (by simpa using htime)]
        rfl

/-- A channel is open exactly if all of its parts have been answered. -/
theorem Commits.ready (hc : Commits m₀ past m) :
    m.writeWires.awReady = decide ((writeRequests past).length = (answered past).length)
      ∧ m.writeWires.wReady
        = decide ((writeGroups past).done.length = (answered past).length) := by
  obtain ⟨aw, data, hparts, haw, hdata, _⟩ := hc.parts
  obtain ⟨hrequests, hgroups⟩ := hparts.lengths
  have hlengths := congrArg List.length hc.answers
  rw [List.length_map, List.length_append] at hlengths
  have hnoAw : m.aw.isNone = decide (aw.toList.length = 0) := by
    rw [← haw]
    cases aw <;> rfl
  have hnoData : (!m.dataDone) = decide (data.toList.length = 0) := by
    unfold waitingData at hdata
    cases hdone : m.dataDone <;> rw [hdone] at hdata <;> cases data <;> first | rfl | cases hdata
  have hnoAnswer : m.response.isNone = decide (m.answers.length = 0) := by
    unfold Memory.answers
    cases m.response <;> rfl
  unfold writeWires
  dsimp only
  rw [hnoAw, hnoData, hnoAnswer, ← Bool.decide_and, ← Bool.decide_and]
  exact ⟨decide_eq_decide.mpr (by omega), decide_eq_decide.mpr (by omega)⟩

end Memory

end BurstDma
