import BurstDma.Proofs.ReadCredit

/-!
# The ownership queue mirrors the reads in flight

The arbiter remembers who owns the bursts in flight, and the bursts themselves are spread
over three places: the ends of some are held as data on their way back, others wait in the
memory, and the newest have not reached the memory yet. Nothing compares the queue with
those places. **Yet the queue is their list**, oldest first: a grant enters both at the
back, the last beat of a burst leaves both at the front, and in between a burst only moves
from one place to the next.

What a requester counts as pending follows, and so does the order of the data: the beat at
the front of the data always belongs to the owner at the front of the queue.
-/

namespace BurstDma

namespace ReadArbiter

/-- The requesters whose bursts end among some beats. -/
def enders (beats : List ReadBeat) : List Nat :=
  (beats.filter (·.last)).map (·.id)

theorem enders_append (beats more : List ReadBeat) :
    enders (beats ++ more) = enders beats ++ enders more := by
  unfold enders
  rw [List.filter_append, List.map_append]

/-- Each beat names the one who is the oldest owner when its turn comes. -/
def InTurn : List ReadBeat → List Nat → Prop
  | [], _ => True
  | b :: rest, ids => ids.head? = some b.id ∧ InTurn rest (if b.last then ids.tail else ids)

/-- New owners queue behind those that the beats name. -/
theorem InTurn.owners {beats : List ReadBeat} {ids : List Nat} (h : InTurn beats ids)
    (more : List Nat) : InTurn beats (ids ++ more) := by
  induction beats generalizing ids with
  | nil => trivial
  | cons b rest ih =>
      obtain ⟨hhead, hrest⟩ := h
      cases ids with
      | nil => cases hhead
      | cons id ids =>
          refine ⟨hhead, ?_⟩
          have := ih hrest
          cases hl : b.last <;> rw [hl] at this <;> exact this

/-- A new beat is in turn if it names the owner behind the bursts that end before it. -/
theorem InTurn.beat {beats : List ReadBeat} {rest : List Nat} {b : ReadBeat}
    (h : InTurn beats (enders beats ++ rest)) (hb : rest.head? = some b.id) :
    InTurn (beats ++ [b]) (enders beats ++ rest) := by
  induction beats with
  | nil => exact ⟨hb, trivial⟩
  | cons a beats ih =>
      obtain ⟨hhead, htail⟩ := h
      refine ⟨hhead, ?_⟩
      cases hl : a.last with
      | true =>
          have hids : (enders (a :: beats) ++ rest).tail = enders beats ++ rest := by
            simp [enders, hl]
          rw [hl, if_pos rfl, hids] at htail
          rw [if_pos rfl, hids]
          exact ih htail
      | false =>
          have hids : enders (a :: beats) ++ rest = enders beats ++ rest := by
            simp [enders, hl]
          rw [hl, hids] at htail
          rw [hids]
          exact ih htail

variable {a a' : ReadArbiter} {masters : List ReadMaster} {slave : ReadSlave}

/-- What a clock edge makes of the owners. -/
theorem tick_owners {w : ReadWires} (h : (a.tick w).result = .ok a') :
    a'.owners = if (a.deliveredBeat w).any (·.last) then (a.ownersAfterGrant w).pop
      else a.ownersAfterGrant w := by
  obtain ⟨inputs, _, h⟩ := Run.result_bind_eq_ok.mp h
  obtain ⟨_, _, h⟩ := Run.result_bind_eq_ok.mp h
  obtain ⟨granted, _, h⟩ := Run.result_bind_eq_ok.mp h
  obtain ⟨owners, ho, h⟩ := Run.result_bind_eq_ok.mp h
  obtain ⟨data, _, h⟩ := Run.result_bind_eq_ok.mp h
  cases h
  show owners = _
  unfold deliveredBeat ownersAfterGrant at *
  cases hb : delivered (if w.grant.isSome then (a.owners.push? a.selected).getD a.owners
      else a.owners) w with
  | none =>
      simp only [hb] at ho
      cases ho
      rfl
  | some b =>
      simp only [hb] at ho
      by_cases hid : (if w.grant.isSome then (a.owners.push? a.selected).getD a.owners
          else a.owners).head? = some b.id
      · rw [if_pos hid] at ho
        cases ho
        rfl
      · rw [if_neg hid] at ho
        cases ho

/-- A cycle leaves the owners without the one whose burst ended. -/
theorem owners_flow {w : ReadWires} (h : (a.tick w).result = .ok a') :
    (a.ownersAfterGrant w).ids = enders (a.deliveredBeat w).toList ++ a'.owners.ids := by
  have howners := tick_owners h
  cases hb : a.deliveredBeat w with
  | none =>
      rw [hb] at howners
      rw [howners]
      rfl
  | some b =>
      obtain ⟨rest, hcons⟩ := List.head?_eq_some_iff.mp ((tick_edge h).inOrder b hb)
      rw [hb] at howners
      rw [howners]
      cases hl : b.last <;> simp [enders, hl, Ownership.pop, hcons]

/-- A grant finds a free place in the queue, and enters the requester that it names. -/
theorem ownersAfterGrant_eq :
    a.ownersAfterGrant (a.resolve masters slave) = { a.owners with
      ids := a.owners.ids ++ (a.resolve masters slave).grant.toList.map (·.id) } := by
  unfold ownersAfterGrant
  cases hg : (a.resolve masters slave).grant with
  | none => simp
  | some r =>
      obtain ⟨hopen, _, offer, _, rfl⟩ := grant_eq_some hg
      simp [Ownership.push?, hopen]

theorem ownersAfterGrant_size {depth : Nat} (hd : a.owners.depth = depth)
    (h : a.owners.size ≤ depth) :
    (a.ownersAfterGrant (a.resolve masters slave)).size ≤ depth := by
  rw [ownersAfterGrant_eq]
  unfold Ownership.size at h ⊢
  cases hg : (a.resolve masters slave).grant with
  | none => simpa using h
  | some r =>
      obtain ⟨hopen, _⟩ := grant_eq_some hg
      have hlt : a.owners.ids.length < depth := by
        unfold Ownership.isFull Ownership.size at hopen
        rw [decide_eq_false_iff_not, hd] at hopen
        omega
      simp only [Option.toList_some, List.map_cons, List.map_nil, List.length_append,
        List.length_singleton]
      omega

/-- **A granted request is one that the requester it names has made**: the oldest that
waits in its register, or the one it makes in this cycle. -/
theorem grant_origin {n : Nat} (hw : a.WellFormed n) (hn : masters.length = n) {r : AddrReq}
    (h : (a.resolve masters slave).grant = some r) :
    ∃ m offer, masters[r.id]? = some m
      ∧ (a.waiting r.id ++ (ReadBus.arFired ⟨m, a.toRequester slave r.id⟩).toList).head?
        = some offer
      ∧ r = { offer with id := r.id } := by
  obtain ⟨hopen, hacc, offer, ho, rfl⟩ := grant_eq_some h
  cases hreg : a.inputRegister with
  | true =>
      rw [offers, hreg, if_pos rfl, List.getElem?_map, Option.map_eq_some_iff] at ho
      obtain ⟨skid, hs, hpeek⟩ := ho
      have hlt : a.selected < masters.length := by
        rw [hn, ← hw.inputs]
        exact (List.getElem?_eq_some_iff.mp hs).1
      refine ⟨_, offer, List.getElem?_eq_getElem hlt, ?_, rfl⟩
      have hwait : a.waiting a.selected = offer :: skid.second.toList := by
        rw [waiting, hs]
        exact Skid.contents_of_peek hpeek
      rw [hwait]
      rfl
  | false =>
      rw [offers, hreg, if_neg Bool.false_ne_true, List.getElem?_map,
        Option.map_eq_some_iff] at ho
      obtain ⟨m, hm, har⟩ := ho
      refine ⟨m, offer, hm, ?_, rfl⟩
      simp [waiting_eq_nil (hw.bypassInputs hreg), ReadBus.arFired, toRequester, hreg, hopen, hacc,
        har]

/-- The entries of a number are those that carry it. -/
theorem count_map_eq {α : Type} (f : α → Nat) (xs : List α) (i : Nat) :
    (xs.map f).count i = (xs.filter (f · == i)).length := by
  rw [List.count, List.countP_map, List.countP_eq_length_filter]
  rfl

/-- A grant enters the queue once, under the number of the requester that it goes to. -/
theorem grant_count (i : Nat) :
    ((a.resolve masters slave).grant.toList.map (·.id)).count i
      = (a.grantTo masters slave i).toList.length := by
  unfold grantTo
  cases hg : (a.resolve masters slave).grant with
  | none => simp
  | some r =>
      obtain ⟨_, _, offer, ho, rfl⟩ := grant_eq_some hg
      by_cases hi : i = a.selected
      · subst hi
        simp [ho]
      · simp [hi, Ne.symm hi]

/-- Only the oldest owner sees a beat. -/
theorem owner_of_rFired {i : Nat} {m : ReadMaster} {b : ReadBeat}
    (h : ReadBus.rFired ⟨m, a.toRequester slave i⟩ = some b) : a.owners.head? = some i := by
  by_cases ho : a.owners.head? = some i
  · exact ho
  · have hnone : (a.toRequester slave i).r = none := if_neg ho
    simp [ReadBus.rFired, hnone] at h

/-- What it sees is the beat on the data channel. -/
theorem incoming_of_rFired {i : Nat} {m : ReadMaster} {b : ReadBeat}
    (h : ReadBus.rFired ⟨m, a.toRequester slave i⟩ = some b) : a.incoming slave = some b := by
  have hr : (a.toRequester slave i).r = a.incoming slave := if_pos (owner_of_rFired h)
  unfold ReadBus.rFired at h
  split at h
  · rwa [hr] at h
  · cases h

end ReadArbiter

/-- The queue that has given up a word has given up its first burst with the last word. -/
theorem Memory.advanced_ids {m : Memory} {bus : ReadBus} {beat : ReadBeat}
    (hs : m.readWires = .ok bus.slave) (hb : bus.rFired = some beat) :
    m.reads.map (·.request.id)
      = ReadArbiter.enders [beat] ++ (advanced m.reads).map (·.request.id) := by
  obtain ⟨job, rest, hcons, hid, hlast, _⟩ := sends?_of_fired hs hb
  rw [hcons]
  dsimp only [advanced]
  by_cases hdone : job.beat + 1 = job.request.beats
  · have hl : beat.last = true := by rw [hlast, beq_iff_eq]; exact hdone
    simp [ReadArbiter.enders, hl, hdone, hid]
  · have hl : beat.last = false := by rw [hlast, beq_eq_false_iff_ne]; exact hdone
    simp [ReadArbiter.enders, hl, hdone]

/-! ## The invariant -/

namespace Machine

open ReadArbiter

/-- The requesters of the bursts in flight, where the bursts are: the ends that come back,
the queue of the memory, and the granted requests on their way to it. -/
def inFlight (s : Machine) : List Nat :=
  enders s.readArbiter.data.contents
    ++ s.memory.reads.map (·.request.id)
    ++ s.readArbiter.granted.contents.map (·.id)

/-- The owners are the requesters in flight, and every requester counts its own. -/
structure Mirrored (bound : Nat) (s : Machine) : Prop where
  owners : s.readArbiter.owners.ids = s.inFlight
  depth : s.readArbiter.owners.depth = bound
  size : s.readArbiter.owners.size ≤ bound
  ports : ∀ id ∈ s.readArbiter.owners.ids, id < s.ports.length
  inTurn : InTurn s.readArbiter.data.contents s.readArbiter.owners.ids
  counted : ∀ (i : Nat) (p : Port), s.ports[i]? = some p →
    p.reader.core.pending.bursts
      = s.readArbiter.owners.ids.count i + (s.readArbiter.waiting i).length

variable {params : MachineParams} {bound : Nat} {s s' : Machine} {slave : ReadSlave}

/-- What is in flight belongs to a port. -/
theorem inFlight_lt (hm : s.Mirrored bound) {id : Nat} (hid : id ∈ s.inFlight) :
    id < s.ports.length := by
  rw [← hm.owners] at hid
  exact hm.ports id hid

/-- **In a cycle the list grows by the grant and loses the burst that ends.** -/
theorem inFlight_edge (hf : s.ReadPathFormed) (h : s.Edge slave s') :
    s.inFlight ++ (s.reads slave).grant.toList.map (·.id)
      = enders (s.readArbiter.deliveredBeat (s.reads slave)).toList ++ s'.inFlight := by
  have hedge : s.readArbiter.Edge (s.readArbiter.resolve (s.ports.map (·.readWires)) slave)
      s'.readArbiter := ReadArbiter.tick_edge h.readArbiter
  have hdown : s.memory.readWires = .ok (s.reads slave).down.slave := h.drives
  have hgranted : s.readArbiter.granted.contents ++ (s.reads slave).grant.toList
      = (s.reads slave).down.arFired.toList ++ s'.readArbiter.granted.contents :=
    (granted_flow hf.arbiter hedge).2.2
  have hdata : s.readArbiter.data.contents ++ (s.reads slave).down.rFired.toList
      = (s.readArbiter.deliveredBeat (s.reads slave)).toList ++ s'.readArbiter.data.contents :=
    (data_flow hf.arbiter hedge).2.2
  obtain ⟨_, hqueue⟩ := Memory.tick_reads hdown h.memory
  have hgranted' := congrArg (List.map (·.id)) hgranted
  have hdata' := congrArg enders hdata
  rw [List.map_append, List.map_append] at hgranted'
  rw [enders_append, enders_append] at hdata'
  -- the queue of the memory, with what went in and what came out
  have hmemory : s.memory.reads.map (·.request.id)
        ++ (s.reads slave).down.arFired.toList.map (·.id)
      = enders (s.reads slave).down.rFired.toList ++ s'.memory.reads.map (·.request.id) := by
    rw [hqueue, List.map_append, List.map_map]
    cases hb : (s.reads slave).down.rFired with
    | none => rfl
    | some beat =>
        rw [Memory.advanced_ids hdown hb]
        simp [Function.comp_def]
  unfold inFlight
  calc _ = enders s.readArbiter.data.contents ++ (s.memory.reads.map (·.request.id)
          ++ (s.readArbiter.granted.contents.map (·.id)
            ++ (s.reads slave).grant.toList.map (·.id))) := by
          simp only [List.append_assoc]
    _ = enders s.readArbiter.data.contents ++ ((s.memory.reads.map (·.request.id)
          ++ (s.reads slave).down.arFired.toList.map (·.id))
            ++ s'.readArbiter.granted.contents.map (·.id)) := by
          rw [hgranted', List.append_assoc]
    _ = (enders s.readArbiter.data.contents ++ enders (s.reads slave).down.rFired.toList)
          ++ s'.memory.reads.map (·.request.id)
          ++ s'.readArbiter.granted.contents.map (·.id) := by
          rw [hmemory]
          simp only [List.append_assoc]
    _ = _ := by
          rw [hdata']
          simp only [List.append_assoc]

/-- With what comes in and with the grant of the cycle, every beat is still in turn. -/
theorem inTurn_cycle (hm : s.Mirrored bound) (hs : s.memory.readWires = .ok slave) :
    InTurn (s.readArbiter.data.contents ++ (s.reads slave).down.rFired.toList)
      (s.readArbiter.ownersAfterGrant (s.reads slave)).ids := by
  have hafter : (s.readArbiter.ownersAfterGrant (s.reads slave)).ids
      = s.readArbiter.owners.ids ++ (s.reads slave).grant.toList.map (·.id) :=
    congrArg Ownership.ids ownersAfterGrant_eq
  have hdown : s.memory.readWires = .ok (s.reads slave).down.slave := hs
  have hturn := hm.inTurn
  rw [hafter]
  rw [hm.owners] at hturn ⊢
  refine InTurn.owners ?_ _
  cases hb : (s.reads slave).down.rFired with
  | none => simpa using hturn
  | some beat =>
      obtain ⟨job, rest, hcons, hid, _⟩ := Memory.sends?_of_fired hdown hb
      -- the memory sends for its oldest burst, and no other end is before it
      unfold inFlight at hturn ⊢
      rw [List.append_assoc] at hturn ⊢
      refine InTurn.beat hturn ?_
      rw [hcons, hid]
      rfl

/-- **The beat on the data channel belongs to the oldest owner.** -/
theorem incoming_owner (hf : s.ReadPathFormed) (hm : s.Mirrored bound)
    (hs : s.memory.readWires = .ok slave) {b : ReadBeat}
    (hb : s.readArbiter.incoming slave = some b) :
    s.readArbiter.owners.head? = some b.id := by
  unfold incoming at hb
  show s.readArbiter.owners.ids.head? = some b.id
  cases hreg : s.readArbiter.outputRegister with
  | true =>
      rw [hreg, if_pos rfl] at hb
      have hturn := hm.inTurn
      rw [Skid.contents_of_peek hb] at hturn
      exact hturn.1
  | false =>
      rw [hreg, if_neg Bool.false_ne_true] at hb
      obtain ⟨_, hnil⟩ := hf.arbiter.bypassOutputs hreg
      -- nothing is held, so the memory is at the oldest burst in flight
      have hfired : ReadBus.rFired ⟨{ rReady := true }, slave⟩ = some b := hb
      obtain ⟨job, rest, hcons, hid, _⟩ := Memory.sends?_of_fired hs hfired
      rw [hm.owners, inFlight, hnil, hcons, hid]
      rfl

theorem delivered_owner (hf : s.ReadPathFormed) (hm : s.Mirrored bound)
    (hs : s.memory.readWires = .ok slave) {b : ReadBeat}
    (hb : s.readArbiter.deliveredBeat (s.reads slave) = some b) :
    (s.readArbiter.ownersAfterGrant (s.reads slave)).head? = some b.id := by
  obtain ⟨id, m, hid, _, hfired⟩ := deliveredBeat_eq_some hb
  exact ownersAfterGrant_head (incoming_owner hf hm hs (incoming_of_rFired hfired))

/-- A beat that reaches a port names it. -/
theorem rFired_id (hf : s.ReadPathFormed) (hm : s.Mirrored bound)
    (hs : s.memory.readWires = .ok slave) {i : Nat} {p : Port} (hp : s.ports[i]? = some p)
    {b : ReadBeat} (hb : (s.readBus slave i p).rFired = some b) :
    b.id = i ∧ s.readArbiter.deliveredBeat (s.reads slave) = some b := by
  have hwires : (s.ports.map (·.readWires))[i]? = some p.readWires := by simp [hp]
  have howner : s.readArbiter.owners.head? = some i := owner_of_rFired hb
  have hid := incoming_owner hf hm hs (incoming_of_rFired hb)
  rw [howner, Option.some.injEq] at hid
  exact ⟨hid.symm, (deliveredBeat_of_head howner hwires).trans hb⟩

/-- **The beat on the data channel goes to the port that it names, and to no other.** -/
theorem beat_delivered (hf : s.ReadPathFormed) (hm : s.Mirrored bound)
    (hs : s.memory.readWires = .ok slave) {b : ReadBeat}
    (hb : s.readArbiter.incoming slave = some b) :
    (∃ p, s.ports[b.id]? = some p ∧ (s.readBus slave b.id p).rFired = some b) ∧
      ∀ (j : Nat) (q : Port), s.ports[j]? = some q → j ≠ b.id →
        (s.readBus slave j q).rFired = none := by
  have howner := incoming_owner hf hm hs hb
  refine ⟨?_, ?_⟩
  · have hlt : b.id < s.ports.length := hm.ports b.id (List.mem_of_mem_head? howner)
    have hr : (s.readArbiter.toRequester slave b.id).r = some b := (if_pos howner).trans hb
    exact ⟨_, List.getElem?_eq_getElem hlt, hr⟩
  · intro j q _ hj
    cases hfire : (s.readBus slave j q).rFired with
    | none => rfl
    | some c =>
        have hother : s.readArbiter.owners.head? = some j := owner_of_rFired hfire
        rw [howner, Option.some.injEq] at hother
        exact absurd hother.symm hj

/-- **What a port counts is what is in flight for it.** -/
theorem counted_edge (hf : s.ReadPathFormed) (hm : s.Mirrored bound) (h : s.Edge slave s')
    {i : Nat} {p' : Port} (hp' : s'.ports[i]? = some p') :
    p'.reader.core.pending.bursts
      = s'.readArbiter.owners.ids.count i + (s'.readArbiter.waiting i).length := by
  obtain ⟨p, rstep, wstep, hp, hedge⟩ := h.port' hp'
  obtain ⟨hcore, _⟩ := ReadEngine.tick_core hedge.reader
  obtain ⟨hoffer, _⟩ := s.arFired_readBus slave i p
  have hnext := ReadCore.next_bursts hoffer hcore
  have hcount := hm.counted i p hp
  have harb : s.readArbiter.Edge (s.readArbiter.resolve (s.ports.map (·.readWires)) slave)
      s'.readArbiter := ReadArbiter.tick_edge h.readArbiter
  have hwires : (s.ports.map (·.readWires))[i]? = some p.readWires := by simp [hp]
  -- the requests of the port, from its register to the queue of owners
  obtain ⟨_, _, _, hinputs⟩ := inputs_flow hf.arbiter (by simp) harb
  have hwait := congrArg List.length (hinputs i _ hwires)
  have howners := congrArg (List.count i) (owners_flow h.readArbiter)
  rw [show (s.readArbiter.ownersAfterGrant (s.reads slave)).ids
    = s.readArbiter.owners.ids ++ (s.reads slave).grant.toList.map (·.id)
    from congrArg Ownership.ids ownersAfterGrant_eq] at howners
  rw [List.count_append, List.count_append] at howners
  have hgrant : ((s.reads slave).grant.toList.map (·.id)).count i
      = (s.readArbiter.grantTo (s.ports.map (·.readWires)) slave i).toList.length :=
    grant_count i
  -- the beat that the port receives is the one that ends a burst of it
  have hended : (enders (s.readArbiter.deliveredBeat (s.reads slave)).toList).count i
      = if (s.readBus slave i p).rFired.any (·.last) then 1 else 0 := by
    cases hb : (s.readBus slave i p).rFired with
    | some b =>
        obtain ⟨hid, hdel⟩ := rFired_id hf hm h.drives hp hb
        rw [hdel]
        cases hl : b.last <;> simp [enders, hl, hid]
    | none =>
        have hflow := delivered_flow harb hwires
        have hnone : (ReadBus.rFired ⟨p.readWires, s.readArbiter.toRequester slave i⟩)
            = none := hb
        rw [hnone] at hflow
        have hnot : i ∉ enders (s.readArbiter.deliveredBeat (s.reads slave)).toList := by
          intro hmem
          obtain ⟨b, hbm, hid⟩ := List.mem_map.mp hmem
          have : b ∈ (s.readArbiter.deliveredBeat (s.reads slave)).toList.filter
              (·.id == i) := List.mem_filter.mpr ⟨(List.mem_filter.mp hbm).1, by simp [hid]⟩
          rw [show (s.reads slave) = s.readArbiter.resolve (s.ports.map (·.readWires)) slave
            from rfl, ← hflow] at this
          cases this
        rw [List.count_eq_zero.mpr hnot]
        rfl
  have hpositive : (if (s.readBus slave i p).rFired.any (·.last) then 1 else 0)
      ≤ s.readArbiter.owners.ids.count i := by
    cases hb : (s.readBus slave i p).rFired with
    | none => exact Nat.zero_le _
    | some b =>
        obtain ⟨rest, hcons⟩ := List.head?_eq_some_iff.mp (owner_of_rFired hb)
        have hone : 1 ≤ s.readArbiter.owners.ids.count i := by
          rw [hcons, List.count_cons_self]
          omega
        split <;> omega
  have hasked : (if (s.readBus slave i p).arFired.isSome then 1 else 0)
      = (s.readBus slave i p).arFired.toList.length := by
    cases (s.readBus slave i p).arFired <;> rfl
  rw [List.length_append, List.length_append] at hwait
  rw [show (p.readInputs (s.readBus slave i p)).beat = (s.readBus slave i p).rFired from rfl,
    show (p.readInputs (s.readBus slave i p)).arFires = (s.readBus slave i p).arFired.isSome
      from rfl, hasked] at hnext
  rw [hgrant, hended] at howners
  have hbus : ReadBus.arFired ⟨p.readWires, s.readArbiter.toRequester slave i⟩
      = (s.readBus slave i p).arFired := rfl
  rw [hbus] at hwait
  omega

/-- **A granted request is one of the port whose number it carries.** -/
theorem granted_port (hf : s.ReadPathFormed) {r : AddrReq}
    (hr : (s.reads slave).grant = some r) :
    ∃ p offer, s.ports[r.id]? = some p
      ∧ (s.readArbiter.waiting r.id ++ (s.readBus slave r.id p).arFired.toList).head? = some offer
      ∧ r = { offer with id := r.id } := by
  have hgrant : (s.readArbiter.resolve (s.ports.map (·.readWires)) slave).grant = some r := hr
  obtain ⟨m, offer, hmaster, hfirst, hstamp⟩ := grant_origin hf.arbiter (by simp) hgrant
  rw [List.getElem?_map, Option.map_eq_some_iff] at hmaster
  obtain ⟨p, hp, rfl⟩ := hmaster
  exact ⟨p, offer, hp, hfirst, hstamp⟩

theorem mirrored_edge (hf : s.ReadPathFormed) (hm : s.Mirrored bound) (h : s.Edge slave s') :
    s'.Mirrored bound := by
  have hafter : s.readArbiter.ownersAfterGrant (s.reads slave) = { s.readArbiter.owners with
      ids := s.readArbiter.owners.ids ++ (s.reads slave).grant.toList.map (·.id) } :=
    ownersAfterGrant_eq
  have hsize : (s.readArbiter.ownersAfterGrant (s.reads slave)).size ≤ bound :=
    ownersAfterGrant_size hm.depth hm.size
  have hids := owners_flow h.readArbiter
  have hmove := tick_owners h.readArbiter
  refine ⟨?_, ?_, ?_, ?_, ?_, fun i p' hp' => counted_edge hf hm h hp'⟩
  · have hflow := inFlight_edge hf h
    rw [← hm.owners] at hflow
    rw [hafter, hflow] at hids
    exact (List.append_cancel_left hids).symm
  · rw [hmove]
    split <;> exact (congrArg Ownership.depth hafter).trans hm.depth
  · have hlen := congrArg List.length hids
    rw [List.length_append] at hlen
    unfold Ownership.size at hsize ⊢
    omega
  · intro id hid
    have hmem : id ∈ (s.readArbiter.ownersAfterGrant (s.reads slave)).ids := by
      rw [hids]
      exact List.mem_append_right _ hid
    rw [hafter] at hmem
    rw [h.length]
    rcases List.mem_append.mp hmem with hold | hnew
    · exact hm.ports id hold
    · obtain ⟨r, hr, rfl⟩ := List.mem_map.mp hnew
      obtain ⟨p, _, hp, _⟩ := granted_port hf (Option.mem_toList.mp hr)
      exact (List.getElem?_eq_some_iff.mp hp).1
  · have hturn := inTurn_cycle hm h.drives
    have hedge : s.readArbiter.Edge (s.readArbiter.resolve (s.ports.map (·.readWires)) slave)
        s'.readArbiter := ReadArbiter.tick_edge h.readArbiter
    have hdata : s.readArbiter.data.contents ++ (s.reads slave).down.rFired.toList
        = (s.readArbiter.deliveredBeat (s.reads slave)).toList ++ s'.readArbiter.data.contents :=
      (data_flow hf.arbiter hedge).2.2
    rw [hdata] at hturn
    rw [hmove]
    cases hb : s.readArbiter.deliveredBeat (s.reads slave) with
    | none =>
        rw [hb] at hturn
        exact hturn
    | some b =>
        rw [hb] at hturn
        obtain ⟨_, hrest⟩ := hturn
        cases hl : b.last <;> rw [hl] at hrest <;> simpa [hl, Ownership.pop] using hrest

theorem mirrored_touched {op : Operation} (hm : s.Mirrored bound) (ht : s.Touched op s') :
    s'.Mirrored bound := by
  refine ⟨?_, ?_, ?_, ?_, ?_, ?_⟩
  · unfold inFlight
    rw [ht.readArbiter, ht.memory]
    exact hm.owners
  · rw [ht.readArbiter]
    exact hm.depth
  · rw [ht.readArbiter]
    exact hm.size
  · rw [ht.readArbiter, ht.length]
    exact hm.ports
  · rw [ht.readArbiter]
    exact hm.inTurn
  · intro i p' hp'
    obtain ⟨p, hp, hport⟩ := ht.port' hp'
    rw [ht.readArbiter, hport.reader]
    exact hm.counted i p hp

/-- With nothing in flight and nothing counted there is nothing to compare. -/
theorem mirrored_of_rest (hdepth : s.readArbiter.owners.depth = bound)
    (howners : s.readArbiter.owners.ids = []) (hdata : s.readArbiter.data = {})
    (hgranted : s.readArbiter.granted = {})
    (hinputs : ∀ skid ∈ s.readArbiter.inputs, skid = {}) (hreads : s.memory.reads = [])
    (hcore : ∀ (i : Nat) (p : Port), s.ports[i]? = some p → p.reader.core = {}) :
    s.Mirrored bound := by
  refine ⟨?_, hdepth, ?_, ?_, ?_, ?_⟩
  · rw [howners, inFlight, hdata, hgranted, hreads]
    rfl
  · rw [Ownership.size, howners]
    exact Nat.zero_le _
  · intro id hid
    rw [howners] at hid
    cases hid
  · rw [hdata]
    trivial
  · intro i p hp
    have hempty : ∀ skid ∈ s.readArbiter.inputs, skid.contents = [] := by
      intro skid hskid
      rw [hinputs skid hskid]
      rfl
    rw [hcore i p hp, howners, waiting_eq_nil hempty]
    rfl

/-- **In every reachable machine the queue of owners mirrors the reads in flight.** -/
theorem mirrored_reachable (h : Machine.Reachable params s) :
    s.Formed params ∧ s.Mirrored params.memory.readOutstanding := by
  refine h.induction ?_ ?_ ?_ ?_
  · intro s h₀
    have hcore : ∀ (i : Nat) (p : Port), s.ports[i]? = some p → p.reader.core = {} := by
      intro i p hp
      rw [getElem?_ofParams h₀] at hp
      obtain ⟨q, _, rfl⟩ := Option.map_eq_some_iff.mp hp
      rfl
    obtain ⟨readArbiter, _, hra, _, rfl⟩ := ofParams_eq_ok h₀
    obtain ⟨turn, _, hra⟩ := except_bind_eq_ok.mp hra
    cases hra
    exact mirrored_of_rest rfl rfl rfl rfl (fun skid hskid => List.eq_of_mem_replicate hskid)
      rfl hcore
  · intro s s' slave hf hm hedge
    exact mirrored_edge hf.reads hm hedge
  · intro s s' op _ hm ht
    exact mirrored_touched hm ht
  · intro s s' _ hm hreset
    rw [reset_eq_ok hreset]
    refine mirrored_of_rest hm.depth rfl rfl rfl ?_ rfl ?_
    · intro skid hskid
      obtain ⟨_, _, rfl⟩ := List.mem_map.mp hskid
      rfl
    · intro i p' hp'
      simp only [List.getElem?_map, Option.map_eq_some_iff] at hp'
      obtain ⟨p, _, rfl⟩ := hp'
      rfl

end Machine

end BurstDma
