import BurstDma.Proofs.Place
import BurstDma.Proofs.ReadOwnership
import BurstDma.Proofs.Totality

/-!
# What enters the read arbiter leaves it

The read arbiter is looked at alone, between requesters that may drive anything and a
memory. Its queues are one ledger each, and the ledgers fit together: **what was taken in
is what was handed on, followed by what is still held**, for the requests of each
requester and for the data.

The arbiter checks that data come back to their owners in order, and gives up if they do
not. So the ledgers hold by themselves, and the memory matters in one place only: as long
as it answers the bursts that it accepted, oldest first and each with all of its beats,
the check passes. This is because the owners are what is left of the granted requests
once the bursts that have ended are crossed out.
-/

namespace BurstDma

/-- A request under the number `i`. -/
def AddrReq.numbered (i : Nat) (r : AddrReq) : AddrReq :=
  { r with id := i }

/-- The beats that answer a request, as far as the bus tells them apart: whose they are, and
which of them is the last. -/
def AddrReq.answer (r : AddrReq) : List (Nat × Bool) :=
  (endMarks 0 r.beats).map fun last => (r.id, last)

/-- One cycle at a read arbiter: the state it found and what both sides drove. -/
structure ReadCycle where
  state : ReadArbiter
  masters : List ReadMaster
  slave : ReadSlave

namespace ReadCycle

/-- The wires as they settled. -/
def wires (c : ReadCycle) : ReadWires :=
  c.state.resolve c.masters c.slave

/-- The requests that requester `i` handed over, under its number. -/
def accepted (i : Nat) (cycles : List ReadCycle) : List AddrReq :=
  cycles.flatMap fun c =>
    ((c.wires.up[i]?.bind (·.arFired)).map (·.numbered i)).toList

/-- The requests that the memory took. -/
def taken (cycles : List ReadCycle) : List AddrReq :=
  cycles.flatMap (·.wires.down.arFired.toList)

/-- The data that the memory handed over. -/
def returned (cycles : List ReadCycle) : List ReadBeat :=
  cycles.flatMap (·.wires.down.rFired.toList)

/-- The data that requesters received, whoever they are. -/
def delivered (cycles : List ReadCycle) : List ReadBeat :=
  cycles.flatMap fun c => c.wires.up.flatMap (·.rFired.toList)

/-- At no time has the memory returned anything but the beats of the bursts that it took, in
the order in which it took them. -/
def InOrder (cycles : List ReadCycle) : Prop :=
  ∀ before, before <+: cycles →
    (returned before).map (fun b => (b.id, b.last)) <+: (taken before).flatMap (·.answer)

end ReadCycle

namespace ReadArbiter

open ReadCycle

/-- `a₀.Cycles n past a`: the cycles `past`, oldest first, led from `a₀` to `a`. In each of
them `n` requesters and the memory drove something. -/
inductive Cycles (n : Nat) (a₀ : ReadArbiter) : List ReadCycle → ReadArbiter → Prop where
  | start : Cycles n a₀ [] a₀
  | step {past : List ReadCycle} {a a' : ReadArbiter} {masters : List ReadMaster}
      {slave : ReadSlave} : Cycles n a₀ past a → masters.length = n →
      (a.tick (a.resolve masters slave)).result = .ok a' →
      Cycles n a₀ (past ++ [⟨a, masters, slave⟩]) a'

variable {n : Nat} {a₀ a a' : ReadArbiter} {past : List ReadCycle} {p : ReadArbiterParams}
  {masters : List ReadMaster} {slave : ReadSlave}

/-- An arbiter is made for any number of requesters from 1 to 32. -/
theorem ofParams_ok (hmin : 1 ≤ p.requesters) (hmax : p.requesters ≤ maxRequesters) :
    ∃ a, ofParams p = .ok a :=
  ⟨_, except_bind_eq_ok.mpr ⟨_, RoundRobin.ofLanes_eq_ok.mpr ⟨⟨hmin, hmax⟩, rfl⟩, rfl⟩⟩

theorem Cycles.trans {b : ReadArbiter} {more : List ReadCycle} (h : a₀.Cycles n past a)
    (hmore : a.Cycles n more b) : a₀.Cycles n (past ++ more) b := by
  induction hmore with
  | start => rwa [List.append_nil]
  | step _ hlen ht ih =>
      rw [← List.append_assoc]
      exact ih.step hlen ht

/-- Drives the wires of some cycles, one after the other. -/
def play (a : ReadArbiter) :
    List (List ReadMaster × ReadSlave) → Except Fault (List ReadCycle × ReadArbiter)
  | [] => .ok ([], a)
  | (masters, slave) :: driven => do
    let next ← (a.tick (a.resolve masters slave)).result
    let (cycles, last) ← next.play driven
    return (⟨a, masters, slave⟩ :: cycles, last)

/-- What was played is a run. -/
theorem cycles_of_play {driven : List (List ReadMaster × ReadSlave)}
    (hlen : ∀ d ∈ driven, d.1.length = n) {cycles : List ReadCycle}
    (h : a.play driven = .ok (cycles, a')) : a.Cycles n cycles a' := by
  induction driven generalizing a cycles with
  | nil =>
      cases h
      exact .start
  | cons d driven ih =>
      obtain ⟨masters, slave⟩ := d
      rw [play] at h
      obtain ⟨next, hnext, h⟩ := except_bind_eq_ok.mp h
      obtain ⟨⟨rest, last⟩, hrest, h⟩ := except_bind_eq_ok.mp h
      cases h
      have hfirst : a.Cycles n ([] ++ [⟨a, masters, slave⟩]) next :=
        Cycles.start.step (hlen _ List.mem_cons_self) hnext
      exact hfirst.trans (ih (fun d hd => hlen d (List.mem_cons_of_mem _ hd)) hrest)

/-- A run that ends well, with what was seen of it. -/
theorem cycles_of_seen {driven : List (List ReadMaster × ReadSlave)}
    (hlen : ∀ d ∈ driven, d.1.length = n) (seen : List ReadCycle × ReadArbiter → Bool)
    (h : (a.play driven).toOption.any seen = true) :
    ∃ cycles a', a.Cycles n cycles a' ∧ seen (cycles, a') = true := by
  cases hplay : a.play driven with
  | error fault =>
      rw [hplay] at h
      cases h
  | ok r =>
      rw [hplay] at h
      exact ⟨r.1, r.2, cycles_of_play hlen hplay, h⟩

/-! ## A cycle -/

/-- Only the oldest owner receives a beat. -/
theorem owner_of_received {i : Nat} {bus : ReadBus} {b : ReadBeat}
    (hbus : (a.resolve masters slave).up[i]? = some bus) (hb : bus.rFired = some b) :
    a.owners.head? = some i ∧ a.deliveredBeat (a.resolve masters slave) = some b := by
  cases hm : masters[i]? with
  | none => simp [resolve, List.getElem?_zipIdx, hm] at hbus
  | some m =>
      rw [resolve_up_getElem? hm, Option.some.injEq] at hbus
      subst hbus
      have howner := owner_of_rFired hb
      exact ⟨howner, (deliveredBeat_of_head howner hm).trans hb⟩

/-- What the requesters receive in a cycle is the beat that is delivered. -/
theorem received_eq : (a.resolve masters slave).up.flatMap (·.rFired.toList)
    = (a.deliveredBeat (a.resolve masters slave)).toList := by
  cases hhead : (a.ownersAfterGrant (a.resolve masters slave)).head? with
  | none =>
      -- without an owner nobody is shown anything
      have hnone : a.deliveredBeat (a.resolve masters slave) = none := by
        rw [deliveredBeat, ReadArbiter.delivered, hhead]
        rfl
      rw [hnone]
      refine List.flatMap_eq_nil_iff.mpr fun bus hmem => ?_
      obtain ⟨j, hbus⟩ := List.mem_iff_getElem?.mp hmem
      cases hb : bus.rFired with
      | none => rfl
      | some b =>
          obtain ⟨_, hdelivered⟩ := owner_of_received hbus hb
          rw [hnone] at hdelivered
          cases hdelivered
  | some id =>
      rw [deliveredBeat, ReadArbiter.delivered, hhead, Option.bind_some,
        flatMap_eq_of_only (i := id)]
      · cases (a.resolve masters slave).up[id]? <;> rfl
      · intro j bus hbus hj
        cases hb : bus.rFired with
        | none => rfl
        | some b =>
            have howner := ownersAfterGrant_head (w := a.resolve masters slave)
              (owner_of_received hbus hb).1
            rw [hhead, Option.some.injEq] at howner
            exact absurd howner.symm hj

/-- The grant of a cycle is what is taken from the requester that it names. -/
theorem grant_numbered (i : Nat) :
    (a.resolve masters slave).grant.toList.filter (·.id == i)
      = (a.grantTo masters slave i).toList.map (·.numbered i) := by
  have hflow : ((a.resolve masters slave).grant.toList.filter (·.id == i)).flatMap
        (fun r => [r.numbered i])
      = (a.grantTo masters slave i).toList.flatMap fun r => [r.numbered i] :=
    grant_filter _ (fun _ _ => rfl) i
  rw [← List.map_eq_flatMap, ← List.map_eq_flatMap] at hflow
  rw [← hflow, List.map_congr_left (g := id), List.map_id]
  intro r hr
  have hid : r.id = i := beq_iff_eq.mp (List.mem_filter.mp hr).2
  subst hid
  rfl

/-! ## The ledgers -/

/-- What is known of an arbiter with the past `past`. -/
structure Carried (p : ReadArbiterParams) (past : List ReadCycle) (a : ReadArbiter) : Prop where
  formed : a.WellFormed p.requesters
  depth : a.owners.depth = p.maxOutstanding
  size : a.owners.size ≤ p.maxOutstanding
  requests : ∀ i, i < p.requesters → accepted i past
    = (taken past).filter (·.id == i) ++ a.granted.contents.filter (·.id == i)
      ++ (a.waiting i).map (·.numbered i)
  data : returned past = ReadCycle.delivered past ++ a.data.contents
  /-- The granted requests are those whose bursts have ended, and then the owners. -/
  owners : (taken past ++ a.granted.contents).map (·.id)
    = enders (ReadCycle.delivered past) ++ a.owners.ids
  named : ∀ c ∈ past, ∀ (i : Nat) (bus : ReadBus) (b : ReadBeat), c.wires.up[i]? = some bus →
    bus.rFired = some b → b.id = i

theorem accepted_concat (i : Nat) (past : List ReadCycle) (c : ReadCycle) :
    accepted i (past ++ [c]) = accepted i past
      ++ ((c.wires.up[i]?.bind (·.arFired)).map (·.numbered i)).toList := by
  simp [accepted]

theorem taken_concat (past : List ReadCycle) (c : ReadCycle) :
    taken (past ++ [c]) = taken past ++ c.wires.down.arFired.toList := by
  simp [taken]

theorem returned_concat (past : List ReadCycle) (c : ReadCycle) :
    returned (past ++ [c]) = returned past ++ c.wires.down.rFired.toList := by
  simp [returned]

theorem delivered_concat (past : List ReadCycle) (c : ReadCycle) :
    ReadCycle.delivered (past ++ [c])
      = ReadCycle.delivered past ++ c.wires.up.flatMap (·.rFired.toList) := by
  simp [ReadCycle.delivered]

theorem carried_ofParams (h : ofParams p = .ok a) : Carried p [] a := by
  obtain ⟨turn, _, h⟩ := except_bind_eq_ok.mp h
  cases h
  have hempty : ∀ skid ∈ List.replicate p.requesters ({} : Skid AddrReq), skid.contents = [] := by
    intro skid hskid
    rw [List.eq_of_mem_replicate hskid]
    rfl
  exact
    { formed :=
        { inputs := List.length_replicate
          packedInputs := fun skid hskid => by
            rw [List.eq_of_mem_replicate hskid]
            exact Skid.packed_empty
          packedGranted := Skid.packed_empty
          packedData := Skid.packed_empty
          bypassInputs := fun _ => hempty
          bypassOutputs := fun _ => ⟨rfl, rfl⟩ }
      depth := rfl
      size := Nat.zero_le _
      requests := fun i _ => by
        rw [waiting_eq_nil hempty]
        rfl
      data := rfl
      owners := rfl
      named := fun c hc => absurd hc List.not_mem_nil }

/-- **A cycle moves every ledger on.** -/
theorem Carried.tick (h : Carried p past a) (hn : masters.length = p.requesters)
    (ht : (a.tick (a.resolve masters slave)).result = .ok a') :
    Carried p (past ++ [⟨a, masters, slave⟩]) a' := by
  have hedge : a.Edge (a.resolve masters slave) a' := tick_edge ht
  obtain ⟨_, _, hgranted⟩ := granted_flow h.formed hedge
  obtain ⟨_, _, hdata⟩ := data_flow h.formed hedge
  obtain ⟨_, _, _, hinputs⟩ := inputs_flow h.formed hn hedge
  have howners := owners_flow ht
  have hafter : (a.ownersAfterGrant (a.resolve masters slave)).ids
      = a.owners.ids ++ (a.resolve masters slave).grant.toList.map (·.id) :=
    congrArg Ownership.ids ownersAfterGrant_eq
  have hreceived : (a.resolve masters slave).up.flatMap (·.rFired.toList)
      = (a.deliveredBeat (a.resolve masters slave)).toList := received_eq
  refine ⟨wellFormed_edge h.formed hn hedge, ?_, ?_, ?_, ?_, ?_, ?_⟩
  · rw [tick_owners ht]
    split <;> exact (congrArg Ownership.depth ownersAfterGrant_eq).trans h.depth
  · have hsize : (a.ownersAfterGrant (a.resolve masters slave)).size ≤ p.maxOutstanding :=
      ownersAfterGrant_size h.depth h.size
    have hlen := congrArg List.length howners
    rw [List.length_append] at hlen
    unfold Ownership.size at hsize ⊢
    omega
  · intro i hi
    have hm : masters[i]? = some masters[i] := List.getElem?_eq_getElem (by omega)
    have hup : (ReadCycle.mk a masters slave).wires.up[i]?
        = some ⟨masters[i], a.toRequester slave i⟩ := resolve_up_getElem? hm
    have hwaiting := congrArg (List.map (·.numbered i)) (hinputs i _ hm)
    have hfilter := congrArg (List.filter (·.id == i)) hgranted
    rw [List.map_append, List.map_append] at hwaiting
    rw [List.filter_append, List.filter_append, grant_numbered] at hfilter
    rw [accepted_concat, taken_concat, h.requests i hi, hup, Option.bind_some,
      Option.toList_map, List.append_assoc, hwaiting, List.filter_append]
    show _ = _ ++ (a.resolve masters slave).down.arFired.toList.filter _ ++ _ ++ _
    simp only [List.append_assoc]
    rw [← List.append_assoc (a.granted.contents.filter _), hfilter, List.append_assoc]
  · rw [returned_concat, delivered_concat, h.data]
    show _ ++ (a.resolve masters slave).down.rFired.toList
      = _ ++ (a.resolve masters slave).up.flatMap _ ++ _
    rw [hreceived, List.append_assoc, hdata, List.append_assoc]
  · have hold := congrArg (· ++ (a.resolve masters slave).grant.toList.map (·.id)) h.owners
    rw [← List.map_append, List.append_assoc, hgranted, List.append_assoc, ← hafter, howners]
      at hold
    rw [taken_concat, delivered_concat, enders_append, List.append_assoc, List.append_assoc]
    show (_ ++ ((a.resolve masters slave).down.arFired.toList ++ _)).map _
      = _ ++ (enders ((a.resolve masters slave).up.flatMap _) ++ _)
    rw [hreceived, hold]
  · intro c hc i bus b hbus hb
    rcases List.mem_append.mp hc with hc | hc
    · exact h.named c hc i bus b hbus hb
    · rw [List.mem_singleton.mp hc] at hbus
      -- the arbiter has checked the name of what it delivers
      obtain ⟨howner, hdelivered⟩ := owner_of_received hbus hb
      have hchecked := hedge.inOrder b hdelivered
      rw [ownersAfterGrant_head howner, Option.some.injEq] at hchecked
      exact hchecked.symm

theorem Cycles.carried (hmade : ofParams p = .ok a₀) (h : a₀.Cycles p.requesters past a) :
    Carried p past a := by
  induction h with
  | start => exact carried_ofParams hmade
  | step _ hlen ht ih => exact ih.tick hlen ht

/-! ## A memory that answers in order -/

/-- Beats of one burst are in turn while its requester is the oldest owner. -/
theorem inTurn_of_marks {id : Nat} {more : List Nat} {rest : List (Nat × Bool)}
    (hrest : ∀ beats : List ReadBeat, beats.map (fun b => (b.id, b.last)) <+: rest →
      InTurn beats more) {k m : Nat} (hk : k < m) {beats : List ReadBeat}
    (h : beats.map (fun b => (b.id, b.last))
      <+: (endMarks k m).map (fun last => (id, last)) ++ rest) :
    InTurn beats (id :: more) := by
  induction beats generalizing k with
  | nil => trivial
  | cons b beats ih =>
      rw [endMarks_of_lt hk, List.map_cons, List.map_cons, List.cons_append,
        List.cons_prefix_cons, Prod.mk.injEq] at h
      obtain ⟨⟨hid, hlast⟩, hbeats⟩ := h
      refine ⟨by rw [hid]; rfl, ?_⟩
      by_cases hend : k + 1 = m
      · rw [endMarks_of_le (Nat.le_of_eq hend.symm)] at hbeats
        rw [hlast, beq_iff_eq.mpr hend, if_pos rfl]
        exact hrest beats hbeats
      · rw [hlast, beq_eq_false_iff_ne.mpr hend, if_neg Bool.false_ne_true]
        exact ih (by omega) hbeats

/-- A memory that answers in order names the owners in turn. -/
theorem inTurn_of_answers {beats : List ReadBeat} {requests : List AddrReq}
    (h : beats.map (fun b => (b.id, b.last)) <+: requests.flatMap (·.answer)) :
    InTurn beats (requests.map (·.id)) := by
  induction requests generalizing beats with
  | nil =>
      have hnil : beats = [] := List.map_eq_nil_iff.mp (List.prefix_nil.mp h)
      rw [hnil]
      trivial
  | cons r requests ih =>
      rw [List.flatMap_cons] at h
      exact inTurn_of_marks (fun beats => ih) (Nat.succ_pos r.len) h

/-- What is left is in turn for the owners that are left. -/
theorem InTurn.rest {before beats : List ReadBeat} {ids : List Nat}
    (h : InTurn (before ++ beats) (enders before ++ ids)) : InTurn beats ids := by
  induction before with
  | nil => exact h
  | cons b before ih =>
      obtain ⟨_, htail⟩ := h
      refine ih ?_
      cases hl : b.last <;> rw [hl] at htail <;> simpa [enders, hl] using htail

/-- **The next beat to be delivered names the oldest owner.** -/
theorem Carried.delivered_owner (h : Carried p past a)
    (horder : InOrder (past ++ [⟨a, masters, slave⟩])) {b : ReadBeat}
    (hb : a.deliveredBeat (a.resolve masters slave) = some b) :
    (a.ownersAfterGrant (a.resolve masters slave)).head? = some b.id := by
  obtain ⟨id, m, hid, _, hfired⟩ := deliveredBeat_eq_some hb
  have howners : a.owners.ids.head? = some id := hid
  have hids := h.owners
  rw [List.map_append] at hids
  refine ownersAfterGrant_head ?_
  show a.owners.ids.head? = some b.id
  cases hreg : a.outputRegister with
  | true =>
      -- the beat is the oldest one in the register, and came from the memory before
      have hturn := (inTurn_of_answers (horder past (List.prefix_append _ _))).owners
        (a.granted.contents.map (·.id))
      rw [hids, h.data] at hturn
      have hincoming := incoming_of_rFired hfired
      unfold incoming at hincoming
      rw [hreg, if_pos rfl] at hincoming
      have hrest := hturn.rest
      rw [Skid.contents_of_peek hincoming] at hrest
      exact hrest.1
  | false =>
      -- the beat comes from the memory in this very cycle
      obtain ⟨hgranted, hdata⟩ := h.formed.bypassOutputs hreg
      have hturn := inTurn_of_answers (horder _ List.prefix_rfl)
      have hnew : (ReadCycle.mk a masters slave).wires.down.rFired = some b :=
        (rFired_of_bypass hreg).trans hb
      rw [hgranted, List.map_nil, List.append_nil] at hids
      rw [returned_concat, taken_concat, h.data, hdata, List.append_nil, hnew, List.map_append,
        hids, List.append_assoc] at hturn
      have hhead := hturn.rest.1
      rw [List.head?_append, howners, Option.some_or] at hhead
      exact howners.trans hhead

/-- **Nothing is lost, doubled or overtaken.** With any registers, whatever the requesters
and the memory drive: the requests taken from a requester are those that the memory took
and those that still wait, in order; the data taken from the memory are those that were
delivered and those that still wait, in order; data go only to the requester that they
name; and no more bursts are in flight than allowed. If the memory keeps its order, the
next cycle does not fail. -/
theorem traffic_conserved (hmin : 1 ≤ p.requesters) (hmax : p.requesters ≤ maxRequesters) :
    ∃ a₀, ofParams p = .ok a₀ ∧ ∀ (past : List ReadCycle) (a : ReadArbiter),
      a₀.Cycles p.requesters past a →
        (∀ i, i < p.requesters → accepted i past
          = (taken past).filter (·.id == i) ++ a.granted.contents.filter (·.id == i)
            ++ (a.waiting i).map (·.numbered i))
        ∧ returned past = ReadCycle.delivered past ++ a.data.contents
        ∧ (∀ c ∈ past, ∀ (i : Nat) (bus : ReadBus) (b : ReadBeat), c.wires.up[i]? = some bus →
            bus.rFired = some b → b.id = i)
        ∧ a.outstanding ≤ p.maxOutstanding
        ∧ ∀ (masters : List ReadMaster) (slave : ReadSlave), masters.length = p.requesters →
            InOrder (past ++ [⟨a, masters, slave⟩]) →
            ∃ a', (a.tick (a.resolve masters slave)).result = .ok a' := by
  obtain ⟨a₀, hmade⟩ := ofParams_ok hmin hmax
  refine ⟨a₀, hmade, ?_⟩
  intro past a hrun
  have h : Carried p past a := hrun.carried hmade
  refine ⟨h.requests, h.data, h.named, h.size, ?_⟩
  intro masters slave _ horder
  exact tick_ok a masters slave fun b hb => h.delivered_owner horder hb

/-- A requester that only listens. -/
def listening : ReadMaster := { rReady := true }

/-- Two requesters ask for a burst each, and the memory sends what the first one asked for. -/
def twoRequests : List (List ReadMaster × ReadSlave) :=
  [ ([{ ar := some { addr := 64, len := 1 } }, { ar := some { addr := 4096, len := 1 } }],
      { arReady := true }),
    ([listening, listening], { arReady := true }),
    ([listening, listening], { arReady := true }),
    ([listening, listening], { arReady := true, r := some { id := 0, data := 5 } }),
    ([listening, listening], { r := some { id := 0, data := 6, last := true } }) ]

/-- The first beat of what the second one asked for. -/
def secondAnswer : ReadSlave := { r := some { id := 1, data := 8 } }

/-- Behind registers the burst of the first requester is back when the run ends, its last beat
still held, and the memory goes on with the burst of the second. -/
theorem traffic_conserved_registered :
    ∃ (a₀ a a' : ReadArbiter) (past : List ReadCycle), ofParams ⟨2, 2, true, true⟩ = .ok a₀
      ∧ a₀.Cycles 2 past a ∧ (taken past).map (·.id) = [0, 1] ∧ a.data.contents ≠ []
      ∧ returned past = ReadCycle.delivered past ++ a.data.contents
      ∧ (a.tick (a.resolve [listening, listening] secondAnswer)).result = .ok a' := by
  have hboth : ∀ d ∈ twoRequests, d.1.length = 2 := by decide
  obtain ⟨a₀, hmade, hconserved⟩ :=
    traffic_conserved (p := ⟨2, 2, true, true⟩) (by decide) (by decide)
  obtain ⟨past, a, hrun, hseen⟩ := cycles_of_seen (a := a₀) hboth (fun r =>
      (taken r.1).map (·.id) == [0, 1] && !r.2.data.contents.isEmpty && r.1.length == 5
        && (List.range 7).all fun k =>
          let before := (r.1 ++ [ReadCycle.mk r.2 [listening, listening] secondAnswer]).take k
          ((returned before).map fun b => (b.id, b.last)).isPrefixOf
            ((taken before).flatMap (·.answer))) (by cases hmade; decide +kernel)
  simp only [Bool.and_eq_true, beq_iff_eq, List.all_eq_true, List.mem_range,
    List.isPrefixOf_iff_prefix, Bool.not_eq_true', List.isEmpty_eq_false_iff] at hseen
  obtain ⟨⟨⟨htaken, hheld⟩, hlen⟩, hanswers⟩ := hseen
  have horder : InOrder (past ++ [⟨a, [listening, listening], secondAnswer⟩]) := by
    intro before hbefore
    have hshort : before.length ≤ 6 := by
      simpa [hlen] using hbefore.length_le
    rw [List.prefix_iff_eq_take.mp hbefore]
    exact hanswers before.length (by omega)
  obtain ⟨_, hdata, _, _, hnext⟩ := hconserved past a hrun
  obtain ⟨a', ha'⟩ := hnext _ _ rfl horder
  exact ⟨a₀, a, a', past, hmade, hrun, htaken, hheld, hdata, ha'⟩

end ReadArbiter

end BurstDma
