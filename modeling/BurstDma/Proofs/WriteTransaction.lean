import BurstDma.Proofs.Bounds
import BurstDma.Proofs.Counters
import BurstDma.Proofs.Totality

/-!
# A write transaction is one piece

The write arbiter is looked at alone, between requesters and a memory that may drive
anything. From the cycle that takes it out of `select` to the cycle that brings it back, it
serves one requester: one address, its data up to the last beat, and then one response.
**The lock is a function of what has passed**: `lockFor id` of whether the address was seen
and whether the last beat was. Whatever arrives in which order, that is the whole invariant.
-/

namespace BurstDma

/-- One cycle at a write arbiter: the state it found and what both sides drove. -/
structure WriteCycle where
  state : WriteArbiter
  masters : List WriteMaster
  slave : WriteSlave

namespace WriteCycle

/-- The wires as they settled. -/
def wires (c : WriteCycle) : WriteWires :=
  c.state.resolve c.masters c.slave

/-- The addresses that moved on the bus. -/
def addresses (cycles : List WriteCycle) : List AddrReq :=
  cycles.filterMap (·.wires.down.awFired)

/-- The data that moved on the bus. -/
def beats (cycles : List WriteCycle) : List WriteBeat :=
  cycles.filterMap (·.wires.down.wFired)

/-- The responses that moved on the bus. -/
def responses (cycles : List WriteCycle) : List WriteResp :=
  cycles.filterMap (·.wires.down.bFired)

/-- The bus belongs to requester `id` in this cycle. -/
structure Serves (id : Nat) (c : WriteCycle) : Prop where
  /-- What the bus carries is what `id` drives, its address stamped. -/
  payload : ∃ m, c.masters[id]? = some m
    ∧ (∀ r, c.wires.down.master.aw = some r → ∃ q, m.aw = some q ∧ r = { q with id := id })
    ∧ ∀ b, c.wires.down.master.w = some b → m.w = some b
  /-- What moves on the bus moves at `id` in the same cycle. -/
  owner : ∃ bus, c.wires.up[id]? = some bus
    ∧ c.wires.down.awFired = bus.awFired.map (fun r => { r with id := id })
    ∧ c.wires.down.wFired = bus.wFired
    ∧ c.wires.down.bFired = bus.bFired
  /-- Nothing moves at anyone else. -/
  others : ∀ (j : Nat) (bus : WriteBus), j ≠ id → c.wires.up[j]? = some bus →
    bus.awFired = none ∧ bus.wFired = none ∧ bus.bFired = none

end WriteCycle

namespace WriteArbiter

/-- `a₀.Cycles n past a`: the cycles `past`, oldest first, led from `a₀` to `a`. In each of
them `n` requesters and the memory drove something. -/
inductive Cycles (n : Nat) (a₀ : WriteArbiter) : List WriteCycle → WriteArbiter → Prop where
  | start : Cycles n a₀ [] a₀
  | step {past : List WriteCycle} {a a' : WriteArbiter} {masters : List WriteMaster}
      {slave : WriteSlave} : Cycles n a₀ past a → masters.length = n →
      (a.tick (a.resolve masters slave)).result = .ok a' →
      Cycles n a₀ (past ++ [⟨a, masters, slave⟩]) a'

/-- The cycles lead out of `select`, stay out of it, and lead back into it. -/
structure Stretch (a : WriteArbiter) (cycles : List WriteCycle) (a' : WriteArbiter) : Prop where
  leaves : a.lock = .select ∧ cycles.tail ≠ []
  stays : ∀ c ∈ cycles.tail, c.state.lock ≠ .select
  returns : a'.lock = .select

/-- The cycles are one write transaction of requester `id`. -/
structure Transaction (n id : Nat) (a : WriteArbiter) (cycles : List WriteCycle)
    (a' : WriteArbiter) : Prop where
  requester : id < n
  serves : ∀ c ∈ cycles, c.Serves id
  address : ∃ r, WriteCycle.addresses cycles = [r] ∧ r.id = id
  data : ∃ beats final, WriteCycle.beats cycles = beats ++ [final]
    ∧ (∀ b ∈ beats, b.last = false) ∧ final.last = true
  /-- The answer comes in the last cycle, and nothing else does. -/
  response : ∃ earlier closing, cycles = earlier ++ [closing]
    ∧ WriteCycle.responses earlier = []
    ∧ closing.wires.down.bFired.isSome = true
    ∧ closing.wires.down.awFired = none ∧ closing.wires.down.wFired = none
  grants : ∃ k, a.grants[id]? = some k ∧ a'.grants[id]? = some (k + 1)
  otherGrants : ∀ j, j ≠ id → a'.grants[j]? = a.grants[j]?

/-! ## Runs -/

variable {n id : Nat} {a₀ a a' : WriteArbiter} {past cycles : List WriteCycle}

theorem Cycles.trans {b : WriteArbiter} {more : List WriteCycle} (h : a₀.Cycles n past a)
    (hmore : a.Cycles n more b) : a₀.Cycles n (past ++ more) b := by
  induction hmore with
  | start => rwa [List.append_nil]
  | step _ hlen ht ih =>
      rw [← List.append_assoc]
      exact ih.step hlen ht

/-- Drives the wires of some cycles, one after the other. -/
def play (a : WriteArbiter) :
    List (List WriteMaster × WriteSlave) → Except Fault (List WriteCycle × WriteArbiter)
  | [] => .ok ([], a)
  | (masters, slave) :: driven => do
    let next ← (a.tick (a.resolve masters slave)).result
    let (cycles, last) ← next.play driven
    return (⟨a, masters, slave⟩ :: cycles, last)

/-- **Whatever is driven, the arbiter has an answer**, and what it does is a run. -/
theorem play_ok (driven : List (List WriteMaster × WriteSlave))
    (hlen : ∀ d ∈ driven, d.1.length = n) (a : WriteArbiter) :
    ∃ cycles a', a.play driven = .ok (cycles, a') ∧ a.Cycles n cycles a' := by
  induction driven generalizing a with
  | nil => exact ⟨[], a, rfl, .start⟩
  | cons d driven ih =>
      obtain ⟨masters, slave⟩ := d
      obtain ⟨next, hnext⟩ := tick_ok a (a.resolve masters slave)
      obtain ⟨cycles, last, hplay, hrun⟩ := ih (fun d hd => hlen d (List.mem_cons_of_mem _ hd)) next
      refine ⟨⟨a, masters, slave⟩ :: cycles, last, ?_, ?_⟩
      · rw [play, hnext]
        exact except_bind_eq_ok.mpr ⟨next, rfl, except_bind_eq_ok.mpr ⟨_, hplay, rfl⟩⟩
      · have hfirst : a.Cycles n ([] ++ [⟨a, masters, slave⟩]) next :=
          Cycles.start.step (hlen _ List.mem_cons_self) hnext
        exact hfirst.trans hrun

theorem Cycles.eq_start (h : a₀.Cycles n past a) (hp : past = []) : a = a₀ := by
  cases h with
  | start => rfl
  | step => exact absurd hp (List.concat_ne_nil _ _)

/-- The turn names a requester, and each requester has a count. -/
structure Seated (n : Nat) (a : WriteArbiter) : Prop where
  turn : a.turn.Granting n
  grants : a.grants.length = n

/-- An arbiter is made for any number of requesters from 1 to 32. -/
theorem ofRequesters_ok (hmin : 1 ≤ n) (hmax : n ≤ maxRequesters) : ∃ a, ofRequesters n = .ok a :=
  ⟨_, except_bind_eq_ok.mpr ⟨_, RoundRobin.ofLanes_eq_ok.mpr ⟨⟨hmin, hmax⟩, rfl⟩, rfl⟩⟩

theorem ofRequesters_le (h : ofRequesters n = .ok a) : n ≤ maxRequesters := by
  obtain ⟨turn, hturn, _⟩ := except_bind_eq_ok.mp h
  exact (RoundRobin.ofLanes_eq_ok.mp hturn).1.2

theorem seated_ofRequesters (h : ofRequesters n = .ok a) : a.Seated n := by
  obtain ⟨turn, hturn, h⟩ := except_bind_eq_ok.mp h
  cases h
  exact ⟨RoundRobin.granting_ofLanes hturn, List.length_replicate⟩

theorem Seated.tick (hn : n ≤ maxRequesters) (h : a.Seated n) {w : WriteWires}
    (ht : (a.tick w).result = .ok a') : a'.Seated n := by
  refine ⟨?_, ?_⟩
  · rw [tick_turn ht]
    exact h.turn.nextWrite hn w
  · rw [tick_grants ht]
    split
    · rw [List.length_modify]
      exact h.grants
    · exact h.grants

theorem Cycles.seated (hn : n ≤ maxRequesters) (h₀ : a₀.Seated n) (h : a₀.Cycles n past a) :
    a.Seated n := by
  induction h with
  | start => exact h₀
  | step _ _ ht ih => exact ih.tick hn ht

/-! ## The wires -/

/-- **The bus belongs to the owner.** -/
theorem serves_owner {masters : List WriteMaster} {slave : WriteSlave} {id : Nat}
    (hid : a.owner = id) (hlt : id < masters.length) :
    (WriteCycle.mk a masters slave).Serves id := by
  have hm : masters[id]? = some masters[id] := List.getElem?_eq_getElem hlt
  have hwires : a.ownerWires masters = masters[id] := by
    unfold ownerWires
    rw [hid, hm]
    rfl
  have hup : ∀ j, (a.resolve masters slave).up[j]?
      = (masters[j]?).map fun m => WriteBus.mk m (a.toRequester slave j) := by
    intro j
    simp [resolve, List.getElem?_zipIdx, Option.map_map, Function.comp_def]
  refine ⟨⟨masters[id], hm, ?_, ?_⟩, ⟨⟨masters[id], a.toRequester slave id⟩, ?_, ?_⟩, ?_⟩
  · intro r hr
    simp only [WriteCycle.wires, resolve, toMemory, hwires, hid] at hr
    split at hr
    · obtain ⟨q, hq, rfl⟩ := Option.map_eq_some_iff.mp hr
      exact ⟨q, hq, rfl⟩
    · cases hr
  · intro b hb
    simp only [WriteCycle.wires, resolve, toMemory, hwires] at hb
    split at hb
    · exact hb
    · cases hb
  · show (a.resolve masters slave).up[id]? = _
    rw [hup, hm]
    rfl
  · simp only [WriteCycle.wires, resolve, toMemory, hwires, toRequester, hid, if_true,
      WriteBus.awFired, WriteBus.wFired, WriteBus.bFired]
    cases a.lock.addressOpen <;> cases a.lock.dataOpen <;> cases a.lock.responseOpen <;>
      cases slave.awReady <;> cases slave.wReady <;> simp
  · intro j bus hj hbus
    have hbus' : (a.resolve masters slave).up[j]? = some bus := hbus
    rw [hup] at hbus'
    obtain ⟨m, _, rfl⟩ := Option.map_eq_some_iff.mp hbus'
    have hslave : a.toRequester slave j = {} := if_neg (by rw [hid]; exact hj)
    rw [hslave]
    refine ⟨rfl, rfl, ?_⟩
    show (if m.bReady then none else none) = none
    split <;> rfl

/-- An address on the bus carries the number of its requester. -/
theorem awFired_id {masters : List WriteMaster} {slave : WriteSlave} {r : AddrReq}
    (h : (a.resolve masters slave).down.awFired = some r) : r.id = a.owner := by
  unfold WriteBus.awFired at h
  split at h
  · simp only [resolve, toMemory] at h
    split at h
    · obtain ⟨q, _, rfl⟩ := Option.map_eq_some_iff.mp h
      rfl
    · cases h
  · cases h

/-- A channel that is done is closed; the response waits for both others. -/
theorem gates (masters : List WriteMaster) (slave : WriteSlave) {addressed complete : Bool}
    (h : a.lock = lockFor id addressed complete) :
    (addressed = true → (a.resolve masters slave).down.awFired = none)
      ∧ (complete = true → (a.resolve masters slave).down.wFired = none)
      ∧ ((addressed && complete) = false → (a.resolve masters slave).down.bFired = none) := by
  simp only [resolve, toMemory, WriteBus.awFired, WriteBus.wFired, WriteBus.bFired, h, lockFor]
  cases addressed <;> cases complete <;>
    simp [WriteLock.addressOpen, WriteLock.dataOpen, WriteLock.responseOpen]

/-- A lock that is held moves with what passes, and opens with the response. -/
theorem nextLock_held {bus : WriteBus} {addressed complete : Bool}
    (h : a.lock = lockFor id addressed complete) :
    a.nextLock bus = if addressed && complete && bus.bFired.isSome then .select
      else lockFor id (addressed || bus.awFired.isSome) (complete || bus.wFired.any (·.last)) := by
  unfold nextLock
  rw [h]
  unfold lockFor
  cases addressed <;> cases complete <;> simp

theorem nextLock_select {bus : WriteBus} (h : a.lock = .select) (hnext : a.nextLock bus ≠ .select) :
    (bus.awFired.isSome || bus.wFired.isSome) = true
      ∧ a.nextLock bus = lockFor a.selected bus.awFired.isSome (bus.wFired.any (·.last)) := by
  unfold nextLock at hnext ⊢
  rw [h] at hnext ⊢
  dsimp only at hnext ⊢
  split at hnext
  · rename_i hf
    exact ⟨hf, if_pos hf⟩
  · exact absurd rfl hnext

theorem lockFor_ne_select (id : Nat) (addressed complete : Bool) :
    lockFor id addressed complete ≠ .select := by
  unfold lockFor
  cases addressed <;> cases complete <;> simp

theorem owner_lockFor (h : a.lock = lockFor id addressed complete) : a.owner = id := by
  rw [owner_eq h]
  unfold lockFor
  cases addressed <;> cases complete <;> rfl

/-! ## A transaction under way -/

/-- Whether the address has passed. -/
def addressed (cycles : List WriteCycle) : Bool :=
  !(WriteCycle.addresses cycles).isEmpty

/-- Whether the last beat has passed. -/
def complete (cycles : List WriteCycle) : Bool :=
  (WriteCycle.beats cycles).any (·.last)

/-- What has passed so far is a part of one transaction of `id`, without the response. -/
structure Passed (id : Nat) (cycles : List WriteCycle) : Prop where
  serves : ∀ c ∈ cycles, c.Serves id
  address : (WriteCycle.addresses cycles).length ≤ 1
  stamped : ∀ r ∈ WriteCycle.addresses cycles, r.id = id
  data : ∀ b ∈ (WriteCycle.beats cycles).dropLast, b.last = false
  unanswered : WriteCycle.responses cycles = []

theorem addresses_concat (cycles : List WriteCycle) (c : WriteCycle) :
    WriteCycle.addresses (cycles ++ [c])
      = WriteCycle.addresses cycles ++ c.wires.down.awFired.toList := by
  unfold WriteCycle.addresses
  rw [List.filterMap_append]
  cases h : c.wires.down.awFired <;> simp [h]

theorem beats_concat (cycles : List WriteCycle) (c : WriteCycle) :
    WriteCycle.beats (cycles ++ [c]) = WriteCycle.beats cycles ++ c.wires.down.wFired.toList := by
  unfold WriteCycle.beats
  rw [List.filterMap_append]
  cases h : c.wires.down.wFired <;> simp [h]

theorem responses_concat (cycles : List WriteCycle) (c : WriteCycle) :
    WriteCycle.responses (cycles ++ [c])
      = WriteCycle.responses cycles ++ c.wires.down.bFired.toList := by
  unfold WriteCycle.responses
  rw [List.filterMap_append]
  cases h : c.wires.down.bFired <;> simp [h]

theorem addressed_concat (cycles : List WriteCycle) (c : WriteCycle) :
    addressed (cycles ++ [c]) = (addressed cycles || c.wires.down.awFired.isSome) := by
  unfold addressed
  rw [addresses_concat]
  cases c.wires.down.awFired <;> simp

theorem complete_concat (cycles : List WriteCycle) (c : WriteCycle) :
    complete (cycles ++ [c]) = (complete cycles || c.wires.down.wFired.any (·.last)) := by
  unfold complete
  rw [beats_concat]
  cases c.wires.down.wFired <;> simp

theorem passed_nil (id : Nat) : Passed id [] where
  serves := nofun
  address := Nat.zero_le 1
  stamped := nofun
  data := nofun
  unanswered := rfl

/-- A cycle adds to what has passed, if what is done is closed. -/
theorem Passed.concat {c : WriteCycle} (h : Passed id cycles) (hid : c.state.owner = id)
    (hlt : id < c.masters.length) (haw : addressed cycles = true → c.wires.down.awFired = none)
    (hw : complete cycles = true → c.wires.down.wFired = none)
    (hb : c.wires.down.bFired = none) : Passed id (cycles ++ [c]) where
  serves := by
    intro c' hc'
    rcases List.mem_append.mp hc' with hc' | hc'
    · exact h.serves c' hc'
    · rw [List.mem_singleton.mp hc']
      exact serves_owner hid hlt
  address := by
    rw [addresses_concat, List.length_append]
    cases hempty : addressed cycles with
    | true =>
        rw [haw hempty]
        exact h.address
    | false =>
        have hnil : WriteCycle.addresses cycles = [] := by
          unfold addressed at hempty
          simpa using hempty
        rw [hnil]
        cases c.wires.down.awFired <;> simp
  stamped := by
    intro r hr
    rw [addresses_concat] at hr
    rcases List.mem_append.mp hr with hr | hr
    · exact h.stamped r hr
    · rw [← hid]
      exact awFired_id (Option.mem_toList.mp hr)
  data := by
    intro b hb
    rw [beats_concat] at hb
    cases hfires : c.wires.down.wFired with
    | none =>
        rw [hfires] at hb
        exact h.data b (by simpa using hb)
    | some beat =>
        rw [hfires] at hb
        have hb : b ∈ WriteCycle.beats cycles := by simpa using hb
        cases hdone : complete cycles with
        | true =>
            rw [hw hdone] at hfires
            cases hfires
        | false =>
            unfold complete at hdone
            rw [List.any_eq_false] at hdone
            exact Bool.eq_false_iff.mpr (hdone b hb)
  unanswered := by
    rw [responses_concat, h.unanswered, hb]
    rfl

/-- The last beat, once it has passed, is the newest one. -/
theorem exists_final {beats : List WriteBeat} (hdata : ∀ b ∈ beats.dropLast, b.last = false)
    (hany : beats.any (·.last) = true) :
    ∃ init final, beats = init ++ [final] ∧ (∀ b ∈ init, b.last = false) ∧ final.last = true := by
  rcases List.eq_nil_or_concat beats with rfl | ⟨init, final, rfl⟩
  · cases hany
  · rw [List.concat_eq_append] at hdata hany
    rw [List.dropLast_concat] at hdata
    refine ⟨init, final, List.concat_eq_append, hdata, ?_⟩
    obtain ⟨b, hb, hlast⟩ := List.any_eq_true.mp hany
    rcases List.mem_append.mp hb with hb | hb
    · rw [hdata b hb] at hlast
      cases hlast
    · rwa [List.mem_singleton.mp hb] at hlast

/-- A transaction that has begun and was not answered. -/
structure Open (id : Nat) (a₀ : WriteArbiter) (cycles : List WriteCycle) (a : WriteArbiter) :
    Prop where
  lock : a.lock = lockFor id (addressed cycles) (complete cycles)
  passed : Passed id cycles
  grants : a.grants = a₀.grants.modify id (· + 1)

/-- The cycle that leaves `select` opens a transaction. -/
theorem open_select {masters : List WriteMaster} {slave : WriteSlave} (ha : a.Seated n)
    (hlen : masters.length = n) (hl : a.lock = .select)
    (ht : (a.tick (a.resolve masters slave)).result = .ok a') (hl' : a'.lock ≠ .select) :
    Open a.selected a [⟨a, masters, slave⟩] a' := by
  have hlock := tick_lock ht
  rw [hlock] at hl'
  obtain ⟨hfires, hnext⟩ := nextLock_select hl hl'
  have hclosed : (a.resolve masters slave).down.bFired = none := by
    simp [resolve, toMemory, WriteBus.bFired, hl, WriteLock.responseOpen]
  have hpassed : Passed a.selected ([] ++ [⟨a, masters, slave⟩]) :=
    (passed_nil a.selected).concat (owner_eq hl) (by rw [hlen]; exact ha.turn.selected)
      (fun h => absurd h Bool.false_ne_true) (fun h => absurd h Bool.false_ne_true) hclosed
  refine ⟨?_, hpassed, ?_⟩
  · rw [hlock, hnext, ← List.nil_append [_], addressed_concat, complete_concat]
    rfl
  · rw [tick_grants ht, if_pos ⟨hl, hfires⟩]

/-- While the lock is held, a cycle goes on with the transaction or answers it. -/
theorem Open.next {masters : List WriteMaster} {slave : WriteSlave} (h : Open id a₀ cycles a)
    (hid : id < n) (hlen : masters.length = n)
    (ht : (a.tick (a.resolve masters slave)).result = .ok a') :
    if a'.lock = .select then
      addressed cycles = true ∧ complete cycles = true ∧ a'.grants = a.grants
        ∧ (a.resolve masters slave).down.bFired.isSome = true
    else Open id a₀ (cycles ++ [⟨a, masters, slave⟩]) a' := by
  have hgrants : a'.grants = a.grants := by
    rw [tick_grants ht, if_neg fun hc => lockFor_ne_select _ _ _ (h.lock ▸ hc.1)]
  have hlock := tick_lock ht
  rw [nextLock_held h.lock] at hlock
  obtain ⟨haw, hw, hb⟩ := gates masters slave h.lock
  split at hlock
  · rename_i hanswered
    simp only [Bool.and_eq_true] at hanswered
    rw [if_pos hlock]
    exact ⟨hanswered.1.1, hanswered.1.2, hgrants, hanswered.2⟩
  · rename_i hheld
    rw [if_neg (by rw [hlock]; exact lockFor_ne_select _ _ _)]
    have hclosed : (a.resolve masters slave).down.bFired = none := by
      cases hdone : addressed cycles && complete cycles with
      | false => exact hb hdone
      | true =>
          rw [hdone, Bool.true_and] at hheld
          exact Option.not_isSome_iff_eq_none.mp hheld
    refine ⟨?_, h.passed.concat (owner_lockFor h.lock) (by rw [hlen]; exact hid) haw hw hclosed,
      hgrants.trans h.grants⟩
    rw [hlock, addressed_concat, complete_concat]
    rfl

/-- **As long as the lock is held, a transaction of the requester that was selected is under
way.** -/
theorem Cycles.opened (ha : a₀.Seated n) (hl : a₀.lock = .select) (h : a₀.Cycles n cycles a)
    (hheld : ∀ c ∈ cycles.tail, c.state.lock ≠ .select) (hl' : a.lock ≠ .select) :
    Open a₀.selected a₀ cycles a := by
  induction h with
  | start => exact absurd hl hl'
  | @step past a a' masters slave hpast hlen ht ih =>
      by_cases hempty : past = []
      · subst hempty
        cases hpast.eq_start rfl
        exact open_select ha hlen hl ht hl'
      · rw [List.tail_append_of_ne_nil hempty] at hheld
        have hopen := ih (fun c hc => hheld c (List.mem_append_left _ hc))
          (hheld ⟨a, masters, slave⟩ (List.mem_append_right _ (List.mem_singleton_self _)))
        have hnext := hopen.next ha.turn.selected hlen ht
        rwa [if_neg hl'] at hnext

/-- **Writes are atomic**: between leaving `select` and coming back to it, one requester has
the bus, for exactly one transaction. -/
theorem atomic_transaction {before stretch : List WriteCycle} (hmade : ofRequesters n = .ok a₀)
    (hbefore : a₀.Cycles n before a) (hstretch : a.Cycles n stretch a')
    (hs : a.Stretch stretch a') : a.Transaction n a.selected stretch a' := by
  have ha : a.Seated n := hbefore.seated (ofRequesters_le hmade) (seated_ofRequesters hmade)
  cases hstretch with
  | start => exact absurd rfl hs.leaves.2
  | @step past b _ masters slave hpast hlen ht =>
      have hne : past ≠ [] := by
        rintro rfl
        exact hs.leaves.2 rfl
      have hheld := hs.stays
      rw [List.tail_append_of_ne_nil hne] at hheld
      have hopen := hpast.opened ha hs.leaves.1
        (fun c hc => hheld c (List.mem_append_left _ hc))
        (hheld ⟨b, masters, slave⟩ (List.mem_append_right _ (List.mem_singleton_self _)))
      have hlast := hopen.next ha.turn.selected hlen ht
      rw [if_pos hs.returns] at hlast
      obtain ⟨haddressed, hcomplete, hgrants, hanswer⟩ := hlast
      obtain ⟨haw, hw, _⟩ := gates masters slave hopen.lock
      have hpassed := hopen.passed
      refine
        { requester := ha.turn.selected
          serves := ?_
          address := ?_
          data := ?_
          response := ⟨past, ⟨b, masters, slave⟩, rfl, hpassed.unanswered, hanswer,
            haw haddressed, hw hcomplete⟩
          grants := ?_
          otherGrants := ?_ }
      · intro c hc
        rcases List.mem_append.mp hc with hc | hc
        · exact hpassed.serves c hc
        · rw [List.mem_singleton.mp hc]
          exact serves_owner (owner_lockFor hopen.lock) (by rw [hlen]; exact ha.turn.selected)
      · rw [addresses_concat, show (WriteCycle.mk b masters slave).wires.down.awFired = none from
          haw haddressed, Option.toList_none, List.append_nil]
        obtain ⟨r, hr⟩ : ∃ r, WriteCycle.addresses past = [r] := by
          refine List.length_eq_one_iff.mp (Nat.le_antisymm hpassed.address ?_)
          unfold addressed at haddressed
          rw [Nat.succ_le_iff, List.length_pos_iff]
          simpa using haddressed
        exact ⟨r, hr, hpassed.stamped r (by rw [hr]; exact List.mem_singleton_self r)⟩
      · rw [beats_concat, show (WriteCycle.mk b masters slave).wires.down.wFired = none from
          hw hcomplete, Option.toList_none, List.append_nil]
        exact exists_final hpassed.data hcomplete
      · rw [hgrants, hopen.grants, List.getElem?_modify_eq]
        have hseat : a.selected < a.grants.length := by
          rw [ha.grants]
          exact ha.turn.selected
        exact ⟨_, List.getElem?_eq_getElem hseat, by rw [List.getElem?_eq_getElem hseat]; rfl⟩
      · intro j hj
        rw [hgrants, hopen.grants, List.getElem?_modify_ne _ _ (Ne.symm hj)]

/-- A requester that asks for one word to be written, and goes on asking. -/
def asking : WriteMaster :=
  { aw := some { addr := 4096 }, w := some ⟨5, true⟩, bReady := true }

/-- Requester 0 sends two words and the address after them, while requester 1 asks all the
time. -/
def addressLast : List (List WriteMaster × WriteSlave) :=
  [ ([{ w := some ⟨7, false⟩ }, asking], { wReady := true }),
    ([{ w := some ⟨8, true⟩ }, asking], { wReady := true }),
    ([{ aw := some { addr := 64, len := 1 } }, asking], { awReady := true, wReady := true }),
    ([{ bReady := true }, asking], { awReady := true, b := some {} }) ]

/-- The four cycles are the transaction of requester 0. -/
theorem atomic_transaction_data_first :
    ∃ (a₀ a' : WriteArbiter) (stretch : List WriteCycle), ofRequesters 2 = .ok a₀
      ∧ a₀.Cycles 2 stretch a' ∧ a₀.Stretch stretch a' ∧ stretch.length = 4
      ∧ a₀.Transaction 2 0 stretch a' := by
  have hmade : ofRequesters 2 = .ok ⟨⟨2, 1⟩, .select, [0, 0]⟩ := rfl
  have hboth : ∀ d ∈ addressLast, d.1.length = 2 := by decide
  obtain ⟨stretch, a', hplay, hrun⟩ := play_ok addressLast hboth ⟨⟨2, 1⟩, .select, [0, 0]⟩
  have hseen : ((WriteArbiter.mk ⟨2, 1⟩ .select [0, 0]).play addressLast).toOption.any (fun r =>
      r.1.length == 4 && r.1.tail.all (·.state.lock != .select) && r.2.lock == .select)
      = true := by decide
  rw [hplay] at hseen
  simp only [Except.toOption, Option.any_some, Bool.and_eq_true, beq_iff_eq, List.all_eq_true,
    bne_iff_ne] at hseen
  obtain ⟨⟨hlen, hstays⟩, hreturns⟩ := hseen
  have hs : (WriteArbiter.mk ⟨2, 1⟩ .select [0, 0]).Stretch stretch a' := by
    refine ⟨⟨rfl, fun hnil => ?_⟩, hstays, hreturns⟩
    have := congrArg List.length hnil
    rw [List.length_tail, hlen] at this
    cases this
  exact ⟨_, a', stretch, hmade, hrun, hs, hlen, atomic_transaction hmade .start hrun hs⟩

end WriteArbiter

end BurstDma
