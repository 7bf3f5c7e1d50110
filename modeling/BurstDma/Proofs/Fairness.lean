import BurstDma.Proofs.ReadTraffic
import BurstDma.Proofs.WriteTransaction

/-!
# Nobody waits for more than one round

Both arbiters serve one requester at a time and move their turn on in different ways: the
read arbiter with every grant, the write arbiter with every response, and each of them when
the selected requester asks for nothing. For a requester that keeps asking only one number
counts: **how far the turn still has to go**. It never grows, each grant to somebody else
brings the turn nearer, and a requester that was granted at some distance is never met
again at a smaller one.

While the write bus is held, the turn is on its way already: what counts then is the
distance from the requester after the selected one.
-/

namespace BurstDma

namespace RoundRobin

/-- How far the turn goes from `s` upward, and around, until it reaches `i`. -/
def distance (n s i : Nat) : Nat :=
  if s ≤ i then i - s else n + i - s

theorem distance_lt {n s i : Nat} (hs : s ≤ n) (hi : i < n) : distance n s i < n := by
  unfold distance
  split <;> omega

/-- A place nearer. -/
theorem distance_succ {n s i : Nat} (hs : s < n) (hi : i < n) (hne : s ≠ i) :
    distance n (s + 1) i < distance n s i := by
  unfold distance
  split <;> split <;> omega

/-- A scan that goes no further than `i` brings the turn as much nearer. -/
theorem distance_scan {n s d i : Nat} (hs : s ≤ n) (hi : i < n) (hd : d ≤ distance n s i) :
    distance n ((s + d) % n) i ≤ distance n s i := by
  have hmod : (s + d) % n = if s + d < n then s + d else s + d - n := by
    split
    · exact Nat.mod_eq_of_lt ‹_›
    · have hlt := distance_lt hs hi
      rw [Nat.mod_eq_sub_mod (by omega), Nat.mod_eq_of_lt (by omega)]
  rw [hmod]
  unfold distance at hd ⊢
  split at hd <;> split <;> split <;> omega

/-- At that distance the scan meets `i`. -/
theorem scan_distance {n s i : Nat} (hs : s ≤ n) (hi : i < n) : (s + distance n s i) % n = i := by
  unfold distance
  split
  · rw [show s + (i - s) = i by omega, Nat.mod_eq_of_lt hi]
  · rw [show s + (n + i - s) = n + i by omega, Nat.add_mod_left, Nat.mod_eq_of_lt hi]

/-- **No decision passes a requester that asks.** -/
theorem Granting.distance_advance {n i : Nat} {r : RoundRobin} (hn : n ≤ maxRequesters)
    (h : r.Granting n) (hi : i < n) {requests : UInt32} (hask : Grant.asks requests i = true) :
    distance n (r.advance requests).selected i ≤ distance n (r.selected + 1) i := by
  obtain ⟨d, _, _, hbefore, _, hsel⟩ := h.advance_of_asks hn ⟨i, hi, hask⟩
  have hs : r.selected + 1 ≤ n := h.selected
  rw [hsel]
  refine distance_scan hs hi ?_
  by_contra hfar
  have hmissed := hbefore _ (Nat.lt_of_not_le hfar)
  rw [scan_distance hs hi, hask] at hmissed
  cases hmissed

/-- What happens while `i` waits: others are granted from further and further near, the turn
gets from the distance `start` to the distance `now`. -/
structure Round (n i start now : Nat) (granted : List Nat) : Prop where
  nearer : granted.Pairwise fun j k => distance n k i < distance n j i
  passed : ∀ j ∈ granted, now < distance n j i
  length : granted.length + now ≤ start

variable {n i start now next : Nat} {granted : List Nat}

theorem Round.begin : Round n i start start [] :=
  ⟨List.Pairwise.nil, nofun, Nat.le_of_eq (Nat.zero_add start)⟩

/-- Without a grant the turn does not get further away. -/
theorem Round.hold (h : Round n i start now granted) (hnext : next ≤ now) :
    Round n i start next granted :=
  ⟨h.nearer, fun j hj => Nat.lt_of_le_of_lt hnext (h.passed j hj),
    Nat.le_trans (Nat.add_le_add_left hnext _) h.length⟩

/-- A grant goes to the requester that the turn is at, and moves the turn on. -/
theorem Round.grant {j : Nat} (h : Round n i start now granted) (hj : distance n j i = now)
    (hnext : next < now) : Round n i start next (granted ++ [j]) := by
  refine ⟨List.pairwise_append.mpr ⟨h.nearer, List.pairwise_singleton .., ?_⟩, ?_, ?_⟩
  · intro k hk j' hj'
    rw [List.mem_singleton.mp hj', hj]
    exact h.passed k hk
  · intro k hk
    rcases List.mem_append.mp hk with hk | hk
    · exact Nat.lt_trans hnext (h.passed k hk)
    · rw [List.mem_singleton.mp hk, hj]
      exact hnext
  · have := h.length
    rw [List.length_append, List.length_singleton]
    omega

/-- Nobody is granted twice. -/
theorem Round.nodup (h : Round n i start now granted) : granted.Nodup :=
  h.nearer.imp fun hlt heq => by rw [heq] at hlt; exact Nat.lt_irrefl _ hlt

/-- The turn has arrived: once it is `there` in some cycle, it is in all later ones of the
stretch, and `after` it. -/
structure Arrived {γ : Type} (there : γ → Prop) (stretch : List γ) (after : Prop) : Prop where
  stays : stretch.Pairwise fun c d => there c → there d
  still : ∀ c ∈ stretch, there c → after

theorem Arrived.begin {γ : Type} {there : γ → Prop} {after : Prop} : Arrived there [] after :=
  ⟨List.Pairwise.nil, fun _ hc => absurd hc List.not_mem_nil⟩

/-- A cycle that does not move the turn away. -/
theorem Arrived.step {γ : Type} {there : γ → Prop} {stretch : List γ} {after : Prop} {c : γ}
    (h : Arrived there stretch (there c)) (hstay : there c → after) :
    Arrived there (stretch ++ [c]) after := by
  refine ⟨List.pairwise_append.mpr ⟨h.stays, List.pairwise_singleton .., ?_⟩, ?_⟩
  · intro d hd e he hthere
    rw [List.mem_singleton.mp he]
    exact h.still d hd hthere
  · intro d hd hthere
    rcases List.mem_append.mp hd with hd | hd
    · exact hstay (h.still d hd hthere)
    · rw [List.mem_singleton.mp hd] at hthere
      exact hstay hthere

end RoundRobin

open RoundRobin

/-! ## Reads -/

namespace ReadCycle

/-- Requester `i` asks: a request of it is visible to the arbiter, behind its register if it
has one. -/
def asks (i : Nat) (c : ReadCycle) : Bool :=
  ((c.state.offers c.masters)[i]?.join).isSome

/-- The requester that is granted in a cycle. -/
def granted? (c : ReadCycle) : Option Nat :=
  if c.wires.grant.isSome then some c.state.selected else none

/-- The requesters that were granted, in order. -/
def grantees (cycles : List ReadCycle) : List Nat :=
  cycles.filterMap granted?

theorem grantees_concat (cycles : List ReadCycle) (c : ReadCycle) :
    grantees (cycles ++ [c]) = grantees cycles ++ c.granted?.toList := by
  unfold grantees
  rw [List.filterMap_append]
  cases h : c.granted? <;> simp [h]

end ReadCycle

namespace ReadArbiter

variable {n i : Nat} {a₀ a a' : ReadArbiter} {before stretch : List ReadCycle}
  {p : ReadArbiterParams} {masters : List ReadMaster} {slave : ReadSlave}

theorem ofParams_le (h : ofParams p = .ok a) : p.requesters ≤ maxRequesters := by
  obtain ⟨turn, hturn, _⟩ := except_bind_eq_ok.mp h
  exact (ofLanes_eq_ok.mp hturn).1.2

theorem Cycles.granting (hmade : ofParams p = .ok a₀) (h : a₀.Cycles p.requesters before a) :
    a.turn.Granting p.requesters := by
  induction h with
  | start =>
      obtain ⟨turn, hturn, hmade⟩ := except_bind_eq_ok.mp hmade
      cases hmade
      exact granting_ofLanes hturn
  | step _ _ ht ih =>
      rw [tick_turn ht]
      exact ih.nextRead (ofParams_le hmade) _

/-- **A cycle in which `i` asks and is not granted**: the turn gets nearer with a grant to
somebody else, and stays with `i` once it is there. -/
theorem nearer_tick (hn : n ≤ maxRequesters) (hturn : a.turn.Granting n) (hi : i < n)
    (hask : Grant.asks (a.requests (a.resolve masters slave)) i = true)
    (hnot : (ReadCycle.mk a masters slave).granted? ≠ some i)
    (ht : (a.tick (a.resolve masters slave)).result = .ok a') :
    (if (a.resolve masters slave).grant.isSome
      then distance n a'.selected i < distance n a.selected i
      else distance n a'.selected i ≤ distance n a.selected i)
      ∧ (a.selected = i → a'.selected = i) := by
  have hmove := tick_turn ht
  have hadvance := hturn.distance_advance hn hi hask
  have hzero := hturn.asks_selected hn (a.requests (a.resolve masters slave))
  unfold nextTurn at hmove
  dsimp only at hmove
  unfold ReadCycle.granted? ReadCycle.wires at hnot
  cases hg : (a.resolve masters slave).grant.isSome with
  | true =>
      have hne : a.selected ≠ i := fun he => hnot (by rw [if_pos hg]; exact congrArg some he)
      rw [hg, Bool.true_or, if_pos rfl] at hmove
      have hnear := Nat.lt_of_le_of_lt hadvance (distance_succ hturn.selected hi hne)
      rw [← hmove] at hnear
      exact ⟨hnear, fun he => absurd he hne⟩
  | false =>
      rw [hg, Bool.false_or] at hmove
      split at hmove
      · rename_i hidle
        -- the turn leaves a requester that asks for nothing, so not `i`
        have hne : a.turn.selected ≠ i := by
          intro he
          have hquiet := hzero.mp (of_decide_eq_true hidle)
          rw [he, hask] at hquiet
          cases hquiet
        have hnear := Nat.lt_of_le_of_lt hadvance (distance_succ hturn.selected hi hne)
        rw [← hmove] at hnear
        exact ⟨Nat.le_of_lt hnear, fun he => absurd he hne⟩
      · have hsame : a'.selected = a.selected := congrArg RoundRobin.selected hmove
        rw [hsame]
        exact ⟨Nat.le_refl _, id⟩

/-- What holds of a stretch in which `i` asks all the time and is not granted. -/
structure Waited (n i : Nat) (a : ReadArbiter) (stretch : List ReadCycle) (a' : ReadArbiter) :
    Prop where
  round : Round n i (distance n a.selected i) (distance n a'.selected i)
    (ReadCycle.grantees stretch)
  arrived : Arrived (fun c => c.state.selected = i) stretch (a'.selected = i)

theorem Cycles.waited (hmade : ofParams p = .ok a₀) (hbefore : a₀.Cycles p.requesters before a)
    (h : a.Cycles p.requesters stretch a') (hi : i < p.requesters)
    (hasks : ∀ c ∈ stretch, c.asks i = true) (hnot : i ∉ ReadCycle.grantees stretch) :
    Waited p.requesters i a stretch a' := by
  induction h with
  | start => exact ⟨.begin, .begin⟩
  | @step past b b' masters slave hpast hlen ht ih =>
      rw [ReadCycle.grantees_concat, List.mem_append, not_or] at hnot
      have hw := ih (fun c hc => hasks c (List.mem_append_left _ hc)) hnot.1
      have hrun := hbefore.trans hpast
      have hn := ofParams_le hmade
      have hask : Grant.asks (b.requests (b.resolve masters slave)) i = true :=
        (asks_offers hn (hrun.carried hmade).formed hlen hi).trans
          (hasks _ (List.mem_append_right _ (List.mem_singleton_self _)))
      obtain ⟨hnear, hstay⟩ := nearer_tick hn (hrun.granting hmade) hi hask
        (fun hc => hnot.2 (Option.mem_toList.mpr hc)) ht
      refine ⟨?_, hw.arrived.step hstay⟩
      rw [ReadCycle.grantees_concat]
      unfold ReadCycle.granted? ReadCycle.wires
      split at hnear
      · rename_i hg
        rw [if_pos hg]
        exact hw.round.grant rfl hnear
      · rename_i hg
        rw [if_neg hg, Option.toList_none, List.append_nil]
        exact hw.round.hold hnear

/-- The counts of the arbiter tell the grants. -/
theorem Cycles.grants_eq (h : a.Cycles n stretch a') (j : Nat) :
    a'.grants[j]? = a.grants[j]?.map (· + (ReadCycle.grantees stretch).count j) := by
  induction h with
  | start => simp [ReadCycle.grantees]
  | @step past b b' masters slave _ _ ht ih =>
      rw [tick_grants ht, ReadCycle.grantees_concat, List.count_append]
      unfold ReadCycle.granted? ReadCycle.wires
      split
      · rw [List.getElem?_modify, ih]
        cases a.grants[j]? with
        | none => rfl
        | some k =>
            by_cases hj : b.selected = j <;> simp [hj, Nat.add_assoc]
      · simpa using ih

end ReadArbiter

/-! ## Writes -/

namespace WriteCycle

/-- Requester `i` asks: it offers an address or data. -/
def asks (i : Nat) (c : WriteCycle) : Bool :=
  c.masters[i]?.any fun m => m.aw.isSome || m.w.isSome

/-- The bus is free and requester `i` is selected. -/
def Selects (i : Nat) (c : WriteCycle) : Prop :=
  c.state.lock = .select ∧ c.state.selected = i

/-- The requester that is granted in a cycle: the first transfer of the selected one takes the
bus. -/
def granted? (c : WriteCycle) : Option Nat :=
  if c.state.lock = .select ∧ (c.wires.down.awFired.isSome || c.wires.down.wFired.isSome) = true
    then some c.state.selected else none

/-- The requesters that were granted, in order. -/
def grantees (cycles : List WriteCycle) : List Nat :=
  cycles.filterMap granted?

theorem grantees_concat (cycles : List WriteCycle) (c : WriteCycle) :
    grantees (cycles ++ [c]) = grantees cycles ++ c.granted?.toList := by
  unfold grantees
  rw [List.filterMap_append]
  cases h : c.granted? <;> simp [h]

end WriteCycle

namespace WriteArbiter

variable {n i : Nat} {a₀ a a' : WriteArbiter} {before stretch : List WriteCycle}
  {masters : List WriteMaster} {slave : WriteSlave}

/-- How far the turn is from `i`: while the bus is held, the selected requester has had its
turn. -/
def away (n i : Nat) (a : WriteArbiter) : Nat :=
  if a.lock = .select then distance n a.selected i else distance n (a.selected + 1) i

theorem away_lt (h : a.turn.Granting n) (hi : i < n) : a.away n i < n := by
  have hsel : a.selected < n := h.selected
  unfold away
  split
  · exact distance_lt (Nat.le_of_lt hsel) hi
  · exact distance_lt hsel hi

/-- Who asks has its bit set. -/
theorem asks_requests (hn : n ≤ maxRequesters) (hlen : masters.length = n) (hi : i < n)
    (hask : (WriteCycle.mk a masters slave).asks i = true) :
    Grant.asks (requests (a.resolve masters slave)) i = true := by
  obtain ⟨m, hm, hany⟩ := (Option.any_eq_true ..).mp hask
  unfold requests
  have hlength : ((a.resolve masters slave).up.map fun bus =>
      bus.master.aw.isSome || bus.master.w.isSome).length ≤ 32 := by
    simp only [resolve, List.length_map, List.length_zipIdx, hlen]
    exact hn
  rw [Grant.asks_ofLines hlength (Nat.lt_of_lt_of_le hi hn)]
  simp [resolve, List.getElem?_zipIdx, hm, hany]

/-- A held bus is held on, or it is answered and the turn moves. -/
theorem held_tick {w : WriteWires} (hl : a.lock ≠ .select) (ht : (a.tick w).result = .ok a') :
    (a'.lock ≠ .select ∧ a'.turn = a.turn)
      ∨ (a'.lock = .select ∧ a'.turn = a.turn.advance (requests w)) := by
  have hmove := tick_turn ht
  have hlock := tick_lock ht
  unfold nextTurn at hmove
  unfold nextLock at hlock
  cases hl' : a.lock with
  | select => exact absurd hl' hl
  | writeChannel id addrDone =>
      rw [hl'] at hmove hlock
      exact Or.inl ⟨by rw [hlock]; exact lockFor_ne_select _ _ _, hmove⟩
  | addressChannel id =>
      rw [hl'] at hmove hlock
      exact Or.inl ⟨by rw [hlock]; exact lockFor_ne_select _ _ _, hmove⟩
  | responseChannel id =>
      rw [hl'] at hmove hlock
      dsimp only at hmove hlock
      split at hlock
      · rename_i hb
        rw [if_pos hb] at hmove
        exact Or.inr ⟨hlock, hmove⟩
      · rename_i hb
        rw [if_neg hb] at hmove
        exact Or.inl ⟨by rw [hlock]; nofun, hmove⟩

/-- A free bus is taken by the selected requester, or it stays free and the turn moves if the
selected requester asks for nothing. -/
theorem free_tick {w : WriteWires} (hl : a.lock = .select) (ht : (a.tick w).result = .ok a') :
    if (w.down.awFired.isSome || w.down.wFired.isSome) = true then
      a'.lock ≠ .select ∧ a'.turn = a.turn
    else a'.lock = .select ∧ a'.turn
      = if requests w &&& Grant.oneHot a.selected = 0 then a.turn.advance (requests w)
        else a.turn := by
  have hmove := tick_turn ht
  have hlock := tick_lock ht
  unfold nextTurn at hmove
  unfold nextLock at hlock
  rw [hl] at hmove hlock
  dsimp only at hmove hlock
  split
  · rename_i hf
    rw [if_pos hf] at hmove hlock
    exact ⟨by rw [hlock]; exact lockFor_ne_select _ _ _, hmove⟩
  · rename_i hf
    rw [if_neg hf] at hmove hlock
    exact ⟨hlock, hmove⟩

/-- **A cycle in which `i` asks and is not granted**: the turn gets nearer with a grant to
somebody else, and a free bus stays with `i` once it is there. -/
theorem nearer_tick (hn : n ≤ maxRequesters) (hturn : a.turn.Granting n) (hi : i < n)
    (hask : Grant.asks (requests (a.resolve masters slave)) i = true)
    (hnot : (WriteCycle.mk a masters slave).granted? ≠ some i)
    (ht : (a.tick (a.resolve masters slave)).result = .ok a') :
    (match (WriteCycle.mk a masters slave).granted? with
      | some j => distance n j i = a.away n i ∧ a'.away n i < a.away n i
      | none => a'.away n i ≤ a.away n i)
      ∧ (a.lock = .select ∧ a.selected = i → a'.lock = .select ∧ a'.selected = i) := by
  have hadvance := hturn.distance_advance hn hi hask
  have hzero := hturn.asks_selected hn (requests (a.resolve masters slave))
  have hkept : a'.turn = a.turn → a'.selected = a.selected := congrArg RoundRobin.selected
  unfold WriteCycle.granted? WriteCycle.wires at hnot ⊢
  by_cases hl : a.lock = .select
  · have haway : a.away n i = distance n a.selected i := if_pos hl
    have hfree := free_tick hl ht
    split at hfree
    · rename_i hf
      -- somebody else has taken the bus
      obtain ⟨hheld, hsame⟩ := hfree
      have hne : a.selected ≠ i := fun he => hnot (by rw [if_pos ⟨hl, hf⟩]; exact congrArg some he)
      have haway' : a'.away n i = distance n (a.selected + 1) i := by
        unfold away
        rw [if_neg hheld, hkept hsame]
      rw [if_pos ⟨hl, hf⟩]
      dsimp only
      rw [haway, haway']
      exact ⟨⟨rfl, distance_succ hturn.selected hi hne⟩, fun h => absurd h.2 hne⟩
    · rename_i hf
      obtain ⟨hfree, hmove⟩ := hfree
      have haway' : a'.away n i = distance n a'.selected i := if_pos hfree
      rw [if_neg fun hc => hf hc.2]
      dsimp only
      rw [haway, haway']
      split at hmove
      · rename_i hidle
        -- the turn leaves a requester that asks for nothing, so not `i`
        have hne : a.turn.selected ≠ i := by
          intro he
          have hquiet := hzero.mp hidle
          rw [he, hask] at hquiet
          cases hquiet
        have hnear := Nat.lt_of_le_of_lt hadvance (distance_succ hturn.selected hi hne)
        rw [← hmove] at hnear
        exact ⟨Nat.le_of_lt hnear, fun h => absurd h.2 hne⟩
      · rw [hkept hmove]
        exact ⟨Nat.le_refl _, fun h => ⟨hfree, h.2⟩⟩
  · have haway : a.away n i = distance n (a.selected + 1) i := if_neg hl
    rw [if_neg fun hc => hl hc.1]
    dsimp only
    rw [haway]
    refine ⟨?_, fun h => absurd h.1 hl⟩
    unfold away
    rcases held_tick hl ht with ⟨hheld, hsame⟩ | ⟨hfree, hmove⟩
    · rw [if_neg hheld, hkept hsame]
    · rw [← hmove] at hadvance
      rw [if_pos hfree]
      exact hadvance

/-- What holds of a stretch in which `i` asks all the time and is not granted. -/
structure Waited (n i : Nat) (a : WriteArbiter) (stretch : List WriteCycle) (a' : WriteArbiter) :
    Prop where
  round : Round n i (a.away n i) (a'.away n i) (WriteCycle.grantees stretch)
  arrived : Arrived (·.Selects i) stretch (a'.lock = .select ∧ a'.selected = i)

theorem Cycles.waited (hmade : ofRequesters n = .ok a₀) (hbefore : a₀.Cycles n before a)
    (h : a.Cycles n stretch a') (hi : i < n) (hasks : ∀ c ∈ stretch, c.asks i = true)
    (hnot : i ∉ WriteCycle.grantees stretch) : Waited n i a stretch a' := by
  induction h with
  | start => exact ⟨.begin, .begin⟩
  | @step past b b' masters slave hpast hlen ht ih =>
      rw [WriteCycle.grantees_concat, List.mem_append, not_or] at hnot
      have hw := ih (fun c hc => hasks c (List.mem_append_left _ hc)) hnot.1
      have hn := ofRequesters_le hmade
      have hseated := (hbefore.trans hpast).seated hn (seated_ofRequesters hmade)
      have hask : Grant.asks (requests (b.resolve masters slave)) i = true :=
        asks_requests hn hlen hi (hasks _ (List.mem_append_right _ (List.mem_singleton_self _)))
      obtain ⟨hnear, hstay⟩ := nearer_tick hn hseated.turn hi hask
        (fun hc => hnot.2 (Option.mem_toList.mpr hc)) ht
      refine ⟨?_, hw.arrived.step hstay⟩
      rw [WriteCycle.grantees_concat]
      split at hnear
      · rename_i j hg
        rw [hg]
        exact hw.round.grant hnear.1 hnear.2
      · rename_i hg
        rw [hg, Option.toList_none, List.append_nil]
        exact hw.round.hold hnear

/-- The counts of the arbiter tell the grants. -/
theorem Cycles.grants_eq (h : a.Cycles n stretch a') (j : Nat) :
    a'.grants[j]? = a.grants[j]?.map (· + (WriteCycle.grantees stretch).count j) := by
  induction h with
  | start => simp [WriteCycle.grantees]
  | @step past b b' masters slave _ _ ht ih =>
      rw [tick_grants ht, WriteCycle.grantees_concat, List.count_append]
      unfold WriteCycle.granted? WriteCycle.wires
      split
      · rw [List.getElem?_modify, ih]
        cases a.grants[j]? with
        | none => rfl
        | some k =>
            by_cases hj : b.selected = j <;> simp [hj, Nat.add_assoc]
      · simpa using ih

end WriteArbiter

/-- **Nobody starves.** While a requester asks all the time and is not granted, every other
one is granted at most once, so that less than a round goes by; and once the turn is at the
requester (for writes: on a free bus), it stays there. -/
theorem starvation_free :
    (∀ (p : ReadArbiterParams) (i : Nat), i < p.requesters → p.requesters ≤ maxRequesters →
      ∃ a₀, ReadArbiter.ofParams p = .ok a₀
        ∧ ∀ (a a' : ReadArbiter) (before stretch : List ReadCycle),
          a₀.Cycles p.requesters before a → a.Cycles p.requesters stretch a' →
          (∀ c ∈ stretch, c.asks i = true) → i ∉ ReadCycle.grantees stretch →
            (∀ j, a'.grants[j]? = a.grants[j]?.map (· + (ReadCycle.grantees stretch).count j))
            ∧ (∀ j, (ReadCycle.grantees stretch).count j ≤ 1)
            ∧ (ReadCycle.grantees stretch).length ≤ p.requesters - 1
            ∧ stretch.Pairwise (fun c d => c.state.selected = i → d.state.selected = i)
            ∧ ∀ c ∈ stretch, c.state.selected = i → a'.selected = i)
    ∧ ∀ (n i : Nat), i < n → n ≤ maxRequesters →
      ∃ a₀, WriteArbiter.ofRequesters n = .ok a₀
        ∧ ∀ (a a' : WriteArbiter) (before stretch : List WriteCycle),
          a₀.Cycles n before a → a.Cycles n stretch a' →
          (∀ c ∈ stretch, c.asks i = true) → i ∉ WriteCycle.grantees stretch →
            (∀ j, a'.grants[j]? = a.grants[j]?.map (· + (WriteCycle.grantees stretch).count j))
            ∧ (∀ j, (WriteCycle.grantees stretch).count j ≤ 1)
            ∧ (WriteCycle.grantees stretch).length ≤ n - 1
            ∧ stretch.Pairwise (fun c d => c.Selects i → d.Selects i)
            ∧ ∀ c ∈ stretch, c.Selects i → a'.lock = .select ∧ a'.selected = i := by
  refine ⟨?_, ?_⟩
  · intro p i hi hmax
    obtain ⟨a₀, hmade⟩ := ReadArbiter.ofParams_ok (Nat.one_le_of_lt hi) hmax
    refine ⟨a₀, hmade, ?_⟩
    intro a a' before stretch hbefore hstretch hasks hnot
    have hw := hbefore.waited hmade hstretch hi hasks hnot
    have hfar : distance p.requesters a.selected i < p.requesters :=
      distance_lt (Nat.le_of_lt (hbefore.granting hmade).selected) hi
    refine ⟨hstretch.grants_eq, List.nodup_iff_count.mp hw.round.nodup, ?_,
      hw.arrived.stays, hw.arrived.still⟩
    have := hw.round.length
    omega
  · intro n i hi hmax
    obtain ⟨a₀, hmade⟩ := WriteArbiter.ofRequesters_ok (Nat.one_le_of_lt hi) hmax
    refine ⟨a₀, hmade, ?_⟩
    intro a a' before stretch hbefore hstretch hasks hnot
    have hw := hbefore.waited hmade hstretch hi hasks hnot
    have hfar : a.away n i < n := WriteArbiter.away_lt
      (hbefore.seated (WriteArbiter.ofRequesters_le hmade)
        (WriteArbiter.seated_ofRequesters hmade)).turn hi
    refine ⟨hstretch.grants_eq, List.nodup_iff_count.mp hw.round.nodup, ?_,
      hw.arrived.stays, hw.arrived.still⟩
    have := hw.round.length
    omega

/-- Three requesters ask for a read all the time, of a memory that takes two requests. -/
def ReadArbiter.contended : List (List ReadMaster × ReadSlave) :=
  let asking : List ReadMaster := List.replicate 3 { ar := some { addr := 64 } }
  [(asking, { arReady := true }), (asking, { arReady := true }), (asking, {})]

/-- Two requesters ask for a write, and that of the first is done. -/
def WriteArbiter.contended : List (List WriteMaster × WriteSlave) :=
  let other : WriteMaster := { aw := some { addr := 4096 }, w := some ⟨5, true⟩ }
  [ ([{ aw := some { addr := 64 }, w := some ⟨7, true⟩ }, other],
      { awReady := true, wReady := true }),
    ([{ bReady := true }, other], { b := some {} }),
    ([{}, other], {}) ]

/-- Requester 2 of three waits for both others to read and for a memory that is not ready;
requester 1 of two waits for a write of the other. -/
theorem starvation_free_contended :
    (∃ (a₀ a' : ReadArbiter) (stretch : List ReadCycle),
      ReadArbiter.ofParams ⟨3, 4, false, false⟩ = .ok a₀ ∧ a₀.Cycles 3 stretch a'
        ∧ ReadCycle.grantees stretch = [0, 1] ∧ (∀ j, (ReadCycle.grantees stretch).count j ≤ 1)
        ∧ a'.selected = 2)
    ∧ ∃ (a₀ a' : WriteArbiter) (stretch : List WriteCycle),
      WriteArbiter.ofRequesters 2 = .ok a₀ ∧ a₀.Cycles 2 stretch a'
        ∧ WriteCycle.grantees stretch = [0] ∧ (∀ j, (WriteCycle.grantees stretch).count j ≤ 1)
        ∧ a'.selected = 1 := by
  refine ⟨?_, ?_⟩
  · have hthree : ∀ d ∈ ReadArbiter.contended, d.1.length = 3 := by decide
    obtain ⟨a₀, hmade, hfair⟩ :=
      starvation_free.1 ⟨3, 4, false, false⟩ 2 (by decide) (by decide)
    obtain ⟨stretch, a', hrun, hseen⟩ := ReadArbiter.cycles_of_seen (a := a₀) hthree
      (fun r => r.1.all (·.asks 2) && ReadCycle.grantees r.1 == [0, 1]
        && r.1.any (·.state.selected == 2)) (by cases hmade; decide +kernel)
    simp only [Bool.and_eq_true, List.all_eq_true, List.any_eq_true, beq_iff_eq] at hseen
    obtain ⟨⟨hasks, hgrants⟩, c, hc, hsel⟩ := hseen
    obtain ⟨_, honce, _, _, hstays⟩ :=
      hfair a₀ a' [] stretch .start hrun hasks (by rw [hgrants]; decide)
    exact ⟨a₀, a', stretch, hmade, hrun, hgrants, honce, hstays c hc hsel⟩
  · have hboth : ∀ d ∈ WriteArbiter.contended, d.1.length = 2 := by decide
    obtain ⟨a₀, hmade, hfair⟩ := starvation_free.2 2 1 (by decide) (by decide)
    obtain ⟨stretch, a', hplay, hrun⟩ := WriteArbiter.play_ok WriteArbiter.contended hboth a₀
    have hseen : (a₀.play WriteArbiter.contended).toOption.any (fun r => r.1.all (·.asks 1)
        && WriteCycle.grantees r.1 == [0]
        && r.1.any (fun c => c.state.lock == .select && c.state.selected == 1)) = true := by
      cases hmade
      decide +kernel
    rw [hplay] at hseen
    simp only [Except.toOption, Option.any_some, Bool.and_eq_true, List.all_eq_true,
      List.any_eq_true, beq_iff_eq] at hseen
    obtain ⟨⟨hasks, hgrants⟩, c, hc, hsel⟩ := hseen
    obtain ⟨_, honce, _, _, hstays⟩ :=
      hfair a₀ a' [] stretch .start hrun hasks (by rw [hgrants]; decide)
    exact ⟨a₀, a', stretch, hmade, hrun, hgrants, honce, (hstays c hc hsel).2⟩

end BurstDma
