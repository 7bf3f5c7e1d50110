import BurstDma.Proofs.Fairness

/-!
# The search for a grant is a scan

`Grant.scan` looks for the next grant one requester after the other, from the one after the
last grant upward and around. **The search on whole vectors, `Grant.pick`, finds the same**,
for any vector of requests and any last grant with no more than one bit among the lanes; bits
above the lanes do not matter on either side.

So a requester that asks in every decision has to wait for those only that lie between the
last grant and itself, and each decision passes one of them at least: with `n` lanes it is
selected in one of `n` decisions.
-/

namespace BurstDma

namespace Grant

/-- No more than one of the lowest `n` bits is set. -/
def Single (n : Nat) (grant : UInt32) : Prop :=
  ∀ i < n, ∀ j < n, asks grant i = true → asks grant j = true → i = j

instance (n : Nat) (grant : UInt32) : Decidable (Single n grant) := by
  unfold Single
  infer_instance

/-- The requester that a grant names among the first `n`, and the first of them if it names
none. -/
def lane (n : Nat) (grant : UInt32) : Nat :=
  ((List.range n).find? (asks grant)).getD 0

/-- The requesters as a scan meets them: from the one after `j` upward and around. -/
def order (n j : Nat) : List Nat :=
  (List.range n).map fun d => (j + 1 + d) % n

/-- The grant that a scan finds. Without a request the last grant stays. -/
def scan (requests last : UInt32) (n : Nat) : UInt32 :=
  ((order n (lane n last)).find? (asks requests)).elim last oneHot

variable {n i j : Nat} {requests last grant : UInt32}

theorem lane_lt (hn : 0 < n) (grant : UInt32) : lane n grant < n := by
  unfold lane
  cases h : (List.range n).find? (asks grant) with
  | none => exact hn
  | some k => exact List.mem_range.mp (List.mem_of_find?_eq_some h)

/-- **The last grant as the search reads it** is the bit of the lane that it names. -/
theorem Single.masked (hn : n ≤ 32) (h : Single n grant) :
    (if grant.toUInt64 &&& laneMask n = 0 then 1 else grant.toUInt64 &&& laneMask n)
      = 1 <<< UInt64.ofNat (lane n grant) := by
  cases hfind : (List.range n).find? (asks grant) with
  | none =>
      have hnone : grant.toUInt64 &&& laneMask n = 0 := by
        refine (masked_eq_zero grant hn).mpr fun k hk => Bool.eq_false_iff.mpr ?_
        exact List.find?_eq_none.mp hfind k (List.mem_range.mpr hk)
      rw [if_pos hnone, lane, hfind]
      rfl
  | some k =>
      have hk : k < n := List.mem_range.mp (List.mem_of_find?_eq_some hfind)
      have hask : asks grant k = true := List.find?_some hfind
      have hone : ∀ k < 32, ((1 : UInt64) <<< UInt64.ofNat k).toNat = 2 ^ k := by decide +kernel
      have heq : grant.toUInt64 &&& laneMask n = 1 <<< UInt64.ofNat k := by
        apply UInt64.toNat_inj.mp
        apply Nat.eq_of_testBit_eq
        intro i
        rw [testBit_masked grant hn, hone k (by omega), Nat.testBit_two_pow]
        -- no other lane has its bit set
        by_cases hi : k = i
        · subst hi
          rw [hask, decide_eq_true hk, decide_eq_true rfl]
          rfl
        · rw [decide_eq_false hi]
          by_cases hin : i < n
          · have hquiet : asks grant i = false :=
              Bool.eq_false_iff.mpr fun hc => hi (h k hk i hin hask hc)
            rw [hquiet, Bool.false_and]
          · rw [decide_eq_false hin, Bool.and_false]
      have hsome : grant.toUInt64 &&& laneMask n ≠ 0 := by
        intro hzero
        have hquiet := (masked_eq_zero grant hn).mp hzero k hk
        rw [hask] at hquiet
        cases hquiet
      rw [if_neg hsome, heq, lane, hfind]
      rfl

/-- A scan without a request keeps the last grant. -/
theorem scan_of_none (hn : 0 < n) (h : ∀ k < n, asks requests k = false) :
    scan requests last n = last := by
  have hnone : (order n (lane n last)).find? (asks requests) = none := by
    refine List.find?_eq_none.mpr fun k hk => ?_
    obtain ⟨d, _, rfl⟩ := List.mem_map.mp hk
    rw [h _ (Nat.mod_lt _ hn)]
    exact Bool.false_ne_true
  rw [scan, hnone]
  rfl

/-- A scan ends with the first requester that it meets and that asks. -/
theorem scan_of_first {d : Nat} (hd : d < n)
    (hask : asks requests ((lane n last + 1 + d) % n) = true)
    (hbefore : ∀ e < d, asks requests ((lane n last + 1 + e) % n) = false) :
    scan requests last n = oneHot ((lane n last + 1 + d) % n) := by
  have hfind : (List.range n).find?
      (asks requests ∘ fun d => (lane n last + 1 + d) % n) = some d := by
    refine List.find?_range_eq_some.mpr ⟨hask, List.mem_range.mpr hd, fun e he => ?_⟩
    rw [Function.comp_apply, hbefore e he]
    rfl
  rw [scan, order, List.find?_map, hfind]
  rfl

/-- A requester that asks is not passed, and only one requester is granted. -/
theorem pick_of_single (hn : n ≤ maxRequesters) (hlast : Single n last)
    (h : ∃ k < n, asks requests k = true) :
    ∃ d < n, asks requests ((lane n last + 1 + d) % n) = true
      ∧ (∀ e < d, asks requests ((lane n last + 1 + e) % n) = false)
      ∧ pick requests last n = oneHot ((lane n last + 1 + d) % n) := by
  have hpos : 0 < n := by
    obtain ⟨k, hk, _⟩ := h
    exact Nat.zero_lt_of_lt hk
  exact pick_of_asks hn (lane_lt hpos last) (hlast.masked hn) h

/-- **The search is the scan.** -/
theorem pick_eq_scan (hpos : 0 < n) (hn : n ≤ maxRequesters) (hlast : Single n last) :
    pick requests last n = scan requests last n := by
  by_cases hask : ∃ k < n, asks requests k = true
  · obtain ⟨d, hd, hasks, hbefore, hpick⟩ := pick_of_single hn hlast hask
    rw [hpick, scan_of_first hd hasks hbefore]
  · have hnone : ∀ k < n, asks requests k = false := by
      intro k hk
      exact Bool.eq_false_iff.mpr fun hc => hask ⟨k, hk, hc⟩
    rw [pick_of_none hn hnone, scan_of_none hpos hnone]

theorem single_oneHot (hn : n ≤ maxRequesters) {k : Nat} (hk : k < n) : Single n (oneHot k) := by
  intro i _ j _ hi hj
  have hk32 : k < 32 := Nat.lt_of_lt_of_le hk hn
  rw [asks_oneHot hk32, decide_eq_true_eq] at hi hj
  exact hi.trans hj.symm

theorem lane_oneHot (hn : n ≤ maxRequesters) {k : Nat} (hk : k < n) : lane n (oneHot k) = k := by
  have hk32 : k < 32 := Nat.lt_of_lt_of_le hk hn
  have hfind : (List.range n).find? (asks (oneHot k)) = some k := by
    refine List.find?_range_eq_some.mpr ⟨?_, List.mem_range.mpr hk, fun e he => ?_⟩
    · rw [asks_oneHot hk32, decide_eq_true rfl]
    · rw [asks_oneHot hk32, decide_eq_false (Nat.ne_of_lt he)]
      rfl
  rw [lane, hfind]
  rfl

/-- A decision leaves one lane granted at most. -/
theorem Single.pick (hn : n ≤ maxRequesters) (hlast : Single n last) (requests : UInt32) :
    Single n (Grant.pick requests last n) := by
  by_cases hask : ∃ k < n, asks requests k = true
  · obtain ⟨d, hd, _, _, hpick⟩ := pick_of_single hn hlast hask
    rw [hpick]
    exact single_oneHot hn (Nat.mod_lt _ (Nat.zero_lt_of_lt hd))
  · rw [pick_of_none hn fun k hk => Bool.eq_false_iff.mpr fun hc => hask ⟨k, hk, hc⟩]
    exact hlast

end Grant

namespace RoundRobin

/-- The requesters that one decision after the other selects. -/
def selections : RoundRobin → List UInt32 → List Nat
  | _, [] => []
  | r, requests :: rest => (r.advance requests).selected :: (r.advance requests).selections rest

variable {n i : Nat} {r : RoundRobin}

/-- A decision in which `i` asks selects a requester on the way to `i`. -/
theorem advance_toward (hn : n ≤ maxRequesters) (hlanes : r.lanes = n)
    (hs : Grant.Single n r.grant) (hi : i < n) {requests : UInt32}
    (hask : Grant.asks requests i = true) :
    ∃ k < n, r.advance requests = ⟨n, Grant.oneHot k⟩
      ∧ distance n k i ≤ distance n (Grant.lane n r.grant + 1) i := by
  obtain ⟨d, hd, _, hbefore, hpick⟩ := Grant.pick_of_single hn hs ⟨i, hi, hask⟩
  have hfrom : Grant.lane n r.grant + 1 ≤ n := Grant.lane_lt (Nat.zero_lt_of_lt hi) r.grant
  refine ⟨(Grant.lane n r.grant + 1 + d) % n, Nat.mod_lt _ (Nat.zero_lt_of_lt hi), ?_,
    distance_scan hfrom hi ?_⟩
  · rw [advance, hlanes, hpick]
  · -- the scan stops at `i` if it gets there
    by_contra hfar
    have hmissed := hbefore _ (Nat.lt_of_not_le hfar)
    rw [scan_distance hfrom hi, hask] at hmissed
    cases hmissed

/-- **Who keeps asking is selected** as soon as there were more decisions than requesters on
the way. -/
theorem mem_selections (hn : n ≤ maxRequesters) (hi : i < n) {vectors : List UInt32}
    (hasks : ∀ v ∈ vectors, Grant.asks v i = true) (hlanes : r.lanes = n)
    (hs : Grant.Single n r.grant)
    (hlong : distance n (Grant.lane n r.grant + 1) i < vectors.length) :
    i ∈ r.selections vectors := by
  induction vectors generalizing r with
  | nil => cases hlong
  | cons v rest ih =>
      obtain ⟨k, hk, hnext, hnear⟩ := advance_toward hn hlanes hs hi (hasks v List.mem_cons_self)
      have hsel : (r.advance v).selected = k := by
        rw [hnext]
        exact Grant.oneHot_index k (Nat.lt_of_lt_of_le hk hn)
      rw [selections, hsel]
      by_cases hmet : k = i
      · rw [hmet]
        exact List.mem_cons_self
      · refine List.mem_cons_of_mem _ (ih (fun u hu => hasks u (List.mem_cons_of_mem _ hu)) ?_ ?_ ?_)
        · rw [hnext]
        · rw [hnext]
          exact Grant.single_oneHot hn hk
        · -- the next decision starts behind `k`, which was not `i`
          have hpast := distance_succ hk hi hmet
          rw [hnext, Grant.lane_oneHot hn hk]
          rw [List.length_cons] at hlong
          omega

/-- A register names one lane at most, from the beginning on. -/
theorem single_foldl (hn : n ≤ maxRequesters) (h : ofLanes n = .ok r) (past : List UInt32) :
    Grant.Single n (past.foldl advance r).grant := by
  obtain ⟨⟨hpos, _⟩, rfl⟩ := ofLanes_eq_ok.mp h
  have hkept : ∀ r : RoundRobin, r.lanes = n → Grant.Single n r.grant →
      Grant.Single n (past.foldl advance r).grant := by
    induction past with
    | nil => exact fun _ _ hs => hs
    | cons v rest ih =>
        intro r hlanes hs
        refine ih (r.advance v) hlanes ?_
        rw [advance, hlanes]
        exact hs.pick hn v
  exact hkept _ rfl (Grant.single_oneHot hn hpos)

end RoundRobin

/-- **A grant is what a scan finds**: the first requester that asks, from the one after the
last grant upward and around, and the last grant itself if nobody asks. So with `n` lanes a
requester that asks in `n` decisions is selected by one of them, whatever was granted last;
and a register never names more than one lane. -/
theorem grants_as_scanned {n : Nat} (hmin : 1 ≤ n) (hmax : n ≤ maxRequesters) :
    (∀ requests last : UInt32, Grant.Single n last →
      Grant.next requests last n = .ok (Grant.scan requests last n))
    ∧ (∀ r : RoundRobin, r.lanes = n → Grant.Single n r.grant →
      ∀ (i : Nat) (vectors : List UInt32), i < n → vectors.length = n →
        (∀ v ∈ vectors, Grant.asks v i = true) → i ∈ r.selections vectors)
    ∧ ∀ r, RoundRobin.ofLanes n = .ok r → ∀ past : List UInt32,
        Grant.Single n (past.foldl RoundRobin.advance r).grant := by
  refine ⟨?_, ?_, ?_⟩
  · intro requests last hlast
    rw [Grant.next, if_pos ⟨hmin, hmax⟩, Grant.pick_eq_scan hmin hmax hlast]
  · intro r hlanes hs i vectors hi hlen hasks
    have hfrom : Grant.lane n r.grant + 1 ≤ n := Grant.lane_lt hmin r.grant
    refine RoundRobin.mem_selections hmax hi hasks hlanes hs ?_
    rw [hlen]
    exact RoundRobin.distance_lt hfrom hi
  · intro r hmade past
    exact RoundRobin.single_foldl hmax hmade past

/-- Four lanes and bits above them on both sides: the scan goes around from the top lane, and
requester 1 is selected though requester 0 asks in every decision too. -/
theorem grants_as_scanned_around :
    Grant.Single 4 0xf8 ∧ Grant.next 0xf3 0xf8 4 = .ok 1 ∧ Grant.scan 0xf3 0xf8 4 = 1
      ∧ 1 ∈ RoundRobin.selections ⟨4, 0xf8⟩ [0xf3, 0xf3, 3, 0xb] := by
  have hs : Grant.Single 4 0xf8 := by decide
  have hscan : Grant.scan 0xf3 0xf8 4 = 1 := by decide
  obtain ⟨hnext, hselects, _⟩ := grants_as_scanned (n := 4) (by decide) (by decide)
  refine ⟨hs, ?_, hscan, hselects ⟨4, 0xf8⟩ rfl hs 1 _ (by decide) rfl ?_⟩
  · rw [hnext 0xf3 0xf8 hs, hscan]
  · exact List.all_eq_true.mp (by decide : [0xf3, 0xf3, 3, 0xb].all (Grant.asks · 1) = true)

end BurstDma
