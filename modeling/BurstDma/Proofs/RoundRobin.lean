import Mathlib.Algebra.GroupWithZero.Nat
import Mathlib.Data.Nat.Find
import BurstDma.Grant.RoundRobin

/-!
# The next grant is the first request after the last one

`Grant.pick` searches a whole vector with one subtraction. Here it is compared with the scan
that it stands for: from the place after the last grant, upward and around, to the first
request. **Subtracting a power of two from a number flips the bits from that power up to the
first one that is set**, and nothing else; so the request that is flipped is the one that the
scan meets first.
-/

namespace BurstDma

namespace Grant

/-! ## The borrow -/

/-- One less clears the lowest bit that is set, and sets the bits below it. -/
theorem testBit_pred {q m : Nat} (hm : q.testBit m = true)
    (hz : ∀ i < m, q.testBit i = false) (i : Nat) :
    (q - 1).testBit i = if i < m then true else if i = m then false else q.testBit i := by
  induction m generalizing q i with
  | zero =>
      have hodd : q % 2 = 1 := by simpa [Nat.testBit_zero] using hm
      rw [if_neg (Nat.not_lt_zero i)]
      cases i with
      | zero =>
          have heven : (q - 1) % 2 = 0 := by omega
          simp [Nat.testBit_zero, heven]
      | succ i =>
          have hhalf : (q - 1) / 2 = q / 2 := by omega
          rw [if_neg (Nat.succ_ne_zero i), Nat.testBit_succ, Nat.testBit_succ, hhalf]
  | succ m ih =>
      have heven : q % 2 = 0 := by
        have h0 := hz 0 (Nat.succ_pos m)
        simp only [Nat.testBit_zero, decide_eq_false_iff_not] at h0
        omega
      have hhalf : (q / 2).testBit m = true := by rw [← Nat.testBit_succ]; exact hm
      have hpos : 0 < q / 2 := by
        rcases Nat.eq_zero_or_pos (q / 2) with h0 | h0
        · rw [h0, Nat.zero_testBit] at hhalf
          cases hhalf
        · exact h0
      cases i with
      | zero =>
          have hodd : (q - 1) % 2 = 1 := by omega
          rw [if_pos (Nat.succ_pos m)]
          simp [Nat.testBit_zero, hodd]
      | succ i =>
          have hpred : (q - 1) / 2 = q / 2 - 1 := by omega
          have := ih hhalf (fun k hk => by
            rw [← Nat.testBit_succ]; exact hz (k + 1) (by omega)) i
          rw [Nat.testBit_succ, hpred, this, Nat.testBit_succ]
          simp

/-- **The borrow stops at the first bit that is set.** -/
theorem testBit_borrow {d s t : Nat} (hst : s ≤ t) (ht : d.testBit t = true)
    (hz : ∀ i, s ≤ i → i < t → d.testBit i = false) (i : Nat) :
    (d.testBit i && !(d - 2 ^ s).testBit i) = decide (i = t) := by
  have hlow : d % 2 ^ s < 2 ^ s := Nat.mod_lt _ (Nat.two_pow_pos s)
  have hsplit : d = 2 ^ s * (d / 2 ^ s) + d % 2 ^ s := (Nat.div_add_mod d (2 ^ s)).symm
  have hquot : ∀ k, (d / 2 ^ s).testBit k = d.testBit (s + k) := by
    intro k
    rw [Nat.testBit_div_two_pow, Nat.add_comm]
  have hfirst : (d / 2 ^ s).testBit (t - s) = true := by
    rw [hquot, Nat.add_sub_cancel' hst]
    exact ht
  have hpos : 0 < d / 2 ^ s := by
    rcases Nat.eq_zero_or_pos (d / 2 ^ s) with h0 | h0
    · rw [h0, Nat.zero_testBit] at hfirst
      cases hfirst
    · exact h0
  have hminus : d - 2 ^ s = 2 ^ s * (d / 2 ^ s - 1) + d % 2 ^ s := by
    have hmul : 2 ^ s * (d / 2 ^ s - 1) + 2 ^ s = 2 ^ s * (d / 2 ^ s) := by
      rw [← Nat.mul_succ]
      congr 1
      omega
    omega
  rw [hminus, Nat.testBit_two_pow_mul_add _ hlow]
  by_cases hi : i < s
  · -- below the power nothing changes
    rw [if_pos hi]
    have hsame : d.testBit i = (d % 2 ^ s).testBit i := by
      rw [Nat.testBit_mod_two_pow, decide_eq_true hi, Bool.true_and]
    rw [hsame, Bool.and_not_self]
    exact (decide_eq_false (by omega)).symm
  · rw [if_neg hi, testBit_pred hfirst (fun k hk => by
      rw [hquot]; exact hz (s + k) (by omega) (by omega))]
    have hback : d.testBit i = (d / 2 ^ s).testBit (i - s) := by
      rw [hquot, Nat.add_sub_cancel' (by omega)]
    by_cases hlt : i < t
    · rw [hz i (by omega) hlt, Bool.false_and]
      exact (decide_eq_false (by omega)).symm
    · by_cases heq : i = t
      · subst heq
        simp [ht]
      · rw [if_neg (by omega), if_neg (by omega), hback, Bool.and_not_self]
        exact (decide_eq_false heq).symm

/-- In words of 64 bits. -/
theorem flipped_eq {double : UInt64} {s t : Nat} (hst : s ≤ t) (ht64 : t < 64)
    (ht : double.toNat.testBit t = true)
    (hz : ∀ i, s ≤ i → i < t → double.toNat.testBit i = false) :
    double &&& ~~~(double - 1 <<< UInt64.ofNat s) = 1 <<< UInt64.ofNat t := by
  have hone : ∀ k < 64, ((1 : UInt64) <<< UInt64.ofNat k).toNat = 2 ^ k := by decide +kernel
  have hge : 2 ^ s ≤ double.toNat :=
    Nat.le_trans (Nat.pow_le_pow_right (by decide) hst) (Nat.ge_two_pow_of_testBit ht)
  have hsub : (double - 1 <<< UInt64.ofNat s).toNat = double.toNat - 2 ^ s := by
    rw [UInt64.toNat_sub_of_le, hone s (by omega)]
    rw [UInt64.le_iff_toNat_le, hone s (by omega)]
    exact hge
  have hbit : ∀ (x : UInt64) (i : Nat), x.toBitVec.getLsbD i = x.toNat.testBit i := fun _ _ => rfl
  apply UInt64.eq_of_toBitVec_eq
  apply BitVec.eq_of_getLsbD_eq
  intro i hi
  have hborrow := testBit_borrow hst ht hz i
  rw [← hsub, ← hbit, ← hbit] at hborrow
  rw [hbit (1 <<< UInt64.ofNat t), hone t ht64, Nat.testBit_two_pow]
  have hcomm : decide (t = i) = decide (i = t) := decide_eq_decide.mpr eq_comm
  rw [hcomm, ← hborrow, UInt64.toBitVec_and, UInt64.toBitVec_not, BitVec.getLsbD_and,
    BitVec.getLsbD_not, decide_eq_true hi, Bool.true_and]

/-! ## The vectors of a decision -/

/-- Whether requester `k` is among the requests. -/
def asks (requests : UInt32) (k : Nat) : Bool :=
  requests.toNat.testBit k

theorem oneHot_index : ∀ k < 32, index (oneHot k) = k := by
  decide +kernel

theorem asks_oneHot {k : Nat} (hk : k < 32) (i : Nat) : asks (oneHot k) i = decide (i = k) := by
  have hone : ∀ k < 32, (oneHot k).toNat = 2 ^ k := by decide +kernel
  unfold asks
  rw [hone k hk, Nat.testBit_two_pow]
  exact decide_eq_decide.mpr eq_comm

/-- A requester asks if the vector has its bit. -/
theorem and_oneHot_eq_zero {k : Nat} (hk : k < 32) (requests : UInt32) :
    requests &&& oneHot k = 0 ↔ asks requests k = false := by
  have hbit : ∀ i, (requests &&& oneHot k).toNat.testBit i
      = (asks requests i && decide (i = k)) := by
    intro i
    rw [UInt32.toNat_and, Nat.testBit_and, ← asks_oneHot hk i]
    rfl
  constructor
  · intro h
    have hk' := hbit k
    rw [h, decide_eq_true rfl, Bool.and_true] at hk'
    rw [← hk']
    exact Nat.zero_testBit k
  · intro h
    apply UInt32.toNat_inj.mp
    apply Nat.eq_of_testBit_eq
    intro i
    rw [hbit, show (0 : UInt32).toNat = 0 from rfl, Nat.zero_testBit]
    by_cases hi : i = k
    · rw [hi, h, Bool.false_and]
    · rw [decide_eq_false hi, Bool.and_false]

/-- The requests among the first `n`. -/
theorem testBit_masked (requests : UInt32) {n : Nat} (hn : n ≤ 32) (i : Nat) :
    (requests.toUInt64 &&& laneMask n).toNat.testBit i = (asks requests i && decide (i < n)) := by
  have hmask : ∀ n ≤ 32, (laneMask n).toNat = 2 ^ n - 1 := by decide +kernel
  rw [UInt64.toNat_and, hmask n hn, Nat.testBit_and, Nat.testBit_two_pow_sub_one,
    UInt32.toNat_toUInt64]
  rfl

/-- No lane is left if none of the first `n` asks. -/
theorem masked_eq_zero (requests : UInt32) {n : Nat} (hn : n ≤ 32) :
    requests.toUInt64 &&& laneMask n = 0 ↔ ∀ k < n, asks requests k = false := by
  have hmasked := testBit_masked requests hn
  have hzero : ∀ i, (0 : UInt64).toNat.testBit i = false := Nat.zero_testBit
  constructor
  · intro h k hk
    have hbit := hmasked k
    rwa [h, hzero, decide_eq_true hk, Bool.and_true, eq_comm] at hbit
  · intro h
    apply UInt64.toNat_inj.mp
    apply Nat.eq_of_testBit_eq
    intro i
    rw [hmasked, hzero]
    by_cases hi : i < n
    · rw [h i hi, Bool.false_and]
    · rw [decide_eq_false hi, Bool.and_false]

/-- A vector written twice in a row repeats itself. -/
theorem testBit_double {req : UInt64} {n : Nat} (hn : n ≤ 32) (hreq : req.toNat < 2 ^ n) {i : Nat}
    (hi : i < 2 * n) :
    (req ||| (req <<< UInt64.ofNat n)).toNat.testBit i = req.toNat.testBit (i % n) := by
  have hn64 : (UInt64.ofNat n).toNat % 64 = n := by
    rw [UInt64.toNat_ofNat']
    omega
  have hsmall : req.toNat <<< n < 2 ^ 64 := by
    rw [Nat.shiftLeft_eq]
    calc req.toNat * 2 ^ n < 2 ^ n * 2 ^ n := Nat.mul_lt_mul_of_pos_right hreq (Nat.two_pow_pos n)
      _ = 2 ^ (n + n) := (Nat.pow_add 2 n n).symm
      _ ≤ 2 ^ 64 := Nat.pow_le_pow_right (by decide) (by omega)
  rw [UInt64.toNat_or, UInt64.toNat_shiftLeft, hn64, Nat.mod_eq_of_lt hsmall, Nat.testBit_or,
    Nat.testBit_shiftLeft]
  by_cases hlt : i < n
  · rw [Nat.mod_eq_of_lt hlt, decide_eq_false (by omega), Bool.false_and, Bool.or_false]
  · have hhigh : req.toNat.testBit i = false :=
      Nat.testBit_lt_two_pow (Nat.lt_of_lt_of_le hreq
        (Nat.pow_le_pow_right (by decide) (Nat.le_of_not_lt hlt)))
    have hmod : i % n = i - n := by
      rw [Nat.mod_eq_sub_mod (Nat.le_of_not_lt hlt), Nat.mod_eq_of_lt (by omega)]
    rw [hhigh, hmod, decide_eq_true (Nat.le_of_not_lt hlt), Bool.true_and, Bool.false_or]

/-! ## The decision -/

/-- Without a request the last grant stays. -/
theorem pick_of_none {requests last : UInt32} {n : Nat} (hn : n ≤ 32)
    (h : ∀ k < n, asks requests k = false) : pick requests last n = last :=
  if_pos ((masked_eq_zero requests hn).mpr h)

/-- **With a request, the grant goes to the first one after the last grant.** The last grant
counts by its lowest `n` bits, and as the first requester if none of them is set. -/
theorem pick_of_asks {requests last : UInt32} {n j : Nat} (hn : n ≤ 32) (hj : j < n)
    (hlast : (if last.toUInt64 &&& laneMask n = 0 then 1 else last.toUInt64 &&& laneMask n)
      = 1 <<< UInt64.ofNat j)
    (h : ∃ k < n, asks requests k = true) :
    ∃ d < n, asks requests ((j + 1 + d) % n) = true
      ∧ (∀ e < d, asks requests ((j + 1 + e) % n) = false)
      ∧ pick requests last n = oneHot ((j + 1 + d) % n) := by
  have hstart : ∀ n ≤ 32, ∀ j < n, (((1 : UInt64) <<< UInt64.ofNat j) <<< 1
      ||| ((1 : UInt64) <<< UInt64.ofNat j) >>> UInt64.ofNat (n - 1)) &&& laneMask n
      = 1 <<< UInt64.ofNat ((j + 1) % n) := by decide +kernel
  have hfold : ∀ n ≤ 32, ∀ t < 2 * n, ((((1 : UInt64) <<< UInt64.ofNat t)
      ||| ((1 : UInt64) <<< UInt64.ofNat t) >>> UInt64.ofNat n) &&& laneMask n).toUInt32
      = oneHot (t % n) := by decide +kernel
  have hpos : 0 < n := by omega
  obtain ⟨k, hk, hask⟩ := h
  -- the scan meets every requester within `n` places
  have hmeet : ∃ d, asks requests ((j + 1 + d) % n) = true := by
    refine ⟨k + n - (j + 1), ?_⟩
    rw [show j + 1 + (k + n - (j + 1)) = k + n by omega, Nat.add_mod_right, Nat.mod_eq_of_lt hk]
    exact hask
  have hfirst := Nat.find_spec hmeet
  have hbefore : ∀ e < Nat.find hmeet, asks requests ((j + 1 + e) % n) = false := by
    intro e he
    exact Bool.eq_false_iff.mpr (Nat.find_min hmeet he)
  have hnear : Nat.find hmeet < n := by
    by_cases hle : j + 1 ≤ k
    · refine Nat.lt_of_le_of_lt (Nat.find_min' hmeet (m := k - (j + 1)) ?_) (by omega)
      rw [show j + 1 + (k - (j + 1)) = k by omega, Nat.mod_eq_of_lt hk]
      exact hask
    · refine Nat.lt_of_le_of_lt (Nat.find_min' hmeet (m := k + n - (j + 1)) ?_) (by omega)
      rw [show j + 1 + (k + n - (j + 1)) = k + n by omega, Nat.add_mod_right,
        Nat.mod_eq_of_lt hk]
      exact hask
  refine ⟨Nat.find hmeet, hnear, hfirst, hbefore, ?_⟩
  generalize Nat.find hmeet = d at hfirst hbefore hnear
  -- the same scan, in the doubled vector
  have hmasked := testBit_masked requests hn
  have hsmall : (requests.toUInt64 &&& laneMask n).toNat < 2 ^ n := by
    refine Nat.lt_pow_two_of_testBit _ fun i hi => ?_
    rw [hmasked, decide_eq_false (by omega), Bool.and_false]
  have hsome : requests.toUInt64 &&& laneMask n ≠ 0 := by
    intro hzero
    have hquiet := (masked_eq_zero requests hn).mp hzero k hk
    rw [hask] at hquiet
    cases hquiet
  have hs : (j + 1) % n < n := Nat.mod_lt _ hpos
  have hscan : ∀ e < n, ((requests.toUInt64 &&& laneMask n)
      ||| ((requests.toUInt64 &&& laneMask n) <<< UInt64.ofNat n)).toNat.testBit ((j + 1) % n + e)
      = asks requests ((j + 1 + e) % n) := by
    intro e he
    rw [testBit_double hn hsmall (by omega), hmasked, Nat.mod_add_mod,
      decide_eq_true (Nat.mod_lt _ hpos), Bool.and_true]
  have hflipped := flipped_eq (Nat.le_add_right ((j + 1) % n) d) (by omega)
    ((hscan d hnear).trans hfirst) (fun i hi hi' => by
      have he := hscan (i - (j + 1) % n) (by omega)
      rw [show (j + 1) % n + (i - (j + 1) % n) = i by omega] at he
      rw [he]
      exact hbefore _ (by omega))
  unfold pick
  dsimp only
  rw [if_neg hsome, hlast, hstart n hn j hj, hflipped, hfold n hn _ (by omega), Nat.mod_add_mod]

theorem asks_or_oneHot {acc : UInt32} {i : Nat} (hi : i < 32) (k : Nat) :
    asks (acc ||| oneHot i) k = (asks acc k || decide (k = i)) := by
  rw [← asks_oneHot hi k]
  unfold asks
  rw [UInt32.toNat_or, Nat.testBit_or]

/-- The lines from place `m` on, added to what the lines before have set. -/
theorem asks_foldl {k : Nat} (hk : k < 32) (rest : List Bool) (m : Nat) (acc : UInt32)
    (hlen : m + rest.length ≤ 32) :
    asks ((rest.zipIdx m).foldl
        (fun acc (asking, i) => if asking then acc ||| oneHot i else acc) acc) k
      = (asks acc k || (decide (m ≤ k) && (rest[k - m]?).getD false)) := by
  induction rest generalizing m acc with
  | nil => simp
  | cons line rest ih =>
      rw [List.length_cons] at hlen
      rw [List.zipIdx_cons, List.foldl_cons, ih (m + 1) _ (by omega)]
      by_cases hkm : k = m
      · subst hkm
        have hpast : decide (k + 1 ≤ k) = false := decide_eq_false (by omega)
        rw [hpast, Bool.false_and, Bool.or_false, decide_eq_true (Nat.le_refl k), Nat.sub_self,
          Bool.true_and, List.getElem?_cons_zero, Option.getD_some]
        cases line with
        | true => exact (asks_or_oneHot hk k).trans (by rw [decide_eq_true rfl])
        | false => exact (Bool.or_false _).symm
      · have hne : decide (k = m) = false := decide_eq_false hkm
        have hsame : asks (if line then acc ||| oneHot m else acc) k = asks acc k := by
          cases line with
          | true => rw [if_pos rfl, asks_or_oneHot (by omega), hne, Bool.or_false]
          | false => rfl
        dsimp only
        rw [hsame]
        by_cases hlt : m < k
        · rw [decide_eq_true (Nat.succ_le_of_lt hlt), decide_eq_true (Nat.le_of_lt hlt),
            show k - m = k - (m + 1) + 1 by omega, List.getElem?_cons_succ]
        · rw [decide_eq_false (by omega), decide_eq_false (by omega), Bool.false_and,
            Bool.false_and]

/-- The vector of some lines has the bit of each line that asks. -/
theorem asks_ofLines {lines : List Bool} (h : lines.length ≤ 32) {k : Nat} (hk : k < 32) :
    asks (ofLines lines) k = (lines[k]?).getD false := by
  have hzero : asks 0 k = false := Nat.zero_testBit k
  unfold ofLines
  rw [asks_foldl hk lines 0 0 (by omega), hzero]
  simp

end Grant

/-! ## The register -/

namespace RoundRobin

/-- The register has a lane for each of `n` requesters, and its grant names one of them. -/
structure Granting (n : Nat) (r : RoundRobin) : Prop where
  lanes : r.lanes = n
  selected : r.selected < n
  grant : r.grant = Grant.oneHot r.selected

variable {n : Nat} {r : RoundRobin}

theorem granting_of_oneHot {k : Nat} (hn : n ≤ maxRequesters) (hk : k < n) :
    Granting n ⟨n, Grant.oneHot k⟩ := by
  have hsel : selected ⟨n, Grant.oneHot k⟩ = k :=
    Grant.oneHot_index k (Nat.lt_of_lt_of_le hk hn)
  exact ⟨rfl, by rw [hsel]; exact hk, by rw [hsel]⟩

/-- A register is made for any number of requesters from 1 to 32, and it begins with the
first of them. -/
theorem ofLanes_eq_ok : ofLanes n = .ok r ↔ (1 ≤ n ∧ n ≤ maxRequesters) ∧ r = { lanes := n } := by
  unfold ofLanes
  split
  · rename_i hn
    rw [Except.ok.injEq]
    exact ⟨fun h => ⟨hn, h.symm⟩, fun h => h.2.symm⟩
  · rename_i hn
    exact ⟨nofun, fun h => absurd h.1 hn⟩

theorem granting_ofLanes (h : ofLanes n = .ok r) : r.Granting n := by
  obtain ⟨hn, rfl⟩ := ofLanes_eq_ok.mp h
  exact granting_of_oneHot hn.2 hn.1

/-- A reset grants the first requester. -/
theorem Granting.reset (hn : n ≤ maxRequesters) (h : r.Granting n) : r.reset.Granting n := by
  have hpos : 0 < n := Nat.lt_of_le_of_lt (Nat.zero_le _) h.selected
  have hone : r.reset = ⟨n, Grant.oneHot 0⟩ := by rw [← h.lanes]; rfl
  rw [hone]
  exact granting_of_oneHot hn hpos

/-- The lane of the last grant, as the search sees it. -/
theorem Granting.last (hn : n ≤ maxRequesters) (h : r.Granting n) :
    (if r.grant.toUInt64 &&& Grant.laneMask n = 0 then 1
      else r.grant.toUInt64 &&& Grant.laneMask n) = 1 <<< UInt64.ofNat r.selected := by
  have hone : ∀ n ≤ 32, ∀ k < n, (if (Grant.oneHot k).toUInt64 &&& Grant.laneMask n = 0 then 1
      else (Grant.oneHot k).toUInt64 &&& Grant.laneMask n) = 1 <<< UInt64.ofNat k := by
    decide +kernel
  have := hone n hn r.selected h.selected
  rw [← h.grant] at this
  exact this

/-- With a request, a decision selects the first requester after the selected one that
asks. -/
theorem Granting.advance_of_asks (hn : n ≤ maxRequesters) (h : r.Granting n) {requests : UInt32}
    (hask : ∃ k < n, Grant.asks requests k = true) :
    ∃ d < n, Grant.asks requests ((r.selected + 1 + d) % n) = true
      ∧ (∀ e < d, Grant.asks requests ((r.selected + 1 + e) % n) = false)
      ∧ (r.advance requests).Granting n
      ∧ (r.advance requests).selected = (r.selected + 1 + d) % n := by
  obtain ⟨d, hd, hasks, hbefore, hpick⟩ := Grant.pick_of_asks hn h.selected (h.last hn) hask
  have hlt : (r.selected + 1 + d) % n < n := Nat.mod_lt _ (by omega)
  have hone : r.advance requests = ⟨n, Grant.oneHot ((r.selected + 1 + d) % n)⟩ := by
    unfold RoundRobin.advance
    rw [h.lanes, hpick, ← h.lanes]
  refine ⟨d, hd, hasks, hbefore, ?_, ?_⟩
  · rw [hone]
    exact granting_of_oneHot hn hlt
  · rw [hone]
    exact Grant.oneHot_index _ (Nat.lt_of_lt_of_le hlt hn)

/-- **A decision grants a requester, and one that asks if there is one.** -/
theorem Granting.advance (hn : n ≤ maxRequesters) (h : r.Granting n) (requests : UInt32) :
    (r.advance requests).Granting n
      ∧ ((∃ k < n, Grant.asks requests k = true) →
        Grant.asks requests (r.advance requests).selected = true) := by
  by_cases hask : ∃ k < n, Grant.asks requests k = true
  · obtain ⟨d, _, hasks, _, hgrant, hsel⟩ := h.advance_of_asks hn hask
    exact ⟨hgrant, fun _ => by rw [hsel]; exact hasks⟩
  · have hnone : ∀ k < n, Grant.asks requests k = false := by
      intro k hk
      exact Bool.eq_false_iff.mpr fun hc => hask ⟨k, hk, hc⟩
    have hsame : r.advance requests = r := by
      unfold RoundRobin.advance
      rw [Grant.pick_of_none (by rw [h.lanes]; exact hn) (by rw [h.lanes]; exact hnone)]
    rw [hsame]
    exact ⟨h, fun hc => absurd hc hask⟩

/-- Whether the selected requester asks, as the arbiters test it. -/
theorem Granting.asks_selected (hn : n ≤ maxRequesters) (h : r.Granting n) (requests : UInt32) :
    requests &&& Grant.oneHot r.selected = 0 ↔ Grant.asks requests r.selected = false :=
  Grant.and_oneHot_eq_zero (Nat.lt_of_lt_of_le h.selected hn) requests

/-- **A turn does not stay with a requester that asks for nothing**: as long as the same
requesters ask, it goes to one of them, and stays with it. -/
theorem Granting.settle {r' : RoundRobin} (hn : n ≤ maxRequesters) (h : r.Granting n)
    {requests : UInt32} {asks asks' : Nat → Bool}
    (hasks : ∀ k < n, Grant.asks requests k = asks k) (hsame : ∀ k < n, asks' k = asks k)
    (hnext : r' = if requests &&& Grant.oneHot r.selected = 0 then r.advance requests else r) :
    (if asks' r'.selected then 0 else 1) ≤ (if asks r.selected then 0 else 1)
      ∧ ((if asks' r'.selected then 0 else 1) = (if asks r.selected then 0 else 1) →
        ∀ k < n, asks k = true → asks r.selected = true) := by
  have hsel := h.selected
  have hadvance := h.advance hn requests
  have hzero := h.asks_selected hn requests
  rw [hasks _ hsel] at hzero
  cases ha : asks r.selected with
  | true =>
      rw [ha] at hzero
      rw [if_neg (mt hzero.mp (by decide))] at hnext
      rw [hnext, hsame _ hsel, ha]
      exact ⟨Nat.le_refl _, fun _ _ _ _ => rfl⟩
  | false =>
      rw [ha] at hzero
      rw [if_pos (hzero.mpr rfl)] at hnext
      rw [hnext]
      refine ⟨?_, fun hlost k hk hask => ?_⟩
      · split <;> decide
      · -- whoever asks would have been found
        obtain ⟨hgrant, hfound⟩ := hadvance
        have hfound' := hfound ⟨k, hk, (hasks k hk).trans hask⟩
        rw [hasks _ hgrant.selected] at hfound'
        rw [hsame _ hgrant.selected, hfound'] at hlost
        cases hlost

end RoundRobin

end BurstDma
