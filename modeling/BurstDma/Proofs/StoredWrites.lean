import BurstDma.Proofs.StoreContents
import BurstDma.Proofs.Totality

/-!
# What a write burst does to a store

A burst is stored beat by beat, and each beat goes where its own address leads: to a word, or to
the response that the address gets instead. A word that several beats lead to keeps the last of
them, and **the burst is answered with the worst response of the beats that were not stored**. So
a burst can be stored in part; what tells of the rest is its answer.
-/

namespace BurstDma

namespace Store

/-- Where an address leads: to a word, or to the response that an access gets instead. -/
def target (s : Store) (addr : Nat) : Except Resp Nat :=
  match s.regions.find? (·.contains addr) with
  | some region => .error region.resp
  | none =>
    if addr / s.geometry.wordBytes < s.size then .ok (addr / s.geometry.wordBytes)
    else .error .decErr

variable {s s' : Store} {addr k : Nat}

theorem locate_target (hpos : s.geometry.wordBytes ≠ 0) (addr : Nat) :
    s.locate addr = .ok (s.target addr) := by
  have hindex : s.geometry.wordIndex addr = .ok (addr / s.geometry.wordBytes) := if_neg hpos
  unfold locate target
  cases s.regions.find? (·.contains addr) with
  | some region => rfl
  | none =>
      dsimp only
      rw [hindex]
      rfl

/-- An address leads to a word if no region declares it faulty and the word is there. -/
theorem target_eq_ok : s.target addr = .ok k ↔
    s.faulty addr = false ∧ addr / s.geometry.wordBytes < s.size
      ∧ k = addr / s.geometry.wordBytes := by
  unfold target faulty
  cases hfind : s.regions.find? (·.contains addr) with
  | some region =>
      have hcontains := List.find?_some hfind
      have hin : s.regions.any (·.contains addr) = true :=
        List.any_eq_true.mpr ⟨region, List.mem_of_find?_eq_some hfind, hcontains⟩
      simp [hin]
  | none =>
      have hout : s.regions.any (·.contains addr) = false :=
        List.any_eq_false.mpr (List.find?_eq_none.mp hfind)
      rw [hout]
      dsimp only
      split
      · rename_i hlt
        refine ⟨fun h => ⟨rfl, hlt, (Except.ok.inj h).symm⟩, ?_⟩
        rintro ⟨_, _, rfl⟩
        rfl
      · rename_i hge
        refine ⟨nofun, ?_⟩
        rintro ⟨_, hlt, _⟩
        exact absurd hlt hge

/-- The response that an access gets instead of a word. -/
def refusal? (s : Store) (addr : Nat) : Option Resp :=
  match s.target addr with
  | .ok _ => none
  | .error resp => some resp

/-- Where addresses lead depends on the shape of a store and not on its words. -/
theorem target_congr (hgeo : s'.geometry = s.geometry) (hregions : s'.regions = s.regions)
    (hsize : s'.size = s.size) : s'.target = s.target := by
  funext addr
  unfold target
  rw [hgeo, hregions, hsize]

theorem refusal?_congr (hgeo : s'.geometry = s.geometry) (hregions : s'.regions = s.regions)
    (hsize : s'.size = s.size) : s'.refusal? = s.refusal? := by
  funext addr
  unfold refusal?
  rw [target_congr hgeo hregions hsize]

/-- A write access stores the word where its address leads, or it is refused. -/
theorem writeAt_target (hpos : s.geometry.wordBytes ≠ 0) (addr : Nat) (w : Word) :
    s.writeAt addr w
      = .ok (s.put (s.geometry.place addr) w, (s.refusal? addr).getD .okay) := by
  have hloc := locate_target hpos addr
  have hok : ∃ r, s.writeAt addr w = .ok r := Store.writeAt_ok hpos addr w
  obtain ⟨⟨s', resp⟩, hw⟩ := hok
  have hput := writeAt_eq hw
  rw [hw, hput]
  unfold writeAt at hw
  unfold refusal?
  rw [hloc] at hw
  cases htarget : s.target addr <;> rw [htarget] at hw <;> cases hw <;> rfl

theorem get?_put_place (s : Store) (addr : Nat) (w : Word) (k : Nat) :
    (s.put (s.geometry.place addr) w).get? k
      = if s.target addr = .ok k then some w else s.get? k := by
  rw [get?_put]
  exact if_congr target_eq_ok.symm rfl rfl

/-- **A word keeps the last write that leads to it**, and without one it stays what it was. -/
theorem get?_putAll (s : Store) (writes : List (Nat × Word)) (k : Nat) :
    (s.putAll (writes.map fun w => (s.geometry.place w.1, w.2))).get? k
      = ((writes.filter fun w => s.target w.1 = .ok k).getLast?.map (·.2)).or (s.get? k) := by
  induction writes generalizing s with
  | nil => rfl
  | cons w ws ih =>
      obtain ⟨hgeo, hregions⟩ := s.put_geometry (s.geometry.place w.1) w.2
      have htarget := target_congr hgeo hregions (s.size_put _ w.2)
      have hrest := ih (s.put (s.geometry.place w.1) w.2)
      rw [hgeo, htarget] at hrest
      have hword := s.get?_put_place w.1 w.2 k
      rw [List.map_cons, putAll, List.foldl_cons, ← putAll, hrest, List.filter_cons]
      by_cases hhit : s.target w.1 = .ok k
      · rw [if_pos hhit] at hword
        rw [hword, if_pos (decide_eq_true hhit), List.getLast?_cons]
        cases (ws.filter fun w => s.target w.1 = .ok k).getLast? <;> rfl
      · rw [if_neg hhit] at hword
        rw [hword, if_neg (by simpa using hhit)]

end Store

/-! ## Bursts -/

/-- A write of several beats. -/
structure MemoryWrite where
  request : AddrReq
  beats : List WriteBeat
  /-- The cycle in which it was complete. -/
  complete : Nat
deriving Repr, DecidableEq

namespace MemoryWrite

/-- The words of the write with their addresses, in order. -/
def placed (w : MemoryWrite) (g : Geometry) : List (Nat × Word) :=
  placedFrom g w.request.addr 0 w.beats

/-- The responses of the beats that are not stored. -/
def refused (w : MemoryWrite) (s : Store) : List Resp :=
  (w.placed s.geometry).filterMap fun p => s.refusal? p.1

/-- The answer: the response with the greatest code among those of the beats that are not
stored. -/
def answer (w : MemoryWrite) (s : Store) : WriteResp where
  id := w.request.id
  resp := Resp.ofCode (((w.refused s).map Resp.code).foldl max 0)

/-- What is refused, and so the answer, depends on the shape of the store alone. -/
theorem answer_congr {s s' : Store} (w : MemoryWrite) (hgeo : s'.geometry = s.geometry)
    (hregions : s'.regions = s.regions) (hsize : s'.size = s.size) : w.answer s' = w.answer s := by
  unfold answer refused
  rw [Store.refusal?_congr hgeo hregions hsize, hgeo]

end MemoryWrite

/-- The store after a write: every word that a beat leads to has the data of the last such
beat. -/
def Store.commit (s : Store) (w : MemoryWrite) : Store :=
  s.putAll (burstWrites s.geometry w.request.addr w.beats)

theorem Resp.worse_okay (a : Resp) : a.worse .okay = a := by
  cases a <;> rfl

theorem Resp.code_worse (a b : Resp) : (a.worse b).code = max a.code b.code := by
  cases a <;> cases b <;> rfl

theorem Resp.code_foldl_worse (resps : List Resp) (a : Resp) :
    (resps.foldl worse a).code = (resps.map code).foldl max a.code := by
  induction resps generalizing a with
  | nil => rfl
  | cons r rest ih => rw [List.foldl_cons, ih, code_worse]; rfl

/-- **Storing the beats of a burst** gathers what is refused. -/
theorem Memory.storeBeats_resp {addr i : Nat} {s s' : Store} {worst resp : Resp}
    {beats : List WriteBeat} (hpos : s.geometry.wordBytes ≠ 0)
    (h : storeBeats addr i s worst beats = .ok (s', resp)) :
    resp = ((placedFrom s.geometry addr i beats).filterMap fun p => s.refusal? p.1).foldl
      Resp.worse worst := by
  induction beats generalizing i s worst with
  | nil =>
      cases h
      rfl
  | cons b bs ih =>
      unfold storeBeats at h
      obtain ⟨at_, ha, h⟩ := except_bind_eq_ok.mp h
      obtain ⟨⟨t, resp'⟩, ht, h⟩ := except_bind_eq_ok.mp h
      obtain ⟨_, rfl⟩ := Checked.add_eq_ok_iff.mp ha
      rw [Store.writeAt_target hpos] at ht
      cases ht
      obtain ⟨hgeo, hregions⟩ :=
        s.put_geometry (s.geometry.place (addr + i % limit32 * s.geometry.wordBytes)) b.data
      have hrefusal := Store.refusal?_congr hgeo hregions (s.size_put _ b.data)
      have hresp := ih (by rwa [hgeo]) h
      rw [hgeo, hrefusal] at hresp
      refine hresp.trans ?_
      rw [placedFrom_cons, List.filterMap_cons]
      cases s.refusal? (addr + i % limit32 * s.geometry.wordBytes) with
      | none => rw [Option.getD_none, Resp.worse_okay]
      | some r => rfl

/-- The answer is gathered response by response. -/
theorem MemoryWrite.answer_resp (w : MemoryWrite) (s : Store) :
    (w.answer s).resp = (w.refused s).foldl Resp.worse .okay := by
  have hcode : ((w.refused s).foldl Resp.worse .okay).code
      = ((w.refused s).map Resp.code).foldl max 0 := Resp.code_foldl_worse _ _
  unfold answer
  rw [← hcode, Resp.ofCode_code]

/-- So a burst is stored as a write, and answered as one. -/
theorem Memory.storeBeats_commit {s s' : Store} {resp : Resp} {w : MemoryWrite}
    (hpos : s.geometry.wordBytes ≠ 0)
    (h : storeBeats w.request.addr 0 s .okay w.beats = .ok (s', resp)) :
    s' = s.commit w ∧ ⟨w.request.id, resp⟩ = w.answer s := by
  refine ⟨storeBeats_eq h, ?_⟩
  rw [storeBeats_resp hpos h]
  exact congrArg (WriteResp.mk w.request.id) (w.answer_resp s).symm

namespace Store

theorem commit_shape (s : Store) (w : MemoryWrite) :
    (s.commit w).geometry = s.geometry ∧ (s.commit w).regions = s.regions
      ∧ (s.commit w).size = s.size := by
  obtain ⟨hgeo, hregions⟩ := s.putAll_geometry _
  exact ⟨hgeo, hregions, s.size_putAll _⟩

/-- **What a write stores.** -/
theorem get?_commit (s : Store) (w : MemoryWrite) (k : Nat) :
    (s.commit w).get? k
      = (((w.placed s.geometry).filter fun p => s.target p.1 = .ok k).getLast?.map (·.2)).or
        (s.get? k) :=
  s.get?_putAll (w.placed s.geometry) k

end Store

end BurstDma
