import BurstDma.Proofs.Bounds

/-!
# Bursts and windows

No burst crosses a multiple of 4096 bytes. Either engine looks at the next boundary once, in
the phase `clamping`, some cycles before it offers the burst: the reader waits for credit in
between, the writer for words, and in frame mode the buffer may cut the burst shorter. **The
address stands still in the meantime**, so what was small enough then is small enough when it
is offered.
-/

namespace BurstDma

/-- The first and the last byte of `words` words from `addr` on lie in one window of 4096
bytes. -/
def Geometry.InWindow (g : Geometry) (addr words : Nat) : Prop :=
  (addr + words * g.wordBytes - 1) / boundaryBytes = addr / boundaryBytes

/-- A request that may be offered: at most 16 words, in one window. -/
structure AddrReq.Contained (g : Geometry) (r : AddrReq) : Prop where
  short : r.len ≤ 15
  window : g.InWindow r.addr (r.len + 1)

/-- A burst of whole words that ends before the next boundary may be offered. -/
theorem AddrReq.contained_of_burst {g : Geometry} (hg : g.Legal) {r : AddrReq}
    {addr burst : Nat} (haligned : addr % g.wordBytes = 0)
    (hburst : 1 ≤ burst ∧ burst ≤ maxBurstWords) (hw : burst ≤ g.wordsUntilBoundary addr)
    (hr : r.addr = addr ∧ r.beats = burst) : r.Contained g := by
  obtain ⟨rfl, rfl⟩ := hr
  have hmax : maxBurstWords = 16 := rfl
  have hbeats : r.beats = r.len + 1 := rfl
  refine ⟨by omega, ?_⟩
  exact Geometry.window_of_wordsUntilBoundary hg haligned hburst.1 hw

/-! ## The reader -/

namespace ReadCore

variable {g : Geometry} {c c' : ReadCore} {i : ReadInputs} {step : ReadStep}

/-- The next burst starts with a whole word, and once it is sized it ends before the
boundary. -/
structure Placed (g : Geometry) (c : ReadCore) : Prop where
  aligned : c.addr % g.wordBytes = 0
  burst : c.phase = .encoding ∨ c.phase = .waitForCredit ∨ c.phase = .issueBurst →
    c.burst ≤ g.wordsUntilBoundary c.addr

theorem placed_init (g : Geometry) : Placed g {} :=
  ⟨Nat.zero_mod _, by simp⟩

theorem placed_next (hg : g.Legal) (h : c.Placed g)
    (hn : (c.next g i).result = .ok (c', step)) : c'.Placed g := by
  obtain ⟨⟨r, push⟩, hrec, hn⟩ := Run.result_bind_eq_ok.mp hn
  obtain ⟨⟨core, st⟩, hproc, hn⟩ := Run.result_bind_eq_ok.mp hn
  cases hn
  obtain ⟨⟨bursts, error, rfl⟩, _⟩ := receive_eq hrec
  obtain ⟨haligned, hburst⟩ := h
  cases proceed_moves hproc with
  | rest => exact ⟨haligned, hburst⟩
  | take d =>
      refine ⟨Geometry.align_mod hg _, ?_⟩
      dsimp only
      split <;> simp
  | size => exact ⟨haligned, by simp⟩
  | clamp => exact ⟨haligned, fun _ => Nat.min_le_right _ _⟩
  | encode request hph => exact ⟨haligned, fun _ => hburst (Or.inl hph)⟩
  | grant hph => exact ⟨haligned, fun _ => hburst (Or.inr (Or.inl hph))⟩
  | starve hph => exact ⟨haligned, fun _ => hburst (Or.inr (Or.inl hph))⟩
  | stall => exact ⟨haligned, hburst⟩
  | issue =>
      refine ⟨?_, by simp⟩
      rw [Nat.add_mul_mod_self_right]
      exact haligned
  | again => exact ⟨haligned, by simp⟩
  | last => exact ⟨haligned, by simp⟩
  | await => exact ⟨haligned, by simp⟩
  | complete => exact ⟨haligned, by simp⟩
  | settle => exact ⟨haligned, by simp⟩

end ReadCore

/-! ## The writer -/

namespace WriteCore

variable {g : Geometry} {c c' : WriteCore} {i : WriteInputs} {step : WriteStep}

/-- The next burst starts with a whole word, and it ends before the boundary from the
cycle on in which the boundary was looked at. -/
structure Placed (g : Geometry) (c : WriteCore) : Prop where
  aligned : c.addr % g.wordBytes = 0
  candidate : c.phase = .waitForCredit → c.candidate ≤ g.wordsUntilBoundary c.addr
  burst : c.phase = .issueBurst → c.burst ≤ g.wordsUntilBoundary c.addr

theorem placed_init (g : Geometry) (frameMode : Bool) : Placed g { frameMode } :=
  ⟨Nat.zero_mod _, by simp, by simp⟩

theorem placed_next (hg : g.Legal) (hf : c.Fits g) (h : c.Placed g)
    (hn : (c.next g i).result = .ok (c', step)) : c'.Placed g := by
  obtain ⟨error, hm⟩ := next_moves hn
  obtain ⟨haligned, hcandidate, hburst⟩ := h
  cases hm with
  | rest => exact ⟨haligned, hcandidate, hburst⟩
  | take d =>
      refine ⟨Geometry.align_mod hg _, ?_, ?_⟩
      · dsimp only
        split <;> simp
      · dsimp only
        split <;> simp
  | size => exact ⟨haligned, by simp, by simp⟩
  | clamp => exact ⟨haligned, fun _ => Nat.min_le_right _ _, by simp⟩
  | starve => exact ⟨haligned, hcandidate, hburst⟩
  | offer burst finalBurst request hph hsize =>
      -- the buffer can make the burst shorter, but not longer
      obtain ⟨_, hle⟩ := sized?_le (hf.candidate (Or.inr hph)).1 hsize
      exact ⟨haligned, by simp, fun _ => Nat.le_trans hle (hcandidate hph)⟩
  | stall => exact ⟨haligned, hcandidate, hburst⟩
  | issue => exact ⟨haligned, by simp, by simp⟩
  | wait => exact ⟨haligned, hcandidate, hburst⟩
  | send pending hph => exact ⟨haligned, hcandidate, hburst⟩
  | close =>
      refine ⟨?_, ?_, ?_⟩
      · rw [Nat.add_mul_mod_self_right]
        exact haligned
      · dsimp only
        split <;> simp
      · dsimp only
        split <;> simp
  | await => exact ⟨haligned, by simp, by simp⟩
  | complete => exact ⟨haligned, by simp, by simp⟩
  | settle => exact ⟨haligned, by simp, by simp⟩

end WriteCore

/-! ## The machine -/

namespace Machine

variable {params : MachineParams} {s : Machine} {i : Nat} {p : Port}

/-- The bursts of both engines of every port are placed. -/
def Placed (g : Geometry) (s : Machine) : Prop :=
  ∀ (i : Nat) (p : Port), s.ports[i]? = some p →
    p.reader.core.Placed g ∧ p.writer.core.Placed g

/-- **In every reachable machine no burst leaves its window.** -/
theorem placed_reachable (hg : params.geometry.Legal) (h : Machine.Reachable params s) :
    s.Placed params.geometry := by
  refine h.steps (P := Placed params.geometry) ?_ ?_ ?_ ?_
  · intro s h₀ i p hp
    rw [getElem?_ofParams h₀] at hp
    obtain ⟨q, _, rfl⟩ := Option.map_eq_some_iff.mp hp
    exact ⟨ReadCore.placed_init _, WriteCore.placed_init _ _⟩
  · intro s s' slave hr hplaced hedge i p' hp'
    obtain ⟨p, rstep, wstep, hp, hport⟩ := hedge.port' hp'
    obtain ⟨q, _, hb⟩ := hr.formed.port i p hp
    obtain ⟨hread, _⟩ := ReadEngine.tick_core hport.reader
    obtain ⟨hwrite, _⟩ := WriteEngine.tick_core hport.writer
    rw [hb.readGeometry] at hread
    rw [hb.writeGeometry] at hwrite
    obtain ⟨hreader, hwriter⟩ := hplaced i p hp
    have hfits := ((bounded_reachable hr).port i p hp).writer
    exact ⟨ReadCore.placed_next hg hreader hread, WriteCore.placed_next hg hfits hwriter hwrite⟩
  · intro s s' op _ hplaced htouch i p' hp'
    obtain ⟨p, hp, hport⟩ := htouch.port' hp'
    rw [hport.reader, hport.writer]
    exact hplaced i p hp
  · intro s s' _ _ hreset i p' hp'
    rw [reset_eq_ok hreset, List.getElem?_map] at hp'
    obtain ⟨p, _, rfl⟩ := Option.map_eq_some_iff.mp hp'
    exact ⟨ReadCore.placed_init _, WriteCore.placed_init _ _⟩

/-- What a reader offers may be offered. -/
theorem read_contained (hg : params.geometry.Legal) (h : Machine.Reachable params s)
    (hp : s.ports[i]? = some p) (hph : p.reader.core.phase = .issueBurst) :
    p.reader.core.request.Contained params.geometry := by
  obtain ⟨hplaced, _⟩ := placed_reachable hg h i p hp
  obtain ⟨hsound, _⟩ := (credited_reachable h).2 i p hp
  obtain ⟨hpos, hle, _⟩ := ((bounded_reachable h).port i p hp).reader.burst (Or.inr (Or.inr hph))
  exact AddrReq.contained_of_burst hg hplaced.aligned ⟨hpos, hle⟩
    (hplaced.burst (Or.inr (Or.inr hph))) (hsound.request (Or.inr hph))

/-- What a writer offers may be offered. -/
theorem write_contained (hg : params.geometry.Legal) (h : Machine.Reachable params s)
    (hp : s.ports[i]? = some p) (hph : p.writer.core.phase = .issueBurst) :
    p.writer.core.request.Contained params.geometry := by
  obtain ⟨_, hplaced⟩ := placed_reachable hg h i p hp
  have hburst := ((bounded_reachable h).port i p hp).writer.burst (Or.inl hph)
  have hknows := (writeOrderly_reachable h).port i p hp
  exact AddrReq.contained_of_burst hg hplaced.aligned hburst (hplaced.burst hph)
    (hknows.offers hph)

end Machine

end BurstDma
