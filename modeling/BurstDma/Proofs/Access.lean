import BurstDma.Proofs.History

/-!
# What happens between the ticks

Register accesses, stream traffic and memory images reach the machine between two clock
cycles. None of them moves an engine, a buffer or an arbiter: they change registers, the
far ends of the streams and the words in memory, and **everything in flight stays where
it is**.
-/

namespace BurstDma

/-- Every port knows its place. -/
def Machine.Indexed (s : Machine) : Prop :=
  ∀ (i : Nat) (p : Port), s.ports[i]? = some p → p.index = i

/-- What waits for the engine is what waited before, or the descriptor that was staged; at
most one descriptor was dropped. -/
structure RegisterFile.Handed (f f' : RegisterFile) : Prop where
  holding : f'.holding = f.holding ∨ f'.holding = some f.staged
  dropped : f'.dropped ≤ f.dropped + 1

theorem RegisterFile.Handed.refl (f : RegisterFile) : f.Handed f :=
  ⟨Or.inl rfl, Nat.le_succ _⟩

theorem RegisterFile.handed_write {f f' : RegisterFile} {index : Nat} {value : UInt32}
    (h : (f.write index value).result = .ok f') : f.Handed f' := by
  have hkept : ∀ {g : RegisterFile}, g.holding = f.holding → g.dropped = f.dropped →
      f.Handed g := fun hh hd => ⟨Or.inl hh, hd ▸ Nat.le_succ _⟩
  unfold write at h
  split at h
  · cases h; exact hkept rfl rfl
  · cases h; exact hkept rfl rfl
  · cases h; exact hkept rfl rfl
  · split at h
    · cases h; exact hkept rfl rfl
    · unfold submit at h
      split at h
      · cases h; exact ⟨Or.inr rfl, Nat.le_succ _⟩
      · cases h; exact ⟨Or.inl rfl, Nat.le_refl _⟩
  · cases h; exact hkept rfl rfl
  · cases h; exact hkept rfl rfl
  · cases h; exact hkept rfl rfl

/-- The moment `e` changed port `i` from `p` to `p'`, but not its engines and buffers. -/
structure Port.Touched (i : Nat) (e : Moment) (p p' : Port) : Prop where
  index : p'.index = p.index
  reader : p'.reader = p.reader
  writer : p'.writer = p.writer
  readFifo : p'.readFifo = p.readFifo
  writeFifo : p'.writeFifo = p.writeFifo
  readRegs : p.readRegs.Handed p'.readRegs
  writeRegs : p.writeRegs.Handed p'.writeRegs
  source : p'.source.queue = p.source.queue ++ e.offers i
  pushed : p'.source.pushed = p.source.pushed
  sink : p.sink.received = e.collects i ++ p'.sink.received

/-- An operation changed a machine, but nothing in flight. -/
structure Machine.Touched (s : Machine) (op : Operation) (s' : Machine) : Prop where
  cycle : s'.cycle = s.cycle
  readArbiter : s'.readArbiter = s.readArbiter
  writeArbiter : s'.writeArbiter = s.writeArbiter
  memory : s'.memory = { s.memory with store := Moment.storeAfter s.memory.store (s, op) }
  length : s'.ports.length = s.ports.length
  port : ∀ (i : Nat) (p : Port), s.ports[i]? = some p →
    ∃ p', s'.ports[i]? = some p' ∧ Port.Touched i (s, op) p p'

/-- A port whose source was given some more beats. -/
def Port.extend (p : Port) (beats : List Beat) : Port :=
  { p with source := p.source.extend beats }

namespace Machine

theorem setPort_getElem? {s : Machine} (hi : s.Indexed) {k : Nat} {p q : Port}
    (hp : s.ports[k]? = some p) (hq : q.index = p.index) (i : Nat) :
    (s.setPort q).ports[i]? = if i = k then some q else s.ports[i]? := by
  have hk : q.index = k := hq.trans (hi k p hp)
  obtain ⟨hlt, _⟩ := List.getElem?_eq_some_iff.mp hp
  show (s.ports.set q.index q)[i]? = _
  rw [hk, List.getElem?_set]
  by_cases h : k = i
  · rw [if_pos h, if_pos hlt, if_pos h.symm]
  · rw [if_neg h, if_neg (Ne.symm h)]

/-- Changing one port touches the machine as it touches that port. -/
theorem touched_setPort {s : Machine} {op : Operation} (hi : s.Indexed) {k : Nat} {p q : Port}
    (hp : s.ports[k]? = some p) (hq : Port.Touched k (s, op) p q)
    (hstore : Moment.storeAfter s.memory.store (s, op) = s.memory.store)
    (hothers : ∀ i, i ≠ k → Moment.offers i (s, op) = [] ∧ Moment.collects i (s, op) = []) :
    s.Touched op (s.setPort q) where
  cycle := rfl
  readArbiter := rfl
  writeArbiter := rfl
  memory := by rw [hstore]; rfl
  length := by simp [setPort]
  port := by
    intro i r hr
    rw [setPort_getElem? hi hp hq.index]
    by_cases h : i = k
    · subst h
      rw [hp] at hr
      cases hr
      exact ⟨q, if_pos rfl, hq⟩
    · obtain ⟨ho, hc⟩ := hothers i h
      refine ⟨r, by rw [if_neg h, hr], rfl, rfl, rfl, rfl, rfl, .refl _, .refl _, ?_, rfl, ?_⟩
      · rw [ho, List.append_nil]
      · rw [hc, List.nil_append]

/-- An operation that leaves the machine alone touches nothing. -/
theorem touched_self {s : Machine} {op : Operation}
    (hstore : Moment.storeAfter s.memory.store (s, op) = s.memory.store)
    (hothers : ∀ i, Moment.offers i (s, op) = [] ∧ Moment.collects i (s, op) = []) :
    s.Touched op s where
  cycle := rfl
  readArbiter := rfl
  writeArbiter := rfl
  memory := by rw [hstore]
  length := rfl
  port := by
    intro i p hp
    obtain ⟨ho, hc⟩ := hothers i
    refine ⟨p, hp, rfl, rfl, rfl, rfl, rfl, .refl _, .refl _, ?_, rfl, ?_⟩
    · rw [ho, List.append_nil]
    · rw [hc, List.nil_append]

/-- The parts of a register address can be read off it. -/
theorem address_fields (side : Side) : ∀ (i : Fin 256) (k : Fin 8),
    ((Register.address i side k >>> 16) &&& 0xff).toNat = i
      ∧ (Register.address i side k &&& Register.readerSelect = 0 ↔ side = .writer)
      ∧ Register.indexOfOffset (Register.address i side k) = k := by
  cases side <;> decide +kernel

/-- **A register address leads to the register that it was made from.** -/
theorem decode_address {s : Machine} {i : Nat} {p : Port} {side : Side} (hi : i < 256)
    (hp : s.ports[i]? = some p) (r : Register) :
    (s.decode (Register.address i side r.index)).result = .ok (some (p, side, r.index)) := by
  have hr : r.index < 8 := by cases r <;> decide
  obtain ⟨hport, hside, hindex⟩ := address_fields side ⟨i, hi⟩ ⟨r.index, hr⟩
  dsimp only at hport hside hindex
  unfold decode
  rw [hport, hp, hindex]
  dsimp only
  cases side with
  | writer =>
      rw [if_pos (hside.mpr rfl)]
      rfl
  | reader =>
      rw [if_neg fun hc => nomatch hside.mp hc]
      rfl

theorem touched_writeRegister {s s' : Machine} {addr value : UInt32} (hi : s.Indexed)
    (h : (s.writeRegister addr value).result = .ok s') : s.Touched (.write addr value) s' := by
  obtain ⟨found, hf, h⟩ := Run.result_bind_eq_ok.mp h
  unfold decode at hf
  split at hf
  · cases hf
    cases h
    exact touched_self rfl fun i => ⟨rfl, rfl⟩
  · rename_i p hp
    cases hf
    split at h
    · rename_i heq
      cases heq
    · rename_i q index heq
      simp only [Option.some.injEq, Prod.mk.injEq] at heq
      obtain ⟨rfl, _, _⟩ := heq
      obtain ⟨regs, hregs, h⟩ := Run.result_bind_eq_ok.mp h
      cases h
      exact touched_setPort hi hp ⟨rfl, rfl, rfl, rfl, rfl, RegisterFile.handed_write hregs,
        .refl _, (List.append_nil _).symm, rfl, rfl⟩ rfl fun i _ => ⟨rfl, rfl⟩
    · rename_i q index heq
      simp only [Option.some.injEq, Prod.mk.injEq] at heq
      obtain ⟨rfl, _, _⟩ := heq
      obtain ⟨regs, hregs, h⟩ := Run.result_bind_eq_ok.mp h
      cases h
      exact touched_setPort hi hp ⟨rfl, rfl, rfl, rfl, rfl, .refl _,
        RegisterFile.handed_write hregs, (List.append_nil _).symm, rfl, rfl⟩ rfl
        fun i _ => ⟨rfl, rfl⟩

/-- A push extends the source of its port. -/
theorem apply_push {s : Machine} {i : Nat} {p : Port} (hp : s.ports[i]? = some p)
    (beats : List Beat) : (Operation.push i beats).apply s = .ok (s.setPort (p.extend beats)) := by
  show s.pushStream i beats = _
  unfold pushStream
  rw [hp]
  rfl

theorem touched_pushStream {s s' : Machine} {port : Nat} {beats : List Beat} (hi : s.Indexed)
    (h : s.pushStream port beats = .ok s') : s.Touched (.push port beats) s' := by
  unfold pushStream at h
  split at h
  · cases h
  · rename_i p hp
    cases h
    refine touched_setPort hi hp
      ⟨rfl, rfl, rfl, rfl, rfl, .refl _, .refl _, ?_, rfl, rfl⟩ rfl ?_
    · show p.source.queue ++ beats = _
      rw [Moment.offers, if_pos rfl]
    · intro i hik
      exact ⟨if_neg (Ne.symm hik), rfl⟩

theorem touched_takeOutput {s s' : Machine} {port : Nat} {beats : List Beat} (hi : s.Indexed)
    (h : s.takeOutput port = .ok (beats, s')) : s.Touched (.take port) s' := by
  unfold takeOutput at h
  split at h
  · cases h
  · rename_i p hp
    cases h
    refine touched_setPort hi hp
      ⟨rfl, rfl, rfl, rfl, rfl, .refl _, .refl _, (List.append_nil _).symm, rfl, ?_⟩ rfl ?_
    · show p.sink.received = _ ++ (List.reverse [])
      rw [Moment.collects, if_pos rfl, hp]
      simp
    · intro i hik
      exact ⟨rfl, if_neg (Ne.symm hik)⟩

theorem touched_load {s s' : Machine} {base : Nat} {words : List Word}
    (h : Operation.apply s (.load base words) = .ok s') : s.Touched (.load base words) s' := by
  simp only [Operation.apply, loadMemory] at h
  cases hl : s.memory.store.load base words with
  | ok store =>
      rw [hl] at h
      cases h
      have hafter : Moment.storeAfter s.memory.store (s, .load base words) = store := by
        simp only [Moment.storeAfter, hl]
      refine ⟨rfl, rfl, rfl, by rw [hafter], rfl, ?_⟩
      · intro i p hp
        exact ⟨p, hp, rfl, rfl, rfl, rfl, rfl, .refl _, .refl _,
          (List.append_nil _).symm, rfl, rfl⟩
  | error stop =>
      rw [hl] at h
      cases stop with
      | fault f => cases h
      | problem q =>
          cases h
          refine touched_self ?_ fun i => ⟨rfl, rfl⟩
          simp only [Moment.storeAfter, hl]

/-- **Only the clock and a reset reach what is in flight.** -/
theorem touched_of_apply {s s' : Machine} {op : Operation} (hi : s.Indexed)
    (h : op.apply s = .ok s') (ht : op ≠ .tick) (hr : op ≠ .reset) : s.Touched op s' := by
  cases op with
  | write addr value => exact touched_writeRegister hi h
  | read addr =>
      obtain ⟨_, _, rfl⟩ := except_map_eq_ok.mp h
      exact touched_self rfl fun i => ⟨rfl, rfl⟩
  | push port beats => exact touched_pushStream hi h
  | take port =>
      obtain ⟨⟨beats, t⟩, ht, rfl⟩ := except_map_eq_ok.mp h
      exact touched_takeOutput hi ht
  | load base words => exact touched_load h
  | tick => exact absurd rfl ht
  | reset => exact absurd rfl hr

/-- A port of the touched machine was there before. -/
theorem Touched.port' {s s' : Machine} {op : Operation} (h : s.Touched op s') {i : Nat}
    {p' : Port} (hp' : s'.ports[i]? = some p') :
    ∃ p, s.ports[i]? = some p ∧ Port.Touched i (s, op) p p' := by
  have hlt : i < s.ports.length := by
    obtain ⟨hlt, _⟩ := List.getElem?_eq_some_iff.mp hp'
    rwa [h.length] at hlt
  obtain ⟨q, hq, ht⟩ := h.port i _ (List.getElem?_eq_getElem hlt)
  rw [hp'] at hq
  cases hq
  exact ⟨_, List.getElem?_eq_getElem hlt, ht⟩

theorem reset_eq_ok {s s' : Machine} (h : s.reset.result = .ok s') :
    s' = { s with
      memory := s.memory.reset
      readArbiter := s.readArbiter.reset
      writeArbiter := s.writeArbiter.reset
      ports := s.ports.map (·.reset)
      newestEvents := [] } := by
  cases h
  rfl

end Machine

namespace Store

theorem fill_geometry (s : Store) (base : Nat) (words : List Word) :
    (s.fill base words).geometry = s.geometry ∧ (s.fill base words).regions = s.regions := by
  induction words generalizing s base with
  | nil => exact ⟨rfl, rfl⟩
  | cons w ws ih => exact ih (s.set base w) (base + 1)

end Store

/-- A moment changes the words of a store only. -/
theorem Moment.storeAfter_geometry (s : Store) (e : Moment) :
    (storeAfter s e).geometry = s.geometry ∧ (storeAfter s e).regions = s.regions := by
  obtain ⟨m, op⟩ := e
  cases op with
  | tick => exact s.putAll_geometry _
  | load base words =>
      unfold storeAfter
      dsimp only
      split
      · rename_i loaded hl
        unfold Store.load at hl
        split at hl
        · cases hl
        · split at hl
          · cases hl
          · cases hl
            exact s.fill_geometry base words
      · exact ⟨rfl, rfl⟩
  | write addr value => exact ⟨rfl, rfl⟩
  | read addr => exact ⟨rfl, rfl⟩
  | push port beats => exact ⟨rfl, rfl⟩
  | take port => exact ⟨rfl, rfl⟩
  | reset => exact ⟨rfl, rfl⟩

/-- Only in a clock cycle do the engines and the memory do anything. -/
theorem Moment.wires?_of_ne_tick {s : Machine} {op : Operation} (h : op ≠ .tick) :
    wires? (s, op) = none := by
  cases op with
  | tick => exact absurd rfl h
  | write addr value => rfl
  | read addr => rfl
  | push port beats => rfl
  | take port => rfl
  | load base words => rfl
  | reset => rfl

end BurstDma
