import BurstDma.Proofs.WriteTransfer

/-!
# What a memory holds in the end

A memory is the replay of the writes that it stored, and in general the last write to a word
decides. Where **all writes to a word carry the same value**, the order does not matter: a
word has that value as soon as it was written once, and keeps it. `ref` says which value it
is; then the log of the writes tells which words are written, and nothing else is to be
known.
-/

namespace BurstDma

namespace Store

variable {s : Store} {writes : List (Place × Word)} {k : Nat}

@[simp] theorem size_put (s : Store) (q : Place) (w : Word) : (s.put q w).size = s.size := by
  unfold put
  split
  · rfl
  · exact s.size_set _ _

@[simp] theorem size_putAll (s : Store) (writes : List (Place × Word)) :
    (s.putAll writes).size = s.size := by
  induction writes generalizing s with
  | nil => rfl
  | cons w ws ih => exact (ih (s.put w.1 w.2)).trans (s.size_put _ _)

theorem putAll_append (s : Store) (ws us : List (Place × Word)) :
    s.putAll (ws ++ us) = (s.putAll ws).putAll us :=
  List.foldl_append

/-- A word that nobody writes stays what it was. -/
theorem get?_putAll_of_ne (h : ∀ w ∈ writes, w.1.index ≠ k) :
    (s.putAll writes).get? k = s.get? k := by
  induction writes generalizing s with
  | nil => rfl
  | cons w ws ih =>
      refine (ih fun u hu => h u (List.mem_cons_of_mem _ hu)).trans ?_
      rw [get?_put, if_neg fun hc => h w List.mem_cons_self hc.2.2.symm]

/-- **Where all writes agree**, a word has its value once it was written. -/
theorem get?_putAll_of_agreed {ref : Nat → Word} (hsound : s.regions = []) (hin : k < s.size)
    (hagree : ∀ w ∈ writes, w.2 = ref w.1.index)
    (h : s.get? k = some (ref k) ∨ ∃ w ∈ writes, w.1.index = k) :
    (s.putAll writes).get? k = some (ref k) := by
  induction writes generalizing s with
  | nil =>
      rcases h with h | ⟨w, hw, _⟩
      · exact h
      · cases hw
  | cons w ws ih =>
      have hput := get?_put s w.1 w.2 k
      have hfaulty : s.faulty w.1.addr = false := by
        unfold faulty
        rw [hsound]
        rfl
      refine ih ((s.put_geometry w.1 w.2).2.trans hsound) (by rwa [size_put])
        (fun u hu => hagree u (List.mem_cons_of_mem _ hu)) ?_
      show (s.put w.1 w.2).get? k = some (ref k) ∨ _
      by_cases hk : w.1.index = k
      · rw [if_pos ⟨hfaulty, hk ▸ hin, hk.symm⟩] at hput
        exact Or.inl (hput.trans (congrArg some (hk ▸ hagree w List.mem_cons_self)))
      · rw [if_neg fun hc => hk hc.2.2.symm] at hput
        rcases h with h | ⟨u, hu, hindex⟩
        · exact Or.inl (hput.trans h)
        · rcases List.mem_cons.mp hu with rfl | hu
          · exact absurd hindex hk
          · exact Or.inr ⟨u, hu, hindex⟩

end Store

/-- The words that the memory stored, for whichever port. -/
def Moment.allStores (e : Moment) : List (Place × Word) :=
  (e.memoryStores?.map (·.2)).getD []

section

variable {params : MachineParams} {s₀ s : Machine} {past : List Moment} {ref : Nat → Word} {k : Nat}

/-- Without images only the stores count. -/
theorem Moment.storeAfter_eq {e : Moment} (h : ∀ base words, e.2 ≠ .load base words) (s : Store) :
    storeAfter s e = s.putAll e.allStores := by
  obtain ⟨m, op⟩ := e
  have hquiet : ∀ {op : Operation}, op ≠ .tick → allStores (m, op) = [] := by
    intro op ht
    unfold allStores memoryStores?
    rw [wires?_of_ne_tick ht]
    rfl
  cases op with
  | tick => rfl
  | load base words => exact absurd rfl (h base words)
  | write addr value => rw [hquiet (by intro hc; cases hc)]; rfl
  | read addr => rw [hquiet (by intro hc; cases hc)]; rfl
  | push port beats => rw [hquiet (by intro hc; cases hc)]; rfl
  | take port => rw [hquiet (by intro hc; cases hc)]; rfl
  | reset => rw [hquiet (by intro hc; cases hc)]; rfl

theorem foldl_storeAfter (h : ∀ e ∈ past, ∀ base words, e.2 ≠ .load base words) (s : Store) :
    past.foldl Moment.storeAfter s = s.putAll (past.flatMap Moment.allStores) := by
  induction past generalizing s with
  | nil => rfl
  | cons e past ih =>
      rw [List.foldl_cons, List.flatMap_cons, Store.putAll_append,
        Moment.storeAfter_eq (h e List.mem_cons_self),
        ih fun e' he' => h e' (List.mem_cons_of_mem _ he')]

/-- What the memory stores in a cycle belongs to a port. -/
theorem Moment.exists_memoryStores {e : Moment} {s' : Machine} (ho : e.1.WriteOrderly)
    (h : e.2.apply e.1 = .ok s') {w : Place × Word} (hw : w ∈ e.allStores) :
    ∃ i, i < e.1.ports.length ∧ w ∈ e.memoryStores i := by
  obtain ⟨s, op⟩ := e
  by_cases ht : op = .tick
  · subst ht
    obtain ⟨slave, hedge⟩ := Machine.tick_edge h
    obtain ⟨hmove, _⟩ := Machine.write_move ho hedge
    unfold allStores at hw
    unfold memoryStores
    rw [memoryStores?_tick hedge.drives] at hw ⊢
    -- only the end of a burst completes a write, and the burst is that of a port
    cases hmove with
    | close id p head r hp _ _ _ _ _ _ hid hsome =>
        rw [hsome] at hw ⊢
        exact ⟨id, (List.getElem?_eq_some_iff.mp hp).1, by simpa [hid] using hw⟩
    | rest _ _ _ _ hnone | start _ _ _ _ _ _ _ _ _ hnone | send _ _ _ _ _ _ _ _ _ _ _ hnone
    | answer _ _ _ _ _ hnone =>
        rw [hnone] at hw
        cases hw
  · unfold allStores memoryStores? at hw
    rw [wires?_of_ne_tick ht] at hw
    cases hw

/-- What a port stored, the memory stored. -/
theorem Moment.mem_allStores {e : Moment} {i : Nat} {w : Place × Word}
    (hw : w ∈ e.memoryStores i) : w ∈ e.allStores := by
  unfold memoryStores at hw
  unfold allStores
  split at hw
  · rename_i id writes hstores
    rw [hstores]
    split at hw
    · exact hw
    · cases hw
  · cases hw

/-- What was stored was stored for a port. -/
theorem History.exists_memoryStores (h₀ : Machine.ofParams params = .ok s₀)
    (h : History s₀ past s) {w : Place × Word} (hw : w ∈ past.flatMap Moment.allStores) :
    ∃ i, i < params.ports.length ∧ w ∈ past.flatMap (Moment.memoryStores i) := by
  obtain ⟨e, he, hw⟩ := List.mem_flatMap.mp hw
  obtain ⟨before, after, hpast⟩ := List.append_of_mem he
  obtain ⟨hbefore, s', hstep⟩ := h.moment hpast
  have hr : Machine.Reachable params e.1 := ⟨s₀, before, h₀, hbefore⟩
  obtain ⟨i, hi, hw⟩ := Moment.exists_memoryStores (Machine.writeOrderly_reachable hr) hstep hw
  exact ⟨i, hr.formed.length ▸ hi, List.mem_flatMap.mpr ⟨e, he, hw⟩⟩

/-- A history without images, in a memory without failing regions, in which all writes to a
word carry the value `ref`. -/
structure History.Agreed (params : MachineParams) (past : List Moment) (ref : Nat → Word) :
    Prop where
  faultless : params.memory.errorRegions = []
  noLoads : ∀ e ∈ past, ∀ base words, e.2 ≠ .load base words
  agree : ∀ i, i < params.ports.length → ∀ w ∈ past.flatMap (Moment.memoryStores i),
    w.2 = ref w.1.index

theorem History.Agreed.store (ha : History.Agreed params past ref)
    (h₀ : Machine.ofParams params = .ok s₀) (h : History s₀ past s) :
    s.memory.store = (Store.zeros params.geometry params.memory).putAll
        (past.flatMap Moment.allStores)
      ∧ ∀ w ∈ past.flatMap Moment.allStores, w.2 = ref w.1.index := by
  have hstart : s₀.memory.store = Store.zeros params.geometry params.memory := by
    obtain ⟨_, _, _, _, rfl⟩ := Machine.ofParams_eq_ok h₀
    rfl
  refine ⟨?_, fun w hw => ?_⟩
  · rw [h.store_eq h₀, foldl_storeAfter ha.noLoads, hstart]
  · obtain ⟨i, hi, hw⟩ := h.exists_memoryStores h₀ hw
    exact ha.agree i hi w hw

/-- The memory keeps its size. -/
theorem History.Agreed.size (ha : History.Agreed params past ref)
    (h₀ : Machine.ofParams params = .ok s₀) (h : History s₀ past s) :
    s.memory.store.size = params.memory.sizeWords := by
  rw [(ha.store h₀ h).1, Store.size_putAll]
  exact Array.size_replicate

/-- **A word that some port stored has its value.** -/
theorem History.Agreed.written (ha : History.Agreed params past ref)
    (h₀ : Machine.ofParams params = .ok s₀) (h : History s₀ past s) {i : Nat} {w : Place × Word}
    (hw : w ∈ past.flatMap (Moment.memoryStores i)) (hin : w.1.index < params.memory.sizeWords) :
    s.memory.store.get? w.1.index = some (ref w.1.index) := by
  obtain ⟨hstore, hagree⟩ := ha.store h₀ h
  obtain ⟨e, he, hmem⟩ := List.mem_flatMap.mp hw
  rw [hstore]
  refine Store.get?_putAll_of_agreed ha.faultless ?_ hagree (Or.inr ⟨w, ?_, rfl⟩)
  · show _ < (Array.replicate params.memory.sizeWords (0 : Word)).size
    rwa [Array.size_replicate]
  · exact List.mem_flatMap.mpr ⟨e, he, Moment.mem_allStores hmem⟩

/-- **A word that no port stored is zero.** -/
theorem History.Agreed.unwritten (ha : History.Agreed params past ref)
    (h₀ : Machine.ofParams params = .ok s₀) (h : History s₀ past s)
    (hk : ∀ i, i < params.ports.length → ∀ w ∈ past.flatMap (Moment.memoryStores i),
      w.1.index ≠ k) (hin : k < params.memory.sizeWords) :
    s.memory.store.get? k = some 0 := by
  rw [(ha.store h₀ h).1, Store.get?_putAll_of_ne]
  · show (Array.replicate params.memory.sizeWords (0 : Word))[k]? = some 0
    rw [Array.getElem?_replicate, if_pos hin]
  · intro w hw
    obtain ⟨i, hi, hw⟩ := h.exists_memoryStores h₀ hw
    exact hk i hi w hw

end

end BurstDma
