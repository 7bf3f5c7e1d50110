import BurstDma.Arbiter.Read
import BurstDma.Proofs.Buffer

/-!
# What passes through the read arbiter

An address request passes two places on its way to the memory, the register of its
requester and the register in front of the memory; a data beat passes one on its way
back. Each of them may be absent. **Absent or not, each is a queue**, and so the four
settings of the arbiter share one law per place: what was held and what came in is what
went out and what is held now.

The law about the data has a second half, `delivered_flow`: a beat is seen by the
requester that it names and by nobody else.
-/

namespace BurstDma

namespace ReadArbiter

/-- There is one input register per requester, and a register that is absent holds
nothing. -/
structure WellFormed (a : ReadArbiter) (n : Nat) : Prop where
  inputs : a.inputs.length = n
  packedInputs : ∀ skid ∈ a.inputs, skid.Packed
  packedGranted : a.granted.Packed
  packedData : a.data.Packed
  bypassInputs : a.inputRegister = false → ∀ skid ∈ a.inputs, skid.contents = []
  bypassOutputs : a.outputRegister = false → a.granted.contents = [] ∧ a.data.contents = []

/-- The requests of requester `i` that were accepted and not granted yet. -/
def waiting (a : ReadArbiter) (i : Nat) : List AddrReq :=
  ((a.inputs[i]?).map (·.contents)).getD []

/-- Nothing waits in empty registers. -/
theorem waiting_eq_nil {a : ReadArbiter} (h : ∀ skid ∈ a.inputs, skid.contents = []) {i : Nat} :
    a.waiting i = [] := by
  unfold waiting
  cases hs : a.inputs[i]? with
  | none => rfl
  | some skid => exact h skid (List.mem_of_getElem? hs)

/-- The owners once the grant of the cycle has been entered. -/
def ownersAfterGrant (a : ReadArbiter) (w : ReadWires) : Ownership :=
  if w.grant.isSome then (a.owners.push? a.selected).getD a.owners else a.owners

/-- The beat that reaches its owner in a cycle. -/
def deliveredBeat (a : ReadArbiter) (w : ReadWires) : Option ReadBeat :=
  delivered (a.ownersAfterGrant w) w

/-- A clock edge takes the arbiter from `a` to `a'`. -/
structure Edge (a : ReadArbiter) (w : ReadWires) (a' : ReadArbiter) : Prop where
  inputRegister : a'.inputRegister = a.inputRegister
  outputRegister : a'.outputRegister = a.outputRegister
  inputs : a.nextInputs w = .ok a'.inputs
  granted : (if a.outputRegister then a.granted.tick w.grant w.down.arFired.isSome
    else .ok a.granted) = .ok a'.granted
  data : (if a.outputRegister then a.data.tick w.down.rFired (a.deliveredBeat w).isSome
    else .ok a.data) = .ok a'.data
  /-- A beat is delivered only to the requester that it names. -/
  inOrder : ∀ b, a.deliveredBeat w = some b → (a.ownersAfterGrant w).head? = some b.id

theorem tick_edge {a a' : ReadArbiter} {w : ReadWires} (h : (a.tick w).result = .ok a') :
    a.Edge w a' := by
  obtain ⟨inputs, hi, h⟩ := Run.result_bind_eq_ok.mp h
  obtain ⟨_, _, h⟩ := Run.result_bind_eq_ok.mp h
  obtain ⟨granted, hg, h⟩ := Run.result_bind_eq_ok.mp h
  obtain ⟨owners, ho, h⟩ := Run.result_bind_eq_ok.mp h
  obtain ⟨data, hd, h⟩ := Run.result_bind_eq_ok.mp h
  cases h
  refine ⟨rfl, rfl, hi, hg, hd, ?_⟩
  intro b hb
  by_cases hid : (a.ownersAfterGrant w).head? = some b.id
  · exact hid
  · unfold deliveredBeat at hb
    unfold ownersAfterGrant at hb hid
    simp [hb, hid] at ho

/-! ## Requests -/

variable {a a' : ReadArbiter} {masters : List ReadMaster} {slave : ReadSlave}

/-- A request that is granted comes from the selected requester and carries its
number. -/
theorem grant_eq_some {r : AddrReq} (h : (a.resolve masters slave).grant = some r) :
    a.owners.isFull = false ∧ a.accepts slave = true ∧
      ∃ offer, (a.offers masters)[a.selected]? = some (some offer)
        ∧ r = { offer with id := a.selected } := by
  simp only [resolve] at h
  split at h
  · rename_i hopen
    simp only [Bool.and_eq_true, Bool.not_eq_true'] at hopen
    unfold selectedOffer at h
    obtain ⟨offer, ho, hr⟩ := Option.map_eq_some_iff.mp h
    exact ⟨hopen.1, hopen.2, offer, Option.join_eq_some_iff.mp ho, hr.symm⟩
  · cases h

/-- **The register in front of the memory is a queue.** -/
theorem granted_flow {n : Nat} (hw : a.WellFormed n) (h : a.Edge (a.resolve masters slave) a') :
    a'.granted.Packed ∧ (a.outputRegister = false → a'.granted.contents = []) ∧
      a.granted.contents ++ (a.resolve masters slave).grant.toList
        = (a.resolve masters slave).down.arFired.toList ++ a'.granted.contents := by
  have hg := h.granted
  cases hreg : a.outputRegister with
  | true =>
      rw [hreg, if_pos rfl] at hg
      have hfired : (a.resolve masters slave).down.arFired
          = if slave.arReady then a.granted.peek else none := by
        simp [resolve, ReadBus.arFired, toMemory, hreg]
      have hpop : (a.resolve masters slave).down.arFired.isSome = true →
          a.granted.first.isSome := by
        rw [hfired]
        intro hs
        split at hs
        · exact hs
        · cases hs
      -- only a request that is held can be taken
      obtain ⟨hp, hc⟩ := Skid.tick_contents hw.packedGranted hpop hg
      refine ⟨hp, (by intro hf; cases hf), ?_⟩
      rw [hc, hfired]
      cases slave.arReady
      · rfl
      · cases hpk : a.granted.peek <;> rfl
  | false =>
      rw [hreg] at hg
      -- without a register a request is granted and taken in one cycle
      have hsame : a.granted = a'.granted := Except.ok.inj hg
      obtain ⟨hnil, _⟩ := hw.bypassOutputs hreg
      have hgrant : (a.resolve masters slave).grant = (a.resolve masters slave).down.arFired := by
        simp only [resolve, ReadBus.arFired, toMemory, accepts, hreg]
        cases a.owners.isFull <;> cases slave.arReady <;> simp
      rw [← hsame]
      refine ⟨hw.packedGranted, fun _ => hnil, ?_⟩
      rw [hnil, hgrant, List.append_nil, List.nil_append]

/-- What requester `i` has granted in a cycle, before its number is filled in. -/
def grantTo (a : ReadArbiter) (masters : List ReadMaster) (slave : ReadSlave) (i : Nat) :
    Option AddrReq :=
  if i = a.selected ∧ (a.resolve masters slave).grant.isSome then (a.offers masters)[i]?.join
  else none

/-- The grant of a cycle goes to the requester that it names. -/
theorem grant_filter {α : Type} (f : AddrReq → List α)
    (hf : ∀ (r : AddrReq) (id : Nat), f { r with id } = f r) (i : Nat) :
    ((a.resolve masters slave).grant.toList.filter (·.id == i)).flatMap f
      = (a.grantTo masters slave i).toList.flatMap f := by
  unfold grantTo
  cases hg : (a.resolve masters slave).grant with
  | none => simp
  | some r =>
      obtain ⟨_, _, offer, ho, rfl⟩ := grant_eq_some hg
      by_cases hi : i = a.selected
      · subst hi
        simp [ho, hf]
      · have hne : ¬ a.selected = i := fun h => hi h.symm
        simp [hi, hne]

theorem resolve_up_getElem? {i : Nat} {m : ReadMaster} (hm : masters[i]? = some m) :
    (a.resolve masters slave).up[i]? = some ⟨m, a.toRequester slave i⟩ := by
  simp [resolve, List.getElem?_zipIdx, hm]

/-- With registers each of them moves by itself. -/
theorem input_tick {n : Nat} (hw : a.WellFormed n) (hn : masters.length = n)
    (h : a.Edge (a.resolve masters slave) a') (hreg : a.inputRegister = true) {i : Nat}
    {m : ReadMaster} (hm : masters[i]? = some m) :
    ∃ skid skid', a.inputs[i]? = some skid ∧ a'.inputs[i]? = some skid' ∧ skid.Packed ∧
      skid.tick (ReadBus.arFired ⟨m, a.toRequester slave i⟩)
        (i == a.selected && (a.resolve masters slave).grant.isSome) = .ok skid' := by
  have hi := h.inputs
  rw [nextInputs, hreg, if_pos rfl] at hi
  obtain ⟨_, hget⟩ := mapM_eq_ok hi
  have hlt : i < a.inputs.length := by
    obtain ⟨hlt, _⟩ := List.getElem?_eq_some_iff.mp hm
    rw [hw.inputs, ← hn]
    exact hlt
  have hskid := List.getElem?_eq_getElem hlt
  have hzip : (a.inputs.zip (a.resolve masters slave).up)[i]?
      = some (a.inputs[i], ⟨m, a.toRequester slave i⟩) :=
    List.getElem?_zip_eq_some.mpr ⟨hskid, resolve_up_getElem? hm⟩
  have hidx : ((a.inputs.zip (a.resolve masters slave).up).zipIdx)[i]?
      = some ((a.inputs[i], ⟨m, a.toRequester slave i⟩), i) := by
    rw [List.getElem?_zipIdx, hzip]
    simp
  obtain ⟨skid', ht, hs'⟩ := hget i _ hidx
  exact ⟨_, skid', hskid, hs', hw.packedInputs _ (List.getElem_mem hlt), ht⟩

/-- A requester with a register is granted what its register shows. -/
theorem registered_flow {n : Nat} (hw : a.WellFormed n) (hn : masters.length = n)
    (h : a.Edge (a.resolve masters slave) a') (hreg : a.inputRegister = true) {i : Nat}
    {m : ReadMaster} (hm : masters[i]? = some m) :
    (∀ skid', a'.inputs[i]? = some skid' → skid'.Packed) ∧
      a.waiting i ++ (ReadBus.arFired ⟨m, a.toRequester slave i⟩).toList
        = (a.grantTo masters slave i).toList ++ a'.waiting i := by
  obtain ⟨skid, skid', hs, hs', hpk, ht⟩ := input_tick hw hn h hreg hm
  -- a grant takes what the selected register shows
  have hpop : (i == a.selected && (a.resolve masters slave).grant.isSome) = true →
      skid.first.isSome := by
    intro hb
    rw [Bool.and_eq_true, beq_iff_eq] at hb
    obtain ⟨r, hr⟩ := Option.isSome_iff_exists.mp hb.2
    obtain ⟨_, _, offer, ho, _⟩ := grant_eq_some hr
    rw [offers, hreg, if_pos rfl, ← hb.1, List.getElem?_map, hs] at ho
    simp only [Option.map_some, Option.some.injEq] at ho
    show skid.peek.isSome
    rw [ho]
    rfl
  obtain ⟨hp', hc⟩ := Skid.tick_contents hpk hpop ht
  refine ⟨?_, ?_⟩
  · intro t ht'
    rw [hs'] at ht'
    cases ht'
    exact hp'
  · have hgrant : (a.grantTo masters slave i)
        = if (i == a.selected && (a.resolve masters slave).grant.isSome) then skid.peek
          else none := by
      unfold grantTo
      rw [offers, hreg, if_pos rfl, List.getElem?_map, hs]
      simp
    rw [waiting, waiting, hs, hs', hgrant]
    exact hc

/-- A requester without a register is granted what it has accepted in the same cycle. -/
theorem grantTo_of_bypass (hreg : a.inputRegister = false) {i : Nat} {m : ReadMaster}
    (hm : masters[i]? = some m) :
    a.grantTo masters slave i = ReadBus.arFired ⟨m, a.toRequester slave i⟩ := by
  have hoffer : (a.offers masters)[i]? = some m.ar := by
    simp [offers, hreg, hm]
  unfold grantTo
  simp only [resolve, selectedOffer, ReadBus.arFired, toRequester, hreg, hoffer,
    Option.join_some]
  by_cases hsel : i = a.selected
  · rw [← hsel, hoffer]
    cases a.owners.isFull <;> cases a.accepts slave <;> cases m.ar <;> simp
  · simp [hsel]

/-- **The register of a requester is a queue.** -/
theorem inputs_flow {n : Nat} (hw : a.WellFormed n) (hn : masters.length = n)
    (h : a.Edge (a.resolve masters slave) a') :
    a'.inputs.length = n ∧ (∀ skid ∈ a'.inputs, skid.Packed) ∧
      (a.inputRegister = false → ∀ skid ∈ a'.inputs, skid.contents = []) ∧
      ∀ (i : Nat) (m : ReadMaster), masters[i]? = some m →
        a.waiting i ++ (ReadBus.arFired ⟨m, a.toRequester slave i⟩).toList
          = (a.grantTo masters slave i).toList ++ a'.waiting i := by
  have hi := h.inputs
  cases hreg : a.inputRegister with
  | true =>
      rw [nextInputs, hreg, if_pos rfl] at hi
      obtain ⟨hlen, _⟩ := mapM_eq_ok hi
      have hlen' : a'.inputs.length = n := by
        rw [hlen]
        simp [resolve, hw.inputs, hn]
      refine ⟨hlen', ?_, (by intro hf; cases hf), ?_⟩
      · intro skid' hmem
        obtain ⟨i, hlt, rfl⟩ := List.getElem_of_mem hmem
        have hlt' : i < masters.length := by
          rw [hn, ← hlen']; exact hlt
        obtain ⟨hpacked, _⟩ :=
          registered_flow hw hn h hreg (List.getElem?_eq_getElem hlt')
        exact hpacked _ (List.getElem?_eq_getElem hlt)
      · intro i m hm
        exact (registered_flow hw hn h hreg hm).2
  | false =>
      rw [nextInputs, hreg] at hi
      have hsame : a.inputs = a'.inputs := Except.ok.inj hi
      have hwait : ∀ i, a'.waiting i = a.waiting i := by
        intro i
        rw [waiting, waiting, hsame]
      rw [← hsame]
      refine ⟨hw.inputs, hw.packedInputs, fun _ => hw.bypassInputs hreg, ?_⟩
      intro i m hm
      -- nothing waits where there is no register
      rw [hwait, waiting_eq_nil (hw.bypassInputs hreg), grantTo_of_bypass hreg hm,
        List.append_nil, List.nil_append]

/-! ## Data -/

theorem ownersAfterGrant_head {w : ReadWires} {id : Nat} (h : a.owners.head? = some id) :
    (a.ownersAfterGrant w).head? = some id := by
  unfold ownersAfterGrant
  split
  · unfold Ownership.push?
    split
    · exact h
    · unfold Ownership.head? at h ⊢
      simp [h]
  · exact h

/-- Whatever is delivered was on its way to the oldest owner. -/
theorem deliveredBeat_eq_some {b : ReadBeat}
    (h : a.deliveredBeat (a.resolve masters slave) = some b) :
    ∃ id m, a.owners.head? = some id ∧ masters[id]? = some m
      ∧ ReadBus.rFired ⟨m, a.toRequester slave id⟩ = some b := by
  unfold deliveredBeat delivered at h
  obtain ⟨id, hid, h⟩ := Option.bind_eq_some_iff.mp h
  obtain ⟨bus, hbus, h⟩ := Option.bind_eq_some_iff.mp h
  cases hm : masters[id]? with
  | none => simp [resolve, List.getElem?_zipIdx, hm] at hbus
  | some m =>
      rw [resolve_up_getElem? hm] at hbus
      cases hbus
      by_cases howner : a.owners.head? = some id
      · exact ⟨id, m, howner, hm, h⟩
      · -- nobody else is shown a beat
        have hr : (a.toRequester slave id).r = none := if_neg howner
        simp [ReadBus.rFired, hr] at h

theorem deliveredBeat_of_head {id : Nat} {m : ReadMaster} (hid : a.owners.head? = some id)
    (hm : masters[id]? = some m) :
    a.deliveredBeat (a.resolve masters slave)
      = ReadBus.rFired ⟨m, a.toRequester slave id⟩ := by
  unfold deliveredBeat delivered
  rw [ownersAfterGrant_head hid, Option.bind_some, resolve_up_getElem? hm, Option.bind_some]

/-- **A beat is seen by the requester that it names, and by nobody else.** -/
theorem delivered_flow (h : a.Edge (a.resolve masters slave) a') {i : Nat} {m : ReadMaster}
    (hm : masters[i]? = some m) :
    (ReadBus.rFired ⟨m, a.toRequester slave i⟩).toList
      = (a.deliveredBeat (a.resolve masters slave)).toList.filter (·.id == i) := by
  cases hb : a.deliveredBeat (a.resolve masters slave) with
  | some b =>
      obtain ⟨id, m', hid, hm', hfired⟩ := deliveredBeat_eq_some hb
      have hown := h.inOrder b hb
      rw [ownersAfterGrant_head hid, Option.some.injEq] at hown
      by_cases hi : i = id
      · subst hi
        rw [hm] at hm'
        cases hm'
        rw [hfired]
        simp [← hown]
      · have hr : (a.toRequester slave i).r = none := by
          refine if_neg ?_
          rw [hid, Option.some.injEq]
          exact Ne.symm hi
        have hne : ¬ b.id = i := by
          rw [← hown]; exact Ne.symm hi
        simp [ReadBus.rFired, hr, hne]
  | none =>
      cases hf : ReadBus.rFired ⟨m, a.toRequester slave i⟩ with
      | none => rfl
      | some b =>
          by_cases hid : a.owners.head? = some i
          · rw [deliveredBeat_of_head hid hm, hf] at hb
            cases hb
          · have hr : (a.toRequester slave i).r = none := if_neg hid
            simp [ReadBus.rFired, hr] at hf

/-- Without a register behind it the memory hands over only what is delivered in the same
cycle. -/
theorem rFired_of_bypass (hreg : a.outputRegister = false) :
    (a.resolve masters slave).down.rFired = a.deliveredBeat (a.resolve masters slave) := by
  have nobody : (∀ (id : Nat) (m : ReadMaster), a.owners.head? = some id →
        masters[id]? = some m → False) →
      (a.resolve masters slave).down.rFired = none →
      (a.resolve masters slave).down.rFired = a.deliveredBeat (a.resolve masters slave) := by
    intro hnot hdown
    rw [hdown]
    cases hb : a.deliveredBeat (a.resolve masters slave) with
    | none => rfl
    | some b =>
        obtain ⟨id, m, hid, hm, _⟩ := deliveredBeat_eq_some hb
        exact (hnot id m hid hm).elim
  cases hid : a.owners.head? with
  | none =>
      refine nobody (fun id m hc _ => by rw [hid] at hc; cases hc) ?_
      simp [resolve, ReadBus.rFired, toMemory, hreg, hid]
  | some id =>
      cases hm : masters[id]? with
      | none =>
          refine nobody (fun id' m hc hm' => ?_) ?_
          · rw [hid] at hc
            cases hc
            rw [hm] at hm'
            cases hm'
          · simp [resolve, ReadBus.rFired, toMemory, hreg, hid, hm]
      | some m =>
          rw [deliveredBeat_of_head hid hm]
          simp [resolve, ReadBus.rFired, toMemory, toRequester, incoming, hreg, hid, hm]

/-- **The register behind the memory is a queue.** -/
theorem data_flow {n : Nat} (hw : a.WellFormed n) (h : a.Edge (a.resolve masters slave) a') :
    a'.data.Packed ∧ (a.outputRegister = false → a'.data.contents = []) ∧
      a.data.contents ++ (a.resolve masters slave).down.rFired.toList
        = (a.deliveredBeat (a.resolve masters slave)).toList ++ a'.data.contents := by
  have hd := h.data
  cases hreg : a.outputRegister with
  | true =>
      rw [hreg, if_pos rfl] at hd
      -- what is delivered is the oldest beat held
      have hpeek : ∀ b, a.deliveredBeat (a.resolve masters slave) = some b →
          a.data.peek = some b := by
        intro b hb
        obtain ⟨id, m, hid, _, hf⟩ := deliveredBeat_eq_some hb
        have hr : (a.toRequester slave id).r = a.data.peek := by
          simp [toRequester, hid, incoming, hreg]
        unfold ReadBus.rFired at hf
        split at hf
        · rwa [hr] at hf
        · cases hf
      have hpop : (a.deliveredBeat (a.resolve masters slave)).isSome = true →
          a.data.first.isSome := by
        intro hs
        obtain ⟨b, hb⟩ := Option.isSome_iff_exists.mp hs
        show a.data.peek.isSome
        rw [hpeek b hb]
        rfl
      obtain ⟨hp, hc⟩ := Skid.tick_contents hw.packedData hpop hd
      refine ⟨hp, (by intro hf; cases hf), ?_⟩
      rw [hc]
      cases hb : a.deliveredBeat (a.resolve masters slave) with
      | none => rfl
      | some b => rw [hpeek b hb]; rfl
  | false =>
      rw [hreg] at hd
      have hkept : a.data = a'.data := Except.ok.inj hd
      obtain ⟨_, hnil⟩ := hw.bypassOutputs hreg
      rw [← hkept]
      refine ⟨hw.packedData, fun _ => hnil, ?_⟩
      rw [hnil, rFired_of_bypass hreg, List.append_nil, List.nil_append]

/-- The arbiter stays well formed. -/
theorem wellFormed_edge {n : Nat} (hw : a.WellFormed n) (hn : masters.length = n)
    (h : a.Edge (a.resolve masters slave) a') : a'.WellFormed n := by
  obtain ⟨hlen, hpi, hbi, _⟩ := inputs_flow hw hn h
  obtain ⟨hpg, hbg, _⟩ := granted_flow hw h
  obtain ⟨hpd, hbd, _⟩ := data_flow hw h
  refine ⟨hlen, hpi, hpg, hpd, ?_, ?_⟩
  · intro hreg
    rw [h.inputRegister] at hreg
    exact hbi hreg
  · intro hreg
    rw [h.outputRegister] at hreg
    exact ⟨hbg hreg, hbd hreg⟩

end ReadArbiter

end BurstDma
