import BurstDma.Config.Load
import BurstDma.Proofs.Shape
import BurstDma.Workplace.Sandbox

/-!
# Which configurations can be built

The settings of a configuration are checked twice, by the configuration and by the machine that
is made from it. `Config.Accepted` is what the first of them asks for, setting by setting, and
it is all that the second one asks for **except that a machine has lanes for 32 ports**, and that
its buffers can be reserved. The configuration does not count its ports, so one with more of them
is accepted and cannot be built.
-/

namespace BurstDma.Config

variable {c : Config} {params : MachineParams}

/-- What a configuration needs to be accepted. -/
structure Accepted (c : Config) : Prop where
  width : (Geometry.mk c.bus.wordBytes).Legal
  readOutstanding : 1 ≤ c.bus.readOutstanding
  sizeWords : 1 ≤ c.memory.sizeWords
  ports : 1 ≤ c.ports.length
  regions : ∀ r ∈ c.memory.errorRegions, r.first < r.limit
  depths : ∀ p ∈ c.ports, 1 ≤ p.fifoDepth

/-- The buffers that a configuration asks for can be counted in bytes. -/
structure Reservable (c : Config) : Prop where
  depths : ∀ p ∈ c.ports, p.fifoDepth * 16 < limitBytes
  readOutstanding : c.bus.readOutstanding * 8 < limitBytes
  sizeWords : c.memory.sizeWords * 8 < limitBytes

/-- The configuration is accepted, and a machine is built from it. -/
def Runnable (c : Config) : Prop :=
  c.refusal? = none ∧ ∃ params s, c.params = .ok params ∧ Machine.ofParams params = .ok s

/-! ## The checks -/

theorem regionRefusal?_eq_none_iff {r : ErrorRegion} :
    regionRefusal? r = none ↔ r.first < r.limit := by
  unfold regionRefusal?
  split
  · rename_i h
    exact iff_of_false nofun (Nat.not_lt_of_le h)
  · rename_i h
    exact iff_of_true rfl (Nat.lt_of_not_le h)

theorem checkDepths_eq_none_iff {depths : List Nat} (i : Nat) :
    (checkDepths i depths).2 = none ↔ ∀ depth ∈ depths, 1 ≤ depth := by
  induction depths generalizing i with
  | nil => exact iff_of_true rfl fun _ h => absurd h List.not_mem_nil
  | cons depth depths ih =>
      rw [checkDepths]
      split
      · rename_i hz
        exact iff_of_false nofun fun h => Nat.ne_of_gt (h depth List.mem_cons_self) hz
      · rename_i hz
        have hpos : 1 ≤ depth := Nat.pos_of_ne_zero hz
        rw [List.forall_mem_cons, and_iff_right hpos]
        exact ih (i + 1)

theorem sharedRefusal?_eq_none_iff : c.sharedRefusal? = none ↔
    (Geometry.mk c.bus.wordBytes).Legal ∧ 1 ≤ c.bus.readOutstanding ∧ 1 ≤ c.memory.sizeWords
      ∧ 1 ≤ c.ports.length ∧ ∀ r ∈ c.memory.errorRegions, r.first < r.limit := by
  have hwidth : ¬ (Geometry.ofWordBytes? c.bus.wordBytes).isNone = true ↔
      (Geometry.mk c.bus.wordBytes).Legal := by
    unfold Geometry.ofWordBytes?
    split <;> simp [*]
  have hports : ¬ c.ports.isEmpty = true ↔ 1 ≤ c.ports.length := by
    rw [List.isEmpty_iff]
    exact List.length_pos_iff.symm
  have hregions : c.memory.errorRegions.findSome? regionRefusal? = none ↔
      ∀ r ∈ c.memory.errorRegions, r.first < r.limit := by
    rw [List.findSome?_eq_none_iff]
    exact forall₂_congr fun _ _ => regionRefusal?_eq_none_iff
  unfold sharedRefusal?
  simp only [ite_some_eq_none_iff, hwidth, hports, hregions, ← ne_eq, Nat.one_le_iff_ne_zero]

/-- **The configuration is not refused exactly if it is `Accepted`.** -/
theorem refusal?_eq_none_iff : c.refusal? = none ↔ c.Accepted := by
  have hdepths : (∀ depth ∈ c.ports.map (·.fifoDepth), 1 ≤ depth) ↔
      ∀ p ∈ c.ports, 1 ≤ p.fifoDepth := List.forall_mem_map
  unfold refusal? check
  split
  · rename_i why hwhy
    refine iff_of_false nofun fun h => ?_
    have hnone := sharedRefusal?_eq_none_iff.mpr
      ⟨h.width, h.readOutstanding, h.sizeWords, h.ports, h.regions⟩
    cases hnone.symm.trans hwhy
  · rename_i hnone
    obtain ⟨hwidth, hread, hsize, hports, hregions⟩ := sharedRefusal?_eq_none_iff.mp hnone
    rw [checkDepths_eq_none_iff, hdepths]
    exact ⟨fun h => ⟨hwidth, hread, hsize, hports, hregions, h⟩, Accepted.depths⟩

/-- Checking a configuration tells its warnings, and ends with its refusal. -/
theorem validate_run (c : Config) (s : Sandbox) :
    ExceptT.run (c.validate : Task (StateM Sandbox) Unit) s
      = (match c.refusal? with
          | some why => .error (.problem (.refused why))
          | none => .ok (),
        { s with newestTold := (c.check.1.map Entry.notice).reverse ++ s.newestTold }) := by
  unfold validate refusal?
  cases c.check with
  | mk notices refusal => cases refusal <;> rfl

/-- What has been validated is not refused. -/
theorem validated_iff {s : Sandbox} :
    (ExceptT.run (c.validate : Task (StateM Sandbox) Unit) s).1 = .ok () ↔ c.refusal? = none := by
  rw [validate_run]
  cases c.refusal? with
  | none => exact iff_of_true rfl rfl
  | some why => exact iff_of_false nofun nofun

/-! ## The machine -/

/-- What is made of a configuration whose bus has a width. -/
theorem params_ok (h : (Geometry.mk c.bus.wordBytes).Legal) : ∃ params, c.params = .ok params
    ∧ params.ports = c.ports.map (·.params)
    ∧ params.memory.readOutstanding = c.bus.readOutstanding
    ∧ (params.Reservable ↔ c.Reservable) := by
  unfold params
  rw [Geometry.ofWordBytes?_eq_some_iff.mpr ⟨rfl, h⟩]
  refine ⟨_, rfl, rfl, rfl, ?_⟩
  constructor
  · rintro ⟨hdepths, hread, hsize⟩
    exact ⟨List.forall_mem_map.mp hdepths, hread, hsize⟩
  · rintro ⟨hdepths, hread, hsize⟩
    exact ⟨List.forall_mem_map.mpr hdepths, hread, hsize⟩

/-- Its bus has a legal width, and its memory fails where the configuration says so. -/
theorem params_memory {params : MachineParams} (h : c.params = .ok params) :
    params.geometry.Legal ∧ params.memory.errorRegions = c.memory.errorRegions := by
  unfold Config.params at h
  split at h
  · cases h
  · rename_i geometry hwidth
    cases h
    exact ⟨(Geometry.ofWordBytes?_eq_some_iff.mp hwidth).2, rfl⟩

/-- The machine of an accepted configuration is refused for its number of ports, or its buffers
cannot be reserved, or it is built. -/
theorem Accepted.built_iff (h : c.Accepted) : ∃ params, c.params = .ok params
    ∧ params.ports.length = c.ports.length
    ∧ (params.Reservable ↔ c.Reservable)
    ∧ (Machine.refusal? params = none ↔ c.ports.length ≤ maxRequesters) := by
  obtain ⟨params, hparams, hports, hread, hreserved⟩ := params_ok h.width
  have hlength : params.ports.length = c.ports.length := by
    rw [hports, List.length_map]
  have hdepths : ∀ q ∈ params.ports, 1 ≤ q.fifoDepth := by
    rw [hports, List.forall_mem_map]
    exact h.depths
  refine ⟨params, hparams, hlength, hreserved, ?_⟩
  rw [Machine.refusal?_eq_none_iff, hlength, hread]
  exact ⟨fun hnone => hnone.1.2, fun hle => ⟨⟨h.ports, hle⟩, h.readOutstanding, hdepths⟩⟩

/-- What can be run is what is accepted, has a lane for each of its ports and asks for no larger
buffers than there can be. -/
theorem runnable_iff :
    c.Runnable ↔ c.Accepted ∧ c.ports.length ≤ maxRequesters ∧ c.Reservable := by
  unfold Runnable
  rw [refusal?_eq_none_iff]
  refine and_congr_right fun h => ?_
  obtain ⟨params, hparams, _, hreserved, hlanes⟩ := h.built_iff
  rw [← hlanes, ← hreserved, ← Machine.ofParams_ok_iff]
  constructor
  · rintro ⟨params', s, hparams', hs⟩
    cases hparams.symm.trans hparams'
    exact ⟨s, hs⟩
  · rintro ⟨s, hs⟩
    exact ⟨params, s, hparams, hs⟩

/-- **A configuration that passes the checks can be built exactly if it has at most 32 ports**, and
its buffers can be reserved. If it has more ports, that is what the machine says; and otherwise a
buffer that cannot be reserved stops it. -/
theorem validated_builds_iff {s : Sandbox}
    (h : (ExceptT.run (c.validate : Task (StateM Sandbox) Unit) s).1 = .ok ()) :
    ∃ params, c.params = .ok params
      ∧ ((∃ machine, Machine.ofParams params = .ok machine)
          ↔ c.ports.length ≤ maxRequesters ∧ c.Reservable)
      ∧ (maxRequesters < c.ports.length →
          Machine.ofParams params = .error (.problem (.refused (.portCount c.ports.length))))
      ∧ (c.ports.length ≤ maxRequesters → ¬ c.Reservable →
          Machine.ofParams params = .error (.fault (.violation .capacityOverflow))) := by
  have haccepted : c.Accepted := refusal?_eq_none_iff.mp (validated_iff.mp h)
  obtain ⟨params, hparams, hlength, hreserved, hlanes⟩ := haccepted.built_iff
  refine ⟨params, hparams, ?_, fun hmany => ?_, fun hfew hlarge => ?_⟩
  · rw [Machine.ofParams_ok_iff, hlanes, hreserved]
  · rw [← hlength] at hmany ⊢
    exact Machine.ofParams_crowded hmany
  · rw [← hreserved] at hlarge
    exact Machine.ofParams_unreservable (hlanes.mpr hfew) hlarge

/-- Two ports with throttled buffers of one word, over a register. -/
theorem validated_builds_iff_two_ports :
    ∃ machine, Machine.ofParams {
        geometry := ⟨4⟩
        ports := [⟨1, true, 3, 0⟩, ⟨1, false, 0, 3⟩]
        memory := { sizeWords := 16384, readLatency := 4, writeLatency := 2, readOutstanding := 1 }
        inputRegister := true } = .ok machine := by
  obtain ⟨params, hparams, hiff, _⟩ := validated_builds_iff (s := {})
    (c := {
      bus := { wordBytes := 4, readOutstanding := 1, inputRegister := true }
      ports := [{ fifoDepth := 1, frameMode := true, sourceThrottle := 3 },
        { fifoDepth := 1, sinkThrottle := 3 }] }) (by rfl)
  cases hparams
  exact hiff.mpr ⟨by decide, by decide, by decide, by decide⟩

/-- Thirty-three ports pass the checks, and no machine is built for them. -/
theorem crowded_config_unbuilt :
    (ExceptT.run (Config.validate { ports := List.replicate 33 {} } : Task (StateM Sandbox) Unit)
        {}).1 = .ok ()
      ∧ ¬ ∃ params s, Config.params { ports := List.replicate 33 {} } = .ok params
        ∧ Machine.ofParams params = .ok s := by
  have hvalid : (ExceptT.run
      (Config.validate { ports := List.replicate 33 {} } : Task (StateM Sandbox) Unit) {}).1
        = .ok () := rfl
  refine ⟨hvalid, fun hbuilt => ?_⟩
  have hfew := (runnable_iff.mp ⟨validated_iff.mp hvalid, hbuilt⟩).2.1
  exact absurd hfew (by decide)

end BurstDma.Config
