import BurstDma.Loopback.Files
import BurstDma.Proofs.Configuration
import BurstDma.Proofs.FileTree
import BurstDma.Proofs.LoopbackLayout

/-!
# Which self-checks in files can be run

A self-check is generated if its frames have addresses, and then nothing but a file keeps it
from being written. Running it asks for more: a machine with lanes for all ports, and a bus that
moves words of that width. **Of what a configuration needs these two are left open when it is
generated**, and everything else is there.
-/

namespace BurstDma.Loopback

variable {l : Loopback} {v : LoopbackVectors}

/-! ## Generating -/

/-- The data of a word can be computed if all words can be counted. -/
theorem pattern_ok (htotal : l.totalWords < limit64) {port frame word : Nat}
    (hport : port < l.ports) (hframe : frame < l.frames) (hword : word < l.words) :
    ∃ data, pattern port (frame * l.words + word) = .ok data := by
  have hcount : frame * l.words + word < l.frames * l.words := by
    have hnext := Nat.mul_le_mul_right l.words (Nat.succ_le_of_lt hframe)
    rw [Nat.succ_mul] at hnext
    omega
  have hall : l.ports * (l.frames * l.words) < limit64 := by
    rw [← Nat.mul_assoc]
    exact htotal
  have hfactor : port + 1 < limit64 := by
    calc port + 1 ≤ l.ports := hport
      _ ≤ l.ports * (l.frames * l.words) := Nat.le_mul_of_pos_right _ (Nat.zero_lt_of_lt hcount)
      _ < limit64 := hall
  have hproduct : (port + 1) * (frame * l.words + word) < limit64 := by
    calc (port + 1) * (frame * l.words + word)
        ≤ l.ports * (l.frames * l.words) := Nat.mul_le_mul hport (Nat.le_of_lt hcount)
      _ < limit64 := hall
  exact ⟨_, except_bind_eq_ok.mpr ⟨_, if_pos hfactor, except_bind_eq_ok.mpr
    ⟨_, if_pos hproduct, rfl⟩⟩⟩

/-- So can what a port sends. -/
theorem portBeats_ok (htotal : l.totalWords < limit64) {port : Nat} (hport : port < l.ports) :
    ∃ beats, l.portBeats port = .ok beats := by
  have hbeats : ∀ frame ∈ List.range l.frames, ∃ beats, l.frameBeats port frame = .ok beats := by
    intro frame hframe
    refine mapM_ok fun word hword => ?_
    obtain ⟨data, hdata⟩ :=
      pattern_ok htotal hport (List.mem_range.mp hframe) (List.mem_range.mp hword)
    exact ⟨_, except_bind_eq_ok.mpr ⟨data, hdata, rfl⟩⟩
  obtain ⟨frames, hframes⟩ := mapM_ok hbeats
  exact ⟨_, except_bind_eq_ok.mpr ⟨frames, hframes, rfl⟩⟩

/-- **Vectors are generated exactly if all frames have addresses** and no frame has to be found
among words without bytes. -/
theorem generate_ok_iff : (∃ v, l.generate = .ok v) ↔
    l.fits = true ∧ ¬ (l.hasFrames && l.wordBytes == 0) = true := by
  unfold generate
  split
  · rename_i hfits
    refine iff_of_false nofun fun h => ?_
    rw [h.1] at hfits
    cases hfits
  · rename_i hfits
    rw [Bool.not_eq_true, Bool.not_eq_false'] at hfits
    split
    · rename_i hbytes
      exact iff_of_false nofun fun h => h.2 hbytes
    · rename_i hbytes
      refine iff_of_true ?_ ⟨hfits, hbytes⟩
      have htotal : l.totalWords < limit64 := (fits_iff.mp hfits).1.2
      have hbeats : ∀ port ∈ List.range l.ports, ∃ beats, l.portBeats port = .ok beats :=
        fun _ hport => portBeats_ok htotal (List.mem_range.mp hport)
      obtain ⟨inputs, hinputs⟩ := mapM_ok hbeats
      dsimp only
      rw [hinputs]
      exact ⟨_, rfl⟩

/-! ## Writing -/

/-- What is done with a file of a self-check. -/
def storeIn (dir : String) (file : NamedText) : Task (StateM Sandbox) Unit :=
  Task.store (Disk.joined dir file.1) file.2

/-- Once the vectors are there, they are written. -/
theorem writeFiles_eq (h : l.generate = .ok v) (dir : String) : l.writeFiles dir = (do
    Task.access dir (Workplace.makeDirs dir)
    forIn (l.files v) PUnit.unit fun file _ => do
      storeIn dir file
      return .yield PUnit.unit
    Task.note (.vectorsWritten l.ports l.frames l.words dir)
    return Disk.joined dir configName : Task (StateM Sandbox) String) := by
  unfold writeFiles
  simp only [h, pure_bind]
  rfl

/-- Nothing but a file keeps them from it. -/
theorem writeFiles_failsOnFiles (h : l.generate = .ok v) (dir : String) :
    Task.FailsOnFiles (l.writeFiles dir) := by
  rw [writeFiles_eq h]
  refine Task.failsOnFiles_bind (Task.failsOnFiles_access _ _) fun _ => ?_
  refine Task.failsOnFiles_bind (Task.failsOnFiles_forIn (fun file => ?_) _) fun _ => ?_
  · exact Task.failsOnFiles_access _ _
  · exact Task.failsOnFiles_bind (fun _ _ _ hrun => nomatch hrun) fun _ =>
      Task.failsOnFiles_pure _

/-- The last file is the configuration. -/
theorem writeFiles_config {dir path : String} {s s' : Sandbox} (h : l.generate = .ok v)
    (hrun : ExceptT.run (l.writeFiles dir : Task (StateM Sandbox) String) s = (.ok path, s')) :
    s'.tree.load path = .ok (l.config v.memoryWords).text := by
  have hfiles : l.files v = (List.range l.ports).flatMap (portFiles v)
      ++ [("memref.dat", Image.write v.memoryRef)]
      ++ [(configName, (l.config v.memoryWords).text)] := by
    rw [List.append_assoc]
    rfl
  rw [writeFiles_eq h, hfiles] at hrun
  obtain ⟨_, s₁, _, hrun⟩ := Task.run_bind_ok.mp hrun
  obtain ⟨_, s₂, hstores, hrun⟩ := Task.run_bind_ok.mp hrun
  obtain ⟨_, s₃, htell, hpath⟩ := Task.run_bind_ok.mp hrun
  obtain ⟨s₀, hstore⟩ := Task.run_forIn_concat hstores
  have hload := Task.load_of_store hstore
  cases htell
  cases hpath
  exact hload

/-! ## Running -/

theorem memoryWords_pos (hv : l.Generated v) : 1 ≤ v.memoryWords := by
  rw [hv.memoryWords]
  exact Nat.le_trans (by decide) (Nat.le_max_right _ _)

/-- Words that have bytes are few enough for the START register to reach each of them. -/
theorem memoryWords_lt (hv : l.Generated v) (hw : 0 < l.wordBytes) : v.memoryWords < limit32 := by
  have htotal := Nat.le_mul_of_pos_right l.totalWords hw
  rw [hv.memoryWords]
  exact max_lt (Nat.lt_of_le_of_lt htotal hv.bytes) (by decide)

/-- Whatever else a configuration needs is the same for all self-checks. -/
theorem config_runnable_iff (hv : l.Generated v) :
    (l.config v.memoryWords).Runnable ↔
      (1 ≤ l.ports ∧ l.ports ≤ maxRequesters) ∧ (Geometry.mk l.wordBytes).Legal := by
  have hlength : (l.config v.memoryWords).ports.length = l.ports := by
    show ((List.range l.ports).map l.portOptions).length = l.ports
    rw [List.length_map, List.length_range]
  have hdepths : ∀ p ∈ (l.config v.memoryWords).ports, p.fifoDepth = 32 := by
    show ∀ p ∈ (List.range l.ports).map l.portOptions, p.fifoDepth = 32
    rw [List.forall_mem_map]
    exact fun _ _ => rfl
  rw [Config.runnable_iff, hlength]
  constructor
  · exact fun ⟨hc, hmany, _⟩ => ⟨⟨hlength ▸ hc.ports, hmany⟩, hc.width⟩
  · rintro ⟨⟨hsome, hmany⟩, hwidth⟩
    refine ⟨⟨hwidth, show 1 ≤ 4 by decide, memoryWords_pos hv, ?_, ?_, fun p hp => ?_⟩, hmany,
      fun p hp => ?_, show 4 * 8 < limitBytes by decide, ?_⟩
    · rw [hlength]
      exact hsome
    · exact fun _ hr => absurd hr List.not_mem_nil
    · rw [hdepths p hp]
      decide
    · rw [hdepths p hp]
      decide
    · have hsmall := memoryWords_lt hv hwidth.wordBytes_pos
      have h32 : limit32 = 4294967296 := rfl
      have hbytes : limitBytes = 9223372036854775808 := rfl
      show v.memoryWords * 8 < limitBytes
      omega

/-- **A generated configuration can be run exactly if its ports have lanes and its words are
those of a bus.** Nothing but a file keeps it from being written, and what was written is its
text. -/
theorem runnable_config_iff (h : l.generate = .ok v) :
    ((l.config v.memoryWords).Runnable ↔
        (1 ≤ l.ports ∧ l.ports ≤ maxRequesters) ∧ (Geometry.mk l.wordBytes).Legal)
      ∧ ∀ dir s, match ExceptT.run (l.writeFiles dir : Task (StateM Sandbox) String) s with
        | (.ok path, s') => s'.tree.load path = .ok (l.config v.memoryWords).text
        | (.error stop, _) => ∃ path cause, stop = .problem (.file path cause) := by
  refine ⟨config_runnable_iff (generated_of_ok h), fun dir s => ?_⟩
  split
  · rename_i hrun
    exact writeFiles_config h hrun
  · rename_i hrun
    exact writeFiles_failsOnFiles h dir _ _ _ hrun

/-- All lanes are taken. -/
theorem runnable_config_iff_thirtytwo :
    ∃ v, generate { ports := 32, frameMode := true, wordBytes := 2 } = .ok v
      ∧ (config { ports := 32, frameMode := true, wordBytes := 2 } v.memoryWords).Runnable := by
  obtain ⟨v, hv⟩ := (generate_ok_iff (l := { ports := 32, frameMode := true, wordBytes := 2 })).mpr
    (by decide)
  exact ⟨v, hv, (runnable_config_iff hv).1.mpr (by decide)⟩

/-- One port more is generated all the same, and cannot be run. -/
theorem crowded_self_check_unrunnable :
    ∃ v, generate { ports := 33 } = .ok v ∧ ¬ (config { ports := 33 } v.memoryWords).Runnable := by
  obtain ⟨v, hv⟩ := (generate_ok_iff (l := { ports := 33 })).mpr (by decide)
  refine ⟨v, hv, fun hrun => ?_⟩
  have hlanes := ((config_runnable_iff (generated_of_ok hv)).mp hrun).1
  exact absurd hlanes (by decide)

end BurstDma.Loopback
