import BurstDma.Proofs.FileTree
import BurstDma.Proofs.Standstill
import BurstDma.Simulation.Session

/-!
# Step mode comes to the same end

Under commands a user decides when the cycles of a run happen, not what happens in them. Both
modes take the same steps, and neither takes one of a simulation that is finished. **A loop that
is left after some rounds and taken up again is the whole loop**, so it does not matter where the
commands cut it: before the end, at it, or behind it.

What the modes say to the user differs, and what a session leaves behind does not. The report and
the two files are made of the last state and of the records, and the records come from the steps
alone.
-/

namespace BurstDma

/-! ## Loops that are cut -/

namespace Run

variable {α β : Type} {more : α → Bool} {step : α → Run α} {a : α}

/-- A program goes on in the same way if it does so after every value that it can get. -/
theorem bind_congr_ok {x : Run α} {f g : α → Run β} (h : ∀ a, x.result = .ok a → f a = g a) :
    x >>= f = x >>= g := by
  obtain ⟨said, result⟩ := x
  cases result with
  | error fault => rfl
  | ok a =>
      rw [bind_congr_of_ok rfl, bind_congr_of_ok rfl, h a rfl]

theorem stepWhile_of_stopped (h : more a = false) (n : Nat) :
    stepWhile more step n a = pure a := by
  cases n with
  | zero => rfl
  | succ n =>
      rw [stepWhile_succ, if_neg]
      rw [h]
      exact Bool.false_ne_true

/-- **A loop that is left after some rounds and taken up again is the whole loop.** -/
theorem stepWhile_add (m n : Nat) (a : α) :
    stepWhile more step (m + n) a = stepWhile more step m a >>= stepWhile more step n := by
  induction m generalizing a with
  | zero => rw [Nat.zero_add, stepWhile_zero, pure_bind]
  | succ m ih =>
      rw [Nat.succ_add, stepWhile_succ, stepWhile_succ]
      split
      · rw [bind_assoc]
        exact bind_congr_ok fun b _ => ih b
      · rename_i hstopped
        rw [pure_bind, stepWhile_of_stopped (Bool.eq_false_iff.mpr hstopped)]

/-- A loop is a number of steps, each of them taken where it may go on. -/
theorem stepWhile_eq_stepTimes (more : α → Bool) (step : α → Run α) (n : Nat) (a : α) :
    ∃ k, k ≤ n ∧ stepWhile more step n a = stepTimes step k a
      ∧ ∀ j, j < k → ∀ b, (stepTimes step j a).result = .ok b → more b = true := by
  induction n generalizing a with
  | zero => exact ⟨0, Nat.le_refl _, rfl, fun j hj => absurd hj (Nat.not_lt_zero j)⟩
  | succ n ih =>
      cases hmore : more a with
      | false =>
          exact ⟨0, Nat.zero_le _, stepWhile_of_stopped hmore _,
            fun j hj => absurd hj (Nat.not_lt_zero j)⟩
      | true =>
          -- after a fault no number of steps is different from another
          have hcut : ∃ k, k ≤ n ∧ step a >>= stepWhile more step n = step a >>= stepTimes step k
              ∧ ∀ j, j < k → ∀ c b, (step a).result = .ok c →
                (stepTimes step j c).result = .ok b → more b = true := by
            cases hstep : (step a).result with
            | error fault =>
                refine ⟨0, Nat.zero_le _, bind_congr_ok fun b hb => ?_,
                  fun j hj => absurd hj (Nat.not_lt_zero j)⟩
                cases hstep.symm.trans hb
            | ok c =>
                obtain ⟨k, hk, heq, hgoes⟩ := ih c
                refine ⟨k, hk, bind_congr_ok fun b hb => ?_, fun j hj c' b hc hb => ?_⟩
                · cases hstep.symm.trans hb
                  exact heq
                · cases hc
                  exact hgoes j hj b hb
          obtain ⟨k, hk, heq, hgoes⟩ := hcut
          refine ⟨k + 1, Nat.succ_le_succ hk, ?_, fun j hj b hb => ?_⟩
          · rw [stepWhile_succ, if_pos hmore, heq, stepTimes_succ]
          · cases j with
            | zero =>
                cases hb
                exact hmore
            | succ j =>
                rw [stepTimes_succ] at hb
                obtain ⟨c, hc, hb⟩ := result_bind_eq_ok.mp hb
                exact hgoes j (Nat.lt_of_succ_lt_succ hj) c b hc hb

/-! ## Programs that leave the same behind -/

/-- Two programs come to the same end and leave the same records. -/
structure Alike (x y : Run α) : Prop where
  result : x.result = y.result
  records : Session.records x.transcript = Session.records y.transcript

theorem Alike.refl (x : Run α) : x.Alike x := ⟨rfl, rfl⟩

/-- What is said besides the records makes no difference. -/
theorem Alike.after {x : Run Unit} {y z : Run α} (hx : x.result = .ok ())
    (hsilent : Session.records x.transcript = []) (h : y.Alike z) : (x >>= fun _ => y).Alike z := by
  rw [bind_congr_of_ok hx]
  refine ⟨h.result, ?_⟩
  show Session.records (x.transcript ++ y.transcript) = _
  rw [Session.records, List.filterMap_append, ← Session.records, hsilent]
  exact h.records

/-- Programs that are alike from some point on are alike. -/
theorem Alike.bind {x : Run α} {f g : α → Run β} (h : ∀ a, x.result = .ok a → (f a).Alike (g a)) :
    (x >>= f).Alike (x >>= g) := by
  obtain ⟨said, result⟩ := x
  cases result with
  | error fault => exact Alike.refl _
  | ok a =>
      obtain ⟨hresult, hrecords⟩ := h a rfl
      rw [bind_congr_of_ok rfl, bind_congr_of_ok rfl]
      refine ⟨hresult, ?_⟩
      show Session.records (said ++ (f a).transcript) = Session.records (said ++ (g a).transcript)
      simp only [Session.records, List.filterMap_append] at hrecords ⊢
      rw [hrecords]

end Run

/-! ## Simulations under commands -/

/-- The commands on some lines. A line that is none is asked for again. -/
def StepCommand.readAll (lines : List String) : List StepCommand :=
  lines.filterMap fun line => (StepCommand.read line).toOption

namespace Simulation

open Run

variable {sim sim' : Simulation}

/-- Some cycles end before the bound with the simulation finished, or all of them happened. -/
theorem cycle_of_rounds {n : Nat}
    (h : (stepWhile (!·.finished) step n sim).result = .ok sim') :
    sim'.maxCycles = sim.maxCycles
      ∧ (sim'.finished = true ∨ sim'.machine.cycle = sim.machine.cycle + n) := by
  induction n generalizing sim with
  | zero =>
      cases h
      exact ⟨rfl, Or.inr rfl⟩
  | succ n ih =>
      rw [stepWhile_succ] at h
      split at h
      · obtain ⟨next, hnext, h⟩ := result_bind_eq_ok.mp h
        obtain ⟨hcycle, hmax⟩ := step_clock hnext
        obtain ⟨hmax', hend⟩ := ih h
        exact ⟨hmax'.trans hmax, hend.imp_right fun hend => by omega⟩
      · rename_i hfin
        cases h
        exact ⟨rfl, Or.inl (by simpa using hfin)⟩

/-- As many cycles as there are to the bound: whether they are counted makes no difference. -/
theorem rounds_within {n : Nat} (hn : sim.machine.cycle + n ≤ sim.maxCycles) :
    stepWhile (!·.finished) step n sim = stepWhile goesOn step n sim := by
  induction n generalizing sim with
  | zero => rfl
  | succ n ih =>
      have hsame : sim.goesOn = !sim.finished := by
        unfold goesOn
        rw [decide_eq_true (by omega), Bool.and_true]
      rw [stepWhile_succ, stepWhile_succ, hsame]
      split
      · refine bind_congr_ok fun next hnext => ih ?_
        obtain ⟨hcycle, hmax⟩ := step_clock hnext
        omega
      · rfl

theorem goesOn_of_finished (h : sim.finished = true) : sim.goesOn = false := by
  unfold goesOn
  rw [h]
  rfl

/-- Printing leaves no records. -/
theorem printed_silent (lines : List String) :
    (lines.forM printLine).result = .ok ()
      ∧ Session.records (lines.forM printLine).transcript = [] := by
  induction lines with
  | nil => exact ⟨rfl, rfl⟩
  | cons line lines ih =>
      have hcons : (line :: lines).forM printLine
          = (printLine line >>= fun _ => lines.forM printLine) := rfl
      rw [hcons, bind_congr_of_ok rfl]
      exact ih

/-- **Commands that end with going on come to the end of the loop**, if they do not ask for more
cycles than it has. -/
theorem obey_alike {lines : List String} {counts : List Nat} {later : List StepCommand}
    (htyped : StepCommand.readAll lines = counts.map .step ++ .continue_ :: later)
    (hcounts : sim.machine.cycle + counts.sum ≤ sim.maxCycles) :
    (sim.obey lines).Alike
      (stepWhile goesOn step (sim.maxCycles - sim.machine.cycle) sim) := by
  induction lines generalizing sim counts with
  | nil => exact absurd htyped.symm (List.append_ne_nil_of_right_ne_nil _ (List.cons_ne_nil _ _))
  | cons line rest ih =>
      unfold obey
      cases hread : StepCommand.read line with
      | error e =>
          have hskip : StepCommand.readAll (line :: rest) = StepCommand.readAll rest :=
            List.filterMap_cons_none (by rw [hread]; rfl)
          exact Alike.after rfl rfl (ih (hskip ▸ htyped) hcounts)
      | ok command =>
          have htake : StepCommand.readAll (line :: rest)
              = command :: StepCommand.readAll rest :=
            List.filterMap_cons_some (by rw [hread]; rfl)
          rw [htake] at htyped
          cases counts with
          | nil =>
              cases (List.cons.inj htyped).1
              exact Alike.after rfl rfl (Alike.refl _)
          | cons n counts =>
              rw [List.map_cons, List.cons_append] at htyped
              obtain ⟨rfl, hrest⟩ := List.cons.inj htyped
              rw [List.sum_cons] at hcounts
              have hcut : sim.maxCycles - sim.machine.cycle
                  = n + (sim.maxCycles - sim.machine.cycle - n) := by omega
              dsimp only
              rw [rounds_within (by omega), hcut, stepWhile_add]
              refine Alike.bind fun next hnext => ?_
              rw [← rounds_within (by omega)] at hnext
              obtain ⟨hmax, hend⟩ := cycle_of_rounds hnext
              obtain ⟨hprinted, hsilent⟩ := printed_silent next.statusLines
              refine Alike.after hprinted hsilent ?_
              split
              · rename_i hfin
                rw [stepWhile_of_stopped (goesOn_of_finished hfin)]
                exact Alike.after rfl rfl (Alike.refl _)
              · rename_i hfin
                have hcycle := hend.resolve_left hfin
                have hleft : sim.maxCycles - sim.machine.cycle - n
                    = next.maxCycles - next.machine.cycle := by omega
                rw [hleft]
                exact ih hrest (by omega)

end Simulation

/-! ## Sessions -/

namespace Task

variable {α β : Type}

/-- Two tasks come to the same end and do the same to the files, whatever is told. -/
def SameWork (x y : Task (StateM Sandbox) α) : Prop :=
  ∀ s t : Sandbox, s.tree = t.tree →
    (ExceptT.run x s).1 = (ExceptT.run y t).1
      ∧ (ExceptT.run x s).2.tree = (ExceptT.run y t).2.tree

theorem sameWork_pure (a : α) : SameWork (pure a) (pure a) :=
  fun _ _ h => ⟨rfl, h⟩

theorem sameWork_tell (entries others : List Entry) : SameWork (tell entries) (tell others) :=
  fun _ _ h => ⟨rfl, h⟩

theorem sameWork_throw (stop : Stop) :
    SameWork (throw stop : Task (StateM Sandbox) α) (throw stop) :=
  fun _ _ h => ⟨rfl, h⟩

theorem sameWork_store (path text : String) : SameWork (store path text) (store path text) := by
  intro s t h
  rw [run_store, run_store, h]
  cases t.tree.store path text with
  | ok tree => exact ⟨rfl, rfl⟩
  | error cause => exact ⟨rfl, h⟩

theorem sameWork_bind {x y : Task (StateM Sandbox) α} {f g : α → Task (StateM Sandbox) β}
    (hx : SameWork x y) (hf : ∀ a, SameWork (f a) (g a)) : SameWork (x >>= f) (y >>= g) := by
  intro s t h
  obtain ⟨hresult, htree⟩ := hx s t h
  rw [run_bind, run_bind]
  rcases hrun : ExceptT.run x s with ⟨result, s₁⟩
  rcases hrun' : ExceptT.run y t with ⟨result', t₁⟩
  rw [hrun, hrun'] at hresult htree
  cases hresult
  cases result with
  | error stop => exact ⟨rfl, htree⟩
  | ok a => exact hf a s₁ t₁ htree

/-- Of a program only the end counts. -/
theorem sameWork_perform {x y : Run α} (h : x.result = y.result) :
    SameWork (perform x) (perform y) := by
  refine sameWork_bind (sameWork_tell _ _) fun _ => ?_
  rw [h]
  cases y.result with
  | ok a => exact sameWork_pure a
  | error fault => exact sameWork_throw _

end Task

namespace Session

/-- What a session does with the state that its cycles ended in. -/
def summarize (s : Session) (last : Simulation) :
    Task (StateM Sandbox) (Report × Simulation) := do
  if let some path := s.dumpFile then
    Task.store path (Image.write last.machine.memory.store.words.toList)
    Task.note (.memoryDumped path)
  return (← Task.perform last.report, last)

/-- What a session does when its cycles are over. -/
def close (s : Session) (cycles : Run Simulation) :
    Task (StateM Sandbox) (Report × Simulation) := do
  Task.tell (remarks cycles.transcript)
  let seen := records cycles.transcript
  if let some path := s.traceFile then Task.store path (traceText seen)
  let last ← Task.perform ⟨[], cycles.result⟩
  if s.traceFile.isSome then Task.note (.traceClosed seen.length)
  s.summarize last

/-- Runs the session in a sandbox: how it ends, and the sandbox after it. -/
def runIn (s : Session) (b : Sandbox) : Except Stop (Report × Simulation) × Sandbox :=
  ExceptT.run (s.run : Task (StateM Sandbox) _) b

/-- A run in a sandbox closes with the cycles that the typed lines make. -/
theorem runIn_eq (s : Session) (b : Sandbox) :
    s.runIn b = ExceptT.run (s.close (s.cycles (if s.stepMode then b.typed else []))) b := by
  unfold runIn run
  cases s.stepMode <;> rfl

theorem summarize_sameWork (s : Session) (last : Simulation) :
    Task.SameWork (s.summarize last) (s.summarize last) := by
  have hreport : Task.SameWork (do return (← Task.perform last.report, last))
      (do return (← Task.perform last.report, last)) :=
    Task.sameWork_bind (Task.sameWork_perform rfl) fun _ => Task.sameWork_pure _
  unfold summarize
  cases s.dumpFile with
  | none => exact hreport
  | some path =>
      refine Task.sameWork_bind (Task.sameWork_store _ _) fun _ => ?_
      exact Task.sameWork_bind (Task.sameWork_tell _ _) fun _ => hreport

/-- **A session leaves behind what the end of its cycles and their records say.** -/
theorem close_sameWork (s : Session) {x y : Run Simulation} (h : x.Alike y) :
    Task.SameWork (s.close x) (s.close y) := by
  obtain ⟨hresult, hrecords⟩ := h
  unfold close
  rw [hrecords, hresult]
  refine Task.sameWork_bind (Task.sameWork_tell _ _) fun _ => ?_
  cases s.traceFile with
  | none => exact Task.sameWork_bind (Task.sameWork_perform rfl) s.summarize_sameWork
  | some path =>
      refine Task.sameWork_bind (Task.sameWork_store _ _) fun _ => ?_
      refine Task.sameWork_bind (Task.sameWork_perform rfl) fun last => ?_
      exact Task.sameWork_bind (Task.sameWork_tell _ _) fun _ => s.summarize_sameWork last

end Session

/-- **Step mode and continuous mode leave the same behind.** Under commands that ask for no more
cycles than the bound allows and end with going on, a session comes to the same report and the
same state, and leaves the same files, as one that runs on by itself. Both take the same number of
steps, and none of them where the simulation was finished or at its bound. -/
theorem step_mode_agrees {s : Session} {b : Sandbox} {counts : List Nat}
    {later : List StepCommand} (hstart : s.simulation.machine.cycle = 0)
    (htyped : StepCommand.readAll b.typed = counts.map .step ++ .continue_ :: later)
    (hcounts : counts.sum ≤ s.simulation.maxCycles) :
    let stepped := { s with stepMode := true }.runIn b
    let ran := { s with stepMode := false }.runIn b
    stepped.1 = ran.1 ∧ stepped.2.tree = ran.2.tree
      ∧ ∃ n, (s.simulation.runSteps b.typed).Alike (Run.stepTimes Simulation.step n s.simulation)
        ∧ s.simulation.runOn.Alike (Run.stepTimes Simulation.step n s.simulation)
        ∧ ∀ k, k < n → ∀ sim, (Run.stepTimes Simulation.step k s.simulation).result = .ok sim →
          sim.finished = false ∧ sim.machine.cycle < sim.maxCycles := by
  intro stepped ran
  have hbound : s.simulation.machine.cycle + counts.sum ≤ s.simulation.maxCycles := by omega
  have hloop := Simulation.obey_alike htyped hbound
  have hsteps : (s.simulation.runSteps b.typed).Alike _ := Run.Alike.after rfl rfl hloop
  have hon : s.simulation.runOn.Alike (Run.stepWhile Simulation.goesOn Simulation.step
      (s.simulation.maxCycles - s.simulation.machine.cycle) s.simulation) :=
    Run.Alike.after rfl rfl (Run.Alike.refl _)
  have hsame : (s.simulation.runSteps b.typed).Alike s.simulation.runOn :=
    ⟨hsteps.result.trans hon.result.symm, hsteps.records.trans hon.records.symm⟩
  obtain ⟨hresult, htree⟩ := s.close_sameWork hsame b b rfl
  obtain ⟨n, _, hcut, hgoes⟩ := Run.stepWhile_eq_stepTimes Simulation.goesOn Simulation.step
    (s.simulation.maxCycles - s.simulation.machine.cycle) s.simulation
  rw [hcut] at hsteps hon
  have hstepped : stepped = ExceptT.run (s.close (s.simulation.runSteps b.typed)) b :=
    Session.runIn_eq _ b
  have hran : ran = ExceptT.run (s.close s.simulation.runOn) b := Session.runIn_eq _ b
  refine ⟨?_, ?_, n, hsteps, hon, fun k hk sim hsim => ?_⟩
  · rw [hstepped, hran, hresult]
  · rw [hstepped, hran, htree]
  · obtain ⟨hfin, hbound⟩ := Bool.and_eq_true_iff.mp (hgoes k hk sim hsim)
    exact ⟨by simpa using hfin, of_decide_eq_true hbound⟩

/-- A session that plays the script of two words, with a trace. -/
def Session.twoWords (s : Machine) : Session where
  simulation := { Simulation.ofMachine { s with capture := true } [BurstDma.twoWords] 100 with
    traced := true }
  traceFile := some "trace"

/-- The script of two words under commands, one of which cannot be read. The end falls into the
last of the steps, and a trace is left behind. -/
theorem step_mode_agrees_two_words :
    ∃ s b report last,
      s.cycle = 0
      ∧ b = { typed := ["", "si 3", "sj 4", "si 60", "c", "q"] }
      ∧ StepCommand.readAll b.typed = [1, 3, 60].map .step ++ .continue_ :: [.quit]
      ∧ [1, 3, 60].sum ≤ (Session.twoWords s).simulation.maxCycles
      ∧ ({ Session.twoWords s with stepMode := false }.runIn b).1 = .ok (report, last)
      ∧ last.finished = true ∧ 4 < last.machine.cycle ∧ last.machine.cycle < 64
      ∧ ({ Session.twoWords s with stepMode := true }.runIn b).1 = .ok (report, last)
      ∧ ({ Session.twoWords s with stepMode := true }.runIn b).2.tree
        = ({ Session.twoWords s with stepMode := false }.runIn b).2.tree
      ∧ ({ Session.twoWords s with stepMode := false }.runIn b).2.tree ≠ b.tree := by
  have hrun : Machine.trial { ports := [{}, {}], memory := { sizeWords := 64 } } [] (fun _ s =>
      decide (s.cycle = 0)
        && decide (({ Session.twoWords s with stepMode := false }.runIn
          { typed := ["", "si 3", "sj 4", "si 60", "c", "q"] }).2.tree ≠ Sandbox.tree {})
        && ({ Session.twoWords s with stepMode := false }.runIn
          { typed := ["", "si 3", "sj 4", "si 60", "c", "q"] }).1.toOption.any
          fun (r : Report × Simulation) =>
            decide (r.2.finished = true ∧ 4 < r.2.machine.cycle ∧ r.2.machine.cycle < 64))
        = true := by
    decide +kernel
  obtain ⟨_, _, s, _, _, hlook⟩ := Machine.exists_of_trial hrun
  obtain ⟨hlook, hran⟩ := Bool.and_eq_true_iff.mp hlook
  obtain ⟨hstart, htree⟩ := Bool.and_eq_true_iff.mp hlook
  have hstart := of_decide_eq_true hstart
  obtain ⟨⟨report, last⟩, hend, hlast⟩ := (Option.any_eq_true ..).mp hran
  have hend := ok_of_toOption hend
  obtain ⟨hfin, hlate, hearly⟩ := of_decide_eq_true hlast
  have htyped : StepCommand.readAll ["", "si 3", "sj 4", "si 60", "c", "q"]
      = [1, 3, 60].map .step ++ .continue_ :: [.quit] := by
    decide +kernel
  have hcounts : [1, 3, 60].sum ≤ (Session.twoWords s).simulation.maxCycles :=
    show 64 ≤ 100 by decide
  obtain ⟨hsame, htrees, _⟩ := step_mode_agrees (s := Session.twoWords s)
    (b := { typed := ["", "si 3", "sj 4", "si 60", "c", "q"] }) hstart htyped hcounts
  exact ⟨s, _, report, last, hstart, rfl, htyped, hcounts, hend, hfin, hlate, hearly,
    hsame.trans hend, htrees, of_decide_eq_true htree⟩

end BurstDma
