import BurstDma.Proofs.ReadOwnership

/-!
# Read data comes in order

The arbiter stops the machine when a beat names another requester than the oldest owner.
**It never does.** The queue of owners mirrors the reads in flight, so the check holds in
every cycle; and nothing else in a cycle makes that check, whatever other fault may end it.
`Orderly` says the latter about a program, and there is one lemma for each part of a cycle.
-/

namespace BurstDma

/-- The program does not end with a beat out of order. -/
def Orderly {α : Type} (x : Except Fault α) : Prop :=
  x ≠ .error (.violation .readOutOfOrder)

section

variable {α β : Type}

theorem orderly_ok (a : α) : Orderly (.ok a) := by
  intro h; cases h

theorem orderly_bind {x : Except Fault α} {f : α → Except Fault β} (hx : Orderly x)
    (hf : ∀ a, x = .ok a → Orderly (f a)) : Orderly (x >>= f) := by
  cases x with
  | error fault =>
      intro h
      cases h
      exact hx rfl
  | ok a => exact hf a rfl

theorem Run.orderly_bind {x : Run α} {f : α → Run β} (hx : Orderly x.result)
    (hf : ∀ a, x.result = .ok a → Orderly (f a).result) : Orderly (x >>= f).result := by
  rw [Run.result_bind]
  exact BurstDma.orderly_bind hx hf

theorem Run.orderly_noteIf (b : Bool) (n : Notice) : Orderly (noteIf b n).result := by
  rw [result_noteIf]
  exact orderly_ok _

theorem Checked.orderly_add (limit a b : Nat) : Orderly (add limit a b) := by
  unfold add
  split <;> intro h <;> cases h

theorem Checked.orderly_sub (a b : Nat) : Orderly (sub a b) := by
  unfold sub
  split <;> intro h <;> cases h

theorem orderly_mapM {f : α → Except Fault β} {xs : List α} (h : ∀ x, Orderly (f x)) :
    Orderly (xs.mapM f) := by
  induction xs with
  | nil => exact orderly_ok _
  | cons x xs ih =>
      rw [List.mapM_cons]
      exact orderly_bind (h x) fun _ _ => orderly_bind ih fun _ _ => orderly_ok _

end

theorem Store.orderly_locate (s : Store) (addr : Nat) : Orderly (s.locate addr) := by
  unfold locate
  split
  · exact orderly_ok _
  · refine orderly_bind ?_ fun _ _ => ?_
    · unfold Geometry.wordIndex Checked.div
      split <;> intro h <;> cases h
    · split <;> exact orderly_ok _

theorem Memory.orderly_readWires (m : Memory) : Orderly m.readWires := by
  unfold readWires
  dsimp only
  split
  · exact orderly_ok _
  · refine orderly_bind ?_ fun _ _ => orderly_ok _
    refine orderly_bind (Checked.orderly_add _ _ _) fun _ _ => ?_
    refine orderly_bind ?_ fun _ _ => orderly_ok _
    refine orderly_bind (Store.orderly_locate _ _) fun r _ => ?_
    cases r <;> exact orderly_ok _

theorem Memory.orderly_storeBeats (addr i : Nat) (s : Store) (worst : Resp)
    (beats : List WriteBeat) : Orderly (storeBeats addr i s worst beats) := by
  induction beats generalizing i s worst with
  | nil => exact orderly_ok _
  | cons beat rest ih =>
      unfold storeBeats
      refine orderly_bind (Checked.orderly_add _ _ _) fun _ _ => ?_
      refine orderly_bind ?_ fun _ _ => ih _ _ _
      refine orderly_bind (Store.orderly_locate _ _) fun r _ => ?_
      cases r <;> exact orderly_ok _

theorem Memory.orderly_tick (m : Memory) (reads : ReadBus) (writes : WriteBus) :
    Orderly (m.tick reads writes).result := by
  refine Run.orderly_bind ?_ fun _ _ => orderly_ok _
  unfold tickWrites
  dsimp only
  split
  · refine Run.orderly_bind (Run.orderly_noteIf _ _) fun _ _ => ?_
    refine Run.orderly_bind (orderly_storeBeats _ _ _ _ _) fun _ _ => ?_
    exact Run.orderly_bind (Run.orderly_noteIf _ _) fun _ _ => orderly_ok _
  · exact orderly_ok _

theorem Skid.orderly_tick {α : Type} (s : Skid α) (pushed : Option α) (popped : Bool) :
    Orderly (s.tick pushed popped) := by
  intro h
  obtain ⟨_, _, _, _, hfault⟩ := Skid.tick_eq_error_iff.mp h
  cases hfault

/-- The arbiter checks the order of the data; its other checks are about other things. -/
theorem ReadArbiter.orderly_tick {a : ReadArbiter} {w : ReadWires}
    (h : ∀ b, a.deliveredBeat w = some b → (a.ownersAfterGrant w).head? = some b.id) :
    Orderly (a.tick w).result := by
  have hskid : ∀ {α : Type} (c : Bool) (t : Skid α) (x : Option α) (y : Bool),
      Orderly (if c then t.tick x y else .ok t) := by
    intro α c t x y
    cases c
    · exact orderly_ok _
    · exact Skid.orderly_tick _ _ _
  refine Run.orderly_bind ?_ fun _ _ => ?_
  · show Orderly (a.nextInputs w)
    unfold nextInputs
    split
    · exact orderly_mapM fun _ => Skid.orderly_tick _ _ _
    · exact orderly_ok _
  refine Run.orderly_bind (Run.orderly_noteIf _ _) fun _ _ => ?_
  refine Run.orderly_bind (hskid _ _ _ _) fun _ _ => ?_
  refine Run.orderly_bind ?_ fun _ _ => Run.orderly_bind (hskid _ _ _ _) fun _ _ => orderly_ok _
  rw [Run.result_liftM]
  unfold deliveredBeat ownersAfterGrant at h
  split
  · exact orderly_ok _
  · rename_i b hb
    rw [if_pos (h b hb)]
    exact orderly_ok _

theorem WriteArbiter.orderly_tick (a : WriteArbiter) (w : WriteWires) :
    Orderly (a.tick w).result := by
  unfold tick
  dsimp only
  split
  · split
    · exact orderly_ok _
    · split <;> exact orderly_ok _
  · exact orderly_ok _
  · exact orderly_ok _
  · split <;> exact orderly_ok _

theorem AddrReq.orderly_incrementing (addr beats : Nat) (g : Geometry) :
    Orderly (incrementing addr beats g) := by
  unfold incrementing
  split <;> intro h <;> cases h

theorem Pending.orderly_retire (p : Pending) (last : Bool) : Orderly (p.retire last).result :=
  Run.orderly_bind (Run.orderly_noteIf _ _) fun _ _ =>
    Run.orderly_bind (Run.orderly_noteIf _ _) fun _ _ => orderly_ok _

theorem Pending.orderly_issue (p : Pending) (beats : Nat) : Orderly (p.issue beats) :=
  orderly_bind (Checked.orderly_add _ _ _) fun _ _ =>
    orderly_bind (Checked.orderly_add _ _ _) fun _ _ => orderly_ok _

theorem ReadCore.orderly_proceed (g : Geometry) (before : Pending) (c : ReadCore)
    (i : ReadInputs) : Orderly (proceed g before c i) := by
  unfold proceed
  split
  · split <;> exact orderly_ok _
  · exact orderly_ok _
  · exact orderly_ok _
  · exact orderly_bind (AddrReq.orderly_incrementing _ _ _) fun _ _ => orderly_ok _
  · refine orderly_bind ?_ fun _ _ => orderly_ok _
    exact orderly_bind (Checked.orderly_add _ _ _) fun _ _ => orderly_ok _
  · split
    · refine orderly_bind (Pending.orderly_issue _ _) fun _ _ => ?_
      refine orderly_bind (Checked.orderly_add _ _ _) fun _ _ => ?_
      exact orderly_bind (Checked.orderly_sub _ _) fun _ _ => orderly_ok _
    · exact orderly_ok _
  · exact orderly_ok _
  · exact orderly_ok _
  · exact orderly_ok _

theorem ReadEngine.orderly_tick (e : ReadEngine) (i : ReadInputs) :
    Orderly (e.tick i).result := by
  refine Run.orderly_bind (Run.orderly_bind ?_ fun _ _ => ?_) fun _ _ => ?_
  · unfold ReadCore.receive
    dsimp only
    split
    · exact orderly_ok _
    · refine Run.orderly_bind (Pending.orderly_retire _ _) fun _ _ => ?_
      exact Run.orderly_bind (Checked.orderly_add _ _ _) fun _ _ => orderly_ok _
  · exact Run.orderly_bind (ReadCore.orderly_proceed _ _ _ _) fun _ _ => orderly_ok _
  · refine Run.orderly_bind ?_ fun _ _ => orderly_ok _
    rw [report_ok]
    exact orderly_ok _

theorem WriteCore.orderly_proceed (g : Geometry) (c : WriteCore) (i : WriteInputs) :
    Orderly (c.proceed g i).result := by
  unfold proceed
  split
  · split <;> exact orderly_ok _
  · exact orderly_ok _
  · exact orderly_ok _
  · split
    · exact orderly_ok _
    · exact Run.orderly_bind (AddrReq.orderly_incrementing _ _ _) fun _ _ => orderly_ok _
  · split
    · refine Run.orderly_bind (Pending.orderly_issue _ _) fun _ _ => ?_
      exact Run.orderly_bind (Checked.orderly_add _ _ _) fun _ _ => orderly_ok _
    · exact orderly_ok _
  · split
    · refine Run.orderly_bind ?_ fun _ _ => orderly_ok _
      refine Run.orderly_bind (Pending.orderly_retire _ _) fun _ _ => ?_
      refine Run.orderly_bind (Checked.orderly_add _ _ _) fun _ _ => ?_
      refine Run.orderly_bind (Checked.orderly_add _ _ _) fun _ _ => ?_
      dsimp only
      split
      · exact Run.orderly_bind (Checked.orderly_add _ _ _) fun _ _ => orderly_ok _
      · exact orderly_ok _
    · exact orderly_ok _
  · exact orderly_ok _
  · exact orderly_ok _

theorem WriteEngine.orderly_tick (e : WriteEngine) (i : WriteInputs) :
    Orderly (e.tick i).result := by
  refine Run.orderly_bind (Run.orderly_bind ?_ fun r _ => r.orderly_proceed _ i) fun _ _ => ?_
  · unfold WriteCore.receive
    dsimp only
    split
    · exact orderly_ok _
    · exact Run.orderly_bind (Run.orderly_noteIf _ _) fun _ _ => orderly_ok _
  · refine Run.orderly_bind ?_ fun _ _ => orderly_ok _
    rw [report_ok]
    exact orderly_ok _

theorem Fifo.orderly_pop (f : Fifo) : Orderly f.pop := by
  unfold pop
  split
  · exact orderly_ok _
  · split
    · exact orderly_bind (Checked.orderly_sub _ _) fun _ _ => orderly_ok _
    · exact orderly_ok _

theorem Port.orderly_tick (p : Port) (reads : ReadBus) (writes : WriteBus) :
    Orderly (p.tick reads writes).result := by
  refine Run.orderly_bind ?_ fun p₁ _ => Run.orderly_bind ?_ fun p₂ _ => ?_
  · refine Run.orderly_bind (p.reader.orderly_tick _) ?_
    rintro ⟨reader, step⟩ _
    dsimp only
    split
    · exact orderly_ok _
    · split <;> exact orderly_ok _
  · refine Run.orderly_bind (p₁.writer.orderly_tick _) ?_
    rintro ⟨writer, step⟩ _
    refine Run.orderly_bind ?_ fun _ _ => orderly_ok _
    rw [Run.result_liftM]
    split
    · intro h
      cases hp : p₁.writeFifo.pop with
      | ok r =>
          rw [hp] at h
          cases h
      | error fault =>
          rw [hp] at h
          cases h
          exact Fifo.orderly_pop _ hp
    · exact orderly_ok _
  · refine orderly_bind ?_ fun _ _ => orderly_ok _
    unfold Sink.tick
    split
    · exact orderly_ok _
    · refine orderly_bind (Fifo.orderly_pop _) ?_
      rintro ⟨beat, f⟩ _
      cases beat <;> exact orderly_ok _

theorem Machine.orderly_tickPorts (ps : List Port) (rs : List ReadBus) (ws : List WriteBus) :
    Orderly (tickPorts ps rs ws).result := by
  induction ps generalizing rs ws with
  | nil =>
      rw [tickPorts]
      · exact orderly_ok _
      · intro p ps r rs w ws hp; cases hp
  | cons p ps ih =>
      unfold tickPorts
      split
      · rename_i heq
        cases heq
        exact Run.orderly_bind (Port.orderly_tick _ _ _) fun _ _ =>
          Run.orderly_bind (ih _ _) fun _ _ => orderly_ok _
      · exact orderly_ok _

namespace Machine

variable {params : MachineParams} {s : Machine}

theorem orderly_tick {bound : Nat} (hf : s.ReadPathFormed) (hm : s.Mirrored bound) :
    Orderly s.tick.result := by
  refine Run.orderly_bind ?_ fun w hw => ?_
  · exact orderly_bind (Memory.orderly_readWires _) fun _ _ => orderly_ok _
  obtain ⟨slave, hs, rfl⟩ := wires_eq_ok hw
  refine Run.orderly_bind (Memory.orderly_tick _ _ _) fun _ _ => ?_
  refine Run.orderly_bind ?_ fun _ _ => ?_
  · exact ReadArbiter.orderly_tick fun b hb => delivered_owner hf hm hs hb
  refine Run.orderly_bind (WriteArbiter.orderly_tick _ _) fun _ _ => ?_
  exact Run.orderly_bind (orderly_tickPorts _ _ _) fun _ _ => orderly_ok _

/-- **The owners are the reads in flight.** In every reachable state of a machine the queue
of owners lists the bursts whose last beat is held, then those queued in the memory, then
those granted and not accepted by it; it is never longer than the memory allows, and every
reader counts the bursts that are its own there or in its register. So a granted request is
one of the port whose number it carries, the beat on the data channel reaches the port that
it names and no other, and no cycle finds data out of order. -/
theorem owners_mirror_reads (h : Machine.Reachable params s) :
    s.readArbiter.owners.ids
        = (s.readArbiter.data.contents.filter (·.last)).map (·.id)
          ++ s.memory.reads.map (·.request.id)
          ++ s.readArbiter.granted.contents.map (·.id)
      ∧ s.readArbiter.owners.ids.length ≤ params.memory.readOutstanding
      ∧ (∀ (i : Nat) (p : Port), s.ports[i]? = some p →
          p.reader.core.pending.bursts
            = s.readArbiter.owners.ids.count i + (s.readArbiter.waiting i).length)
      ∧ (∀ (slave : ReadSlave), s.memory.readWires = .ok slave →
          (∀ r, (s.reads slave).grant = some r → ∃ p offer, s.ports[r.id]? = some p
            ∧ (s.readArbiter.waiting r.id ++ (s.readBus slave r.id p).arFired.toList).head?
              = some offer
            ∧ r = { offer with id := r.id })
          ∧ ∀ b, s.readArbiter.incoming slave = some b →
            (∃ p, s.ports[b.id]? = some p ∧ (s.readBus slave b.id p).rFired = some b)
            ∧ ∀ (j : Nat) (q : Port), s.ports[j]? = some q → j ≠ b.id →
              (s.readBus slave j q).rFired = none)
      ∧ s.tick.result ≠ .error (.violation .readOutOfOrder) := by
  obtain ⟨hf, hm⟩ := mirrored_reachable h
  refine ⟨hm.owners, hm.size, hm.counted, ?_, orderly_tick hf.reads hm⟩
  intro slave hs
  exact ⟨fun r hr => granted_port hf.reads hr, fun b hb => beat_delivered hf.reads hm hs hb⟩

/-- Four readers ask at the same time. When the first beat comes back, one burst is held, one
queues in the memory, one is on its way there and one waits in its register; the first three
have an owner. -/
theorem owners_mirror_reads_four_ports :
    ∃ s, Machine.Reachable
        { ports := [{}, {}, {}, {}]
          inputRegister := true
          outputRegister := true
          memory := { readLatency := 1 } } s
      ∧ s.memory.reads.map (·.request.id) = [1] ∧ s.readArbiter.owners.ids = [0, 1, 2]
      ∧ (∃ p, s.ports[3]? = some p ∧ p.reader.core.pending.bursts = 1)
      ∧ s.tick.result ≠ .error (.violation .readOutOfOrder) := by
  have hrun : trial
      { ports := [{}, {}, {}, {}]
        inputRegister := true
        outputRegister := true
        memory := { readLatency := 1 } }
      (Operation.program 0 .reader 0 3 1 ++ Operation.program 1 .reader 64 3 1
        ++ Operation.program 2 .reader 64 3 1 ++ Operation.program 3 .reader 8 3 1
        ++ List.replicate 9 .tick)
      (fun _ s => (s.readArbiter.data.contents.filter (·.last)).map (·.id) == [0]
        && (s.memory.reads.map (·.request.id) == [1]
        && (s.readArbiter.granted.contents.map (·.id) == [2]
        && ((s.readArbiter.waiting 3).length == 1 && s.ports.length == 4)))) = true := by
    decide +kernel
  obtain ⟨s₀, past, s, h₀, h, hlook⟩ := exists_of_trial hrun
  simp only [Bool.and_eq_true, beq_iff_eq] at hlook
  obtain ⟨hdata, hreads, hgranted, hwait, hports⟩ := hlook
  have hreach : Machine.Reachable
      { ports := [{}, {}, {}, {}]
        inputRegister := true
        outputRegister := true
        memory := { readLatency := 1 } } s := ⟨s₀, past, h₀, h⟩
  obtain ⟨howners, _, hcounted, _, hsafe⟩ := owners_mirror_reads hreach
  rw [hdata, hreads, hgranted] at howners
  have hp : s.ports[3]? = some s.ports[3] := List.getElem?_eq_getElem (by omega)
  have hcount := hcounted 3 _ hp
  rw [howners, hwait] at hcount
  exact ⟨s, hreach, hreads, howners, ⟨_, hp, hcount⟩, hsafe⟩

end Machine

end BurstDma
