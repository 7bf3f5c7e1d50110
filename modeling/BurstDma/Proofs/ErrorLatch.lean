import BurstDma.Engine.Reader
import BurstDma.Engine.Writer
import BurstDma.Proofs.Result

/-!
# A response reaches the error latch and nothing else

An engine reads a response code in one place, and what it does with it is to keep it. So two
engines that hear different codes cannot be told apart by anything but their latches: in every
cycle they are in the same phase, drive the same wires, ask for the same bursts and move the same
words, and if one of them stops at a fault then so does the other.

Both engines are registers with a latch beside them. **A clock edge does to the other registers
what it does to them when no error is heard**, and to the latch what was heard. This is one law
about one edge, and what is said here of runs follows from it for any registers.
-/

namespace BurstDma

/-! ## What a latch should hold -/

/-- What an engine hears of errors in a cycle. -/
structure Heard where
  clear : Bool
  response : Option Resp
deriving Repr, DecidableEq

namespace Heard

/-- The error in the response, if it is one. -/
def error? (h : Heard) : Option Resp :=
  h.response.filter Resp.isError

/-- The cycles from the last one that clears on: a cycle is left out if another one clears after
it. -/
def sinceClear : List Heard → List Heard
  | [] => []
  | h :: later => if later.any (·.clear) then sinceClear later else h :: later

/-- The last error since the latch was cleared, if there is one. A response in the cycle of the
clear counts. -/
def lastError (past : List Heard) : Resp :=
  ((sinceClear past).filterMap error?).getLast?.getD .okay

/-- What a cycle makes of a latch: it is cleared, and then takes the error. -/
def latch (h : Heard) (before : Resp) : Resp :=
  h.error?.getD (if h.clear then .okay else before)

theorem sinceClear_concat (past : List Heard) (h : Heard) :
    sinceClear (past ++ [h]) = if h.clear then [h] else sinceClear past ++ [h] := by
  induction past with
  | nil => exact (ite_self _).symm
  | cons first past ih =>
      rw [List.cons_append, sinceClear, List.any_append, ih, sinceClear]
      cases hclear : h.clear with
      | true => simp [hclear]
      | false => cases past.any (·.clear) <;> simp [hclear]

/-- **A latch that is cleared first and then takes the error holds the last one.** -/
theorem lastError_concat (past : List Heard) (h : Heard) :
    lastError (past ++ [h]) = h.latch (lastError past) := by
  rw [lastError, sinceClear_concat, latch]
  cases h.clear with
  | true => cases herr : h.error? <;> simp [herr]
  | false => cases herr : h.error? <;> simp [herr, lastError]

/-- A latch that is clear after a cycle has heard no error in it. -/
theorem okay_of_latch {h : Heard} {before : Resp} (hl : h.latch before = .okay) :
    ∀ r ∈ h.response, r = .okay := by
  intro r hr
  refine Decidable.byContradiction fun hne => ?_
  have herror : h.error? = some r := by
    rw [error?, hr, Option.filter_some, if_pos (by simpa [Resp.isError] using hne)]
  rw [latch, herror] at hl
  exact hne hl

end Heard

/-! ## Registers with a latch -/

section

variable {C I S : Type} {next : C → I → Run (C × S)} {error : C → Resp} {setError : Resp → C → C}
  {heard : I → Heard} {hush : I → I} {c : C}

/-- The registers after each of some clock edges, with what the edge did besides. -/
def clocked (next : C → I → Run (C × S)) (c : C) : List I → Except Fault (List (C × S))
  | [] => .ok []
  | i :: inputs => do
    let edge ← (next c i).result
    return edge :: (← clocked next edge.1 inputs)

/-- Nothing but its latch makes registers differ from what they are when no error is heard.
`hush` takes from the inputs what is `heard`. -/
structure Latches (next : C → I → Run (C × S)) (error : C → Resp) (setError : Resp → C → C)
    (heard : I → Heard) (hush : I → I) : Prop where
  error_set : ∀ e c, error (setError e c) = e
  set_set : ∀ e f c, setError e (setError f c) = setError e c
  edge : ∀ c i, (next c i).result
    = (next (setError .okay c) (hush i)).result.map
        (Prod.map (setError ((heard i).latch (error c))) id)

namespace Latches

/-- What a clock edge leaves in the latch. -/
theorem error_next (l : Latches next error setError heard hush) {i : I} {edge : C × S}
    (h : (next c i).result = .ok edge) : error edge.1 = (heard i).latch (error c) := by
  rw [l.edge] at h
  obtain ⟨⟨hushed, _⟩, _, rfl⟩ := except_map_eq_ok.mp h
  exact l.error_set _ hushed

/-- Registers whose latch is clear after a clock edge have heard no error at it. -/
theorem heard_okay (l : Latches next error setError heard hush) {i : I} {edge : C × S}
    (h : (next c i).result = .ok edge) (hokay : error edge.1 = .okay) :
    ∀ r ∈ (heard i).response, r = .okay :=
  Heard.okay_of_latch ((l.error_next h).symm.trans hokay)

/-- What is in the latch after each cycle of a run. -/
theorem error_eq (l : Latches next error setError heard hush) (before : List Heard)
    (hc : error c = Heard.lastError before) {inputs : List I} {edges : List (C × S)}
    (hrun : clocked next c inputs = .ok edges) :
    edges.map (error ·.1) = (List.range inputs.length).map fun k =>
      Heard.lastError (before ++ (inputs.take (k + 1)).map heard) := by
  induction inputs generalizing c before edges with
  | nil =>
      cases hrun
      rfl
  | cons i inputs ih =>
      obtain ⟨⟨c', step⟩, hnext, hrun⟩ := except_bind_eq_ok.mp hrun
      obtain ⟨later, hlater, hrun⟩ := except_bind_eq_ok.mp hrun
      cases hrun
      have hc' : error c' = Heard.lastError (before ++ [heard i]) := by
        rw [Heard.lastError_concat, ← hc]
        exact l.error_next hnext
      rw [List.map_cons, ih _ hc' hlater, List.length_cons, List.range_succ_eq_map, List.map_cons,
        List.map_map]
      simp [hc', Function.comp_def]

/-- **Two runs cannot be told apart by anything but the latch**, if what they were given differs
in nothing but what is heard of errors. They also stop at the same fault, if at any. -/
theorem alike {β : Type} {look : C × S → β} (l : Latches next error setError heard hush)
    (hlook : ∀ e edge, look (Prod.map (setError e) id edge) = look edge) {d : C}
    (hcd : setError .okay c = setError .okay d) {is js : List I}
    (hsame : is.map hush = js.map hush) :
    (clocked next c is).map (List.map look) = (clocked next d js).map (List.map look) := by
  induction is generalizing c d js with
  | nil =>
      rw [List.map_nil, eq_comm, List.map_eq_nil_iff] at hsame
      rw [hsame]
      rfl
  | cons i is ih =>
      obtain ⟨j, js, rfl, hij, hrest⟩ := List.map_eq_cons_iff.mp hsame.symm
      have hi := l.edge c i
      have hj := l.edge d j
      rw [hij, ← hcd] at hj
      rw [clocked, clocked, hi, hj]
      cases (next (setError .okay c) (hush i)).result with
      | error fault => rfl
      | ok edge =>
          have hlater := ih (c := setError ((heard i).latch (error c)) edge.1)
            (d := setError ((heard j).latch (error d)) edge.1)
            (by rw [l.set_set, l.set_set]) hrest.symm
          have hcons : ∀ (e : C × S) (x : Except Fault (List (C × S))),
              (x >>= fun later => .ok (e :: later)).map (List.map look)
                = (x.map (List.map look)).map (look e :: ·) := by
            intro e x
            cases x <;> rfl
          refine (hcons _ _).trans (Eq.trans ?_ (hcons _ _).symm)
          rw [hlook, hlook]
          exact congrArg (Except.map (look edge :: ·)) hlater

end Latches

end

/-! ## The reader -/

namespace ReadInputs

def heard (i : ReadInputs) : Heard where
  clear := i.clearError
  response := i.beat.map (·.resp)

/-- All of the inputs but what is heard of errors. -/
def hush (i : ReadInputs) : ReadInputs :=
  { i with beat := i.beat.map ({ · with resp := .okay }), clearError := false }

end ReadInputs

namespace ReadCore

def setError (e : Resp) (c : ReadCore) : ReadCore :=
  { c with error := e }

/-- What can be seen of a clock edge beside the latch. -/
def seen (edge : ReadCore × ReadStep) : ReadCore × ReadOutputs × ReadStep :=
  (edge.1.setError .okay, edge.1.outputs, edge.2)

theorem receive_latches (c : ReadCore) (i : ReadInputs) :
    (c.receive i).result = ((c.setError .okay).receive i.hush).result.map
      (Prod.map (setError (i.heard.latch c.error)) id) := by
  obtain ⟨desc, fifoFree, arFires, beat, clear⟩ := i
  cases beat with
  | none => cases clear <;> rfl
  | some beat =>
      obtain ⟨id, data, resp, last⟩ := beat
      unfold receive ReadInputs.hush
      simp only [Option.map_some, Run.result_bind, Run.result_liftM, Bool.false_eq_true, setError,
        apply_ite pending, apply_ite delivered, ite_self]
      cases (c.pending.retire last).result with
      | error fault => rfl
      | ok pending =>
          cases Checked.add limit32 c.delivered 1 with
          | error fault => rfl
          | ok delivered => cases resp <;> cases clear <;> rfl

/-- Moving on does not look at the latch. -/
theorem proceed_setError (g : Geometry) (before : Pending) (c : ReadCore) (i : ReadInputs)
    (e : Resp) :
    proceed g before (c.setError e) i
      = (proceed g before c i.hush).map (Prod.map (setError e) id) := by
  obtain ⟨phase, addr, remaining, length, delivered, maxBurst, candidate, burst, request, pending,
    error⟩ := c
  unfold proceed ReadInputs.hush setError
  cases phase with
  | idle => cases i.desc <;> rfl
  | sizing => rfl
  | clamping => rfl
  | encoding => cases AddrReq.incrementing addr burst g <;> rfl
  | waitForCredit => cases before.readCredit i.fifoFree burst <;> rfl
  | issueBurst =>
      cases i.arFires with
      | false => rfl
      | true =>
          dsimp only
          cases pending.issue burst with
          | error fault => rfl
          | ok pending =>
              cases g.advance addr burst with
              | error fault => rfl
              | ok addr => cases Checked.sub remaining burst <;> rfl
  | transferBurst => rfl
  | waitForCompletion => rfl
  | done => rfl

theorem latches (g : Geometry) :
    Latches (next g) error setError ReadInputs.heard ReadInputs.hush where
  error_set _ _ := rfl
  set_set _ _ _ := rfl
  edge c i := by
    unfold next
    rw [Run.result_bind, Run.result_bind, receive_latches]
    cases ((c.setError .okay).receive i.hush).result with
    | error fault => rfl
    | ok received =>
        simp only [Except.map, Except.bind, Run.result_bind, Run.result_liftM]
        rw [Prod.map_fst, proceed_setError]
        have hbefore : (c.setError .okay).pending = c.pending := rfl
        rw [hbefore]
        cases proceed g c.pending received.1 i.hush <;> rfl

end ReadCore

/-! ## The writer -/

namespace WriteInputs

def heard (i : WriteInputs) : Heard where
  clear := i.clearError
  response := i.b.map (·.resp)

/-- All of the inputs but what is heard of errors. -/
def hush (i : WriteInputs) : WriteInputs :=
  { i with b := i.b.map ({ · with resp := .okay }), clearError := false }

end WriteInputs

namespace WriteCore

def setError (e : Resp) (c : WriteCore) : WriteCore :=
  { c with error := e }

/-- What can be seen of a clock edge beside the latch. The wires are those for any beat at the
front of the buffer. -/
def seen (edge : WriteCore × WriteStep) : WriteCore × (Option Beat → WriteOutputs) × WriteStep :=
  (edge.1.setError .okay, edge.1.outputs, edge.2)

theorem receive_latches (c : WriteCore) (i : WriteInputs) :
    (c.receive i).result = ((c.setError .okay).receive i.hush).result.map
      (setError (i.heard.latch c.error)) := by
  obtain ⟨desc, fifoLevel, frameHeld, awFires, wFires, b, clear⟩ := i
  cases b with
  | none => cases clear <;> rfl
  | some b =>
      obtain ⟨id, resp⟩ := b
      unfold receive WriteInputs.hush
      simp only [Option.map_some, Run.result_bind, Run.result_noteIf]
      cases resp <;> cases clear <;> rfl

/-- Sending a beat does not look at the latch. -/
theorem sendBeat_setError (g : Geometry) (c : WriteCore) (e : Resp) :
    ((c.setError e).sendBeat g).result = (c.sendBeat g).result.map (setError e) := by
  obtain ⟨phase, frameMode, addr, remaining, length, written, maxBurst, candidate, burst, beat,
    finalBurst, request, pending, outstanding, error⟩ := c
  unfold sendBeat setError onLastBeat
  simp only [Run.result_bind, Run.result_liftM]
  cases (pending.retire (beat + 1 == burst)).result with
  | error fault => rfl
  | ok pending =>
      cases Checked.add limit32 beat 1 with
      | error fault => rfl
      | ok next =>
          cases Checked.add limit32 written 1 with
          | error fault => rfl
          | ok written =>
              simp only [Except.bind]
              cases beat + 1 == burst with
              | false => rfl
              | true => cases g.advance addr burst <;> rfl

/-- Moving on does not look at the latch. -/
theorem proceed_setError (g : Geometry) (c : WriteCore) (i : WriteInputs) (e : Resp) :
    ((c.setError e).proceed g i).result
      = (c.proceed g i.hush).result.map (Prod.map (setError e) id) := by
  have hbeat := sendBeat_setError g c e
  have hsized : (c.setError e).sized? i = c.sized? i.hush := rfl
  obtain ⟨desc, fifoLevel, frameHeld, awFires, wFires, b, clear⟩ := i
  obtain ⟨phase, frameMode, addr, remaining, length, written, maxBurst, candidate, burst, beat,
    finalBurst, request, pending, outstanding, error⟩ := c
  unfold proceed WriteInputs.hush
  cases phase with
  | idle => cases desc <;> rfl
  | sizing => rfl
  | clamping => rfl
  | waitForCredit =>
      dsimp only [setError] at hsized ⊢
      rw [hsized]
      dsimp only [WriteInputs.hush]
      cases sized? _ _ with
      | none => rfl
      | some size =>
          obtain ⟨words, final⟩ := size
          simp only [Run.result_bind, Run.result_liftM]
          cases AddrReq.incrementing addr words g <;> rfl
  | issueBurst =>
      cases awFires with
      | false => rfl
      | true =>
          simp only [setError, if_true, Run.result_bind, Run.result_liftM]
          cases pending.issue burst with
          | error fault => rfl
          | ok pending => cases Checked.add limit32 outstanding 1 <;> rfl
  | transferBurst =>
      cases wFires with
      | false => rfl
      | true =>
          dsimp only [setError] at hbeat ⊢
          simp only [if_true, Run.result_bind, hbeat]
          cases (sendBeat g _).result <;> rfl
  | waitForCompletion => rfl
  | done => rfl

theorem latches (g : Geometry) :
    Latches (next g) error setError WriteInputs.heard WriteInputs.hush where
  error_set _ _ := rfl
  set_set _ _ _ := rfl
  edge c i := by
    unfold next
    rw [Run.result_bind, Run.result_bind, receive_latches]
    cases ((c.setError .okay).receive i.hush).result with
    | error fault => rfl
    | ok received => exact proceed_setError g received i _

end WriteCore

/-- **Response codes only reach the error latch.** After every cycle of a run from reset, the
latch holds the last error since it was cleared, if there was one; and runs on inputs that differ
in nothing but response codes and the clearing of errors are the same in all else that can be
seen: in the registers, on the wires, in the bursts and beats, and in the fault at which they
stop, if they do. -/
theorem errors_only_latched (g : Geometry) :
    (∀ inputs edges, clocked (ReadCore.next g) {} inputs = .ok edges →
        edges.map (·.1.error) = (List.range inputs.length).map fun k =>
          Heard.lastError ((inputs.take (k + 1)).map ReadInputs.heard))
      ∧ (∀ is js : List ReadInputs, is.map ReadInputs.hush = js.map ReadInputs.hush →
        (clocked (ReadCore.next g) {} is).map (List.map ReadCore.seen)
          = (clocked (ReadCore.next g) {} js).map (List.map ReadCore.seen))
      ∧ ∀ frameMode,
        (∀ inputs edges, clocked (WriteCore.next g) { frameMode } inputs = .ok edges →
          edges.map (·.1.error) = (List.range inputs.length).map fun k =>
            Heard.lastError ((inputs.take (k + 1)).map WriteInputs.heard))
        ∧ ∀ is js : List WriteInputs, is.map WriteInputs.hush = js.map WriteInputs.hush →
          (clocked (WriteCore.next g) { frameMode } is).map (List.map WriteCore.seen)
            = (clocked (WriteCore.next g) { frameMode } js).map (List.map WriteCore.seen) := by
  have hread := ReadCore.latches g
  have hwrite := WriteCore.latches g
  refine ⟨fun inputs edges hrun => ?_, fun is js hsame => ?_, fun frameMode =>
    ⟨fun inputs edges hrun => ?_, fun is js hsame => ?_⟩⟩
  · exact hread.error_eq [] rfl hrun
  · exact hread.alike (fun _ _ => rfl) rfl hsame
  · exact hwrite.error_eq [] rfl hrun
  · exact hwrite.alike (fun _ _ => rfl) rfl hsame

/-- A burst of three words, of which two come with an error. The latch is cleared in the cycle of
the second one, and after the last. -/
def ReadInputs.withErrors : List ReadInputs :=
  [{ desc := some ⟨64, 3, 4⟩ }, {}, {}, {}, { fifoFree := 8 }, { arFires := true },
    { beat := some ⟨0, 5, .slvErr, false⟩ },
    { beat := some ⟨0, 6, .decErr, false⟩, clearError := true },
    { beat := some ⟨0, 7, .okay, true⟩ }, { clearError := true }]

/-- Two bursts of one word, the first one answered with an error. -/
def WriteInputs.withErrors : List WriteInputs :=
  [{ desc := some ⟨64, 2, 1⟩ }, {}, {}, { fifoLevel := 2 }, { awFires := true }, { wFires := true },
    { b := some ⟨0, .slvErr⟩ }, {}, { fifoLevel := 1 }, { awFires := true },
    { wFires := true }, { b := some ⟨0, .okay⟩ }]

/-- The errors are in the latches, and without them the two engines do the same. -/
theorem errors_only_latched_three_words :
    ∃ reads writes,
      clocked (ReadCore.next {}) {} ReadInputs.withErrors = .ok reads
      ∧ clocked (WriteCore.next {}) { frameMode := false } WriteInputs.withErrors = .ok writes
      ∧ reads.map (·.1.error) = List.replicate 6 .okay ++ [.slvErr, .decErr, .decErr, .okay]
      ∧ (reads.map (·.1.phase))[8]? = some .done
      ∧ (clocked (ReadCore.next {}) {} (ReadInputs.withErrors.map .hush)).map
          (List.map ReadCore.seen)
        = .ok (reads.map ReadCore.seen)
      ∧ writes.map (·.1.error) = List.replicate 6 .okay ++ List.replicate 6 .slvErr
      ∧ (clocked (WriteCore.next {}) { frameMode := false }
          (WriteInputs.withErrors.map .hush)).map (List.map WriteCore.seen)
        = .ok (writes.map WriteCore.seen) := by
  obtain ⟨hreadLatch, hreadAlike, hwrite⟩ := errors_only_latched {}
  obtain ⟨hwriteLatch, hwriteAlike⟩ := hwrite false
  have hreads : (clocked (ReadCore.next {}) {} ReadInputs.withErrors).toOption.any
      (fun edges => (edges.map (·.1.phase))[8]? == some .done) = true := by
    decide +kernel
  have hwrites : (clocked (WriteCore.next {}) { frameMode := false }
      WriteInputs.withErrors).toOption.isSome = true := by
    decide +kernel
  obtain ⟨reads, hreads, hdone⟩ := (Option.any_eq_true ..).mp hreads
  obtain ⟨writes, hwrites⟩ := Option.isSome_iff_exists.mp hwrites
  have hreads := ok_of_toOption hreads
  have hwrites := ok_of_toOption hwrites
  refine ⟨reads, writes, hreads, hwrites, ?_, beq_iff_eq.mp hdone, ?_, ?_, ?_⟩
  · rw [hreadLatch _ _ hreads]
    decide +kernel
  · rw [hreadAlike _ ReadInputs.withErrors (by decide +kernel), hreads]
    rfl
  · rw [hwriteLatch _ _ hwrites]
    decide +kernel
  · rw [hwriteAlike _ WriteInputs.withErrors (by decide +kernel), hwrites]
    rfl

end BurstDma
