import Mathlib.Data.List.Forall2
import BurstDma.Proofs.Access
import BurstDma.Proofs.LoopbackFiles

/-!
# What the vectors of a self-check ask for

The scripts of a self-check are texts, and what counts is what a player finds in them: commands
over register addresses and words of 32 bits. Here the same is said in plain numbers. **A script
asks for its frames in their order**: where a frame begins, how long it is, how long its bursts
are, and when to wait. Nothing of that is cut off on its way into a register, because the last
byte of the layout has an address, and every register address leads to the engine that is meant.

The frames lie apart from each other, all of them within the memory. The reference has the data
of each frame at the words that the scripts name, and zeros everywhere else.
-/

namespace BurstDma

/-- What goes together for each of some things goes together for all of them. -/
theorem forall₂_flatMap {α β γ : Type} {R : α → β → Prop} {f : γ → List α} {g : γ → List β}
    {xs : List γ} (h : ∀ x ∈ xs, List.Forall₂ R (f x) (g x)) :
    List.Forall₂ R (xs.flatMap f) (xs.flatMap g) := by
  induction xs with
  | nil => exact .nil
  | cons x xs ih =>
      exact List.rel_append (h x List.mem_cons_self)
        (ih fun y hy => h y (List.mem_cons_of_mem _ hy))

/-! ## Requests -/

/-- What a command asks for, in numbers. -/
inductive Request where
  | set (port : Nat) (side : Side) (r : Register) (n : Nat)
  /-- To wait until a register has a value. -/
  | await (port : Nat) (side : Side) (r : Register) (n : Nat)
  /-- To wait for an interrupt. -/
  | interrupt (line : Nat)
deriving Repr, DecidableEq

/-- An address of a register: it leads there in every machine that has the port. -/
def Register.LiesAt (port : Nat) (side : Side) (r : Register) (addr : UInt32) : Prop :=
  addr = Register.address port side r.index
    ∧ ∀ (s : Machine) (p : Port), s.ports[port]? = some p →
      (s.decode addr).result = .ok (some (p, side, r.index))

/-- A command asks for what its address and its data say. -/
inductive Command.Asks : Command → Request → Prop where
  | set {port : Nat} {side : Side} {r : Register} {addr data : UInt32} :
      r.LiesAt port side addr → Asks (.write addr data) (.set port side r data.toNat)
  | await {port : Nat} {side : Side} {r : Register} {addr data : UInt32} :
      r.LiesAt port side addr → Asks (.poll addr data) (.await port side r data.toNat)
  | interrupt {line : Nat} : Asks (.waitIrq line) (.interrupt line)

variable {port frame n : Nat} {side : Side} {r : Register}

theorem Register.liesAt_address (hport : port < 256) :
    r.LiesAt port side (Register.address port side r.index) :=
  ⟨rfl, fun _ _ hp => Machine.decode_address hport hp r⟩

/-- A number that fits a register arrives there. -/
theorem Command.asks_set (hport : port < 256) (h : n < limit32) :
    Asks (.write (Register.address port side r.index) (UInt32.ofNat n)) (.set port side r n) := by
  have hasks : Asks (.write (Register.address port side r.index) (UInt32.ofNat n))
      (.set port side r (UInt32.ofNat n).toNat) := .set (Register.liesAt_address hport)
  rwa [UInt32.toNat_ofNat_of_lt' h] at hasks

namespace Loopback

variable {l : Loopback} {v : LoopbackVectors}

/-- The requests that hand a frame over to an engine. -/
def submitRequests (l : Loopback) (port : Nat) (side : Side) (frame : Nat) : List Request :=
  [.set port side .start (l.frameAddress port frame),
   .set port side .length (l.submittedWords side),
   .set port side .burst (frame % 16 + 1),
   .set port side .valid 1,
   .set port side .valid 0]

/-- The requests of a script for a frame. -/
def frameRequests (l : Loopback) (port : Nat) : Side → Nat → List Request
  | .writer, frame =>
    l.submitRequests port .writer frame
      ++ [.interrupt (2 * port), .await port .writer .irq 0]
  | .reader, frame =>
    [.interrupt (2 * port), .set port .writer .irq 0]
      ++ l.submitRequests port .reader frame
      ++ [.interrupt (2 * port + 1), .set port .reader .irq 0]

/-- The scripts of a side of all ports. -/
def scriptsOf (v : LoopbackVectors) : Side → List String
  | .writer => v.writerScripts
  | .reader => v.readerScripts

theorem asks_submit (hport : port < 256) (haddress : l.frameAddress port frame < limit32)
    (hwords : l.words < limit32) (side : Side) :
    List.Forall₂ Command.Asks (l.submitCommands port side frame)
      (l.submitRequests port side frame) := by
  have hsubmitted : l.submittedWords side < limit32 := by
    cases side with
    | writer =>
        show (if l.frameMode then 0 else l.words) < limit32
        split
        · decide
        · exact hwords
    | reader => exact hwords
  have hburst : frame % 16 + 1 < limit32 :=
    Nat.lt_of_le_of_lt (Nat.mod_lt frame (by decide)) (by decide)
  have hvalid : Register.valid.LiesAt port side (Register.address port side Register.valid.index) :=
    Register.liesAt_address hport
  exact .cons (Command.asks_set hport haddress) <| .cons (Command.asks_set hport hsubmitted) <|
    .cons (Command.asks_set hport hburst) <| .cons (.set hvalid) <| .cons (.set hvalid) .nil

/-- **The commands for a frame ask for what the frame needs.** -/
theorem asks_frame (hport : port < 256) (haddress : l.frameAddress port frame < limit32)
    (hwords : l.words < limit32) (side : Side) :
    List.Forall₂ Command.Asks (l.frameCommands port side frame)
      (l.frameRequests port side frame) := by
  have hirq : ∀ side,
      Register.irq.LiesAt port side (Register.address port side Register.irq.index) :=
    fun _ => Register.liesAt_address hport
  have hsubmit := asks_submit hport haddress hwords side
  cases side with
  | writer => exact List.rel_append hsubmit (.cons .interrupt (.cons (.await (hirq _)) .nil))
  | reader =>
      have hbefore : List.Forall₂ Command.Asks
          [.waitIrq (2 * port), .write (Register.address port .writer Register.irq.index) 0]
          [.interrupt (2 * port), .set port .writer .irq 0] :=
        .cons .interrupt (.cons (.set (hirq _)) .nil)
      exact List.rel_append (List.rel_append hbefore hsubmit)
        (.cons .interrupt (.cons (.set (hirq _)) .nil))

/-! ## The layout -/

/-- The words that a frame takes, counted from where its address leads. -/
def frameWords (l : Loopback) (port frame : Nat) : List Nat :=
  List.range' (l.frameAddress port frame / l.wordBytes) l.words

theorem frameAddress_div (hbytes : 0 < l.wordBytes) (port frame : Nat) :
    l.frameAddress port frame / l.wordBytes = l.frameBase port frame :=
  Nat.mul_div_cancel _ hbytes

theorem mem_frameWords (hbytes : 0 < l.wordBytes) {k : Nat} :
    k ∈ l.frameWords port frame
      ↔ l.frameBase port frame ≤ k ∧ k < l.frameBase port frame + l.words := by
  unfold frameWords
  rw [frameAddress_div hbytes, List.mem_range'_1]

/-- A word says of which frame it is. -/
theorem index_of_mem (hbytes : 0 < l.wordBytes) {k : Nat} (hk : k ∈ l.frameWords port frame) :
    k / l.words = port * l.frames + frame := by
  obtain ⟨hlo, hhi⟩ := (mem_frameWords hbytes).mp hk
  refine Nat.div_eq_of_lt_le hlo ?_
  rw [Nat.succ_mul]
  exact hhi

/-- Frames are numbered through, port after port. -/
theorem index_inj {port' frame' : Nat} (hf : frame < l.frames) (hf' : frame' < l.frames)
    (h : port * l.frames + frame = port' * l.frames + frame') : port = port' ∧ frame = frame' := by
  have hpos : 0 < l.frames := Nat.zero_lt_of_lt hf
  have hport := congrArg (· / l.frames) h
  have hframe := congrArg (· % l.frames) h
  simp only [Nat.mul_comm _ l.frames, Nat.mul_add_div hpos, Nat.mul_add_mod,
    Nat.div_eq_of_lt hf, Nat.div_eq_of_lt hf', Nat.mod_eq_of_lt hf, Nat.mod_eq_of_lt hf']
    at hport hframe
  exact ⟨by omega, hframe⟩

/-- **Where the frames lie, and what the reference has there.** -/
structure LaidOut (l : Loopback) (v : LoopbackVectors) : Prop where
  address_lt : ∀ port frame, port < l.ports → frame < l.frames → l.frameAddress port frame < limit32
  disjoint : ∀ port frame port' frame', frame < l.frames → frame' < l.frames →
    (port, frame) ≠ (port', frame') → (l.frameWords port frame).Disjoint (l.frameWords port' frame')
  inside : ∀ port frame, port < l.ports → frame < l.frames →
    ∀ k ∈ l.frameWords port frame, k < v.memoryWords
  size : v.memoryRef.length = v.memoryWords
  /-- The reference has the data of every frame. -/
  held : ∀ port frame i, port < l.ports → frame < l.frames → i < l.words →
    ∃ beats b, v.inputs[port]? = some beats ∧ beats[frame * l.words + i]? = some b
      ∧ v.memoryRef[l.frameAddress port frame / l.wordBytes + i]? = some b.data
  /-- It has nothing else. -/
  empty : ∀ k, k < v.memoryWords →
    (∀ port frame, port < l.ports → frame < l.frames → k ∉ l.frameWords port frame) →
    v.memoryRef[k]? = some 0

namespace Generated

theorem held (hv : l.Generated v) (hbytes : 0 < l.wordBytes) {i : Nat} (hport : port < l.ports)
    (hframe : frame < l.frames) (hi : i < l.words) :
    ∃ beats b, v.inputs[port]? = some beats ∧ beats[frame * l.words + i]? = some b
      ∧ v.memoryRef[l.frameAddress port frame / l.wordBytes + i]? = some b.data := by
  obtain ⟨beats, hinput⟩ : ∃ beats, v.inputs[port]? = some beats :=
    ⟨_, List.getElem?_eq_getElem (hv.ports.symm ▸ hport)⟩
  have hnext : (frame + 1) * l.words ≤ l.frames * l.words := Nat.mul_le_mul_right _ hframe
  have hword : frame * l.words + i < beats.length := by
    rw [hv.length_input hinput, portWords]
    rw [Nat.succ_mul] at hnext
    omega
  refine ⟨_, _, hinput, List.getElem?_eq_getElem hword, ?_⟩
  rw [frameAddress_div hbytes, frameBase_eq, Nat.add_assoc]
  exact hv.memoryRef_word hinput (List.getElem?_eq_getElem hword)

/-- A word in front of the end of all frames is in one of them. -/
theorem exists_frame (hv : l.Generated v) (hbytes : 0 < l.wordBytes) {k : Nat}
    (hk : k < l.totalWords) :
    ∃ port frame, port < l.ports ∧ frame < l.frames ∧ k ∈ l.frameWords port frame := by
  obtain ⟨port, beats, hinput, hplace, hlt⟩ := hv.exists_word hk
  rw [hv.length_input hinput] at hlt
  have hwords : 0 < l.words := Nat.pos_of_lt_mul_left hlt
  refine ⟨port, k % l.portWords / l.words, ?_, Nat.div_lt_of_lt_mul ?_, ?_⟩
  · rw [← hv.ports]
    exact (List.getElem?_eq_some_iff.mp hinput).1
  · rwa [Nat.mul_comm]
  · rw [mem_frameWords hbytes, frameBase_eq]
    have hpart := Nat.div_add_mod' (k % l.portWords) l.words
    have hrest := Nat.mod_lt (k % l.portWords) hwords
    omega

theorem laidOut (hv : l.Generated v) (hbytes : 0 < l.wordBytes) : l.LaidOut v where
  address_lt _ _ := hv.frameAddress_lt
  disjoint := by
    intro port frame port' frame' hf hf' hne k hk hk'
    have hindex := (index_of_mem hbytes hk).symm.trans (index_of_mem hbytes hk')
    obtain ⟨rfl, rfl⟩ := index_inj hf hf' hindex
    exact hne rfl
  inside := by
    intro port frame hport hframe k hk
    have hle : l.frameBase port frame + l.words ≤ l.totalWords := frame_le hport hframe
    have hsize := hv.memoryWords
    have hend := ((mem_frameWords hbytes).mp hk).2
    omega
  size := hv.length_memoryRef
  held _ _ _ := hv.held hbytes
  empty := by
    intro k hk hnone
    refine hv.memoryRef_rest (Nat.le_of_not_lt fun hlt => ?_) hk
    obtain ⟨port, frame, hport, hframe, hmem⟩ := hv.exists_frame hbytes hlt
    exact hnone port frame hport hframe hmem

/-- A port has a script for either side. -/
theorem scriptsOf_getElem? (hv : l.Generated v) (hport : port < l.ports) (side : Side) :
    (scriptsOf v side)[port]? = some (Script.write (l.scriptLines port side)) := by
  cases side with
  | writer =>
      show v.writerScripts[port]? = _
      rw [hv.writerScripts, List.getElem?_map, List.getElem?_range hport]
      rfl
  | reader =>
      show v.readerScripts[port]? = _
      rw [hv.readerScripts, List.getElem?_map, List.getElem?_range hport]
      rfl

theorem length_scriptsOf (hv : l.Generated v) (side : Side) :
    (scriptsOf v side).length = l.ports := by
  cases side with
  | writer => exact (congrArg List.length hv.writerScripts).trans (by simp)
  | reader => exact (congrArg List.length hv.readerScripts).trans (by simp)

end Generated

end Loopback

/-- **The scripts of a self-check ask for its frames, one after the other, and the frames lie
apart.** Each script reads, whatever it is called, and its commands are those for the frames of
its port in their order; each number of them arrives as it is. -/
theorem scripts_ask_for_frames {l : Loopback} {v : LoopbackVectors} (hbytes : 0 < l.wordBytes)
    (hports : l.ports ≤ 256) (h : l.generate = .ok v) :
    (∀ side, (Loopback.scriptsOf v side).length = l.ports)
      ∧ (∀ port side, port < l.ports → ∃ text, (Loopback.scriptsOf v side)[port]? = some text
          ∧ ∀ name, ∃ script, Script.read text name = .ok script
            ∧ List.Forall₂ Command.Asks (script.commands.map (·.item))
                ((List.range l.frames).flatMap (l.frameRequests port side)))
      ∧ l.LaidOut v := by
  have hv := Loopback.generated_of_ok h
  refine ⟨hv.length_scriptsOf, fun port side hport => ?_, hv.laidOut hbytes⟩
  have hline : 2 * port + 1 < limit64 := Nat.lt_trans (by omega) (show 512 < limit64 by decide)
  refine ⟨_, hv.scriptsOf_getElem? hport side, fun name =>
    ⟨_, Loopback.script_reads hline side name, ?_⟩⟩
  rw [Loopback.commands_script]
  refine forall₂_flatMap fun frame hframe => ?_
  have hlt := List.mem_range.mp hframe
  exact Loopback.asks_frame (by omega) (hv.frameAddress_lt hport hlt)
    (hv.words_lt hbytes hport hlt) side

/-- Two frames of three words on the second of two ports, with lengths from the stream. -/
theorem scripts_ask_for_frames_second_port :
    ∃ v, Loopback.generate { ports := 2, frames := 2, words := 3, frameMode := true } = .ok v
      ∧ 0 < 8 ∧ 2 ≤ 256
      ∧ Loopback.LaidOut { ports := 2, frames := 2, words := 3, frameMode := true } v
      ∧ ∃ text script, v.writerScripts[1]? = some text ∧ Script.read text "wr" = .ok script
        ∧ List.Forall₂ Command.Asks (script.commands.map (·.item))
            [.set 1 .writer .start 48, .set 1 .writer .length 0, .set 1 .writer .burst 1,
             .set 1 .writer .valid 1, .set 1 .writer .valid 0, .interrupt 2,
             .await 1 .writer .irq 0,
             .set 1 .writer .start 72, .set 1 .writer .length 0, .set 1 .writer .burst 2,
             .set 1 .writer .valid 1, .set 1 .writer .valid 0, .interrupt 2,
             .await 1 .writer .irq 0] := by
  have hgenerated : ∃ v, Loopback.generate
      { ports := 2, frames := 2, words := 3, frameMode := true } = .ok v :=
    Loopback.generate_ok_iff.mpr ⟨by decide, by decide⟩
  obtain ⟨v, hv⟩ := hgenerated
  obtain ⟨-, hscripts, hlayout⟩ := scripts_ask_for_frames (by decide) (by decide) hv
  obtain ⟨text, htext, hread⟩ := hscripts 1 .writer (by decide)
  obtain ⟨script, hscript, hasks⟩ := hread "wr"
  exact ⟨v, hv, by decide, by decide, hlayout, text, script, htext, hscript, hasks⟩

end BurstDma
