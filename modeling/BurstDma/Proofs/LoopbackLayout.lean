import BurstDma.Loopback.Vectors
import BurstDma.Proofs.Place
import BurstDma.Proofs.ScriptText

/-!
# What the vectors of a self-check say

The frames of all ports lie side by side in memory, in the order of the ports. Word `m` of
what port `p` sends has index `p * (frames * words) + m`, whichever frame it belongs to, and
that index is all that the memory has to know of it. **The addresses fit their registers**,
because the last byte of the layout does, and the texts of the scripts read as the commands
that they were made from.
-/

namespace BurstDma

/-! ## Rows of equal length -/

section

variable {α : Type} {rows : List (List α)} {n : Nat}

theorem length_flatten_rows (h : ∀ row ∈ rows, row.length = n) :
    rows.flatten.length = rows.length * n := by
  induction rows with
  | nil => exact (Nat.zero_mul n).symm
  | cons row rows ih =>
      rw [List.flatten_cons, List.length_append, h row List.mem_cons_self,
        ih fun r hr => h r (List.mem_cons_of_mem _ hr), List.length_cons, Nat.succ_mul,
        Nat.add_comm]

/-- Where an element of a row is among all. -/
theorem flatten_rows_getElem? (h : ∀ row ∈ rows, row.length = n) (k : Nat) {j : Nat} (hj : j < n) :
    rows.flatten[k * n + j]? = rows[k]?.bind (·[j]?) := by
  induction rows generalizing k with
  | nil => rfl
  | cons row rows ih =>
      have hrow := h row List.mem_cons_self
      rw [List.flatten_cons]
      cases k with
      | zero =>
          rw [Nat.zero_mul, Nat.zero_add, List.getElem?_append_left (by omega)]
          rfl
      | succ k =>
          have hindex : (k + 1) * n + j = row.length + (k * n + j) := by
            rw [Nat.succ_mul, hrow]
            omega
          rw [hindex, List.getElem?_append_right (Nat.le_add_right _ _), Nat.add_sub_cancel_left,
            ih fun r hr => h r (List.mem_cons_of_mem _ hr)]
          rfl

end

/-- An address of a whole word stays where it is. -/
theorem Geometry.align_of_mod {g : Geometry} (h : g.Legal) {addr : Nat}
    (ha : addr % g.wordBytes = 0) : g.align addr = addr := by
  have haligned : ∀ n : Nat, g.wordBytes = 2 ^ n → g.align addr = addr := by
    intro n hn
    have hmax : max g.wordBytes 1 = 2 ^ n := by
      rw [hn]
      exact Nat.max_eq_left Nat.one_le_two_pow
    unfold align
    rw [hmax, Nat.and_two_pow_sub_one_eq_mod, ← hn, ha, Nat.sub_zero]
  rcases h with h | h | h | h
  · exact haligned 0 h
  · exact haligned 1 h
  · exact haligned 2 h
  · exact haligned 3 h

namespace Loopback

variable {l : Loopback} {v : LoopbackVectors} {port frame : Nat}

/-! ## Inputs and reference -/

/-- Vectors that were generated. -/
structure Generated (l : Loopback) (v : LoopbackVectors) : Prop where
  bytes : l.totalWords * l.wordBytes < limit32
  ports : v.inputs.length = l.ports
  /-- Every port sends frames of the same length, each with a mark at its end. -/
  input : ∀ (p : Nat) (beats : List Beat), v.inputs[p]? = some beats →
    ∃ frames : List (List Beat), beats = frames.flatten ∧ frames.length = l.frames
      ∧ ∀ f ∈ frames, f.length = l.words ∧ f.map (·.last) = endMarks 0 l.words
  writerScripts :
    v.writerScripts = (List.range l.ports).map fun p => Script.write (l.writerScript p)
  readerScripts :
    v.readerScripts = (List.range l.ports).map fun p => Script.write (l.readerScript p)
  memoryRef : v.memoryRef
    = v.inputs.flatten.map (·.data) ++ List.replicate (v.memoryWords - l.totalWords) 0
  memoryWords : v.memoryWords = max l.totalWords minMemoryWords

theorem frameBeats_eq_ok {beats : List Beat} (h : l.frameBeats port frame = .ok beats) :
    beats.length = l.words ∧ beats.map (·.last) = endMarks 0 l.words := by
  obtain ⟨hlen, hget⟩ := mapM_eq_ok h
  rw [List.length_range] at hlen
  refine ⟨hlen, List.ext_getElem? fun w => ?_⟩
  unfold endMarks
  rw [List.getElem?_map, List.getElem?_map]
  by_cases hw : w < l.words
  · obtain ⟨b, hb, hbeat⟩ := hget w w (List.getElem?_range hw)
    obtain ⟨data, _, hb⟩ := except_bind_eq_ok.mp hb
    cases hb
    rw [hbeat, Nat.sub_zero, List.getElem?_range' hw, Nat.zero_add, Nat.one_mul]
    rfl
  · rw [List.getElem?_eq_none (by omega), List.getElem?_eq_none (by simp; omega)]
    rfl

theorem portBeats_eq_ok {beats : List Beat} (h : l.portBeats port = .ok beats) :
    ∃ frames : List (List Beat), beats = frames.flatten ∧ frames.length = l.frames
      ∧ ∀ f ∈ frames, f.length = l.words ∧ f.map (·.last) = endMarks 0 l.words := by
  obtain ⟨frames, hframes, h⟩ := except_bind_eq_ok.mp h
  cases h
  obtain ⟨hlen, hget⟩ := mapM_eq_ok hframes
  rw [List.length_range] at hlen
  refine ⟨frames, rfl, hlen, fun f hf => ?_⟩
  obtain ⟨k, hk⟩ := List.mem_iff_getElem?.mp hf
  have hlt : k < l.frames := hlen ▸ (List.getElem?_eq_some_iff.mp hk).1
  obtain ⟨beats, hbeats, hget⟩ := hget k k (List.getElem?_range hlt)
  rw [hk] at hget
  cases hget
  exact frameBeats_eq_ok hbeats

theorem fits_iff : l.fits = true ↔ (l.ports * l.frames < limit64 ∧ l.totalWords < limit64)
    ∧ l.totalWords * l.wordBytes < limit32 := by
  unfold fits
  rw [Bool.and_eq_true, Bool.and_eq_true, decide_eq_true_eq, decide_eq_true_eq, decide_eq_true_eq]

theorem generated_of_ok (h : l.generate = .ok v) : l.Generated v := by
  unfold generate at h
  split at h
  · cases h
  rename_i hfits
  rw [Bool.not_eq_true, Bool.not_eq_false', fits_iff] at hfits
  split at h
  · cases h
  dsimp only at h
  split at h
  · cases h
  rename_i inputs hinputs
  cases h
  obtain ⟨hlen, hget⟩ := mapM_eq_ok hinputs
  rw [List.length_range] at hlen
  refine ⟨hfits.2, hlen, fun p beats hp => ?_, rfl, rfl, rfl, rfl⟩
  have hlt : p < l.ports := hlen ▸ (List.getElem?_eq_some_iff.mp hp).1
  obtain ⟨beats', hbeats, hp'⟩ := hget p p (List.getElem?_range hlt)
  rw [hp] at hp'
  cases hp'
  exact portBeats_eq_ok hbeats

/-- The words that a port sends. -/
def portWords (l : Loopback) : Nat :=
  l.frames * l.words

theorem totalWords_eq (l : Loopback) : l.totalWords = l.ports * l.portWords :=
  Nat.mul_assoc _ _ _

/-- The words of a frame are among those of its port. -/
theorem frameBase_eq (l : Loopback) (port frame : Nat) :
    l.frameBase port frame = port * l.portWords + frame * l.words := by
  unfold frameBase portWords
  rw [Nat.add_mul, Nat.mul_assoc]

namespace Generated

variable {beats : List Beat} {b : Beat} {m : Nat}

theorem length_input (hv : l.Generated v) (hp : v.inputs[port]? = some beats) :
    beats.length = l.portWords := by
  obtain ⟨frames, rfl, hlen, hframes⟩ := hv.input port beats hp
  rw [length_flatten_rows fun f hf => (hframes f hf).1, hlen]
  rfl

/-- The beat with a mark is the last one of its frame. -/
theorem input_last (hv : l.Generated v) (hp : v.inputs[port]? = some beats)
    (hb : beats[m]? = some b) : b.last = (m % l.words + 1 == l.words) := by
  have hlen := hv.length_input hp
  have hm := (List.getElem?_eq_some_iff.mp hb).1
  obtain ⟨frames, rfl, _, hframes⟩ := hv.input port beats hp
  have hwords : 0 < l.words := by
    rcases Nat.eq_zero_or_pos l.words with h | h
    · rw [hlen, portWords, h, Nat.mul_zero] at hm
      cases hm
    · exact h
  have hj := Nat.mod_lt m hwords
  rw [← Nat.div_add_mod' m l.words,
    flatten_rows_getElem? (fun f hf => (hframes f hf).1) _ hj] at hb
  obtain ⟨f, hf, hb⟩ := Option.bind_eq_some_iff.mp hb
  have hmark := congrArg (·[m % l.words]?) (hframes f (List.mem_of_getElem? hf)).2
  unfold endMarks at hmark
  rw [List.getElem?_map, hb, List.getElem?_map, Nat.sub_zero, List.getElem?_range' hj] at hmark
  simp only [Option.map_some, Option.some.injEq, Nat.zero_add, Nat.one_mul] at hmark
  exact hmark

theorem length_inputs (hv : l.Generated v) : v.inputs.flatten.length = l.totalWords := by
  rw [length_flatten_rows (n := l.portWords), hv.ports, totalWords_eq]
  intro beats hbeats
  obtain ⟨p, hp⟩ := List.mem_iff_getElem?.mp hbeats
  exact hv.length_input hp

theorem length_memoryRef (hv : l.Generated v) : v.memoryRef.length = v.memoryWords := by
  have hmax := hv.memoryWords
  rw [hv.memoryRef, List.length_append, List.length_map, hv.length_inputs, List.length_replicate]
  omega

/-- What the reference holds at the place of a word. -/
theorem memoryRef_word (hv : l.Generated v) (hp : v.inputs[port]? = some beats)
    (hb : beats[m]? = some b) : v.memoryRef[port * l.portWords + m]? = some b.data := by
  have hm : m < l.portWords := hv.length_input hp ▸ (List.getElem?_eq_some_iff.mp hb).1
  have hall : v.inputs.flatten[port * l.portWords + m]? = some b := by
    rw [flatten_rows_getElem? _ _ hm, hp]
    · exact hb
    · intro row hrow
      obtain ⟨p, hp⟩ := List.mem_iff_getElem?.mp hrow
      exact hv.length_input hp
  rw [hv.memoryRef, List.getElem?_append_left, List.getElem?_map, hall]
  · rfl
  · rw [List.length_map]
    exact (List.getElem?_eq_some_iff.mp hall).1

/-- Behind all frames the reference holds zeros. -/
theorem memoryRef_rest (hv : l.Generated v) {k : Nat} (hk : l.totalWords ≤ k)
    (hin : k < v.memoryWords) : v.memoryRef[k]? = some 0 := by
  have hlen : (v.inputs.flatten.map (·.data)).length = l.totalWords := by
    rw [List.length_map, hv.length_inputs]
  rw [hv.memoryRef, List.getElem?_append_right (by omega), hlen, List.getElem?_replicate,
    if_pos (by omega)]

/-- Every word in front of them is one of a port. -/
theorem exists_word (hv : l.Generated v) {k : Nat} (hk : k < l.totalWords) :
    ∃ p beats, v.inputs[p]? = some beats ∧ k = p * l.portWords + k % l.portWords
      ∧ k % l.portWords < beats.length := by
  rw [totalWords_eq] at hk
  have hpos : 0 < l.portWords := by
    rcases Nat.eq_zero_or_pos l.portWords with h | h
    · rw [h, Nat.mul_zero] at hk
      cases hk
    · exact h
  have hlt : k / l.portWords < v.inputs.length := by
    rw [hv.ports]
    exact Nat.div_lt_of_lt_mul (by rwa [Nat.mul_comm])
  have hp := List.getElem?_eq_getElem hlt
  refine ⟨_, _, hp, (Nat.div_add_mod' k l.portWords).symm, ?_⟩
  rw [hv.length_input hp]
  exact Nat.mod_lt k hpos

/-- The bytes in front of a word of a frame are bytes of the layout. -/
theorem frame_le (hp : port < l.ports) (hf : frame < l.frames) :
    l.frameBase port frame + l.words ≤ l.totalWords := by
  have hframe : (frame + 1) * l.words ≤ l.portWords := Nat.mul_le_mul_right _ hf
  have hport : (port + 1) * l.portWords ≤ l.totalWords := by
    rw [totalWords_eq]
    exact Nat.mul_le_mul_right _ hp
  rw [Nat.succ_mul] at hframe hport
  rw [frameBase_eq]
  omega

/-- **The address of a frame fits its register.** -/
theorem frameAddress_lt (hv : l.Generated v) (hp : port < l.ports) (hf : frame < l.frames) :
    l.frameAddress port frame < limit32 := by
  refine Nat.lt_of_le_of_lt (Nat.mul_le_mul_right _ ?_) hv.bytes
  exact Nat.le_trans (Nat.le_add_right _ _) (frame_le hp hf)

/-- The length of a frame fits its register. -/
theorem words_lt (hv : l.Generated v) (hw : 0 < l.wordBytes) (hp : port < l.ports)
    (hf : frame < l.frames) : l.words < limit32 := by
  have hle : l.words ≤ l.totalWords := Nat.le_trans (Nat.le_add_left _ _) (frame_le hp hf)
  have hbytes := Nat.le_mul_of_pos_right l.totalWords hw
  have hlim := hv.bytes
  omega

/-- What a port sends is fewer than 2^32 beats. -/
theorem portWords_lt (hv : l.Generated v) (hw : 0 < l.wordBytes) (hp : port < l.ports) :
    l.portWords < limit32 := by
  have hle : l.portWords ≤ l.totalWords := by
    rw [totalWords_eq]
    exact Nat.le_mul_of_pos_left _ (Nat.zero_lt_of_lt hp)
  have hbytes := Nat.le_mul_of_pos_right l.totalWords hw
  have hlim := hv.bytes
  omega

end Generated

/-! ## Descriptors -/

/-- The length that a script writes for a frame: in frame mode the stream has it. -/
def submittedWords (l : Loopback) : Side → Nat
  | .writer => if l.frameMode then 0 else l.words
  | .reader => l.words

/-- What a script asks an engine to do with a frame. -/
def descriptor (l : Loopback) (port : Nat) (side : Side) (frame : Nat) : Descriptor :=
  Descriptor.clamped (l.frameAddress port frame) (l.submittedWords side) (frameBurst frame)

/-- Where the words of a frame lie. -/
theorem descriptor_place {g : Geometry} (hg : g.Legal) (hw : l.wordBytes = g.wordBytes)
    (side : Side) (k : Nat) :
    ((l.descriptor port side frame).place g k).index
      = port * l.portWords + (frame * l.words + k) := by
  have hstart : g.align (l.frameAddress port frame) = l.frameBase port frame * g.wordBytes := by
    unfold frameAddress
    rw [hw]
    exact Geometry.align_of_mod hg (Nat.mul_mod_left _ _)
  show g.align (l.frameAddress port frame) / g.wordBytes + k = _
  rw [hstart, Nat.mul_div_cancel _ hg.wordBytes_pos, frameBase_eq, Nat.add_assoc]

/-! ## Scripts -/

/-- The commands that hand a frame over to an engine. -/
def submitCommands (l : Loopback) (port : Nat) (side : Side) (frame : Nat) : List Command :=
  [.write (Register.address port side Register.start.index)
      (UInt32.ofNat (l.frameAddress port frame)),
   .write (Register.address port side Register.length.index)
      (UInt32.ofNat (l.submittedWords side)),
   .write (Register.address port side Register.burst.index) (UInt32.ofNat (frameBurst frame)),
   .write (Register.address port side Register.valid.index) 1,
   .write (Register.address port side Register.valid.index) 0]

/-- The commands of a script for a frame. -/
def frameCommands (l : Loopback) (port : Nat) : Side → Nat → List Command
  | .writer, frame =>
    l.submitCommands port .writer frame
      ++ [.waitIrq (2 * port), .poll (Register.address port .writer Register.irq.index) 0]
  | .reader, frame =>
    [.waitIrq (2 * port), .write (Register.address port .writer Register.irq.index) 0]
      ++ l.submitCommands port .reader frame
      ++ [.waitIrq (2 * port + 1), .write (Register.address port .reader Register.irq.index) 0]

/-- The number of commands for a frame. -/
def frameLength : Side → Nat
  | .writer => 7
  | .reader => 9

/-- All commands of the script of a side of a port. -/
def commands (l : Loopback) (port : Nat) (side : Side) : List Command :=
  (List.range l.frames).flatMap (l.frameCommands port side)

theorem length_frameCommands (l : Loopback) (port : Nat) (side : Side) (frame : Nat) :
    (l.frameCommands port side frame).length = frameLength side := by
  cases side <;> rfl

theorem length_commands (l : Loopback) (port : Nat) (side : Side) :
    (l.commands port side).length = l.frames * frameLength side := by
  unfold commands
  rw [List.flatMap_def, length_flatten_rows, List.length_map, List.length_range]
  intro row hrow
  obtain ⟨frame, _, rfl⟩ := List.mem_map.mp hrow
  exact l.length_frameCommands port side frame

/-- The command at a position of a script, by frame and by position in the frame. -/
theorem commands_getElem? {side : Side} {n : Nat} {c : Command}
    (h : (l.commands port side)[n]? = some c) :
    n / frameLength side < l.frames
      ∧ (l.frameCommands port side (n / frameLength side))[n % frameLength side]? = some c := by
  have hpos : 0 < frameLength side := by cases side <;> decide
  unfold commands at h
  rw [List.flatMap_def, ← Nat.div_add_mod' n (frameLength side),
    flatten_rows_getElem? _ _ (Nat.mod_lt n hpos)] at h
  · obtain ⟨row, hrow, h⟩ := Option.bind_eq_some_iff.mp h
    rw [List.getElem?_map] at hrow
    obtain ⟨frame, hframe, rfl⟩ := Option.map_eq_some_iff.mp hrow
    obtain ⟨hlt, hframe⟩ := List.getElem?_eq_some_iff.mp hframe
    rw [List.length_range] at hlt
    rw [List.getElem_range] at hframe
    exact ⟨hlt, hframe.symm ▸ h⟩
  · intro row hrow
    obtain ⟨frame, _, rfl⟩ := List.mem_map.mp hrow
    exact l.length_frameCommands port side frame

/-- The lines of the script of a side of a port. -/
def scriptLines (l : Loopback) (port : Nat) : Side → List Script.Line
  | .writer => l.writerScript port
  | .reader => l.readerScript port

/-- The lines of a script have its commands. -/
theorem commands_scriptLines (l : Loopback) (port : Nat) (side : Side) :
    (l.scriptLines port side).filterMap (·.command) = l.commands port side := by
  cases side with
  | writer =>
      unfold scriptLines writerScript commands
      rw [List.filterMap_cons_none rfl, List.filterMap_flatMap]
      rfl
  | reader =>
      unfold scriptLines readerScript commands
      rw [List.filterMap_cons_none rfl, List.filterMap_flatMap]
      rfl

/-- The numbers in remarks are written with digits. -/
theorem inline_toString (n : Nat) : ∀ c ∈ (toString n).toList, Text.Inline c := by
  intro c hc
  have hdigit : c.isDigit = true := by
    have hrepr : (toString n).toList = Nat.toDigits 10 n := Nat.toList_repr
    rw [hrepr] at hc
    exact Nat.isDigit_of_mem_toDigits (by decide) (by decide) hc
  constructor
  · rintro rfl
    cases hdigit
  · rintro rfl
    cases hdigit

theorem inline_append {s t : String} (hs : ∀ c ∈ s.toList, Text.Inline c)
    (ht : ∀ c ∈ t.toList, Text.Inline c) : ∀ c ∈ (s ++ t).toList, Text.Inline c := by
  intro c hc
  rw [String.toList_append] at hc
  rcases List.mem_append.mp hc with hc | hc
  · exact hs c hc
  · exact ht c hc

theorem legible_command (c : Command) (hc : c.Legible) {remark : String}
    (h : ∀ d ∈ remark.toList, Text.Inline d) : Script.Line.Legible ⟨some c, remark⟩ :=
  ⟨fun d hd => by cases hd; exact hc, h⟩

theorem legible_submit (l : Loopback) (port : Nat) (side : Side) (frame words : Nat)
    {remark : String} (h : ∀ c ∈ remark.toList, Text.Inline c) :
    ∀ line ∈ l.submitLines port side frame words remark, line.Legible := by
  have hnone : ∀ c ∈ "".toList, Text.Inline c := Text.inline_of_all rfl
  unfold submitLines writeLine
  simp only [List.forall_mem_cons]
  exact ⟨legible_command (.write _ _) trivial h, legible_command (.write _ _) trivial hnone,
    legible_command (.write _ _) trivial hnone, legible_command (.write _ _) trivial hnone,
    legible_command (.write _ _) trivial hnone, fun _ hl => absurd hl List.not_mem_nil⟩

/-- A remark that is a text with a number in it stays in its line. -/
theorem inline_remark {before after : String} (n : Nat)
    (hb : before.toList.all (fun c => c != '\n' && c != '\r') = true)
    (ha : after.toList.all (fun c => c != '\n' && c != '\r') = true) :
    ∀ c ∈ (before ++ toString n ++ after).toList, Text.Inline c :=
  inline_append (inline_append (Text.inline_of_all hb) (inline_toString n)) (Text.inline_of_all ha)

theorem legible_header (remark : String) (h : ∀ c ∈ remark.toList, Text.Inline c) :
    Script.Line.Legible ⟨none, remark⟩ :=
  ⟨fun c hc => absurd hc (by simp), h⟩

theorem legible_writerFrame (hp : 2 * port < limit64) (frame : Nat) :
    ∀ line ∈ l.writerFrame port frame, line.Legible := by
  have hsubmit : ∀ c ∈ ("write frame " ++ toString frame).toList, Text.Inline c :=
    inline_append (Text.inline_of_all rfl) (inline_toString frame)
  have hpoll : ∀ c ∈ ("reader took frame " ++ toString frame).toList, Text.Inline c :=
    inline_append (Text.inline_of_all rfl) (inline_toString frame)
  unfold writerFrame
  rw [List.forall_mem_append]
  refine ⟨l.legible_submit port .writer frame _ hsubmit, ?_⟩
  simp only [List.forall_mem_cons]
  exact ⟨legible_command (.waitIrq _) hp (inline_remark frame rfl rfl),
    legible_command (.poll _ _) trivial hpoll, fun _ h => absurd h List.not_mem_nil⟩

theorem legible_readerFrame (hp : 2 * port + 1 < limit64) (frame : Nat) :
    ∀ line ∈ l.readerFrame port frame, line.Legible := by
  have hsubmit : ∀ c ∈ ("read frame " ++ toString frame).toList, Text.Inline c :=
    inline_append (Text.inline_of_all rfl) (inline_toString frame)
  unfold readerFrame writeLine
  rw [List.forall_mem_append, List.forall_mem_append]
  refine ⟨⟨?_, l.legible_submit port .reader frame _ hsubmit⟩, ?_⟩
  · simp only [List.forall_mem_cons]
    exact ⟨legible_command (.waitIrq _) (show 2 * port < limit64 by omega)
        (inline_remark frame rfl rfl),
      legible_command (.write _ _) trivial (Text.inline_of_all rfl),
      fun _ h => absurd h List.not_mem_nil⟩
  · simp only [List.forall_mem_cons]
    exact ⟨legible_command (.waitIrq _) hp (inline_remark frame rfl rfl),
      legible_command (.write _ _) trivial (Text.inline_of_all rfl),
      fun _ h => absurd h List.not_mem_nil⟩

theorem legible_scriptLines (hp : 2 * port + 1 < limit64) (side : Side) :
    ∀ line ∈ l.scriptLines port side, line.Legible := by
  intro line hline
  cases side with
  | writer =>
      rcases List.mem_cons.mp hline with rfl | hline
      · exact legible_header _ (inline_remark port rfl rfl)
      · obtain ⟨frame, _, hline⟩ := List.mem_flatMap.mp hline
        exact legible_writerFrame (by omega) frame line hline
  | reader =>
      rcases List.mem_cons.mp hline with rfl | hline
      · exact legible_header _ (inline_remark port rfl rfl)
      · obtain ⟨frame, _, hline⟩ := List.mem_flatMap.mp hline
        exact legible_readerFrame hp frame line hline

/-- The script of a side of a port, as it reads. -/
def script (l : Loopback) (port : Nat) (side : Side) (name : String) : Script where
  name := name
  commands := Text.numbered (·.command) 1 (l.scriptLines port side)

/-- **The text of a script reads as that script.** -/
theorem script_reads (hp : 2 * port + 1 < limit64) (side : Side) (name : String) :
    Script.read (Script.write (l.scriptLines port side)) name = .ok (l.script port side name) :=
  Script.read_write (l.legible_scriptLines hp side) name

/-- A script has the commands of its frames. -/
theorem commands_script (l : Loopback) (port : Nat) (side : Side) (name : String) :
    (l.script port side name).commands.map (·.item) = l.commands port side :=
  (Text.map_item_numbered _ _ _).trans (l.commands_scriptLines port side)

end Loopback

end BurstDma
