import BurstDma.Proofs.StreamGrammar

/-!
# Files that were written can be read

Stream files and memory images have an item on every line and no remarks. **Reading such a
file gives the items back**, all of them and in order. Two things are asked of what stands on
a line: it has no sign that would end it early, and its reader finds the item in it. A line
written for a beat is one of the language of stream files; for a word of the memory it is the
sixteen digits.
-/

namespace BurstDma

namespace Text

/-- Where no blank is, nothing is trimmed. -/
theorem trim_of_solid {cs : List Char} (h : ∀ c ∈ cs, isBlank c = false) : trim cs = cs := by
  have hdrop : ∀ ds : List Char, (∀ c ∈ ds, isBlank c = false) → ds.dropWhile isBlank = ds := by
    intro ds hds
    cases ds with
    | nil => rfl
    | cons d ds => exact List.dropWhile_cons_of_neg (by rw [hds d List.mem_cons_self]; decide)
  unfold trim
  rw [hdrop cs h, hdrop cs.reverse fun c hc => h c (List.mem_reverse.mp hc),
    List.reverse_reverse]

/-- A file with an item on every line is read as its items. -/
theorem readLines_written {ε α β : Type} {read : List Char → Except ε (Option α)}
    {body : β → List Char} {item : β → α} {bs : List β}
    (hbody : ∀ b ∈ bs, ∀ c ∈ body b, c ≠ '#' ∧ Inline c)
    (hread : ∀ b ∈ bs, read (body b) = .ok (some (item b))) :
    ∃ found, readLines read (bs.flatMap fun b => body b ++ ['\n']) = .ok found
      ∧ found.map (·.item) = bs.map item := by
  have hline : ∀ b ∈ bs, read (withoutComment (body b)) = .ok (some (item b)) := by
    intro b hb
    rw [withoutComment_of_none fun c hc => (hbody b hb c hc).1]
    exact hread b hb
  refine ⟨numbered (fun b => some (item b)) 1 bs, ?_, ?_⟩
  · unfold readLines
    rw [lines_flatMap fun b hb c hc => (hbody b hb c hc).2]
    exact readFrom_map hline 1 []
  · rw [map_item_numbered, List.filterMap_eq_map']

end Text

/-! ## Streams -/

namespace StreamText

/-- The words of a beat's line. -/
def beatWords (b : Beat) : List (List Char) :=
  Radix.ten.write b.data.toNat :: if b.last then [['e', 'o', 'f']] else []

theorem writeBeat_eq (b : Beat) : writeBeat b = Text.spaced (beatWords b) ++ ['\n'] := by
  unfold writeBeat beatWords
  cases b.last with
  | false => simp [Text.spaced]
  | true => simp [Text.spaced]

theorem isWord_of_mem_beatWords {b : Beat} : ∀ w ∈ beatWords b, Text.IsWord w := by
  intro w hw
  unfold beatWords at hw
  rcases List.mem_cons.mp hw with rfl | hw
  · exact Script.isWord_write _
  · split at hw
    · rw [List.mem_singleton.mp hw]
      decide
    · cases hw

/-- **A line says which beat it was written for.** -/
theorem readLine_beatWords (b : Beat) : readLine (Text.spaced (beatWords b)) = .ok (some b) := by
  have htokens : Text.tokens (Text.spaced (beatWords b)) = beatWords b := by
    rw [← List.append_nil (Text.spaced _)]
    exact Text.tokens_spaced isWord_of_mem_beatWords Text.isGap_nil
  have hwords := Text.tokens_eq_iff.mp htokens
  have hread := Radix.read_write (r := .ten) b.data.toNat_lt
  have hword : Denotes (Radix.ten.write b.data.toNat) b.data :=
    .decimal ((Radix.read_eq_ok_iff (by decide)).mp hread).1
  obtain ⟨data, last⟩ := b
  cases last with
  | false => exact readLine_eq_ok_iff.mpr ⟨[], .beat hwords hword⟩
  | true =>
      have htag : EndTag ['e', 'o', 'f'] := .letters (Or.inl rfl) (Or.inl rfl) (Or.inl rfl)
      exact readLine_eq_ok_iff.mpr ⟨[], .lastBeat hwords hword htag⟩

theorem read_write (beats : List Beat) (file : String) : read (write beats) file = .ok beats := by
  have hbody : ∀ b ∈ beats, ∀ c ∈ Text.spaced (beatWords b), c ≠ '#' ∧ Text.Inline c := by
    intro b _ c hc
    rcases Text.mem_spaced hc with rfl | ⟨w, hw, hc⟩
    · exact ⟨by decide, by decide, by decide⟩
    · obtain ⟨hblank, hsign⟩ := (isWord_of_mem_beatWords w hw).solid c hc
      exact ⟨hsign, .of_solid hblank⟩
  have htext : (write beats).toList
      = beats.flatMap fun b => Text.spaced (beatWords b) ++ ['\n'] := by
    unfold write
    rw [String.toList_ofList]
    exact congrArg (beats.flatMap ·) (funext writeBeat_eq)
  obtain ⟨found, hfound, hitems⟩ :=
    Text.readLines_written hbody fun b _ => readLine_beatWords b
  rw [← htext] at hfound
  exact ((readsLines file).made hfound).trans
    (congrArg Except.ok (hitems.trans (List.map_id' _)))

end StreamText

/-! ## Images -/

namespace Image

/-- **A line says which word it was written for.** -/
theorem readLine_digits (w : Word) :
    readLine (Radix.sixteen.writeWide 16 w.toNat) = .ok (some w) := by
  have hdigits : ∀ c ∈ Radix.sixteen.writeWide 16 w.toNat, IsWrittenDigit c :=
    fun c hc => Radix.isWrittenDigit_of_mem_writeWide hc
  have hsome : (Radix.sixteen.writeWide 16 w.toNat).isEmpty = false :=
    List.isEmpty_eq_false_iff.mpr (Radix.writeWide_ne_nil _ 16 _)
  have hread : Radix.sixteen.read limit64 (Radix.sixteen.writeWide 16 w.toNat) = .ok w.toNat :=
    Radix.read_writeWide 16 w.toNat_lt
  unfold readLine
  rw [Text.trim_of_solid fun c hc => (hdigits c hc).plain.1]
  dsimp only
  rw [hsome, if_neg Bool.false_ne_true, Text.withoutHexMarks_of_digits hdigits, hread]
  exact congrArg (fun w => Except.ok (some w)) UInt64.ofNat_toNat

theorem read_write (words : List Word) (file : String) : read (write words) file = .ok words := by
  have hbody : ∀ w ∈ words, ∀ c ∈ Radix.sixteen.writeWide 16 w.toNat, c ≠ '#' ∧ Text.Inline c := by
    intro w _ c hc
    obtain ⟨hblank, hsign, _⟩ := (Radix.isWrittenDigit_of_mem_writeWide hc).plain
    exact ⟨hsign, .of_solid hblank⟩
  obtain ⟨found, hfound, hitems⟩ :=
    Text.readLines_written hbody fun w _ => readLine_digits w
  have htext : (write words).toList
      = words.flatMap fun w => Radix.sixteen.writeWide 16 w.toNat ++ ['\n'] :=
    String.toList_ofList
  rw [← htext] at hfound
  exact ((readsLines file).made hfound).trans
    (congrArg Except.ok (hitems.trans (List.map_id' _)))

end Image

/-- **What was written can be read**: a stream file is read as the beats that it was written
for, a memory image as its words, wherever the text comes from. -/
theorem written_files_read_back :
    (∀ (beats : List Beat) (file : String),
      StreamText.read (StreamText.write beats) file = .ok beats)
      ∧ ∀ (words : List Word) (file : String), Image.read (Image.write words) file = .ok words :=
  ⟨StreamText.read_write, Image.read_write⟩

end BurstDma
