import BurstDma.Proofs.Numeral
import BurstDma.Proofs.Result
import BurstDma.Script.Writer

/-!
# Scripts that were written can be read

A written script has a line for every command, with words apart and perhaps a remark behind
them, and lines that are remarks only. **Reading it gives the commands back, in order.** The
text is taken apart from the outside: lines end where a line feed stands, the remark begins
at the first `#`, and the words are what stands between blanks. None of the three signs
occurs in a word, and a remark has no line feed.
-/

namespace BurstDma

/-! ## Lines and words -/

namespace Text

/-- A word of a line: some characters, and no sign among them that ends a word. -/
structure IsWord (w : List Char) : Prop where
  nonempty : w ≠ []
  solid : ∀ c ∈ w, isBlank c = false ∧ c ≠ '#'

instance (w : List Char) : Decidable (IsWord w) :=
  decidable_of_iff (w ≠ [] ∧ w.all (fun c => !isBlank c && c != '#') = true) <| by
    simp only [List.all_eq_true, Bool.and_eq_true, Bool.not_eq_true', bne_iff_ne]
    exact ⟨fun h => ⟨h.1, h.2⟩, fun h => ⟨h.nonempty, h.solid⟩⟩

/-- A character that can stand inside a line. -/
def Inline (c : Char) : Prop :=
  c ≠ '\n' ∧ c ≠ '\r'

/-- A text that is known can be looked through. -/
theorem inline_of_all {cs : List Char} (h : cs.all (fun c => c != '\n' && c != '\r') = true) :
    ∀ c ∈ cs, Inline c := by
  intro c hc
  have hin := List.all_eq_true.mp h c hc
  rw [Bool.and_eq_true, bne_iff_ne, bne_iff_ne] at hin
  exact hin

/-- The ends of lines are blanks, so they do not stand in words. -/
theorem Inline.of_solid {c : Char} (h : isBlank c = false) : Inline c := by
  constructor
  · rintro rfl
    cases h
  · rintro rfl
    cases h

theorem tokensFrom_word {w : List Char} (hw : ∀ c ∈ w, isBlank c = false) (run rest : List Char) :
    tokensFrom run (w ++ rest) = tokensFrom (w.reverse ++ run) rest := by
  induction w generalizing run with
  | nil => rfl
  | cons c w ih =>
      have hc := hw c List.mem_cons_self
      rw [List.cons_append, tokensFrom, hc, if_neg Bool.false_ne_true,
        ih fun d hd => hw d (List.mem_cons_of_mem _ hd)]
      simp

/-- A blank behind a word ends it. -/
theorem tokens_word_blank {w : List Char} {b : Char} (hne : w ≠ [])
    (hw : ∀ c ∈ w, isBlank c = false) (hb : isBlank b = true) (rest : List Char) :
    tokens (w ++ b :: rest) = w :: tokens rest := by
  have hsome : w.reverse.isEmpty = false := by
    rw [List.isEmpty_eq_false_iff]
    exact fun h => hne (List.reverse_eq_nil_iff.mp h)
  unfold tokens
  rw [tokensFrom_word hw, List.append_nil, tokensFrom, if_pos hb, hsome,
    if_neg Bool.false_ne_true, List.reverse_reverse]

/-- Blanks alone are no word. -/
theorem tokens_gap {gap : List Char} (hgap : ∀ c ∈ gap, isBlank c = true) : tokens gap = [] := by
  induction gap with
  | nil => rfl
  | cons c gap ih =>
      have hrest := ih fun d hd => hgap d (List.mem_cons_of_mem _ hd)
      unfold tokens at hrest ⊢
      rw [tokensFrom, if_pos (hgap c List.mem_cons_self), List.isEmpty_nil, if_pos rfl, hrest]

/-- The last word of a line ends with the line. -/
theorem tokens_word_gap {w gap : List Char} (hne : w ≠ []) (hw : ∀ c ∈ w, isBlank c = false)
    (hgap : ∀ c ∈ gap, isBlank c = true) : tokens (w ++ gap) = [w] := by
  cases gap with
  | nil =>
      have hsome : w.reverse.isEmpty = false := by
        rw [List.isEmpty_eq_false_iff]
        exact fun h => hne (List.reverse_eq_nil_iff.mp h)
      unfold tokens
      rw [tokensFrom_word hw, List.append_nil, tokensFrom, hsome, if_neg Bool.false_ne_true,
        List.reverse_reverse]
  | cons b gap =>
      rw [tokens_word_blank hne hw (hgap b List.mem_cons_self),
        tokens_gap fun c hc => hgap c (List.mem_cons_of_mem _ hc)]

/-- Words with a blank between any two of them. -/
def spaced : List (List Char) → List Char
  | [] => []
  | [w] => w
  | w :: rest => w ++ ' ' :: spaced rest

/-- **The words of a line are the words that were written.** -/
theorem tokens_spaced {words : List (List Char)} {gap : List Char}
    (hwords : ∀ w ∈ words, IsWord w) (hgap : ∀ c ∈ gap, isBlank c = true) :
    tokens (spaced words ++ gap) = words := by
  induction words with
  | nil => exact tokens_gap hgap
  | cons w rest ih =>
      have hw := hwords w List.mem_cons_self
      have hsolid : ∀ c ∈ w, isBlank c = false := fun c hc => (hw.solid c hc).1
      have hrest := ih fun v hv => hwords v (List.mem_cons_of_mem _ hv)
      cases rest with
      | nil => exact tokens_word_gap hw.nonempty hsolid hgap
      | cons v rest =>
          rw [spaced, List.append_assoc, List.cons_append,
            tokens_word_blank hw.nonempty hsolid rfl, hrest]
          exact List.cons_ne_nil _ _

/-- What stands in a line of words. -/
theorem mem_spaced {words : List (List Char)} {c : Char} (h : c ∈ spaced words) :
    c = ' ' ∨ ∃ w ∈ words, c ∈ w := by
  induction words with
  | nil => cases h
  | cons w rest ih =>
      cases rest with
      | nil => exact Or.inr ⟨w, List.mem_cons_self, h⟩
      | cons v rest =>
          rw [spaced] at h
          · rcases List.mem_append.mp h with h | h
            · exact Or.inr ⟨w, List.mem_cons_self, h⟩
            · rcases List.mem_cons.mp h with h | h
              · exact Or.inl h
              · rcases ih h with h | ⟨u, hu, h⟩
                · exact Or.inl h
                · exact Or.inr ⟨u, List.mem_cons_of_mem _ hu, h⟩
          · exact List.cons_ne_nil _ _

theorem withoutComment_of_none {cs : List Char} (h : ∀ c ∈ cs, c ≠ '#') :
    withoutComment cs = cs := by
  unfold withoutComment
  rw [← List.append_nil cs, List.takeWhile_append_of_pos fun c hc => bne_iff_ne.mpr (h c hc)]
  rfl

/-- A remark is not looked at. -/
theorem withoutComment_remark {cs : List Char} (h : ∀ c ∈ cs, c ≠ '#') (remark : List Char) :
    withoutComment (cs ++ '#' :: remark) = cs := by
  unfold withoutComment
  rw [List.takeWhile_append_of_pos fun c hc => bne_iff_ne.mpr (h c hc)]
  simp

theorem closeLine_reverse {cs : List Char} (h : ∀ c ∈ cs, Inline c) :
    closeLine cs.reverse = cs := by
  unfold closeLine
  split
  · rename_i more hmore
    have hcr : '\r' ∈ cs := by
      rw [← List.mem_reverse, hmore]
      exact List.mem_cons_self
    exact absurd rfl (h _ hcr).2
  · exact List.reverse_reverse cs

theorem linesFrom_body {cs : List Char} (h : ∀ c ∈ cs, Inline c) (run rest : List Char) :
    linesFrom run (cs ++ '\n' :: rest)
      = closeLine (cs.reverse ++ run) :: linesFrom [] rest := by
  induction cs generalizing run with
  | nil => rw [List.nil_append, linesFrom, if_pos rfl]; rfl
  | cons c cs ih =>
      rw [List.cons_append, linesFrom, if_neg (h c List.mem_cons_self).1,
        ih fun d hd => h d (List.mem_cons_of_mem _ hd)]
      simp

/-- **The lines of a text are the lines that were written.** -/
theorem lines_flatMap {β : Type} {body : β → List Char} {ls : List β}
    (h : ∀ l ∈ ls, ∀ c ∈ body l, Inline c) :
    lines (ls.flatMap fun l => body l ++ ['\n']) = ls.map body := by
  induction ls with
  | nil => rfl
  | cons l ls ih =>
      have hl := h l List.mem_cons_self
      have hrest := ih fun m hm => h m (List.mem_cons_of_mem _ hm)
      unfold lines at hrest ⊢
      rw [List.flatMap_cons, List.append_assoc, List.singleton_append, linesFrom_body hl,
        List.append_nil, closeLine_reverse hl, hrest, List.map_cons]

/-- The items of some lines, each with the number of its line, from `n` on. -/
def numbered {α β : Type} (item : β → Option α) : Nat → List β → List (Located α)
  | _, [] => []
  | n, l :: ls => ((item l).map (⟨n, ·⟩)).toList ++ numbered item (n + 1) ls

theorem map_item_numbered {α β : Type} (item : β → Option α) (n : Nat) (ls : List β) :
    (numbered item n ls).map (·.item) = ls.filterMap item := by
  induction ls generalizing n with
  | nil => rfl
  | cons l ls ih =>
      rw [numbered, List.map_append, ih]
      cases hi : item l with
      | none => rw [List.filterMap_cons_none hi]; rfl
      | some a => rw [List.filterMap_cons_some hi]; rfl

/-- Lines that are read one by one give their items in order, at their lines. -/
theorem readFrom_map {ε α β : Type} {read : List Char → Except ε (Option α)}
    {body : β → List Char} {item : β → Option α} {ls : List β}
    (h : ∀ l ∈ ls, read (withoutComment (body l)) = .ok (item l)) (n : Nat)
    (before : List (Located α)) :
    readFrom read n before (ls.map body) = .ok (before.reverse ++ numbered item n ls) := by
  induction ls generalizing n before with
  | nil => rw [numbered, List.append_nil]; rfl
  | cons l ls ih =>
      have hl := h l List.mem_cons_self
      have hrest := ih fun m hm => h m (List.mem_cons_of_mem _ hm)
      rw [List.map_cons, readFrom, hl, numbered]
      cases item l with
      | none => exact hrest (n + 1) before
      | some a =>
          have hread := hrest (n + 1) (⟨n, a⟩ :: before)
          rw [List.reverse_cons, List.append_assoc] at hread
          exact hread

end Text

/-! ## Commands -/

/-- A command whose numbers can be read again. -/
def Command.Legible : Command → Prop
  | .waitIrq line => line < limit64
  | .stall cycles => cycles < limit64
  | _ => True

namespace Script

/-- A line whose command can be read again, with a remark that does not leave the line. -/
structure Line.Legible (l : Line) : Prop where
  command : ∀ c, l.command = some c → c.Legible
  remark : ∀ c ∈ l.remark.toList, Text.Inline c

/-- The words of a command. -/
def commandWords : Command → List (List Char)
  | .write addr data => [['W', 'R'], Radix.sixteen.writeWide 8 addr.toNat,
      Radix.sixteen.writeWide 8 data.toNat]
  | .read addr expected => [['R', 'D'], Radix.sixteen.writeWide 8 addr.toNat,
      Radix.sixteen.writeWide 8 expected.toNat]
  | .poll addr expected => [['R', 'P'], Radix.sixteen.writeWide 8 addr.toNat,
      Radix.sixteen.writeWide 8 expected.toNat]
  | .waitIrq line => [['W', 'T'], Radix.ten.write line]
  | .stall cycles => [['S', 'T'], Radix.ten.write cycles]

theorem commandText_eq (c : Command) :
    (commandText c).toList = Text.spaced (commandWords c) := by
  have hplain : ∀ s : String, toString s = s := fun _ => rfl
  cases c <;>
    simp [commandText, commandWords, Text.spaced, Numeral.hexDigits, Numeral.decimal,
      String.toList_append, hplain]

theorem isWord_of_digits {cs : List Char} (hne : cs ≠ []) (hcs : ∀ c ∈ cs, IsWrittenDigit c) :
    Text.IsWord cs :=
  ⟨hne, fun c hc => ⟨(hcs c hc).plain.1, (hcs c hc).plain.2.1⟩⟩

theorem isWord_writeWide (width n : Nat) : Text.IsWord (Radix.sixteen.writeWide width n) :=
  isWord_of_digits (Radix.writeWide_ne_nil _ width n)
    fun _ hc => Radix.isWrittenDigit_of_mem_writeWide hc

theorem isWord_write (n : Nat) : Text.IsWord (Radix.ten.write n) :=
  isWord_of_digits (Radix.write_ne_nil _ n) fun _ hc => Radix.isWrittenDigit_of_mem_write hc

theorem isWord_access {op : List Char} (hop : Text.IsWord op) (addr data : Nat) :
    ∀ w ∈ [op, Radix.sixteen.writeWide 8 addr, Radix.sixteen.writeWide 8 data],
      Text.IsWord w := by
  simp only [List.forall_mem_cons]
  exact ⟨hop, isWord_writeWide 8 addr, isWord_writeWide 8 data,
    fun _ h => absurd h List.not_mem_nil⟩

theorem isWord_number {op : List Char} (hop : Text.IsWord op) (n : Nat) :
    ∀ w ∈ [op, Radix.ten.write n], Text.IsWord w := by
  simp only [List.forall_mem_cons]
  exact ⟨hop, isWord_write n, fun _ h => absurd h List.not_mem_nil⟩

/-- The words of a command are words. -/
theorem isWord_of_mem_commandWords {c : Command} : ∀ w ∈ commandWords c, Text.IsWord w := by
  cases c with
  | write addr data => exact isWord_access (by decide) _ _
  | read addr expected => exact isWord_access (by decide) _ _
  | poll addr expected => exact isWord_access (by decide) _ _
  | waitIrq line => exact isWord_number (by decide) _
  | stall cycles => exact isWord_number (by decide) _

theorem readHex_writeWide (a : UInt32) :
    readHex (Radix.sixteen.writeWide 8 a.toNat) = .ok a := by
  have ha : a.toNat < limit32 := a.toNat_lt
  unfold readHex
  rw [Text.withoutHexMarks_of_digits fun c hc => Radix.isWrittenDigit_of_mem_writeWide hc,
    Radix.read_writeWide 8 ha]
  exact congrArg Except.ok UInt32.ofNat_toNat

theorem readCount_write {n : Nat} (h : n < limit64) : readCount (Radix.ten.write n) = .ok n := by
  unfold readCount
  rw [Radix.read_write h]

theorem readAccess_words (make : UInt32 → UInt32 → Command) (op : List Char) (a d : UInt32) :
    readAccess make op [Radix.sixteen.writeWide 8 a.toNat, Radix.sixteen.writeWide 8 d.toNat]
      = .ok (make a d) :=
  except_bind_eq_ok.mpr ⟨_, rfl, except_bind_eq_ok.mpr ⟨a, readHex_writeWide a,
    except_bind_eq_ok.mpr ⟨d, readHex_writeWide d, rfl⟩⟩⟩

theorem readNumber_words (make : Nat → Command) (op : List Char) {n : Nat} (h : n < limit64) :
    readNumber make op [Radix.ten.write n] = .ok (make n) :=
  except_bind_eq_ok.mpr ⟨_, rfl, except_bind_eq_ok.mpr ⟨n, readCount_write h, rfl⟩⟩

/-- **A command is what its words say.** -/
theorem readLine_words {c : Command} (hc : c.Legible) {gap : List Char}
    (hgap : ∀ b ∈ gap, Text.isBlank b = true) :
    readLine (Text.spaced (commandWords c) ++ gap) = .ok (some c) := by
  have hread : ∀ {op : List Char} {args : List (List Char)}, commandWords c = op :: args →
      readCommand op args = .ok c →
      readLine (Text.spaced (commandWords c) ++ gap) = .ok (some c) := by
    intro op args hwords hcommand
    unfold readLine
    rw [Text.tokens_spaced isWord_of_mem_commandWords hgap, hwords]
    dsimp only
    rw [hcommand]
    rfl
  cases c with
  | write a d => exact hread rfl (readAccess_words .write _ a d)
  | read a d => exact hread rfl (readAccess_words .read _ a d)
  | poll a d => exact hread rfl (readAccess_words .poll _ a d)
  | waitIrq n => exact hread rfl (readNumber_words .waitIrq _ hc)
  | stall n => exact hread rfl (readNumber_words .stall _ hc)

/-! ## Scripts -/

/-- A line without its end. -/
def lineBody (l : Line) : List Char :=
  match l.command with
  | none => '#' :: ' ' :: l.remark.toList
  | some c =>
    if l.remark.isEmpty then Text.spaced (commandWords c)
    else Text.spaced (commandWords c) ++ [' ', ' '] ++ '#' :: ' ' :: l.remark.toList

theorem lineText_eq (l : Line) : (lineText l).toList = lineBody l ++ ['\n'] := by
  unfold lineText lineBody
  cases l.command with
  | none => simp [String.toList_append]
  | some c =>
      dsimp only
      split <;> simp [String.toList_append, commandText_eq]

theorem commandWords_uncommented {c : Command} {d : Char}
    (h : d ∈ Text.spaced (commandWords c)) : d ≠ '#' ∧ Text.Inline d := by
  rcases Text.mem_spaced h with rfl | ⟨w, hw, hd⟩
  · exact ⟨by decide, by decide, by decide⟩
  · obtain ⟨hblank, hsign⟩ := (isWord_of_mem_commandWords w hw).solid d hd
    exact ⟨hsign, .of_solid hblank⟩

theorem inline_of_mem_lineBody {l : Line} (hl : l.Legible) :
    ∀ d ∈ lineBody l, Text.Inline d := by
  have hremark : ∀ d ∈ '#' :: ' ' :: l.remark.toList, Text.Inline d := by
    intro d hd
    rcases List.mem_cons.mp hd with rfl | hd
    · exact ⟨by decide, by decide⟩
    · rcases List.mem_cons.mp hd with rfl | hd
      · exact ⟨by decide, by decide⟩
      · exact hl.remark d hd
  intro d hd
  unfold lineBody at hd
  split at hd
  · exact hremark d hd
  · split at hd
    · exact (commandWords_uncommented hd).2
    · rcases List.mem_append.mp hd with hd | hd
      · rcases List.mem_append.mp hd with hd | hd
        · exact (commandWords_uncommented hd).2
        · rw [List.eq_of_mem_replicate (n := 2) hd]
          exact ⟨by decide, by decide⟩
      · exact hremark d hd

/-- A line says what it was written for. -/
theorem readLine_lineBody {l : Line} (hl : l.Legible) :
    readLine (Text.withoutComment (lineBody l)) = .ok l.command := by
  unfold lineBody
  cases hc : l.command with
  | none =>
      rw [show '#' :: ' ' :: l.remark.toList = [] ++ '#' :: (' ' :: l.remark.toList) from rfl,
        Text.withoutComment_remark fun d hd => absurd hd List.not_mem_nil]
      rfl
  | some c =>
      have hlegible := hl.command c hc
      dsimp only
      split
      · rw [Text.withoutComment_of_none fun d hd => (commandWords_uncommented hd).1,
          ← List.append_nil (Text.spaced _)]
        exact readLine_words hlegible fun d hd => absurd hd List.not_mem_nil
      · rw [Text.withoutComment_remark]
        · exact readLine_words hlegible (List.all_eq_true.mp rfl)
        · intro d hd
          rcases List.mem_append.mp hd with hd | hd
          · exact (commandWords_uncommented hd).1
          · rw [List.eq_of_mem_replicate (n := 2) hd]
            decide

/-- **A written script reads as its commands**, each at its line. -/
theorem read_write {lines : List Line} (h : ∀ l ∈ lines, l.Legible) (name : String) :
    read (write lines) name = .ok ⟨name, Text.numbered (·.command) 1 lines⟩ := by
  have htext : (write lines).toList = lines.flatMap fun l => lineBody l ++ ['\n'] := by
    unfold write
    rw [String.toList_join, List.flatMap_map]
    exact congrArg (lines.flatMap ·) (funext lineText_eq)
  have hlines : ∀ l ∈ lines, readLine (Text.withoutComment (lineBody l)) = .ok l.command :=
    fun l hl => readLine_lineBody (h l hl)
  have hread := Text.readFrom_map hlines 1 []
  unfold read Text.readLines
  rw [htext, Text.lines_flatMap fun l hl => inline_of_mem_lineBody (h l hl), hread]
  rfl

end Script

end BurstDma
