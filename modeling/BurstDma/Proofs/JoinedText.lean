import Mathlib.Data.List.Forall2
import BurstDma.Proofs.Grammar

/-!
# Texts that are put together

A text whose last line is ended can be followed by another, and no line of either is changed
by that: the lines of the whole are those of the first and then those of the second. **A reader
that goes through a text line by line therefore reads the whole from its parts.** What it finds
in the second part lies further down, by the number of lines in front, and so does the line at
which it stops; and if the first part is refused, nothing behind it is looked at.

Scripts, stream files and memory images are read by one loop, so the law is shown for the loop
and handed to each of them.
-/

namespace BurstDma

namespace Text

/-- A text that another can follow: it is empty, or its last line is ended. -/
def Closed (s : List Char) : Prop :=
  s = [] ∨ ∃ cs, s = cs ++ ['\n']

/-- What was found on a line, with `k` lines put in front of all. -/
def Located.below {α : Type} (k : Nat) (found : Located α) : Located α :=
  ⟨k + found.line, found.item⟩

/-- **How a text is read that was put together.** A first part that is refused is all that is
looked at. Otherwise the reading goes on with the second part, below the lines of the first: its
refusal is that of the whole, and what was read of both is put together by `join`. -/
structure ReadsInParts {α : Type} (read : String → Attempt α) (join : α → α → α) (file : String)
    (a b : String) : Prop where
  first_refused : ∀ problem, read a = .error problem → read (a ++ b) = .error problem
  second_refused : ∀ x problem, read a = .ok x → read b = .error problem →
    ∃ found, problem = .badLine file found
      ∧ read (a ++ b) = .error (.badLine file (found.below (lines a.toList).length))
  both_read : ∀ x y, read a = .ok x → read b = .ok y → read (a ++ b) = .ok (join x y)

/-! ## Lines -/

/-- The end of a line is the end of whatever is being read. -/
theorem linesFrom_append_lineFeed (run cs rest : List Char) :
    linesFrom run (cs ++ '\n' :: rest) = linesFrom run (cs ++ ['\n']) ++ lines rest := by
  induction cs generalizing run with
  | nil => rfl
  | cons c cs ih =>
      rw [List.cons_append, List.cons_append, linesFrom, linesFrom]
      split
      · rw [ih, List.cons_append]
      · exact ih _

/-- **The lines of a text that was put together are those of its parts.** -/
theorem lines_append {s t : List Char} (h : Closed s) : lines (s ++ t) = lines s ++ lines t := by
  rcases h with rfl | ⟨cs, rfl⟩
  · rfl
  · unfold lines
    rw [List.append_assoc]
    exact linesFrom_append_lineFeed [] cs t

/-! ## Items -/

section

variable {α β : Type}

theorem numbered_append (n : Nat) (items others : List (Option α)) :
    numbered id n (items ++ others)
      = numbered id n items ++ numbered id (n + items.length) others := by
  induction items generalizing n with
  | nil => rfl
  | cons item items ih =>
      rw [List.cons_append, numbered, numbered, ih, List.append_assoc, List.length_cons,
        Nat.add_assoc, Nat.add_comm 1]

/-- Items that are numbered from further down are further down. -/
theorem numbered_below (k n : Nat) (items : List (Option α)) :
    numbered id (k + n) items = (numbered id n items).map (Located.below k) := by
  induction items generalizing n with
  | nil => rfl
  | cons item items ih =>
      rw [numbered, numbered, List.map_append, ← ih]
      cases item with
      | none => rfl
      | some a => rfl

/-- Every line of a text that was read is read. -/
theorem exists_item_of_mem {read : List Char → Except LineError (Option α)}
    {ls : List (List Char)} {items : List (Option α)}
    (h : List.Forall₂ (fun line item => read (withoutComment line) = .ok item) ls items) :
    ∀ l ∈ ls, ∃ item, read (withoutComment l) = .ok item := by
  intro l hl
  obtain ⟨i, hi, rfl⟩ := List.getElem_of_mem hl
  exact ⟨_, h.get hi (h.length_eq ▸ hi)⟩

/-- **A reader that goes line by line reads a text in parts**, if what it makes of both can be
put together. -/
theorem ReadsLines.inParts {readLine : List Char → Except LineError (Option α)}
    {make : List (Located α) → β} {read : String → Attempt β} {join : β → β → β}
    {file a b : String} (h : ReadsLines readLine make file read)
    (hjoin : ∀ found more, make (found ++ more.map (Located.below (lines a.toList).length))
      = join (make found) (make more))
    (ha : Closed a.toList) : ReadsInParts read join file a b := by
  have hlines : lines (a ++ b).toList = lines a.toList ++ lines b.toList := by
    rw [String.toList_append, lines_append ha]
  refine ⟨fun problem hp => ?_, fun x problem hx hp => ?_, fun x y hx hy => ?_⟩
  · -- the line that is refused is met before the second part begins
    obtain ⟨good, line, rest, e, hfirst, hgood, hline, rfl⟩ := h.eq_error_iff.mp hp
    refine h.eq_error_iff.mpr ⟨good, line, rest ++ lines b.toList, e, ?_, hgood, hline, rfl⟩
    rw [hlines, hfirst, List.append_assoc, List.cons_append]
  · obtain ⟨items, hitems, -⟩ := h.eq_ok_iff.mp hx
    obtain ⟨good, line, rest, e, hsecond, hgood, hline, rfl⟩ := h.eq_error_iff.mp hp
    refine ⟨_, rfl, h.eq_error_iff.mpr
      ⟨lines a.toList ++ good, line, rest, e, ?_, fun l hl => ?_, hline, ?_⟩⟩
    · rw [hlines, hsecond, List.append_assoc]
    · rcases List.mem_append.mp hl with hl | hl
      · exact exists_item_of_mem hitems l hl
      · exact hgood l hl
    · have hcount : (lines a.toList).length + (1 + good.length)
          = 1 + (lines a.toList ++ good).length := by
        rw [List.length_append]
        omega
      rw [← hcount]
      rfl
  · obtain ⟨items, hitems, rfl⟩ := h.eq_ok_iff.mp hx
    obtain ⟨others, hothers, rfl⟩ := h.eq_ok_iff.mp hy
    refine h.eq_ok_iff.mpr ⟨items ++ others, ?_, ?_⟩
    · rw [hlines]
      exact List.rel_append hitems hothers
    · rw [numbered_append, ← hitems.length_eq, Nat.add_comm 1, numbered_below, hjoin]

end

/-- Where a file has items only, their lines do not matter. -/
theorem map_item_below {α : Type} (k : Nat) (found more : List (Located α)) :
    (found ++ more.map (Located.below k)).map (·.item)
      = found.map (·.item) ++ more.map (·.item) := by
  rw [List.map_append, List.map_map]
  rfl

end Text

/-- A script with another behind it, `k` lines further down. -/
def Script.followedBy (k : Nat) (s t : Script) : Script :=
  { s with commands := s.commands ++ t.commands.map (Text.Located.below k) }

/-- **Scripts, stream files and memory images can be put together from parts.** Each is read as
what its parts are read as, one behind the other, and a refusal names the line that it has in the
whole. -/
theorem joined_texts_read_in_parts (a b file : String) (ha : Text.Closed a.toList) :
    Text.ReadsInParts (Script.read · file) (Script.followedBy (Text.lines a.toList).length) file a b
      ∧ Text.ReadsInParts (StreamText.read · file) (· ++ ·) file a b
      ∧ Text.ReadsInParts (Image.read · file) (· ++ ·) file a b :=
  ⟨(Script.readsLines file).inParts (fun _ _ => rfl) ha,
    (StreamText.readsLines file).inParts (Text.map_item_below _) ha,
    (Image.readsLines file).inParts (Text.map_item_below _) ha⟩

/-- A command that no script has, behind two lines of which one is a remark; a stream file whose
second part goes wrong in its second line; and an image in two parts. -/
theorem joined_texts_read_in_parts_third_line :
    (Text.Closed "# on\r\nWR 0 1\n".toList
        ∧ Script.read "# on\r\nWR 0 1\n" "f" = .ok ⟨"f", [⟨2, .write 0 1⟩]⟩
        ∧ Script.read "XX" "f" = .error (.badLine "f" ⟨1, .unknownCommand "XX"⟩)
        ∧ Script.read ("# on\r\nWR 0 1\n" ++ "XX") "f"
          = .error (.badLine "f" ⟨3, .unknownCommand "XX"⟩))
      ∧ (Text.Closed "5 eof\n".toList
        ∧ StreamText.read "5 eof\n" "f" = .ok [⟨5, true⟩]
        ∧ StreamText.read "6\n7 end" "f" = .error (.badLine "f" ⟨2, .unexpected "end"⟩)
        ∧ StreamText.read ("5 eof\n" ++ "6\n7 end") "f"
          = .error (.badLine "f" ⟨3, .unexpected "end"⟩))
      ∧ Text.Closed "10\n".toList
        ∧ Image.read "10\n" "f" = .ok [16] ∧ Image.read "0x20" "f" = .ok [32]
        ∧ Image.read ("10\n" ++ "0x20") "f" = .ok [16, 32] := by
  refine ⟨?_, ?_, ?_⟩
  · have hclosed : Text.Closed "# on\r\nWR 0 1\n".toList := Or.inr ⟨"# on\r\nWR 0 1".toList, rfl⟩
    have hfirst : Script.read "# on\r\nWR 0 1\n" "f" = .ok ⟨"f", [⟨2, .write 0 1⟩]⟩ := by decide
    have hsecond : Script.read "XX" "f" = .error (.badLine "f" ⟨1, .unknownCommand "XX"⟩) := by
      decide
    obtain ⟨scripts, _⟩ := joined_texts_read_in_parts "# on\r\nWR 0 1\n" "XX" "f" hclosed
    obtain ⟨found, hfound, hwhole⟩ := scripts.second_refused _ _ hfirst hsecond
    cases hfound
    exact ⟨hclosed, hfirst, hsecond, hwhole⟩
  · have hclosed : Text.Closed "5 eof\n".toList := Or.inr ⟨"5 eof".toList, rfl⟩
    have hfirst : StreamText.read "5 eof\n" "f" = .ok [⟨5, true⟩] := by decide
    have hsecond : StreamText.read "6\n7 end" "f"
        = .error (.badLine "f" ⟨2, .unexpected "end"⟩) := by decide
    obtain ⟨_, streams, _⟩ := joined_texts_read_in_parts "5 eof\n" "6\n7 end" "f" hclosed
    obtain ⟨found, hfound, hwhole⟩ := streams.second_refused _ _ hfirst hsecond
    cases hfound
    exact ⟨hclosed, hfirst, hsecond, hwhole⟩
  · have hclosed : Text.Closed "10\n".toList := Or.inr ⟨"10".toList, rfl⟩
    have hfirst : Image.read "10\n" "f" = .ok [16] := by decide
    have hsecond : Image.read "0x20" "f" = .ok [32] := by decide
    obtain ⟨_, _, images⟩ := joined_texts_read_in_parts "10\n" "0x20" "f" hclosed
    exact ⟨hclosed, hfirst, hsecond, images.both_read _ _ hfirst hsecond⟩

end BurstDma
