import BurstDma.Proofs.Grammar
import BurstDma.Proofs.Result
import BurstDma.Stream.Text

/-!
# The language of stream files

A line of a stream file has the form `data [eof]`. Here the form is written down as what a
line can say: nothing, a beat, or the last beat of a frame; and **a file is read exactly if
each of its lines says something**, as what the lines say, in their order. If one does not,
the first of those is the line that the refusal names.

In one point the reader is more generous than the form. What stands behind an end tag is not
looked at, so `Says` has it as an index of its own: the form asks for it to be empty, the
reader does not.
-/

namespace BurstDma

namespace StreamText

/-! ## Words of data -/

/-- The number that a word of a stream file denotes. -/
inductive Denotes : List Char → Word → Prop where
  | decimal {token : List Char} {w : Word} :
      Radix.ten.Numeral token w.toNat → Denotes token w
  | hexadecimal {mark : Char} {digits : List Char} {w : Word} :
      mark = 'x' ∨ mark = 'X' → Radix.sixteen.Numeral digits w.toNat →
      Denotes ('0' :: mark :: digits) w

variable {token line : List Char} {mark : Char} {digits : List Char} {n : Nat} {last : Bool}

theorem readWord_marked (hmark : mark = 'x' ∨ mark = 'X') :
    readWord ('0' :: mark :: digits) = Radix.sixteen.read limit64 digits := by
  rcases hmark with rfl | rfl <;> rfl

theorem readWord_plain
    (h : ∀ mark digits, mark = 'x' ∨ mark = 'X' → token ≠ '0' :: mark :: digits) :
    readWord token = Radix.ten.read limit64 token := by
  unfold readWord
  split
  · exact absurd rfl (h _ _ (Or.inl rfl))
  · exact absurd rfl (h _ _ (Or.inr rfl))
  · rfl

/-- The letter behind the zero is no digit, so a word has one base only. -/
theorem not_numeral_marked {r : Radix} (hmark : mark = 'x' ∨ mark = 'X') :
    ¬ r.Numeral ('0' :: mark :: digits) n := by
  intro h
  have hnone : r.digit? mark = none := by
    cases r <;> rcases hmark with rfl | rfl <;> decide
  cases h with
  | plain _ hdigits =>
      obtain ⟨d, hd⟩ := Radix.isDigit_of_mem_digits hdigits
        (List.mem_cons_of_mem _ List.mem_cons_self)
      rw [Radix.digit?_eq_some_iff.mpr hd] at hnone
      cases hnone

/-- A number below the limit is a word. -/
theorem exists_word_iff {P : Nat → Prop} :
    (∃ w : Word, w.toNat = n ∧ P w.toNat) ↔ P n ∧ n < limit64 := by
  constructor
  · rintro ⟨w, rfl, hw⟩
    exact ⟨hw, w.toNat_lt⟩
  · rintro ⟨hn, hlt⟩
    have hw : (UInt64.ofNat n).toNat = n := UInt64.toNat_ofNat_of_lt hlt
    exact ⟨UInt64.ofNat n, hw, hw.symm ▸ hn⟩

/-- **The reader of a word accepts exactly what denotes one.** -/
theorem readWord_eq_ok_iff : readWord token = .ok n ↔ ∃ w, w.toNat = n ∧ Denotes token w := by
  have hlimit : 0 < limit64 := by decide
  by_cases hmarked : ∃ mark digits, (mark = 'x' ∨ mark = 'X') ∧ token = '0' :: mark :: digits
  · obtain ⟨mark, digits, hmark, rfl⟩ := hmarked
    have hdenotes : ∀ w : Word, Denotes ('0' :: mark :: digits) w
        ↔ Radix.sixteen.Numeral digits w.toNat := by
      intro w
      constructor
      · intro h
        cases h with
        | decimal h => exact absurd h (not_numeral_marked hmark)
        | hexadecimal _ h => exact h
      · exact .hexadecimal hmark
    simp only [hdenotes]
    rw [readWord_marked hmark, Radix.read_eq_ok_iff hlimit, ← exists_word_iff]
  · have hdenotes : ∀ w : Word, Denotes token w ↔ Radix.ten.Numeral token w.toNat := by
      intro w
      constructor
      · intro h
        cases h with
        | decimal h => exact h
        | hexadecimal hmark _ => exact absurd ⟨_, _, hmark, rfl⟩ hmarked
      · exact .decimal
    simp only [hdenotes]
    rw [readWord_plain fun mark digits hmark h => hmarked ⟨mark, digits, hmark, h⟩,
      Radix.read_eq_ok_iff hlimit, ← exists_word_iff]

/-! ## End tags -/

/-- The tag of a beat that ends its frame: `eof`, each letter in either case. -/
inductive EndTag : List Char → Prop where
  | letters {e o f : Char} :
      e = 'e' ∨ e = 'E' → o = 'o' ∨ o = 'O' → f = 'f' ∨ f = 'F' → EndTag [e, o, f]

/-- A character whose small letter is known is that letter, or the capital over it. -/
theorem eq_of_toLower {c l : Char} (h : c.toLower = l) :
    c = l ∨ c = Char.ofNat (l.toNat - 32) := by
  unfold Char.toLower at h
  split at h
  · rename_i hc
    have hlo : 65 ≤ c.val.toNat := hc.1
    have hhi : c.val.toNat ≤ 90 := hc.2
    have hthirtytwo : (32 : UInt32).toNat = 32 := rfl
    have hsum : (c.val + 32).toNat = l.toNat := congrArg Char.toNat h
    have hc' : l.toNat - 32 = c.toNat := by
      show l.toNat - 32 = c.val.toNat
      rw [← hsum, UInt32.toNat_add]
      omega
    rw [hc', Char.ofNat_toNat]
    exact Or.inr rfl
  · exact Or.inl h

theorem isEndTag_iff : isEndTag token = true ↔ EndTag token := by
  constructor
  · intro h
    have hmap : token.map Char.toLower = ['e', 'o', 'f'] := beq_iff_eq.mp h
    obtain ⟨e, t, rfl, he, ht⟩ := List.map_eq_cons_iff.mp hmap
    obtain ⟨o, t, rfl, ho, ht⟩ := List.map_eq_cons_iff.mp ht
    obtain ⟨f, t, rfl, hf, ht⟩ := List.map_eq_cons_iff.mp ht
    rw [List.map_eq_nil_iff.mp ht]
    exact .letters (eq_of_toLower he) (eq_of_toLower ho) (eq_of_toLower hf)
  · rintro ⟨rfl | rfl, rfl | rfl, rfl | rfl⟩ <;> decide

/-! ## Lines -/

/-- What a line says: nothing, a beat, or the last beat of a frame. The words behind an end
tag are the last index. -/
inductive Says : List Char → Option Beat → List (List Char) → Prop where
  | nothing {line : List Char} : Text.WordsOf line [] → Says line none []
  | beat {line token : List Char} {w : Word} :
      Text.WordsOf line [token] → Denotes token w → Says line (some ⟨w, false⟩) []
  | lastBeat {line token tag : List Char} {surplus : List (List Char)} {w : Word} :
      Text.WordsOf line (token :: tag :: surplus) → Denotes token w → EndTag tag →
      Says line (some ⟨w, true⟩) surplus

/-- What is wrong with a line: its first word denotes nothing, or its second is no tag. -/
inductive Wrong : List Char → LineError → Prop where
  | word {line token : List Char} {words : List (List Char)} {cause : NumeralError} :
      Text.WordsOf line (token :: words) → (∀ w, ¬ Denotes token w) →
      Wrong line (.streamWord (String.ofList token) cause)
  | tag {line token tag : List Char} {words : List (List Char)} {w : Word} :
      Text.WordsOf line (token :: tag :: words) → Denotes token w → ¬ EndTag tag →
      Wrong line (.unexpected (String.ofList tag))

theorem readTag_eq_ok_iff {rest : List (List Char)} :
    readTag rest = .ok last ↔
      (rest = [] ∧ last = false)
        ∨ ∃ tag surplus, rest = tag :: surplus ∧ EndTag tag ∧ last = true := by
  cases rest with
  | nil =>
      constructor
      · intro h
        cases h
        exact Or.inl ⟨rfl, rfl⟩
      · rintro (⟨_, rfl⟩ | ⟨_, _, h, _⟩)
        · rfl
        · cases h
  | cons tag surplus =>
      rw [readTag]
      constructor
      · intro h
        split at h
        · rename_i htag
          cases h
          exact Or.inr ⟨tag, surplus, rfl, isEndTag_iff.mp htag, rfl⟩
        · cases h
      · rintro (⟨h, _⟩ | ⟨_, _, h, htag, rfl⟩)
        · cases h
        · cases h
          rw [if_pos (isEndTag_iff.mpr htag)]

theorem readLine_blank (hwords : Text.WordsOf line []) : readLine line = .ok none := by
  unfold readLine
  rw [Text.tokens_eq_iff.mpr hwords]

/-- A line is refused for its first word, whatever comes behind it. -/
theorem readLine_bad {rest : List (List Char)} {cause : NumeralError}
    (hwords : Text.WordsOf line (token :: rest)) (hword : readWord token = .error cause) :
    readLine line = .error (.streamWord (String.ofList token) cause) := by
  unfold readLine
  rw [Text.tokens_eq_iff.mpr hwords]
  dsimp only
  rw [hword]

/-- A line whose first word is good goes on to its tag. -/
theorem readLine_cons {rest : List (List Char)} {w : Word}
    (hwords : Text.WordsOf line (token :: rest)) (hw : Denotes token w) :
    readLine line = (readTag rest).map fun last => some ⟨w, last⟩ := by
  have hword : readWord token = .ok w.toNat := readWord_eq_ok_iff.mpr ⟨w, rfl, hw⟩
  unfold readLine
  rw [Text.tokens_eq_iff.mpr hwords]
  dsimp only
  rw [hword]
  dsimp only
  rw [UInt64.ofNat_toNat]

/-- A line is blank, or it has a first word; and that denotes a word of data or none. -/
theorem line_cases (line : List Char) :
    Text.WordsOf line []
      ∨ (∃ token rest cause, Text.WordsOf line (token :: rest) ∧ readWord token = .error cause)
      ∨ ∃ token rest w, Text.WordsOf line (token :: rest) ∧ Denotes token w := by
  cases hwords : Text.tokens line with
  | nil => exact Or.inl (Text.tokens_eq_iff.mp hwords)
  | cons token rest =>
      rw [Text.tokens_eq_iff] at hwords
      cases hword : readWord token with
      | error cause => exact Or.inr (Or.inl ⟨token, rest, cause, hwords, hword⟩)
      | ok n =>
          obtain ⟨w, -, hw⟩ := readWord_eq_ok_iff.mp hword
          exact Or.inr (Or.inr ⟨token, rest, w, hwords, hw⟩)

/-- **The reader of a line accepts exactly the lines that say something**, with anything
behind an end tag. -/
theorem readLine_eq_ok_iff {item : Option Beat} :
    readLine line = .ok item ↔ ∃ surplus, Says line item surplus := by
  constructor
  · intro h
    rcases line_cases line with hwords | ⟨token, rest, cause, hwords, hword⟩
      | ⟨token, rest, w, hwords, hw⟩
    · rw [readLine_blank hwords] at h
      cases h
      exact ⟨[], .nothing hwords⟩
    · rw [readLine_bad hwords hword] at h
      cases h
    · rw [readLine_cons hwords hw] at h
      obtain ⟨last, hlast, rfl⟩ := except_map_eq_ok.mp h
      rcases readTag_eq_ok_iff.mp hlast with ⟨rfl, rfl⟩ | ⟨tag, surplus, rfl, htag, rfl⟩
      · exact ⟨[], .beat hwords hw⟩
      · exact ⟨surplus, .lastBeat hwords hw htag⟩
  · rintro ⟨surplus, h⟩
    cases h with
    | nothing hwords => exact readLine_blank hwords
    | beat hwords hw => rw [readLine_cons hwords hw]; rfl
    | lastBeat hwords hw htag =>
        rw [readLine_cons hwords hw, readTag_eq_ok_iff.mpr (Or.inr ⟨_, _, rfl, htag, rfl⟩)]
        rfl

/-- A line is refused for what is wrong with it. -/
theorem wrong_of_readLine_eq_error {e : LineError} (h : readLine line = .error e) :
    Wrong line e := by
  rcases line_cases line with hwords | ⟨token, rest, cause, hwords, hword⟩
    | ⟨token, rest, w, hwords, hw⟩
  · rw [readLine_blank hwords] at h
    cases h
  · rw [readLine_bad hwords hword] at h
    cases h
    refine .word hwords fun w hw => ?_
    rw [readWord_eq_ok_iff.mpr ⟨w, rfl, hw⟩] at hword
    cases hword
  · rw [readLine_cons hwords hw] at h
    cases rest with
    | nil => cases h
    | cons tag surplus =>
        rw [readTag] at h
        split at h
        · cases h
        · rename_i htag
          cases h
          exact .tag hwords hw fun hc => htag (isEndTag_iff.mpr hc)

/-! ## Files -/

/-- A line of a file that says something, apart from its comment. -/
def Sound (line : List Char) : Prop :=
  ∃ item surplus, Says (Text.withoutComment line) item surplus

theorem sound_iff : Sound line ↔ ∃ item, readLine (Text.withoutComment line) = .ok item :=
  exists_congr fun _ => readLine_eq_ok_iff.symm

/-- The beats of a file are those of its lines. -/
theorem read_eq_ok_iff {text file : String} {beats : List Beat} :
    read text file = .ok beats ↔
      ∃ items, List.Forall₂ (fun line item => readLine (Text.withoutComment line) = .ok item)
          (Text.lines text.toList) items
        ∧ beats = items.filterMap id := by
  refine (readsLines file).eq_ok_iff.trans (exists_congr fun items => ?_)
  rw [Text.map_item_numbered]

theorem read_eq_error_iff {text file : String} {problem : Problem} :
    read text file = .error problem ↔
      ∃ good line rest e, Text.lines text.toList = good ++ line :: rest
        ∧ (∀ l ∈ good, ∃ item, readLine (Text.withoutComment l) = .ok item)
        ∧ readLine (Text.withoutComment line) = .error e
        ∧ problem = .badLine file ⟨1 + good.length, e⟩ :=
  (readsLines file).eq_error_iff

/-- **A stream file is read exactly if each line of it says something**, and then as the
beats that the lines say, in their order. Otherwise the refusal names the first line that says
nothing, and what is wrong with it. -/
theorem read_exactly_the_sound_files (text file : String) :
    (∀ beats, read text file = .ok beats ↔
      ∃ items, List.Forall₂
          (fun line item => ∃ surplus, Says (Text.withoutComment line) item surplus)
          (Text.lines text.toList) items
        ∧ beats = items.filterMap id)
      ∧ ∀ problem, read text file = .error problem →
        ∃ before line after reason, Text.lines text.toList = before ++ line :: after
          ∧ (∀ l ∈ before, Sound l) ∧ ¬ Sound line
          ∧ Wrong (Text.withoutComment line) reason
          ∧ problem = .badLine file ⟨before.length + 1, reason⟩ := by
  refine ⟨fun beats => ?_, fun problem hproblem => ?_⟩
  · simp only [← readLine_eq_ok_iff]
    exact read_eq_ok_iff
  · obtain ⟨good, line, rest, e, hlines, hgood, hline, rfl⟩ := read_eq_error_iff.mp hproblem
    refine ⟨good, line, rest, e, hlines, fun l hl => sound_iff.mpr (hgood l hl), fun hsound => ?_,
      wrong_of_readLine_eq_error hline, by rw [Nat.add_comm]⟩
    obtain ⟨item, hitem⟩ := sound_iff.mp hsound
    rw [hline] at hitem
    cases hitem

/-- A file whose second line is the first that says nothing. -/
theorem read_exactly_the_sound_files_second :
    read "1\n2 end\n" "f" = .error (.badLine "f" ⟨2, .unexpected "end"⟩)
      ∧ ∃ before line after reason, Text.lines "1\n2 end\n".toList = before ++ line :: after
          ∧ (∀ l ∈ before, Sound l) ∧ ¬ Sound line
          ∧ Wrong (Text.withoutComment line) reason
          ∧ Problem.badLine "f" ⟨2, .unexpected "end"⟩ = .badLine "f" ⟨before.length + 1, reason⟩ :=
  ⟨by decide, (read_exactly_the_sound_files "1\n2 end\n" "f").2 _ (by decide)⟩

/-- Words behind an end tag are passed over: the form has no place for the `2` of this line,
and the line is read. -/
theorem surplus_is_passed_over :
    read "1 eof 2\n" "f" = .ok [⟨1, true⟩]
      ∧ ∀ line ∈ Text.lines "1 eof 2\n".toList,
          ¬ ∃ item, Says (Text.withoutComment line) item [] := by
  have htokens : ∀ line ∈ Text.lines "1 eof 2\n".toList,
      Text.tokens (Text.withoutComment line) = [['1'], ['e', 'o', 'f'], ['2']] := by
    decide
  refine ⟨by decide, fun line hline => ?_⟩
  rintro ⟨item, h⟩
  have hwords := htokens line hline
  cases h with
  | nothing h =>
      rw [Text.tokens_eq_iff.mpr h] at hwords
      cases hwords
  | beat h _ =>
      rw [Text.tokens_eq_iff.mpr h] at hwords
      cases hwords
  | lastBeat h _ _ =>
      rw [Text.tokens_eq_iff.mpr h] at hwords
      cases hwords

end StreamText

end BurstDma
