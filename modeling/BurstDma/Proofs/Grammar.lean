import Mathlib.Data.List.Forall2
import Mathlib.Data.List.Induction
import BurstDma.Proofs.ScriptText
import BurstDma.Stream.Text

/-!
# What texts are made of

The readers go through a text from the left. Here the same things are said without an order:
a *numeral* is a row of digit signs, perhaps behind one `+`, and its value is that of its
digits; the *words* of a line are what stands between blanks; a file is good if each of its
lines is. **Each reader accepts exactly that**, and what it gives back is determined by it.
A format is then a statement about the words of one line, and the first line that breaks it
is the one that is reported.
-/

namespace BurstDma

/-! ## Digits -/

/-- A character between two others is reached by counting from the first. -/
theorem exists_of_between {lo hi c : Char} (h : lo ≤ c ∧ c ≤ hi) :
    ∃ k, c.toNat = lo.toNat + k ∧ lo.toNat + k ≤ hi.toNat ∧ c = Char.ofNat (lo.toNat + k) := by
  have hlo : lo.toNat ≤ c.toNat := h.1
  have hhi : c.toNat ≤ hi.toNat := h.2
  have hsum : c.toNat = lo.toNat + (c.toNat - lo.toNat) := by omega
  refine ⟨c.toNat - lo.toNat, hsum, hsum ▸ hhi, ?_⟩
  rw [← hsum, Char.ofNat_toNat]

namespace Radix

variable {r : Radix} {limit n m d : Nat} {c : Char} {cs : List Char}

/-- A sign for the digit `d`; a letter counts in either case. -/
def IsDigit (r : Radix) (c : Char) (d : Nat) : Prop :=
  d < r.base ∧ (c = Nat.digitChar d ∨ c = (Nat.digitChar d).toUpper)

theorem digit?_of_isDigit (h : r.IsDigit c d) : r.digit? c = some d := by
  have hten : ∀ d : Fin 10, ten.digit? (Nat.digitChar d).toUpper = some d.val := by decide
  have hsixteen : ∀ d : Fin 16, sixteen.digit? (Nat.digitChar d).toUpper = some d.val := by
    decide
  obtain ⟨hd, rfl | rfl⟩ := h
  · exact digit?_digitChar hd
  · cases r with
    | ten => exact hten ⟨d, hd⟩
    | sixteen => exact hsixteen ⟨d, hd⟩

/-- **A character counts as a digit exactly if it is a sign for it.** -/
theorem digit?_eq_some_iff : r.digit? c = some d ↔ r.IsDigit c d := by
  have hplain : ∀ k : Fin 10, Char.ofNat (48 + k) = Nat.digitChar k := by decide
  have hsmall : ∀ k : Fin 6, Char.ofNat (97 + k) = Nat.digitChar (k + 10) := by decide
  have hcapital : ∀ k : Fin 6, Char.ofNat (65 + k) = (Nat.digitChar (k + 10)).toUpper := by
    decide
  refine ⟨fun h => ?_, digit?_of_isDigit⟩
  obtain ⟨hvalue, hbase⟩ := Option.filter_eq_some_iff.mp h
  refine ⟨of_decide_eq_true hbase, ?_⟩
  split at hvalue
  · rename_i hc
    obtain ⟨k, hk, hle, hsign⟩ := exists_of_between hc
    have hlt : 48 + k ≤ 57 := hle
    rw [hk, Nat.add_sub_cancel_left] at hvalue
    cases hvalue
    exact Or.inl (hsign.trans (hplain ⟨d, by omega⟩))
  · split at hvalue
    · rename_i hc
      obtain ⟨k, hk, hle, hsign⟩ := exists_of_between hc
      have hlt : 97 + k ≤ 102 := hle
      rw [hk, Nat.add_sub_cancel_left] at hvalue
      cases hvalue
      exact Or.inl (hsign.trans (hsmall ⟨k, by omega⟩))
    · split at hvalue
      · rename_i hc
        obtain ⟨k, hk, hle, hsign⟩ := exists_of_between hc
        have hlt : 65 + k ≤ 70 := hle
        rw [hk, Nat.add_sub_cancel_left] at hvalue
        cases hvalue
        exact Or.inr (hsign.trans (hcapital ⟨k, by omega⟩))
      · cases hvalue

/-! ## Numerals -/

/-- The digits of a number, the last of them counting once. -/
inductive Digits (r : Radix) : List Char → Nat → Prop where
  | none : Digits r [] 0
  | more {cs : List Char} {n : Nat} {c : Char} {d : Nat} :
      Digits r cs n → r.IsDigit c d → Digits r (cs ++ [c]) (n * r.base + d)

/-- A numeral: digits, at least one of them, and perhaps a `+` in front. -/
inductive Numeral (r : Radix) : List Char → Nat → Prop where
  | plain {digits : List Char} {n : Nat} :
      digits ≠ [] → r.Digits digits n → Numeral r digits n
  | signed {digits : List Char} {n : Nat} :
      digits ≠ [] → r.Digits digits n → Numeral r ('+' :: digits) n

/-- The last digit on top of those before it. -/
theorem readDigits_concat (r : Radix) (limit : Nat) (cs : List Char) (c : Char) :
    r.readDigits limit 0 (cs ++ [c]) = .ok n ↔
      ∃ k d, r.readDigits limit 0 cs = .ok k ∧ r.IsDigit c d ∧ n = k * r.base + d ∧ n < limit := by
  rw [readDigits_append]
  cases hcs : r.readDigits limit 0 cs with
  | error e =>
      constructor
      · intro h
        cases h
      · rintro ⟨k, d, h, _⟩
        cases h
  | ok k =>
      show r.readDigits limit k [c] = .ok n ↔ _
      rw [readDigits]
      constructor
      · intro h
        split at h
        · cases h
        · rename_i d hd
          split at h
          · rename_i hlt
            cases h
            exact ⟨k, d, rfl, digit?_eq_some_iff.mp hd, rfl, hlt⟩
          · cases h
      · rintro ⟨k', d, hk, hd, rfl, hlt⟩
        cases hk
        rw [digit?_eq_some_iff.mpr hd]
        exact if_pos hlt

/-- **Digits are read as the number that they make**, if it is within the limit. What the
reader has seen on its way is no larger, so it is not refused earlier. -/
theorem readDigits_eq_ok_iff (hlimit : 0 < limit) :
    r.readDigits limit 0 cs = .ok n ↔ r.Digits cs n ∧ n < limit := by
  induction cs using List.reverseRecOn generalizing n with
  | nil =>
      constructor
      · intro h
        cases h
        exact ⟨.none, hlimit⟩
      · rintro ⟨h, _⟩
        generalize hcs : ([] : List Char) = cs at h
        cases h with
        | none => rfl
        | more => exact absurd hcs.symm (List.append_ne_nil_of_right_ne_nil _ (List.cons_ne_nil _ _))
  | append_singleton cs c ih =>
      rw [readDigits_concat]
      constructor
      · rintro ⟨k, d, hk, hd, rfl, hlt⟩
        exact ⟨.more (ih.mp hk).1 hd, hlt⟩
      · rintro ⟨h, hlt⟩
        generalize hcs : cs ++ [c] = all at h
        cases h with
        | none => exact absurd hcs (List.append_ne_nil_of_right_ne_nil _ (List.cons_ne_nil _ _))
        | @more cs' k c' d hk hd =>
            obtain ⟨rfl, hc⟩ := List.append_inj' hcs rfl
            cases hc
            have hfront : k ≤ k * r.base := Nat.le_mul_of_pos_right _ (by have := r.two_le_base; omega)
            exact ⟨k, d, ih.mpr ⟨hk, by omega⟩, hd, rfl, hlt⟩

/-- A plus is no digit. -/
theorem not_isDigit_plus : ¬ r.IsDigit '+' d := by
  intro h
  have hnone : r.digit? '+' = none := by cases r <;> rfl
  rw [digit?_eq_some_iff.mpr h] at hnone
  cases hnone

theorem isDigit_of_mem_digits (h : r.Digits cs n) (hc : c ∈ cs) : ∃ d, r.IsDigit c d := by
  induction h with
  | none => cases hc
  | more _ hd ih =>
      rcases List.mem_append.mp hc with hc | hc
      · exact ih hc
      · rw [List.mem_singleton.mp hc]
        exact ⟨_, hd⟩

/-- **The reader of a number accepts exactly the numerals** below its limit, and gives their
value back. -/
theorem read_eq_ok_iff (hlimit : 0 < limit) :
    r.read limit cs = .ok n ↔ r.Numeral cs n ∧ n < limit := by
  have hplus : ∀ {rest : List Char} {k : Nat}, ¬ r.Digits ('+' :: rest) k := by
    intro rest k h
    obtain ⟨d, hd⟩ := isDigit_of_mem_digits h List.mem_cons_self
    exact not_isDigit_plus hd
  unfold read
  split
  · constructor
    · intro h
      cases h
    · rintro ⟨h, _⟩
      cases h with
      | plain hne _ => exact absurd rfl hne
  · constructor
    · intro h
      cases h
    · rintro ⟨h, _⟩
      cases h with
      | plain _ hd => exact absurd hd hplus
      | signed hne _ => exact absurd rfl hne
  · rename_i rest hrest
    rw [readDigits_eq_ok_iff hlimit]
    have hne : rest ≠ [] := fun hc => hrest hc
    constructor
    · rintro ⟨hd, hlt⟩
      exact ⟨.signed hne hd, hlt⟩
    · rintro ⟨h, hlt⟩
      cases h with
      | plain _ hd => exact absurd hd hplus
      | signed _ hd => exact ⟨hd, hlt⟩
  · rename_i hempty _ hsigned
    rw [readDigits_eq_ok_iff hlimit]
    constructor
    · rintro ⟨hd, hlt⟩
      exact ⟨.plain (fun hc => hempty hc) hd, hlt⟩
    · rintro ⟨h, hlt⟩
      cases h with
      | plain _ hd => exact ⟨hd, hlt⟩
      | signed _ _ => exact absurd rfl (hsigned _)

end Radix

namespace Text

/-! ## Words -/

/-- What can stand between words. -/
def IsGap (gap : List Char) : Prop :=
  ∀ c ∈ gap, isBlank c = true

/-- What stands together: some characters and no blank among them. -/
structure IsToken (w : List Char) : Prop where
  nonempty : w ≠ []
  solid : ∀ c ∈ w, isBlank c = false

/-- The words of a line: blanks may stand anywhere else, and do between two words. -/
inductive WordsOf : List Char → List (List Char) → Prop where
  | none {gap : List Char} : IsGap gap → WordsOf gap []
  | last {gap w : List Char} : IsGap gap → IsToken w → WordsOf (gap ++ w) [w]
  | more {gap w : List Char} {b : Char} {rest : List Char} {words : List (List Char)} :
      IsGap gap → IsToken w → isBlank b = true → WordsOf rest words →
      WordsOf (gap ++ (w ++ b :: rest)) (w :: words)

variable {gap line rest : List Char} {words : List (List Char)} {b : Char}

theorem isGap_nil : IsGap [] :=
  fun _ hc => absurd hc List.not_mem_nil

theorem IsGap.cons (hb : isBlank b = true) (h : IsGap gap) : IsGap (b :: gap) := by
  intro c hc
  rcases List.mem_cons.mp hc with rfl | hc
  · exact hb
  · exact h c hc

/-- A blank in front changes nothing. -/
theorem WordsOf.blank (hb : isBlank b = true) (h : WordsOf line words) :
    WordsOf (b :: line) words := by
  cases h with
  | none hgap => exact .none (hgap.cons hb)
  | last hgap hw => exact .last (hgap.cons hb) hw
  | more hgap hw hb' hrest => exact .more (hgap.cons hb) hw hb' hrest

/-- The reader goes on with a word that it has begun, or looks for one. -/
theorem wordsOf_tokensFrom (run line : List Char) (hrun : ∀ c ∈ run, isBlank c = false) :
    WordsOf (run.reverse ++ line) (tokensFrom run line) := by
  have htoken : run.isEmpty = false → IsToken run.reverse := fun h =>
    ⟨fun hc => List.isEmpty_eq_false_iff.mp h (List.reverse_eq_nil_iff.mp hc),
      fun c hc => hrun c (List.mem_reverse.mp hc)⟩
  induction line generalizing run with
  | nil =>
      rw [tokensFrom, List.append_nil]
      cases hr : run.isEmpty with
      | true =>
          rw [if_pos rfl, List.isEmpty_iff.mp hr]
          exact .none isGap_nil
      | false => exact .last isGap_nil (htoken hr)
  | cons c rest ih =>
      have hend := ih [] (fun c hc => absurd hc List.not_mem_nil) fun h => by cases h
      rw [tokensFrom]
      cases hc : isBlank c with
      | true =>
          rw [if_pos rfl]
          cases hr : run.isEmpty with
          | true =>
              rw [if_pos rfl, List.isEmpty_iff.mp hr]
              exact hend.blank hc
          | false => exact .more isGap_nil (htoken hr) hc hend
      | false =>
          rw [if_neg Bool.false_ne_true]
          have hmore : ∀ d ∈ c :: run, isBlank d = false := by
            intro d hd
            rcases List.mem_cons.mp hd with rfl | hd
            · exact hc
            · exact hrun d hd
          have hgoes := ih (c :: run) hmore fun _ =>
            ⟨fun h => by simp at h, fun d hd => hmore d (List.mem_reverse.mp hd)⟩
          rwa [List.reverse_cons, List.append_assoc] at hgoes

theorem tokens_gap_append (hgap : IsGap gap) : tokens (gap ++ line) = tokens line := by
  induction gap with
  | nil => rfl
  | cons c gap ih =>
      have hrest := ih fun d hd => hgap d (List.mem_cons_of_mem _ hd)
      unfold tokens at hrest ⊢
      rw [List.cons_append, tokensFrom, if_pos (hgap c List.mem_cons_self), List.isEmpty_nil,
        if_pos rfl, hrest]

/-- **A line is cut into its words.** -/
theorem tokens_eq_iff : tokens line = words ↔ WordsOf line words := by
  constructor
  · rintro rfl
    exact wordsOf_tokensFrom [] line fun c hc => absurd hc List.not_mem_nil
  · intro h
    induction h with
    | none hgap => exact tokens_gap hgap
    | @last gap w hgap hw =>
        have hend := tokens_word_gap hw.nonempty hw.solid isGap_nil
        rw [List.append_nil] at hend
        rw [tokens_gap_append hgap, hend]
    | more hgap hw hb _ ih =>
        rw [tokens_gap_append hgap, tokens_word_blank hw.nonempty hw.solid hb, ih]

/-! ## Lines -/

variable {ε α : Type} {read : List Char → Except ε (Option α)} {ls : List (List Char)}
  {before found : List (Located α)} {n : Nat}

/-- A line that is read is behind the reader, with its number. -/
theorem readFrom_cons {line : List Char} {item : Option α}
    (h : read (withoutComment line) = .ok item) :
    readFrom read n before (line :: ls)
      = readFrom read (n + 1) ((item.map (Located.mk n ·)).toList ++ before) ls := by
  rw [readFrom, h]
  cases item with
  | none => rfl
  | some a => rfl

/-- **A text is read if each of its lines is**, and then as what stands on the lines. -/
theorem readFrom_eq_ok_iff :
    readFrom read n before ls = .ok found ↔
      ∃ items, List.Forall₂ (fun line item => read (withoutComment line) = .ok item) ls items
        ∧ found = before.reverse ++ numbered id n items := by
  induction ls generalizing n before with
  | nil =>
      rw [readFrom]
      constructor
      · intro h
        cases h
        exact ⟨[], .nil, (List.append_nil _).symm⟩
      · rintro ⟨items, hitems, rfl⟩
        cases hitems
        rw [numbered, List.append_nil]
  | cons line ls ih =>
      have hnumbered : ∀ (item : Option α) (items : List (Option α)),
          before.reverse ++ numbered id n (item :: items)
            = ((item.map (Located.mk n ·)).toList ++ before).reverse
              ++ numbered id (n + 1) items := by
        intro item items
        cases item with
        | none => rfl
        | some a => simp [numbered]
      constructor
      · intro h
        cases hline : read (withoutComment line) with
        | error e =>
            rw [readFrom, hline] at h
            cases h
        | ok item =>
            rw [readFrom_cons hline] at h
            obtain ⟨items, hitems, rfl⟩ := ih.mp h
            exact ⟨item :: items, .cons hline hitems, (hnumbered item items).symm⟩
      · rintro ⟨_, hitems, rfl⟩
        cases hitems with
        | @cons _ item _ items hitem hitems =>
            rw [readFrom_cons hitem, ih]
            exact ⟨items, hitems, hnumbered item items⟩

theorem readFrom_refused {good rest : List (List Char)} {line : List Char} {e : ε}
    (hgood : ∀ l ∈ good, ∃ item, read (withoutComment l) = .ok item)
    (hline : read (withoutComment line) = .error e) :
    readFrom read n before (good ++ line :: rest) = .error ⟨n + good.length, e⟩ := by
  induction good generalizing n before with
  | nil =>
      rw [List.nil_append, readFrom, hline]
      rfl
  | cons l good ih =>
      obtain ⟨item, hitem⟩ := hgood l List.mem_cons_self
      have hcount : n + 1 + good.length = n + (l :: good).length := by
        rw [List.length_cons]
        omega
      rw [List.cons_append, readFrom_cons hitem, ih fun l' hl' =>
        hgood l' (List.mem_cons_of_mem _ hl'), hcount]

/-- **The first line that is refused is the one that is reported.** -/
theorem readFrom_eq_error_iff {found : Located ε} :
    readFrom read n before ls = .error found ↔
      ∃ good line rest e, ls = good ++ line :: rest
        ∧ (∀ l ∈ good, ∃ item, read (withoutComment l) = .ok item)
        ∧ read (withoutComment line) = .error e ∧ found = ⟨n + good.length, e⟩ := by
  constructor
  · intro h
    induction ls generalizing n before with
    | nil =>
        rw [readFrom] at h
        cases h
    | cons line ls ih =>
        cases hline : read (withoutComment line) with
        | error e =>
            rw [readFrom, hline] at h
            cases h
            exact ⟨[], line, ls, e, rfl, fun l hl => absurd hl List.not_mem_nil, hline, rfl⟩
        | ok item =>
            rw [readFrom_cons hline] at h
            obtain ⟨good, bad, rest, e, rfl, hgood, hbad, rfl⟩ := ih h
            refine ⟨line :: good, bad, rest, e, rfl, fun l hl => ?_, hbad, ?_⟩
            · rcases List.mem_cons.mp hl with rfl | hl
              · exact ⟨item, hline⟩
              · exact hgood l hl
            · rw [List.length_cons, Nat.add_assoc, Nat.add_comm 1]
  · rintro ⟨good, line, rest, e, rfl, hgood, hline, rfl⟩
    exact readFrom_refused hgood hline

/-! ## Files -/

/-- A reader that goes through a text line by line, and makes something of what it found. -/
structure ReadsLines {α β : Type} (readLine : List Char → Except LineError (Option α))
    (make : List (Located α) → β) (file : String) (read : String → Attempt β) : Prop where
  made : ∀ {text found}, readLines readLine text.toList = .ok found → read text = .ok (make found)
  refused : ∀ {text e}, readLines readLine text.toList = .error e →
    read text = .error (.badLine file e)

namespace ReadsLines

variable {β : Type} {readLine : List Char → Except LineError (Option α)}
  {make : List (Located α) → β} {file text : String} {readText : String → Attempt β}

/-- A file is read as what stands on its lines. -/
theorem eq_ok_iff (h : ReadsLines readLine make file readText) {x : β} :
    readText text = .ok x ↔
      ∃ items, List.Forall₂ (fun line item => readLine (withoutComment line) = .ok item)
          (lines text.toList) items
        ∧ x = make (numbered id 1 items) := by
  constructor
  · intro hx
    cases hfound : readLines readLine text.toList with
    | error e =>
        rw [h.refused hfound] at hx
        cases hx
    | ok found =>
        rw [h.made hfound] at hx
        cases hx
        obtain ⟨items, hitems, rfl⟩ := readFrom_eq_ok_iff.mp hfound
        exact ⟨items, hitems, rfl⟩
  · rintro ⟨items, hitems, rfl⟩
    exact h.made (readFrom_eq_ok_iff.mpr ⟨items, hitems, rfl⟩)

/-- A file is refused for the first line that is. -/
theorem eq_error_iff (h : ReadsLines readLine make file readText) {problem : Problem} :
    readText text = .error problem ↔
      ∃ good line rest e, lines text.toList = good ++ line :: rest
        ∧ (∀ l ∈ good, ∃ item, readLine (withoutComment l) = .ok item)
        ∧ readLine (withoutComment line) = .error e
        ∧ problem = .badLine file ⟨1 + good.length, e⟩ := by
  constructor
  · intro hp
    cases hfound : readLines readLine text.toList with
    | ok found =>
        rw [h.made hfound] at hp
        cases hp
    | error e =>
        rw [h.refused hfound] at hp
        cases hp
        obtain ⟨good, line, rest, e, hlines, hgood, hline, rfl⟩ := readFrom_eq_error_iff.mp hfound
        exact ⟨good, line, rest, e, hlines, hgood, hline, rfl⟩
  · rintro ⟨good, line, rest, e, hlines, hgood, hline, rfl⟩
    exact h.refused (readFrom_eq_error_iff.mpr ⟨good, line, rest, e, hlines, hgood, hline, rfl⟩)

end ReadsLines

end Text

theorem Script.readsLines (file : String) :
    Text.ReadsLines Script.readLine (⟨file, ·⟩) file (Script.read · file) where
  made h := by rw [Script.read, h]
  refused h := by rw [Script.read, h]

theorem StreamText.readsLines (file : String) :
    Text.ReadsLines StreamText.readLine (·.map (·.item)) file (StreamText.read · file) where
  made h := by rw [StreamText.read, h]
  refused h := by rw [StreamText.read, h]

theorem Image.readsLines (file : String) :
    Text.ReadsLines Image.readLine (·.map (·.item)) file (Image.read · file) where
  made h := by rw [Image.read, h]
  refused h := by rw [Image.read, h]

end BurstDma
