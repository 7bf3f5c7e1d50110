import BurstDma.Proofs.ReadBack

/-!
# Hexadecimal words in three formats

Scripts and memory images have hexadecimal words, and stream files have them behind a mark. The
notation is a numeral with perhaps one mark in front, `0x` or `0X`, and **for tokens with one
mark all three readers are of one mind**: a number that fits is read by all of them, and as the
same, and what is no number is refused by all.

The readers of scripts and images do not stop at one mark. They pass over any number of small
ones and then over any number of large ones, so they read more tokens than the notation has:
`MarkedNumeral` is what they go by. The reader of stream files takes one mark off, and refuses a
token with a second one.
-/

namespace BurstDma

/-! ## Marks -/

/-- The letter of a mark. -/
def IsMark (c : Char) : Prop :=
  c = 'x' ∨ c = 'X'

/-- The notation of a hexadecimal number: a numeral, perhaps behind one mark. -/
inductive HexNumeral : List Char → Nat → Prop where
  | plain {digits : List Char} {n : Nat} :
      Radix.sixteen.Numeral digits n → HexNumeral digits n
  | marked {mark : Char} {digits : List Char} {n : Nat} :
      IsMark mark → Radix.sixteen.Numeral digits n → HexNumeral ('0' :: mark :: digits) n

/-- `k` marks with one letter. -/
def marks (mark : Char) : Nat → List Char
  | 0 => []
  | k + 1 => '0' :: mark :: marks mark k

/-- A numeral behind any number of small marks and then any number of large ones. -/
def MarkedNumeral (token : List Char) (n : Nat) : Prop :=
  ∃ small large digits, token = marks 'x' small ++ (marks 'X' large ++ digits)
    ∧ Radix.sixteen.Numeral digits n

/-- A token with a mark behind its first one. -/
def Remarked (token : List Char) : Prop :=
  ∃ mark again rest, IsMark mark ∧ IsMark again ∧ token = '0' :: mark :: '0' :: again :: rest

/-- All three readers take a token for the number `n`. -/
structure AllRead (token : List Char) (n : Nat) : Prop where
  script : Script.readHex token = .ok (UInt32.ofNat n)
  image : Image.readLine token = .ok (some (UInt64.ofNat n))
  stream : StreamText.readWord token = .ok n

/-- None of them takes it for anything. -/
structure AllRefuse (token : List Char) : Prop where
  script : ∀ a, Script.readHex token ≠ .ok a
  image : ∀ item, Image.readLine token ≠ .ok item
  stream : ∀ n, StreamText.readWord token ≠ .ok n

variable {token digits rest : List Char} {mark : Char} {n k : Nat}

namespace Text

theorem dropMarks_marks (mark : Char) (k : Nat) (cs : List Char) :
    dropMarks mark (marks mark k ++ cs) = dropMarks mark cs := by
  induction k with
  | zero => rfl
  | succ k ih =>
      rw [marks, List.cons_append, List.cons_append, dropMarks, if_pos rfl, ih]

/-- What is dropped are marks. -/
theorem exists_marks_dropMarks (mark : Char) (cs : List Char) :
    ∃ k, cs = marks mark k ++ dropMarks mark cs := by
  fun_induction dropMarks mark cs with
  | case1 rest ih =>
      obtain ⟨k, hk⟩ := ih
      exact ⟨k + 1, congrArg ('0' :: mark :: ·) hk⟩
  | case2 c rest hc => exact ⟨0, rfl⟩
  | case3 cs hcs => exact ⟨0, rfl⟩

theorem dropMarks_of_ne {cs : List Char} (h : ∀ rest, cs ≠ '0' :: mark :: rest) :
    dropMarks mark cs = cs := by
  unfold dropMarks
  split
  · rename_i c rest
    refine if_neg ?_
    rintro rfl
    exact h rest rfl
  · rfl

end Text

/-- No mark is left in front of a numeral. -/
theorem Radix.Numeral.dropMarks (h : Radix.sixteen.Numeral digits n) (hmark : IsMark mark) :
    Text.dropMarks mark digits = digits := by
  refine Text.dropMarks_of_ne ?_
  rintro rest rfl
  exact StreamText.not_numeral_marked hmark h

/-- **What is left of a token behind its marks is one numeral.** -/
theorem markedNumeral_iff :
    MarkedNumeral token n ↔ Radix.sixteen.Numeral (Text.withoutHexMarks token) n := by
  unfold Text.withoutHexMarks
  constructor
  · rintro ⟨small, large, digits, rfl, hdigits⟩
    have hsmall : Text.dropMarks 'x' (marks 'X' large ++ digits) = marks 'X' large ++ digits := by
      cases large with
      | zero => exact hdigits.dropMarks (Or.inl rfl)
      | succ large => exact Text.dropMarks_of_ne nofun
    rw [Text.dropMarks_marks, hsmall, Text.dropMarks_marks, hdigits.dropMarks (Or.inr rfl)]
    exact hdigits
  · intro h
    obtain ⟨small, hsmall⟩ := Text.exists_marks_dropMarks 'x' token
    obtain ⟨large, hlarge⟩ := Text.exists_marks_dropMarks 'X' (Text.dropMarks 'x' token)
    exact ⟨small, large, _, by rw [← hlarge]; exact hsmall, h⟩

/-! ## The notation among the marked ones -/

theorem HexNumeral.markedNumeral (h : HexNumeral token n) : MarkedNumeral token n := by
  cases h with
  | plain hdigits => exact ⟨0, 0, _, rfl, hdigits⟩
  | marked hmark hdigits =>
      rcases hmark with rfl | rfl
      · exact ⟨1, 0, _, rfl, hdigits⟩
      · exact ⟨0, 1, _, rfl, hdigits⟩

theorem HexNumeral.not_remarked (h : HexNumeral token n) : ¬ Remarked token := by
  rintro ⟨mark, again, rest, hmark, hagain, rfl⟩
  cases h with
  | plain hdigits => exact StreamText.not_numeral_marked hmark hdigits
  | marked _ hdigits => exact StreamText.not_numeral_marked hagain hdigits

/-- **The notation is a marked one without a second mark.** -/
theorem hexNumeral_iff : HexNumeral token n ↔ MarkedNumeral token n ∧ ¬ Remarked token := by
  refine ⟨fun h => ⟨h.markedNumeral, h.not_remarked⟩, ?_⟩
  rintro ⟨⟨small, large, digits, rfl, hdigits⟩, hone⟩
  rcases small with _ | _ | small
  · rcases large with _ | _ | large
    · exact .plain hdigits
    · exact .marked (Or.inr rfl) hdigits
    · exact absurd ⟨_, _, _, Or.inr rfl, Or.inr rfl, rfl⟩ hone
  · rcases large with _ | large
    · exact .marked (Or.inl rfl) hdigits
    · exact absurd ⟨_, _, _, Or.inl rfl, Or.inr rfl, rfl⟩ hone
  · exact absurd ⟨_, _, _, Or.inl rfl, Or.inl rfl, rfl⟩ hone

/-- Behind a mark the notation is a numeral. -/
theorem hexNumeral_marked (hmark : IsMark mark) :
    HexNumeral ('0' :: mark :: digits) n ↔ Radix.sixteen.Numeral digits n := by
  constructor
  · intro h
    cases h with
    | plain hdigits => exact absurd hdigits (StreamText.not_numeral_marked hmark)
    | marked _ hdigits => exact hdigits
  · exact .marked hmark

/-! ## The readers -/

theorem Script.readHex_eq_ok_iff {a : UInt32} :
    readHex token = .ok a ↔ MarkedNumeral token a.toNat := by
  have hlimit : 0 < limit32 := by decide
  rw [markedNumeral_iff]
  unfold readHex
  constructor
  · intro h
    split at h
    · rename_i n hread
      cases h
      obtain ⟨hdigits, hlt⟩ := (Radix.read_eq_ok_iff hlimit).mp hread
      rwa [UInt32.toNat_ofNat_of_lt' hlt]
    · cases h
  · intro h
    rw [(Radix.read_eq_ok_iff hlimit).mpr ⟨h, a.toNat_lt⟩]
    exact congrArg Except.ok UInt32.ofNat_toNat

theorem Image.readLine_eq_ok_iff (htoken : Text.IsWord token) {item : Option Word} :
    readLine token = .ok item ↔ ∃ w, item = some w ∧ MarkedNumeral token w.toNat := by
  have hlimit : 0 < limit64 := by decide
  have htrim : Text.trim token = token := Text.trim_of_solid fun c hc => (htoken.solid c hc).1
  have hsome : token.isEmpty = false := List.isEmpty_eq_false_iff.mpr htoken.nonempty
  simp only [markedNumeral_iff]
  unfold readLine
  rw [htrim]
  dsimp only
  rw [hsome, if_neg Bool.false_ne_true]
  constructor
  · intro h
    split at h
    · rename_i n hread
      cases h
      obtain ⟨hdigits, hlt⟩ := (Radix.read_eq_ok_iff hlimit).mp hread
      refine ⟨_, rfl, ?_⟩
      rwa [UInt64.toNat_ofNat_of_lt' hlt]
    · cases h
  · rintro ⟨w, rfl, h⟩
    rw [(Radix.read_eq_ok_iff hlimit).mpr ⟨h, w.toNat_lt⟩]
    exact congrArg (fun w => Except.ok (some w)) UInt64.ofNat_toNat

/-- A word of a stream file that begins with a mark is in the notation. -/
theorem StreamText.readWord_marked_eq_ok_iff (hmark : IsMark mark) :
    readWord ('0' :: mark :: rest) = .ok n
      ↔ HexNumeral ('0' :: mark :: rest) n ∧ n < limit64 := by
  rw [readWord_marked hmark, Radix.read_eq_ok_iff (by decide), hexNumeral_marked hmark]

/-- A number that fits an address is read by all three. -/
theorem HexNumeral.allRead (h : HexNumeral ('0' :: mark :: rest) n)
    (htoken : Text.IsWord ('0' :: mark :: rest)) (hmark : IsMark mark) (hfits : n < limit32) :
    AllRead ('0' :: mark :: rest) n := by
  have hwide : n < limit64 := Nat.lt_trans hfits (by decide)
  refine ⟨?_, ?_, (StreamText.readWord_marked_eq_ok_iff hmark).mpr ⟨h, hwide⟩⟩
  · rw [Script.readHex_eq_ok_iff, UInt32.toNat_ofNat_of_lt' hfits]
    exact h.markedNumeral
  · rw [Image.readLine_eq_ok_iff htoken]
    refine ⟨_, rfl, ?_⟩
    rw [UInt64.toNat_ofNat_of_lt' hwide]
    exact h.markedNumeral

/-- Where there is no number, none of them reads one. -/
theorem allRefuse_of_none (htoken : Text.IsWord ('0' :: mark :: rest)) (hmark : IsMark mark)
    (hone : ¬ Remarked ('0' :: mark :: rest)) (h : ∀ n, ¬ HexNumeral ('0' :: mark :: rest) n) :
    AllRefuse ('0' :: mark :: rest) := by
  have hnone : ∀ n, ¬ MarkedNumeral ('0' :: mark :: rest) n := fun n hn =>
    h n (hexNumeral_iff.mpr ⟨hn, hone⟩)
  refine ⟨fun a ha => ?_, fun item hitem => ?_, fun n hn => ?_⟩
  · exact hnone _ (Script.readHex_eq_ok_iff.mp ha)
  · obtain ⟨w, _, hw⟩ := (Image.readLine_eq_ok_iff htoken).mp hitem
    exact hnone _ hw
  · exact h n ((StreamText.readWord_marked_eq_ok_iff hmark).mp hn).1

/-- **How a token is read in the three formats.** Scripts and images take a numeral behind any
number of small marks and then of large ones, and that is the notation as long as no mark stands
behind the first. The reader of stream files keeps to the notation where a mark is; so behind one
mark a number that fits an address is read by all three as the same, and what is no number by
none. -/
theorem hex_tokens_read {token : List Char} (htoken : Text.IsWord token) :
    (∀ a, Script.readHex token = .ok a ↔ MarkedNumeral token a.toNat)
      ∧ (∀ item, Image.readLine token = .ok item
          ↔ ∃ w, item = some w ∧ MarkedNumeral token w.toNat)
      ∧ (∀ n, HexNumeral token n ↔ MarkedNumeral token n ∧ ¬ Remarked token)
      ∧ ∀ mark rest, IsMark mark → token = '0' :: mark :: rest →
        (∀ n, StreamText.readWord token = .ok n ↔ HexNumeral token n ∧ n < limit64)
          ∧ (∀ n, n < limit32 → HexNumeral token n → AllRead token n)
          ∧ (¬ Remarked token → (∀ n, ¬ HexNumeral token n) → AllRefuse token) := by
  refine ⟨fun a => Script.readHex_eq_ok_iff, fun item => Image.readLine_eq_ok_iff htoken,
    fun n => hexNumeral_iff, ?_⟩
  rintro mark rest hmark rfl
  exact ⟨fun n => StreamText.readWord_marked_eq_ok_iff hmark,
    fun n hfits hn => hn.allRead htoken hmark hfits,
    fun hone hnone => allRefuse_of_none htoken hmark hone hnone⟩

/-- A token with one mark, which all three readers take for 255. -/
theorem hex_tokens_read_one_mark :
    Text.IsWord "0xfF".toList ∧ IsMark 'x' ∧ ¬ Remarked "0xfF".toList
      ∧ AllRead "0xfF".toList 255 := by
  have htoken : Text.IsWord "0xfF".toList := by decide
  have hone : ¬ Remarked "0xfF".toList := by
    rintro ⟨mark, again, rest, _, _, h⟩
    exact absurd h (by simp)
  obtain ⟨hscript, _, hiff, hmarked⟩ := hex_tokens_read htoken
  have hread : Script.readHex "0xfF".toList = .ok 255 := by decide
  have hnumber : HexNumeral "0xfF".toList 255 :=
    (hiff 255).mpr ⟨(hscript 255).mp hread, hone⟩
  exact ⟨htoken, Or.inl rfl, hone,
    (hmarked 'x' "fF".toList (Or.inl rfl) rfl).2.1 255 (by decide) hnumber⟩

/-- A second mark is passed over: the token is not in the notation, and only the reader of stream
files refuses it. -/
theorem second_mark_is_passed_over :
    Script.readHex "0x0x10".toList = .ok 16
      ∧ Image.readLine "0x0x10".toList = .ok (some 16)
      ∧ StreamText.readWord "0x0x10".toList = .error .badDigit
      ∧ ∀ n, ¬ HexNumeral "0x0x10".toList n :=
  ⟨by decide, by decide, by decide, fun n h =>
    h.not_remarked ⟨'x', 'x', "10".toList, Or.inl rfl, Or.inl rfl, rfl⟩⟩

end BurstDma
