import Mathlib.Algebra.GroupWithZero.Nat
import BurstDma.Memory.Responder
import BurstDma.Transfer.Plan
import BurstDma.Proofs.Result

/-!
# Words and the places where they lie

A transfer asks for consecutive words. What it asks for is a list of *places*: word
`k` of a descriptor lies `k` words after its start, moved down to a whole word.
**A memory is fully described by two functions of a place**, the word it shows there
and what putting a word there does; both look away where the address is declared
faulty or lies outside.
-/

namespace BurstDma

/-- A word of the memory: its index, and the byte address through which it is
reached. -/
structure Place where
  index : Nat
  addr : Nat
deriving Repr, DecidableEq

namespace Geometry

/-- The place that a byte address leads to. -/
def place (g : Geometry) (addr : Nat) : Place :=
  ⟨addr / g.wordBytes, addr⟩

/-- The addresses of `n` consecutive words. -/
def span (g : Geometry) : Nat → Nat → List Nat
  | _, 0 => []
  | addr, n + 1 => addr :: span g (addr + g.wordBytes) n

@[simp] theorem span_zero (g : Geometry) (addr : Nat) : g.span addr 0 = [] := rfl

@[simp] theorem length_span (g : Geometry) (addr n : Nat) : (g.span addr n).length = n := by
  induction n generalizing addr with
  | zero => rfl
  | succ n ih => simp [span, ih]

theorem span_add (g : Geometry) (addr m n : Nat) :
    g.span addr (m + n) = g.span addr m ++ g.span (addr + m * g.wordBytes) n := by
  induction m generalizing addr with
  | zero => simp
  | succ m ih =>
      have hrow : addr + g.wordBytes + m * g.wordBytes = addr + (m + 1) * g.wordBytes := by
        rw [Nat.add_mul]; omega
      rw [Nat.add_right_comm, span, ih, hrow]
      rfl

theorem span_eq_range (g : Geometry) (addr n : Nat) :
    g.span addr n = (List.range n).map fun k => addr + k * g.wordBytes := by
  induction n with
  | zero => rfl
  | succ n ih => rw [span_add, ih, List.range_succ]; simp [span]

theorem Legal.wordBytes_pos {g : Geometry} (h : g.Legal) : 0 < g.wordBytes := by
  rcases h with h | h | h | h <;> omega

/-- A start that was moved down is the first byte of a word. -/
theorem align_mod {g : Geometry} (h : g.Legal) (addr : Nat) : g.align addr % g.wordBytes = 0 := by
  -- a word has a power of two bytes, and aligning clears the bits below it
  have haligned : ∀ n : Nat, g.wordBytes = 2 ^ n → g.align addr % g.wordBytes = 0 := by
    intro n hn
    have hmax : max g.wordBytes 1 = 2 ^ n := by
      rw [hn]
      exact Nat.max_eq_left Nat.one_le_two_pow
    unfold align
    rw [hmax, hn, Nat.and_two_pow_sub_one_eq_mod]
    have hdiv := Nat.div_add_mod addr (2 ^ n)
    have hwhole : addr - addr % 2 ^ n = 2 ^ n * (addr / 2 ^ n) := by omega
    rw [hwhole]
    exact Nat.mul_mod_right _ _
  rcases h with h | h | h | h
  · exact haligned 0 h
  · exact haligned 1 h
  · exact haligned 2 h
  · exact haligned 3 h

/-- Words that reach no further than the next boundary lie in one window. -/
theorem window_of_wordsUntilBoundary {g : Geometry} (h : g.Legal) {addr words : Nat}
    (ha : addr % g.wordBytes = 0) (hpos : 1 ≤ words) (hw : words ≤ g.wordsUntilBoundary addr) :
    (addr + words * g.wordBytes - 1) / boundaryBytes = addr / boundaryBytes := by
  have hmax : max g.wordBytes 1 = g.wordBytes := Nat.max_eq_left h.wordBytes_pos
  have hb : boundaryBytes = 4096 := rfl
  unfold wordsUntilBoundary at hw
  rw [hmax, hb] at hw
  rw [hb]
  rcases h with h | h | h | h <;> rw [h] at ha hw ⊢ <;> omega

end Geometry

namespace Descriptor

/-- Where word `k` of a transfer lies. -/
def place (g : Geometry) (d : Descriptor) (k : Nat) : Place :=
  ⟨g.align d.start / g.wordBytes + k, g.align d.start + k * g.wordBytes⟩

theorem place_eq {g : Geometry} (hg : g.Legal) (d : Descriptor) (k : Nat) :
    d.place g k = g.place (g.align d.start + k * g.wordBytes) := by
  unfold place Geometry.place
  rw [Nat.add_mul_div_right _ _ hg.wordBytes_pos]

end Descriptor

/-- The words of some transfers in order. A transfer comes with the number of words it
moves; a word is the descriptor it belongs to and its position there. -/
def wordsOf (transfers : List (Descriptor × Nat)) : List (Descriptor × Nat) :=
  transfers.flatMap fun t => (List.range t.2).map fun k => (t.1, k)

/-- The number of words of some transfers. -/
def wordCount (transfers : List (Descriptor × Nat)) : Nat :=
  (transfers.map (·.2)).sum

@[simp] theorem length_wordsOf (ts : List (Descriptor × Nat)) :
    (wordsOf ts).length = wordCount ts := by
  simp [wordsOf, wordCount, List.length_flatMap]

@[simp] theorem wordsOf_append (ts us : List (Descriptor × Nat)) :
    wordsOf (ts ++ us) = wordsOf ts ++ wordsOf us := by
  simp [wordsOf]

@[simp] theorem wordCount_append (ts us : List (Descriptor × Nat)) :
    wordCount (ts ++ us) = wordCount ts + wordCount us := by
  simp [wordCount]

/-- The addresses of the words of some transfers. -/
def addressesOf (g : Geometry) (ts : List (Descriptor × Nat)) : List Nat :=
  (wordsOf ts).map fun t => (t.1.place g t.2).addr

@[simp] theorem addressesOf_append (g : Geometry) (ts us : List (Descriptor × Nat)) :
    addressesOf g (ts ++ us) = addressesOf g ts ++ addressesOf g us := by
  simp [addressesOf]

/-- The words of one transfer lie one after the other. -/
theorem addressesOf_singleton (g : Geometry) (d : Descriptor) (n : Nat) :
    addressesOf g [(d, n)] = g.span (g.align d.start) n := by
  unfold addressesOf wordsOf
  rw [Geometry.span_eq_range]
  simp [Descriptor.place]

/-- Every word of a transfer starts at its first byte. -/
theorem addressesOf_mod {g : Geometry} (hg : g.Legal) {ts : List (Descriptor × Nat)} {a : Nat}
    (ha : a ∈ addressesOf g ts) : a % g.wordBytes = 0 := by
  obtain ⟨t, _, rfl⟩ := List.mem_map.mp ha
  show (g.align t.1.start + t.2 * g.wordBytes) % g.wordBytes = 0
  rw [Nat.add_mul_mod_self_right]
  exact Geometry.align_mod hg _

theorem map_place_wordsOf {g : Geometry} (hg : g.Legal) (ts : List (Descriptor × Nat)) :
    (wordsOf ts).map (fun t => t.1.place g t.2) = (addressesOf g ts).map g.place := by
  unfold addressesOf
  rw [List.map_map]
  refine List.map_congr_left fun t _ => ?_
  exact Descriptor.place_eq hg t.1 t.2

/-- Transfers whose descriptors say how many words they move. -/
def whole (ds : List Descriptor) : List (Descriptor × Nat) :=
  ds.map fun d => (d, d.words)

@[simp] theorem whole_append (ds es : List Descriptor) : whole (ds ++ es) = whole ds ++ whole es :=
  List.map_append

/-- Transfers whose lengths the position in the list and the descriptor decide. -/
def sized (size : Nat → Descriptor → Nat) (ds : List Descriptor) : List (Descriptor × Nat) :=
  ds.zipIdx.map fun t => (t.1, size t.2 t.1)

theorem sized_concat (size : Nat → Descriptor → Nat) (ds : List Descriptor) (d : Descriptor) :
    sized size (ds ++ [d]) = sized size ds ++ [(d, size ds.length d)] := by
  unfold sized
  simp [List.zipIdx_append]

theorem sized_words (ds : List Descriptor) : sized (fun _ d => d.words) ds = whole ds := by
  unfold sized whole
  conv => rhs; rw [← List.zipIdx_map_fst 0 ds, List.map_map]
  rfl

/-- The words of a transfer of `n` words that follow the first `k`: whether each of them is
the last one. -/
def endMarks (k n : Nat) : List Bool :=
  (List.range' k (n - k)).map fun j => j + 1 == n

theorem endMarks_of_lt {k n : Nat} (h : k < n) :
    endMarks k n = (k + 1 == n) :: endMarks (k + 1) n := by
  have hsplit : n - k = (n - (k + 1)) + 1 := by omega
  unfold endMarks
  rw [hsplit, List.range'_succ, List.map_cons]

/-- What follows the first word of a transfer is a transfer. -/
theorem endMarks_succ (k n : Nat) : endMarks (k + 1) (n + 1) = endMarks k n := by
  unfold endMarks
  rw [List.range'_eq_map_range, List.range'_eq_map_range, List.map_map, List.map_map,
    Nat.add_sub_add_right]
  refine List.map_congr_left fun j _ => ?_
  simp only [Function.comp_apply, beq_eq_beq]
  omega

theorem endMarks_of_le {k n : Nat} (h : n ≤ k) : endMarks k n = [] := by
  unfold endMarks
  rw [Nat.sub_eq_zero_of_le h]
  rfl

@[simp] theorem length_endMarks (k n : Nat) : (endMarks k n).length = n - k := by
  simp [endMarks]

/-- The end marks of the words of some transfers. -/
def marksOf (ts : List (Descriptor × Nat)) : List Bool :=
  ts.flatMap fun t => endMarks 0 t.2

@[simp] theorem marksOf_append (ts us : List (Descriptor × Nat)) :
    marksOf (ts ++ us) = marksOf ts ++ marksOf us := by
  simp [marksOf]

theorem marksOf_whole (ds : List Descriptor) :
    marksOf (whole ds) = (wordsOf (whole ds)).map fun t => t.2 + 1 == t.1.words := by
  unfold marksOf wordsOf whole endMarks
  simp [List.flatMap_map, List.map_flatMap, List.range_eq_range', Function.comp_def]

@[simp] theorem length_marksOf (ts : List (Descriptor × Nat)) :
    (marksOf ts).length = wordCount ts := by
  simp [marksOf, wordCount, List.length_flatMap]

theorem wordCount_whole (ds : List Descriptor) :
    wordCount (whole ds) = (ds.map (·.words)).sum := by
  simp [wordCount, whole, Function.comp_def]

/-- The newest transfer and all before it. -/
theorem wordCount_dropLast (ds : List Descriptor) :
    wordCount (whole ds)
      = wordCount (whole ds.dropLast) + ((ds.getLast?).map (·.words)).getD 0 := by
  rcases List.eq_nil_or_concat ds with rfl | ⟨init, d, rfl⟩
  · rfl
  · simp [wordCount_whole]

/-- Where only one element contributes, it makes up the whole. -/
theorem flatMap_eq_of_only {α β : Type} {f : α → List β} {i : Nat} {xs : List α}
    (h : ∀ (j : Nat) (x : α), xs[j]? = some x → j ≠ i → f x = []) :
    xs.flatMap f = (xs[i]?.map f).getD [] := by
  induction xs generalizing i with
  | nil => rfl
  | cons x xs ih =>
      cases i with
      | zero =>
          have hrest : xs.flatMap f = [] := by
            refine List.flatMap_eq_nil_iff.mpr fun y hy => ?_
            obtain ⟨j, hj⟩ := List.mem_iff_getElem?.mp hy
            exact h (j + 1) y hj (Nat.succ_ne_zero j)
          rw [List.flatMap_cons, hrest, List.append_nil]
          rfl
      | succ i =>
          rw [List.flatMap_cons, h 0 x rfl (Nat.succ_ne_zero i).symm, List.nil_append]
          exact ih fun j y hy hj => h (j + 1) y hy fun he => hj (Nat.succ_inj.mp he)

/-- Pairing with a front is the front of the pairing. -/
theorem zipWith_take {α β γ : Type} (f : α → β → γ) (xs : List α) (ys : List β) (n : Nat) :
    List.zipWith f xs (ys.take n) = (List.zipWith f xs ys).take n := by
  induction ys generalizing xs n with
  | nil => simp
  | cons y ys ih =>
      cases n with
      | zero => simp
      | succ n =>
          cases xs with
          | nil => simp
          | cons x xs => simp [ih]

/-! ## What a memory shows and what it keeps -/

namespace Store

/-- Whether a region that fails holds the address. -/
def faulty (s : Store) (addr : Nat) : Bool :=
  s.regions.any (·.contains addr)

/-- The word at a place. -/
def valueAt (s : Store) (q : Place) : Word :=
  if s.faulty q.addr then 0 else (s.get? q.index).getD 0

/-- The store after a word was put at a place. -/
def put (s : Store) (q : Place) (w : Word) : Store :=
  if s.faulty q.addr then s else s.set q.index w

/-- The store after some words were put at their places, in order. -/
def putAll (s : Store) (writes : List (Place × Word)) : Store :=
  writes.foldl (fun s w => s.put w.1 w.2) s

theorem set_of_size_le (s : Store) {i : Nat} (w : Word) (h : s.size ≤ i) : s.set i w = s := by
  unfold set
  rw [Array.setIfInBounds_eq_of_size_le h]

/-- **Putting a word changes that word and no other**, and none at all where the address is
declared faulty or lies outside. -/
theorem get?_put (s : Store) (q : Place) (w : Word) (k : Nat) :
    (s.put q w).get? k
      = if s.faulty q.addr = false ∧ q.index < s.size ∧ k = q.index then some w
        else s.get? k := by
  unfold put
  cases hf : s.faulty q.addr with
  | true => rfl
  | false =>
      rw [if_neg Bool.false_ne_true]
      by_cases hk : q.index = k
      · subst hk
        by_cases hin : q.index < s.size
        · rw [get?_set_self s w hin, if_pos ⟨rfl, hin, rfl⟩]
        · rw [if_neg fun hc => hin hc.2.1]
          rw [set_of_size_le s w (Nat.le_of_not_lt hin)]
      · rw [get?_set_of_ne s w hk, if_neg fun hc => hk hc.2.2.symm]

theorem put_geometry (s : Store) (q : Place) (w : Word) :
    (s.put q w).geometry = s.geometry ∧ (s.put q w).regions = s.regions := by
  unfold put
  split <;> exact ⟨rfl, rfl⟩

theorem putAll_geometry (s : Store) (writes : List (Place × Word)) :
    (s.putAll writes).geometry = s.geometry ∧ (s.putAll writes).regions = s.regions := by
  induction writes generalizing s with
  | nil => exact ⟨rfl, rfl⟩
  | cons w ws ih =>
      obtain ⟨hg, hr⟩ := ih (s.put w.1 w.2)
      obtain ⟨hg', hr'⟩ := s.put_geometry w.1 w.2
      exact ⟨hg.trans hg', hr.trans hr'⟩

theorem locate_eq {s : Store} {addr : Nat} {r : Except Resp Nat} (h : s.locate addr = .ok r) :
    (s.faulty addr = true ∧ ∃ resp, r = .error resp) ∨
      (s.faulty addr = false ∧
        r = if addr / s.geometry.wordBytes < s.size then .ok (addr / s.geometry.wordBytes)
          else .error .decErr) := by
  unfold locate at h
  split at h
  · rename_i region hfind
    cases h
    have hin := List.find?_some hfind
    refine Or.inl ⟨?_, _, rfl⟩
    exact List.any_eq_true.mpr ⟨region, List.mem_of_find?_eq_some hfind, hin⟩
  · rename_i hfind
    refine Or.inr ⟨?_, ?_⟩
    · rw [List.find?_eq_none] at hfind
      exact List.any_eq_false.mpr hfind
    · obtain ⟨index, hi, h⟩ := except_bind_eq_ok.mp h
      cases h
      unfold Geometry.wordIndex Checked.div at hi
      split at hi
      · cases hi
      · cases hi
        rfl

/-- A read shows the word at the place it is led to. -/
theorem readAt_eq {s : Store} {addr : Nat} {w : Word} {resp : Resp}
    (h : s.readAt addr = .ok (w, resp)) : w = s.valueAt (s.geometry.place addr) := by
  obtain ⟨r, hr, h⟩ := except_bind_eq_ok.mp h
  unfold valueAt Geometry.place
  rcases locate_eq hr with ⟨hf, resp', rfl⟩ | ⟨hf, rfl⟩
  · cases h
    rw [hf]; rfl
  · rw [hf]
    split at h
    · rename_i index hin
      split at hin
      · cases hin
        cases h
        rfl
      · cases hin
    · rename_i resp' hin
      split at hin
      · cases hin
      · rename_i hout
        cases h
        have hnone : s.get? (addr / s.geometry.wordBytes) = none :=
          Array.getElem?_eq_none (Nat.le_of_not_lt hout)
        simp [hnone]

/-- A write puts its word at the place it is led to. -/
theorem writeAt_eq {s s' : Store} {addr : Nat} {w : Word} {resp : Resp}
    (h : s.writeAt addr w = .ok (s', resp)) : s' = s.put (s.geometry.place addr) w := by
  obtain ⟨r, hr, h⟩ := except_bind_eq_ok.mp h
  unfold put Geometry.place
  rcases locate_eq hr with ⟨hf, resp', rfl⟩ | ⟨hf, rfl⟩
  · cases h
    rw [hf]; rfl
  · rw [hf]
    split at h
    · rename_i index hin
      split at hin
      · cases hin
        cases h
        rfl
      · cases hin
    · rename_i resp' hin
      split at hin
      · cases hin
      · rename_i hout
        cases h
        rw [set_of_size_le s w (Nat.le_of_not_lt hout)]
        rfl

end Store

/-- The beats of a burst with their addresses, the first of them being beat `i`. The number of
a beat is a 32-bit word, so a beat goes where the one 2^32 before it went. -/
def placedFrom (g : Geometry) (addr i : Nat) (beats : List WriteBeat) : List (Nat × Word) :=
  (beats.zipIdx i).map fun (b, k) => (addr + k % limit32 * g.wordBytes, b.data)

theorem placedFrom_cons (g : Geometry) (addr i : Nat) (b : WriteBeat) (bs : List WriteBeat) :
    placedFrom g addr i (b :: bs)
      = (addr + i % limit32 * g.wordBytes, b.data) :: placedFrom g addr (i + 1) bs := rfl

theorem placedFrom_append (g : Geometry) (addr i : Nat) (beats more : List WriteBeat) :
    placedFrom g addr i (beats ++ more)
      = placedFrom g addr i beats ++ placedFrom g addr (i + beats.length) more := by
  unfold placedFrom
  rw [List.zipIdx_append, List.map_append]

/-- A word of a burst lies as far behind its start as the number of its beat says. -/
theorem mem_placedFrom {g : Geometry} {addr i a : Nat} {beats : List WriteBeat} {d : Word} :
    (a, d) ∈ placedFrom g addr i beats ↔ ∃ k b, beats[k]? = some b
      ∧ a = addr + (i + k) % limit32 * g.wordBytes ∧ d = b.data := by
  unfold placedFrom
  rw [List.mem_map]
  constructor
  · rintro ⟨⟨b, j⟩, hb, heq⟩
    cases heq
    obtain ⟨hle, hb⟩ := List.mem_zipIdx_iff_le_and_getElem?_sub.mp hb
    exact ⟨j - i, b, hb, by rw [Nat.add_sub_cancel' hle], rfl⟩
  · rintro ⟨k, b, hb, rfl, rfl⟩
    refine ⟨(b, i + k), List.mem_zipIdx_iff_le_and_getElem?_sub.mpr ⟨Nat.le_add_right _ _, ?_⟩, rfl⟩
    rwa [Nat.add_sub_cancel_left]

/-- The words that a burst from `addr` on stores, with their places. -/
def burstWrites (g : Geometry) (addr : Nat) (beats : List WriteBeat) : List (Place × Word) :=
  (placedFrom g addr 0 beats).map fun w => (g.place w.1, w.2)

@[simp] theorem burstWrites_nil (g : Geometry) (addr : Nat) : burstWrites g addr [] = [] := rfl

theorem burstWrites_concat (g : Geometry) (addr : Nat) {beats : List WriteBeat}
    (h : beats.length < limit32) (b : WriteBeat) :
    burstWrites g addr (beats ++ [b])
      = burstWrites g addr beats ++ [(g.place (addr + beats.length * g.wordBytes), b.data)] := by
  unfold burstWrites
  rw [placedFrom_append, List.map_append, placedFrom_cons, Nat.zero_add, Nat.mod_eq_of_lt h]
  rfl

theorem storeBeats_eq {addr i : Nat} {s s' : Store} {worst resp : Resp}
    {beats : List WriteBeat} (h : Memory.storeBeats addr i s worst beats = .ok (s', resp)) :
    s' = s.putAll ((placedFrom s.geometry addr i beats).map fun w =>
      (s.geometry.place w.1, w.2)) := by
  induction beats generalizing i s worst with
  | nil =>
      cases h
      rfl
  | cons b bs ih =>
      unfold Memory.storeBeats at h
      obtain ⟨at_, ha, h⟩ := except_bind_eq_ok.mp h
      obtain ⟨_, rfl⟩ := Checked.add_eq_ok_iff.mp ha
      obtain ⟨⟨t, resp'⟩, ht, h⟩ := except_bind_eq_ok.mp h
      have hput := Store.writeAt_eq ht
      have hgeo : t.geometry = s.geometry := by
        rw [hput]
        exact (s.put_geometry _ _).1
      have hrest := ih h
      rw [hgeo] at hrest
      rw [hrest, hput, placedFrom_cons]
      rfl

/-! ## Bursts -/

theorem clampBurst_pos (n : Nat) : 1 ≤ clampBurst n :=
  Nat.le_max_left _ _

theorem wordsUntilBoundary_pos (g : Geometry) (addr : Nat) : 1 ≤ g.wordsUntilBoundary addr :=
  Nat.le_max_right _ _

/-- The addresses of the words of a burst. -/
def AddrReq.addresses (g : Geometry) (r : AddrReq) : List Nat :=
  g.span r.addr r.beats

theorem AddrReq.incrementing_eq_ok {addr beats : Nat} {g : Geometry} {r : AddrReq}
    (h : AddrReq.incrementing addr beats g = .ok r) :
    r.addr = addr ∧ r.beats = beats ∧ 1 ≤ beats ∧ beats ≤ maxBurstWords := by
  unfold incrementing at h
  split at h
  · rename_i hb
    cases h
    exact ⟨rfl, Nat.sub_add_cancel hb.1, hb⟩
  · cases h

end BurstDma
