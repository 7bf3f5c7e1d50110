import Mathlib.Algebra.GroupWithZero.Nat
import BurstDma.Transfer.Plan

/-!
# What is open in a run of an engine

A run of an engine is a list of clock edges, which some inputs make from reset on. Two things
about it have to be read off before the registers can be compared with them: which transfer is
the newest, and what its bursts still have to move.

Bursts are granted one after the other, and their words move in the order of the grants.
`Burst.due` lists what is left to move after some words have moved: one number for each burst
that is not finished, the burst under way in front. **Everything an engine has to know of it are
two sums**: the words due are the entries added up, and the bursts due are their number. A word
takes from the front, a grant adds at the back.
-/

namespace BurstDma

/-! ## Runs on given inputs -/

section

variable {ε σ ι : Type} {attempt : List ε → σ → ι → Option (ε × σ)} {Run : List ε → σ → Prop}
  {past : List ε} {s : σ}

/-- The clock edges that some inputs make, as long as each of them is possible. -/
def playThrough (attempt : List ε → σ → ι → Option (ε × σ)) (past : List ε) (s : σ) :
    List ι → Option (List ε × σ)
  | [] => some (past, s)
  | i :: rest =>
    (attempt past s i).bind fun (e, s') => playThrough attempt (past ++ [e]) s' rest

/-- What can be played is a run. -/
theorem run_of_played
    (hstep : ∀ past s i e s', Run past s → attempt past s i = some (e, s') → Run (past ++ [e]) s')
    {inputs : List ι} {past' : List ε} {s' : σ} (h : Run past s)
    (hp : playThrough attempt past s inputs = some (past', s')) : Run past' s' := by
  induction inputs generalizing past s with
  | nil =>
      cases hp
      exact h
  | cons i rest ih =>
      rw [playThrough] at hp
      obtain ⟨⟨e, next⟩, hattempt, hp⟩ := Option.bind_eq_some_iff.mp hp
      exact ih (hstep past s i e next h hattempt) hp

/-- A run on given inputs, with what was seen of it. -/
theorem exists_run_of_seen (Run : List ε → σ → Prop)
    (attempt : List ε → σ → ι → Option (ε × σ))
    (hstep : ∀ past s i e s', Run past s → attempt past s i = some (e, s') → Run (past ++ [e]) s')
    (hstart : Run [] s) (inputs : List ι) (seen : List ε × σ → Prop) [DecidablePred seen]
    (h : (playThrough attempt [] s inputs).any (fun r => decide (seen r)) = true) :
    ∃ past s, Run past s ∧ seen (past, s) := by
  obtain ⟨r, hplay, hseen⟩ := (Option.any_eq_true ..).mp h
  exact ⟨r.1, r.2, run_of_played hstep hstart hplay, of_decide_eq_true hseen⟩

end

/-! ## The newest transfer -/

section

variable {ε : Type} {taken : ε → Option Descriptor} {past : List ε} {e : ε} {d : Descriptor}

/-- What a clock edge makes of the newest transfer. -/
def renew (taken : ε → Option Descriptor) (now : Option (Descriptor × List ε)) (e : ε) :
    Option (Descriptor × List ε) :=
  match taken e with
  | some d => some (d, [])
  | none => now.map fun (d, during) => (d, during ++ [e])

/-- The newest transfer of a run: its descriptor, and the clock edges since that was taken. -/
def newest (taken : ε → Option Descriptor) (past : List ε) : Option (Descriptor × List ε) :=
  past.foldl (renew taken) none

theorem newest_concat (past : List ε) (e : ε) :
    newest taken (past ++ [e]) = renew taken (newest taken past) e := by
  rw [newest, List.foldl_append]
  rfl

theorem newest_of_taken (h : taken e = some d) : newest taken (past ++ [e]) = some (d, []) := by
  rw [newest_concat, renew, h]

theorem newest_of_going (h : taken e = none) :
    newest taken (past ++ [e])
      = (newest taken past).map fun (d, during) => (d, during ++ [e]) := by
  rw [newest_concat, renew, h]

end

/-! ## What is due -/

namespace Burst

/-- The words left of each unfinished burst, after `moved` words of all of them. -/
def due : List Burst → Nat → List Nat
  | [], _ => []
  | b :: rest, moved =>
    if moved < b.words then (b.words - moved) :: rest.map (·.words)
    else due rest (moved - b.words)

/-- What is left when a word has moved: it is one of the burst in front. -/
def takeWord : List Nat → List Nat
  | [] => []
  | w :: behind => if w = 1 then behind else (w - 1) :: behind

variable {bursts : List Burst} {b : Burst} {moved : Nat} {left : List Nat}

theorem due_of_lt (h : moved < b.words) (rest : List Burst) :
    due (b :: rest) moved = (b.words - moved) :: rest.map (·.words) :=
  if_pos h

theorem due_of_le (h : b.words ≤ moved) (rest : List Burst) :
    due (b :: rest) moved = due rest (moved - b.words) :=
  if_neg (Nat.not_lt.mpr h)

/-- The words due are those that have not moved. -/
theorem sum_due (bursts : List Burst) (moved : Nat) :
    (due bursts moved).sum = (bursts.map (·.words)).sum - moved := by
  induction bursts generalizing moved with
  | nil => simp [due]
  | cons b rest ih =>
      rw [List.map_cons, List.sum_cons]
      rcases Nat.lt_or_ge moved b.words with hlt | hle
      · rw [due_of_lt hlt, List.sum_cons]
        omega
      · rw [due_of_le hle, ih]
        omega

/-- Before a word has moved, every burst is due as a whole. -/
theorem due_zero (hpos : ∀ b ∈ bursts, 0 < b.words) :
    due bursts 0 = bursts.map (·.words) := by
  cases bursts with
  | nil => rfl
  | cons b rest => exact due_of_lt (hpos b List.mem_cons_self) rest

/-- Nothing is due of a burst that is finished. -/
theorem due_pos (hpos : ∀ b ∈ bursts, 0 < b.words) (moved : Nat) :
    ∀ w ∈ due bursts moved, 0 < w := by
  induction bursts generalizing moved with
  | nil => exact fun w hw => by cases hw
  | cons b rest ih =>
      obtain ⟨_, hrest⟩ := List.forall_mem_cons.mp hpos
      rcases Nat.lt_or_ge moved b.words with hlt | hle
      · rw [due_of_lt hlt]
        refine List.forall_mem_cons.mpr ⟨Nat.sub_pos_of_lt hlt, fun w hw => ?_⟩
        obtain ⟨b', hb', rfl⟩ := List.mem_map.mp hw
        exact hrest b' hb'
      · rw [due_of_le hle]
        exact ih hrest _

/-- Where every entry counts, there are no more of them than they add up to. -/
theorem length_le_sum (hpos : ∀ w ∈ left, 0 < w) : left.length ≤ left.sum := by
  induction left with
  | nil => exact Nat.le_refl _
  | cons w rest ih =>
      obtain ⟨hw, hrest⟩ := List.forall_mem_cons.mp hpos
      have := ih hrest
      rw [List.length_cons, List.sum_cons]
      omega

theorem sum_takeWord (hpos : ∀ w ∈ left, 0 < w) : (takeWord left).sum = left.sum - 1 := by
  cases left with
  | nil => rfl
  | cons w behind =>
      obtain ⟨hw, _⟩ := List.forall_mem_cons.mp hpos
      rw [takeWord, List.sum_cons]
      split
      · omega
      · rw [List.sum_cons]
        omega

/-- **A word is taken from the burst in front**, and its last one finishes it. -/
theorem due_succ (hpos : ∀ b ∈ bursts, 0 < b.words) (moved : Nat) :
    due bursts (moved + 1) = takeWord (due bursts moved) := by
  induction bursts generalizing moved with
  | nil => rfl
  | cons b rest ih =>
      obtain ⟨hb, hrest⟩ := List.forall_mem_cons.mp hpos
      rcases Nat.lt_or_ge moved b.words with hlt | hle
      · rw [due_of_lt hlt, takeWord]
        by_cases hlast : b.words - moved = 1
        · have hend : moved + 1 = b.words := by omega
          rw [if_pos hlast, hend, due_of_le (Nat.le_refl _), Nat.sub_self, due_zero hrest]
        · have hmore : moved + 1 < b.words := by omega
          rw [if_neg hlast, due_of_lt hmore, Nat.sub_add_eq]
      · rw [due_of_le hle, due_of_le (Nat.le_succ_of_le hle), Nat.succ_sub hle]
        exact ih hrest _

/-- **A burst that is granted is due behind the others**, as a whole. -/
theorem due_concat (hle : moved ≤ (bursts.map (·.words)).sum) (hb : 0 < b.words) :
    due (bursts ++ [b]) moved = due bursts moved ++ [b.words] := by
  induction bursts generalizing moved with
  | nil =>
      have hnone : moved = 0 := Nat.le_zero.mp hle
      rw [hnone, List.nil_append, due_of_lt hb]
      rfl
  | cons a rest ih =>
      rw [List.map_cons, List.sum_cons] at hle
      rw [List.cons_append]
      rcases Nat.lt_or_ge moved a.words with hlt | hge
      · rw [due_of_lt hlt, due_of_lt hlt, List.map_append, List.map_singleton, List.cons_append]
      · rw [due_of_le hge, due_of_le hge]
        exact ih (by omega)

/-- Some bursts and the words moved of them agree: every burst has a word, and no word has
moved before its burst was granted. -/
structure Orderly (granted : List Burst) (moved : Nat) : Prop where
  whole : ∀ b ∈ granted, 0 < b.words
  inTime : moved ≤ (granted.map (·.words)).sum

variable {granted : List Burst} {issued : Option Burst} {moves : Bool}

/-- **What a clock edge makes of the words due**: a word may move of those that were due
before, and a burst may be granted. -/
theorem Orderly.next (ho : Orderly granted moved) (hm : moves = true → due granted moved ≠ [])
    (hi : ∀ b ∈ issued, 0 < b.words) :
    Orderly (granted ++ issued.toList) (moved + if moves then 1 else 0)
      ∧ due (granted ++ issued.toList) (moved + if moves then 1 else 0)
        = (if moves then takeWord (due granted moved) else due granted moved)
          ++ issued.toList.map (·.words) := by
  obtain ⟨hwhole, hle⟩ := ho
  -- a word that moves was due
  have hin : (moved + if moves then 1 else 0) ≤ (granted.map (·.words)).sum := by
    cases hmoves : moves with
    | false => exact hle
    | true =>
        have hfew := length_le_sum (due_pos hwhole moved)
        have hsome := List.length_pos_iff.mpr (hm hmoves)
        rw [sum_due] at hfew
        rw [if_pos rfl]
        omega
  have hmoved : due granted (moved + if moves then 1 else 0)
      = if moves then takeWord (due granted moved) else due granted moved := by
    cases moves with
    | false => rfl
    | true => exact due_succ hwhole moved
  cases issued with
  | none =>
      rw [Option.toList_none, List.append_nil, List.map_nil, List.append_nil]
      exact ⟨⟨hwhole, hin⟩, hmoved⟩
  | some b =>
      rw [Option.toList_some, ← hmoved]
      refine ⟨⟨?_, ?_⟩, due_concat hin (hi b rfl)⟩
      · exact fun a ha => (List.mem_append.mp ha).elim (hwhole a)
          fun ha => by rw [List.mem_singleton.mp ha]; exact hi b rfl
      · rw [List.map_append, List.sum_append]
        exact Nat.le_trans hin (Nat.le_add_right _ _)

end Burst

end BurstDma
