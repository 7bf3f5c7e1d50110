import BurstDma.Journal.Run

/-!
# Programs that end with a value

A checked program ends with a value only if each of its parts does. The lemmas here
take such a program apart, so that a law about one clock edge can name the value of
every part.
-/

namespace BurstDma

theorem except_bind_eq_ok {ε α β : Type} {x : Except ε α} {f : α → Except ε β} {b : β} :
    (x >>= f) = .ok b ↔ ∃ a, x = .ok a ∧ f a = .ok b := by
  cases x with
  | error e => simp [bind, Except.bind]
  | ok a => simp [bind, Except.bind]

theorem except_bind_eq_error {ε α β : Type} {x : Except ε α} {f : α → Except ε β} {e : ε} :
    (x >>= f) = .error e ↔ x = .error e ∨ ∃ a, x = .ok a ∧ f a = .error e := by
  cases x with
  | error e => simp [bind, Except.bind]
  | ok a => simp [bind, Except.bind]

theorem except_map_eq_ok {ε α β : Type} {x : Except ε α} {f : α → β} {b : β} :
    x.map f = .ok b ↔ ∃ a, x = .ok a ∧ f a = b := by
  cases x with
  | error e => simp [Except.map]
  | ok a => simp [Except.map]

/-- Of a chain of checks, none fails. -/
theorem ite_some_eq_none_iff {α : Type} {p : Prop} [Decidable p] {a : α} {rest : Option α} :
    (if p then some a else rest) = none ↔ ¬ p ∧ rest = none := by
  by_cases hp : p
  · simp [hp]
  · simp [hp]

theorem length_toList_eq {α : Type} (o : Option α) :
    o.toList.length = if o.isSome then 1 else 0 := by
  cases o <;> rfl

theorem ok_of_toOption {ε α : Type} {x : Except ε α} {a : α} (h : x.toOption = some a) :
    x = .ok a := by
  cases x with
  | error e => cases h
  | ok b => exact congrArg Except.ok (Option.some.inj h)

@[simp] theorem Run.result_liftM {α : Type} (x : Except Fault α) :
    (liftM x : Run α).result = x := rfl

theorem Run.result_bind_eq_ok {α β : Type} {x : Run α} {f : α → Run β} {b : β} :
    (x >>= f).result = .ok b ↔ ∃ a, x.result = .ok a ∧ (f a).result = .ok b := by
  rw [Run.result_bind]
  exact except_bind_eq_ok

/-- A checked map over a list keeps positions. -/
theorem mapM_eq_ok {ε α β : Type} {f : α → Except ε β} {xs : List α} {ys : List β}
    (h : xs.mapM f = .ok ys) :
    ys.length = xs.length ∧
      ∀ (i : Nat) (x : α), xs[i]? = some x → ∃ y, f x = .ok y ∧ ys[i]? = some y := by
  induction xs generalizing ys with
  | nil =>
      rw [List.mapM_nil] at h
      cases h
      exact ⟨rfl, by intro i x hx; simp at hx⟩
  | cons a xs ih =>
      rw [List.mapM_cons] at h
      obtain ⟨b, hb, h⟩ := except_bind_eq_ok.mp h
      obtain ⟨bs, hbs, h⟩ := except_bind_eq_ok.mp h
      cases h
      obtain ⟨hlen, hget⟩ := ih hbs
      refine ⟨by simp [hlen], ?_⟩
      intro i x hx
      cases i with
      | zero =>
          simp only [List.getElem?_cons_zero, Option.some.injEq] at hx
          subst hx
          exact ⟨b, hb, rfl⟩
      | succ i =>
          simp only [List.getElem?_cons_succ] at hx ⊢
          exact hget i x hx

/-- A checked map whose every value is known. -/
theorem mapM_map {ε α β : Type} {f : α → Except ε β} {g : α → β} {xs : List α}
    (h : ∀ x ∈ xs, f x = .ok (g x)) : xs.mapM f = .ok (xs.map g) := by
  induction xs with
  | nil => rfl
  | cons x xs ih =>
      rw [List.mapM_cons, h x List.mem_cons_self, ih fun y hy => h y (List.mem_cons_of_mem _ hy)]
      rfl

theorem mapM_ok {ε α β : Type} {f : α → Except ε β} {xs : List α}
    (h : ∀ x ∈ xs, ∃ y, f x = .ok y) : ∃ ys, xs.mapM f = .ok ys := by
  induction xs with
  | nil => exact ⟨[], rfl⟩
  | cons x xs ih =>
      obtain ⟨y, hy⟩ := h x List.mem_cons_self
      obtain ⟨ys, hys⟩ := ih fun x' hx' => h x' (List.mem_cons_of_mem _ hx')
      rw [List.mapM_cons]
      exact ⟨y :: ys, except_bind_eq_ok.mpr ⟨y, hy, except_bind_eq_ok.mpr ⟨ys, hys, rfl⟩⟩⟩

/-- The value of a program over a list. -/
theorem Run.result_mapM {α β : Type} (f : α → Run β) (xs : List α) :
    (xs.mapM f).result = xs.mapM fun x => (f x).result := by
  induction xs with
  | nil => rfl
  | cons x xs ih =>
      rw [List.mapM_cons, List.mapM_cons, Run.result_bind]
      congr 1
      funext y
      rw [Run.result_bind, ih]
      rfl

/-- A program with a value goes on with it. -/
theorem Run.bind_ok {α β : Type} {x : Run α} {f : α → Run β} {a : α} (hx : x.result = .ok a)
    (hf : ∃ b, (f a).result = .ok b) : ∃ b, (x >>= f).result = .ok b := by
  obtain ⟨b, hb⟩ := hf
  exact ⟨b, Run.result_bind_eq_ok.mpr ⟨a, hx, hb⟩⟩

/-- Some number of steps is the first of them and the others after it. -/
theorem Run.stepTimes_succ {α : Type} (step : α → Run α) (n : Nat) (a : α) :
    Run.stepTimes step (n + 1) a = step a >>= Run.stepTimes step n := by
  unfold Run.stepTimes
  rw [Run.stepWhile_succ, if_pos rfl]

/-- What every step keeps, a loop keeps; and if no step is refused, the loop is not. -/
theorem Run.stepWhile_ok {α : Type} {more : α → Bool} {step : α → Run α} {R : α → Prop}
    (hstep : ∀ a, R a → ∃ b, (step a).result = .ok b ∧ R b) (n : Nat) {a : α} (h : R a) :
    ∃ b, (Run.stepWhile more step n a).result = .ok b ∧ R b := by
  induction n generalizing a with
  | zero => exact ⟨a, rfl, h⟩
  | succ n ih =>
      rw [Run.stepWhile_succ]
      split
      · obtain ⟨b, hb, hrb⟩ := hstep a h
        obtain ⟨c, hc, hrc⟩ := ih hrb
        exact ⟨c, Run.result_bind_eq_ok.mpr ⟨b, hb, hc⟩, hrc⟩
      · exact ⟨a, rfl, h⟩

/-- **A loop that was given enough steps ends where it may not go on.** `left` bounds the steps
still to come: it falls with each of them, and at zero there is none. -/
theorem Run.stepWhile_ends {α : Type} {more : α → Bool} {step : α → Run α} (R : α → Prop)
    (left : α → Nat)
    (hstep : ∀ a b, R a → more a = true → (step a).result = .ok b → R b ∧ left b < left a)
    (hlast : ∀ a, R a → left a = 0 → more a = false) {n : Nat} {a b : α} (h : R a)
    (hn : left a ≤ n) (hrun : (Run.stepWhile more step n a).result = .ok b) :
    R b ∧ more b = false := by
  induction n generalizing a with
  | zero =>
      cases hrun
      exact ⟨h, hlast _ h (Nat.le_zero.mp hn)⟩
  | succ n ih =>
      rw [Run.stepWhile_succ] at hrun
      split at hrun
      · rename_i hmore
        obtain ⟨c, hc, hrun⟩ := Run.result_bind_eq_ok.mp hrun
        obtain ⟨hrc, hless⟩ := hstep a c h hmore hc
        exact ih hrc (by omega) hrun
      · rename_i hmore
        cases hrun
        exact ⟨h, Bool.eq_false_iff.mpr hmore⟩

/-! ## Transcripts -/

namespace Run

variable {α β : Type} {bad : Entry → Prop}

/-- Nothing that is `bad` is said, whether the program ends with a value or not. -/
def Avoids (bad : Entry → Prop) (x : Run α) : Prop :=
  ∀ e ∈ x.transcript, ¬ bad e

theorem avoids_pure (a : α) : (pure a : Run α).Avoids bad := by
  intro e he; cases he

theorem avoids_liftM (x : Except Fault α) : (liftM x : Run α).Avoids bad := by
  intro e he; cases he

theorem avoids_note {n : Notice} (h : ¬ bad (.notice n)) : (note n).Avoids bad := by
  intro e he
  rw [List.mem_singleton.mp he]
  exact h

theorem avoids_noteIf {b : Bool} {n : Notice} (h : ¬ bad (.notice n)) :
    (noteIf b n).Avoids bad := by
  cases b with
  | true => exact avoids_note h
  | false => exact avoids_pure ()

/-- The rest of a program is reached only with the value of its first part. -/
theorem avoids_bind {x : Run α} {f : α → Run β} (hx : x.Avoids bad)
    (hf : ∀ a, x.result = .ok a → (f a).Avoids bad) : (x >>= f).Avoids bad := by
  intro e he
  cases hr : x.result with
  | error fault =>
      simp only [bind, hr] at he
      exact hx e he
  | ok a =>
      simp only [bind, hr] at he
      rcases List.mem_append.mp he with he | he
      · exact hx e he
      · exact hf a hr e he

end Run

end BurstDma
