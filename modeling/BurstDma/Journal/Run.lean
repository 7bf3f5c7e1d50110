import BurstDma.Journal.Trace

/-!
# Computations that leave a transcript

A run of the model says things on its way and ends with a value or a fault. **What
was said before a fault stays said**, so the transcript stands beside the result
and not inside it. Everything that can be said goes into one list, in order:
notices, trace records and lines of text for the two output streams.

Laws are about results as a rule. `result_bind` takes a program apart without
looking at its transcript.
-/

namespace BurstDma

/-- One thing said. -/
inductive Entry where
  | notice (n : Notice)
  | traced (r : TraceRecord)
  /-- Text for the reader of the output. -/
  | printed (text : String)
  /-- Text for whoever typed something wrong. -/
  | complained (text : String)
  /-- From here on nobody wants to hear of anything below a warning. -/
  | hushed
deriving Repr, DecidableEq, Inhabited

/-- A transcript, and a value or the fault that prevented it. -/
structure Run (α : Type) where
  transcript : List Entry
  result : Except Fault α

namespace Run

variable {α β : Type}

@[always_inline]
instance : Monad Run where
  pure a := ⟨[], .ok a⟩
  bind x f :=
    match x.result with
    | .error e => ⟨x.transcript, .error e⟩
    | .ok a => ⟨x.transcript ++ (f a).transcript, (f a).result⟩

/-- A checked computation, which says nothing. -/
@[inline] def ofExcept (x : Except Fault α) : Run α :=
  ⟨[], x⟩

@[always_inline]
instance : MonadLift (Except Fault) Run where
  monadLift := ofExcept

/-- Says one thing. -/
@[inline] def say (e : Entry) : Run Unit :=
  ⟨[e], .ok ()⟩

/-- Tells a notice. -/
@[inline] def note (n : Notice) : Run Unit :=
  say (.notice n)

/-- Tells a notice if there is a reason to. -/
@[inline] def noteIf (reason : Bool) (n : Notice) : Run Unit :=
  if reason then note n else pure ()

/-! ## Loops

A loop may run for very many rounds, so it keeps what was said in a list that grows at
its front. -/

/-- Steps while `more` holds, but at most `n` of them. `said` is the transcript so far,
newest entry first. -/
def loopWhile (more : α → Bool) (step : α → Run α) : Nat → List Entry → α → Run α
  | 0, said, a => ⟨said.reverse, .ok a⟩
  | n + 1, said, a =>
    if more a then
      match step a with
      | ⟨entries, .ok next⟩ => loopWhile more step n (entries.reverse ++ said) next
      | ⟨entries, .error fault⟩ => ⟨(entries.reverse ++ said).reverse, .error fault⟩
    else ⟨said.reverse, .ok a⟩

/-- Steps while `more` holds, but at most `n` of them. -/
def stepWhile (more : α → Bool) (step : α → Run α) (n : Nat) (a : α) : Run α :=
  loopWhile more step n [] a

/-- Exactly `n` steps. -/
def stepTimes (step : α → Run α) (n : Nat) (a : α) : Run α :=
  stepWhile (fun _ => true) step n a

/-! ## Results -/

@[simp] theorem result_pure (a : α) : (pure a : Run α).result = .ok a := rfl

@[simp] theorem transcript_pure (a : α) : (pure a : Run α).transcript = [] := rfl

@[simp] theorem result_bind (x : Run α) (f : α → Run β) :
    (x >>= f).result = x.result.bind fun a => (f a).result := by
  cases x with
  | mk t r => cases r <;> rfl

@[simp] theorem result_ofExcept (x : Except Fault α) : (ofExcept x).result = x := rfl

@[simp] theorem result_note (n : Notice) : (note n).result = .ok () := rfl

@[simp] theorem result_noteIf (b : Bool) (n : Notice) : (noteIf b n).result = .ok () := by
  cases b <;> rfl

theorem bind_congr_of_ok {x : Run α} {f : α → Run β} {a : α} (h : x.result = .ok a) :
    x >>= f = ⟨x.transcript ++ (f a).transcript, (f a).result⟩ := by
  cases x with
  | mk t r =>
    simp only at h
    subst h
    rfl

/-- The transcript so far only stands in front. -/
theorem loopWhile_eq (more : α → Bool) (step : α → Run α) (n : Nat) (said : List Entry)
    (a : α) :
    loopWhile more step n said a =
      ⟨said.reverse ++ (loopWhile more step n [] a).transcript,
        (loopWhile more step n [] a).result⟩ := by
  induction n generalizing said a with
  | zero => simp [loopWhile]
  | succ n ih =>
    unfold loopWhile
    split
    · split
      · rename_i entries next _
        rw [ih (entries.reverse ++ said), ih (entries.reverse ++ [])]
        simp
      · simp
    · simp

@[simp] theorem stepWhile_zero (more : α → Bool) (step : α → Run α) (a : α) :
    stepWhile more step 0 a = pure a := rfl

/-- **A loop is its first step and the loop after it.** -/
theorem stepWhile_succ (more : α → Bool) (step : α → Run α) (n : Nat) (a : α) :
    stepWhile more step (n + 1) a =
      if more a then step a >>= stepWhile more step n else pure a := by
  unfold stepWhile
  rw [loopWhile]
  split
  · cases h : step a with
    | mk t r =>
      cases r with
      | error e => simp [bind]
      | ok b =>
        simp only [bind]
        rw [loopWhile_eq]
        simp
  · rfl

instance : LawfulMonad Run :=
  LawfulMonad.mk' Run
    (fun x => by
      cases x with
      | mk t r => cases r <;> simp [Functor.map])
    (fun a f => by simp [bind, pure])
    (fun x f g => by
      cases x with
      | mk t r =>
        cases r with
        | error e => rfl
        | ok a =>
          simp only [bind]
          cases (f a).result <;> simp)

end Run

end BurstDma
