import BurstDma.Proofs.Result
import BurstDma.Workplace.Sandbox

/-!
# What was written is read back

A path is followed through directories only, and writing a file makes or unmakes none. **So a
path that a file was written under leads to the same place afterwards, and there is the text.**
Tasks in a sandbox are taken apart here like checked programs are in general.
-/

namespace BurstDma

namespace Disk.Tree

variable {t t' : Tree} {place other : Place} {n : Node}

/-- What is at the other places is found without the entries of one place. -/
theorem lookup_others (hother : other ≠ place) (nodes : List (Place × Node)) :
    (nodes.filter (·.1 != place)).lookup other = nodes.lookup other := by
  induction nodes with
  | nil => rfl
  | cons entry nodes ih =>
      obtain ⟨key, node⟩ := entry
      by_cases hkey : key = place
      · rw [List.filter_cons_of_neg (by simp [hkey]), ih, List.lookup_cons,
          beq_false_of_ne (hkey ▸ hother)]
      · rw [List.filter_cons_of_pos (by simp [hkey]), List.lookup_cons, List.lookup_cons, ih]

/-- Something is put at one place; the top directory stays what it is. -/
theorem get?_put (hplace : place ≠ []) :
    (t.put place n).get? other = if other = place then some n else t.get? other := by
  cases other with
  | nil =>
      rw [if_neg hplace.symm]
      rfl
  | cons name rest =>
      show List.lookup (name :: rest) ((place, n) :: t.nodes.filter (·.1 != place)) = _
      rw [List.lookup_cons]
      split
      · rename_i heq
        rw [if_pos (beq_iff_eq.mp heq)]
      · rename_i hne
        rw [if_neg (beq_eq_false_iff_ne.mp hne), lookup_others (beq_eq_false_iff_ne.mp hne)]
        rfl

/-- A new file stands in nobody's way. -/
theorem follow_put {names : List (List Char)} {text : String} {start : Place}
    (hfile : t.get? place ≠ some .directory) (h : t.follow start names = .ok other) :
    (t.put place (.file text)).follow start names = .ok other := by
  have htop : place ≠ [] := by
    rintro rfl
    exact hfile rfl
  induction names generalizing start with
  | nil => exact h
  | cons name names ih =>
      unfold follow at h ⊢
      split at h
      · cases h
      · cases h
      · rename_i hdir
        -- there was no directory at the place, so the path did not lead through it
        have hstart : start ≠ place := by
          rintro rfl
          exact hfile hdir
        rw [get?_put htop, if_neg hstart, hdir]
        dsimp only
        split at h
        · rename_i hstays
          rw [if_pos hstays]
          exact ih h
        · rename_i hstays
          rw [if_neg hstays]
          split at h
          · rename_i hup
            rw [if_pos hup]
            split at h
            · cases h
            · rename_i hempty
              rw [if_neg hempty]
              exact ih h
          · rename_i hup
            rw [if_neg hup]
            exact ih h

/-- **What was written is read back.** -/
theorem load_store {path text : String} (h : t.store path text = .ok t') :
    t'.load path = .ok text := by
  obtain ⟨place, hplace, h⟩ := except_bind_eq_ok.mp h
  split at h
  · cases h
  · rename_i hnot
    cases h
    simp only [Bool.or_eq_true, not_or, bne_iff_ne, ne_eq, Decidable.not_not,
      decide_eq_true_eq] at hnot
    obtain ⟨hbare, hfile⟩ := hnot
    rw [hbare] at hplace
    have htop : place ≠ [] := by
      rintro rfl
      exact hfile rfl
    have hresolve : (t.put place (.file text)).resolve path = .ok place := by
      unfold resolve at hplace ⊢
      split at hplace
      · cases hplace
      · rename_i hrelative
        rw [if_neg hrelative]
        exact follow_put hfile hplace
    refine except_bind_eq_ok.mpr ⟨place, hresolve, ?_⟩
    rw [get?_put htop, if_pos rfl]

end Disk.Tree

/-! ## Tasks in a sandbox -/

namespace Task

variable {α β : Type} {x : Task (StateM Sandbox) α} {f : α → Task (StateM Sandbox) β}
  {s s' : Sandbox}

/-- A task goes on where its first part left the sandbox, if that came to its end. -/
theorem run_bind (x : Task (StateM Sandbox) α) (f : α → Task (StateM Sandbox) β) (s : Sandbox) :
    ExceptT.run (x >>= f) s = match ExceptT.run x s with
      | (.ok a, s₁) => ExceptT.run (f a) s₁
      | (.error e, s₁) => (.error e, s₁) := by
  show (match ExceptT.run x s with | (r, s₁) => ExceptT.bindCont f r s₁) = _
  rcases ExceptT.run x s with ⟨_ | a, s₁⟩ <;> rfl

theorem run_bind_ok {b : β} : ExceptT.run (x >>= f) s = (.ok b, s') ↔
    ∃ a s₁, ExceptT.run x s = (.ok a, s₁) ∧ ExceptT.run (f a) s₁ = (.ok b, s') := by
  rw [run_bind]
  rcases ExceptT.run x s with ⟨e | a, s₁⟩
  · exact iff_of_false nofun fun ⟨_, _, h, _⟩ => nomatch h
  · constructor
    · exact fun h => ⟨a, s₁, rfl, h⟩
    · rintro ⟨_, _, hx, h⟩
      cases hx
      exact h

theorem run_lift (work : StateM Sandbox α) (s : Sandbox) :
    ExceptT.run (liftM work : Task (StateM Sandbox) α) s = (.ok (work s).1, (work s).2) := rfl

/-- An access to the files leaves everything else. -/
theorem run_access (path : String) (work : StateM Disk.Tree (Except FileError α)) (s : Sandbox) :
    ExceptT.run (access path (Sandbox.onTree work) : Task (StateM Sandbox) α) s =
      match work s.tree with
      | (.ok a, tree) => (.ok a, { s with tree })
      | (.error cause, tree) => (.error (.problem (.file path cause)), { s with tree }) := by
  have hwork : Sandbox.onTree work s = ((work s.tree).1, { s with tree := (work s.tree).2 }) := rfl
  unfold access
  rw [run_bind, run_lift, hwork]
  rcases work s.tree with ⟨_ | a, tree⟩ <;> rfl

/-- Writing a file changes the files, or nothing. -/
theorem run_store (path text : String) (s : Sandbox) :
    ExceptT.run (store path text : Task (StateM Sandbox) Unit) s =
      match s.tree.store path text with
      | .ok tree => (.ok (), { s with tree })
      | .error cause => (.error (.problem (.file path cause)), s) := by
  have htree : Sandbox.store path text s.tree = match s.tree.store path text with
      | .ok tree => (.ok (), tree)
      | .error cause => (.error cause, s.tree) := by
    simp only [Sandbox.store, bind, StateT.bind, get, getThe, MonadStateOf.get, StateT.get, pure]
    cases s.tree.store path text <;> rfl
  refine (run_access path (Sandbox.store path text) s).trans ?_
  rw [htree]
  cases s.tree.store path text <;> rfl

/-- What is done for one thing after the other ends with what is done for the last of them. -/
theorem run_forIn_concat {act : α → Task (StateM Sandbox) Unit} {as : List α} {a : α} {u : PUnit}
    (h : ExceptT.run (forIn (as ++ [a]) PUnit.unit fun a _ => do
      act a
      return .yield PUnit.unit) s = (.ok u, s')) :
    ∃ s₁, ExceptT.run (act a) s₁ = (.ok (), s') := by
  induction as generalizing s with
  | nil =>
      rw [List.nil_append, List.forIn_cons] at h
      obtain ⟨step, s₂, hact, h⟩ := run_bind_ok.mp h
      obtain ⟨_, s₃, hact, hyield⟩ := run_bind_ok.mp hact
      cases hyield
      cases h
      exact ⟨s, hact⟩
  | cons b as ih =>
      rw [List.cons_append, List.forIn_cons] at h
      obtain ⟨step, s₂, hact, h⟩ := run_bind_ok.mp h
      obtain ⟨_, s₃, _, hyield⟩ := run_bind_ok.mp hact
      cases hyield
      exact ih h

/-! ### What a task can fail on -/

/-- If the task fails, then on a file. -/
def FailsOnFiles (x : Task (StateM Sandbox) α) : Prop :=
  ∀ s s' stop, ExceptT.run x s = (.error stop, s') →
    ∃ path cause, stop = .problem (.file path cause)

theorem failsOnFiles_pure (a : α) : FailsOnFiles (pure a) :=
  fun _ _ _ h => nomatch h

theorem failsOnFiles_bind (hx : FailsOnFiles x) (hf : ∀ a, FailsOnFiles (f a)) :
    FailsOnFiles (x >>= f) := by
  intro s s' stop h
  rw [run_bind] at h
  split at h
  · rename_i a s₁ _
    exact hf a s₁ s' stop h
  · rename_i hrun
    cases h
    exact hx s _ _ hrun

theorem failsOnFiles_access (path : String) (work : StateM Disk.Tree (Except FileError α)) :
    FailsOnFiles (access path (Sandbox.onTree work)) := by
  intro s s' stop h
  rw [run_access] at h
  split at h
  · cases h
  · cases h
    exact ⟨_, _, rfl⟩

theorem failsOnFiles_forIn {act : α → Task (StateM Sandbox) Unit} (h : ∀ a, FailsOnFiles (act a))
    (as : List α) : FailsOnFiles (forIn as PUnit.unit fun a _ => do
      act a
      return .yield PUnit.unit) := by
  induction as with
  | nil =>
      rw [List.forIn_nil]
      exact failsOnFiles_pure _
  | cons a as ih =>
      rw [List.forIn_cons, bind_assoc]
      refine failsOnFiles_bind (h a) fun _ => ?_
      rw [pure_bind]
      exact ih

/-! ### Files -/

/-- A file that was written has its text. -/
theorem load_of_store {path text : String}
    (h : ExceptT.run (store path text : Task (StateM Sandbox) Unit) s = (.ok (), s')) :
    s'.tree.load path = .ok text := by
  rw [run_store] at h
  split at h
  · rename_i tree htree
    cases h
    exact Disk.Tree.load_store htree
  · cases h

end Task

end BurstDma
