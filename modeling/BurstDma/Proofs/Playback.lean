import BurstDma.Proofs.Safety
import BurstDma.Proofs.Standstill

/-!
# What a script does

A player is one of several who take their steps on the same machine, and between two of its
steps the machine may become anything: others write registers, the clock ticks, streams come
and go. So a player is judged by its *visits* alone: for each of its steps, the machine as the
step found it and as the step left it.

**The visits of a player are its commands, one after the other.** A finished command is a
`Deed`: the steps in which it had to wait, none for most commands, and the step that finished
it. `Command.Waits` and `Command.Ends` say for each command what these are; the account of a
player is the list of its deeds, and the waits of the command that it is on.
-/

namespace BurstDma

/-- A step of a player: the machine before it and after it. -/
structure Visit where
  found : Machine
  left : Machine

namespace Visit

variable {v : Visit} {addr got : UInt32}

/-- The step did nothing to the machine. -/
def Quiet (v : Visit) : Prop :=
  v.left = v.found

/-- The step was the write of a register. -/
def Writes (v : Visit) (addr data : UInt32) : Prop :=
  (v.found.writeRegister addr data).result = .ok v.left

/-- The step was a look at a register. -/
structure Reads (v : Visit) (addr got : UInt32) : Prop where
  quiet : v.Quiet
  got : (v.found.readRegister addr).result = .ok got

theorem quiet_self (s : Machine) : Quiet ⟨s, s⟩ :=
  rfl

end Visit

namespace Command

/-- A step in which a command has to wait. -/
inductive Holds : Command → Visit → Prop where
  | poll {addr expected got : UInt32} {v : Visit} :
      v.Reads addr got → got ≠ expected → Holds (.poll addr expected) v
  | waitIrq {line : Nat} {v : Visit} :
      v.Quiet → v.found.irq line = false → Holds (.waitIrq line) v
  | stall {cycles : Nat} {v : Visit} : v.Quiet → Holds (.stall cycles) v

/-- The steps in which a command has waited so far. A stall does not wait longer than it should. -/
structure Waits (c : Command) (visits : List Visit) : Prop where
  held : ∀ v ∈ visits, c.Holds v
  bound : ∀ cycles, c = .stall cycles → visits.length ≤ cycles

/-- The step that finishes a command, behind those through which it waited. -/
inductive Ends : Command → List Visit → Visit → Prop where
  | write {addr data : UInt32} {v : Visit} :
      v.Writes addr data → Ends (.write addr data) [] v
  | read {addr expected got : UInt32} {v : Visit} :
      v.Reads addr got → Ends (.read addr expected) [] v
  | poll {addr expected : UInt32} {waits : List Visit} {v : Visit} :
      Waits (.poll addr expected) waits → v.Reads addr expected →
      Ends (.poll addr expected) waits v
  | waitIrq {line : Nat} {waits : List Visit} {v : Visit} :
      Waits (.waitIrq line) waits → v.Quiet → v.found.irq line = true →
      Ends (.waitIrq line) waits v
  | stall {cycles : Nat} {waits : List Visit} {v : Visit} :
      Waits (.stall cycles) waits → waits.length = cycles → v.Quiet →
      Ends (.stall cycles) waits v

/-- The register that a command looks at. -/
def looksAt? : Command → Option UInt32
  | .read addr _ => some addr
  | .poll addr _ => some addr
  | _ => none

/-- What a stall still has to wait, once it has begun. -/
def stallLeft : Command → List Visit → Option Nat
  | .stall cycles, v :: waits => some (cycles - (v :: waits).length)
  | _, _ => none

variable {c : Command} {waits : List Visit} {v : Visit}

theorem Waits.fresh (c : Command) : c.Waits [] :=
  ⟨fun _ hv => absurd hv List.not_mem_nil, fun _ _ => Nat.zero_le _⟩

theorem Waits.concat (h : c.Waits waits) (hv : c.Holds v)
    (hlt : ∀ cycles, c = .stall cycles → waits.length < cycles) : c.Waits (waits ++ [v]) where
  held := List.forall_mem_append.mpr ⟨h.held, List.forall_mem_singleton.mpr hv⟩
  bound := by
    intro cycles hc
    rw [List.length_append, List.length_singleton]
    exact hlt cycles hc

theorem stallLeft_nil (c : Command) : c.stallLeft [] = none := by
  cases c <;> rfl

/-- Before a stall begins all of it is left, and then what its waits have not used up. -/
theorem stallLeft_getD (cycles : Nat) (waits : List Visit) :
    (stallLeft (.stall cycles) waits).getD cycles = cycles - waits.length := by
  cases waits with
  | nil => rfl
  | cons v waits => rfl

theorem stallLeft_concat (cycles : Nat) (waits : List Visit) (v : Visit) :
    stallLeft (.stall cycles) (waits ++ [v]) = some (cycles - (waits.length + 1)) := by
  cases waits with
  | nil => rfl
  | cons w waits =>
      show some (cycles - ((w :: waits) ++ [v]).length) = _
      rw [List.length_append, List.length_singleton]

end Command

/-! ## The account of a player -/

/-- A finished command: the steps in which it waited, and the step that finished it. -/
structure Deed where
  command : Text.Located Command
  waits : List Visit
  last : Visit

namespace Deed

def visits (d : Deed) : List Visit :=
  d.waits ++ [d.last]

/-- The mismatch that a command leaves behind: that of a read which did not get what it should,
with the cycle of its step. -/
def mismatches (script : String) (d : Deed) : List Mismatch :=
  match d.command.item with
  | .read addr expected =>
    match (d.last.found.readRegister addr).result with
    | .ok got =>
      if got = expected then []
      else [⟨script, d.command.line, d.last.found.cycle, addr, expected, got⟩]
    | .error _ => []
  | _ => []

theorem mismatches_read {script : String} {line : Nat} {addr expected got : UInt32}
    {waits : List Visit} {v : Visit} (h : (v.found.readRegister addr).result = .ok got) :
    mismatches script ⟨⟨line, .read addr expected⟩, waits, v⟩
      = if got = expected then [] else [⟨script, line, v.found.cycle, addr, expected, got⟩] := by
  unfold mismatches
  dsimp only
  rw [h]

end Deed

/-- The account of a player of a script, after some visits: `deeds` are the commands that are
finished, `waits` the steps that it has spent on the command it is on. -/
structure Account (script : Script) (visits : List Visit) (p : Player) (deeds : List Deed)
    (waits : List Visit) : Prop where
  name : p.name = script.name
  /-- The commands are finished in their order, and each of them once. -/
  commands : script.commands = deeds.map (·.command) ++ p.todo
  /-- A visit belongs to a finished command or to the one that the player is on. -/
  visits : visits = deeds.flatMap (·.visits) ++ waits
  ended : ∀ d ∈ deeds, d.command.item.Ends d.waits d.last
  waiting : ∀ c ∈ p.todo.head?, c.item.Waits waits
  /-- Behind the last command nothing is done any more. -/
  finished : p.todo = [] → ∀ v ∈ waits, v.Quiet
  stallLeft : p.stallLeft = p.todo.head?.bind (·.item.stallLeft waits)
  mismatches : p.mismatches = deeds.flatMap (·.mismatches script.name)

namespace Account

variable {script : Script} {visits waits : List Visit} {p : Player} {deeds : List Deed}
  {v : Visit} {c : Text.Located Command} {rest : List (Text.Located Command)}

/-- A player at the beginning of its script. -/
theorem init (script : Script) : Account script [] (.ofScript script) [] [] := by
  refine ⟨rfl, rfl, rfl, fun d hd => absurd hd List.not_mem_nil, fun c _ => .fresh c.item,
    fun _ v hv => absurd hv List.not_mem_nil, ?_, rfl⟩
  show none = script.commands.head?.bind _
  cases script.commands.head? with
  | none => rfl
  | some c => exact c.item.stallLeft_nil.symm

/-- The player waits one step longer. -/
theorem waits_on (h : Account script visits p deeds waits) (htodo : p.todo = c :: rest)
    (hwaits : c.item.Waits (waits ++ [v])) {left : Option Nat}
    (hleft : left = c.item.stallLeft (waits ++ [v])) :
    Account script (visits ++ [v]) { p with stallLeft := left } deeds (waits ++ [v]) where
  name := h.name
  commands := h.commands
  visits := by rw [h.visits, List.append_assoc]
  ended := h.ended
  waiting := by
    intro c' hc'
    have hsame : c = c' := by simpa [htodo] using hc'
    exact hsame ▸ hwaits
  finished := by
    intro hover
    rw [show p.todo = [] from hover] at htodo
    cases htodo
  stallLeft := by
    show left = p.todo.head?.bind _
    rw [htodo]
    exact hleft
  mismatches := h.mismatches

/-- The player finishes the command that it is on. -/
theorem ends (h : Account script visits p deeds waits) (htodo : p.todo = c :: rest)
    (hends : c.item.Ends waits v) {p' : Player} (hname : p'.name = p.name)
    (htodo' : p'.todo = rest) (hleft : p'.stallLeft = none)
    (hmismatches : p'.mismatches = p.mismatches ++ Deed.mismatches script.name ⟨c, waits, v⟩) :
    Account script (visits ++ [v]) p' (deeds ++ [⟨c, waits, v⟩]) [] where
  name := hname.trans h.name
  commands := by
    rw [h.commands, htodo, htodo', List.map_append, List.append_assoc]
    rfl
  visits := by
    rw [h.visits, List.flatMap_append, List.flatMap_singleton, List.append_nil,
      List.append_assoc]
    rfl
  ended := List.forall_mem_append.mpr ⟨h.ended, List.forall_mem_singleton.mpr hends⟩
  waiting := fun c' _ => .fresh c'.item
  finished := fun _ w hw => absurd hw List.not_mem_nil
  stallLeft := by
    rw [hleft]
    cases p'.todo.head? with
    | none => rfl
    | some c' => exact c'.item.stallLeft_nil.symm
  mismatches := by
    rw [hmismatches, h.mismatches, List.flatMap_append, List.flatMap_singleton]

/-- Behind the end of the script the player stays as it is. -/
theorem rests (h : Account script visits p deeds waits) (htodo : p.todo = []) (hv : v.Quiet) :
    Account script (visits ++ [v]) p deeds (waits ++ [v]) where
  name := h.name
  commands := h.commands
  visits := by rw [h.visits, List.append_assoc]
  ended := h.ended
  waiting := by
    intro c hc
    rw [htodo] at hc
    cases hc
  finished := fun _ =>
    List.forall_mem_append.mpr ⟨h.finished htodo, List.forall_mem_singleton.mpr hv⟩
  stallLeft := by
    rw [h.stallLeft, htodo]
    rfl
  mismatches := h.mismatches

/-- A command that is no stall has no count of its own. -/
theorem stallLeft_eq_none (h : Account script visits p deeds waits) (htodo : p.todo = c :: rest)
    (hc : ∀ cycles, c.item ≠ .stall cycles) : p.stallLeft = none := by
  rw [h.stallLeft, htodo]
  show c.item.stallLeft waits = none
  cases hcommand : c.item with
  | stall cycles => exact absurd hcommand (hc cycles)
  | write | read | poll | waitIrq => rfl

/-- A command that never waits has not waited. -/
theorem waits_eq_nil (h : Account script visits p deeds waits) (htodo : p.todo = c :: rest)
    (hc : ∀ v, ¬ c.item.Holds v) : waits = [] := by
  have hwaiting : c.item.Waits waits := h.waiting c (by rw [htodo]; rfl)
  exact List.eq_nil_iff_forall_not_mem.mpr fun v hv => hc v (hwaiting.held v hv)

/-- A stall waits as many steps as it has cycles, whatever stood before it, and ends in the
next. -/
theorem stall_step {line cycles : Nat} (h : Account script visits p deeds waits)
    (htodo : p.todo = ⟨line, .stall cycles⟩ :: rest) (s : Machine) :
    ∃ deeds' waits', Account script (visits ++ [⟨s, s⟩]) (p.stall cycles) deeds' waits' := by
  have hwaiting : Command.Waits (.stall cycles) waits :=
    h.waiting ⟨line, .stall cycles⟩ (by rw [htodo]; rfl)
  have hcount : p.stallLeft.getD cycles = cycles - waits.length := by
    rw [h.stallLeft, htodo]
    exact Command.stallLeft_getD cycles waits
  have hle := hwaiting.bound cycles rfl
  unfold Player.stall
  rw [hcount]
  rcases Nat.eq_or_lt_of_le hle with heq | hlt
  · rw [heq, Nat.sub_self]
    have htail : p.advance.todo = rest := by rw [Player.advance, htodo]; rfl
    exact ⟨_, _, h.ends htodo (.stall hwaiting heq (Visit.quiet_self s)) rfl htail rfl
      (List.append_nil _).symm⟩
  · obtain ⟨left, hleft⟩ : ∃ left, cycles - waits.length = left + 1 :=
      ⟨cycles - waits.length - 1, by omega⟩
    rw [hleft]
    have hon : Command.Waits (.stall cycles) (waits ++ [⟨s, s⟩]) :=
      hwaiting.concat (.stall (Visit.quiet_self s)) fun n hn => by cases hn; exact hlt
    refine ⟨_, _, h.waits_on htodo hon ?_⟩
    rw [Command.stallLeft_concat]
    exact congrArg some (by omega)

/-- A read is finished whatever it got; if that is not what it should have got, it leaves a
mismatch. -/
theorem read_step {line : Nat} {addr expected got : UInt32} {compared : Player} {s : Machine}
    (h : Account script visits p deeds waits)
    (htodo : p.todo = ⟨line, .read addr expected⟩ :: rest)
    (hgot : (s.readRegister addr).result = .ok got)
    (hcompared : (p.compare line s.cycle addr expected got).result = .ok compared) :
    ∃ deeds' waits', Account script (visits ++ [⟨s, s⟩]) compared.advance deeds' waits' := by
  obtain rfl := h.waits_eq_nil htodo fun v hv => nomatch hv
  have hends : Command.Ends (.read addr expected) [] ⟨s, s⟩ := .read ⟨Visit.quiet_self s, hgot⟩
  have hleft := h.stallLeft_eq_none htodo fun _ => by simp
  have htail : p.todo.tail = rest := by rw [htodo]; rfl
  unfold Player.compare at hcompared
  by_cases heq : got = expected
  · rw [if_pos heq] at hcompared
    cases hcompared
    refine ⟨_, _, h.ends htodo hends rfl htail hleft ?_⟩
    rw [Deed.mismatches_read hgot, if_pos heq, List.append_nil]
    rfl
  · rw [if_neg heq] at hcompared
    cases hcompared
    refine ⟨_, _, h.ends htodo hends rfl htail hleft ?_⟩
    rw [Deed.mismatches_read hgot, if_neg heq, ← h.name]
    exact List.reverse_cons ..

/-- **A step of the player keeps its account.** It is one more wait of the command that the
player is on, or it finishes that command. -/
theorem step (h : Account script visits p deeds waits) {p' : Player} {s s' : Machine}
    (hstep : (p.step s).result = .ok (p', s')) :
    ∃ deeds' waits', Account script (visits ++ [⟨s, s'⟩]) p' deeds' waits' := by
  unfold Player.step at hstep
  cases htodo : p.todo with
  | nil =>
      rw [htodo] at hstep
      cases hstep
      exact ⟨_, _, h.rests htodo (Visit.quiet_self s)⟩
  | cons c rest =>
      obtain ⟨line, command⟩ := c
      have hwaiting : command.Waits waits := h.waiting ⟨line, command⟩ (by rw [htodo]; rfl)
      have htail : p.advance.todo = rest := by rw [Player.advance, htodo]; rfl
      rw [htodo] at hstep
      cases command with
      | write addr data =>
          obtain ⟨t, hwrite, hstep⟩ := Run.result_bind_eq_ok.mp hstep
          cases hstep
          obtain rfl := h.waits_eq_nil htodo fun v hv => nomatch hv
          have hends : Command.Ends (.write addr data) [] ⟨s, s'⟩ := .write hwrite
          exact ⟨_, _, h.ends htodo hends rfl htail (h.stallLeft_eq_none htodo fun _ => by simp)
            (List.append_nil _).symm⟩
      | read addr expected =>
          obtain ⟨got, hgot, hstep⟩ := Run.result_bind_eq_ok.mp hstep
          obtain ⟨compared, hcompared, hstep⟩ := Run.result_bind_eq_ok.mp hstep
          cases hstep
          exact h.read_step htodo hgot hcompared
      | poll addr expected =>
          obtain ⟨got, hgot, hstep⟩ := Run.result_bind_eq_ok.mp hstep
          cases hstep
          have hreads : Visit.Reads ⟨s, s⟩ addr got := ⟨Visit.quiet_self s, hgot⟩
          have hleft := h.stallLeft_eq_none htodo fun _ => by simp
          by_cases heq : got = expected
          · rw [if_pos heq]
            exact ⟨_, _, h.ends htodo (.poll hwaiting (heq ▸ hreads)) rfl htail hleft
              (List.append_nil _).symm⟩
          · rw [if_neg heq]
            have hon := hwaiting.concat (.poll hreads heq) fun _ hn => nomatch hn
            exact ⟨_, _, h.waits_on htodo hon hleft⟩
      | waitIrq irq =>
          cases hstep
          have hquiet := Visit.quiet_self s
          have hleft := h.stallLeft_eq_none htodo fun _ => by simp
          cases hirq : s.irq irq with
          | true =>
              exact ⟨_, _, h.ends htodo (.waitIrq hwaiting hquiet hirq) rfl htail hleft
                (List.append_nil _).symm⟩
          | false =>
              have hon := hwaiting.concat (.waitIrq hquiet hirq) fun _ hn => nomatch hn
              exact ⟨_, _, h.waits_on htodo hon hleft⟩
      | stall cycles =>
          cases hstep
          exact h.stall_step htodo s

/-- The player is on the command behind those that it has finished. -/
theorem currentLine (h : Account script visits p deeds waits) :
    p.currentLine = (script.commands[deeds.length]?).map (·.line) := by
  have hhead : script.commands[deeds.length]? = p.todo.head? := by
    rw [h.commands, List.getElem?_append_right (by rw [List.length_map]), List.length_map,
      Nat.sub_self, List.head?_eq_getElem?]
  rw [hhead]
  rfl

end Account

namespace Player

variable {p : Player} {s : Machine}

theorem currentLine_eq_none_iff : p.currentLine = none ↔ p.isDone = true := by
  unfold currentLine isDone
  rw [Option.map_eq_none_iff, List.head?_eq_none_iff, List.isEmpty_iff]

theorem compare_ok (p : Player) (line cycle : Nat) (addr expected got : UInt32) :
    ∃ compared, (p.compare line cycle addr expected got).result = .ok compared := by
  unfold compare
  split
  · exact ⟨_, rfl⟩
  · exact ⟨_, rfl⟩

/-- The register that the player looks at in its next step. -/
def looksAt? (p : Player) : Option UInt32 :=
  p.todo.head?.bind (·.item.looksAt?)

/-- A step is possible if the register it looks at can be read. -/
theorem step_ok_iff :
    (∃ next, (p.step s).result = .ok next) ↔
      ∀ addr ∈ p.looksAt?, ∃ got, (s.readRegister addr).result = .ok got := by
  have hread : ∀ {α : Type} {addr : UInt32} {f : UInt32 → Run α},
      (∀ got, ∃ next, (f got).result = .ok next) →
      ((∃ next, (s.readRegister addr >>= f).result = .ok next) ↔
        ∀ a ∈ some addr, ∃ got, (s.readRegister a).result = .ok got) := by
    intro α addr f hf
    constructor
    · rintro ⟨next, hnext⟩ a ha
      obtain ⟨got, hgot, _⟩ := Run.result_bind_eq_ok.mp hnext
      cases ha
      exact ⟨got, hgot⟩
    · intro h
      obtain ⟨got, hgot⟩ := h addr rfl
      exact Run.bind_ok hgot (hf got)
  have hnone : ∀ {next : Player × Machine} {r : Run (Player × Machine)}, r.result = .ok next →
      ((∃ next, r.result = .ok next) ↔
        ∀ a ∈ (none : Option UInt32), ∃ got, (s.readRegister a).result = .ok got) :=
    fun h => ⟨fun _ _ ha => absurd ha (by simp), fun _ => ⟨_, h⟩⟩
  unfold step looksAt?
  cases p.todo with
  | nil => exact hnone rfl
  | cons c rest =>
      obtain ⟨line, command⟩ := c
      cases command with
      | write addr data =>
          obtain ⟨t, ht⟩ := s.writeRegister_ok addr data
          exact hnone (Run.result_bind_eq_ok.mpr ⟨t, ht, rfl⟩)
      | read addr expected =>
          refine hread fun got => ?_
          obtain ⟨compared, hcompared⟩ := p.compare_ok line s.cycle addr expected got
          exact Run.bind_ok hcompared ⟨_, rfl⟩
      | poll addr expected => exact hread fun got => ⟨_, rfl⟩
      | waitIrq irq => exact hnone rfl
      | stall cycles => exact hnone rfl

end Player

/-! ## Players on one machine -/

/-- Something that happened to the machine: a step of the player with that number, or anything
else. -/
abbrev Scene := Option Nat × Visit

/-- The visits of player `k`. -/
def visitsOf (k : Nat) (past : List Scene) : List Visit :=
  past.filterMap fun scene => if scene.1 = some k then some scene.2 else none

/-- `Interplay scripts s₀ past players s`: players of the scripts were on a machine that was `s₀`
when they began. They took their steps in any order, and in between the machine became
whatever it did, by the clock or by somebody else. -/
inductive Interplay (scripts : List Script) (s₀ : Machine) :
    List Scene → List Player → Machine → Prop where
  | start : Interplay scripts s₀ [] (scripts.map .ofScript) s₀
  | step {past : List Scene} {players : List Player} {s s' : Machine} {k : Nat} {p p' : Player} :
      Interplay scripts s₀ past players s → players[k]? = some p →
      (p.step s).result = .ok (p', s') →
      Interplay scripts s₀ (past ++ [(some k, ⟨s, s'⟩)]) (players.set k p') s'
  | meanwhile {past : List Scene} {players : List Player} {s : Machine} (s' : Machine) :
      Interplay scripts s₀ past players s →
      Interplay scripts s₀ (past ++ [(none, ⟨s, s'⟩)]) players s'

section

variable {scripts : List Script} {s₀ s : Machine} {past more : List Scene}
  {players : List Player} {k : Nat} {script : Script} {v : Visit}

theorem visitsOf_append : visitsOf k (past ++ more) = visitsOf k past ++ visitsOf k more :=
  List.filterMap_append

theorem visitsOf_step {j : Nat} :
    visitsOf k [(some j, v)] = if j = k then [v] else [] := by
  by_cases hj : j = k
  · simp [visitsOf, hj]
  · simp [visitsOf, hj]

namespace Interplay

/-- **Every player has an account of its visits.** -/
theorem account (h : Interplay scripts s₀ past players s) (hk : scripts[k]? = some script) :
    ∃ p deeds waits, players[k]? = some p ∧ Account script (visitsOf k past) p deeds waits := by
  induction h with
  | start =>
      refine ⟨.ofScript script, [], [], ?_, Account.init script⟩
      rw [List.getElem?_map, hk]
      rfl
  | @step past players s s' j p p' h hp hstep ih =>
      obtain ⟨q, deeds, waits, hq, hacc⟩ := ih
      rw [visitsOf_append, visitsOf_step]
      by_cases hj : j = k
      · obtain rfl := hj
        obtain rfl : p = q := Option.some.inj (hp.symm.trans hq)
        rw [if_pos rfl]
        obtain ⟨deeds', waits', hacc'⟩ := hacc.step hstep
        have hlt := (List.getElem?_eq_some_iff.mp hp).1
        exact ⟨p', deeds', waits', List.getElem?_set_self hlt, hacc'⟩
      · rw [if_neg hj, List.append_nil]
        exact ⟨q, deeds, waits, (List.getElem?_set_ne hj).trans hq, hacc⟩
  | @meanwhile past players s s' h ih =>
      obtain ⟨q, deeds, waits, hq, hacc⟩ := ih
      rw [visitsOf_append]
      exact ⟨q, deeds, waits, hq, by simpa [visitsOf] using hacc⟩

/-- A step of every player, in their order. -/
theorem stepAll {before ps ps' : List Player} {s' : Machine}
    (h : Interplay scripts s₀ past (before ++ ps) s)
    (hstep : (Player.stepAll ps s).result = .ok (ps', s')) :
    ∃ more, Interplay scripts s₀ (past ++ more) (before ++ ps') s' ∧ ps'.length = ps.length
      ∧ more.map (·.1) = (List.range' before.length ps.length).map some := by
  induction ps generalizing past before s ps' with
  | nil =>
      cases hstep
      exact ⟨[], by simpa using h, rfl, rfl⟩
  | cons p ps ih =>
      obtain ⟨⟨q, t⟩, hone, hstep⟩ := Run.result_bind_eq_ok.mp hstep
      obtain ⟨⟨qs, u⟩, hrest, hstep⟩ := Run.result_bind_eq_ok.mp hstep
      cases hstep
      have hp : (before ++ p :: ps)[before.length]? = some p := by simp
      have hset : (before ++ p :: ps).set before.length q = (before ++ [q]) ++ ps := by simp
      have hnext := h.step hp hone
      rw [hset] at hnext
      obtain ⟨more, hmore, hlen, hturns⟩ := ih hnext hrest
      rw [List.append_assoc, List.append_assoc] at hmore
      refine ⟨_, hmore, by rw [List.length_cons, List.length_cons, hlen], ?_⟩
      rw [List.length_append, List.length_singleton] at hturns
      rw [List.map_append, hturns, List.length_cons, List.range'_succ, List.map_cons]
      rfl

/-- The turns of a cycle of a simulation: one for every player, and then the clock's. -/
def turns (players : List Player) : List (Option Nat) :=
  (List.range players.length).map some ++ [none]

/-- **A simulation is such an interplay**, in which the players take their steps one after the other and
the clock ticks behind the last of them. -/
theorem simulation {n : Nat} {sim sim' : Simulation}
    (h : Interplay scripts s₀ past sim.players sim.machine)
    (hrun : (Run.stepTimes Simulation.step n sim).result = .ok sim') :
    ∃ more, Interplay scripts s₀ (past ++ more) sim'.players sim'.machine
      ∧ more.map (·.1) = (List.replicate n (turns sim.players)).flatten := by
  induction n generalizing past sim with
  | zero =>
      cases hrun
      exact ⟨[], by simpa using h, rfl⟩
  | succ n ih =>
      rw [Run.stepTimes_succ] at hrun
      obtain ⟨next, hstep, hrun⟩ := Run.result_bind_eq_ok.mp hrun
      obtain ⟨⟨players, s⟩, hall, hstep⟩ := Run.result_bind_eq_ok.mp hstep
      obtain ⟨t, -, hstep⟩ := Run.result_bind_eq_ok.mp hstep
      have hplayers : next.players = players := by
        rcases Simulation.handOver_eq { sim with players, machine := t } with hkept | htaken
        · rw [hkept] at hstep
          cases hstep
          rfl
        · rw [htaken] at hstep
          cases hstep
          rfl
      have hnobody : Interplay scripts s₀ past ([] ++ sim.players) sim.machine := h
      obtain ⟨steps, hsteps, hlen, hturns⟩ := hnobody.stepAll hall
      have hround := hsteps.meanwhile next.machine
      rw [List.nil_append, ← hplayers, List.append_assoc] at hround
      obtain ⟨more, hmore, hrest⟩ := ih hround hrun
      have hsame : turns next.players = turns sim.players := by
        unfold turns
        rw [hplayers, hlen]
      rw [List.append_assoc] at hmore
      refine ⟨_, hmore, ?_⟩
      rw [List.replicate_succ, List.flatten_cons, ← hsame, ← hrest, List.map_append,
        List.map_append, hturns, hsame]
      simp [turns, List.range_eq_range']

end Interplay

/-- **A player works through its script.** However its steps fall between those of other players
and between whatever else becomes of the machine, its visits are the steps of its commands, in
their order and each command once; the line it is on is that of the command after those; and its
next step is possible if the register that it is to look at can be read. -/
theorem scripts_are_played (h : Interplay scripts s₀ past players s)
    (hk : scripts[k]? = some script) :
    ∃ p deeds waits, players[k]? = some p ∧ Account script (visitsOf k past) p deeds waits
      ∧ p.currentLine = (script.commands[deeds.length]?).map (·.line)
      ∧ (p.currentLine = none ↔ p.isDone = true)
      ∧ ((∃ next, (p.step s).result = .ok next) ↔
          ∀ addr ∈ p.looksAt?, ∃ got, (s.readRegister addr).result = .ok got)
      ∧ ∀ params, Machine.Reachable params s → ∃ next, (p.step s).result = .ok next := by
  obtain ⟨p, deeds, waits, hp, hacc⟩ := h.account hk
  refine ⟨p, deeds, waits, hp, hacc, hacc.currentLine, Player.currentLine_eq_none_iff,
    Player.step_ok_iff, fun params hr => Player.step_ok_iff.mpr fun addr _ => ?_⟩
  exact Machine.readRegister_ok hr addr

end

/-- A script that waits a cycle, writes a register and finds something else in it than it should. -/
def writesAndChecks : Script where
  name := "a"
  commands := [⟨1, .stall 1⟩, ⟨2, .write 0 7⟩, ⟨4, .read 0 9⟩]

/-- A script that waits for what the other one writes. -/
def waitsAndStalls : Script where
  name := "b"
  commands := [⟨1, .poll 0 7⟩, ⟨2, .stall 2⟩]

/-- After four cycles the first script is done, with a mismatch. Its write in the third of them
was seen by the second script, which is in its stall. -/
theorem scripts_are_played_two :
    ∃ s₀ past players s,
      Interplay [writesAndChecks, waitsAndStalls] s₀ past players s
        ∧ past.map (·.1) = (List.replicate 4 [some 0, some 1, none]).flatten
        ∧ players.map (fun p => (p.currentLine, p.mismatches))
          = [(none, [⟨"a", 4, 3, 0, 9, 7⟩]), (some 2, [])]
        ∧ ∃ q deeds waits, players[1]? = some q
          ∧ Account waitsAndStalls (visitsOf 1 past) q deeds waits
          ∧ q.currentLine = (waitsAndStalls.commands[deeds.length]?).map (·.line) := by
  have hrun : Machine.trial { ports := [{}], memory := { sizeWords := 4 } } []
      (fun _ s => match (Run.stepTimes Simulation.step 4 (Simulation.ofMachine s
          [.ofScript writesAndChecks, .ofScript waitsAndStalls] 100)).result with
        | .error _ => false
        | .ok sim => decide (sim.players.map (fun p => (p.currentLine, p.mismatches))
            = [(none, [⟨"a", 4, 3, 0, 9, 7⟩]), (some 2, [])])) = true := by
    decide +kernel
  obtain ⟨s₀, _, s, -, -, hlook⟩ := Machine.exists_of_trial hrun
  split at hlook
  · cases hlook
  · rename_i sim hsim
    have hstart : Interplay [writesAndChecks, waitsAndStalls] s []
        (Simulation.ofMachine s [.ofScript writesAndChecks, .ofScript waitsAndStalls] 100).players
        s := .start
    obtain ⟨past, hinterplay, hturns⟩ := hstart.simulation hsim
    have hsecond : [writesAndChecks, waitsAndStalls][1]? = some waitsAndStalls := rfl
    obtain ⟨q, deeds, waits, hq, hacc, hline, _⟩ := scripts_are_played hinterplay hsecond
    exact ⟨s, past, _, _, hinterplay, hturns, of_decide_eq_true hlook, q, deeds, waits, hq, hacc,
      hline⟩

end BurstDma
