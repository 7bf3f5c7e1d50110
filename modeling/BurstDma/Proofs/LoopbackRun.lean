import Mathlib.Data.List.Forall2
import BurstDma.Proofs.LoopbackPlay
import BurstDma.Proofs.Safety
import BurstDma.Script.Player

/-!
# A self-check under way

All scripts are played against one machine. In a cycle every script takes a step and sees
what the scripts before it did, and then the clock ticks; so a cycle is some register writes
and a tick. A script never stops the machine, and **however far the scripts have come, every
port is in step with them**: `Running`.
-/

namespace BurstDma

namespace Machine

variable {s : Machine} {i : Nat} {p : Port}

theorem writeRegister_address (hi : i < 256) (hp : s.ports[i]? = some p) {side : Side}
    {r : Register} {value : UInt32} {regs : RegisterFile}
    (h : ((p.view side).regs.write r.index value).result = .ok regs) :
    (s.writeRegister (Register.address i side r.index) value).result
      = .ok (s.setPort (p.setRegs side regs)) := by
  refine Run.result_bind_eq_ok.mpr ⟨_, decode_address hi hp r, ?_⟩
  cases side <;> exact Run.result_bind_eq_ok.mpr ⟨regs, h, rfl⟩

theorem readRegister_irq {params : MachineParams} (hr : Reachable params s) (hi : i < 256)
    (hp : s.ports[i]? = some p) (side : Side) :
    (s.readRegister (Register.address i side Register.irq.index)).result
      = .ok (if (p.view side).regs.irq then 1 else 0) := by
  obtain ⟨w, hw⟩ := readRegister_ok hr (Register.address i side Register.irq.index)
  have hread := hw
  obtain ⟨found, hfound, hread⟩ := Run.result_bind_eq_ok.mp hread
  rw [decode_address hi hp] at hfound
  cases hfound
  cases side with
  | reader =>
      obtain ⟨status, _, hread⟩ := Run.result_bind_eq_ok.mp hread
      cases hread
      exact hw
  | writer =>
      obtain ⟨status, _, hread⟩ := Run.result_bind_eq_ok.mp hread
      cases hread
      exact hw

theorem irq_line (hp : s.ports[i]? = some p) (side : Side) :
    s.irq (Loopback.line i side) = (p.view side).regs.irq := by
  unfold irq
  cases side with
  | writer =>
      have hport : Loopback.line i .writer / 2 = i := Nat.mul_div_cancel_left i (by decide)
      have heven : Loopback.line i .writer % 2 = 0 := Nat.mul_mod_right 2 i
      rw [hport, hp, heven]
      rfl
  | reader =>
      have hport : Loopback.line i .reader / 2 = i := by
        show (2 * i + 1) / 2 = i
        omega
      have hodd : Loopback.line i .reader % 2 = 1 := by
        show (2 * i + 1) % 2 = 1
        omega
      rw [hport, hp, hodd]
      rfl

end Machine

/-- An operation of a self-check: no image is loaded, nothing is taken away or dropped. -/
def Operation.Plain : Operation → Prop
  | .write _ _ => True
  | .push _ _ => True
  | .tick => True
  | _ => False

namespace Loopback

variable {l : Loopback} {v : LoopbackVectors} {params : MachineParams} {s₀ s s' : Machine}
  {past : List Moment} {i : Nat} {p p' : Port}

/-- A new machine for a self-check: it has the ports, the width and the memory that the
vectors are made for, and otherwise any options. -/
structure Bench (l : Loopback) (v : LoopbackVectors) (params : MachineParams) (s₀ : Machine) :
    Prop where
  legal : params.geometry.Legal
  width : l.wordBytes = params.geometry.wordBytes
  ports : params.ports.length = l.ports
  mode : ∀ q ∈ params.ports, q.frameMode = l.frameMode
  size : params.memory.sizeWords = v.memoryWords
  faultless : params.memory.errorRegions = []
  vectors : l.Generated v
  machine : Machine.ofParams params = .ok s₀

/-- A script of a self-check: its port and its side. -/
abbrev Role := Nat × Side

/-- What has happened so far is a history of `s₀` in which every source was given its input,
and every port is in step with its scripts. `pos` is the number of commands that a script
has finished. -/
structure Running (l : Loopback) (v : LoopbackVectors) (s₀ : Machine) (pos : Role → Nat)
    (past : List Moment) (s : Machine) : Prop where
  history : History s₀ past s
  plain : ∀ e ∈ past, e.2.Plain
  offers : ∀ i, past.flatMap (Moment.offers i) = v.inputs[i]?.getD []
  port : ∀ (i : Nat) (p : Port), s.ports[i]? = some p →
    l.InStep i (pos (i, .writer)) (pos (i, .reader))
      (fun side => past.flatMap (Moment.takes i side)) p
  within : ∀ role, pos role ≤ (l.commands role.1 role.2).length

/-- A player has finished `pos` commands of its script, and has seen nothing wrong. -/
structure Plays (l : Loopback) (pos : Role → Nat) (role : Role) (player : Player) : Prop where
  todo : player.todo.map (·.item) = (l.commands role.1 role.2).drop (pos role)
  clean : player.newestMismatches = []

namespace Running

variable {pos : Role → Nat}

theorem uninterrupted (h : l.Running v s₀ pos past s) : Uninterrupted past := by
  intro e he hreset
  have hplain := h.plain e he
  rw [hreset] at hplain
  exact hplain

theorem reachable (hb : l.Bench v params s₀) (h : l.Running v s₀ pos past s) :
    Machine.Reachable params s :=
  ⟨s₀, past, hb.machine, h.history⟩

theorem length (hb : l.Bench v params s₀) (h : l.Running v s₀ pos past s) :
    s.ports.length = l.ports :=
  (h.reachable hb).formed.length.trans hb.ports

end Running

/-! ## A script -/

/-- The positions when `role` has finished one more command. -/
def stepped (pos : Role → Nat) (role : Role) : Role → Nat :=
  Function.update pos role (pos role + 1)

section

variable {pos : Role → Nat} {role other : Role}

@[simp] theorem stepped_self (pos : Role → Nat) (role : Role) :
    stepped pos role role = pos role + 1 :=
  Function.update_self ..

theorem stepped_of_ne (h : other ≠ role) : stepped pos role other = pos other :=
  Function.update_of_ne h ..

/-- The scripts of the other ports have not moved. -/
theorem stepped_of_port_ne {j : Nat} (h : j ≠ role.1) (side : Side) :
    stepped pos role (j, side) = pos (j, side) :=
  stepped_of_ne fun hc => h (congrArg Prod.fst hc)

end

/-- Some of the scripts in `roles` moved on, between two ticks: what was `past` is `past'`
now, and the other scripts are where they were. -/
structure Advanced (l : Loopback) (v : LoopbackVectors) (s₀ : Machine) (roles : List Role)
    (pos : Role → Nat) (past : List Moment) (pos' : Role → Nat) (past' : List Moment)
    (s' : Machine) : Prop where
  running : l.Running v s₀ pos' past' s'
  quiet : ∃ more, past' = past ++ more ∧ ∀ e ∈ more, e.2 ≠ .tick
  others : ∀ other, other ∉ roles → pos' other = pos other

namespace Running

variable {pos : Role → Nat} {role : Role} {c : Command}

/-- A script that waits moves nothing. -/
theorem wait (h : l.Running v s₀ pos past s) (roles : List Role) :
    l.Advanced v s₀ roles pos past pos past s :=
  ⟨h, ⟨[], (List.append_nil _).symm, fun _ he => absurd he List.not_mem_nil⟩, fun _ _ => rfl⟩

/-- Who has a next command does not go beyond the end with it. -/
theorem within_stepped (h : l.Running v s₀ pos past s)
    (hc : (l.commands role.1 role.2)[pos role]? = some c) (other : Role) :
    stepped pos role other ≤ (l.commands other.1 other.2).length := by
  by_cases hother : other = role
  · rw [hother, stepped_self]
    exact (List.getElem?_eq_some_iff.mp hc).1
  · rw [stepped_of_ne hother]
    exact h.within other

theorem others_stepped {other : Role} (h : other ∉ [role]) :
    stepped pos role other = pos other :=
  stepped_of_ne fun hc => h (List.mem_singleton.mpr hc)

/-- A finished command may leave the machine alone. -/
theorem pass (h : l.Running v s₀ pos past s)
    (hc : (l.commands role.1 role.2)[pos role]? = some c) (hp : s.ports[role.1]? = some p)
    (hnext : l.InStep role.1 (stepped pos role (role.1, .writer))
      (stepped pos role (role.1, .reader))
      (fun side => past.flatMap (Moment.takes role.1 side)) p) :
    l.Advanced v s₀ [role] pos past (stepped pos role) past s := by
  refine ⟨⟨h.history, h.plain, h.offers, fun j q hq => ?_, h.within_stepped hc⟩,
    (h.wait []).quiet, fun _ => others_stepped⟩
  by_cases hj : j = role.1
  · subst hj
    rw [hp] at hq
    cases hq
    exact hnext
  · rw [stepped_of_port_ne hj, stepped_of_port_ne hj]
    exact h.port j q hq

/-- A finished command may write a register of its port. -/
theorem write (h : l.Running v s₀ pos past s) (hi : s.Indexed)
    (hc : (l.commands role.1 role.2)[pos role]? = some c) (hp : s.ports[role.1]? = some p)
    (hindex : p'.index = p.index) {addr value : UInt32}
    (hwrite : (s.writeRegister addr value).result = .ok (s.setPort p'))
    (hnext : l.InStep role.1 (stepped pos role (role.1, .writer))
      (stepped pos role (role.1, .reader))
      (fun side => past.flatMap (Moment.takes role.1 side)) p') :
    l.Advanced v s₀ [role] pos past (stepped pos role) (past ++ [(s, .write addr value)])
      (s.setPort p') := by
  have hquiet : Operation.write addr value ≠ .tick := by
    intro hc
    cases hc
  have htakes : ∀ j, (fun side => (past ++ [(s, Operation.write addr value)]).flatMap
      (Moment.takes j side)) = fun side => past.flatMap (Moment.takes j side) := by
    intro j
    funext side
    rw [log_concat, Moment.takes_silent hquiet, List.append_nil]
  refine ⟨⟨h.history.step hwrite, ?_, fun j => ?_, fun j q hq => ?_, h.within_stepped hc⟩,
    ⟨_, rfl, ?_⟩, fun _ => others_stepped⟩
  · intro e he
    rcases List.mem_append.mp he with he | he
    · exact h.plain e he
    · rw [List.mem_singleton.mp he]
      trivial
  · rw [log_concat, h.offers]
    exact List.append_nil _
  · rw [Machine.setPort_getElem? hi hp hindex] at hq
    rw [htakes]
    by_cases hj : j = role.1
    · subst hj
      rw [if_pos rfl] at hq
      cases hq
      exact hnext
    · rw [if_neg hj] at hq
      rw [stepped_of_port_ne hj, stepped_of_port_ne hj]
      exact h.port j q hq
  · intro e he
    rw [List.mem_singleton.mp he]
    exact hquiet

/-- What the next command of a script will do. -/
theorem finishes (hb : l.Bench v params s₀) (h : l.Running v s₀ pos past s)
    (hc : (l.commands role.1 role.2)[pos role]? = some c) (hp : s.ports[role.1]? = some p) :
    Finishes role.1 p (fun q =>
      l.InStep role.1 (stepped pos role (role.1, .writer)) (stepped pos role (role.1, .reader))
        (fun side => past.flatMap (Moment.takes role.1 side)) q) c := by
  obtain ⟨i, side⟩ := role
  obtain ⟨hframe, hc⟩ := commands_getElem? hc
  have hport : i < l.ports := h.length hb ▸ (List.getElem?_eq_some_iff.mp hp).1
  have haddr := hb.vectors.frameAddress_lt hport hframe
  have hwords := hb.vectors.words_lt (hb.width ▸ hb.legal.wordBytes_pos) hport hframe
  cases side with
  | writer =>
      rw [stepped_self, stepped_of_ne (by simp)]
      exact (h.port i p hp).writerCommand haddr hwords hc
  | reader =>
      rw [stepped_self, stepped_of_ne (by simp)]
      exact (h.port i p hp).readerCommand haddr hwords hc

end Running

namespace Plays

variable {pos pos' : Role → Nat} {role : Role} {player : Player}

theorem congr (h : l.Plays pos role player) (hpos : pos' role = pos role) :
    l.Plays pos' role player := by
  refine ⟨?_, h.clean⟩
  rw [hpos]
  exact h.todo

/-- The command that a player is on. -/
theorem next {located : Text.Located Command} {rest : List (Text.Located Command)}
    (h : l.Plays pos role player) (htodo : player.todo = located :: rest) :
    (l.commands role.1 role.2)[pos role]? = some located.item := by
  have hfirst := congrArg (·[0]?) h.todo
  rw [htodo, List.map_cons, List.getElem?_drop] at hfirst
  exact hfirst.symm

/-- With a command finished, the player is on the one after it. -/
theorem advance {located : Text.Located Command} {rest : List (Text.Located Command)}
    (h : l.Plays pos role player) (htodo : player.todo = located :: rest) :
    l.Plays (stepped pos role) role player.advance := by
  refine ⟨?_, h.clean⟩
  rw [stepped_self, ← List.tail_drop, ← h.todo, htodo]
  show List.map _ player.todo.tail = _
  rw [htodo]
  rfl

end Plays

namespace Running

variable {pos : Role → Nat} {role : Role} {player : Player}

/-- **A step of a script** finishes its command, or waits. Either way the ports are in step
with the scripts. -/
theorem step (hb : l.Bench v params s₀) (h : l.Running v s₀ pos past s)
    (hrole : role.1 < l.ports) (hplays : l.Plays pos role player) :
    ∃ player' s' pos' past', (player.step s).result = .ok (player', s')
      ∧ l.Plays pos' role player' ∧ l.Advanced v s₀ [role] pos past pos' past' s' := by
  have hr := h.reachable hb
  have hlen := h.length hb
  have hi : role.1 < 256 := by
    have hle : s.ports.length ≤ 32 := hr.length_le
    omega
  have hp := List.getElem?_eq_getElem (hlen.symm ▸ hrole : role.1 < s.ports.length)
  have hwaits := h.wait [role]
  unfold Player.step
  cases htodo : player.todo with
  | nil => exact ⟨player, s, pos, past, rfl, hplays, hwaits⟩
  | cons located rest =>
      obtain ⟨line, c⟩ := located
      have hc := hplays.next htodo
      have hadvance := hplays.advance htodo
      have hfinishes := h.finishes hb hc hp
      dsimp only at hfinishes ⊢
      cases hfinishes with
      | write side r value regs hregs hnext =>
          have hwrite := Machine.writeRegister_address hi hp hregs
          have hindex : (s.ports[role.1].setRegs side regs).index = s.ports[role.1].index := by
            cases side <;> rfl
          exact ⟨player.advance, _, _, _, Run.result_bind_eq_ok.mpr ⟨_, hwrite, rfl⟩, hadvance,
            h.write hr.formed.indexed hc hp hindex hwrite hnext⟩
      | wait side hnext =>
          have hline := Machine.irq_line hp side
          show ∃ player' s' pos' past', Except.ok (if s.irq (Loopback.line role.1 side)
            then player.advance else player, s) = .ok (player', s') ∧ _
          cases hirq : (s.ports[role.1].view side).regs.irq with
          | true =>
              rw [hline, hirq]
              exact ⟨player.advance, s, _, past, rfl, hadvance, h.pass hc hp (hnext hirq)⟩
          | false =>
              rw [hline, hirq]
              exact ⟨player, s, pos, past, rfl, hplays, hwaits⟩
      | poll side hnext =>
          have hread := Machine.readRegister_irq hr hi hp side
          cases hirq : (s.ports[role.1].view side).regs.irq with
          | true =>
              rw [hirq] at hread
              exact ⟨player, s, pos, past, Run.result_bind_eq_ok.mpr ⟨_, hread, rfl⟩, hplays,
                hwaits⟩
          | false =>
              rw [hirq] at hread
              exact ⟨player.advance, s, _, past, Run.result_bind_eq_ok.mpr ⟨_, hread, rfl⟩,
                hadvance, h.pass hc hp (hnext hirq)⟩

/-- **All scripts take a step.** -/
theorem stepAll (hb : l.Bench v params s₀) {roles : List Role} {players : List Player}
    (h : l.Running v s₀ pos past s) (hroles : ∀ role ∈ roles, role.1 < l.ports)
    (hnodup : roles.Nodup) (hplays : List.Forall₂ (l.Plays pos) roles players) :
    ∃ players' s' pos' past', (Player.stepAll players s).result = .ok (players', s')
      ∧ List.Forall₂ (l.Plays pos') roles players'
      ∧ l.Advanced v s₀ roles pos past pos' past' s' := by
  induction roles generalizing players pos past s with
  | nil =>
      cases hplays
      exact ⟨[], s, pos, past, rfl, .nil, h.wait []⟩
  | cons role roles ih =>
      cases hplays with
      | @cons _ player _ rest hplayer hrest =>
          obtain ⟨hfresh, hnodup⟩ := List.nodup_cons.mp hnodup
          obtain ⟨player', s₁, pos₁, past₁, hstep, hplays₁, hadvanced⟩ :=
            h.step hb (hroles role List.mem_cons_self) hplayer
          obtain ⟨hrun₁, ⟨more₁, rfl, hquiet₁⟩, hothers₁⟩ := hadvanced
          -- the scripts behind it have not moved, and they do not move it
          have hne : ∀ other ∈ roles, other ∉ [role] := fun other hmem hc =>
            hfresh (List.mem_singleton.mp hc ▸ hmem)
          have hrest₁ : List.Forall₂ (l.Plays pos₁) roles rest :=
            (List.forall₂_iff_get.mp hrest).elim fun hlen hget => List.forall₂_iff_get.mpr
              ⟨hlen, fun k h₁ h₂ => (hget k h₁ h₂).congr (hothers₁ _ (hne _ (List.get_mem _ _)))⟩
          obtain ⟨players', s₂, pos₂, past₂, hsteps, hplays₂, hrun₂, ⟨more₂, rfl, hquiet₂⟩,
            hothers₂⟩ := ih hrun₁ (fun r hr => hroles r (List.mem_cons_of_mem _ hr)) hnodup hrest₁
          refine ⟨player' :: players', s₂, pos₂, _, ?_, .cons (hplays₁.congr (hothers₂ _ hfresh))
            hplays₂, hrun₂, ⟨more₁ ++ more₂, List.append_assoc _ _ _, ?_⟩, ?_⟩
          · exact Run.result_bind_eq_ok.mpr
              ⟨_, hstep, Run.result_bind_eq_ok.mpr ⟨_, hsteps, rfl⟩⟩
          · intro e he
            rcases List.mem_append.mp he with he | he
            · exact hquiet₁ e he
            · exact hquiet₂ e he
          · intro other hother
            rw [List.mem_cons, not_or] at hother
            rw [hothers₂ other hother.2, hothers₁ other fun hc =>
              hother.1 (List.mem_singleton.mp hc)]

/-- **The clock ticks.** -/
theorem tick (h : l.Running v s₀ pos past s) (ht : s.tick.result = .ok s') :
    l.Running v s₀ pos (past ++ [(s, .tick)]) s' := by
  obtain ⟨slave, hedge⟩ := Machine.tick_edge ht
  refine ⟨h.history.step ht, ?_, fun j => ?_, fun j q hq => ?_, h.within⟩
  · intro e he
    rcases List.mem_append.mp he with he | he
    · exact h.plain e he
    · rw [List.mem_singleton.mp he]
      trivial
  · rw [log_concat, h.offers]
    exact List.append_nil _
  · obtain ⟨p, rstep, wstep, hp, hport⟩ := hedge.port' hq
    have hstep := (h.port j p hp).edge fun side => Port.Edge.view hedge hp hport side
    have htakes : (fun side => (past ++ [(s, Operation.tick)]).flatMap (Moment.takes j side))
        = fun side => past.flatMap (Moment.takes j side) ++ Moment.takes j side (s, .tick) := by
      funext side
      exact log_concat _ _ _
    rw [htakes]
    exact hstep

end Running

end Loopback

end BurstDma
