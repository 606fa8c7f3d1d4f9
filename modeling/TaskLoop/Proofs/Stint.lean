import TaskLoop.Proofs.Evaluation
import TaskLoop.Proofs.ScriptStep

namespace TaskLoop

variable {p : Program} {op : Op} {frames frames₁ frames₂ : List CallFrame} {m m₁ m₂ : Machine}
  {fault : Fault} {result : Except CallError Unit} {n t : Nat}

namespace Machine

/-- The machine executes so many instructions of a program in a row, none of which ends the call or
calls a host function. -/
inductive Advances (p : Program) (m : Machine) (frames : List CallFrame) :
    Nat → Machine → List CallFrame → Prop
  | zero : Advances p m frames 0 m frames
  | succ {n : Nat} {m₁ m₂ : Machine} {frames₁ frames₂ frames₃ : List CallFrame} {op : Op}
      (advances : Advances p m frames n m₁ frames₁) (fetched : p.fetch frames₁ = some (op, frames₂))
      (executed : m₁.count.execute op frames₂ = .next m₂ frames₃) :
      Advances p m frames (n + 1) m₂ frames₃

inductive Finishes (p : Program) (m : Machine) (frames : List CallFrame) :
    Nat → Machine → Except CallError Unit → Prop
  | returns {n : Nat} {m₁ : Machine} {frames₁ : List CallFrame}
      (advances : Advances p m frames n m₁ frames₁) (finished : p.fetch frames₁ = none) :
      Finishes p m frames n m₁ (.ok ())
  | stops {n : Nat} {m₁ m₂ : Machine} {frames₁ frames₂ : List CallFrame} {op : Op} {fault : Fault}
      (advances : Advances p m frames n m₁ frames₁) (fetched : p.fetch frames₁ = some (op, frames₂))
      (stopped : m₁.count.execute op frames₂ = .stop m₂ fault) :
      Finishes p m frames (n + 1) m₂ (.error (fault.error p frames₂))

/-- A stint counts its instructions and leaves the registry alone. -/
theorem Advances.executed_eq (h : m.Advances p frames n m₁ frames₁) :
    m₁.executed = m.executed + n ∧ m₁.registry = m.registry := by
  induction h with
  | zero => exact ⟨rfl, rfl⟩
  | @succ n m₁ m₂ frames₁ frames₂ frames₃ op _ _ executed ih =>
    have hcounted := m₁.count.hasCounted_execute op frames₂
    have hregistry := m₁.count.registry_execute op frames₂
    rw [executed] at hcounted hregistry
    refine ⟨hcounted.trans ?_, hregistry.trans ih.2⟩
    rw [count, ih.1, Nat.add_assoc]

theorem Finishes.executed_eq (h : m.Finishes p frames n m₁ result) :
    m₁.executed = m.executed + n ∧ m₁.registry = m.registry := by
  cases h with
  | returns advances finished => exact advances.executed_eq
  | @stops n m₂ _ _ frames₂ op _ advances fetched stopped =>
    obtain ⟨hexecuted, hkept⟩ := advances.executed_eq
    have hcounted := m₂.count.hasCounted_execute op frames₂
    have hregistry := m₂.count.registry_execute op frames₂
    rw [stopped] at hcounted hregistry
    refine ⟨hcounted.trans ?_, hregistry.trans hkept⟩
    rw [count, hexecuted, Nat.add_assoc]

/-- Within so many instructions a call finishes, it comes to a call of a host function, or it has
executed them all and there is another one. -/
theorem finishes_or_advances (p : Program) (m : Machine) (frames : List CallFrame) (n : Nat) :
    (∃ t ≤ n, ∃ m₁ result, m.Finishes p frames t m₁ result) ∨
    (∃ m₁ frames₁ op frames₂, m.Advances p frames n m₁ frames₁ ∧
      p.fetch frames₁ = some (op, frames₂)) ∨
    ∃ j < n, ∃ m₁ frames₁ name frames₂, m.Advances p frames j m₁ frames₁ ∧
      p.fetch frames₁ = some (.host name, frames₂) := by
  have harrives : ∀ {n m₁ frames₁}, m.Advances p frames n m₁ frames₁ →
      (∃ t ≤ n, ∃ m₁ result, m.Finishes p frames t m₁ result) ∨
      ∃ m₁ frames₁ op frames₂, m.Advances p frames n m₁ frames₁ ∧
        p.fetch frames₁ = some (op, frames₂) := by
    intro n m₁ frames₁ hadvances
    cases hfetch : p.fetch frames₁ with
    | none => exact .inl ⟨n, Nat.le_refl n, m₁, .ok (), .returns hadvances hfetch⟩
    | some fetched => exact .inr ⟨m₁, frames₁, fetched.1, fetched.2, hadvances, hfetch⟩
  induction n with
  | zero => exact (harrives .zero).imp_right .inl
  | succ n ih =>
    obtain ⟨t, ht, hfinishes⟩ | ⟨m₁, frames₁, op, frames₂, hadvances, hfetch⟩ |
      ⟨j, hj, hhost⟩ := ih
    · exact .inl ⟨t, Nat.le_succ_of_le ht, hfinishes⟩
    · cases heffect : m₁.count.execute op frames₂ with
      | next m₂ frames₃ => exact (harrives (hadvances.succ hfetch heffect)).imp_right .inl
      | stop m₂ fault =>
        exact .inl ⟨n + 1, Nat.le_refl _, m₂, _, .stops hadvances hfetch heffect⟩
      | host name =>
        obtain rfl : op = .host name := by
          by_contra hne
          exact m₁.count.execute_ne_host frames₂ name hne heffect
        exact .inr (.inr ⟨n, Nat.lt_succ_self n, m₁, frames₁, name, frames₂, hadvances, hfetch⟩)
    · exact .inr (.inr ⟨j, Nat.lt_succ_of_lt hj, hhost⟩)

end Machine

def Probe.spend (n : Nat) (probe : Probe) : Probe := { probe with left := probe.left - n }

def MachineEngine.advance (E : MachineEngine) (n : Nat) (m : Machine) : MachineEngine :=
  { E with machine := m, probe := E.probe.map (Probe.spend n) }

/-- The hook is not due before more instructions than that are executed. -/
def MachineEngine.Lets (E : MachineEngine) (n : Nat) : Prop :=
  ∀ probe, E.probe = some probe → n < probe.left

theorem MachineEngine.lets_of_none {E : MachineEngine} (h : E.probe = none) (n : Nat) : E.Lets n := by
  intro probe hprobe
  cases h.symm.trans hprobe

theorem MachineEngine.advance_advance (E : MachineEngine) (j n : Nat) (m m₁ : Machine) :
    (E.advance j m).advance n m₁ = E.advance (j + n) m₁ := by
  obtain ⟨m₀, probe, hosts⟩ := E
  cases probe with
  | none => rfl
  | some probe =>
    simp only [advance, Option.map_some, Probe.spend, Nat.sub_sub]

theorem MachineEngine.advance_zero (E : MachineEngine) : E.advance 0 E.machine = E := by
  obtain ⟨m₀, probe, hosts⟩ := E
  cases probe <;> rfl

theorem MachineEngine.Lets.advance {E : MachineEngine} {j : Nat} (h : E.Lets (j + n)) (m : Machine) :
    (E.advance j m).Lets n := by
  intro probe hprobe
  obtain ⟨probe₀, hprobe₀, rfl⟩ := Option.map_eq_some_iff.1 hprobe
  have hlt := h probe₀ hprobe₀
  rw [Probe.spend]
  dsimp only
  omega

namespace World

variable {w : World} {e : Nat} {E : MachineEngine} {call : MachineCall} {k : Pending .call}

def mount (w : World) (e : Nat) (E : MachineEngine) : World := w.setEngine e (.machine E)

theorem engine?_mount (he : e < w.engines.size) (E : MachineEngine) :
    (w.mount e E).engine? e = some (.machine E) := by
  rw [engine?, mount, setEngine, Array.getElem?_setIfInBounds_self, if_pos he]

theorem modifyEngine_mount {f : Engine → Engine} {E₁ : MachineEngine} (w : World) (e : Nat)
    (hf : f (.machine E) = .machine E₁) : (w.mount e E).modifyEngine e f = w.mount e E₁ := by
  have hengines : (w.engines.setIfInBounds e (.machine E)).modify e f =
      w.engines.setIfInBounds e (.machine E₁) := by
    apply Array.ext
    · simp
    · intro i hi hi'
      have hsize : i < w.engines.size := by simpa using hi'
      rw [Array.getElem_modify, Array.getElem_setIfInBounds hsize, Array.getElem_setIfInBounds hsize]
      split
      · exact hf
      · rfl
  simp only [modifyEngine, mount, setEngine, hengines]

theorem mount_modifyEngine (w : World) (e : Nat) (f : Engine → Engine) (E : MachineEngine) :
    (w.modifyEngine e f).mount e E = w.mount e E := by
  have hengines : (w.engines.modify e f).setIfInBounds e (.machine E) =
      w.engines.setIfInBounds e (.machine E) := by
    apply Array.ext
    · simp
    · intro i hi hi'
      have hsize : i < w.engines.size := by simpa using hi'
      rw [Array.getElem_setIfInBounds (by simpa using hsize), Array.getElem_setIfInBounds hsize,
        Array.getElem_modify]
      split
      · rfl
      · rfl
  simp only [modifyEngine, mount, setEngine, hengines]

theorem mount_eq_self (h : w.engine? e = some (.machine E)) : w.mount e E = w := by
  rw [mount, setEngine]
  have hengines : w.engines.setIfInBounds e (.machine E) = w.engines := by
    ext i hi hi'
    · simp
    · rw [Array.getElem_setIfInBounds]
      split
      · next hei =>
        subst hei
        exact (Option.some.inj ((Array.getElem?_eq_getElem hi').symm.trans h)).symm
      · rfl
  rw [hengines]

theorem machine?_mount (he : e < w.engines.size) (E : MachineEngine) :
    (w.mount e E).machine? e = some E.machine := by
  rw [machine?, engine?_mount he]
  rfl

theorem executed_mount (he : e < w.engines.size) (E : MachineEngine) :
    (w.mount e E).executed e = E.machine.executed := by
  rw [executed, engine?_mount he]
  rfl

theorem tickHook_mount (he : e < w.engines.size) (hlets : E.Lets 1) :
    (w.mount e E).tickHook e = (none, w.mount e (E.advance 1 E.machine)) := by
  obtain ⟨m, probe, hosts⟩ := E
  rw [tickHook, engine?_mount he]
  cases probe with
  | none => rfl
  | some probe =>
    have hearly : ¬ probe.left ≤ 1 := Nat.not_le.2 (hlets probe rfl)
    simp only [Option.bind_eq_bind, Option.bind_some, Engine.probe?, Probe.tick, if_neg hearly]
    exact congrArg (Prod.mk none) (modifyEngine_mount w e rfl)

theorem tickHook_mount_of_le {hook : Hook} {N l : Nat} (he : e < w.engines.size)
    (hprobe : E.probe = some ⟨hook, N, l⟩) (hl : l ≤ 1) :
    (w.mount e E).tickHook e =
      (some hook, w.mount e { E with probe := some ⟨hook.rest, N, N⟩ }) := by
  obtain ⟨m, probe, hosts⟩ := E
  obtain rfl : probe = some ⟨hook, N, l⟩ := hprobe
  rw [tickHook, engine?_mount he]
  simp only [Option.bind_eq_bind, Option.bind_some, Engine.probe?, Probe.tick, if_pos hl]
  exact congrArg (Prod.mk (some hook)) (modifyEngine_mount w e rfl)

theorem setMachine_mount (w : World) (e : Nat) (E : MachineEngine) (m : Machine) :
    (w.mount e E).setMachine e m = w.mount e { E with machine := m } :=
  modifyEngine_mount w e rfl

theorem modifyMachine_mount (he : e < w.engines.size) (E : MachineEngine) (f : Machine → Machine) :
    (w.mount e E).modifyMachine e f = w.mount e { E with machine := f E.machine } := by
  rw [modifyMachine, machine?_mount he]
  exact setMachine_mount w e E _

/-- An instruction is counted and performed; the hook comes no closer than one instruction. -/
theorem runMachine_mount (he : e < w.engines.size) (hlets : E.Lets 1) (k : Pending .call)
    (hfetch : call.program.fetch call.frames = some (op, frames)) :
    (w.mount e E).runMachine e call k =
      (w.mount e (E.advance 1 E.machine.count)).executeOp e { call with frames } op k := by
  have hcount : (w.mount e E).countInstruction e =
      w.mount e { E with machine := E.machine.count } := modifyEngine_mount w e rfl
  rw [runMachine, hfetch]
  dsimp only
  rw [hcount, tickHook_mount (E := { E with machine := E.machine.count }) he hlets]
  rfl

/-- An instruction is counted, and the hook comes before it is performed. -/
theorem runMachine_mount_of_le {hook : Hook} {N l : Nat} (he : e < w.engines.size)
    (hprobe : E.probe = some ⟨hook, N, l⟩) (hl : l ≤ 1)
    (hfetch : call.program.fetch call.frames = some (op, frames)) (k : Pending .call) :
    (w.mount e E).runMachine e call k =
      (w.mount e { E with machine := E.machine.count, probe := some ⟨hook.rest, N, N⟩ }).fireHook
        hook (E.machine.executed + 1) frames.length (.cons (.counted e { call with frames } op) k) := by
  have hcount : (w.mount e E).countInstruction e =
      w.mount e { E with machine := E.machine.count } := modifyEngine_mount w e rfl
  rw [runMachine, hfetch]
  dsimp only
  rw [hcount, tickHook_mount_of_le (E := { E with machine := E.machine.count }) he hprobe hl]
  dsimp only
  rw [executed_mount he]
  rfl

theorem runMachine_of_finished (w : World) (e : Nat) (k : Pending .call)
    (hfetch : call.program.fetch call.frames = none) :
    w.runMachine e call k = w.leaveMachine e call (.ok ()) k := by
  rw [runMachine, hfetch]

theorem leaveMachine_mount (he : e < w.engines.size) (E : MachineEngine) (call : MachineCall)
    (result : Except CallError Unit) (k : Pending .call) :
    (w.mount e E).leaveMachine e call result k =
      (w.mount e { E with machine := E.machine.leave call.base call.mark }).deliver k result := by
  rw [leaveMachine, modifyMachine_mount he]

theorem executeOp_mount_next (he : e < w.engines.size) (k : Pending .call)
    (hnext : E.machine.execute op call.frames = .next m₁ frames₁) :
    (w.mount e E).executeOp e call op k = (w.mount e { E with machine := m₁ }).deliver
      (.cons (.machine e { call with frames := frames₁ }) k) () := by
  rw [executeOp, machine?_mount he]
  dsimp only
  rw [hnext]
  dsimp only
  rw [setMachine_mount]

theorem executeOp_mount_stop (he : e < w.engines.size) (k : Pending .call)
    (htraceback : call.handler = .traceback)
    (hstop : E.machine.execute op call.frames = .stop m₁ fault) :
    (w.mount e E).executeOp e call op k =
      (w.mount e { E with machine := m₁.leave call.base call.mark }).deliver k
        (.error (fault.error call.program call.frames)) := by
  rw [executeOp, machine?_mount he]
  dsimp only
  rw [hstop]
  dsimp only
  rw [setMachine_mount]
  cases fault with
  | memory =>
    rw [failMachine]
    exact leaveMachine_mount he _ call _ k
  | runtime fault =>
    rw [failMachine, htraceback]
    exact leaveMachine_mount he _ call _ k

end World

structure Process.Busy (d e n : Nat) (p : Process) : Prop where
  depth : d < p.control.depth
  executed : p.world.executed e ≤ n

namespace World

variable {w : World} {e d bound : Nat} {E : MachineEngine} {mark : UInt64} {base : Nat}
  {k : Pending .call}

theorem busy_machine (he : e < w.engines.size) (hd : d ≤ k.depth)
    (hbound : E.machine.executed ≤ bound) (call : MachineCall) :
    ((w.mount e E).deliver (.cons (.machine e call) k) ()).Busy d e bound :=
  ⟨Nat.lt_succ_of_le hd, by rw [deliver, executed_mount he]; exact hbound⟩

theorem leads_advances (he : e < w.engines.size) (hd : d ≤ k.depth)
    (hadvances : E.machine.Advances p frames n m₁ frames₁) (hlets : E.Lets n)
    (hbound : m₁.executed ≤ bound) (mark : UInt64) (base : Nat) :
    ((w.mount e E).deliver (.cons (.machine e ⟨p, frames, mark, base, .traceback⟩) k) ()).Leads
      (Process.Busy d e bound) ((w.mount e (E.advance n m₁)).deliver
        (.cons (.machine e ⟨p, frames₁, mark, base, .traceback⟩) k) ()) := by
  induction hadvances with
  | zero =>
    rw [MachineEngine.advance_zero]
    exact .refl _
  | @succ n m₁ m₂ frames₁ frames₂ frames₃ op advances fetched executed ih =>
    have hcounted := (advances.succ fetched executed).executed_eq.1
    have hcount := advances.executed_eq.1
    have hle : m₁.executed ≤ bound := by omega
    have hbefore : E.Lets n := fun probe hprobe => Nat.lt_of_succ_lt (hlets probe hprobe)
    refine (ih hbefore hle).trans ?_
    have hstep : ((w.mount e (E.advance n m₁)).deliver
        (.cons (.machine e ⟨p, frames₁, mark, base, .traceback⟩) k) ()).step =
        (w.mount e (E.advance (n + 1) m₂)).deliver
          (.cons (.machine e ⟨p, frames₃, mark, base, .traceback⟩) k) () := by
      rw [deliver, Process.step_deliver]
      change (w.mount e (E.advance n m₁)).runMachine e _ k = _
      rw [runMachine_mount he (hlets.advance m₁) k fetched, MachineEngine.advance_advance,
        executeOp_mount_next he k executed]
      rfl
    exact hstep ▸ .step (busy_machine he hd hle _)

/-- A call that finishes before the hook is due comes to its end. -/
theorem leads_finishes (he : e < w.engines.size) (hd : d ≤ k.depth)
    (hfinishes : E.machine.Finishes p frames t m₁ result) (hlets : E.Lets t)
    (hbound : m₁.executed ≤ bound) (mark : UInt64) (base : Nat) :
    ((w.mount e E).deliver (.cons (.machine e ⟨p, frames, mark, base, .traceback⟩) k) ()).Leads
      (Process.Busy d e bound)
      ((w.mount e (E.advance t (m₁.leave base mark))).deliver k result) := by
  have hcounted := hfinishes.executed_eq.1
  cases hfinishes with
  | @returns _ _ frames₁ advances finished =>
    refine (leads_advances he hd advances hlets hbound mark base).trans ?_
    have hstep : ((w.mount e (E.advance t m₁)).deliver
        (.cons (.machine e ⟨p, frames₁, mark, base, .traceback⟩) k) ()).step =
        (w.mount e (E.advance t (m₁.leave base mark))).deliver k (.ok ()) := by
      rw [deliver, Process.step_deliver]
      change (w.mount e (E.advance t m₁)).runMachine e _ k = _
      rw [runMachine_of_finished _ e k finished, leaveMachine_mount he]
      rfl
    exact hstep ▸ .step (busy_machine he hd hbound _)
  | @stops n m₂ _ frames₁ frames₂ op fault advances fetched stopped =>
    have hcount := advances.executed_eq.1
    have hle : m₂.executed ≤ bound := by omega
    have hbefore : E.Lets n := fun probe hprobe => Nat.lt_of_succ_lt (hlets probe hprobe)
    refine (leads_advances he hd advances hbefore hle mark base).trans ?_
    have hstep : ((w.mount e (E.advance n m₂)).deliver
        (.cons (.machine e ⟨p, frames₁, mark, base, .traceback⟩) k) ()).step =
        (w.mount e (E.advance (n + 1) (m₁.leave base mark))).deliver k
          (.error (fault.error p frames₂)) := by
      rw [deliver, Process.step_deliver]
      change (w.mount e (E.advance n m₂)).runMachine e _ k = _
      rw [runMachine_mount he (hlets.advance m₂) k fetched, MachineEngine.advance_advance,
        executeOp_mount_stop he k rfl stopped]
      rfl
    exact hstep ▸ .step (busy_machine he hd hle _)

end World

end TaskLoop
