import TaskLoop.Proofs.Callback
import TaskLoop.Proofs.Machines

namespace TaskLoop

variable {p : Program} {op : Op} {frames frames₁ frames₂ : List CallFrame} {m m₁ m₂ : Machine}
  {fault : Fault} {result : Except CallError Unit}

def Fault.error (p : Program) (frames : List CallFrame) : Fault → CallError
  | .memory => .memory
  | .runtime fault => .runtime (traceback fault.message (p.trace frames))

namespace Machine

def executeAlone (m : Machine) (op : Op) (frames : List CallFrame) : Effect :=
  match m.execute op frames with
  | .host name => m.raise (.unknownHost name)
  | effect => effect

inductive Evaluates (p : Program) :
    Machine → List CallFrame → Machine → Except CallError Unit → Prop
  | returns (m : Machine) {frames : List CallFrame} (finished : p.fetch frames = none) :
      Evaluates p m frames m (.ok ())
  | next {m m₁ m₂ : Machine} {frames frames₁ frames₂ : List CallFrame} {op : Op}
      {result : Except CallError Unit} (fetched : p.fetch frames = some (op, frames₁))
      (executed : m.count.executeAlone op frames₁ = .next m₁ frames₂)
      (rest : Evaluates p m₁ frames₂ m₂ result) : Evaluates p m frames m₂ result
  | stops {m m₁ : Machine} {frames frames₁ : List CallFrame} {op : Op} {fault : Fault}
      (fetched : p.fetch frames = some (op, frames₁))
      (stopped : m.count.executeAlone op frames₁ = .stop m₁ fault) :
      Evaluates p m frames m₁ (.error (fault.error p frames₁))

/-- The machine amid other scripts: the registry is theirs, and they have executed so many
instructions before. -/
def amid (registry : Registry Value) (n : Nat) (m : Machine) : Machine :=
  { m with registry, executed := m.executed + n }

end Machine

def Effect.amid (registry : Registry Value) (n : Nat) : Effect → Effect
  | .next m frames => .next (m.amid registry n) frames
  | .stop m fault => .stop (m.amid registry n) fault
  | .host name => .host name

namespace Machine

variable (registry : Registry Value) (n : Nat)

theorem pop?_amid (m : Machine) :
    (m.amid registry n).pop? = m.pop?.map fun popped => (popped.1, popped.2.amid registry n) := by
  simp only [pop?, Option.map_map]
  rfl

theorem push?_amid (m : Machine) (v : Value) :
    (m.amid registry n).push? v = (m.push? v).map (amid registry n) := by
  rw [push?, push?, show (m.amid registry n).stack = m.stack from rfl,
    show (m.amid registry n).limits = m.limits from rfl]
  split
  · rfl
  · rfl

theorem load_amid (m : Machine) (chunk : String) (source : List UInt8) :
    (m.amid registry n).load chunk source = (m.load chunk source).map (amid registry n) := by
  rw [load, load, show (m.amid registry n).limits = m.limits from rfl]
  split
  · rfl
  · cases readSource chunk source with
    | error => rfl
    | ok program =>
      dsimp only
      rw [push?_amid]
      cases m.push? (.callable program) with
      | none | some => rfl

theorem pushing_amid (m : Machine) (v : Value) (frames : List CallFrame) :
    (m.amid registry n).pushing v frames = (m.pushing v frames).amid registry n := by
  rw [pushing, pushing, push?_amid]
  cases m.push? v with
  | none | some => rfl

theorem arithmetic_amid (m : Machine) (f : Int64 → Int64 → Int64) (frames : List CallFrame) :
    (m.amid registry n).arithmetic f frames = (m.arithmetic f frames).amid registry n := by
  unfold arithmetic
  rw [pop?_amid]
  cases m.pop? with
  | none => rfl
  | some popped =>
    obtain ⟨rhs, m₁⟩ := popped
    dsimp only [Option.map_some]
    rw [pop?_amid]
    cases m₁.pop? with
    | none => rfl
    | some popped =>
      obtain ⟨lhs, m₂⟩ := popped
      cases lhs with
      | int a =>
        cases rhs with
        | int b => exact pushing_amid registry n m₂ _ frames
        | callable => rfl
      | callable =>
        cases rhs with
        | int b => rfl
        | callable => rfl

theorem execute_amid (m : Machine) (op : Op) (frames : List CallFrame) :
    (m.amid registry n).execute op frames = (m.execute op frames).amid registry n := by
  cases op with
  | push v => exact pushing_amid registry n m _ frames
  | pop | jumpz =>
    rw [execute, execute, pop?_amid]
    cases m.pop? with
    | none | some => rfl
  | dup =>
    rw [execute, execute, show (m.amid registry n).stack = m.stack from rfl]
    cases m.stack.top? with
    | none => rfl
    | some v => exact pushing_amid registry n m v frames
  | add | sub => exact arithmetic_amid registry n m _ frames
  | jump | ret | raise | host => rfl
  | call function =>
    rw [execute, execute, show (m.amid registry n).limits = m.limits from rfl]
    split
    · rfl
    · rfl
  | alloc bytes =>
    simp only [execute, charge, show (m.amid registry n).limits = m.limits from rfl,
      show (m.amid registry n).allocated = m.allocated from rfl]
    split
    · rfl
    · rfl

theorem executeAlone_amid (m : Machine) (op : Op) (frames : List CallFrame) :
    (m.amid registry n).executeAlone op frames = (m.executeAlone op frames).amid registry n := by
  unfold executeAlone
  rw [execute_amid]
  cases m.execute op frames with
  | next | stop | host => rfl

theorem count_amid (m : Machine) : (m.amid registry n).count = m.count.amid registry n := by
  rw [count, amid, amid, count]
  exact congrArg (Machine.mk m.limits m.stack registry m.allocated) (Nat.add_right_comm ..)

theorem Evaluates.amid (h : m.Evaluates p frames m₁ result) :
    (m.amid registry n).Evaluates p frames (m₁.amid registry n) result := by
  induction h with
  | returns m finished => exact .returns _ finished
  | next fetched executed _ ih =>
    refine .next fetched ?_ ih
    rw [count_amid, executeAlone_amid, executed]
    rfl
  | stops fetched stopped =>
    refine .stops fetched ?_
    rw [count_amid, executeAlone_amid, stopped]
    rfl

theorem Evaluates.limits (h : m.Evaluates p frames m₁ result) : m₁.limits = m.limits := by
  have hkept : ∀ {m : Machine} (op : Op) (frames : List CallFrame),
      (m.count.executeAlone op frames).All (·.limits = m.limits) := fun {m} op frames => by
    have hall := all_execute (P := (·.limits = m.limits)) (m := m.count) (fun _ _ _ h => h) rfl op
      frames
    unfold executeAlone
    cases heffect : m.count.execute op frames with
    | next | stop =>
      rw [heffect] at hall
      exact hall
    | host => rfl
  induction h with
  | returns => rfl
  | @next m _ _ _ frames₁ _ op _ _ executed _ ih =>
    have hall := hkept (m := m) op frames₁
    rw [executed] at hall
    exact ih.trans hall
  | @stops m _ _ frames₁ op _ _ stopped =>
    have hall := hkept (m := m) op frames₁
    rw [stopped] at hall
    exact hall

end Machine

namespace World

variable {w : World} {e : Nat} {k : Pending .call} {mark : UInt64} {base : Nat}

def Quiet (w : World) (e : Nat) (m : Machine) : Prop := w.engine? e = some (.machine { machine := m })

theorem Quiet.modifyEngine {f : Engine → Engine} (h : w.Quiet e m)
    (hf : f (.machine { machine := m }) = .machine { machine := m₁ }) :
    (w.modifyEngine e f).Quiet e m₁ := by
  rw [Quiet, engine?_modifyEngine, show w.engine? e = _ from h, Option.map_some, hf]

theorem Quiet.setEngine (h : w.Quiet e m) (m₁ : Machine) :
    (w.setEngine e (.machine { machine := m₁ })).Quiet e m₁ := by
  have hbound : e < w.engines.size := (Array.getElem?_eq_some_iff.1 h).1
  rw [Quiet, engine?, World.setEngine, Array.getElem?_setIfInBounds_self, if_pos hbound]

theorem Quiet.machine? (h : w.Quiet e m) : w.machine? e = some m := by
  rw [World.machine?, show w.engine? e = _ from h]
  rfl

theorem Quiet.countInstruction (h : w.Quiet e m) : (w.countInstruction e).Quiet e m.count :=
  h.modifyEngine rfl

theorem Quiet.setMachine (h : w.Quiet e m) (m₁ : Machine) : (w.setMachine e m₁).Quiet e m₁ :=
  h.modifyEngine rfl

structure Called (e : Nat) (m : Machine) (w w₁ : World) : Prop where
  machine : w₁.Quiet e m
  queues : w₁.queues = w.queues

theorem Quiet.leaveMachine (h : w.Quiet e m) (call : MachineCall) (result : Except CallError Unit)
    (k : Pending .call) : ∃ w₁ : World, w.leaveMachine e call result k = w₁.deliver k result ∧
      w.Called e (m.leave call.base call.mark) w₁ := by
  refine ⟨_, rfl, ?_, ?_⟩
  · rw [modifyMachine, h.machine?]
    exact h.setMachine _
  · rw [modifyMachine, h.machine?]
    rfl

theorem Quiet.failMachine (h : w.Quiet e m) (p : Program) (frames : List CallFrame) (mark : UInt64)
    (base : Nat) (fault : Fault) (k : Pending .call) :
    ∃ w₁ : World, w.failMachine e ⟨p, frames, mark, base, .traceback⟩ fault k =
      w₁.deliver k (.error (fault.error p frames)) ∧ w.Called e (m.leave base mark) w₁ := by
  cases fault with
  | memory => exact h.leaveMachine _ _ k
  | runtime => exact h.leaveMachine _ _ k

/-- The machine fetches an instruction and executes it, and nothing comes in between. -/
theorem Quiet.step (h : w.Quiet e m) (call : MachineCall) (k : Pending .call)
    (hfetch : call.program.fetch call.frames = some (op, frames₁)) :
    (w.deliver (.cons (.machine e call) k) ()).step =
      (w.countInstruction e).executeOp e { call with frames := frames₁ } op k := by
  have htick : (w.countInstruction e).tickHook e = (none, w.countInstruction e) := by
    rw [tickHook, show (w.countInstruction e).engine? e = _ from h.countInstruction]
    rfl
  rw [deliver, Process.step_deliver]
  change w.runMachine e call k = _
  rw [runMachine, hfetch]
  dsimp only
  rw [htick]

theorem Quiet.executeOp_next (h : w.Quiet e m) (call : MachineCall) (k : Pending .call)
    (hnext : m.executeAlone op call.frames = .next m₁ frames₁) :
    w.executeOp e call op k =
      (w.setMachine e m₁).deliver (.cons (.machine e { call with frames := frames₁ }) k) () := by
  rw [executeOp, h.machine?]
  unfold Machine.executeAlone at hnext
  cases heffect : m.execute op call.frames with
  | next m₂ frames₂ =>
    rw [heffect] at hnext
    cases hnext
    dsimp only
    rw [heffect]
  | stop | host =>
    rw [heffect] at hnext
    cases hnext

theorem Quiet.executeOp_stop (h : w.Quiet e m) (call : MachineCall) (k : Pending .call)
    (hstop : m.executeAlone op call.frames = .stop m₁ fault) :
    ∃ w₁ : World, w.executeOp e call op k = w₁.failMachine e call fault k ∧ w.Called e m₁ w₁ := by
  rw [executeOp, h.machine?]
  unfold Machine.executeAlone at hstop
  cases heffect : m.execute op call.frames with
  | next =>
    rw [heffect] at hstop
    cases hstop
  | stop m₂ fault₂ =>
    rw [heffect] at hstop
    cases hstop
    dsimp only
    rw [heffect]
    exact ⟨_, rfl, h.setMachine _, rfl⟩
  | host name =>
    rw [heffect] at hstop
    cases hstop
    have hhost : w.host? e name = none := by
      rw [host?, show w.engine? e = _ from h]
      rfl
    dsimp only
    rw [heffect]
    refine ⟨w, ?_, h, rfl⟩
    dsimp only
    rw [callHost, hhost]

/-- A call that evaluates to a result comes to its end with the result. -/
theorem Quiet.leads (h : w.Quiet e m) (hevaluates : m.Evaluates p frames m₁ result) (mark : UInt64)
    (base : Nat) (k : Pending .call) :
    ∃ w₁ : World, (w.deliver (.cons (.machine e ⟨p, frames, mark, base, .traceback⟩) k) ()).Leads
        (fun _ => True) (w₁.deliver k result) ∧ w.Called e (m₁.leave base mark) w₁ := by
  induction hevaluates generalizing w with
  | @returns m frames finished =>
    obtain ⟨w₁, hleave, hcalled⟩ := h.leaveMachine ⟨p, frames, mark, base, .traceback⟩ (.ok ()) k
    refine ⟨w₁, ?_, hcalled⟩
    have hstep : (w.deliver (.cons (.machine e ⟨p, frames, mark, base, .traceback⟩) k) ()).step =
        w₁.deliver k (.ok ()) := by
      rw [← hleave, deliver, Process.step_deliver]
      change w.runMachine e _ k = _
      rw [runMachine, finished]
    exact hstep ▸ .step trivial
  | @next m m₁ m₂ frames frames₁ frames₂ op result fetched executed rest ih =>
    obtain ⟨w₂, hleads, hcalled⟩ := ih (h.countInstruction.setMachine m₁)
    refine ⟨w₂, ?_, hcalled.machine, hcalled.queues⟩
    have hstep := h.step ⟨p, frames, mark, base, .traceback⟩ k fetched
    rw [h.countInstruction.executeOp_next _ k executed] at hstep
    exact (hstep ▸ Process.Leads.step trivial).trans hleads
  | @stops m m₁ frames frames₁ op fault fetched stopped =>
    obtain ⟨w₁, hexecute, hcalled⟩ := h.countInstruction.executeOp_stop
      ⟨p, frames₁, mark, base, .traceback⟩ k stopped
    obtain ⟨w₂, hfail, hcalled'⟩ := hcalled.machine.failMachine p frames₁ mark base fault k
    refine ⟨w₂, ?_, hcalled'.machine, hcalled'.queues.trans hcalled.queues⟩
    have hstep := h.step ⟨p, frames, mark, base, .traceback⟩ k fetched
    rw [hexecute, hfail] at hstep
    exact hstep ▸ .step trivial

/-- A call that comes to its end evaluates to a result. -/
theorem Quiet.evaluates (h : w.Quiet e m) {n : Nat}
    (hover : ((w.deliver (.cons (.machine e ⟨p, frames, mark, base, .traceback⟩) k) ()).run n).isOver =
      true) : ∃ m₁ result, m.Evaluates p frames m₁ result := by
  induction n generalizing w m frames with
  | zero => cases hover
  | succ n ih =>
    cases hfetch : p.fetch frames with
    | none => exact ⟨m, .ok (), .returns m hfetch⟩
    | some fetched =>
      obtain ⟨op, frames₁⟩ := fetched
      rw [Process.run_succ, h.step ⟨p, frames, mark, base, .traceback⟩ k hfetch] at hover
      cases heffect : m.count.executeAlone op frames₁ with
      | next m₁ frames₂ =>
        rw [h.countInstruction.executeOp_next _ k heffect] at hover
        obtain ⟨m₂, result, hevaluates⟩ := ih (h.countInstruction.setMachine m₁) hover
        exact ⟨m₂, result, .next hfetch heffect hevaluates⟩
      | stop m₁ fault => exact ⟨m₁, _, .stops hfetch heffect⟩
      | host name =>
        unfold Machine.executeAlone at heffect
        split at heffect
        · cases heffect
        · next hhost => exact absurd heffect (hhost name)

end World

end TaskLoop
