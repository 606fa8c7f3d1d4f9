import Mathlib
import TaskLoop.Proofs.ScriptTurn

namespace TaskLoop

variable {w w₁ : World} {q e n : Nat} {id : TaskId} {t : ScriptTask} {E : MachineEngine}
  {m : Machine} {hosts : List (String × List (HostCall Action))} {S : Pending .call}
  {K : Pending .verdict} {call : MachineCall} {op : Op} {p free : Process} {probe : Option Probe}
  {settings : Option (Hook × Nat)}

def EngineAction.onStack : EngineAction Action → Bool
  | .load .. | .top | .setTop _ | .pushInt _ | .popInt | .limits | .print | .pushTime => true
  | _ => false

def Action.onStack (e : Nat) : Action → Bool
  | .engine e' action => e' == e && action.onStack
  | _ => false

def Engine.hostFunctions : Engine → List (String × List (HostCall Action))
  | machine e => e.hosts
  | _ => []

def ActOnStack (e : Nat) (hosts : List (String × List (HostCall Action))) : Prop :=
  ∀ host ∈ hosts, ∀ turn ∈ host.2, ∀ action ∈ turn.actions, action.onStack e = true

instance (e : Nat) (hosts : List (String × List (HostCall Action))) :
    Decidable (ActOnStack e hosts) :=
  inferInstanceAs (Decidable (∀ host ∈ hosts, ∀ turn ∈ host.2, ∀ action ∈ turn.actions,
    action.onStack e = true))

theorem mem_of_nextTurn {α : Type} {turns rest : List α} {turn : α}
    (h : nextTurn turns = some (turn, rest)) : turn ∈ turns ∧ ∀ a ∈ rest, a ∈ turns := by
  cases turns with
  | nil => cases h
  | cons a turns =>
    cases turns with
    | nil =>
      cases h
      exact ⟨List.mem_cons_self .., fun _ ha => ha⟩
    | cons b turns =>
      cases h
      exact ⟨List.mem_cons_self .., fun _ ha => List.mem_cons_of_mem _ ha⟩

theorem ActOnStack.setHost (h : ActOnStack e hosts) {name : String}
    {turns rest : List (HostCall Action)} {turn : HostCall Action}
    (hhost : (hosts.find? (·.1 == name)).map (·.2) = some turns)
    (hnext : nextTurn turns = some (turn, rest)) :
    (∀ action ∈ turn.actions, action.onStack e = true) ∧
      ActOnStack e ((name, rest) :: hosts.filter (·.1 != name)) := by
  obtain ⟨host, hfind, rfl⟩ := Option.map_eq_some_iff.1 hhost
  have hmem : host ∈ hosts := List.mem_of_find?_eq_some hfind
  obtain ⟨hturn, hrest⟩ := mem_of_nextTurn hnext
  refine ⟨h host hmem turn hturn, fun other hother => ?_⟩
  obtain rfl | hother := List.mem_cons.1 hother
  · exact fun turn' hturn' => h host hmem turn' (hrest turn' hturn')
  · exact h other (List.mem_filter.1 hother).1

/-- The states of a call on the stack: the machine is about to fetch an instruction, or a host
function that acts on the stack of the machine is performing its actions. -/
inductive Control.Inside (e : Nat) (S : Pending .call) : Control → Prop
  | machine (call : MachineCall) : Inside e S (.deliver () (.cons (.machine e call) S))
  | perform {action : Action} {rest : List Action} (complaint : Option String) (call : MachineCall)
      (name : String) (turn : HostCall Action)
      (onStack : ∀ action' ∈ action :: rest, action'.onStack e = true) :
      Inside e S (.perform action (.cons (.routine action rest complaint)
        (.cons (.host e call name turn) S)))
  | reply (reply : Reply) (action : Action) {rest : List Action} (complaint : Option String)
      (call : MachineCall) (name : String) (turn : HostCall Action)
      (onStack : ∀ action' ∈ rest, action'.onStack e = true) :
      Inside e S (@Control.deliver .reply reply (.cons (.routine action rest complaint)
        (.cons (.host e call name turn) S)))
  | host (complaint : Option String) (call : MachineCall) (name : String)
      (turn : HostCall Action) :
      Inside e S (@Control.deliver .routine complaint (.cons (.host e call name turn) S))

def Control.Onward (e : Nat) (S : Pending .call) (control : Control) : Prop :=
  control.Inside e S ∨ ∃ result, control = .deliver result S

theorem Control.Inside.depth {control : Control} (h : control.Inside e S) :
    S.depth < control.depth := by
  cases h with
  | machine => exact Nat.lt_succ_self _
  | perform | reply => exact Nat.lt_succ_of_lt (Nat.lt_succ_self _)
  | host => exact Nat.lt_succ_self _

/-- What comes of a call does not depend on the hook of its machine, and leaves it as it is. No queue is
changed. -/
def Process.Blind (w : World) (e : Nat) (S : Pending .call) (f : Option Probe → Process) : Prop :=
  ∃ (w₁ : World) (m : Machine) (hosts : List (String × List (HostCall Action))) (control : Control),
    (∀ probe, f probe = ⟨w₁.mount e ⟨m, probe, hosts⟩, control⟩) ∧
    w₁.queues = w.queues ∧ w₁.engines.size = w.engines.size ∧ ActOnStack e hosts ∧
    control.Onward e S

theorem Process.Blind.of_eq {f g : Option Probe → Process} (h : Blind w₁ e S g)
    (hfg : ∀ probe, f probe = g probe) (hqueues : w₁.queues = w.queues)
    (hsize : w₁.engines.size = w.engines.size) : Blind w e S f := by
  obtain ⟨w₂, m, hosts, control, heq, hqueues', hsize', hhosts, honward⟩ := h
  exact ⟨w₂, m, hosts, control, fun probe => (hfg probe).trans (heq probe), hqueues'.trans hqueues,
    hsize'.trans hsize, hhosts, honward⟩

namespace World

open Process

theorem setEngine_mount (w : World) (e : Nat) (E E₁ : MachineEngine) :
    (w.mount e E).setEngine e (.machine E₁) = w.mount e E₁ := by
  rw [setEngine_eq_modifyEngine]
  exact modifyEngine_mount w e rfl

theorem blind_leaveMachine (he : e < w.engines.size) (hhosts : ActOnStack e hosts) (m : Machine)
    (call : MachineCall) (result : Except CallError Unit) :
    Blind w e S fun probe => (w.mount e ⟨m, probe, hosts⟩).leaveMachine e call result S :=
  ⟨w, m.leave call.base call.mark, hosts, .deliver result S,
    fun _ => leaveMachine_mount he _ call result S, rfl, rfl, hhosts, .inr ⟨result, rfl⟩⟩

theorem blind_machine (hhosts : ActOnStack e hosts) (m : Machine) (call : MachineCall) :
    Blind w e S fun probe => (w.mount e ⟨m, probe, hosts⟩).deliver (.cons (.machine e call) S) () :=
  ⟨w, m, hosts, _, fun _ => rfl, rfl, rfl, hhosts, .inl (.machine call)⟩

theorem blind_failMachine (he : e < w.engines.size) (hhosts : ActOnStack e hosts) (m : Machine)
    (call : MachineCall) (fault : Fault) :
    Blind w e S fun probe => (w.mount e ⟨m, probe, hosts⟩).failMachine e call fault S := by
  cases fault with
  | memory => exact blind_leaveMachine he hhosts m call _
  | runtime fault =>
    have hhandle : ∀ probe, (w.mount e ⟨m, probe, hosts⟩).handle call.handler fault.message
        (call.program.trace call.frames) =
        ((w.handle call.handler fault.message (call.program.trace call.frames)).1,
          (w.handle call.handler fault.message (call.program.trace call.frames)).2.mount e
            ⟨m, probe, hosts⟩) := by
      intro probe
      cases call.handler with
      | traceback | recording => rfl
    have hkept : (w.handle call.handler fault.message (call.program.trace call.frames)).2.queues =
        w.queues ∧ (w.handle call.handler fault.message (call.program.trace call.frames)).2.engines =
          w.engines := by
      cases call.handler with
      | traceback | recording => exact ⟨rfl, rfl⟩
    refine (blind_leaveMachine (hkept.2.symm ▸ he) hhosts m call (.error (.runtime
      (w.handle call.handler fault.message (call.program.trace call.frames)).1))).of_eq
      (fun probe => ?_) hkept.1 (congrArg Array.size hkept.2)
    rw [failMachine, hhandle]

theorem blind_performAll {actions : List Action} (hhosts : ActOnStack e hosts)
    (hactions : ∀ action ∈ actions, action.onStack e = true) (m : Machine)
    (complaint : Option String) (call : MachineCall) (name : String) (turn : HostCall Action) :
    Blind w e S fun probe => (w.mount e ⟨m, probe, hosts⟩).performAll actions complaint
      (.cons (.host e call name turn) S) := by
  cases actions with
  | nil => exact ⟨w, m, hosts, _, fun _ => rfl, rfl, rfl, hhosts, .inl (.host complaint call name turn)⟩
  | cons action rest =>
    exact ⟨w, m, hosts, _, fun _ => rfl, rfl, rfl, hhosts,
      .inl (.perform complaint call name turn hactions)⟩

theorem blind_callHost (he : e < w.engines.size) (hhosts : ActOnStack e hosts) (m : Machine)
    (call : MachineCall) (name : String) :
    Blind w e S fun probe => (w.mount e ⟨m, probe, hosts⟩).callHost e call name S := by
  have hhost : ∀ probe, (w.mount e ⟨m, probe, hosts⟩).host? e name =
      (hosts.find? (·.1 == name)).map (·.2) := by
    intro probe
    rw [host?, engine?_mount he]
    rfl
  cases hturns : (hosts.find? (·.1 == name)).map (·.2) with
  | none =>
    refine (blind_failMachine he hhosts m call (.runtime (.unknownHost name))).of_eq
      (fun probe => ?_) rfl rfl
    rw [callHost, hhost, hturns]
  | some turns =>
    cases hnext : nextTurn turns with
    | none =>
      refine (blind_machine (w := w.logged (.host name)) hhosts m call).of_eq (fun probe => ?_) rfl rfl
      rw [callHost, hhost, hturns]
      dsimp only
      rw [hnext]
      rfl
    | some next =>
      obtain ⟨turn, rest⟩ := next
      obtain ⟨hactions, hrest⟩ := hhosts.setHost hturns hnext
      refine (blind_performAll (w := w.logged (.host name)) hrest hactions m none call name turn).of_eq
        (fun probe => ?_) rfl rfl
      have hset : ((w.mount e ⟨m, probe, hosts⟩).logged (.host name)).modifyEngine e
          (·.setHost name rest) = (w.logged (.host name)).mount e
            ⟨m, probe, (name, rest) :: hosts.filter (·.1 != name)⟩ :=
        modifyEngine_mount (w.logged (.host name)) e rfl
      rw [callHost, hhost, hturns]
      dsimp only
      rw [hnext]
      dsimp only
      rw [hset, callBack]

theorem blind_executeOp (he : e < w.engines.size) (hhosts : ActOnStack e hosts) (m : Machine)
    (call : MachineCall) (op : Op) :
    Blind w e S fun probe => (w.mount e ⟨m, probe, hosts⟩).executeOp e call op S := by
  have hmachine : ∀ probe, (w.mount e ⟨m, probe, hosts⟩).machine? e = some m :=
    fun probe => machine?_mount he _
  simp only [executeOp, hmachine]
  cases heffect : m.execute op call.frames with
  | next m₁ frames =>
    simp only [setMachine_mount]
    exact blind_machine hhosts m₁ _
  | stop m₁ fault =>
    simp only [setMachine_mount]
    exact blind_failMachine he hhosts m₁ call fault
  | host name => exact blind_callHost he hhosts m call name

theorem blind_hostReturned (he : e < w.engines.size) (hhosts : ActOnStack e hosts) (m : Machine)
    (call : MachineCall) (name : String) (turn : HostCall Action) (complaint : Option String) :
    Blind w e S fun probe =>
      (w.mount e ⟨m, probe, hosts⟩).hostReturned e call name turn complaint S := by
  simp only [hostReturned]
  cases turn.failure <|> (if turn.strict then complaint else none) with
  | none => exact blind_machine hhosts m call
  | some reason => exact blind_failMachine he hhosts m call _

theorem pushInt_mount (he : e < w.engines.size) (m : Machine)
    (hosts : List (String × List (HostCall Action))) (n : Int64) (k : Pending .reply) :
    ∃ (m₁ : Machine) (reply : Reply), ∀ probe, (w.mount e ⟨m, probe, hosts⟩).pushInt e n k =
      (w.mount e ⟨m₁, probe, hosts⟩).deliver k reply := by
  cases hpushed : m.push? (.int n) with
  | none =>
    refine ⟨m, .failed "stack overflow", fun probe => ?_⟩
    rw [pushInt, machine?_mount he]
    dsimp only [Option.bind_eq_bind, Option.bind_some]
    rw [hpushed]
  | some m₁ =>
    refine ⟨m₁, .ok, fun probe => ?_⟩
    rw [pushInt, machine?_mount he]
    dsimp only [Option.bind_eq_bind, Option.bind_some]
    rw [hpushed]
    dsimp only
    rw [setMachine_mount]

theorem perform_onStack {action : Action} (he : e < w.engines.size) (m : Machine)
    (hosts : List (String × List (HostCall Action))) (haction : action.onStack e = true)
    (k : Pending .reply) :
    ∃ (w₁ : World) (m₁ : Machine) (reply : Reply),
      (∀ probe, (w.mount e ⟨m, probe, hosts⟩).perform action k =
        (w₁.mount e ⟨m₁, probe, hosts⟩).deliver k reply) ∧
      w₁.queues = w.queues ∧ w₁.engines.size = w.engines.size := by
  cases action with
  | engine e' action =>
    obtain ⟨he', hkind⟩ := (Bool.and_eq_true _ _).mp haction
    obtain rfl : e' = e := eq_of_beq he'
    have hengine : ∀ probe, (w.mount e' ⟨m, probe, hosts⟩).perform (.engine e' action) k =
        (w.mount e' ⟨m, probe, hosts⟩).performOnEngine e' (.machine ⟨m, probe, hosts⟩) action k := by
      intro probe
      rw [perform, engine?_mount he]
    simp only [hengine]
    cases action with
    | load chunk source =>
      cases hload : m.load chunk source with
      | error error =>
        refine ⟨w, m, .loadError error, fun probe => ?_, rfl, rfl⟩
        simp only [performOnEngine, Engine.load, hload]
        rfl
      | ok m₁ =>
        refine ⟨w, m₁, .ok, fun probe => ?_, rfl, rfl⟩
        simp only [performOnEngine, Engine.load, hload]
        exact congrArg (deliver · k .ok) (setEngine_mount w e' _ _)
    | top => exact ⟨w, m, .nat m.stack.height, fun probe => rfl, rfl, rfl⟩
    | setTop height =>
      exact ⟨w, m.truncate height, .null,
        fun probe => congrArg (deliver · k .null) (setEngine_mount w e' _ _), rfl, rfl⟩
    | pushInt n =>
      obtain ⟨m₁, reply, hreply⟩ := pushInt_mount he m hosts n k
      exact ⟨w, m₁, reply, hreply, rfl, rfl⟩
    | popInt =>
      cases hpop : m.popInt? with
      | none =>
        refine ⟨w, m, .null, fun probe => ?_, rfl, rfl⟩
        simp only [performOnEngine, Engine.machine?, Option.bind_eq_bind, Option.bind_some, hpop]
      | some popped =>
        obtain ⟨n, m₁⟩ := popped
        refine ⟨w, m₁, .int n, fun probe => ?_, rfl, rfl⟩
        simp only [performOnEngine, Engine.machine?, Option.bind_eq_bind, Option.bind_some, hpop,
          setMachine_mount]
    | limits => exact ⟨w, m, .limits m.limits, fun probe => rfl, rfl, rfl⟩
    | print =>
      cases hpop : m.popInt? with
      | none =>
        refine ⟨w, m, .failed "expected an integer", fun probe => ?_, rfl, rfl⟩
        simp only [performOnEngine, Engine.machine?, Option.bind_eq_bind, Option.bind_some, hpop]
      | some popped =>
        obtain ⟨n, m₁⟩ := popped
        refine ⟨w.logged (.printed n), m₁, .ok, fun probe => ?_, rfl, rfl⟩
        simp only [performOnEngine, Engine.machine?, Option.bind_eq_bind, Option.bind_some, hpop,
          setMachine_mount]
        rfl
    | pushTime =>
      by_cases htime : w.now.toNat < 1 <<< 63
      · obtain ⟨m₁, reply, hreply⟩ := pushInt_mount he m hosts (Int64.ofNat w.now.toNat) k
        refine ⟨w, m₁, reply, fun probe => ?_, rfl, rfl⟩
        rw [← hreply]
        exact if_pos htime
      · exact ⟨w, m, _, fun probe => if_neg htime, rfl, rfl⟩
    | reference | unreference | call | setHook | clearHook | host | trigger => cases hkind
  | advance | setClock | unwind | alive | queue => cases haction

end World

/-- While a host function is at work, the next transition does not depend on the hook. -/
theorem Control.Inside.blind_step {control : Control} (h : control.Inside e S)
    (hmachine : ∀ call, control ≠ .deliver () (.cons (.machine e call) S))
    (he : e < w.engines.size) (hhosts : ActOnStack e hosts) (m : Machine) :
    Process.Blind w e S fun probe => Process.step ⟨w.mount e ⟨m, probe, hosts⟩, control⟩ := by
  cases h with
  | machine call => exact absurd rfl (hmachine call)
  | @perform action rest complaint call name turn onStack =>
    obtain ⟨w₁, m₁, reply, heq, hqueues, hsize⟩ := World.perform_onStack he m hosts
      (onStack action (List.mem_cons_self ..)) (.cons (.routine action rest complaint)
        (.cons (.host e call name turn) S))
    exact ⟨w₁, m₁, hosts, _, heq, hqueues, hsize, hhosts, .inl (.reply reply action complaint call
      name turn fun action' hmem => onStack action' (List.mem_cons_of_mem _ hmem))⟩
  | reply reply action complaint call name turn onStack =>
    refine (World.blind_performAll (w := w.logged (.did action reply)) hhosts onStack m
      (complaint <|> reply.complaint?) call name turn).of_eq (fun probe => ?_) rfl rfl
    rw [Process.step_deliver]
    rfl
  | host complaint call name turn =>
    refine (World.blind_hostReturned he hhosts m call name turn complaint).of_eq (fun probe => ?_)
      rfl rfl
    rw [Process.step_deliver]
    rfl

def Probe.setting (probe : Probe) : Hook × Nat := (probe.hook, probe.every)

namespace Process

def MovesOn (d : Nat) (p p₁ : Process) : Prop :=
  ∃ n, 0 < n ∧ p.run n = p₁ ∧ ∀ i < n, d < (p.run i).control.depth

theorem MovesOn.step {d : Nat} (h : d < p.control.depth) : p.MovesOn d p.step :=
  ⟨1, Nat.one_pos, by rw [run_succ, run_zero], fun i hi => Nat.lt_one_iff.1 hi ▸ h⟩

theorem MovesOn.trans {d : Nat} {p₁ p₂ : Process} (h : p.MovesOn d p₁) (h' : p₁.MovesOn d p₂) :
    p.MovesOn d p₂ := by
  obtain ⟨n, hn, rfl, hall⟩ := h
  obtain ⟨n', hn', rfl, hall'⟩ := h'
  refine ⟨n + n', Nat.add_pos_left hn n', run_add n n' p, fun i hi => ?_⟩
  by_cases hin : i < n
  · exact hall i hin
  · have hdepth := hall' (i - n) (by omega)
    rwa [← run_add, Nat.add_sub_cancel' (Nat.le_of_not_lt hin)] at hdepth

inductive Twins (w : World) (e : Nat) (S : Pending .call) (settings : Option (Hook × Nat)) :
    Process → Process → Prop
  | intro {w₁ : World} {m : Machine} {probe : Option Probe}
      {hosts : List (String × List (HostCall Action))} {control : Control}
      (queues : w₁.queues = w.queues) (size : w₁.engines.size = w.engines.size)
      (onStack : ActOnStack e hosts) (set : probe.map Probe.setting = settings)
      (onward : control.Onward e S) :
      Twins w e S settings ⟨w₁.mount e ⟨m, probe, hosts⟩, control⟩
        ⟨w₁.mount e ⟨m, none, hosts⟩, control⟩

theorem Blind.twins {f : Option Probe → Process} (h : Blind w₁ e S f)
    (hqueues : w₁.queues = w.queues) (hsize : w₁.engines.size = w.engines.size)
    (hset : probe.map Probe.setting = settings) : Twins w e S settings (f probe) (f none) := by
  obtain ⟨w₂, m, hosts, control, heq, hqueues', hsize', hhosts, honward⟩ := h
  rw [heq, heq]
  exact .intro (hqueues'.trans hqueues) (hsize'.trans hsize) hhosts hset honward

end Process

/-- A hook that finds no interrupted script counts on, and the instruction is performed. -/
theorem World.movesOn_machine {frames : List CallFrame} (he : e < w.engines.size)
    (hcancelled : (w.queue? q >>= (·.cancelled?)) = none)
    (hhook : ∀ pr, probe = some pr → pr.hook = .cancel q) (m : Machine)
    (hosts : List (String × List (HostCall Action))) (S : Pending .call)
    (hfetch : call.program.fetch call.frames = some (op, frames)) :
    ∃ probe₁, probe₁.map Probe.setting = probe.map Probe.setting ∧
      ((w.mount e ⟨m, probe, hosts⟩).deliver (.cons (.machine e call) S) ()).MovesOn S.depth
        ((w.mount e ⟨m.count, probe₁, hosts⟩).executeOp e { call with frames } op S) := by
  have hstep : ((w.mount e ⟨m, probe, hosts⟩).deliver (.cons (.machine e call) S) ()).step =
      (w.mount e ⟨m, probe, hosts⟩).runMachine e call S := by
    rw [deliver, Process.step_deliver]
    rfl
  have hfirst : ((w.mount e ⟨m, probe, hosts⟩).deliver (.cons (.machine e call) S) ()).MovesOn
      S.depth ((w.mount e ⟨m, probe, hosts⟩).runMachine e call S) := by
    rw [← hstep]
    exact .step (Nat.lt_succ_self _)
  by_cases hlets : (MachineEngine.mk m probe hosts).Lets 1
  · refine ⟨probe.map (Probe.spend 1), ?_, ?_⟩
    · rw [Option.map_map]
      rfl
    · rw [runMachine_mount he hlets S hfetch] at hfirst
      exact hfirst
  · -- the hook is due, and the instruction waits while it runs
    obtain ⟨⟨hook, every, left⟩, rfl, hdue⟩ : ∃ pr, probe = some pr ∧ pr.left ≤ 1 := by
      simpa [MachineEngine.Lets] using hlets
    obtain rfl : hook = .cancel q := hhook _ rfl
    have hfires : (w.mount e ⟨m, some ⟨.cancel q, every, left⟩, hosts⟩).runMachine e call S =
        (w.mount e ⟨m.count, some ⟨.cancel q, every, every⟩, hosts⟩).deliver
          (.cons (.counted e { call with frames } op) S) () := by
      rw [runMachine_mount_of_le he rfl hdue hfetch, fireHook,
        show (w.mount e _).queue? q = w.queue? q from rfl, hcancelled]
      rfl
    rw [hfires] at hfirst
    refine ⟨some ⟨.cancel q, every, every⟩, rfl, hfirst.trans ?_⟩
    have hperforms := Process.MovesOn.step (d := S.depth) (p := (w.mount e
      ⟨m.count, some ⟨.cancel q, every, every⟩, hosts⟩).deliver
        (.cons (.counted e { call with frames } op) S) ()) (Nat.lt_succ_self _)
    rw [deliver, Process.step_deliver] at hperforms
    exact hperforms

namespace Process

/-- A transition of the call without the hook is matched by one or two transitions of the other. -/
theorem Twins.step (h : Twins w e S settings p free) (he : e < w.engines.size)
    (hcancelled : (w.queue? q >>= (·.cancelled?)) = none)
    (hhook : ∀ hook every, settings = some (hook, every) → hook = .cancel q)
    (hinside : S.depth < free.control.depth) :
    ∃ p₁, p.MovesOn S.depth p₁ ∧ Twins w e S settings p₁ free.step := by
  cases h with
  | @intro w₁ m probe hosts control queues size onStack set onward =>
    have he₁ : e < w₁.engines.size := size.symm ▸ he
    have hcancelled₁ : (w₁.queue? q >>= (·.cancelled?)) = none := by
      rw [World.queue?, queues]
      exact hcancelled
    by_cases hmachine : ∃ call, control = .deliver () (.cons (.machine e call) S)
    · obtain ⟨call, rfl⟩ := hmachine
      cases hfetch : call.program.fetch call.frames with
      | none =>
        have hblind := (World.blind_leaveMachine he₁ onStack m call (.ok ()) (S := S)).of_eq
          (f := fun probe => Process.step ⟨w₁.mount e ⟨m, probe, hosts⟩,
            .deliver () (.cons (.machine e call) S)⟩) (fun probe => by
              rw [step_deliver]
              exact World.runMachine_of_finished _ e S hfetch) rfl rfl
        exact ⟨_, .step hinside, hblind.twins queues size set⟩
      | some fetched =>
        obtain ⟨op, frames⟩ := fetched
        have hnamed : ∀ pr, probe = some pr → pr.hook = .cancel q := by
          rintro pr rfl
          exact hhook pr.hook pr.every set.symm
        obtain ⟨probe₁, hset, hmoves⟩ := World.movesOn_machine he₁ hcancelled₁ hnamed m hosts S hfetch
        have hfree : Process.step ⟨w₁.mount e ⟨m, none, hosts⟩,
            .deliver () (.cons (.machine e call) S)⟩ =
            (w₁.mount e ⟨m.count, none, hosts⟩).executeOp e { call with frames } op S := by
          rw [step_deliver]
          exact World.runMachine_mount he₁ (fun _ hpr => by cases hpr) S hfetch
        rw [hfree]
        exact ⟨_, hmoves, (World.blind_executeOp he₁ onStack m.count { call with frames } op).twins
          queues size (hset.trans set)⟩
    · obtain hcontrol | ⟨result, rfl⟩ := onward
      · have hblind := hcontrol.blind_step (w := w₁) (fun call hcall => hmachine ⟨call, hcall⟩) he₁
          onStack m
        exact ⟨_, .step hinside, hblind.twins queues size set⟩
      · exact absurd hinside (Nat.lt_irrefl _)

/-- The calls come to the same states, as long as they are in progress. -/
theorem Twins.run {m : Nat} (h : Twins w e S settings p free) (he : e < w.engines.size)
    (hcancelled : (w.queue? q >>= (·.cancelled?)) = none)
    (hhook : ∀ hook every, settings = some (hook, every) → hook = .cancel q)
    (hinside : ∀ j < m, S.depth < (free.run j).control.depth) :
    ∃ n ≥ m, Twins w e S settings (p.run n) (free.run m) ∧
      ∀ j < n, S.depth < (p.run j).control.depth := by
  induction m with
  | zero => exact ⟨0, Nat.le_refl 0, h, fun j hj => absurd hj (Nat.not_lt_zero j)⟩
  | succ m ih =>
    obtain ⟨n, hn, htwins, hall⟩ := ih fun j hj => hinside j (Nat.lt_succ_of_lt hj)
    obtain ⟨p₁, ⟨n', hn', rfl, hall'⟩, htwins'⟩ :=
      htwins.step he hcancelled hhook (hinside m (Nat.lt_succ_self m))
    refine ⟨n + n', by omega, ?_, fun j hj => ?_⟩
    · rw [run_add, run_succ_step]
      exact htwins'
    · by_cases hjn : j < n
      · exact hall j hjn
      · have hdepth := hall' (j - n) (by omega)
        rwa [← run_add, Nat.add_sub_cancel' (Nat.le_of_not_lt hjn)] at hdepth

end Process

def World.unhooked (w : World) (e : Nat) : World := w.modifyEngine e (·.clearHook)

theorem World.HasScript.unhooked {Q : Queue} {P : Program} (h : w.HasScript q id Q t E P) :
    (w.unhooked t.engine).HasScript q id Q t { E with probe := none } P := by
  refine ⟨h.queue, h.task, ?_, h.program⟩
  rw [World.unhooked, engine?_modifyEngine, h.engine]
  rfl

def World.unhookedStep (w : World) (q : Nat) (id : TaskId) (e : Nat) (walk : Walk)
    (k : Pending .pass) : Process := (w.unhooked e).walkOn q (some id) walk k

namespace Process

structure Mirrors (e : Nat) (settings : Option (Hook × Nat)) (p free : Process) : Prop where
  control : p.control = free.control
  world : p.world.unhooked e = free.world
  hook : (p.world.engine? e >>= (·.probe?)).map Probe.setting = settings

theorem eq_mk_of_control {control : Control} (h : p.control = control) : p = ⟨p.world, control⟩ := by
  rw [← h]

def Shadows (K : Pending .verdict) (e : Nat) (settings : Option (Hook × Nat)) (p free : Process) :
    Prop :=
  ∀ m, (∀ j < m, (free.run j).During K) →
    ∃ n ≥ m, (∀ j < n, (p.run j).During K) ∧ Mirrors e settings (p.run n) (free.run m)

theorem mirrors_mount (he : e < w.engines.size) (hset : probe.map Probe.setting = settings)
    (m : Machine) (hosts : List (String × List (HostCall Action))) (control : Control) :
    Mirrors e settings ⟨w.mount e ⟨m, probe, hosts⟩, control⟩
      ⟨w.mount e ⟨m, none, hosts⟩, control⟩ := by
  refine ⟨rfl, World.modifyEngine_mount w e rfl, ?_⟩
  rw [World.engine?_mount he]
  exact hset

theorem Twins.mirrors (h : Twins w e S settings p free) (he : e < w.engines.size) :
    Mirrors e settings p free := by
  cases h with
  | intro queues size onStack set onward => exact mirrors_mount (size.symm ▸ he) set _ _ _

/-- The step of a script that was not interrupted ends like the other one and leaves the hook. -/
theorem Twins.mirrors_step {base : Nat}
    (h : Twins w t.engine (.cons (.script q id t base) K) settings p free)
    (he : t.engine < w.engines.size) (harmed : w.scriptArmed q id = false)
    (hreturned : free.control.depth ≤ K.depth + 1) :
    Mirrors t.engine settings p.step free.step ∧ free.step.control.depth = K.depth := by
  cases h with
  | @intro w₁ m probe hosts control queues size onStack set onward =>
    obtain hinside | ⟨result, rfl⟩ := onward
    · exact absurd hinside.depth (Nat.not_lt.2 hreturned)
    · have hends : ∀ probe, Process.step ⟨w₁.mount t.engine ⟨m, probe, hosts⟩,
          .deliver result (.cons (.script q id t base) K)⟩ =
          ((w₁.report q result).mount t.engine
            ((MachineEngine.mk m probe hosts).restore t base false)).deliver K .done := by
        intro probe
        have harmed₁ : w₁.scriptArmed q id = false := by
          rw [World.scriptArmed, World.queue?, queues]
          exact harmed
        rw [step_deliver, ← harmed₁, ← World.scriptReturned_mount]
        rfl
      have hsize : t.engine < (w₁.report q result).engines.size := by
        cases result with
        | ok | error => exact size.symm ▸ he
      rw [hends, hends]
      exact ⟨mirrors_mount hsize set _ hosts _, rfl⟩

/-- Every state of the step without the hook is matched by one of the step with it. -/
theorem Twins.shadows {base : Nat}
    (h : Twins w t.engine (.cons (.script q id t base) K) settings p free)
    (he : t.engine < w.engines.size) (hcancelled : (w.queue? q >>= (·.cancelled?)) = none)
    (hhook : ∀ hook every, settings = some (hook, every) → hook = .cancel q)
    (harmed : w.scriptArmed q id = false) : p.Shadows K t.engine settings free := by
  intro m hduring
  by_cases hinside : ∀ j < m, K.depth + 1 < (free.run j).control.depth
  · obtain ⟨n, hn, htwins, hall⟩ := h.run he hcancelled hhook hinside
    exact ⟨n, hn, fun j hj => Nat.lt_of_succ_lt (hall j hj), htwins.mirrors he⟩
  · -- the call has come to its result, and the step ends with the next transition
    have hreturns : ∃ j, j < m ∧ (free.run j).control.depth ≤ K.depth + 1 := by
      simpa using hinside
    classical
    obtain ⟨hlt, hdepth⟩ := Nat.find_spec hreturns
    have hbefore : ∀ j < Nat.find hreturns, K.depth + 1 < (free.run j).control.depth := by
      intro j hj
      by_contra hle
      exact Nat.find_min hreturns hj ⟨Nat.lt_trans hj hlt, Nat.le_of_not_lt hle⟩
    obtain ⟨n, hn, htwins, hall⟩ := h.run he hcancelled hhook hbefore
    obtain ⟨hmirrors, hended⟩ := htwins.mirrors_step he harmed hdepth
    have hm : m = Nat.find hreturns + 1 := by
      by_contra hne
      have hlate := hduring (Nat.find hreturns + 1) (by omega)
      rw [During, run_succ_step, hended] at hlate
      exact Nat.lt_irrefl _ hlate
    refine ⟨n + 1, by omega, fun j hj => ?_, ?_⟩
    · obtain hjn | rfl := Nat.lt_or_eq_of_le (Nat.le_of_lt_succ hj)
      · exact Nat.lt_of_succ_lt (hall j hjn)
      · have hlast := hduring _ hlt
        rwa [During, ← (htwins.mirrors he).control] at hlast
    · rw [hm, run_succ_step, run_succ_step]
      exact hmirrors

/-- If one of the steps ends, so does the other, with the same result. -/
theorem Shadows.leads {p₁ : Process} (h : p.Shadows K e settings free)
    (hleads : p.Leads (During K) p₁) (hended : ¬ p₁.During K) :
    ∃ free₁, free.Leads (During K) free₁ ∧ Mirrors e settings p₁ free₁ := by
  classical
  obtain ⟨N, rfl, hall⟩ := hleads
  have hstops : ∃ M, ¬ (free.run M).During K := by
    by_contra hforever
    obtain ⟨n, hn, hduring, _⟩ := h (N + 1) fun j _ => by
      by_contra hj
      exact hforever ⟨j, hj⟩
    exact hended (hduring N (by omega))
  have hbefore : ∀ j < Nat.find hstops, (free.run j).During K :=
    fun j hj => not_not.1 (Nat.find_min hstops hj)
  obtain ⟨n, hn, hduring, hmirrors⟩ := h (Nat.find hstops) hbefore
  have hstopped : ¬ (p.run n).During K := by
    rw [During, hmirrors.control]
    exact Nat.find_spec hstops
  obtain hlt | rfl | hgt := Nat.lt_trichotomy n N
  · exact absurd (hall n hlt) hstopped
  · exact ⟨_, ⟨_, rfl, hbefore⟩, hmirrors⟩
  · exact absurd (hduring N hgt) hended

/-- The step of a script that was never interrupted, while the hook of its queue may be on its machine,
with whatever countdown, because other scripts of the machine were interrupted or removed. The host
functions only act on the stack of the machine. The step is compared with the same step on the same
machine without a hook: every state of that step is matched by a state of this one, and the two differ
in nothing but the hook. So one of the steps ends if the other does, with the same verdict, in worlds
that are the same but for the hook; and the hook is on the machine as before. -/
theorem Reachable.bystander_step {Q : Queue} {P : Program} {walk : Walk} {k : Pending .pass}
    (h : p.Reachable) (hnever : ¬ p.Interrupted q id)
    (hstep : p.step = p.world.walkOn q (some id) walk k) (hQ : p.world.queue? q = some Q)
    (ht : Q.get? id = some (.script t)) (hE : p.world.engine? t.engine = some (.machine E))
    (hP : E.machine.registry.get? t.key = some (.callable P))
    (hhook : ∀ probe, E.probe = some probe → probe.hook = .cancel q)
    (hhosts : ActOnStack t.engine E.hosts) :
    p.step.Shadows (.turning q id walk k) t.engine (E.probe.map Probe.setting)
      (p.world.unhookedStep q id t.engine walk k) ∧
    (∀ w₁ verdict, p.step.Leads (During (.turning q id walk k))
        (World.deliver w₁ (.turning q id walk k) verdict) →
      (p.world.unhookedStep q id t.engine walk k).Leads (During (.turning q id walk k))
        ((w₁.unhooked t.engine).deliver (.turning q id walk k) verdict) ∧
      (w₁.engine? t.engine >>= (·.probe?)).map Probe.setting = E.probe.map Probe.setting) ∧
    ∀ w₂ verdict, (p.world.unhookedStep q id t.engine walk k).Leads
        (During (.turning q id walk k)) (World.deliver w₂ (.turning q id walk k) verdict) →
      ∃ w₁, p.step.Leads (During (.turning q id walk k))
          (World.deliver w₁ (.turning q id walk k) verdict) ∧ w₁.unhooked t.engine = w₂ := by
  have harmed : t.armed = false := by
    by_contra hne
    exact hnever (h.interrupted ⟨Q, hQ, .inl ⟨_, ht, Bool.eq_true_of_not_eq_false hne⟩⟩)
  have hscript : p.world.HasScript q id Q t E P := ⟨hQ, ht, hE, hP⟩
  have hcancelled : ((p.world.entered q id t).queue? q >>= (·.cancelled?)) = none := by
    rw [hscript.cancelled?_entered, harmed]
    rfl
  have hunarmed : (p.world.entered q id t).scriptArmed q id = false :=
    hscript.scriptArmed_entered.trans harmed
  have hsettings : ∀ hook every, E.probe.map Probe.setting = some (hook, every) →
      hook = .cancel q := by
    intro hook every hset
    obtain ⟨probe, hprobe, hsetting⟩ := Option.map_eq_some_iff.1 hset
    exact (Prod.mk.inj hsetting).1.symm.trans (hhook probe hprobe)
  have htwins : Twins (p.world.entered q id t) t.engine
      (.cons (.script q id { t with ran := true } E.machine.stack.height) (.turning q id walk k))
      (E.probe.map Probe.setting) p.step (p.world.unhookedStep q id t.engine walk k) := by
    have hentered : (p.world.unhooked t.engine).entered q id t =
      (p.world.entered q id t).unhooked t.engine := rfl
    rw [hstep, hscript.walkOn_eq, World.unhookedStep, hscript.unhooked.walkOn_eq, hentered,
      World.unhooked, World.mount_modifyEngine, harmed]
    exact .intro rfl rfl hhosts rfl (.inl (.machine _))
  have hshadows := htwins.shadows (t := { t with ran := true }) hscript.size hcancelled hsettings hunarmed
  refine ⟨hshadows, fun w₁ verdict hleads => ?_, fun w₂ verdict hleads => ?_⟩
  · obtain ⟨free₁, hfree, hmirrors⟩ := hshadows.leads hleads (Nat.lt_irrefl _)
    refine ⟨?_, hmirrors.hook⟩
    obtain ⟨w₂, control⟩ := free₁
    obtain rfl : _ = control := hmirrors.control
    obtain rfl : _ = w₂ := hmirrors.world
    exact hfree
  · obtain ⟨m, hm, hduring⟩ := hleads
    obtain ⟨n, -, hall, hmirrors⟩ := hshadows m hduring
    rw [hm] at hmirrors
    exact ⟨(p.step.run n).world, ⟨n, eq_mk_of_control hmirrors.control, hall⟩, hmirrors.world⟩

/-- Two scripts share a machine and the second one is interrupted; then the first one has its turn. It
calls a host function that pushes a number and prints it. -/
def sharing : Process :=
  during [{ hookInterval := 2 }] [.machine {}]
    [.act (.engine 0 (.host "h" [⟨[.engine 0 (.pushInt 7), .engine 0 .print], none, false⟩])),
      .act (.queue 0 (.parseAndStart "S" 0 "push 1\nhost h\npop\npush 2".toUTF8.data.toList)),
      .act (.queue 0 (.parseAndStart "T" 0 "push 1".toUTF8.data.toList)),
      .act (.queue 0 (.interrupt "T"))]
    (.act (.queue 0 .runOnce)) 0

/-- The hook is due at the second instruction, which calls the host function, and at the last one. The
step ends as without it, and leaves it on the machine. -/
theorem bystander_step_sharing :
    (sharing.world.engine? 0 >>= (·.probe?)) = some ⟨.cancel 0, 2, 2⟩ ∧
    ¬ sharing.Interrupted 0 ⟨1, 1⟩ ∧
    ∃ w₁, sharing.step.Leads (During (.turning 0 ⟨1, 1⟩ {} (.passes 0)))
        (World.deliver w₁ (.turning 0 ⟨1, 1⟩ {} (.passes 0)) .done) ∧
      (sharing.world.unhookedStep 0 ⟨1, 1⟩ 0 {} (.passes 0)).Leads
        (During (.turning 0 ⟨1, 1⟩ {} (.passes 0)))
        ((w₁.unhooked 0).deliver (.turning 0 ⟨1, 1⟩ {} (.passes 0)) .done) ∧
      (w₁.engine? 0 >>= (·.probe?)).map Probe.setting = some (.cancel 0, 2) := by
  have hprobe : (sharing.world.engine? 0 >>= (·.probe?)) = some ⟨.cancel 0, 2, 2⟩ := by cbv
  have ht : sharing.world.task? 0 ⟨1, 1⟩ =
    some (.script { engine := 0, key := 0, release := true }) := by cbv
  have hqueue : (sharing.world.queue? 0).map (fun Q => (Q.current, Q.stopping, Q.order)) =
      some (none, false, [⟨1, 1⟩, ⟨2, 1⟩]) := by decide +kernel
  have hkey : (sharing.world.machine? 0 >>= (·.registry.get? 0)) =
      some (.callable ⟨"usercode", #[⟨"", #[.push 1, .host "h", .pop, .push 2], #[1, 2, 3, 4]⟩]⟩) := by
    decide +kernel
  have hhosts : (sharing.world.engine? 0).map
      (fun engine => decide (ActOnStack 0 engine.hostFunctions)) = some true := by decide +kernel
  have hended : ((sharing.world.unhookedStep 0 ⟨1, 1⟩ 0 {} (.passes 0)).run 11).control =
      @Control.deliver .verdict .done (.turning 0 ⟨1, 1⟩ {} (.passes 0)) := by cbv
  have hduring : ∀ i < 11, (Pending.turning 0 ⟨1, 1⟩ {} (.passes 0)).depth <
      ((sharing.world.unhookedStep 0 ⟨1, 1⟩ 0 {} (.passes 0)).run i).control.depth := by
    decide +kernel
  have hreachable : sharing.Reachable := reachable_during 0 (by decide +kernel) (by decide +kernel)
  obtain ⟨Q, hQ, hg⟩ := World.task?_eq_some.1 ht
  have hnever : ¬ sharing.Interrupted 0 ⟨1, 1⟩ := by
    intro hinterrupted
    obtain ⟨task, hg', harmed⟩ | ⟨hspent, _⟩ := hinterrupted.marked hQ
    · cases hg.symm.trans hg'
      cases harmed
    · cases hg.symm.trans hspent.get?_eq_none
  simp only [hQ, Option.map_some, Option.some.injEq, Prod.mk.injEq] at hqueue
  obtain ⟨hidle, hgoing, horder⟩ := hqueue
  obtain ⟨m, hm, hP⟩ := Option.bind_eq_some_iff.1 hkey
  obtain ⟨engine, hE, hmachine⟩ := Option.bind_eq_some_iff.1 hm
  cases engine with
  | pacer | inert => cases hmachine
  | machine E =>
    cases hmachine
    rw [hE, Option.map_some, Option.some.injEq, decide_eq_true_eq] at hhosts
    have hhook : E.probe = some ⟨.cancel 0, 2, 2⟩ := by
      rw [hE] at hprobe
      exact hprobe
    obtain ⟨-, hkept, hmatched⟩ := hreachable.bystander_step hnever
      (World.perform_runOnce hQ hidle hgoing horder) hQ hg hE hP
      (fun probe hsome => by cases hhook.symm.trans hsome; rfl) hhosts
    obtain ⟨w₁, hleads, -⟩ := hmatched _ _ ⟨11, eq_mk_of_control hended, hduring⟩
    obtain ⟨hfree, hsetting⟩ := hkept w₁ .done hleads
    rw [hhook] at hsetting
    exact ⟨hprobe, hnever, w₁, hleads, hfree, hsetting⟩

end Process

end TaskLoop
