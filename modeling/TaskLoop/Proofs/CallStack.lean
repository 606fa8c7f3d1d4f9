import Mathlib
import TaskLoop.Proofs.Frame
import TaskLoop.Proofs.Machines
import TaskLoop.Proofs.Reachable

namespace TaskLoop

variable {a b : Hole} {w w' : World} {e key n : Nat} {k : Pending .call} {p : Process}
  {low V vs : List Value} {S : List Value → Prop} {handler : Handler} {result : Except CallError Unit}
  {call : MachineCall} {op : Op}

def Op.takes : Op → Nat
  | .pop | .jumpz _ => 1
  | .add | .sub => 2
  | _ => 0

namespace Machine

variable {m : Machine}

theorem suffix_tail (h : low <:+ vs) (hlt : low.length < vs.length) : low <:+ vs.tail := by
  cases vs with
  | nil => cases hlt
  | cons v vs =>
    obtain rfl | h := List.suffix_cons_iff.1 h
    · exact absurd hlt (Nat.lt_irrefl _)
    · exact h

theorem suffix_pushing (h : low <:+ m.stack.items) (v : Value) (frames : List CallFrame) :
    (m.pushing v frames).All fun m' => low <:+ m'.stack.items := by
  unfold pushing push?
  by_cases hroom : m.stack.height < m.limits.stack.toNat
  · rw [if_pos hroom]
    exact h.trans (List.suffix_cons v _)
  · rw [if_neg hroom]
    exact h

theorem suffix_popping (h : low <:+ m.stack.items) (hlt : low.length < m.stack.items.length)
    {g : Value → Machine → Effect}
    (hg : ∀ v, low <:+ m.stack.items.tail →
      (g v { m with stack := m.stack.pop }).All fun m' => low <:+ m'.stack.items) :
    (match m.pop? with
      | none => m.raise .stackUnderflow
      | some (v, m') => g v m').All fun m' => low <:+ m'.stack.items := by
  unfold pop?
  cases m.stack.top? with
  | none => exact h
  | some v => exact hg v (suffix_tail h hlt)

theorem suffix_execute (h : low <:+ m.stack.items) {op : Op}
    (hop : low.length + op.takes ≤ m.stack.items.length) (frames : List CallFrame) :
    (m.execute op frames).All fun m' => low <:+ m'.stack.items := by
  cases op with
  | push n => exact suffix_pushing h _ frames
  | pop => exact suffix_popping h hop fun _ hpop => hpop
  | jumpz target => exact suffix_popping h hop fun _ hpop => hpop
  | add | sub =>
    have hlt : low.length + 2 ≤ m.stack.items.length := hop
    refine suffix_popping h (by omega) fun rhs hpop => ?_
    refine suffix_popping (m := { m with stack := m.stack.pop }) hpop ?_ fun lhs hpop => ?_
    · rw [ValueStack.items_pop, List.length_tail]
      omega
    · cases lhs with
      | int a =>
        cases rhs with
        | int b => exact suffix_pushing hpop _ frames
        | callable => exact hpop
      | callable => exact hpop
  | dup =>
    simp only [execute]
    cases m.stack.top? with
    | none => exact h
    | some v => exact suffix_pushing h v frames
  | jump | ret | raise => exact h
  | host name => trivial
  | call function =>
    simp only [execute]
    split <;> exact h
  | alloc bytes =>
    simp only [execute, charge]
    split <;> exact h

end Machine

namespace World

def values? (w : World) (e : Nat) : Option (List Value) := (w.machine? e).map (·.stack.items)

theorem values?_eq_some : w.values? e = some vs ↔ ∃ m, w.machine? e = some m ∧ m.stack.items = vs :=
  Option.map_eq_some_iff

end World

namespace Activation

def call? : Activation a b → Option (Nat × MachineCall)
  | .machine e call | .counted e call _ | .host e call _ _ => some (e, call)
  | _ => none

def op? : Activation a b → Option Op
  | .machine _ call => (call.program.fetch call.frames).map (·.1)
  | .counted _ _ op => some op
  | _ => none

end Activation

def Control.op? : Control → Option Op
  | .deliver _ (.cons f _) => f.op?
  | _ => none

def Control.status? : Control → Option Int
  | @Control.deliver .call (.ok _) _ => some 0
  | @Control.deliver .call (.error e) _ => some e.code
  | _ => none

/-- The instruction that a call carries out when it goes on, and the call meanwhile. If a hook is due,
the instruction comes after it; a host function is carried out until it has returned. -/
def Activation.executes? (w : World) : Activation a b → Option (Nat × MachineCall × Op)
  | .machine e call =>
    if ((w.countInstruction e).tickHook e).1.isSome then none
    else (call.program.fetch call.frames).map fun (op, frames) => (e, { call with frames }, op)
  | .counted e call op => some (e, call, op)
  | .host e call name _ => some (e, call, .host name)
  | _ => none

def Process.executes? (p : Process) : Option (Nat × MachineCall × Op) :=
  match p.control with
  | .deliver _ (.cons f _) => f.executes? p.world
  | _ => none

@[simp] theorem Process.executes?_deliver (w : World) (result : a.Result) (f : Activation a b)
    (k : Pending b) : executes? ⟨w, .deliver result (.cons f k)⟩ = f.executes? w := by
  simp only [Process.executes?]

def World.Recounts (w w₁ : World) : Prop :=
  ∀ e, w₁.machine? e = w.machine? e ∨ w₁.machine? e = (w.machine? e).map (·.count)

inductive Op.Outcome (w : World) (e : Nat) (call : MachineCall) (k : Pending .call) (op : Op) :
    Process → Prop
  | next {m m' : Machine} {frames : List CallFrame} (machine : w.machine? e = some m)
      (effect : m.execute op call.frames = .next m' frames) :
      Outcome w e call k op
        ((w.setMachine e m').deliver (.cons (.machine e { call with frames }) k) ())
  | stop {m m' : Machine} {fault : Fault} (machine : w.machine? e = some m)
      (effect : m.execute op call.frames = .stop m' fault) :
      Outcome w e call k op ((w.setMachine e m').failMachine e call fault k)
  | enters {name : String} {turn : HostCall Action} {w₁ : World} (host : op = .host name)
      (machines : ∀ e', w₁.machine? e' = w.machine? e') (log : w₁.log = .host name :: w.log) :
      Outcome w e call k op (w₁.callBack turn.actions (.cons (.host e call name turn) k))
  | passes {name : String} (host : op = .host name) :
      Outcome w e call k op ((w.logged (.host name)).deliver (.cons (.machine e call) k) ())
  | unknown {name : String} (host : op = .host name) :
      Outcome w e call k op (w.failMachine e call (.runtime (.unknownHost name)) k)
  | absent (machine : w.machine? e = none) : Outcome w e call k op (w.deliver k (.ok ()))

inductive Activation.Advances (w : World) (k : Pending .call) :
    {a : Hole} → Activation a .call → Process → Prop
  | ends {e : Nat} {call : MachineCall} (ended : call.program.fetch call.frames = none) :
      Advances w k (.machine e call) (w.leaveMachine e call (.ok ()) k)
  | hook {e : Nat} {call : MachineCall} {op : Op} {frames : List CallFrame} {hook : Hook}
      {instruction : Nat} {w₁ : World} (due : (Activation.machine e call).executes? w = none)
      (fetched : call.program.fetch call.frames = some (op, frames)) (world : w.Recounts w₁)
      (log : w₁.log = w.log) :
      Advances w k (.machine e call) (w₁.fireHook hook instruction frames.length
        (.cons (.counted e { call with frames } op) k))
  | performs {a : Hole} {f : Activation a .call} {w₁ : World} {e : Nat} {call : MachineCall} {op : Op}
      {P : Process} (executes : f.executes? w = some (e, call, op)) (next : f.op? = some op)
      (world : w.Recounts w₁) (log : w₁.log = w.log) (outcome : op.Outcome w₁ e call k P) :
      Advances w k f P
  | returned {e : Nat} {call : MachineCall} {name : String} {turn : HostCall Action} :
      Advances w k (.host e call name turn) (w.deliver (.cons (.machine e call) k) ())
  | failed {e : Nat} {call : MachineCall} {name : String} {turn : HostCall Action} (reason : String) :
      Advances w k (.host e call name turn)
        (w.failMachine e call (.runtime (.hostFailed name reason)) k)

namespace World

theorem upon_callBack (w : World) (actions : List Action) (k : Pending .routine) :
    (w.callBack actions k).control.Upon k := by
  cases actions with
  | nil => exact .refl
  | cons action rest => exact .cons _ .refl

theorem upon_fireHook (w : World) (hook : Hook) (instruction depth : Nat) (k : Pending .done) :
    (w.fireHook hook instruction depth k).control.Upon k := by
  unfold fireHook
  split
  · split <;> exact .refl
  · exact (upon_callBack _ _ _).trans (.cons _ .refl)

theorem machine?_fireHook (w : World) (hook : Hook) (instruction depth : Nat) (k : Pending .done)
    (e : Nat) : (w.fireHook hook instruction depth k).world.machine? e = w.machine? e := by
  unfold fireHook
  split
  · split <;> rfl
  · next label fires =>
    rw [(within_callBack (R := (· = w.logged (.hook label instruction depth))) rfl _ _).world,
      machine?_logged]

theorem eq_host_of_execute {m : Machine} {frames : List CallFrame} {name : String}
    (h : m.execute op frames = .host name) : op = .host name := by
  have hpushing : ∀ (m : Machine) (v : Value), m.pushing v frames ≠ .host name := fun m v hp => by
    unfold Machine.pushing at hp
    split at hp <;> cases hp
  have harithmetic : ∀ g, m.arithmetic g frames ≠ .host name := fun g hg => by
    unfold Machine.arithmetic at hg
    split at hg
    · cases hg
    · split at hg
      · cases hg
      · split at hg
        · exact hpushing _ _ hg
        · cases hg
  cases op with
  | push n => exact absurd h (hpushing m _)
  | add | sub => exact absurd h (harithmetic _)
  | dup =>
    rw [Machine.execute] at h
    split at h
    · cases h
    · exact absurd h (hpushing m _)
  | pop | jumpz =>
    rw [Machine.execute] at h
    split at h <;> cases h
  | call function =>
    rw [Machine.execute] at h
    split at h <;> cases h
  | alloc bytes =>
    rw [Machine.execute, Machine.charge] at h
    split at h <;> cases h
  | jump | ret | raise => cases h
  | host name' =>
    cases h
    rfl

theorem outcome_callHost {name : String} (host : op = .host name) :
    op.Outcome w e call k (w.callHost e call name k) := by
  unfold callHost
  split
  · exact .unknown host
  · dsimp only
    split
    · exact .passes host
    · next turn rest _ =>
      refine .enters host (fun e' => ?_) rfl
      rw [machine?_modifyEngine_of_eq fun E => E.machine?_setHost name rest, machine?_logged]

theorem outcome_executeOp (w : World) (e : Nat) (call : MachineCall) (op : Op) (k : Pending .call) :
    op.Outcome w e call k (w.executeOp e call op k) := by
  unfold executeOp
  split
  · next hnone => exact .absent hnone
  · next m hm =>
    split
    · next m' frames heffect => exact .next hm heffect
    · next m' fault heffect => exact .stop hm heffect
    · next name heffect => exact outcome_callHost (eq_host_of_execute heffect)

theorem Recounts.refl (w : World) : w.Recounts w := fun _ => .inl rfl

theorem recounts_tick (w : World) (e : Nat) : w.Recounts ((w.countInstruction e).tickHook e).2 := by
  intro e'
  rw [machine?_tickHook, countInstruction, machine?_modifyEngine Engine.machine?_count]
  split
  · next he => exact .inr (by rw [he])
  · exact .inl rfl

theorem Recounts.values? {w₁ : World} (h : w.Recounts w₁) (e : Nat) : w₁.values? e = w.values? e := by
  obtain he | he := h e
  · rw [World.values?, he, World.values?]
  · rw [World.values?, he, World.values?, Option.map_map]
    rfl

theorem advances_runMachine (w : World) (e : Nat) (call : MachineCall) (k : Pending .call) :
    (Activation.machine e call).Advances w k (w.runMachine e call k) := by
  unfold runMachine
  split
  · next hended => exact .ends hended
  · next op frames hfetch =>
    have hworld := w.recounts_tick e
    have hlog := log_tickHook (w.countInstruction e) e
    dsimp only
    split
    · next w₁ htick =>
      rw [htick] at hworld hlog
      refine .performs ?_ ?_ hworld hlog (outcome_executeOp w₁ e { call with frames } op k)
      · rw [Activation.executes?, htick, hfetch]
        rfl
      · rw [Activation.op?, hfetch]
        rfl
    · next hook w₁ htick =>
      rw [htick] at hworld hlog
      refine .hook ?_ hfetch hworld hlog
      rw [Activation.executes?, htick]
      rfl

theorem advances_hostReturned (w : World) (e : Nat) (call : MachineCall) (name : String)
    (turn : HostCall Action) (complaint : Option String) (k : Pending .call) :
    (Activation.host e call name turn).Advances w k (w.hostReturned e call name turn complaint k) := by
  unfold hostReturned
  split
  · exact .returned
  · next reason _ => exact .failed reason

end World

theorem Activation.call_of_executes? {f : Activation a b} {e' : Nat} {call' : MachineCall}
    (own : f.call? = some (e, call)) (h : f.executes? w = some (e', call', op)) :
    e' = e ∧ ∃ frames, call' = { call with frames } ∧
      (frames = call.frames ∨ call.program.fetch call.frames = some (op, frames)) := by
  cases f with
  | machine =>
    cases own
    rw [executes?] at h
    split at h
    · cases h
    · obtain ⟨⟨_, frames⟩, hfetch, heq⟩ := Option.map_eq_some_iff.1 h
      cases heq
      exact ⟨rfl, frames, rfl, .inr hfetch⟩
  | counted | host =>
    cases own
    cases h
    exact ⟨rfl, _, rfl, .inl rfl⟩
  | _ => cases own

/-- A transition of a protected call itself, at an instruction or when a hook or a host function has
returned. -/
theorem Activation.advances_resume {f : Activation a .call} (own : f.call? = some (e, call))
    (result : a.Result) (w : World) (k : Pending .call) : f.Advances w k (f.resume result w k) := by
  cases f with
  | machine => exact w.advances_runMachine _ _ k
  | counted e call op => exact .performs rfl rfl (.refl w) rfl (w.outcome_executeOp e call op k)
  | host e call name turn => exact w.advances_hostReturned e call name turn result k
  | _ => cases own

/-- A protected call of a machine goes on, or it ends and the stack is cut down to the height that it
found. The values on the stack had the property before. -/
inductive Process.Proceeds (k : Pending .call) (e base : Nat) (S : List Value → Prop) :
    Process → Prop
  | on {p : Process} {a : Hole} {f : Activation a .call} {call : MachineCall} {vs : List Value}
      (own : f.call? = some (e, call)) (found : call.base = base)
      (upon : p.control.Upon (.cons f k)) (values : p.world.values? e = some vs) (holds : S vs) :
      Proceeds k e base S p
  | ends {w : World} {vs : List Value} (result : Except CallError Unit)
      (values : w.values? e = some (vs.drop (vs.length - base))) (holds : S vs) :
      Proceeds k e base S (w.deliver k result)

namespace World

theorem proceeds_leaveMachine (hvs : w.values? e = some vs) (hS : S vs)
    (result : Except CallError Unit) :
    (w.leaveMachine e call result k).Proceeds k e call.base S := by
  obtain ⟨m, hm, rfl⟩ := values?_eq_some.1 hvs
  refine .ends result (values?_eq_some.2 ⟨_, machine?_modifyMachine hm _, ?_⟩) hS
  exact m.stack.items_truncate call.base

theorem proceeds_failMachine (call : MachineCall) (hvs : w.values? e = some vs) (hS : S vs)
    (fault : Fault) :
    (w.failMachine e call fault k).Proceeds k e call.base S := by
  cases fault with
  | memory => exact proceeds_leaveMachine hvs hS _
  | runtime fault =>
    have hhandled : (w.handle call.handler fault.message
        (call.program.trace call.frames)).2.values? e = some vs := by
      rw [values?, machine?_handle]
      exact hvs
    exact proceeds_leaveMachine hhandled hS _

end World

namespace Process

theorem proceeds_resume {f : Activation a .call} (own : f.call? = some (e, call))
    (hvs : w.values? e = some vs) (hS : S vs)
    (hop : ∀ op, f.op? = some op → ∀ (m : Machine) (frames : List CallFrame), m.stack.items = vs →
      (m.execute op frames).All fun m' => S m'.stack.items) (result : a.Result) :
    (f.resume result w k).Proceeds k e call.base S := by
  have hadvances := f.advances_resume own result w k
  generalize f.resume result w k = P at hadvances ⊢
  cases hadvances with
  | ends => cases own; exact World.proceeds_leaveMachine hvs hS _
  | @hook _ _ op frames hook instruction w₁ due fetched world log =>
    cases own
    refine .on (f := .counted e { call with frames } op) rfl rfl (World.upon_fireHook ..) ?_ hS
    rw [World.values?, World.machine?_fireHook]
    exact (world.values? e).trans hvs
  | @performs _ _ w₁ e _ op _ executes next world log outcome =>
    obtain ⟨rfl, frames, rfl, _⟩ := Activation.call_of_executes? own executes
    have hvs₁ := (world.values? e).trans hvs
    cases outcome with
    | @next m m' frames' machine effect =>
      obtain ⟨m₁, hm, hitems⟩ := World.values?_eq_some.1 hvs₁
      obtain rfl := Option.some.inj (machine.symm.trans hm)
      have hall := hop op next m frames hitems
      rw [effect] at hall
      exact .on (f := .machine e { call with frames := frames' }) rfl rfl .refl
        (World.values?_eq_some.2 ⟨m', World.machine?_setMachine machine m', rfl⟩) hall
    | @stop m m' fault machine effect =>
      obtain ⟨m₁, hm, hitems⟩ := World.values?_eq_some.1 hvs₁
      obtain rfl := Option.some.inj (machine.symm.trans hm)
      have hall := hop op next m frames hitems
      rw [effect] at hall
      exact World.proceeds_failMachine { call with frames }
        (World.values?_eq_some.2 ⟨m', World.machine?_setMachine machine m', rfl⟩) hall fault
    | @enters name turn w₂ host machines log =>
      refine .on (f := .host e { call with frames } name turn) rfl rfl (World.upon_callBack ..) ?_ hS
      rw [World.world_callBack, World.values?, machines]
      exact hvs₁
    | passes => exact .on (f := .machine e { call with frames }) rfl rfl .refl hvs₁ hS
    | unknown => exact World.proceeds_failMachine { call with frames } hvs₁ hS _
    | absent machine =>
      rw [World.values?, machine] at hvs₁
      cases hvs₁
  | returned => cases own; exact .on (f := .machine e call) rfl rfl .refl hvs hS
  | failed => cases own; exact World.proceeds_failMachine call hvs hS _

/-- The instruction that the call on top of the stack performs next takes no value from below this
height. -/
def Spares (k : Pending .call) (e height : Nat) (p : Process) : Prop :=
  p.control.depth = k.depth + 1 → ∀ op ∈ p.control.op?, ∀ vs ∈ p.world.values? e,
    height + op.takes ≤ vs.length

def Contained (k : Pending .call) (e : Nat) (p : Process) : Prop :=
  k.depth + 1 < p.control.depth → p.step.world.values? e = p.world.values? e

instance (k : Pending .call) (e height : Nat) (p : Process) : Decidable (p.Spares k e height) :=
  inferInstanceAs (Decidable (_ → _))

instance (k : Pending .call) (e : Nat) (p : Process) : Decidable (p.Contained k e) :=
  inferInstanceAs (Decidable (_ → _))

def Spared (k : Pending .call) (e : Nat) (V : List Value) (p : Process) (n : Nat)
    (vs : List Value) : Prop :=
  ∀ low, low <:+ V → (∀ l < n, (p.run l).Spares k e low.length) → low <:+ vs

theorem Spared.succ (h : p.Spared k e V n vs) : p.Spared k e V (n + 1) vs :=
  fun low hlow hspares => h low hlow fun l hl => hspares l (by omega)

theorem spared_of_forall {effect : Effect}
    (h : ∀ low, low <:+ V → (∀ l < n, (p.run l).Spares k e low.length) →
      effect.All fun m => low <:+ m.stack.items) :
    effect.All fun m => p.Spared k e V n m.stack.items := by
  cases effect with
  | next | stop => exact h
  | host => trivial

theorem Proceeds.step {base : Nat} (h : (p.run n).Proceeds k e base (p.Spared k e V n))
    (hinside : k.depth < (p.run n).control.depth) (hcontained : (p.run n).Contained k e)
    (hnext : ∀ payload, (p.run (n + 1)).control ≠ .unwind payload k)
    (hended : (p.run (n + 1)).control ≠ .aborted) :
    (p.run (n + 1)).Proceeds k e base (p.Spared k e V (n + 1)) := by
  rw [run_succ_step] at hnext hended ⊢
  generalize hp : p.run n = p' at h hinside hcontained hnext hended ⊢
  cases h with
  | ends => exact absurd hinside (Nat.lt_irrefl _)
  | @on _ a f call vs own found upon values spared =>
    have ha : a ≠ .reply := by
      rintro rfl
      cases f
    cases holds upon ha with
    | above deeper stays =>
      refine .on own found (stays.resolve_right hended) ?_ spared.succ
      rw [hcontained deeper]
      exact values
    | result w result =>
      subst found
      rw [World.deliver, step_deliver]
      refine proceeds_resume own values spared.succ (fun op hop m frames hitems => ?_) result
      refine spared_of_forall fun low hlow hspares => ?_
      have hroom := hspares n (by omega)
      rw [hp] at hroom
      apply Machine.suffix_execute
      · rw [hitems]
        exact spared.succ low hlow hspares
      · rw [hitems]
        exact hroom rfl op hop vs values
    | payload w payload =>
      rw [World.unwind, step_unwind] at hnext
      cases f with
      | machine | counted | host => exact absurd rfl (hnext payload)
      | _ => cases own

theorem proceeds_callProtected (hV : w.values? e = some V) (hS : S V) :
    (w.callProtected e key handler k).Proceeds k e V.length S := by
  obtain ⟨m, hm, rfl⟩ := World.values?_eq_some.1 hV
  obtain ⟨p, _, hcall⟩ | ⟨_, text, hcall⟩ := World.callProtected_cases hm key handler k
  · rw [hcall]
    exact .on (f := .machine e _) rfl m.stack.height_eq .refl hV hS
  · rw [hcall]
    refine .ends _ ?_ hS
    rw [Nat.sub_self, List.drop_zero, World.values?, World.machine?_handle]
    exact hV

theorem proceeds_run (hp : w.callProtected e key handler k = p) (hV : w.values? e = some V)
    (hreturns : p.run n = w'.deliver k result) (hinside : ∀ l < n, k.depth < (p.run l).control.depth)
    (hcontained : ∀ l < n, (p.run l).Contained k e) {l : Nat} (hl : l ≤ n) :
    (p.run l).Proceeds k e V.length (p.Spared k e V l) := by
  induction l with
  | zero =>
    rw [run_zero, ← hp]
    exact proceeds_callProtected hV fun low hlow _ => hlow
  | succ l ih =>
    refine (ih (by omega)).step (hinside l hl) (hcontained l hl) (fun payload hunwind => ?_) fun haborted => ?_
    · obtain rfl | hlt := Nat.eq_or_lt_of_le hl
      · rw [hreturns] at hunwind
        cases hunwind
      · have hdepth := hinside (l + 1) hlt
        rw [hunwind] at hdepth
        exact absurd hdepth (Nat.lt_irrefl _)
    · obtain rfl | hlt := Nat.eq_or_lt_of_le hl
      · rw [hreturns] at haborted
        cases haborted
      · have hdepth := hinside (l + 1) hlt
        rw [haborted] at hdepth
        cases hdepth

/-- A protected call of a machine leaves no value behind. The values at the bottom of the stack that
none of its instructions takes are there afterwards, and the stack is as it was if no instruction
takes a value from below the height that the call found. This is so whether the call returns or ends
with an error, as long as hooks and host functions do not touch the stack. -/
theorem stack_of_call (hp : w.callProtected e key handler k = p) (hV : w.values? e = some V)
    (hreturns : p.run n = w'.deliver k result) (hinside : ∀ l < n, k.depth < (p.run l).control.depth)
    (hcontained : ∀ l < n, (p.run l).Contained k e) :
    ∃ V', w'.values? e = some V' ∧ V'.length ≤ V.length ∧
      (∀ low, low <:+ V → (∀ l < n, (p.run l).Spares k e low.length) → low <:+ V') ∧
      ((∀ l < n, (p.run l).Spares k e V.length) → V' = V) := by
  have hproceeds := proceeds_run hp hV hreturns hinside hcontained (Nat.le_refl n)
  generalize hlast : p.run n = p' at hproceeds
  obtain rfl := hlast.symm.trans hreturns
  cases hproceeds with
  | on own found upon => exact absurd upon.depth_le (Nat.not_succ_le_self _)
  | @ends _ vs result values spared =>
    have hcut : (vs.drop (vs.length - V.length)).length ≤ V.length := by
      rw [List.length_drop]
      omega
    have hlow : ∀ low, low <:+ V → (∀ l < n, (p.run l).Spares k e low.length) →
        low <:+ vs.drop (vs.length - V.length) := fun low hlow hspares => by
      have hvs := spared low hlow hspares
      refine List.suffix_of_suffix_length_le hvs (List.drop_suffix ..) ?_
      have h₁ := hvs.length_le
      have h₂ := hlow.length_le
      rw [List.length_drop]
      omega
    refine ⟨_, values, hcut, hlow, fun hspares => ?_⟩
    exact ((hlow V (List.suffix_refl V) hspares).eq_of_length_le hcut).symm

def loaded (source : String) : World :=
  ((fresh 0 [] [.machine {}]).after 100 [
    .act (.engine 0 (.host "h" [⟨[.advance 5], none, false⟩])), .act (.engine 0 (.pushInt 7)),
    .act (.engine 0 (.load "c" source.toUTF8.data.toList)), .act (.engine 0 .reference)]).world

def calling (source : String) (n : Nat) : Process :=
  ((loaded source).callProtected 0 0 .traceback (.cons .callReply .outermost)).run n

def summing : String := "push 1\nhost h\npush 2\nadd\nalloc 65537"

/-- The value that the failing call has found is still there. -/
theorem stack_of_call_summing :
    (loaded summing).values? 0 = some [.int 7] ∧ (calling summing 8).control.status? = some 4 ∧
    (calling summing 8).world.values? 0 = some [.int 7] := by
  have hV : (loaded summing).values? 0 = some [.int 7] := by decide +kernel
  have hresult : (calling summing 8).control =
      .deliver (.error .memory : Except CallError Unit) (.cons .callReply .outermost) := by cbv
  have hinside : ∀ l < 8, 1 < (calling summing l).control.depth := by decide +kernel
  have hcontained : ∀ l < 8, (calling summing l).Contained (.cons .callReply .outermost) 0 := by
    decide +kernel
  have hspares : ∀ l < 8, (calling summing l).Spares (.cons .callReply .outermost) 0 1 := by
    decide +kernel
  obtain ⟨V', hV', _, _, hsame⟩ := stack_of_call rfl hV (eq_deliver hresult) hinside hcontained
  exact ⟨hV, by rw [hresult]; rfl, hsame hspares ▸ hV'⟩

/-- A call that takes a value from below the height that it found leaves the stack lower, whether it
returns or ends with an error. -/
theorem calls_reach_below :
    (loaded "pop").values? 0 = some [.int 7] ∧ (calling "pop" 2).control.status? = some 0 ∧
    (calling "pop" 2).world.values? 0 = some [] ∧
    (loaded "pop\nraise x").values? 0 = some [.int 7] ∧
    (calling "pop\nraise x" 2).control.status? = some 2 ∧
    (calling "pop\nraise x" 2).world.values? 0 = some [] := by
  decide +kernel

end Process

end TaskLoop
