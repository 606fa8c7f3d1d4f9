import TaskLoop.Proofs.CallStack
import TaskLoop.Proofs.Grammar

namespace TaskLoop

namespace Program

variable {p : Program} {f : CallFrame} {fs frames : List CallFrame} {op : Op}

structure Bounded (p : Program) : Prop where
  main : ∃ code, p.functions[0]? = some code ∧ code.name = ""
  identifiers : ∀ i code, p.functions[i + 1]? = some code →
    Text.isIdentifier code.name.toList = true
  distinct : (p.functions.toList.tail.map (·.name)).Nodup
  lengths : ∀ code ∈ p.functions, code.lines.size = code.code.size
  increasing : ∀ code ∈ p.functions, code.lines.toList.Pairwise (· < ·)
  jumps : ∀ code ∈ p.functions, ∀ op ∈ code.code, ∀ target,
    op = .jump target ∨ op = .jumpz target → target ≤ code.code.size
  calls : ∀ code ∈ p.functions, ∀ function, .call function ∈ code.code →
    1 ≤ function ∧ function < p.functions.size

def InRange (p : Program) (f : CallFrame) : Prop :=
  ∃ code, p.functions[f.function]? = some code ∧ f.pc ≤ code.code.size

def Recorded (p : Program) (f : CallFrame) : Prop :=
  1 ≤ f.pc ∧ p.InRange f ∧ ∃ code line, p.functions[f.function]? = some code ∧
    code.lines[f.pc - 1]? = some line

/-- The frames between two instructions: the innermost may stand at its end. -/
def Waiting (p : Program) : List CallFrame → Prop
  | [] => True
  | f :: fs => p.InRange f ∧ ∀ g ∈ fs, p.Recorded g

structure Executing (p : Program) (op : Op) (frames : List CallFrame) : Prop where
  recorded : ∀ g ∈ frames, p.Recorded g
  innermost : ∃ f ∈ frames.head?, p.op? f.function (f.pc - 1) = some op

theorem Executing.ne_nil (h : p.Executing op frames) : frames ≠ [] := by
  rintro rfl
  obtain ⟨_, hhead, _⟩ := h.innermost
  cases hhead

theorem op?_eq_some {i pc : Nat} : p.op? i pc = some op ↔
    ∃ code, p.functions[i]? = some code ∧ code.code[pc]? = some op :=
  Option.bind_eq_some_iff

theorem waiting_of_forall (h : ∀ g ∈ frames, p.Recorded g) : p.Waiting frames := by
  cases frames with
  | nil => trivial
  | cons f fs => exact ⟨(h f List.mem_cons_self).2.1, fun g hg => h g (List.mem_cons_of_mem _ hg)⟩

theorem Waiting.inRange (h : p.Waiting frames) : ∀ g ∈ frames, p.InRange g := by
  cases frames with
  | nil => exact fun g hg => by cases hg
  | cons f fs => exact List.forall_mem_cons.2 ⟨h.1, fun g hg => (h.2 g hg).2.1⟩

theorem Bounded.recorded (h : p.Bounded) {i pc : Nat} (hop : p.op? i pc = some op) :
    p.Recorded ⟨i, pc + 1⟩ := by
  obtain ⟨code, hcode, hget⟩ := op?_eq_some.1 hop
  have hlt := (Array.getElem?_eq_some_iff.1 hget).1
  have hlines : pc < code.lines.size := by
    rw [h.lengths code (Array.mem_of_getElem? hcode)]
    exact hlt
  exact ⟨Nat.le_add_left 1 pc, ⟨code, hcode, hlt⟩, code, code.lines[pc], hcode,
    Array.getElem?_eq_getElem hlines⟩

theorem Bounded.executing_of_fetch (h : p.Bounded) (hwaiting : p.Waiting frames)
    (hfetch : p.fetch frames = some (op, fs)) : p.Executing op fs := by
  induction frames with
  | nil => cases hfetch
  | cons f rest ih =>
    rw [fetch] at hfetch
    split at hfetch
    · next op' hop =>
      obtain ⟨rfl, rfl⟩ := Prod.mk.inj (Option.some.inj hfetch)
      exact ⟨List.forall_mem_cons.2 ⟨h.recorded hop, hwaiting.2⟩, _, rfl, hop⟩
    · exact ih (waiting_of_forall hwaiting.2) hfetch

theorem Bounded.start (h : p.Bounded) : p.Waiting start := by
  obtain ⟨code, hcode, _⟩ := h.main
  exact ⟨⟨code, hcode, Nat.zero_le _⟩, fun g hg => by cases hg⟩

theorem Bounded.waiting_jumpTo (h : p.Bounded) (hexecuting : p.Executing op frames) {target : Nat}
    (hop : op = .jump target ∨ op = .jumpz target) : p.Waiting (jumpTo target frames) := by
  obtain ⟨f, hf, hget⟩ := hexecuting.innermost
  obtain ⟨fs, rfl⟩ := List.head?_eq_some_iff.1 hf
  obtain ⟨code, hcode, hget⟩ := op?_eq_some.1 hget
  have hle := h.jumps code (Array.mem_of_getElem? hcode) op (Array.mem_of_getElem? hget) target hop
  exact ⟨⟨code, hcode, hle⟩, fun g hg => hexecuting.recorded g (List.mem_cons_of_mem _ hg)⟩

theorem Bounded.waiting_call (h : p.Bounded) {function : Nat}
    (hexecuting : p.Executing (.call function) frames) : p.Waiting (⟨function, 0⟩ :: frames) := by
  obtain ⟨f, hf, hget⟩ := hexecuting.innermost
  obtain ⟨code, hcode, hget⟩ := op?_eq_some.1 hget
  obtain ⟨_, hlt⟩ := h.calls code (Array.mem_of_getElem? hcode) function (Array.mem_of_getElem? hget)
  exact ⟨⟨_, Array.getElem?_eq_getElem hlt, Nat.zero_le _⟩, hexecuting.recorded⟩

end Program

namespace Machine

variable {m m' : Machine} {op : Op} {frames frames' : List CallFrame}

theorem frames_of_pushing {v : Value} (h : m.pushing v frames = .next m' frames') :
    frames' = frames := by
  unfold pushing at h
  split at h
  · cases h
    rfl
  · cases h

theorem frames_of_arithmetic {g : Int64 → Int64 → Int64}
    (h : m.arithmetic g frames = .next m' frames') : frames' = frames := by
  unfold arithmetic at h
  split at h
  · cases h
  · split at h
    · cases h
    · split at h
      · exact frames_of_pushing h
      · cases h

theorem frames_of_execute (h : m.execute op frames = .next m' frames') :
    frames' = frames ∨
    (∃ target, (op = .jump target ∨ op = .jumpz target) ∧ frames' = jumpTo target frames) ∨
    (∃ function, op = .call function ∧ frames' = ⟨function, 0⟩ :: frames) ∨
    (op = .ret ∧ frames' = frames.tail) := by
  cases op with
  | push n => exact .inl (frames_of_pushing h)
  | add | sub => exact .inl (frames_of_arithmetic h)
  | pop =>
    rw [execute] at h
    split at h
    · cases h
    · cases h
      exact .inl rfl
  | dup =>
    rw [execute] at h
    split at h
    · cases h
    · exact .inl (frames_of_pushing h)
  | jump target =>
    cases h
    exact .inr (.inl ⟨target, .inl rfl, rfl⟩)
  | jumpz target =>
    rw [execute] at h
    split at h
    · cases h
    · cases h
      split
      · exact .inr (.inl ⟨target, .inr rfl, rfl⟩)
      · exact .inl rfl
  | call function =>
    rw [execute] at h
    split at h
    · cases h
    · cases h
      exact .inr (.inr (.inl ⟨function, rfl, rfl⟩))
  | ret =>
    cases h
    exact .inr (.inr (.inr ⟨rfl, rfl⟩))
  | raise | host => cases h
  | alloc bytes =>
    rw [execute, charge] at h
    split at h
    · cases h
    · cases h
      exact .inl rfl

theorem waiting_execute {p : Program} (h : p.Bounded) (hexecuting : p.Executing op frames)
    (hnext : m.execute op frames = .next m' frames') : p.Waiting frames' := by
  obtain rfl | ⟨target, hop, rfl⟩ | ⟨function, rfl, rfl⟩ | ⟨rfl, rfl⟩ := frames_of_execute hnext
  · exact Program.waiting_of_forall hexecuting.recorded
  · exact h.waiting_jumpTo hexecuting hop
  · exact h.waiting_call hexecuting
  · exact Program.waiting_of_forall fun g hg => hexecuting.recorded g (List.mem_of_mem_tail hg)

end Machine

variable {a b : Hole} {e key n : Nat} {w w' : World} {k : Pending .call} {p : Program} {call : MachineCall}
  {op : Op} {handler : Handler} {P : Process} {text : String} {fault : RuntimeFault}

inductive Op.Raises : Op → RuntimeFault → Prop
  | raise (message : String) : Raises (.raise message) (.raised message)
  | underflow {op : Op} (takes : 0 < op.takes ∨ op = .dup) : Raises op .stackUnderflow
  | arithmetic {op : Op} (operator : op = .add ∨ op = .sub) : Raises op .arithmeticOnCallable
  | depth (function : Nat) : Raises (.call function) .callDepth
  | unknown (name : String) : Raises (.host name) (.unknownHost name)
  | failed (name reason : String) : Raises (.host name) (.hostFailed name reason)

namespace Machine

variable {m m' : Machine} {frames : List CallFrame}

theorem pushing_ne_raise {v : Value} : m.pushing v frames ≠ .stop m' (.runtime fault) := by
  intro h
  unfold pushing at h
  split at h <;> cases h

theorem raises_of_arithmetic {g : Int64 → Int64 → Int64} (hop : op = .add ∨ op = .sub)
    (h : m.arithmetic g frames = .stop m' (.runtime fault)) : op.Raises fault := by
  have htakes : 0 < op.takes := by
    obtain rfl | rfl := hop
    · decide
    · decide
  unfold arithmetic at h
  split at h
  · cases h
    exact .underflow (.inl htakes)
  · split at h
    · cases h
      exact .underflow (.inl htakes)
    · split at h
      · exact absurd h pushing_ne_raise
      · cases h
        exact .arithmetic hop

theorem raises_of_execute (h : m.execute op frames = .stop m' (.runtime fault)) :
    op.Raises fault := by
  cases op with
  | push n => exact absurd h pushing_ne_raise
  | add => exact raises_of_arithmetic (.inl rfl) h
  | sub => exact raises_of_arithmetic (.inr rfl) h
  | pop | jumpz =>
    rw [execute] at h
    split at h
    · cases h
      exact .underflow (.inl (by simp [Op.takes]))
    · cases h
  | dup =>
    rw [execute] at h
    split at h
    · cases h
      exact .underflow (.inr rfl)
    · exact absurd h pushing_ne_raise
  | call function =>
    rw [execute] at h
    split at h
    · cases h
      exact .depth function
    · cases h
  | raise message =>
    cases h
    exact .raise message
  | alloc bytes =>
    rw [execute, charge] at h
    split at h <;> cases h
  | jump | ret | host => cases h

end Machine

/-- An instruction that ends the call with an error raises it, and nothing else is logged before. -/
theorem Op.Outcome.raises (h : op.Outcome w e call k P)
    (hfails : P.control = .deliver (.error (.runtime text) : Except CallError Unit) k) :
    ∃ (fault : RuntimeFault) (w₁ : World), op.Raises fault ∧ w₁.log = w.log ∧
      P = w₁.failMachine e call (.runtime fault) k := by
  cases h with
  | next | passes | absent => cases hfails
  | @stop m m' fault machine effect =>
    cases fault with
    | memory => cases hfails
    | runtime fault => exact ⟨fault, w.setMachine e m', Machine.raises_of_execute effect, rfl, rfl⟩
  | @enters name turn w₁ =>
    have hupon := World.upon_callBack w₁ turn.actions (.cons (.host e call name turn) k)
    rw [hfails] at hupon
    exact absurd hupon.depth_le (Nat.not_succ_le_self _)
  | @unknown name host =>
    subst host
    exact ⟨_, w, .unknown name, rfl, rfl⟩

theorem World.depth_failMachine (w : World) (e : Nat) (call : MachineCall) (fault : Fault)
    (k : Pending .call) : (w.failMachine e call fault k).control.depth = k.depth := by
  cases fault <;> rfl

theorem Activation.ne_reply_of_call? {f : Activation a b} (own : f.call? = some (e, call)) :
    a ≠ .reply := by
  rintro rfl
  cases f with
  | routine => cases own

/-- A property of calls between two instructions, and one of calls that are executing an instruction, that
lead to each other. -/
structure MachineCall.Invariant (between : MachineCall → Prop) (executing : Op → MachineCall → Prop) :
    Prop where
  fetch : ∀ {call op frames}, between call → call.program.fetch call.frames = some (op, frames) →
    executing op { call with frames }
  next : ∀ {call op frames} {m m' : Machine}, executing op call →
    m.execute op call.frames = .next m' frames → between { call with frames }
  done : ∀ {call op}, executing op call → between call

inductive Activation.Obeys (e : Nat) (between : MachineCall → Prop) (executing : Op → MachineCall → Prop) :
    {a : Hole} → Activation a .call → Prop
  | machine {call : MachineCall} (holds : between call) : Obeys e between executing (.machine e call)
  | counted {call : MachineCall} {op : Op} (holds : executing op call) :
      Obeys e between executing (.counted e call op)
  | host {call : MachineCall} {name : String} {turn : HostCall Action}
      (holds : executing (.host name) call) : Obeys e between executing (.host e call name turn)

def Process.Obeys (k : Pending .call) (e : Nat) (between : MachineCall → Prop)
    (executing : Op → MachineCall → Prop) (P : Process) : Prop :=
  ∃ (a : Hole) (f : Activation a .call), f.Obeys e between executing ∧ P.control.Upon (.cons f k)

section Invariants

variable {f : Activation a .call} {between : MachineCall → Prop} {executing : Op → MachineCall → Prop}

theorem Activation.Obeys.exists_call (h : f.Obeys e between executing)
    (inv : MachineCall.Invariant between executing) :
    ∃ call, f.call? = some (e, call) ∧ between call := by
  cases h with
  | machine holds => exact ⟨_, rfl, holds⟩
  | counted holds | host holds => exact ⟨_, rfl, inv.done holds⟩

theorem Activation.Obeys.executes {e' : Nat} (h : f.Obeys e between executing)
    (inv : MachineCall.Invariant between executing) (hexecutes : f.executes? w = some (e', call, op)) :
    e' = e ∧ executing op call := by
  cases h with
  | machine holds =>
    rw [executes?] at hexecutes
    split at hexecutes
    · cases hexecutes
    · obtain ⟨⟨_, frames⟩, hfetch, heq⟩ := Option.map_eq_some_iff.1 hexecutes
      cases heq
      exact ⟨rfl, inv.fetch holds hfetch⟩
  | counted holds | host holds =>
    cases hexecutes
    exact ⟨rfl, holds⟩

theorem Activation.Advances.obeys (h : f.Advances w k P) (hf : f.Obeys e between executing)
    (inv : MachineCall.Invariant between executing) (hdeep : k.depth < P.control.depth) :
    P.Obeys k e between executing := by
  cases h with
  | ends => exact absurd hdeep (Nat.lt_irrefl _)
  | hook due fetched =>
    cases hf with
    | machine holds => exact ⟨_, _, .counted (inv.fetch holds fetched), World.upon_fireHook ..⟩
  | performs executes next world log outcome =>
    obtain ⟨rfl, holds⟩ := hf.executes inv executes
    cases outcome with
    | next machine effect => exact ⟨_, _, .machine (inv.next holds effect), .refl⟩
    | enters host => exact ⟨_, _, .host (host ▸ holds), World.upon_callBack ..⟩
    | passes => exact ⟨_, _, .machine (inv.done holds), .refl⟩
    | stop | unknown =>
      rw [World.depth_failMachine] at hdeep
      exact absurd hdeep (Nat.lt_irrefl _)
    | absent => exact absurd hdeep (Nat.lt_irrefl _)
  | returned =>
    cases hf with
    | host holds => exact ⟨_, _, .machine (inv.done holds), .refl⟩
  | failed => exact absurd hdeep (Nat.lt_irrefl _)

theorem Process.Obeys.step (h : P.Obeys k e between executing)
    (inv : MachineCall.Invariant between executing) (hdeep : k.depth < P.step.control.depth) :
    P.step.Obeys k e between executing := by
  obtain ⟨a, f, hf, upon⟩ := h
  obtain ⟨call, own, _⟩ := hf.exists_call inv
  cases holds upon (Activation.ne_reply_of_call? own) with
  | above deeper stays =>
    refine ⟨a, f, hf, stays.resolve_right fun haborted => ?_⟩
    rw [haborted] at hdeep
    cases hdeep
  | result w result =>
    rw [World.deliver, step_deliver] at hdeep ⊢
    exact (f.advances_resume own result w k).obeys hf inv hdeep
  | payload w payload =>
    rw [World.unwind, step_unwind] at hdeep
    cases hf with
    | machine | counted | host => exact absurd hdeep (Nat.lt_irrefl _)

theorem Process.Obeys.run (h : P.Obeys k e between executing)
    (inv : MachineCall.Invariant between executing)
    (hinside : ∀ l ≤ n, k.depth < (P.run l).control.depth) : (P.run n).Obeys k e between executing := by
  induction n with
  | zero => exact h
  | succ n ih =>
    have hdeep := hinside (n + 1) (Nat.le_refl _)
    rw [run_succ_step] at hdeep ⊢
    exact (ih fun l hl => hinside l (Nat.le_succ_of_le hl)).step inv hdeep

theorem Process.Obeys.inside (h : P.Obeys k e between executing) : k.depth < P.control.depth := by
  obtain ⟨_, _, _, upon⟩ := h
  exact upon.depth_le

/-- The transition by which a call ends with an error carries out an instruction that raises it. -/
theorem Process.Obeys.raises (h : P.Obeys k e between executing)
    (inv : MachineCall.Invariant between executing)
    (hfails : P.step = w'.deliver k (.error (.runtime text))) :
    ∃ (call : MachineCall) (op : Op) (fault : RuntimeFault) (w₁ : World),
      P.executes? = some (e, call, op) ∧ executing op call ∧ op.Raises fault ∧
      w₁.log = P.world.log ∧ P.step = w₁.failMachine e call (.runtime fault) k := by
  obtain ⟨a, f, hf, upon⟩ := h
  obtain ⟨call, own, _⟩ := hf.exists_call inv
  cases holds upon (Activation.ne_reply_of_call? own) with
  | above deeper stays =>
    rw [hfails] at stays
    obtain hupon | haborted := stays
    · exact absurd hupon.depth_le (Nat.not_succ_le_self _)
    · cases haborted
  | payload w payload =>
    rw [World.unwind, step_unwind] at hfails
    cases hf with
    | machine | counted | host => cases hfails
  | result w result =>
    have hadvances := f.advances_resume own result w k
    rw [World.deliver, step_deliver] at hfails
    rw [World.deliver, step_deliver, executes?_deliver]
    generalize f.resume result w k = P' at hfails hadvances ⊢
    cases hadvances with
    | ends => cases hfails
    | @hook e call op frames hook instruction w₁ =>
      have hupon := w₁.upon_fireHook hook instruction frames.length
        (.cons (.counted e { call with frames } op) k)
      rw [hfails] at hupon
      exact absurd hupon.depth_le (Nat.not_succ_le_self _)
    | returned => cases hfails
    | performs executes next world log outcome =>
      obtain ⟨rfl, holds⟩ := hf.executes inv executes
      obtain ⟨fault, w₂, hraises, hlog, hP⟩ := outcome.raises (congrArg Process.control hfails)
      exact ⟨_, _, fault, w₂, executes, holds, hraises, hlog.trans log, hP⟩
    | @failed e' call' name turn reason =>
      cases hf with
      | host holds => exact ⟨call', _, _, w, rfl, holds, .failed name reason, rfl, rfl⟩

end Invariants

theorem Program.Bounded.invariant (h : p.Bounded) :
    MachineCall.Invariant (fun call => call.program = p ∧ p.Waiting call.frames)
      (fun op call => call.program = p ∧ p.Executing op call.frames) where
  fetch := by
    rintro call op frames ⟨rfl, waiting⟩ hfetch
    exact ⟨rfl, h.executing_of_fetch waiting hfetch⟩
  next := by
    rintro call op frames m m' ⟨same, executing⟩ hnext
    exact ⟨same, Machine.waiting_execute h executing hnext⟩
  done := by
    rintro call op ⟨same, executing⟩
    exact ⟨same, waiting_of_forall executing.recorded⟩

def World.kept? (w : World) (e key : Nat) : Option Value := w.machine? e >>= (·.registry.get? key)

theorem World.obeys_callProtected {between : MachineCall → Prop} {executing : Op → MachineCall → Prop}
    (hkey : w.kept? e key = some (.callable p))
    (hstart : ∀ mark base, between ⟨p, Program.start, mark, base, handler⟩) :
    (w.callProtected e key handler k).Obeys k e between executing := by
  obtain ⟨m, hm, hkey⟩ := Option.bind_eq_some_iff.1 hkey
  rw [World.callProtected_eq hm hkey]
  exact ⟨_, _, .machine (hstart _ _), .refl⟩

namespace Source

variable {chunk : String} {source : List Char} {code : FunctionCode} {scope : Scope} {body : Body}
  {l : Line} {op : Op} {i pc target function : Nat}

theorem exists_of_forall₂ {α β : Type} {R : α → β → Prop} {as : List α} {bs : List β}
    (h : List.Forall₂ R as bs) {b : β} (hb : bs[i]? = some b) : ∃ a, as[i]? = some a ∧ R a b := by
  have hrel := rel_getElem?_of_forall₂ h i
  rw [hb] at hrel
  generalize as[i]? = found at hrel
  cases hrel with
  | some hab => exact ⟨_, rfl, hab⟩

theorem Compiled.exists_body (h : Compiled chunk source p) (hcode : p.functions[i]? = some code) :
    ∃ body, (bodiesOf source)[i]? = some body ∧ body.Compiled (body.scope (indexOf? source)) code :=
  exists_of_forall₂ h.functions (by simpa using hcode)

theorem Compiled.exists_code (h : Compiled chunk source p) (hbody : (bodiesOf source)[i]? = some body) :
    ∃ code, p.functions[i]? = some code ∧ body.Compiled (body.scope (indexOf? source)) code := by
  have hrel := rel_getElem?_of_forall₂ h.functions i
  rw [hbody, Array.getElem?_toList] at hrel
  generalize p.functions[i]? = found at hrel
  cases hrel with
  | some hcompiled => exact ⟨_, rfl, hcompiled⟩

theorem Body.Compiled.exists_line (h : body.Compiled scope code) (hop : code.code[pc]? = some op) :
    ∃ l, (codeOf body.lines.toList)[pc]? = some l ∧ Resolved scope l op ∧
      code.lines[pc]? = some l.number := by
  obtain ⟨l, hl, hresolved⟩ := exists_of_forall₂ h.code (by simpa using hop)
  refine ⟨l, hl, hresolved, ?_⟩
  rw [← Array.getElem?_toList, h.lines, List.getElem?_map, hl]
  rfl

theorem Body.Compiled.size_code (h : body.Compiled scope code) :
    code.code.size = (codeOf body.lines.toList).length := by
  rw [← Array.length_toList, h.code.length_eq]

theorem Resolved.exists_label (h : Resolved scope l op) (hop : op = .jump target ∨ op = .jumpz target) :
    ∃ label, scope.label? label = some target := by
  obtain ⟨i, _, hi⟩ := h
  cases i with
  | jump label | jumpz label =>
    obtain ⟨target', htarget, rfl⟩ := Option.map_eq_some_iff.1 hi
    simp only [Op.jump.injEq, Op.jumpz.injEq, reduceCtorEq, or_false, false_or] at hop
    exact ⟨label, hop ▸ htarget⟩
  | call name =>
    obtain ⟨function, _, rfl⟩ := Option.map_eq_some_iff.1 hi
    simp at hop
  | _ =>
    cases hi
    simp at hop

theorem Resolved.exists_function (h : Resolved scope l (.call function)) :
    ∃ name, scope.function? name = some function := by
  obtain ⟨i, _, hi⟩ := h
  cases i with
  | call name =>
    obtain ⟨function', hfunction, hop⟩ := Option.map_eq_some_iff.1 hi
    cases hop
    exact ⟨name, hfunction⟩
  | jump | jumpz =>
    obtain ⟨_, _, hop⟩ := Option.map_eq_some_iff.1 hi
    cases hop
  | _ => cases hi

theorem lt_of_indexOf? {name : String} (h : indexOf? source name = some function) :
    1 ≤ function ∧ function < (bodiesOf source).length := by
  obtain ⟨j, hj, rfl⟩ := Option.map_eq_some_iff.1 h
  obtain ⟨hlt, _⟩ := List.findIdx?_eq_some_iff_getElem.1 hj
  rw [List.length_tail] at hlt
  exact ⟨Nat.le_add_left 1 j, by omega⟩

theorem Compiled.map_name (h : Compiled chunk source p) :
    p.functions.toList.map (·.name) = (bodiesOf source).map (·.name) := by
  rw [← List.forall₂_eq_eq_eq, List.forall₂_map_left_iff, List.forall₂_map_right_iff]
  exact h.functions.flip.imp fun _ _ hcompiled => hcompiled.name

/-- The tables of the program of a source fit together. -/
theorem Compiled.bounded (hgrammatical : Grammatical source) (h : Compiled chunk source p) :
    p.Bounded := by
  have hlength : p.functions.size = (bodiesOf source).length := by
    rw [← Array.length_toList, h.functions.length_eq]
  have hmem : ∀ code ∈ p.functions, ∃ body ∈ bodiesOf source,
      body.Compiled (body.scope (indexOf? source)) code := fun code hcode => by
    obtain ⟨i, hi⟩ := Array.getElem?_of_mem hcode
    obtain ⟨body, hbody, hcompiled⟩ := h.exists_body hi
    exact ⟨body, List.mem_of_getElem? hbody, hcompiled⟩
  have hname : ∀ {i : Nat} {code : FunctionCode}, p.functions[i]? = some code →
      ((bodiesOf source).map (·.name))[i]? = some code.name := fun {i code} hcode => by
    rw [← h.map_name, List.getElem?_map, Array.getElem?_toList, hcode]
    rfl
  refine ⟨?_, fun i code hcode => ?_, ?_, fun code hcode => ?_, fun code hcode => ?_,
    fun code hcode op hop target htarget => ?_, fun code hcode function hop => ?_⟩
  · have hpos : 0 < p.functions.size := hlength ▸ Nat.zero_lt_succ _
    have hget := Array.getElem?_eq_getElem hpos
    exact ⟨_, hget, (Option.some.inj (hname hget)).symm⟩
  · have hget := hname hcode
    rw [bodiesOf, List.map_cons, List.getElem?_cons_succ] at hget
    refine isIdentifier_of_mem_functionNames hgrammatical.placed ?_
    rw [← map_name_bodiesOf]
    exact List.mem_of_getElem? hget
  · rw [List.map_tail, h.map_name, ← List.map_tail, map_name_bodiesOf]
    exact hgrammatical.functions
  · obtain ⟨body, _, hcompiled⟩ := hmem code hcode
    rw [hcompiled.size_code, ← Array.length_toList, hcompiled.lines, List.length_map]
  · obtain ⟨body, hbody, hcompiled⟩ := hmem code hcode
    rw [hcompiled.lines, List.pairwise_map, lines_of_mem_bodiesOf hbody]
    exact ((pairwise_lines source).sublist (plainLines_sublist source _)).sublist List.filter_sublist
  · obtain ⟨body, _, hcompiled⟩ := hmem code hcode
    obtain ⟨pc, hpc⟩ := Array.getElem?_of_mem hop
    obtain ⟨l, _, hl, _⟩ := hcompiled.exists_line hpc
    obtain ⟨label, hlabel⟩ := hl.exists_label htarget
    obtain ⟨line, _, rfl⟩ := Option.map_eq_some_iff.1 hlabel
    rw [hcompiled.size_code]
    exact rank_le _ _
  · obtain ⟨body, _, hcompiled⟩ := hmem code hcode
    obtain ⟨pc, hpc⟩ := Array.getElem?_of_mem hop
    obtain ⟨l, _, hl, _⟩ := hcompiled.exists_line hpc
    obtain ⟨name, hfunction⟩ := hl.exists_function
    rw [hlength]
    exact lt_of_indexOf? hfunction

/-- Each instruction of the program was written on the line that the program has for it. -/
def Written (source : List Char) (p : Program) : Prop :=
  ∀ (i pc : Nat) (code : FunctionCode) (op : Op), p.functions[i]? = some code →
    code.code[pc]? = some op → ∃ s ∈ sites source,
      code.lines[pc]? = some s.line.number ∧ s.line.instructs = true ∧
      (∃ raw, (Text.lines source)[s.line.number - 1]? = some raw ∧ significant raw = s.line.text) ∧
      ∃ body : Body, (bodiesOf source)[i]? = some body ∧ body.header = s.home ∧
        Resolved (body.scope (indexOf? source)) s.line op

theorem Compiled.written (h : Compiled chunk source p) : Written source p := by
  intro i pc code op hcode hop
  obtain ⟨body, hbody, hcompiled⟩ := h.exists_body hcode
  obtain ⟨l, hl, hresolved, hnumber⟩ := hcompiled.exists_line hop
  obtain ⟨hmem, hmarks⟩ := List.mem_filter.1 (List.mem_of_getElem? hl)
  rw [lines_of_mem_bodiesOf (List.mem_of_getElem? hbody)] at hmem
  obtain ⟨hsite, hplain⟩ := mem_plainLines.1 hmem
  obtain ⟨_, _, _, hraw⟩ := mem_lines (line_mem_of_mem_sitesFrom hsite)
  refine ⟨_, hsite, hnumber, ?_, hraw, body, hbody, rfl, hresolved⟩
  rw [Line.instructs, hplain, hmarks]
  rfl

/-- The line that a traceback shows for a frame is the one that the program has for its instruction, and
it is one of the source. -/
theorem Compiled.exists_line_of_recorded (h : Compiled chunk source p) {f : CallFrame}
    (hf : p.Recorded f) : ∃ code, p.functions[f.function]? = some code ∧
      code.lines[f.pc - 1]? = some (p.line f.function (f.pc - 1)) ∧
      1 ≤ p.line f.function (f.pc - 1) ∧
      p.line f.function (f.pc - 1) ≤ (Text.lines source).length := by
  obtain ⟨_, _, code, line, hcode, hline⟩ := hf
  obtain ⟨body, hbody, hcompiled⟩ := h.exists_body hcode
  have hmem : line ∈ (codeOf body.lines.toList).map (·.number) := by
    rw [← hcompiled.lines]
    exact Array.mem_toList_iff.2 (Array.mem_of_getElem? hline)
  obtain ⟨l, hl, rfl⟩ := List.mem_map.1 hmem
  have hl' := List.mem_of_mem_filter hl
  rw [lines_of_mem_bodiesOf (List.mem_of_getElem? hbody)] at hl'
  obtain ⟨hlow, hhigh, _⟩ := mem_lines ((plainLines_sublist source _).subset hl')
  have hvalue : p.line f.function (f.pc - 1) = l.number := by
    rw [Program.line, hcode]
    exact congrArg (Option.getD · 0) hline
  rw [hvalue]
  exact ⟨code, hcode, hline, hlow, hhigh⟩

theorem Compiled.forall₂_trace (h : Compiled chunk source p) {frames : List CallFrame}
    (hframes : ∀ f ∈ frames, p.Recorded f) :
    List.Forall₂ (fun f t => ∃ code, p.functions[f.function]? = some code ∧
      code.lines[f.pc - 1]? = some t.line ∧ 1 ≤ t.line ∧ t.line ≤ (Text.lines source).length)
      frames.reverse (p.trace frames) := by
  rw [Program.trace, List.forall₂_map_right_iff, List.forall₂_same]
  intro f hf
  exact h.exists_line_of_recorded (hframes f (List.mem_reverse.1 hf))

theorem compile_eq_ok (h : compile chunk source = .ok p) : Grammatical source ∧ Compiled chunk source p := by
  have hchecks := checks_compile chunk source
  rw [h] at hchecks
  cases hchecks with
  | ok holds value => exact ⟨grammatical_iff.2 holds, value⟩

end Source

namespace Process

open Source

variable {chunk : String} {source : List Char}

def InBounds (k : Pending .call) (e : Nat) (p : Program) (P : Process) : Prop :=
  ∃ (a : Hole) (f : Activation a .call) (call : MachineCall), f.call? = some (e, call) ∧
    P.control.Upon (.cons f k) ∧ call.program = p ∧ ∀ frame ∈ call.frames, p.InRange frame

/-- The next transition carries out an instruction of the program that raises an error and ends the call.
The traceback shows each of the active calls, the outermost first, with the line that the program has for
the instruction that it is executing, and this is one of so many lines. -/
def RaisesOn (k : Pending .call) (e : Nat) (p : Program) (lines : Nat) (P : Process) : Prop :=
  ∃ (call : MachineCall) (op : Op) (fault : RuntimeFault) (w : World),
    P.executes? = some (e, call, op) ∧ op.Raises fault ∧
    P.step = w.failMachine e call (.runtime fault) k ∧
    call.program = p ∧ call.frames ≠ [] ∧ p.Executing op call.frames ∧
    List.Forall₂ (fun frame t => ∃ code, p.functions[frame.function]? = some code ∧
      code.lines[frame.pc - 1]? = some t.line ∧ 1 ≤ t.line ∧ t.line ≤ lines)
      call.frames.reverse (p.trace call.frames)

/-- The program of an accepted source never goes out of bounds. Its tables fit together and have each
instruction on its line; in every state of a call of it each frame stands in a function. When an error is
raised, the instruction that is carried out raises it, and each frame is known by a line of the source. -/
theorem compiled_within_bounds (hcompile : compile chunk source = .ok p) :
    p.Bounded ∧ Written source p ∧
    ∀ {w : World} {e key : Nat} {handler : Handler} {k : Pending .call} {P : Process},
      w.kept? e key = some (.callable p) → w.callProtected e key handler k = P →
      ∀ n, (∀ l < n, k.depth < (P.run l).control.depth) →
        (k.depth < (P.run n).control.depth → (P.run n).InBounds k e p) ∧
        ∀ (w' : World) (text : String), P.run n = w'.deliver k (.error (.runtime text)) →
          ∃ m, n = m + 1 ∧ (P.run m).RaisesOn k e p (Text.lines source).length := by
  obtain ⟨hgrammatical, hcompiled⟩ := compile_eq_ok hcompile
  have hbounded := hcompiled.bounded hgrammatical
  refine ⟨hbounded, hcompiled.written, fun {w e key handler k P} hkey hP n hinside => ?_⟩
  have hstart : P.Obeys k e (fun call => call.program = p ∧ p.Waiting call.frames)
      (fun op call => call.program = p ∧ p.Executing op call.frames) :=
    hP ▸ World.obeys_callProtected hkey fun _ _ => ⟨rfl, hbounded.start⟩
  refine ⟨fun hdepth => ?_, fun w' text hraised => ?_⟩
  · have hinside' : ∀ l ≤ n, k.depth < (P.run l).control.depth := fun l hl => by
      obtain hlt | rfl := Nat.lt_or_eq_of_le hl
      · exact hinside l hlt
      · exact hdepth
    obtain ⟨_, f, hf, upon⟩ := hstart.run hbounded.invariant hinside'
    obtain ⟨call, own, same, waiting⟩ := hf.exists_call hbounded.invariant
    exact ⟨_, f, call, own, upon, same, waiting.inRange⟩
  · cases n with
    | zero =>
      have hdeep := hstart.inside
      rw [show P = _ from hraised] at hdeep
      exact absurd hdeep (Nat.lt_irrefl _)
    | succ m =>
      rw [run_succ_step] at hraised
      have hobeys := hstart.run hbounded.invariant fun l hl => hinside l (Nat.lt_succ_of_le hl)
      obtain ⟨call, op, fault, w₁, hexecutes, ⟨same, executing⟩, hraises, _, hends⟩ :=
        hobeys.raises hbounded.invariant hraised
      exact ⟨m, rfl, call, op, fault, w₁, hexecutes, hraises, hends, same, executing.ne_nil, executing,
        hcompiled.forall₂_trace executing.recorded⟩

def failing : List Char := "call f\nfn f\n  # nothing yet\n  raise stop\nend".toList

def failingProgram : Program :=
  ⟨"c", #[⟨"", #[.call 1], #[1]⟩, ⟨"f", #[.raise "stop"], #[4]⟩]⟩

def keeping (p : Program) : World :=
  { engines := #[.machine { machine := { registry := ⟨#[some (.callable p)], []⟩ } }] }

def failingAfter (n : Nat) : Process :=
  ((keeping failingProgram).callProtected 0 0 .recording (.cons .callReply .outermost)).run n

theorem compiled_within_bounds_failing :
    compile "c" failing = .ok failingProgram ∧
    (failingAfter 1).InBounds (.cons .callReply .outermost) 0 failingProgram ∧
    (failingAfter 1).RaisesOn (.cons .callReply .outermost) 0 failingProgram 5 := by
  have hcompile : compile "c" failing = .ok failingProgram := by cbv
  have hinside : ∀ l < 2, 1 < (failingAfter l).control.depth := by decide
  have hraised : (failingAfter 2).control =
      .deliver (.error (.runtime "handled") : Except CallError Unit) (.cons .callReply .outermost) := rfl
  have hlines : (Text.lines failing).length = 5 := by cbv
  obtain ⟨_, _, hrun⟩ := compiled_within_bounds hcompile
  rw [hlines] at hrun
  have hkept : (keeping failingProgram).kept? 0 0 = some (.callable failingProgram) := rfl
  have hcall : (keeping failingProgram).callProtected 0 0 .recording (.cons .callReply .outermost) =
      failingAfter 0 := rfl
  refine ⟨hcompile, ?_, ?_⟩
  · exact (hrun hkept hcall 1 fun l hl => hinside l (by omega)).1 (hinside 1 (by omega))
  · obtain ⟨m, hm, hraises⟩ := (hrun hkept hcall 2 hinside).2 _ _ (eq_deliver hraised)
    obtain rfl : m = 1 := by omega
    exact hraises

end Process

end TaskLoop
