import TaskLoop.Proofs.CallStack

namespace TaskLoop

variable {a b c : Hole} {w w' w₁ w₂ : World} {e q : Nat} {id : TaskId} {p : Process}

theorem Effect.All.mono {P R : Machine → Prop} {effect : Effect} (h : effect.All P)
    (hPR : ∀ m, P m → R m) : effect.All R := by
  cases effect with
  | next m | stop m => exact hPR m h
  | host => trivial

namespace Machine

variable {m m' m'' : Machine}

structure Sober (m m' : Machine) : Prop where
  limits : m'.limits = m.limits
  height : m'.stack.height ≤ max m.stack.height m.limits.stack.toNat

structure Frugal (m m' : Machine) : Prop extends m.Sober m' where
  allocated : m'.allocated = m.allocated

theorem Sober.refl (m : Machine) : m.Sober m := ⟨rfl, Nat.le_max_left ..⟩

theorem Sober.trans (h : m.Sober m') (h' : m'.Sober m'') : m.Sober m'' := by
  refine ⟨h'.limits.trans h.limits, Nat.le_trans h'.height (Nat.max_le.2 ⟨h.height, ?_⟩)⟩
  rw [h.limits]
  exact Nat.le_max_right ..

theorem Frugal.refl (m : Machine) : m.Frugal m := ⟨Sober.refl m, rfl⟩

theorem Frugal.trans (h : m.Frugal m') (h' : m'.Frugal m'') : m.Frugal m'' :=
  ⟨h.toSober.trans h'.toSober, h'.allocated.trans h.allocated⟩

theorem rel_comp {R S U : Machine → Machine → Prop}
    (hU : ∀ m m' m'', R m m' → S m' m'' → U m m'') {o o' o'' : Option Machine}
    (h : Option.Rel R o o') (h' : Option.Rel S o' o'') : Option.Rel U o o'' := by
  cases h with
  | none => cases h' with | none => exact .none
  | some h => cases h' with | some h' => exact .some (hU _ _ _ h h')

theorem frugal_of_height (limits : m'.limits = m.limits) (allocated : m'.allocated = m.allocated)
    (h : m'.stack.height ≤ m.stack.height) : m.Frugal m' :=
  ⟨⟨limits, Nat.le_trans h (Nat.le_max_left ..)⟩, allocated⟩

theorem frugal_push? {v : Value} (h : m.push? v = some m') : m.Frugal m' := by
  obtain ⟨hroom, rfl⟩ := push?_eq_some.1 h
  exact ⟨⟨rfl, Nat.le_trans (Nat.succ_le_of_lt hroom) (Nat.le_max_right ..)⟩, rfl⟩

theorem frugal_pop? {v : Value} (h : m.pop? = some (v, m')) : m.Frugal m' := by
  simp only [pop?, Option.map_eq_some_iff, Prod.mk.injEq] at h
  obtain ⟨_, _, _, rfl⟩ := h
  exact frugal_of_height rfl rfl (Nat.sub_le ..)

theorem frugal_truncate (m : Machine) (height : Nat) : m.Frugal (m.truncate height) :=
  frugal_of_height rfl rfl (Nat.min_le_left ..)

theorem frugal_load {chunk : String} {bytes : List UInt8} (h : m.load chunk bytes = .ok m') :
    m.Frugal m' := by
  obtain ⟨program, _, hroom, rfl⟩ := load_eq_ok h
  exact frugal_push? (push?_eq_some.2 ⟨hroom, rfl⟩)

theorem frugal_reference? {key : Nat} (h : m.reference? = some (key, m')) : m.Frugal m' := by
  obtain ⟨v, _, rfl⟩ := reference?_eq_some h
  exact frugal_of_height rfl rfl (Nat.sub_le ..)

theorem sober_leave (m : Machine) (base : Nat) (mark : UInt64) : m.Sober (m.leave base mark) :=
  ⟨rfl, Nat.le_trans (Nat.min_le_left ..) (Nat.le_max_left ..)⟩

structure Charged (m m' : Machine) : Prop extends m.Sober m' where
  allocated : m'.allocated = m.allocated ∨ m'.allocated ≤ m.limits.memory

theorem Frugal.charged (h : m.Frugal m') : m.Charged m' := ⟨h.toSober, .inl h.allocated⟩

theorem Frugal.charged_trans (h : m.Frugal m') (h' : m'.Charged m'') : m.Charged m'' := by
  refine ⟨h.toSober.trans h'.toSober, h'.allocated.imp (·.trans h.allocated) fun hle => ?_⟩
  rwa [h.limits] at hle

theorem frugal_pushing (v : Value) (frames : List CallFrame) :
    (m.pushing v frames).All m.Frugal := by
  unfold pushing
  split
  · next hp => exact frugal_push? hp
  · exact Frugal.refl m

theorem frugal_popping {g : Value → Machine → Effect}
    (hg : ∀ v m', m.Frugal m' → (g v m').All m.Frugal) :
    (match m.pop? with
      | none => m.raise .stackUnderflow
      | some (v, m') => g v m').All m.Frugal := by
  cases hp : m.pop? with
  | none => exact Frugal.refl m
  | some popped => exact hg popped.1 popped.2 (frugal_pop? hp)

/-- Only one instruction charges the machine. -/
theorem frugal_execute {op : Op} (hop : ∀ bytes, op ≠ .alloc bytes) (m : Machine)
    (frames : List CallFrame) : (m.execute op frames).All m.Frugal := by
  have hsame := Frugal.refl m
  cases op with
  | push n => exact frugal_pushing _ frames
  | pop => exact frugal_popping fun _ _ h => h
  | jumpz target => exact frugal_popping fun _ _ h => h
  | add | sub =>
    refine frugal_popping fun rhs m₁ h₁ => Effect.All.mono (frugal_popping fun lhs m₂ h₂ => ?_)
      fun m₂ h => h₁.trans h
    cases lhs with
    | int a =>
      cases rhs with
      | int b => exact Effect.All.mono (frugal_pushing _ frames) fun m₃ h => h₂.trans h
      | callable => exact h₂
    | callable => exact h₂
  | dup =>
    simp only [execute]
    cases m.stack.top? with
    | none => exact hsame
    | some v => exact frugal_pushing v frames
  | jump | ret | raise => exact hsame
  | host name => trivial
  | call function =>
    simp only [execute]
    split <;> exact hsame
  | alloc bytes => exact absurd rfl (hop bytes)

theorem charged_execute (m : Machine) (op : Op) (frames : List CallFrame) :
    (m.execute op frames).All m.Charged := by
  cases op with
  | alloc bytes =>
    -- the only instruction that charges, and it checks the limit first
    simp only [execute, charge]
    split
    · exact (Frugal.refl m).charged
    · next hroom => exact ⟨⟨rfl, Nat.le_max_left ..⟩, .inr (UInt64.not_lt.1 hroom)⟩
  | _ => exact Effect.All.mono (frugal_execute (fun _ => Op.noConfusion) m frames) fun _ h => h.charged

theorem length_execute {op : Op} {frames frames' : List CallFrame}
    (h : m.execute op frames = .next m' frames') :
    frames'.length ≤ max frames.length m.limits.callDepth.toNat := by
  have hjump : ∀ target, (jumpTo target frames).length = frames.length := fun target => by
    cases frames <;> rfl
  have hsame : frames.length ≤ max frames.length m.limits.callDepth.toNat := Nat.le_max_left ..
  have hpush : ∀ {m₁ : Machine} {v : Value}, m₁.pushing v frames = .next m' frames' →
      frames' = frames := fun {m₁ v} hp => by
    unfold pushing at hp
    split at hp <;> cases hp
    rfl
  cases op with
  | push n => rwa [hpush h]
  | pop =>
    simp only [execute] at h
    split at h <;> cases h
    exact hsame
  | dup =>
    simp only [execute] at h
    split at h
    · cases h
    · rwa [hpush h]
  | add | sub =>
    simp only [execute, arithmetic] at h
    split at h
    · cases h
    · split at h
      · cases h
      · split at h
        · rwa [hpush h]
        · cases h
  | jump target =>
    cases h
    rwa [hjump]
  | jumpz target =>
    simp only [execute] at h
    split at h <;> cases h
    split
    · rwa [hjump]
    · exact hsame
  | call function =>
    simp only [execute] at h
    split at h
    · cases h
    · next hroom =>
      cases h
      exact Nat.le_trans (Nat.lt_of_not_le hroom) (Nat.le_max_right ..)
  | ret =>
    cases h
    rw [List.length_tail]
    exact Nat.le_trans (Nat.sub_le ..) hsame
  | raise message => cases h
  | host name => cases h
  | alloc bytes =>
    simp only [execute, charge] at h
    split at h <;> cases h
    exact hsame

end Machine

/-- The frames with which an instruction is performed: there is one, and there are no more than
before. -/
theorem Program.length_fetch {program : Program} {op : Op} {frames frames' : List CallFrame}
    (h : program.fetch frames = some (op, frames')) :
    1 ≤ frames'.length ∧ frames'.length ≤ frames.length := by
  induction frames with
  | nil => cases h
  | cons f fs ih =>
    rw [fetch] at h
    split at h
    · cases h
      exact ⟨Nat.succ_pos _, Nat.le_refl _⟩
    · exact ⟨(ih h).1, Nat.le_succ_of_le (ih h).2⟩

namespace Engine

variable {E E' : Engine}

theorem frugal_of_eq (h : E'.machine? = E.machine?) :
    Option.Rel Machine.Frugal E.machine? E'.machine? := by
  rw [h]
  cases E.machine? with
  | none => exact .none
  | some m => exact .some (Machine.Frugal.refl m)

theorem frugal_load {chunk : String} {source : List UInt8} (h : E.load chunk source = .ok E') :
    Option.Rel Machine.Frugal E.machine? E'.machine? := by
  cases E with
  | inert => cases h; exact .none
  | machine e =>
    obtain ⟨m, hm, rfl⟩ := load_machine h
    exact .some (Machine.frugal_load hm)
  | pacer e =>
    obtain ⟨p, rfl⟩ := load_pacer h
    exact .none

theorem frugal_reference? {key : Nat} (h : E.reference? = some (key, E')) :
    Option.Rel Machine.Frugal E.machine? E'.machine? := by
  cases E with
  | inert => cases h
  | machine e =>
    simp only [reference?, Option.map_eq_some_iff, Prod.mk.injEq] at h
    obtain ⟨⟨_, m⟩, hm, _, rfl⟩ := h
    exact .some (Machine.frugal_reference? hm)
  | pacer e =>
    simp only [reference?, Option.map_eq_some_iff, Prod.mk.injEq] at h
    obtain ⟨_, _, _, rfl⟩ := h
    exact .none

theorem frugal_map {f : Machine → Machine} (h : E'.machine? = E.machine?.map f)
    (hf : ∀ m : Machine, m.Frugal (f m)) : Option.Rel Machine.Frugal E.machine? E'.machine? := by
  rw [h]
  cases E.machine? with
  | none => exact .none
  | some m => exact .some (hf m)

end Engine

namespace World

variable {R S U : Nat → Machine → Machine → Prop} {m : Machine} {mark : UInt64}

def Machines (R : Nat → Machine → Machine → Prop) (w w' : World) : Prop :=
  ∀ e, Option.Rel (R e) (w.machine? e) (w'.machine? e)

abbrev Frugal : World → World → Prop := Machines fun _ => Machine.Frugal

abbrev Charges (e : Nat) : World → World → Prop :=
  Machines fun e' m m' => m.Charged m' ∧ (e' ≠ e → m'.allocated = m.allocated)

abbrev Discharges (e : Nat) (mark : UInt64) : World → World → Prop :=
  Machines fun e' m m' => m.Sober m' ∧ m'.allocated = if e' = e then mark else m.allocated

theorem Machines.comp (hU : ∀ e m m' m'', R e m m' → S e m' m'' → U e m m'')
    (h : w.Machines R w₁) (h' : w₁.Machines S w₂) : w.Machines U w₂ :=
  fun e => Machine.rel_comp (hU e) (h e) (h' e)

theorem Machines.origin {m' : Machine} (h : w.Machines R w') (hm' : w'.machine? e = some m') :
    ∃ m, w.machine? e = some m ∧ R e m m' := by
  have hrel := h e
  rw [hm'] at hrel
  generalize w.machine? e = o at hrel
  cases hrel with
  | some h => exact ⟨_, rfl, h⟩

theorem machines_of_eq (hR : ∀ e m, R e m m) (h : ∀ e, w'.machine? e = w.machine? e) :
    w.Machines R w' := by
  intro e
  rw [h]
  cases w.machine? e with
  | none => exact .none
  | some m => exact .some (hR e m)

theorem machines_modifyEngine {f : Engine → Engine} (hR : ∀ e', e ≠ e' → ∀ m, R e' m m)
    (h : ∀ E, w.engine? e = some E → Option.Rel (R e) E.machine? (f E).machine?) :
    w.Machines R (w.modifyEngine e f) := by
  intro e'
  by_cases he : e = e'
  · subst he
    rw [machine?, machine?, engine?_modifyEngine]
    cases hE : w.engine? e with
    | none => exact .none
    | some E => exact h E hE
  · rw [machine?, machine?, engine?_modifyEngine_of_ne w f he]
    cases w.engine? e' >>= Engine.machine? with
    | none => exact .none
    | some m => exact .some (hR e' he m)

theorem machines_setMachine {m' : Machine} (hR : ∀ e', e ≠ e' → ∀ m, R e' m m)
    (hm : w.machine? e = some m) (h : R e m m') : w.Machines R (w.setMachine e m') := by
  refine machines_modifyEngine hR fun E hE => ?_
  rw [machine?, hE] at hm
  rw [Engine.machine?_setMachine, show E.machine? = some m from hm]
  exact .some h

theorem machines_modifyMachine {f : Machine → Machine} (hR : ∀ e', e ≠ e' → ∀ m, R e' m m)
    (h : ∀ m, R e m (f m)) : w.Machines R (w.modifyMachine e f) := by
  unfold modifyMachine
  split
  · next hnone =>
    intro e'
    by_cases he : e = e'
    · rw [← he, hnone]
      exact .none
    · cases w.machine? e' with
      | none => exact .none
      | some m => exact .some (hR e' he m)
  · next m hm => exact machines_setMachine hR hm (h m)

theorem frugal_of_eq (h : ∀ e, w'.machine? e = w.machine? e) : w.Frugal w' :=
  machines_of_eq (fun _ => Machine.Frugal.refl) h

theorem Frugal.refl (w : World) : w.Frugal w := frugal_of_eq fun _ => rfl

theorem Frugal.trans (h : w.Frugal w₁) (h' : w₁.Frugal w₂) : w.Frugal w₂ :=
  Machines.comp (fun _ _ _ _ h h' => h.trans h') h h'

theorem frugal_logged (w : World) (event : Event) : w.Frugal (w.logged event) := .refl w

theorem frugal_setQueue (w : World) (q : Nat) (Q : Queue) : w.Frugal (w.setQueue q Q) := .refl w

theorem frugal_modifyQueue (w : World) (q : Nat) (f : Queue → Queue) :
    w.Frugal (w.modifyQueue q f) := .refl w

theorem frugal_modifyEngine {f : Engine → Engine}
    (h : ∀ E, w.engine? e = some E → Option.Rel Machine.Frugal E.machine? (f E).machine?) :
    w.Frugal (w.modifyEngine e f) :=
  machines_modifyEngine (fun _ _ => Machine.Frugal.refl) h

theorem frugal_setEngine {E E' : Engine} (hE : w.engine? e = some E)
    (h : Option.Rel Machine.Frugal E.machine? E'.machine?) : w.Frugal (w.setEngine e E') := by
  rw [setEngine_eq_modifyEngine]
  refine frugal_modifyEngine fun E₁ hE₁ => ?_
  rwa [← Option.some.inj (hE.symm.trans hE₁)]

theorem frugal_unreference (w : World) (e key : Nat) :
    w.Frugal (w.modifyEngine e (·.unreference key)) :=
  frugal_modifyEngine fun E _ => E.frugal_map (E.machine?_unreference key) fun _ =>
    Machine.frugal_of_height rfl rfl (Nat.le_refl _)

theorem frugal_setTop (w : World) (e height : Nat) : w.Frugal (w.modifyEngine e (·.setTop height)) :=
  frugal_modifyEngine fun E _ => E.frugal_map (E.machine?_setTop height) fun m =>
    m.frugal_truncate height

theorem frugal_clearHook (w : World) (e : Nat) : w.Frugal (w.modifyEngine e (·.clearHook)) :=
  frugal_of_eq (machine?_modifyEngine_of_eq Engine.machine?_clearHook w e)

theorem frugal_countInstruction (w : World) (e : Nat) : w.Frugal (w.countInstruction e) :=
  frugal_modifyEngine fun E _ => E.frugal_map E.machine?_count fun _ =>
    Machine.frugal_of_height rfl rfl (Nat.le_refl _)

theorem frugal_release (w : World) (t : ScriptTask) :
    w.Frugal (if t.release then w.modifyEngine t.engine (·.unreference t.key) else w) := by
  split
  · exact w.frugal_unreference t.engine t.key
  · exact .refl w

theorem frugal_releaseScript (w : World) (t : ScriptTask) : w.Frugal (w.releaseScript t) := by
  refine Frugal.trans ?_ (frugal_release _ t)
  split
  · exact w.frugal_clearHook t.engine
  · exact .refl w

theorem frugal_loadScript {key : Nat} {source : List UInt8}
    (h : w.loadScript q e source = .ok (key, w₁)) : w.Frugal w₁ := by
  obtain ⟨E, E₁, E₂, hE, hload, hreference, rfl⟩ := loadScript_eq_ok h
  exact frugal_setEngine hE (Machine.rel_comp (fun _ _ _ h h' => h.trans h')
    (Engine.frugal_load hload) (Engine.frugal_reference? hreference))

theorem Grants.frugal {P : Prop} (h : w.Grants P q w₁) : w.Frugal w₁ := by
  induction h with
  | refl => exact .refl w
  | @tail w₁ _ _ grant ih =>
    refine ih.trans ?_
    cases grant with
    | queue _ _ => exact w₁.frugal_setQueue q _
    | report => exact w₁.frugal_logged _
    | name name id => exact frugal_of_eq (machine?_named w₁ name q id)
    | hook e => exact frugal_of_eq (machine?_installHook w₁ q e)
    | load loaded => exact frugal_loadScript loaded

end World

def Activation.pacer? : Activation a b → Option Nat
  | .pacer e _ | .triggered e _ _ _ => some e
  | _ => none

namespace Pending

def calls : {a : Hole} → Pending a → List (Nat × MachineCall)
  | _, .outermost => []
  | _, .cons f k => f.call?.toList ++ k.calls

def pacers : {a : Hole} → Pending a → List Nat
  | _, .outermost => []
  | _, .cons f k => f.pacer?.toList ++ k.pacers

theorem calls_cons {f : Activation a b} (h : f.call? = none) (k : Pending b) :
    (cons f k).calls = k.calls := by rw [calls, h]; rfl

theorem pacers_cons {f : Activation a b} (h : f.pacer? = none) (k : Pending b) :
    (cons f k).pacers = k.pacers := by rw [pacers, h]; rfl

end Pending

def Control.calls : Control → List (Nat × MachineCall)
  | .perform _ k => k.calls
  | .deliver _ k => k.calls
  | .unwind _ k => k.calls
  | _ => []

def Control.pacers : Control → List Nat
  | .perform _ k => k.pacers
  | .deliver _ k => k.pacers
  | .unwind _ k => k.pacers
  | _ => []

variable {cs : List (Nat × MachineCall)} {ps : List Nat}

namespace Process

def Paces (w : World) (ps : List Nat) (p : Process) : Prop :=
  ∀ e ∈ p.control.pacers, e ∈ ps ∨ w.machine? e = none

theorem Paces.of_eq (h : p.control.pacers = ps) : p.Paces w ps := fun _ he => .inl (h ▸ he)

theorem Paces.after (h : w.Frugal w₁) (h' : p.Paces w₁ ps) : p.Paces w ps := fun e he =>
  (h' e he).imp_right fun hnone => by
    have hrel := h e
    rw [hnone] at hrel
    generalize w.machine? e = o at hrel ⊢
    cases hrel
    rfl

structure Idles (w : World) (cs : List (Nat × MachineCall)) (ps : List Nat) (p : Process) :
    Prop where
  world : w.Frugal p.world
  calls : p.control.calls = cs
  pacers : p.Paces w ps

theorem Idles.after (h : w.Frugal w₁) (h' : p.Idles w₁ cs ps) : p.Idles w cs ps :=
  ⟨h.trans h'.world, h'.calls, h'.pacers.after h⟩

theorem Idles.lower {f : Activation a b} {k : Pending b}
    (h : p.Idles w (Pending.cons f k).calls (Pending.cons f k).pacers)
    (hf : f.call? = none ∧ f.pacer? = none) : p.Idles w k.calls k.pacers := by
  rwa [Pending.calls_cons hf.1, Pending.pacers_cons hf.2] at h

/-- No machine has been charged. A protected call may have begun, which marks what its machine has
allocated. -/
inductive Embarks (w : World) (cs : List (Nat × MachineCall)) (ps : List Nat) (p : Process) : Prop
  | idles (idles : p.Idles w cs ps)
  | calls {e : Nat} {m : Machine} (program : Program) (handler : Handler) (world : w.Frugal p.world)
      (machine : p.world.machine? e = some m)
      (calls : p.control.calls =
        (e, ⟨program, Program.start, m.allocated, m.stack.height, handler⟩) :: cs)
      (pacers : p.Paces w ps)

theorem Embarks.after (h : w.Frugal w₁) (h' : p.Embarks w₁ cs ps) : p.Embarks w cs ps := by
  cases h' with
  | idles h' => exact .idles (h'.after h)
  | calls program handler world machine calls pacers =>
    exact .calls program handler (h.trans world) machine calls (pacers.after h)

theorem Embarks.lower {f : Activation a b} {k : Pending b}
    (h : p.Embarks w (Pending.cons f k).calls (Pending.cons f k).pacers)
    (hf : f.call? = none ∧ f.pacer? = none) : p.Embarks w k.calls k.pacers := by
  rwa [Pending.calls_cons hf.1, Pending.pacers_cons hf.2] at h

inductive Works (w : World) (e : Nat) (call : MachineCall) (k : Pending .call) (p : Process) : Prop
  | goes {a : Hole} {f : Activation a .call} {call' : MachineCall} (own : f.call? = some (e, call'))
      (mark : call'.mark = call.mark)
      (frames : ∀ m, w.machine? e = some m →
        call'.frames.length ≤ max call.frames.length m.limits.callDepth.toNat)
      (world : w.Charges e p.world) (upon : p.control.Upon (.cons f k))
      (calls : p.control.calls = (e, call') :: k.calls) (pacers : p.Paces w k.pacers)
  | returns (world : w.Discharges e call.mark p.world) (result : Except CallError Unit)
      (control : p.control = .deliver result k)
  | unwinds (world : w.Discharges e call.mark p.world) (payload : Payload)
      (control : p.control = .unwind payload k)

end Process

namespace World

theorem idles_deliver (h : w.Frugal w₁) (k : Pending a) (result : a.Result) :
    (w₁.deliver k result).Idles w k.calls k.pacers := ⟨h, rfl, .of_eq rfl⟩

theorem idles_unwind (h : w.Frugal w₁) (payload : Payload) (k : Pending a) :
    (w₁.unwind payload k).Idles w k.calls k.pacers := ⟨h, rfl, .of_eq rfl⟩

theorem idles_performAll (h : w.Frugal w₁) (actions : List Action) (complaint : Option String)
    (k : Pending .routine) : (w₁.performAll actions complaint k).Idles w k.calls k.pacers := by
  cases actions with
  | nil | cons => exact ⟨h, rfl, .of_eq rfl⟩

theorem idles_callBack (h : w.Frugal w₁) (actions : List Action) (k : Pending .routine) :
    (w₁.callBack actions k).Idles w k.calls k.pacers := idles_performAll h actions none k

theorem idles_destroyCallback (h : w.Frugal w₁) (name : String) (onDrop : Option (List Action))
    (k : Pending .done) : (w₁.destroyCallback name onDrop k).Idles w k.calls k.pacers := by
  cases onDrop with
  | none => exact idles_deliver h k ()
  | some actions => exact (idles_callBack (h.trans (w₁.frugal_logged _)) actions _).lower ⟨rfl, rfl⟩

theorem idles_destroy (h : w.Frugal w₁) (task : Task) (k : Pending .done) :
    (w₁.destroy task k).Idles w k.calls k.pacers := by
  cases task with
  | idle t => exact idles_destroyCallback h t.name t.onDrop k
  | timer t => exact idles_destroyCallback h t.name t.onDrop k
  | script t =>
    refine idles_deliver (h.trans ?_) k ()
    split
    · exact .refl w₁
    · exact w₁.frugal_releaseScript t
  | watcher t =>
    unfold destroy
    dsimp only
    split
    · exact idles_deliver h k ()
    · exact idles_destroyCallback h t.name _ k

theorem idles_fireHook (h : w.Frugal w₁) (hook : Hook) (instruction depth : Nat)
    (k : Pending .done) : (w₁.fireHook hook instruction depth k).Idles w k.calls k.pacers := by
  cases hook with
  | cancel q =>
    simp only [fireHook]
    split
    · exact idles_deliver h k ()
    · exact idles_unwind h _ k
  | user label fires =>
    exact (idles_callBack (h.trans (w₁.frugal_logged _)) _ _).lower ⟨rfl, rfl⟩

theorem idles_timerFired (w : World) (q : Nat) (id : TaskId) (k : Pending .verdict) :
    (w.timerFired q id k).Idles w k.calls k.pacers := by
  obtain ⟨w', verdict, heq, rfl | ⟨Q, t, deadline, _, _, rfl⟩⟩ := timerFired_eq w q id k
  · rw [heq]
    exact idles_deliver (.refl _) k verdict
  · rw [heq]
    exact idles_deliver (w.frugal_setQueue q _) k verdict

theorem idles_scriptReturned (w : World) (q : Nat) (id : TaskId) (t : ScriptTask) (base : Nat)
    (result : Except CallError Unit) (k : Pending .verdict) :
    (w.scriptReturned q id t base result k).Idles w k.calls k.pacers := by
  have hclear : ∀ w₁ : World, w₁.Frugal
      (if w₁.scriptArmed q id then w₁.modifyEngine t.engine (·.clearHook) else w₁) := fun w₁ => by
    split
    · exact w₁.frugal_clearHook t.engine
    · exact .refl w₁
  have hleave := fun w₁ : World =>
    ((w₁.frugal_setTop t.engine base).trans (hclear _)).trans (frugal_release _ t)
  cases result with
  | ok => exact idles_deliver (hleave w) k .done
  | error e =>
    exact idles_deliver ((frugal_of_eq (machine?_notify w q .notice e.notice)).trans (hleave _)) k
      .done

theorem idles_endTurn (w : World) (q : Nat) (id : TaskId) (walk : Walk) (verdict : Verdict)
    (k : Pending .pass) : (w.endTurn q id walk verdict k).Idles w k.calls k.pacers := by
  have hcloses := closes_endTurn w q id walk verdict k
  generalize w.endTurn q id walk verdict k = p at hcloses ⊢
  cases hcloses with
  | missing => exact idles_deliver (.refl w) k _
  | completes | destroys => exact (idles_destroy (w.frugal_setQueue q _) _ _).lower ⟨rfl, rfl⟩
  | leaves => exact (idles_deliver (w.frugal_setQueue q _) (.cons (.walk q _ _) k) ()).lower ⟨rfl, rfl⟩

theorem idles_abandonTurn (w : World) (q : Nat) (payload : Payload) (k : Pending .pass) :
    (w.abandonTurn q payload k).Idles w k.calls k.pacers := by
  have habandons := abandons_abandonTurn w q payload k
  generalize w.abandonTurn q payload k = p at habandons ⊢
  cases habandons with
  | missing => exact idles_unwind (.refl w) payload k
  | destroys => exact (idles_destroy (w.frugal_setQueue q _) _ _).lower ⟨rfl, rfl⟩
  | leaves => exact idles_unwind (w.frugal_setQueue q _) payload k

theorem idles_leavePacer (h : w.Frugal w₁) (e : Nat) (result : Except CallError Unit)
    (k : Pending .call) : (w₁.leavePacer e result k).Idles w k.calls (e :: k.pacers) :=
  ⟨h.trans (frugal_of_eq (machine?_modifyEngine_of_eq Engine.machine?_popChunk w₁ e)), rfl,
    fun _ he => .inl (List.mem_cons_of_mem _ he)⟩

theorem idles_tickPacer (h : w.Frugal w₁) (e instruction depth : Nat) (call : PacerCall)
    (k : Pending .call) :
    (w₁.tickPacer e instruction depth call k).Idles w k.calls (e :: k.pacers) := by
  have htick := h.trans (frugal_of_eq (machine?_tickHook w₁ e))
  unfold tickPacer
  split
  · next h₁ =>
    rw [h₁] at htick
    exact idles_deliver htick (.cons (.pacer e call) k) ()
  · next h₁ =>
    rw [h₁] at htick
    exact idles_fireHook htick _ _ _ (.cons (.pacer e call) k)

theorem idles_runPacer (w : World) (e : Nat) (call : PacerCall) (k : Pending .call) :
    (w.runPacer e call k).Idles w k.calls (e :: k.pacers) := by
  have hcount := w.frugal_countInstruction e
  unfold runPacer
  split
  · exact idles_leavePacer (.refl w) e _ k
  · exact idles_leavePacer (frugal_of_eq (machine?_handle w _ _ _)) e _ k
  · dsimp only
    split
    · exact idles_tickPacer hcount e _ _ _ k
    · have htrigger := hcount.trans (frugal_of_eq
        (machine?_modifyEngine_of_eq (fun E => E.machine?_setTrigger none) (w.countInstruction e) e))
      generalize hf : Activation.triggered e _ _ _ = f
      have hcall : f.call? = none ∧ (Pending.cons f k).pacers = e :: k.pacers := by
        subst hf
        exact ⟨rfl, rfl⟩
      rw [← Pending.calls_cons hcall.1, ← hcall.2]
      exact (idles_callBack htrigger _ _).lower ⟨rfl, rfl⟩

theorem embarks_callProtected (h : w.Frugal w₁) (e key : Nat) (handler : Handler)
    (k : Pending .call) : (w₁.callProtected e key handler k).Embarks w k.calls k.pacers := by
  unfold callProtected
  split
  · exact .idles (idles_deliver h k _)
  · exact .idles (idles_deliver h k _)
  · next engine hE =>
    split
    · next program _ =>
      have hm : w₁.machine? e = some engine.machine := by rw [machine?, hE]; rfl
      exact .calls program handler h hm rfl (.of_eq rfl)
    · exact .idles (idles_deliver (h.trans (frugal_of_eq (machine?_handle w₁ handler _ _))) k _)
  · next engine hE =>
    split
    · exact .idles (idles_deliver h k _)
    · next chunk _ =>
      have hm : w₁.machine? e = none := by rw [machine?, hE]; rfl
      refine .idles ⟨h.trans (frugal_of_eq
        (machine?_modifyEngine_of_eq (fun E => E.machine?_pushChunk chunk) w₁ e)), rfl, ?_⟩
      exact .after h fun e' he => (List.mem_cons.1 he).symm.imp_right fun he => by rw [he, hm]

theorem Frugal.charges (h : w.Frugal w₁) (e : Nat) : w.Charges e w₁ :=
  Machines.comp (S := fun _ m m' => m' = m)
    (fun _ _ _ _ h hsame => by subst hsame; exact ⟨h.charged, fun _ => h.allocated⟩) h
    (machines_of_eq (fun _ _ => rfl) fun _ => rfl)

/-- A call sets back what its machine has allocated to the mark that it made. -/
theorem Charges.discharges (h : w.Charges e w₁) {f : Machine → Machine}
    (hf : ∀ m : Machine, m.Sober (f m) ∧ (f m).allocated = mark) :
    w.Discharges e mark (w₁.modifyMachine e f) := by
  have hset : w₁.Discharges e mark (w₁.modifyMachine e f) :=
    machines_modifyMachine (fun e' he m => ⟨.refl m, by rw [if_neg (Ne.symm he)]⟩)
      fun m => ⟨(hf m).1, by rw [if_pos rfl]; exact (hf m).2⟩
  refine Machines.comp (fun e' m m' m'' hc hd => ⟨hc.1.toSober.trans hd.1, hd.2.trans ?_⟩) h hset
  split
  · rfl
  · next he => exact hc.2 he

theorem works_leaveMachine (h : w.Charges e w₁) (call : MachineCall)
    (result : Except CallError Unit) (k : Pending .call) :
    (w₁.leaveMachine e call result k).Works w e call k :=
  .returns (h.discharges fun m => ⟨m.sober_leave call.base call.mark, rfl⟩) result rfl

theorem works_failMachine (h : w.Charges e w₁) (call : MachineCall) (fault : Fault)
    (k : Pending .call) : (w₁.failMachine e call fault k).Works w e call k := by
  cases fault with
  | memory => exact works_leaveMachine h call _ k
  | runtime fault =>
    have hhandled : w.Charges e (w₁.handle call.handler fault.message
        (call.program.trace call.frames)).2 := fun e' => by
      rw [machine?_handle]
      exact h e'
    exact works_leaveMachine hhandled call _ k

end World

namespace Process

theorem Idles.works {call call' : MachineCall} {k : Pending .call} {f : Activation a .call}
    (h : p.Idles w (Pending.cons f k).calls (Pending.cons f k).pacers)
    (upon : p.control.Upon (.cons f k)) (own : f.call? = some (e, call'))
    (mark : call'.mark = call.mark) (frames : call'.frames.length ≤ call.frames.length) :
    p.Works w e call k := by
  refine .goes own mark (fun m _ => Nat.le_trans frames (Nat.le_max_left ..)) (h.world.charges e)
    upon ?_ ?_
  · rw [h.calls, Pending.calls, own]
    rfl
  · rw [← Pending.pacers_cons (f := f) (by cases f <;> trivial) k]
    exact h.pacers

theorem Works.after {call call' : MachineCall} {k : Pending .call}
    (h' : p.Works w₁ e call' k) (h : w.Frugal w₁) (mark : call'.mark = call.mark)
    (frames : call'.frames.length ≤ call.frames.length) : p.Works w e call k := by
  have hends : w₁.Discharges e call'.mark p.world → w.Discharges e call.mark p.world := fun world =>
    h.comp (fun e' m m' m'' hf hd => ⟨hf.toSober.trans hd.1, by rw [hd.2, hf.allocated]⟩)
      (mark ▸ world)
  cases h' with
  | goes own mark' frames' world upon calls pacers =>
    refine .goes own (mark'.trans mark) (fun m hm => ?_)
      (h.comp (fun e' m m' m'' hf hc => ?_) world) upon calls (pacers.after h)
    · have hrel := h e
      rw [hm] at hrel
      generalize hm₁ : w₁.machine? e = o at hrel
      cases hrel with
      | @some _ m₁ hf =>
        have := frames' m₁ hm₁
        rw [hf.limits] at this
        omega
    · exact ⟨hf.charged_trans hc.1, fun he => (hc.2 he).trans hf.allocated⟩
  | returns world result control => exact .returns (hends world) result control
  | unwinds world payload control => exact .unwinds (hends world) payload control

end Process

theorem Op.Outcome.works {op : Op} {call : MachineCall} {k : Pending .call}
    (h : op.Outcome w e call k p) : p.Works w e call k := by
  have hcharges := (World.Frugal.refl w).charges e
  have hset : ∀ {m m' : Machine}, w.machine? e = some m → (m.Charged m') →
      w.Charges e (w.setMachine e m') := fun hm h =>
    World.machines_setMachine (fun e' he m => ⟨(Machine.Frugal.refl m).charged, fun _ => rfl⟩) hm
      ⟨h, fun he => absurd rfl he⟩
  cases h with
  | @next m m' frames machine effect =>
    have hcharged := m.charged_execute op call.frames
    rw [effect] at hcharged
    refine .goes (f := .machine e { call with frames }) rfl rfl (fun m₁ hm₁ => ?_)
      (hset machine hcharged) .refl rfl (.of_eq rfl)
    obtain rfl := Option.some.inj (machine.symm.trans hm₁)
    exact Machine.length_execute effect
  | @stop m m' fault machine effect =>
    have hcharged := m.charged_execute op call.frames
    rw [effect] at hcharged
    exact World.works_failMachine (hset machine hcharged) call fault k
  | @enters name turn w₁ host machines =>
    exact (World.idles_callBack (World.frugal_of_eq machines) turn.actions
      (.cons (.host e call name turn) k)).works (World.upon_callBack ..) rfl rfl (Nat.le_refl _)
  | @passes name =>
    exact (World.idles_deliver (w.frugal_logged (.host name)) (.cons (.machine e call) k) ()).works
      .refl rfl rfl (Nat.le_refl _)
  | unknown => exact World.works_failMachine hcharges call _ k
  | absent hnone =>
    refine .returns (fun e' => ?_) _ rfl
    by_cases he : e' = e
    · rw [he, World.deliver, hnone]
      exact .none
    · rw [World.deliver]
      cases w.machine? e' with
      | none => exact .none
      | some m => exact .some ⟨.refl m, by rw [if_neg he]⟩

namespace World

theorem Recounts.frugal (h : w.Recounts w₁) : w.Frugal w₁ := fun e => by
  obtain he | he := h e
  · rw [he]
    cases w.machine? e with
    | none => exact .none
    | some m => exact .some (.refl m)
  · rw [he]
    cases w.machine? e with
    | none => exact .none
    | some m => exact .some (Machine.frugal_of_height rfl rfl (Nat.le_refl _))

theorem embarks_stepTask (w : World) (q : Nat) (id : TaskId) (task : Task) (k : Pending .verdict) :
    (w.stepTask q id task k).Embarks w k.calls k.pacers := by
  have hallows : w.Allows Frugal q id task :=
    { refl := .refl w
      trans := Frugal.trans
      log := fun w₁ event _ => w₁.frugal_logged event
      rewrite := fun w₁ _ _ _ => w₁.frugal_modifyQueue q _
      hook := fun w₁ t _ _ => frugal_of_eq (machine?_installHook w₁ q t.engine)
      alarm := fun _ => (grants_interruptAll (E := False) w q rfl).frugal }
  obtain ⟨s, hopens, hs⟩ := w.exists_opens q id task
  have hfrugal : w.Frugal s.world := hopens.rel hallows
  rw [hs k]
  cases hopens with
  | rests | ends | bites => exact .idles (idles_deliver hfrugal k _)
  | runs turned actions =>
    refine .idles ((idles_callBack hfrugal actions (.cons _ k)).lower ?_)
    cases turned <;> exact ⟨rfl, rfl⟩
  | calls t => exact (embarks_callProtected hfrugal t.engine t.key .traceback _).lower ⟨rfl, rfl⟩

theorem Walks.embarks {k : Pending a} (h : w.Walks True k p) : p.Embarks w k.calls k.pacers := by
  induction h with
  | rests noted result =>
    refine .idles (idles_deliver ?_ _ result)
    obtain rfl | ⟨q, _, _, rfl⟩ := noted
    · exact .refl _
    · exact w.frugal_modifyQueue q _
  | @enters q id task walk k queued =>
    exact ((embarks_stepTask _ q id task (.cons (.turn q id walk) k)).lower ⟨rfl, rfl⟩).after
      (w.frugal_modifyQueue q _)
  | @awaited _ _ f _ _ awaits _ ih =>
    have hf : f.call? = none ∧ f.pacer? = none := by cases f <;> trivial
    exact ih.lower hf

theorem idles_removeTask (w : World) (q : Nat) (Q : Queue) (id : TaskId) (k : Pending .reply) :
    (w.removeTask q Q id k).Idles w k.calls k.pacers := by
  have hremoves := withdraws_removeTask w q Q id k
  generalize w.removeTask q Q id k = p at hremoves ⊢
  cases hremoves with
  | missing reply => exact idles_deliver (.refl w) k reply
  | holds => exact idles_deliver (w.frugal_setQueue q _) k _
  | destroys => exact (idles_destroy (w.frugal_setQueue q _) _ _).lower ⟨rfl, rfl⟩

theorem idles_performOnQueue {action : QueueAction Action} (hQ : w.queue? q = some Q)
    (hrun : (Action.queue q action).run? = none) (k : Pending .reply) :
    (w.performOnQueue q Q action k).Idles w k.calls k.pacers := by
  cases hremoved : (Action.queue q action).removed? with
  | none =>
    obtain ⟨w', reply, hgrants, heq⟩ := exists_performOnQueue_eq hQ hrun hremoved
    rw [heq]
    exact idles_deliver hgrants.frugal k reply
  | some name =>
    obtain rfl := Action.eq_of_removed? hremoved
    exact w.idles_removeTask q Q _ k

theorem frugal_serviced {E E' : Engine} {action : EngineAction Action} (h : E.Serviced action E') :
    Option.Rel Machine.Frugal E.machine? E'.machine? := by
  have hset : ∀ {m m' : Machine}, E.machine? = some m → m.Frugal m' →
      Option.Rel Machine.Frugal E.machine? (E.setMachine m').machine? := by
    intro m m' hm hfrugal
    cases E with
    | machine =>
      cases hm
      exact .some hfrugal
    | pacer | inert => cases hm
  cases h with
  | loads loaded => exact Engine.frugal_load loaded
  | references referenced => exact Engine.frugal_reference? referenced
  | unreferences key =>
    exact Engine.frugal_map (E.machine?_unreference key) fun _ =>
      Machine.frugal_of_height rfl rfl (Nat.le_refl _)
  | hooks | clears | hosts | triggers => exact Engine.frugal_of_eq (by simp)
  | truncates height => exact Engine.frugal_map (E.machine?_setTop height) fun m => m.frugal_truncate height
  | pushes before pushed => exact hset before (Machine.frugal_push? pushed)
  | pops before popped =>
    obtain rfl := Machine.popInt?_eq_some popped
    exact hset before (Machine.frugal_of_height rfl rfl (Nat.sub_le ..))

theorem embarks_performOnEngine {E : Engine} (hE : w.engine? e = some E)
    (action : EngineAction Action) (k : Pending .reply) :
    (w.performOnEngine e E action k).Embarks w k.calls k.pacers := by
  obtain ⟨s, hruns, hs⟩ := exists_runs hE action
  rw [hs]
  have hfrugal : w.Frugal s.world := hruns.rel (.refl w) Frugal.trans (fun w₁ _ => w₁.frugal_logged _)
    fun serviced => frugal_setEngine hE (frugal_serviced serviced)
  cases s with
  | answers w' reply => exact .idles (idles_deliver hfrugal k reply)
  | calls w' e key handler =>
    exact (embarks_callProtected hfrugal e key handler _).lower ⟨rfl, rfl⟩

theorem embarks_perform (w : World) (action : Action) (k : Pending .reply) :
    (w.perform action k).Embarks w k.calls k.pacers := by
  cases hrun : action.run? with
  | some q => exact (walks_perform hrun w k).embarks
  | none =>
    cases action with
    | advance ms =>
      rw [perform]
      exact .idles (idles_deliver (frugal_of_eq (machine?_advance w ms)) k _)
    | setClock ms =>
      rw [perform]
      exact .idles (idles_deliver (frugal_of_eq (machine?_setClock w ms)) k _)
    | unwind message => exact .idles (idles_unwind (.refl w) _ k)
    | alive q => exact .idles (idles_deliver (.refl w) k _)
    | engine e action =>
      rw [perform]
      split
      · exact .idles (idles_deliver (.refl w) k _)
      · next hE => exact embarks_performOnEngine hE action k
    | queue q action =>
      rw [perform]
      split
      · exact .idles (idles_deliver (.refl w) k _)
      · next hQ => exact .idles (idles_performOnQueue hQ hrun k)

end World

namespace Activation

variable {f : Activation a .call} {call : MachineCall}

/-- A transition of a protected call itself, at an instruction or when a hook or a host function has
returned. -/
theorem works_resume (own : f.call? = some (e, call)) (result : a.Result) (w : World)
    (k : Pending .call) : (f.resume result w k).Works w e call k := by
  have hadvances := f.advances_resume own result w k
  have hcharges := (World.Frugal.refl w).charges e
  generalize f.resume result w k = P at hadvances ⊢
  cases hadvances with
  | ends => cases own; exact World.works_leaveMachine hcharges call _ k
  | @hook _ _ op frames _ _ _ due fetched world =>
    cases own
    exact (World.idles_fireHook world.frugal _ _ _ (.cons (.counted e { call with frames } op) k)).works
      (World.upon_fireHook ..) rfl rfl (Program.length_fetch fetched).2
  | performs executes _ world _ outcome =>
    obtain ⟨rfl, frames, rfl, rfl | hfetch⟩ := call_of_executes? own executes
    · exact outcome.works.after world.frugal rfl (Nat.le_refl _)
    · exact outcome.works.after world.frugal rfl (Program.length_fetch hfetch).2
  | returned =>
    cases own
    exact (World.idles_deliver (.refl w) (.cons (.machine e call) k) ()).works .refl rfl rfl
      (Nat.le_refl _)
  | failed => cases own; exact World.works_failMachine hcharges call _ k

theorem works_unwind (own : f.call? = some (e, call)) (payload : Payload) (w : World)
    (k : Pending .call) : (f.unwind payload w k).Works w e call k := by
  have hends : ((w.modifyMachine e fun m =>
      { m with allocated := call.mark }).unwind payload k).Works w e call k :=
    .unwinds (((World.Frugal.refl w).charges e).discharges fun m =>
      ⟨⟨rfl, Nat.le_max_left ..⟩, rfl⟩) payload rfl
  cases f with
  | machine | counted | host => cases own; exact hends
  | _ => cases own

theorem embarks_resume {f : Activation a b} (hf : f.call? = none) (result : a.Result) (w : World)
    (k : Pending b) : (f.resume result w k).Embarks w k.calls (Pending.cons f k).pacers := by
  cases f with
  | routine action rest complaint =>
    exact .idles (World.idles_performAll (w.frugal_logged _) rest _ k)
  | unheeded | idle | rested | passReply | runReply | doneReply =>
    exact .idles (World.idles_deliver (.refl w) k _)
  | firing q id => exact .idles (w.idles_timerFired q id k)
  | quiet name onDrop =>
    exact .idles ((World.idles_destroyCallback (.refl w) name onDrop _).lower ⟨rfl, rfl⟩)
  | script q id t base => exact .idles (w.idles_scriptReturned q id t base result k)
  | turn q id walk => exact .idles (w.idles_endTurn q id walk result k)
  | walk q next walk => exact (w.walks_walkOn q next walk k (.inl trivial)).embarks
  | drain q => exact (w.walks_drainOn q k).embarks
  | forever q =>
    cases result with
    | stopped => exact .idles (World.idles_deliver (.refl w) k _)
    | drained => exact (w.walks_startRun q (.cons (.forever q) k)).embarks.lower ⟨rfl, rfl⟩
  | callReply =>
    cases result with
    | ok => exact .idles (World.idles_deliver (.refl w) k _)
    | error => exact .idles (World.idles_deliver (.refl w) k _)
  | machine | counted | host => cases hf
  | pacer e call => exact .idles (w.idles_runPacer e call k)
  | triggered e instruction depth call =>
    exact .idles (World.idles_tickPacer (.refl w) e instruction depth call k)
  | sweep rest =>
    cases rest with
    | nil => exact .idles (World.idles_deliver (.refl w) k _)
    | cons task rest => exact .idles ((World.idles_destroy (.refl w) task _).lower ⟨rfl, rfl⟩)
  | cleanup payload => exact .idles (World.idles_unwind (.refl w) payload k)

/-- A payload leaves an activation that is no protected call of a machine. It ends everything if another
payload is on its way out. -/
theorem idles_unwind {f : Activation a b} (hf : f.call? = none) (payload : Payload) (w : World)
    (k : Pending b) : (f.unwind payload w k).Idles w k.calls k.pacers ∨ f.unwind payload w k = ⟨w, .aborted⟩ := by
  cases f with
  | quiet name onDrop =>
    exact .inl ((World.idles_destroyCallback (.refl w) name onDrop _).lower ⟨rfl, rfl⟩)
  | script q id t base =>
    left
    rw [unwind]
    split
    · exact w.idles_scriptReturned q id t base _ k
    · exact World.idles_unwind (.refl w) payload k
  | turn q id walk => exact .inl (w.idles_abandonTurn q payload k)
  | machine | counted | host => cases hf
  | sweep rest =>
    exact .inl (((World.idles_deliver (.refl w)
      (.cons (.sweep rest) (.cons (.cleanup payload .done) k)) ()).lower ⟨rfl, rfl⟩).lower ⟨rfl, rfl⟩)
  | cleanup => exact .inr rfl
  | _ => exact .inl (World.idles_unwind (.refl w) payload k)

end Activation

namespace Process

inductive Traffic (p : Process) : Prop
  | embarks (embarks : p.step.Embarks p.world p.control.calls p.control.pacers)
  | works {e : Nat} {call : MachineCall} {k : Pending .call}
      (before : p.control.calls = (e, call) :: k.calls) (works : p.step.Works p.world e call k)
      (pacers : p.control.pacers = k.pacers)
  | aborts (world : p.step.world = p.world) (aborted : p.step.control = .aborted)

theorem traffic_deliver (w : World) (f : Activation a b) (result : a.Result) (k : Pending b) :
    Traffic ⟨w, .deliver result (.cons f k)⟩ := by
  cases hf : f.call? with
  | none =>
    refine .embarks ?_
    rw [step_deliver, Control.calls, Pending.calls_cons hf]
    exact f.embarks_resume hf result w k
  | some own =>
    cases f with
    | machine | counted | host =>
      exact .works rfl (by rw [step_deliver]; exact Activation.works_resume rfl result w k) rfl
    | _ => cases hf

theorem traffic_unwind (w : World) (f : Activation a b) (payload : Payload) (k : Pending b) :
    Traffic ⟨w, .unwind payload (.cons f k)⟩ := by
  cases hf : f.call? with
  | none =>
    obtain hidles | haborted := f.idles_unwind hf payload w k
    · refine .embarks (.idles ?_)
      rw [step_unwind, Control.calls, Pending.calls_cons hf]
      exact ⟨hidles.world, hidles.calls, fun e he =>
        (hidles.pacers e he).imp_left (List.mem_append_right _)⟩
    · rw [← step_unwind] at haborted
      exact .aborts (by rw [haborted]) (by rw [haborted])
  | some own =>
    cases f with
    | machine | counted | host =>
      exact .works rfl (by rw [step_unwind]; exact Activation.works_unwind rfl payload w k) rfl
    | _ => cases hf

theorem traffic (p : Process) : p.Traffic := by
  have hsame : p.step.world = p.world → p.step.control.calls = p.control.calls →
      p.step.control.pacers = p.control.pacers → p.Traffic := fun hworld hcalls hpacers =>
    .embarks (.idles ⟨by rw [hworld]; exact .refl _, hcalls, .of_eq hpacers⟩)
  obtain ⟨w, control⟩ := p
  cases control with
  | perform action k => exact .embarks (w.embarks_perform action k)
  | deliver result k =>
    cases k with
    | outermost => exact hsame rfl rfl rfl
    | cons f k => exact traffic_deliver w f result k
  | unwind payload k =>
    cases k with
    | outermost => exact hsame rfl rfl rfl
    | cons f k => exact traffic_unwind w f payload k
  | answered | escaped | aborted => exact hsame rfl rfl rfl

theorem paces_step (p : Process) : p.step.Paces p.world p.control.pacers := by
  cases p.traffic with
  | embarks embarks =>
    cases embarks with
    | idles idles => exact idles.pacers
    | calls _ _ _ _ _ pacers => exact pacers
  | works _ works pacers =>
    rw [pacers]
    cases works with
    | goes _ _ _ _ _ _ pacers => exact pacers
    | returns _ _ control | unwinds _ _ control => exact .of_eq (by rw [control]; rfl)
  | aborts _ aborted => exact fun e he => by rw [aborted] at he; cases he

end Process

end TaskLoop
