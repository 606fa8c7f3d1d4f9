import Mathlib.Data.Option.Defs
import TaskLoop.Session.World
import TaskLoop.Proofs.Edit

namespace TaskLoop

namespace Machine

variable {m m' : Machine}

theorem push?_eq_some {v : Value} :
    m.push? v = some m' ↔
      m.stack.height < m.limits.stack.toNat ∧ { m with stack := m.stack.push v } = m' := by
  rw [push?, Option.ite_none_right_eq_some, Option.some.injEq]

theorem popInt?_eq_some {n : Int64} (h : m.popInt? = some (n, m')) :
    m' = { m with stack := m.stack.pop } := by
  unfold popInt? at h
  split at h
  · cases h; rfl
  · cases h

/-- A source that is loaded has been read, and there was room for its program on the stack. -/
theorem load_eq_ok {chunk : String} {bytes : List UInt8} (h : m.load chunk bytes = .ok m') :
    ∃ program, readSource chunk bytes = .ok program ∧ m.stack.height < m.limits.stack.toNat ∧
      m' = { m with stack := m.stack.push (.callable program) } := by
  unfold load at h
  split at h
  · cases h
  · split at h
    · cases h
    · next program hprogram =>
      split at h
      · cases h
      · next hpush =>
        cases h
        obtain ⟨hroom, rfl⟩ := push?_eq_some.1 hpush
        exact ⟨program, hprogram, hroom, rfl⟩

theorem reference?_eq_some {key : Nat} (h : m.reference? = some (key, m')) :
    ∃ v, key = (m.registry.insert v).1 ∧
      m' = { m with stack := m.stack.pop, registry := (m.registry.insert v).2 } := by
  unfold reference? at h
  split at h
  · cases h
  · next v m₁ hpop =>
    obtain ⟨_, _, he⟩ := Option.map_eq_some_iff.1 hpop
    cases he
    cases h
    exact ⟨v, rfl, rfl⟩

end Machine

def Effect.All (P : Machine → Prop) : Effect → Prop
  | .next m _ => P m
  | .stop m _ => P m
  | .host _ => True

def Effect.HasCounted (n : Nat) : Effect → Prop
  | .next m _ => m.executed = n
  | .stop m _ => m.executed = n
  | .host _ => True

namespace Machine

variable {m : Machine}

/-- What depends neither on the stack nor on what is allocated outlasts every instruction. -/
theorem all_execute {P : Machine → Prop}
    (hP : ∀ (m : Machine) (stack : ValueStack) (allocated : UInt64), P m →
      P { m with stack, allocated }) (h : P m) (op : Op) (frames : List CallFrame) :
    (m.execute op frames).All P := by
  have hstack : ∀ {m : Machine} (stack : ValueStack), P m → P { m with stack } :=
    fun stack h => hP _ stack _ h
  have hpush : ∀ {m : Machine} (v : Value), P m → (m.pushing v frames).All P := fun {m} v h => by
    unfold pushing push?
    split_ifs
    · exact hstack _ h
    · exact h
  have hpop : ∀ {m m' : Machine} {v : Value}, P m → m.pop? = some (v, m') → P m' := by
    intro m m' v h hpopped
    simp only [pop?, Option.map_eq_some_iff, Prod.mk.injEq] at hpopped
    obtain ⟨_, _, _, rfl⟩ := hpopped
    exact hstack _ h
  cases op with
  | push v => exact hpush _ h
  | pop | jumpz =>
    simp only [execute]
    split
    · exact h
    · next hpopped => exact hpop h hpopped
  | add | sub =>
    simp only [execute, arithmetic]
    split
    · exact h
    · next hrhs =>
      split
      · exact hpop h hrhs
      · next hlhs =>
        have hleft := hpop (hpop h hrhs) hlhs
        split
        · exact hpush _ hleft
        · exact hleft
  | dup =>
    simp only [execute]
    cases m.stack.top? with
    | none => exact h
    | some v => exact hpush v h
  | jump | ret | raise => exact h
  | host name => trivial
  | call function =>
    simp only [execute]
    split <;> exact h
  | alloc bytes =>
    simp only [execute, charge]
    split
    · exact h
    · exact hP m m.stack _ h

theorem hasCounted_execute (m : Machine) (op : Op) (frames : List CallFrame) :
    (m.execute op frames).HasCounted m.executed := by
  have hall := all_execute (P := (·.executed = m.executed)) (fun _ _ _ h => h) rfl op frames
  cases heffect : m.execute op frames with
  | next | stop => rw [heffect] at hall; exact hall
  | host => trivial

theorem registry_execute (m : Machine) (op : Op) (frames : List CallFrame) :
    (m.execute op frames).All (·.registry = m.registry) :=
  all_execute (P := (·.registry = m.registry)) (fun _ _ _ h => h) rfl op frames

end Machine

namespace Engine

def pulse : Engine → Option (Option Probe × Nat)
  | .machine e => some (e.probe, e.machine.executed)
  | _ => none

variable {E E' : Engine}

theorem load_machine {e : MachineEngine} {chunk : String} {source : List UInt8}
    (h : (machine e).load chunk source = .ok E') :
    ∃ m, e.machine.load chunk source = .ok m ∧ E' = machine { e with machine := m } := by
  simp only [load] at h
  cases hm : e.machine.load chunk source with
  | error error => rw [hm] at h; cases h
  | ok m => rw [hm] at h; cases h; exact ⟨m, rfl, rfl⟩

theorem load_pacer {e : PacerEngine} {chunk : String} {source : List UInt8}
    (h : (pacer e).load chunk source = .ok E') : ∃ p, E' = pacer { e with pacer := p } := by
  simp only [load] at h
  cases hp : e.pacer.load source with
  | error error => rw [hp] at h; cases h
  | ok p => rw [hp] at h; cases h; exact ⟨p, rfl⟩

theorem pulse_load {chunk : String} {source : List UInt8} (h : E.load chunk source = .ok E') :
    E'.pulse = E.pulse := by
  cases E with
  | inert => cases h; rfl
  | machine e =>
    obtain ⟨m, hm, rfl⟩ := load_machine h
    obtain ⟨program, _, _, rfl⟩ := Machine.load_eq_ok hm
    rfl
  | pacer e =>
    obtain ⟨p, rfl⟩ := load_pacer h
    rfl

theorem pulse_reference? {key : Nat} (h : E.reference? = some (key, E')) :
    E'.pulse = E.pulse := by
  cases E with
  | inert => cases h
  | machine e =>
    simp only [reference?, Option.map_eq_some_iff, Prod.mk.injEq] at h
    obtain ⟨⟨_, m⟩, hm, _, rfl⟩ := h
    obtain ⟨v, _, rfl⟩ := Machine.reference?_eq_some hm
    rfl
  | pacer e =>
    simp only [reference?, Option.map_eq_some_iff, Prod.mk.injEq] at h
    obtain ⟨_, _, _, rfl⟩ := h
    rfl

@[simp] theorem pulse_unreference (E : Engine) (key : Nat) :
    (E.unreference key).pulse = E.pulse := by cases E <;> rfl

@[simp] theorem pulse_setTop (E : Engine) (height : Nat) : (E.setTop height).pulse = E.pulse := by
  cases E <;> rfl

@[simp] theorem pulse_setHost (E : Engine) (name : String) (calls : List (HostCall Action)) :
    (E.setHost name calls).pulse = E.pulse := by cases E <;> rfl

@[simp] theorem pulse_setTrigger (E : Engine) (trigger : Option (Nat × List Action)) :
    (E.setTrigger trigger).pulse = E.pulse := by cases E <;> rfl

@[simp] theorem pulse_pushChunk (E : Engine) (chunk : PacerChunk) :
    (E.pushChunk chunk).pulse = E.pulse := by cases E <;> rfl

@[simp] theorem pulse_popChunk (E : Engine) : E.popChunk.pulse = E.pulse := by cases E <;> rfl

theorem pulse_setMachine {m m' : Machine} (hm : E.machine? = some m)
    (h : m'.executed = m.executed) : (E.setMachine m').pulse = E.pulse := by
  cases E with
  | machine e => cases hm; simp [setMachine, pulse, h]
  | pacer e => rfl
  | inert => rfl

@[simp] theorem pulse_count (E : Engine) :
    E.count.pulse = E.pulse.map fun (probe, n) => (probe, n + 1) := by cases E <;> rfl

@[simp] theorem pulse_setHook (E : Engine) (hook : Hook) (every : Nat) :
    (E.setHook hook every).pulse =
      E.pulse.map fun (_, n) => (some ⟨hook, max every 1, max every 1⟩, n) := by
  cases E <;> rfl

@[simp] theorem pulse_clearHook (E : Engine) :
    E.clearHook.pulse = E.pulse.map fun (_, n) => (none, n) := by cases E <;> rfl

@[simp] theorem pulse_setProbe (E : Engine) (probe : Option Probe) :
    (E.setProbe probe).pulse = E.pulse.map fun (_, n) => (probe, n) := by cases E <;> rfl

end Engine

/-- The observer of the queue may have been told something; nothing else of the queue has changed. -/
def Queue.Notified (Q Q' : Queue) : Prop := ∃ messages, Q' = { Q with messages }

theorem Queue.Notified.refl (Q : Queue) : Q.Notified Q := ⟨Q.messages, rfl⟩

theorem Queue.Notified.trans {Q Q' Q'' : Queue} (h : Q.Notified Q') (h' : Q'.Notified Q'') :
    Q.Notified Q'' := by
  obtain ⟨_, rfl⟩ := h
  obtain ⟨messages, rfl⟩ := h'
  exact ⟨messages, rfl⟩

def Event.ofTurn : Event → Bool
  | .step _ | .fire _ _ | .quiet _ _ => true
  | _ => false

def Event.dropped? : Event → Option String
  | .drop name => some name
  | _ => none

namespace World

def pulse (w : World) (e : Nat) : Option (Option Probe × Nat) := w.engine? e >>= Engine.pulse

variable {w w₁ w₂ w₃ : World} {T U : Nat → Prop} {I J : Nat → TaskId → Prop} {q e : Nat}

@[simp] theorem pulse_modifyQueue (w : World) (q : Nat) (f : Queue → Queue) (e : Nat) :
    (w.modifyQueue q f).pulse e = w.pulse e := rfl

theorem pulse_modifyEngine (w : World) (e : Nat) (f : Engine → Engine) :
    (w.modifyEngine e f).pulse e = w.engine? e >>= fun E => (f E).pulse := by
  simp only [pulse, engine?_modifyEngine]
  cases w.engine? e <;> rfl

theorem pulse_modifyEngine_of_ne (w : World) {e e' : Nat} (f : Engine → Engine) (h : e ≠ e') :
    (w.modifyEngine e f).pulse e' = w.pulse e' := by
  simp [pulse, engine?_modifyEngine_of_ne w f h]

/-- A change of the world: what becomes of each queue, and which engines have their hook or their
count touched. A machine stays a machine, and the clock does not go back. -/
structure Change (R : Nat → Queue → Queue → Prop) (T : Nat → Prop) (w w' : World) : Prop where
  queues : ∀ q, Option.Rel (R q) (w.queue? q) (w'.queue? q)
  machines : ∀ e, (w'.pulse e).isSome = (w.pulse e).isSome
  pulse : ∀ e, ¬ T e → w'.pulse e = w.pulse e
  now : w.now.toNat ≤ w'.now.toNat

abbrev Follows (I : Nat → TaskId → Prop) (T : Nat → Prop) : World → World → Prop :=
  Change (fun q => Queue.Edits (I q)) T

abbrev Moves (I : Nat → TaskId → Prop) (T : Nat → Prop) : World → World → Prop :=
  Change (fun q => Queue.Moves (I q)) T

structure Aside (T : Nat → Prop) (w w' : World) : Prop where
  queues : w'.queues = w.queues
  machines : ∀ e, (w'.pulse e).isSome = (w.pulse e).isSome
  pulse : ∀ e, ¬ T e → w'.pulse e = w.pulse e
  log : ∃ new, w'.log = new ++ w.log ∧ ∀ event ∈ new, event.ofTurn = false
  now : w.now.toNat ≤ w'.now.toNat

theorem rel_refl {R : Queue → Queue → Prop} (hR : ∀ Q, R Q Q) (o : Option Queue) :
    Option.Rel R o o := by
  cases o with
  | none => exact .none
  | some Q => exact .some (hR Q)

theorem rel_mono {R S : Queue → Queue → Prop} (hRS : ∀ {Q Q'}, R Q Q' → S Q Q')
    {o o' : Option Queue} (h : Option.Rel R o o') : Option.Rel S o o' := by
  cases h with
  | none => exact .none
  | some h => exact .some (hRS h)

theorem rel_trans {R : Queue → Queue → Prop} (hR : ∀ {Q Q' Q''}, R Q Q' → R Q' Q'' → R Q Q'')
    {o o' o'' : Option Queue} (h : Option.Rel R o o') (h' : Option.Rel R o' o'') :
    Option.Rel R o o'' := by
  cases h with
  | none => exact h'
  | some h => cases h' with | some h' => exact .some (hR h h')

theorem log_trans {P : Event → Prop} (h : ∃ new, w₂.log = new ++ w₁.log ∧ ∀ event ∈ new, P event)
    (h' : ∃ new, w₃.log = new ++ w₂.log ∧ ∀ event ∈ new, P event) :
    ∃ new, w₃.log = new ++ w₁.log ∧ ∀ event ∈ new, P event := by
  obtain ⟨new, hn, hall⟩ := h
  obtain ⟨new', hn', hall'⟩ := h'
  refine ⟨new' ++ new, by rw [hn', hn, List.append_assoc], fun event hm => ?_⟩
  exact (List.mem_append.1 hm).elim (hall' event) (hall event)

theorem Aside.refl (w : World) : w.Aside T w :=
  ⟨rfl, fun _ => rfl, fun _ _ => rfl, ⟨[], rfl, by simp⟩, Nat.le_refl _⟩

theorem Aside.trans (h : w₁.Aside T w₂) (h' : w₂.Aside T w₃) : w₁.Aside T w₃ := by
  exact ⟨h'.queues.trans h.queues, fun e => (h'.machines e).trans (h.machines e),
    fun e he => (h'.pulse e he).trans (h.pulse e he), log_trans h.log h'.log, Nat.le_trans h.now h'.now⟩

theorem Aside.mono (hTU : ∀ e, T e → U e) (h : w₁.Aside T w₂) : w₁.Aside U w₂ :=
  ⟨h.queues, h.machines, fun e he => h.pulse e fun ht => he (hTU e ht), h.log, h.now⟩

theorem Aside.queue? (h : w₁.Aside T w₂) (q : Nat) : w₂.queue? q = w₁.queue? q := by
  simp [World.queue?, h.queues]

section Change

variable {R S : Nat → Queue → Queue → Prop}

theorem Change.trans (hR : ∀ q Q Q' Q'', R q Q Q' → R q Q' Q'' → R q Q Q'')
    (h : w₁.Change R T w₂) (h' : w₂.Change R T w₃) : w₁.Change R T w₃ :=
  ⟨fun q => rel_trans (R := R q) (hR q _ _ _) (h.queues q) (h'.queues q), fun e => (h'.machines e).trans (h.machines e),
    fun e he => (h'.pulse e he).trans (h.pulse e he), Nat.le_trans h.now h'.now⟩

theorem Change.mono (hRS : ∀ q Q Q', R q Q Q' → S q Q Q') (hTU : ∀ e, T e → U e)
    (h : w₁.Change R T w₂) : w₁.Change S U w₂ :=
  ⟨fun q => rel_mono (R := R q) (hRS q _ _) (h.queues q), h.machines, fun e he => h.pulse e fun ht => he (hTU e ht), h.now⟩

theorem Change.aside (h : w₁.Change R T w₂) (h' : w₂.Aside T w₃) : w₁.Change R T w₃ :=
  ⟨fun q => (h'.queue? q).symm ▸ h.queues q, fun e => (h'.machines e).trans (h.machines e),
    fun e he => (h'.pulse e he).trans (h.pulse e he), Nat.le_trans h.now h'.now⟩

theorem Aside.change (hR : ∀ q Q, R q Q Q) (h : w₁.Aside T w₂) : w₁.Change R T w₂ := by
  refine ⟨fun q => ?_, h.machines, h.pulse, h.now⟩
  rw [h.queue? q]
  exact rel_refl (hR q) _

theorem change_logged (hR : ∀ q Q, R q Q Q) (w : World) (event : Event) : w.Change R T (w.logged event) :=
  ⟨fun q => rel_refl (hR q) _, fun _ => rfl, fun _ _ => rfl, Nat.le_refl _⟩

end Change

/-- Of the queues only what their observers have been told is changed, and nothing is logged that tells of
a turn. -/
structure Beside (w w' : World) : Prop
    extends Change (fun _ => Queue.Notified) (fun _ => True) w w' where
  log : ∃ new, w'.log = new ++ w.log ∧ ∀ event ∈ new, event.ofTurn = false

theorem Aside.beside (h : w₁.Aside T w₂) : w₁.Beside w₂ :=
  ⟨(h.mono fun _ _ => trivial).change fun _ => Queue.Notified.refl, h.log⟩

theorem Beside.refl (w : World) : w.Beside w := (Aside.refl (T := fun _ => True) w).beside

theorem Beside.trans (h : w₁.Beside w₂) (h' : w₂.Beside w₃) : w₁.Beside w₃ :=
  ⟨h.toChange.trans (fun _ _ _ _ => Queue.Notified.trans) h'.toChange, log_trans h.log h'.log⟩

theorem Aside.follows (h : w₁.Aside T w₂) : w₁.Follows I T w₂ :=
  h.change fun _ _ => Relation.ReflTransGen.refl

theorem Follows.refl (w : World) : w.Follows I T w := (Aside.refl w).follows

theorem Follows.trans (h : w₁.Follows I T w₂) (h' : w₂.Follows I T w₃) : w₁.Follows I T w₃ :=
  Change.trans (fun _ _ _ _ => Relation.ReflTransGen.trans) h h'

theorem Follows.mono (hIJ : ∀ q id, I q id → J q id) (hTU : ∀ e, T e → U e)
    (h : w₁.Follows I T w₂) : w₁.Follows J U w₂ :=
  Change.mono (fun q _ _ => Queue.Edits.mono (hIJ q)) hTU h

theorem Follows.moves (h : w₁.Follows I T w₂) : w₁.Moves I T w₂ :=
  Change.mono (fun _ _ _ => Queue.Edits.moves) (fun _ he => he) h

theorem Moves.refl (w : World) : w.Moves I T w := (Follows.refl w).moves

theorem Moves.trans (h : w₁.Moves I T w₂) (h' : w₂.Moves I T w₃) : w₁.Moves I T w₃ :=
  Change.trans (fun _ _ _ _ => Relation.ReflTransGen.trans) h h'

theorem Moves.mono (hIJ : ∀ q id, I q id → J q id) (hTU : ∀ e, T e → U e)
    (h : w₁.Moves I T w₂) : w₁.Moves J U w₂ :=
  Change.mono (fun q _ _ => Queue.Moves.mono (hIJ q)) hTU h

/-- What an engine is changed to keeps its pulse, or the engine is one of those touched. -/
theorem aside_modifyEngine (w : World) (e : Nat) {f : Engine → Engine}
    (hsome : ∀ E, w.engine? e = some E → (f E).pulse.isSome = E.pulse.isSome)
    (hpulse : ∀ E, w.engine? e = some E → ¬ T e → (f E).pulse = E.pulse) :
    w.Aside T (w.modifyEngine e f) := by
  refine ⟨rfl, fun e' => ?_, fun e' he' => ?_, ⟨[], rfl, by simp⟩, Nat.le_refl _⟩
  · by_cases h : e = e'
    · subst h
      rw [pulse_modifyEngine, World.pulse]
      cases hE : w.engine? e with
      | none => rfl
      | some E => exact hsome E hE
    · rw [pulse_modifyEngine_of_ne w f h]
  · by_cases h : e = e'
    · subst h
      rw [pulse_modifyEngine, World.pulse]
      cases hE : w.engine? e with
      | none => rfl
      | some E => exact hpulse E hE he'
    · rw [pulse_modifyEngine_of_ne w f h]

theorem aside_modifyEngine_of_pulse (w : World) (e : Nat) {f : Engine → Engine}
    (h : ∀ E, w.engine? e = some E → (f E).pulse = E.pulse) : w.Aside T (w.modifyEngine e f) :=
  aside_modifyEngine w e (fun E hE => by rw [h E hE]) fun E hE _ => h E hE

theorem setEngine_eq_modifyEngine (w : World) (e : Nat) (E : Engine) :
    w.setEngine e E = w.modifyEngine e fun _ => E := by
  have : w.engines.setIfInBounds e E = w.engines.modify e fun _ => E := by
    apply Array.ext
    · simp
    · intro i hi hi'
      rw [Array.getElem_modify, Array.getElem_setIfInBounds]
  simp [setEngine, modifyEngine, this]

theorem aside_setEngine {E E' : Engine} (hE : w.engine? e = some E) (h : E'.pulse = E.pulse) :
    w.Aside T (w.setEngine e E') := by
  rw [setEngine_eq_modifyEngine]
  refine aside_modifyEngine_of_pulse w e fun E₁ hE₁ => ?_
  obtain rfl : E = E₁ := Option.some.inj (hE.symm.trans hE₁)
  exact h

theorem aside_setMachine {m m' : Machine} (hm : w.machine? e = some m)
    (h : m'.executed = m.executed) : w.Aside T (w.setMachine e m') := by
  refine aside_modifyEngine_of_pulse w e fun E hE => ?_
  simp only [machine?, hE, Option.bind_eq_bind, Option.bind_some] at hm
  exact Engine.pulse_setMachine hm h

theorem setMachine_eq_setEngine {E : Engine} (hE : w.engine? e = some E) (m : Machine) :
    w.setMachine e m = w.setEngine e (E.setMachine m) := by
  have hengines : w.engines.modify e (·.setMachine m) =
      w.engines.setIfInBounds e (E.setMachine m) := by
    apply Array.ext_getElem?
    intro i
    rw [Array.getElem?_modify, Array.getElem?_setIfInBounds]
    split
    · next hi =>
      subst hi
      have hentry : w.engines[e]? = some E := hE
      obtain ⟨hlt, _⟩ := Array.getElem?_eq_some_iff.1 hentry
      rw [hentry, if_pos hlt]
      rfl
    · rfl
  rw [setMachine, modifyEngine, setEngine, hengines]

theorem aside_modifyMachine (w : World) (e : Nat) {f : Machine → Machine}
    (h : ∀ m, (f m).executed = m.executed) : w.Aside T (w.modifyMachine e f) := by
  unfold modifyMachine
  split
  · exact Aside.refl w
  · next m hm => exact aside_setMachine hm (h m)

theorem aside_logged (w : World) {event : Event} (h : event.ofTurn = false) :
    w.Aside T (w.logged event) :=
  ⟨rfl, fun _ => rfl, fun _ _ => rfl, ⟨[event], rfl, by simpa using h⟩, Nat.le_refl _⟩

/-- Names and the clock matter to no queue and to no engine. -/
theorem aside_of_eq (hq : w₂.queues = w₁.queues) (he : w₂.engines = w₁.engines)
    (hl : w₂.log = w₁.log) (hnow : w₁.now.toNat ≤ w₂.now.toNat) : w₁.Aside T w₂ := by
  have hpulse : ∀ e, w₂.pulse e = w₁.pulse e := fun e => by simp [World.pulse, engine?, he]
  exact ⟨hq, fun e => by rw [hpulse], fun e _ => hpulse e, ⟨[], by simp [hl], by simp⟩, hnow⟩

theorem aside_named (w : World) (name : String) (q : Nat) (id : TaskId) :
    w.Aside T (w.named name q id) := by
  unfold named
  split
  · exact Aside.refl w
  · exact aside_of_eq rfl rfl rfl (Nat.le_refl _)

theorem aside_advance (w : World) (ms : UInt64) : w.Aside T (w.advance ms) := by
  rw [advance]
  exact aside_of_eq rfl rfl rfl (toNat_le_saturatingAdd w.now ms)

theorem aside_setClock (w : World) (ms : UInt64) : w.Aside T (w.setClock ms) := by
  rw [setClock]
  refine aside_of_eq rfl rfl rfl ?_
  change w.now.toNat ≤ (if w.now ≤ ms then ms else w.now).toNat
  split
  · next h => exact UInt64.le_iff_toNat_le.1 h
  · exact Nat.le_refl _

theorem aside_handle (w : World) (handler : Handler) (message : String)
    (frames : List TraceFrame) : w.Aside T (w.handle handler message frames).2 := by
  cases handler with
  | traceback => exact Aside.refl w
  | recording => exact aside_logged w rfl

theorem aside_installHook (w : World) (q e : Nat) (h : T e) : w.Aside T (w.installHook q e) := by
  unfold installHook
  split
  · exact Aside.refl w
  · refine aside_modifyEngine w e (fun E _ => ?_) fun _ _ ht => absurd h ht
    simp

theorem queue?_setQueue_self {Q : Queue} (hQ : w.queue? q = some Q) (Q' : Queue) :
    (w.setQueue q Q').queue? q = some Q' := by
  simp only [queue?, Option.join_eq_some_iff] at hQ
  exact queue?_setQueue Q' (Array.getElem?_eq_some_iff.1 hQ).1

theorem queue?_notify {Q : Queue} (hQ : w.queue? q = some Q) (tag : Tag) (text : String) :
    (w.notify q tag text).queue? q = some { Q with messages := Q.messages ++ [⟨tag, text⟩] } := by
  rw [notify, queue?_logged, queue?_modifyQueue, hQ]
  rfl

theorem queue?_push {Q : Queue} (hQ : w.queue? q = some Q) (task : Task) :
    (w.push q task).2.queue? q = some (Q.push task).2 := by
  rw [push, hQ]
  exact queue?_setQueue_self hQ _

theorem engine?_push (w : World) (q : Nat) (task : Task) (e : Nat) :
    (w.push q task).2.engine? e = w.engine? e := by
  rw [push]
  split
  · rfl
  · rfl

theorem modifyQueue_eq_setQueue {Q : Queue} (hQ : w.queue? q = some Q) (f : Queue → Queue) :
    w.modifyQueue q f = w.setQueue q (f Q) := by
  have hentry : w.queues[q]? = some (some Q) := Option.join_eq_some_iff.1 hQ
  have hqueues : w.queues.modify q (Option.map f) = w.queues.setIfInBounds q (some (f Q)) := by
    apply Array.ext_getElem?
    intro i
    rw [Array.getElem?_modify, Array.getElem?_setIfInBounds]
    split
    · next hi =>
      subst hi
      obtain ⟨hlt, _⟩ := Array.getElem?_eq_some_iff.1 hentry
      rw [hentry, if_pos hlt]
      rfl
    · rfl
  rw [modifyQueue, setQueue, hqueues]

theorem modifyQueue_of_none (hQ : w.queue? q = none) (f : Queue → Queue) : w.modifyQueue q f = w := by
  have hqueues : w.queues.modify q (Option.map f) = w.queues := by
    apply Array.ext_getElem?
    intro i
    rw [Array.getElem?_modify]
    split
    · next hi =>
      subst hi
      simp only [queue?] at hQ
      cases hentry : w.queues[q]? with
      | none => rfl
      | some entry =>
        rw [hentry] at hQ
        obtain rfl : entry = none := hQ
        rfl
    · rfl
  rw [modifyQueue, hqueues]

theorem change_setQueue {R : Nat → Queue → Queue → Prop} {Q Q' : Queue} (hR : ∀ q Q, R q Q Q)
    (hQ : w.queue? q = some Q) (h : R q Q Q') : w.Change R T (w.setQueue q Q') := by
  refine ⟨fun q' => ?_, fun _ => rfl, fun _ _ => rfl, Nat.le_refl _⟩
  by_cases hq : q = q'
  · subst hq
    rw [queue?_setQueue_self hQ Q', hQ]
    exact .some h
  · rw [queue?_setQueue_of_ne Q' hq]
    exact rel_refl (hR q') _

theorem change_modifyQueue {R : Nat → Queue → Queue → Prop} {f : Queue → Queue}
    (hR : ∀ q Q, R q Q Q) (h : ∀ Q, w.queue? q = some Q → R q Q (f Q)) :
    w.Change R T (w.modifyQueue q f) := by
  refine ⟨fun q' => ?_, fun _ => rfl, fun _ _ => rfl, Nat.le_refl _⟩
  by_cases hq : q = q'
  · subst hq
    rw [queue?_modifyQueue]
    cases hQ : w.queue? q with
    | none => exact .none
    | some Q => exact .some (h Q hQ)
  · rw [queue?_modifyQueue_of_ne w f hq]
    exact rel_refl (hR q') _

theorem follows_setQueue {Q Q' : Queue} (hQ : w.queue? q = some Q) (h : Q.Edit (I q) Q') :
    w.Follows I T (w.setQueue q Q') :=
  change_setQueue (fun _ _ => .refl) hQ (.single h)

theorem follows_modifyQueue {f : Queue → Queue}
    (h : ∀ Q, w.queue? q = some Q → Q.Edit (I q) (f Q)) : w.Follows I T (w.modifyQueue q f) :=
  change_modifyQueue (fun _ _ => .refl) fun Q hQ => .single (h Q hQ)

theorem follows_notify (w : World) (q : Nat) (tag : Tag) (text : String) :
    w.Follows I T (w.notify q tag text) := by
  refine (follows_modifyQueue fun Q _ => ?_).trans (aside_logged _ rfl).follows
  exact .note Q.stopping Q.stats (Q.messages ++ [⟨tag, text⟩])

theorem beside_notify (w : World) (q : Nat) (tag : Tag) (text : String) :
    w.Beside (w.notify q tag text) := by
  refine ⟨?_, [.status q ⟨tag, text⟩], rfl, by simp [Event.ofTurn]⟩
  have hnotified := change_modifyQueue (T := fun _ => True) (w := w) (q := q)
    (R := fun _ => Queue.Notified) (f := (·.record ⟨tag, text⟩)) (fun _ => Queue.Notified.refl)
    fun Q _ => ⟨Q.messages ++ [⟨tag, text⟩], rfl⟩
  exact hnotified.aside (aside_logged _ rfl)

theorem beside_clearMessages {Q : Queue} (hQ : w.queue? q = some Q) :
    w.Beside (w.setQueue q { Q with messages := [] }) :=
  ⟨change_setQueue (fun _ => Queue.Notified.refl) hQ ⟨[], rfl⟩, [], rfl, by simp⟩

theorem follows_countInterrupts (w : World) (q n : Nat) :
    w.Follows I T (w.modifyQueue q (·.countInterrupts n)) :=
  follows_modifyQueue fun Q _ => .note Q.stopping _ Q.messages

theorem follows_push (w : World) (q : Nat) {task : Task} (fresh : task.armed = false) :
    w.Follows I T (w.push q task).2 := by
  unfold push
  split
  · exact Follows.refl w
  · next Q hQ => exact follows_setQueue hQ (.push task fresh)

def task? (w : World) (q : Nat) (id : TaskId) : Option Task := w.queue? q >>= (·.get? id)

theorem task?_eq_some {task : Task} {id : TaskId} :
    w.task? q id = some task ↔ ∃ Q, w.queue? q = some Q ∧ Q.get? id = some task := by
  simp [task?, Option.bind_eq_some_iff]

theorem task?_modifyQueue {id id' : TaskId} {f : Task → Task} :
    (w.modifyQueue q (·.modify id f)).task? q id' =
      if id' = id then (w.task? q id).map f else w.task? q id' := by
  simp only [task?, queue?_modifyQueue]
  cases w.queue? q with
  | none => simp
  | some Q => simp [Queue.get?_modify]

@[simp] theorem task?_installHook (w : World) (q e q' : Nat) (id : TaskId) :
    (w.installHook q e).task? q' id = w.task? q' id := by
  unfold installHook
  split <;> rfl

/-- A task that takes the interrupt is rewritten, and a script among them gets its hook. -/
theorem interruptTask_cases (w : World) (q : Nat) (id : TaskId) :
    (w.interruptTask q id = (false, w) ∧
      ∀ task, w.task? q id = some task → task.interrupted? = none) ∨
    ∃ task after, w.task? q id = some task ∧ task.interrupted? = some after ∧
      ((∃ t, after = .script t ∧ w.interruptTask q id =
        (true, (w.modifyQueue q (·.modify id fun _ => after)).installHook q t.engine)) ∨
      (∀ t, after ≠ .script t) ∧
        w.interruptTask q id = (true, w.modifyQueue q (·.modify id fun _ => after))) := by
  unfold interruptTask
  split
  · next hnone => exact .inl ⟨rfl, fun task htask => by cases hnone.symm.trans htask⟩
  · next task htask =>
    split
    · next hnone =>
      exact .inl ⟨rfl, fun task' htask' => by cases htask.symm.trans htask'; exact hnone⟩
    · next after hafter =>
      refine .inr ⟨task, after, htask, hafter, ?_⟩
      dsimp only
      split
      · next t => exact .inl ⟨t, rfl, rfl⟩
      · next hscript => exact .inr ⟨hscript, rfl⟩

theorem follows_interruptTask (w : World) (q : Nat) (id : TaskId)
    (hI : ∀ t, w.task? q id = some (.script t) → I q id)
    (hT : ∀ task e, w.task? q id = some task → task.engine? = some e → T e) :
    w.Follows I T (w.interruptTask q id).2 := by
  obtain ⟨hr, _⟩ | ⟨task, after, htask, hafter, hr⟩ := w.interruptTask_cases q id
  · rw [hr]
    exact Follows.refl w
  · have hheir := Task.heir_of_interrupted? hafter
    have hedit : w.Follows I T (w.modifyQueue q (·.modify id fun _ => after)) := by
      refine follows_modifyQueue fun Q hQ => ?_
      have hget : ∀ task', Q.get? id = some task' → task' = task := fun task' h =>
        Option.some.inj ((task?_eq_some.2 ⟨Q, hQ, h⟩).symm.trans htask)
      refine .rewrite id _ (fun task' h => ?_) fun task' h ha => .inr ?_
      · rw [hget task' h]
        exact hheir
      · obtain ⟨t, rfl⟩ := Task.eq_script_of_armed ha
        obtain ⟨t', rfl⟩ := hheir.script
        exact hI t' htask
    obtain ⟨t, rfl, hr⟩ | ⟨_, hr⟩ := hr
    · rw [hr]
      refine hedit.trans (aside_installHook _ q t.engine ?_).follows
      exact hT task t.engine htask hheir.engine.symm
    · rw [hr]
      exact hedit

theorem task?_interruptTask {id id' : TaskId} {task' : Task}
    (h : (w.interruptTask q id).2.task? q id' = some task') :
    ∃ task, w.task? q id' = some task ∧ task.Heir task' := by
  obtain ⟨hr, _⟩ | ⟨task, after, htask, hafter, hr⟩ := w.interruptTask_cases q id
  · rw [hr] at h
    exact ⟨task', h, .refl _⟩
  · have key : (w.modifyQueue q (·.modify id fun _ => after)).task? q id' = some task' := by
      obtain ⟨t, _, hr⟩ | ⟨_, hr⟩ := hr
      · rwa [hr, task?_installHook] at h
      · rwa [hr] at h
    rw [task?_modifyQueue] at key
    split at key
    · next he =>
      subst he
      rw [htask] at key ⊢
      cases key
      exact ⟨task, rfl, Task.heir_of_interrupted? hafter⟩
    · exact ⟨task', key, .refl _⟩

theorem follows_interruptTasks (q : Nat) (ids : List TaskId) (w : World) (n : Nat)
    (hI : ∀ id t, w.task? q id = some (.script t) → I q id)
    (hT : ∀ id task e, w.task? q id = some task → task.engine? = some e → T e) :
    w.Follows I T (ids.foldl (fun (n, w) id =>
      let (delivered, w) := w.interruptTask q id
      (if delivered then n + 1 else n, w)) (n, w)).2 := by
  induction ids generalizing w n with
  | nil => exact Follows.refl w
  | cons id ids ih =>
    have hone := follows_interruptTask w q id (hI id) (hT id)
    refine hone.trans (ih _ _ (fun id' t' h => ?_) fun id' task' e h he => ?_)
    · obtain ⟨task, ht, hheir⟩ := task?_interruptTask h
      obtain ⟨t, rfl⟩ := hheir.script
      exact hI id' t ht
    · obtain ⟨task, ht, hheir⟩ := task?_interruptTask h
      exact hT id' task e ht (hheir.engine.symm.trans he)

theorem follows_interruptAll (w : World) (q : Nat) (watcher : WatcherTask)
    (hI : ∀ id t, w.task? q id = some (.script t) → I q id)
    (hT : ∀ id task e, w.task? q id = some task → task.engine? = some e → T e) :
    w.Follows I T (w.interruptAll q watcher).2 := by
  unfold interruptAll
  exact ((follows_interruptTasks q _ w 0 hI hT).trans (follows_countInterrupts _ q _)).trans
    (follows_push _ q rfl)

/-- A script that is accepted has been loaded and kept by its engine; nothing else has changed. -/
theorem loadScript_eq_ok {key : Nat} {source : List UInt8} {w₁ : World}
    (h : w.loadScript q e source = .ok (key, w₁)) :
    ∃ E E₁ E₂, w.engine? e = some E ∧
      E.load (((w.queue? q).map (·.config.chunkName)).getD "") source = .ok E₁ ∧
      E₁.reference? = some (key, E₂) ∧ w₁ = w.setEngine e E₂ := by
  unfold loadScript at h
  split at h
  · cases h
  · next E hE =>
    dsimp only at h
    split at h
    · cases h
    · next E₁ hload =>
      split at h
      · cases h
      · next key' E₂ hreference =>
        cases h
        exact ⟨E, E₁, E₂, hE, hload, hreference, rfl⟩

theorem aside_loadScript {key : Nat} {source : List UInt8} {w₁ : World}
    (h : w.loadScript q e source = .ok (key, w₁)) : w.Aside T w₁ := by
  obtain ⟨E, E₁, E₂, hE, hload, hreference, rfl⟩ := loadScript_eq_ok h
  exact aside_setEngine hE ((Engine.pulse_reference? hreference).trans (Engine.pulse_load hload))

theorem follows_parseAndStart (w : World) (q e : Nat) (source : List UInt8) :
    w.Follows I T (w.parseAndStart q e source).2 := by
  unfold parseAndStart
  split
  · exact follows_notify w q _ _
  · next key w₁ hload =>
    exact (((aside_loadScript hload).follows.trans (follows_notify _ q _ _)).trans
      (follows_notify _ q _ _)).trans (follows_push _ q rfl)

end World

end TaskLoop
