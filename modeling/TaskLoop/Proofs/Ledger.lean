import Mathlib.Logic.Function.Basic
import TaskLoop.Proofs.Machines
import TaskLoop.Proofs.Turnover

namespace TaskLoop

variable {a b c : Hole} {w w' : World} {q e : Nat} {id : TaskId} {Q Q' : Queue} {p : Process}

/-- What a script claims: a key of an engine, whether the key is to be freed in the end, and whether
its call has been made. -/
@[ext]
structure Claim where
  engine : Nat
  key : Nat
  release : Bool
  ran : Bool
deriving DecidableEq, Repr

def ScriptTask.claim (t : ScriptTask) : Claim := ⟨t.engine, t.key, t.release, t.ran⟩

def Task.claim? : Task → Option Claim
  | .script t => some t.claim
  | _ => none

theorem Task.claim?_interrupted {task after : Task} (h : task.interrupted? = some after) :
    after.claim? = task.claim? := by
  cases task with
  | watcher => cases h
  | idle | timer | script => cases h; rfl

def Queue.claim? (Q : Queue) (id : TaskId) : Option Claim := (Q.get? id).bind Task.claim?

/-- What queued scripts claim, what running scripts claim that have left their queue, and what the
registries of the machines hold. -/
@[ext]
structure Ledger where
  claims : Nat × TaskId → Option Claim
  held : Nat → Option Claim
  registry : Nat → Option (Registry Value)

namespace Ledger

variable (L : Ledger)

def setClaim (x : Nat × TaskId) (claim : Option Claim) : Ledger :=
  { L with claims := Function.update L.claims x claim }

def setHeld (q : Nat) (claim : Option Claim) : Ledger :=
  { L with held := Function.update L.held q claim }

def setRegistry (e : Nat) (registry : Option (Registry Value)) : Ledger :=
  { L with registry := Function.update L.registry e registry }

def keep (e : Nat) (value : Value) : Ledger :=
  L.setRegistry e ((L.registry e).map fun registry => (registry.insert value).2)

def free (e key : Nat) : Ledger := L.setRegistry e ((L.registry e).map (·.erase key))

def release (claim : Claim) : Ledger := if claim.release then L.free claim.engine claim.key else L

/-- The record of a script is destroyed: it gives its key back if its call has not been made. -/
def discard : Option Claim → Ledger
  | none => L
  | some claim => if claim.ran then L else L.release claim

def drop (q : Nat) : Ledger :=
  { L with claims := fun x => if x.1 = q then none else L.claims x
           held := Function.update L.held q none }

section

variable (x y : Nat × TaskId) (q q' e e' key : Nat) (claim : Option Claim) (value : Value)

@[simp] theorem claims_setClaim :
    (L.setClaim x claim).claims y = if y = x then claim else L.claims y :=
  Function.update_apply ..

@[simp] theorem held_setClaim : (L.setClaim x claim).held = L.held := rfl

@[simp] theorem registry_setClaim : (L.setClaim x claim).registry = L.registry := rfl

@[simp] theorem claims_setHeld : (L.setHeld q claim).claims = L.claims := rfl

@[simp] theorem held_setHeld :
    (L.setHeld q claim).held q' = if q' = q then claim else L.held q' :=
  Function.update_apply ..

@[simp] theorem registry_setHeld : (L.setHeld q claim).registry = L.registry := rfl

@[simp] theorem claims_setRegistry (registry : Option (Registry Value)) :
    (L.setRegistry e registry).claims = L.claims := rfl

@[simp] theorem held_setRegistry (registry : Option (Registry Value)) :
    (L.setRegistry e registry).held = L.held := rfl

@[simp] theorem registry_setRegistry (registry : Option (Registry Value)) :
    (L.setRegistry e registry).registry e' = if e' = e then registry else L.registry e' :=
  Function.update_apply ..

@[simp] theorem claims_keep : (L.keep e value).claims = L.claims := rfl

@[simp] theorem held_keep : (L.keep e value).held = L.held := rfl

@[simp] theorem claims_free : (L.free e key).claims = L.claims := rfl

@[simp] theorem held_free : (L.free e key).held = L.held := rfl

@[simp] theorem claims_release (claim : Claim) : (L.release claim).claims = L.claims := by
  unfold release
  split <;> rfl

@[simp] theorem held_release (claim : Claim) : (L.release claim).held = L.held := by
  unfold release
  split <;> rfl

@[simp] theorem claims_drop : (L.drop q).claims x = if x.1 = q then none else L.claims x := rfl

@[simp] theorem held_drop : (L.drop q).held q' = if q' = q then none else L.held q' :=
  Function.update_apply ..

@[simp] theorem registry_drop : (L.drop q).registry = L.registry := rfl

@[simp] theorem claims_discard : (L.discard claim).claims = L.claims := by
  unfold discard
  split
  · rfl
  · split
    · rfl
    · exact L.claims_release _

@[simp] theorem held_discard : (L.discard claim).held = L.held := by
  unfold discard
  split
  · rfl
  · split
    · rfl
    · exact L.held_release _

end

@[simp] theorem setClaim_eq_self (x : Nat × TaskId) : L.setClaim x (L.claims x) = L := by
  rw [setClaim, Function.update_eq_self]

@[simp] theorem setHeld_eq_self (q : Nat) : L.setHeld q (L.held q) = L := by
  rw [setHeld, Function.update_eq_self]

@[simp] theorem setRegistry_eq_self (e : Nat) : L.setRegistry e (L.registry e) = L := by
  rw [setRegistry, Function.update_eq_self]

end Ledger

theorem Machine.reference?_push (m : Machine) (value : Value) :
    { m with stack := m.stack.push value }.reference? =
      some ((m.registry.insert value).1, { m with registry := (m.registry.insert value).2 }) := rfl

namespace Engine

variable {E E₁ E₂ : Engine} {chunk : String} {source : List UInt8}

theorem registry_load (h : E.load chunk source = .ok E₁) :
    E₁.machine?.map (·.registry) = E.machine?.map (·.registry) := by
  cases E with
  | inert => cases h; rfl
  | machine e =>
    obtain ⟨m, hm, rfl⟩ := load_machine h
    obtain ⟨program, _, _, rfl⟩ := Machine.load_eq_ok hm
    rfl
  | pacer e =>
    obtain ⟨p, rfl⟩ := load_pacer h
    rfl

theorem registry_reference {key : Nat} (hload : E.load chunk source = .ok E₁)
    (hreference : E₁.reference? = some (key, E₂)) :
    ∃ value, E₂.machine?.map (·.registry) =
        E.machine?.map (fun m => (m.registry.insert value).2) ∧
      ∀ m, E.machine? = some m → key = (m.registry.insert value).1 ∧
        ∃ program, value = .callable program ∧ Machine.readSource chunk source = .ok program := by
  cases E with
  | inert => cases hload; cases hreference
  | machine e =>
    obtain ⟨m₁, hm, rfl⟩ := load_machine hload
    obtain ⟨program, hprogram, _, rfl⟩ := Machine.load_eq_ok hm
    simp only [reference?, Machine.reference?_push] at hreference
    cases hreference
    refine ⟨.callable program, rfl, fun m hm => ?_⟩
    cases hm
    exact ⟨rfl, program, rfl, hprogram⟩
  | pacer e =>
    obtain ⟨p₁, rfl⟩ := load_pacer hload
    obtain ⟨_, _, he⟩ := Option.map_eq_some_iff.1 hreference
    cases he
    exact ⟨.int 0, rfl, fun m hm => by cases hm⟩

end Engine

namespace World

def ledger (w : World) : Ledger where
  claims := fun (q, id) => (w.task? q id).bind Task.claim?
  held := fun q => (w.queue? q >>= (·.held)).bind Task.claim?
  registry := fun e => (w.machine? e).map (·.registry)

theorem claims_ledger (hQ : w.queue? q = some Q) (id : TaskId) :
    w.ledger.claims (q, id) = Q.claim? id := by
  simp only [ledger, task?, hQ]
  rfl

theorem held_ledger (hQ : w.queue? q = some Q) : w.ledger.held q = Q.held.bind Task.claim? := by
  simp only [ledger, hQ]
  rfl

theorem claims_ledger_of_task? {task : Task} (h : w.task? q id = some task) :
    w.ledger.claims (q, id) = task.claim? := by
  simp only [ledger, h]
  rfl

theorem task?_of_claims {claim : Claim} (h : w.ledger.claims (q, id) = some claim) :
    ∃ t, w.task? q id = some (.script t) ∧ t.claim = claim := by
  obtain ⟨task, ht, hclaim⟩ := Option.bind_eq_some_iff.1 h
  cases task with
  | script t => exact ⟨t, ht, Option.some.inj hclaim⟩
  | idle | timer | watcher => cases hclaim

theorem registry_ledger {E : Engine} (hE : w.engine? e = some E) :
    w.ledger.registry e = E.machine?.map (·.registry) := by
  simp only [ledger, machine?, hE]
  rfl

theorem registry_modifyEngine {f : Engine → Engine} {g : Registry Value → Registry Value}
    (h : ∀ E, (f E).machine?.map (·.registry) = E.machine?.map fun m => g m.registry) :
    (w.modifyEngine e f).ledger = w.ledger.setRegistry e ((w.ledger.registry e).map g) := by
  refine Ledger.ext rfl rfl (funext fun e' => ?_)
  simp only [ledger, Ledger.setRegistry, machine?]
  by_cases he : e' = e
  · subst he
    rw [Function.update_self, engine?_modifyEngine]
    cases w.engine? e' with
    | none => rfl
    | some E =>
      refine (h E).trans ?_
      rw [Option.map_map]
      rfl
  · rw [Function.update_of_ne he, engine?_modifyEngine_of_ne w f (Ne.symm he)]

theorem ledger_modifyEngine {f : Engine → Engine}
    (h : ∀ E, (f E).machine?.map (·.registry) = E.machine?.map (·.registry)) (w : World) (e : Nat) :
    (w.modifyEngine e f).ledger = w.ledger := by
  rw [registry_modifyEngine (g := id) h, Option.map_id, id, Ledger.setRegistry_eq_self]

@[simp] theorem ledger_unreference (w : World) (e key : Nat) :
    (w.modifyEngine e (·.unreference key)).ledger = w.ledger.free e key :=
  registry_modifyEngine (g := (·.erase key)) fun E => by cases E <;> rfl

@[simp] theorem ledger_setHook (w : World) (e : Nat) (hook : Hook) (every : Nat) :
    (w.modifyEngine e (·.setHook hook every)).ledger = w.ledger :=
  ledger_modifyEngine (fun E => by simp) w e

@[simp] theorem ledger_clearHook (w : World) (e : Nat) :
    (w.modifyEngine e (·.clearHook)).ledger = w.ledger :=
  ledger_modifyEngine (fun E => by simp) w e

@[simp] theorem ledger_setProbe (w : World) (e : Nat) (probe : Option Probe) :
    (w.modifyEngine e (·.setProbe probe)).ledger = w.ledger :=
  ledger_modifyEngine (fun E => by simp) w e

@[simp] theorem ledger_setTop (w : World) (e height : Nat) :
    (w.modifyEngine e (·.setTop height)).ledger = w.ledger :=
  ledger_modifyEngine (fun E => by cases E <;> rfl) w e

@[simp] theorem ledger_countInstruction (w : World) (e : Nat) :
    (w.countInstruction e).ledger = w.ledger :=
  ledger_modifyEngine (fun E => by cases E <;> rfl) w e

theorem ledger_setMachine {m m' : Machine} (hm : w.machine? e = some m)
    (h : m'.registry = m.registry) : (w.setMachine e m').ledger = w.ledger := by
  rw [setMachine, registry_modifyEngine (g := fun _ => m'.registry) fun E => by cases E <;> rfl]
  have hself : w.ledger.registry e = some m.registry := by simp only [ledger, hm]; rfl
  rw [hself, Option.map_some, h, ← hself, Ledger.setRegistry_eq_self]

theorem ledger_modifyMachine {f : Machine → Machine} (h : ∀ m, (f m).registry = m.registry)
    (w : World) (e : Nat) : (w.modifyMachine e f).ledger = w.ledger := by
  unfold modifyMachine
  split
  · rfl
  · next m hm => exact ledger_setMachine hm (h m)

theorem ledger_setEngine {E : Engine} (hE : w.engine? e = some E) (E' : Engine) :
    (w.setEngine e E').ledger = w.ledger.setRegistry e (E'.machine?.map (·.registry)) := by
  refine Ledger.ext rfl rfl (funext fun e' => ?_)
  rw [setEngine_eq_modifyEngine]
  simp only [ledger, Ledger.setRegistry, machine?]
  by_cases he : e' = e
  · subst he
    rw [Function.update_self, engine?_modifyEngine, hE]
    rfl
  · rw [Function.update_of_ne he, engine?_modifyEngine_of_ne w _ (Ne.symm he)]

theorem ledger_setEngine_of_eq {E E' : Engine} (hE : w.engine? e = some E)
    (h : E'.machine?.map (·.registry) = E.machine?.map (·.registry)) :
    (w.setEngine e E').ledger = w.ledger := by
  rw [ledger_setEngine hE, h, ← registry_ledger hE, Ledger.setRegistry_eq_self]

theorem ledger_at (w : World) (now : UInt64) : { w with now }.ledger = w.ledger := rfl

@[simp] theorem ledger_advance (w : World) (ms : UInt64) : (w.advance ms).ledger = w.ledger := by
  rw [advance, ledger_at]

@[simp] theorem ledger_setClock (w : World) (ms : UInt64) : (w.setClock ms).ledger = w.ledger := by
  rw [setClock, ledger_at]

@[simp] theorem ledger_named (w : World) (name : String) (q : Nat) (id : TaskId) :
    (w.named name q id).ledger = w.ledger := by
  unfold named
  split <;> rfl

@[simp] theorem ledger_tickHook (w : World) (e : Nat) : (w.tickHook e).2.ledger = w.ledger := by
  unfold tickHook
  split
  · rfl
  · dsimp only
    split <;> exact ledger_setProbe w e _

@[simp] theorem ledger_installHook (w : World) (q e : Nat) :
    (w.installHook q e).ledger = w.ledger := by
  unfold installHook
  split
  · rfl
  · exact ledger_setHook w e _ _

theorem ledger_setQueue (hQ : w.queue? q = some Q) (id : TaskId) (claim : Option Claim)
    (h : ∀ id', Q'.claim? id' = if id' = id then claim else Q.claim? id') :
    (w.setQueue q Q').ledger =
      (w.ledger.setClaim (q, id) claim).setHeld q (Q'.held.bind Task.claim?) := by
  refine Ledger.ext (funext fun (q', id') => ?_) (funext fun q' => ?_) rfl
  · simp only [Ledger.setHeld, Ledger.setClaim, Function.update_apply, Prod.mk.injEq]
    by_cases hq : q' = q
    · subst hq
      rw [claims_ledger (queue?_setQueue_self hQ Q'), claims_ledger hQ, h id']
      simp
    · rw [if_neg fun hx => hq hx.1]
      simp only [ledger, task?, queue?_setQueue_of_ne Q' (Ne.symm hq)]
  · simp only [Ledger.setHeld, ledger, Function.update_apply]
    by_cases hq : q' = q
    · subst hq
      rw [if_pos rfl, queue?_setQueue_self hQ Q']
      rfl
    · rw [if_neg hq, queue?_setQueue_of_ne Q' (Ne.symm hq)]
      rfl

theorem ledger_setQueue_of_eq (hQ : w.queue? q = some Q) (h : ∀ id, Q'.claim? id = Q.claim? id)
    (hheld : Q'.held.bind Task.claim? = Q.held.bind Task.claim?) :
    (w.setQueue q Q').ledger = w.ledger := by
  have hclaim : Q.claim? TaskId.null = w.ledger.claims (q, TaskId.null) :=
    (claims_ledger hQ _).symm
  have hself : Q.held.bind Task.claim? = w.ledger.held q := (held_ledger hQ).symm
  rw [ledger_setQueue hQ TaskId.null (Q.claim? TaskId.null) fun id' => ?_, hheld,
    hclaim, hself, Ledger.setClaim_eq_self, Ledger.setHeld_eq_self]
  split
  · next he => rw [he, h]
  · exact h id'

theorem ledger_modifyQueue {f : Queue → Queue} (htasks : ∀ Q, (f Q).tasks = Q.tasks)
    (hheld : ∀ Q, (f Q).held = Q.held) (w : World) (q : Nat) :
    (w.modifyQueue q f).ledger = w.ledger := by
  cases hQ : w.queue? q with
  | none => rw [modifyQueue_of_none hQ]
  | some Q =>
    rw [modifyQueue_eq_setQueue hQ]
    refine ledger_setQueue_of_eq hQ (fun id => ?_) ?_
    · rw [Queue.claim?, Queue.claim?, Queue.get?, htasks]
      rfl
    · rw [hheld]

@[simp] theorem ledger_enter (w : World) (q : Nat) (id : TaskId) :
    (w.modifyQueue q (·.enter id)).ledger = w.ledger :=
  ledger_modifyQueue (f := (·.enter id)) (fun _ => rfl) (fun _ => rfl) w q

@[simp] theorem ledger_countInterrupts (w : World) (q n : Nat) :
    (w.modifyQueue q (·.countInterrupts n)).ledger = w.ledger :=
  ledger_modifyQueue (f := (·.countInterrupts n)) (fun _ => rfl) (fun _ => rfl) w q

@[simp] theorem ledger_notify (w : World) (q : Nat) (tag : Tag) (text : String) :
    (w.notify q tag text).ledger = w.ledger :=
  ledger_modifyQueue (f := (·.record ⟨tag, text⟩)) (fun _ => rfl) (fun _ => rfl) w q

theorem ledger_rewrite {task : Task} (ht : w.task? q id = some task) (task' : Task) :
    (w.modifyQueue q (·.modify id fun _ => task')).ledger =
      w.ledger.setClaim (q, id) task'.claim? := by
  obtain ⟨Q, hQ, hg⟩ := task?_eq_some.1 ht
  have hheld : Q.held.bind Task.claim? = w.ledger.held q := (held_ledger hQ).symm
  rw [modifyQueue_eq_setQueue hQ, ledger_setQueue hQ id task'.claim? fun id' => ?_]
  · exact hheld ▸ (w.ledger.setClaim (q, id) task'.claim?).setHeld_eq_self q
  · rw [Queue.claim?, Queue.get?_modify]
    split
    · rw [hg]
      rfl
    · rfl

theorem ledger_rewrite_of_eq {task : Task} (ht : w.task? q id = some task) {task' : Task}
    (h : task'.claim? = task.claim?) :
    (w.modifyQueue q (·.modify id fun _ => task')).ledger = w.ledger := by
  rw [ledger_rewrite ht, h, ← claims_ledger_of_task? ht, Ledger.setClaim_eq_self]

def Fresh (w : World) (q : Nat) (id : TaskId) : Prop :=
  ∃ Q, w.queue? q = some Q ∧ ¬ Q.tasks.Known id

theorem Fresh.claims (h : w.Fresh q id) : w.ledger.claims (q, id) = none := by
  obtain ⟨Q, hQ, hknown⟩ := h
  rw [claims_ledger hQ, Queue.claim?]
  cases hg : Q.get? id with
  | none => rfl
  | some task => exact absurd (Arena.known_of_get? hg) hknown

theorem Fresh.not_running (h : w.Fresh q id) : ¬ w.Running q id := by
  rintro ⟨Q', hQ', _, hknown'⟩
  obtain ⟨Q, hQ, hknown⟩ := h
  obtain rfl := Option.some.inj (hQ.symm.trans hQ')
  exact hknown hknown'

theorem ledger_push (hw : w.WellFormed) (hQ : w.queue? q = some Q) (task : Task) :
    w.Fresh q (w.push q task).1 ∧
      (w.push q task).2.ledger = w.ledger.setClaim (q, (w.push q task).1) task.claim? := by
  have hwf := (hw q Q hQ).tasks
  have hheld : Q.held.bind Task.claim? = w.ledger.held q := (held_ledger hQ).symm
  simp only [push, hQ]
  constructor
  · exact ⟨Q, hQ, fun hknown => Arena.fst_insert_ne hwf hknown task rfl⟩
  · rw [ledger_setQueue hQ (Q.push task).1 task.claim? fun id' => ?_]
    · exact hheld ▸ (w.ledger.setClaim (q, (Q.push task).1) task.claim?).setHeld_eq_self q
    · split
      · next he =>
        rw [he, Queue.claim?]
        exact congrArg (Option.bind · Task.claim?) (Arena.get?_insert_self hwf task)
      · next hne =>
        rw [Queue.claim?, Queue.claim?]
        congr 1
        cases hg : Q.get? id' with
        | some old => exact Arena.get?_insert_of_get? hwf hg task
        | none =>
          refine Option.eq_none_iff_forall_ne_some.2 fun new hnew' => ?_
          obtain ⟨he, _⟩ | hold := Arena.get?_insert hwf task hnew'
          · exact hne he
          · cases hg.symm.trans hold

theorem ledger_push_of_none (hw : w.WellFormed) (q : Nat) {task : Task} (h : task.claim? = none) :
    (w.push q task).2.ledger = w.ledger := by
  cases hQ : w.queue? q with
  | none => simp only [push, hQ]
  | some Q =>
    obtain ⟨hfresh, heq⟩ := ledger_push hw hQ task
    rw [heq, h, ← hfresh.claims, Ledger.setClaim_eq_self]

theorem ledger_unlink {Q₀ left : Queue} {task : Task} (hQ : w.queue? q = some Q)
    (taken : Q₀.unlink? id = some (task, left)) (hsame : Q₀.tasks = Q.tasks) (Q' : Queue)
    (htasks : Q'.tasks = left.tasks) :
    w.ledger.claims (q, id) = task.claim? ∧
      (w.setQueue q Q').ledger =
        (w.ledger.setClaim (q, id) none).setHeld q (Q'.held.bind Task.claim?) := by
  have hget : ∀ id', Q₀.get? id' = Q.get? id' := fun id' => by rw [Queue.get?, hsame]; rfl
  constructor
  · rw [claims_ledger hQ, Queue.claim?, ← hget, Queue.get?_of_unlink? taken]
    rfl
  · refine ledger_setQueue hQ id none fun id' => ?_
    have hleft : Q'.get? id' = left.get? id' := by rw [Queue.get?, htasks]; rfl
    rw [Queue.claim?, hleft, Queue.get?_unlink? taken, hget]
    split <;> rfl

theorem ledger_leave (hQ : w.queue? q = some Q) :
    (w.setQueue q Q.leave).ledger = w.ledger.setHeld q none := by
  have hclaim : w.ledger.claims (q, TaskId.null) = Q.claim? TaskId.null := claims_ledger hQ _
  rw [ledger_setQueue hQ TaskId.null (Q.claim? TaskId.null) fun id' => ?_,
    ← hclaim, Ledger.setClaim_eq_self]
  · rfl
  · split
    · next he => rw [he]; rfl
    · rfl

@[simp] theorem ledger_interruptTask (w : World) (q : Nat) (id : TaskId) :
    (w.interruptTask q id).2.ledger = w.ledger := by
  obtain ⟨hr, _⟩ | ⟨task, after, ht, hafter, hr⟩ := w.interruptTask_cases q id
  · rw [hr]
  · have hrewrite := ledger_rewrite_of_eq ht (Task.claim?_interrupted hafter)
    obtain ⟨t, _, hr⟩ | ⟨_, hr⟩ := hr
    · rw [hr, ledger_installHook, hrewrite]
    · rw [hr, hrewrite]

theorem ledger_interruptTasks (w : World) (q : Nat) (ids : List TaskId) (n : Nat) :
    (ids.foldl (fun (n, w) id =>
      let (delivered, w) := w.interruptTask q id
      (if delivered then n + 1 else n, w)) (n, w)).2.ledger = w.ledger := by
  induction ids generalizing w n with
  | nil => rfl
  | cons id ids ih => exact (ih _ _).trans (ledger_interruptTask w q id)

theorem ledger_interruptAll (hw : w.WellFormed) (q : Nat) (watcher : WatcherTask) :
    (w.interruptAll q watcher).2.ledger = w.ledger := by
  have hgrants := fun n => (grants_interruptTasks (E := False) w q
    (((w.queue? q).map (·.order)).getD []) 0).trans (grants_countInterrupts _ q n)
  refine (ledger_push_of_none (Grants.wellFormed (hgrants _) hw) q rfl).trans ?_
  rw [ledger_countInterrupts]
  exact ledger_interruptTasks w q _ 0

/-- Callbacks and protected calls leave the ledger alone. -/
theorem robust_ledger (L : Ledger) (T : Nat → Prop) : Robust T fun w => w.ledger = L := by
  intro w w' h chore
  refine Eq.trans ?_ h
  cases chore with
  | log => rfl
  | machine before _ registry => exact ledger_setMachine before registry
  | engine _ machine => exact ledger_modifyEngine (fun E => by rw [machine]) w _
  | count => exact ledger_countInstruction w _
  | tick => exact ledger_tickHook w _

@[simp] theorem ledger_callBack (w : World) (actions : List Action) (k : Pending .routine) :
    (w.callBack actions k).world.ledger = w.ledger := by rw [world_callBack]

@[simp] theorem ledger_destroyCallback (w : World) (name : String) (onDrop : Option (List Action))
    (k : Pending .done) : (w.destroyCallback name onDrop k).world.ledger = w.ledger := by
  cases onDrop with
  | none => rfl
  | some actions => exact ledger_callBack _ actions _

@[simp] theorem ledger_callProtected (w : World) (e key : Nat) (handler : Handler)
    (k : Pending .call) : (w.callProtected e key handler k).world.ledger = w.ledger :=
  (within_callProtected (robust_ledger _ fun _ => True) rfl e key handler k).world

theorem ledger_release (w : World) (t : ScriptTask) :
    (if t.release then w.modifyEngine t.engine (·.unreference t.key) else w).ledger =
      w.ledger.release t.claim := by
  cases hrelease : t.release with
  | false => simp [Ledger.release, ScriptTask.claim, hrelease]
  | true => simp [Ledger.release, ScriptTask.claim, hrelease]

theorem ledger_releaseScript (w : World) (t : ScriptTask) :
    (w.releaseScript t).ledger = w.ledger.release t.claim := by
  have hclear : (if t.armed then w.modifyEngine t.engine (·.clearHook) else w).ledger = w.ledger := by
    split
    · exact ledger_clearHook w t.engine
    · rfl
  exact (ledger_release _ t).trans (congrArg (Ledger.release · t.claim) hclear)

theorem ledger_destroy (w : World) (task : Task) (k : Pending .done) :
    (w.destroy task k).world.ledger = w.ledger.discard task.claim? := by
  cases task with
  | idle t => exact ledger_destroyCallback w t.name t.onDrop k
  | timer t => exact ledger_destroyCallback w t.name t.onDrop k
  | script t =>
    simp only [destroy, deliver, Task.claim?, Ledger.discard, ScriptTask.claim]
    split
    · rfl
    · exact ledger_releaseScript w t
  | watcher t =>
    unfold destroy
    dsimp only
    split
    · rfl
    · exact ledger_destroyCallback w t.name _ k

theorem ledger_stepTask (hw : w.WellFormed) {task : Task} (ht : w.task? q id = some task)
    (hkind : task.kind ≠ .script) (k : Pending .verdict) :
    (w.stepTask q id task k).world.ledger = w.ledger := by
  have hallows : w.Allows (fun w₁ w₂ => w₂.ledger = w₁.ledger) q id task :=
    { refl := rfl
      trans := fun h h' => h'.trans h
      log := fun _ _ _ => rfl
      rewrite := fun w₁ task' hq hturns => by
        refine ledger_rewrite_of_eq (show w₁.task? q id = some task by rw [task?, hq]; exact ht) ?_
        cases hturns with
        | idle | timer | watcher => rfl
        | script => exact absurd rfl hkind
      hook := fun _ _ htask _ => absurd (congrArg Task.kind htask) hkind
      alarm := fun _ => ledger_interruptAll hw q _ }
  exact (hallows.stepping (robust_ledger _ fun _ => True) k).world

theorem ledger_timerFired (w : World) (q : Nat) (id : TaskId) (k : Pending .verdict) :
    (w.timerFired q id k).world.ledger = w.ledger := by
  obtain ⟨w', verdict, heq, rfl | ⟨Q, t, deadline, hQ, hrecord, rfl⟩⟩ := timerFired_eq w q id k
  · rw [heq]
    rfl
  · rw [heq]
    refine ledger_setQueue_of_eq hQ (fun id' => ?_) rfl
    rw [Queue.claim?, Queue.claim?, Queue.get?_modify]
    split
    · next he =>
      subst he
      cases hg : Q.get? id' with
      | none => rfl
      | some task =>
        obtain rfl : task = .timer t := by simpa [Queue.record?, hg] using hrecord
        rfl
    · rfl

theorem ledger_stepScript {t : ScriptTask} (ht : w.task? q id = some (.script t))
    (k : Pending .verdict) :
    (w.stepScript q id t k).world.ledger =
      w.ledger.setClaim (q, id) (some { t with ran := true }.claim) := by
  have hran := ledger_rewrite ht (.script { t with ran := true })
  refine (ledger_callProtected _ _ _ _ _).trans ?_
  dsimp only
  split
  · exact (ledger_installHook _ q t.engine).trans hran
  · exact hran

theorem ledger_scriptReturned (w : World) (q : Nat) (id : TaskId) (t : ScriptTask) (base : Nat)
    (result : Except CallError Unit) (k : Pending .verdict) :
    (w.scriptReturned q id t base result k).world.ledger = w.ledger.release t.claim := by
  have hreset : ∀ w₁ : World, (if w₁.scriptArmed q id then w₁.modifyEngine t.engine (·.clearHook)
      else w₁).ledger = w₁.ledger := by
    intro w₁
    split
    · exact ledger_clearHook w₁ t.engine
    · rfl
  have hleft := fun w₁ : World => (hreset _).trans (ledger_setTop w₁ t.engine base)
  refine (ledger_release _ t).trans (congrArg (Ledger.release · t.claim) ?_)
  cases result with
  | ok => exact hleft w
  | error e => exact (hleft _).trans (ledger_notify w q _ _)

theorem ledger_start (hw : w.WellFormed) (q : Nat) (name : String) {task : Task}
    (h : task.claim? = none) (k : Pending .reply) :
    (w.start q name task k).world.ledger = w.ledger :=
  (ledger_named _ name q _).trans (ledger_push_of_none hw q h)

theorem ledger_interruptOne (w : World) (q : Nat) (Q : Queue) (id : TaskId) (k : Pending .reply) :
    (w.interruptOne q Q id k).world.ledger = w.ledger := by
  have hone := ledger_interruptTask w q id
  unfold interruptOne
  split
  · generalize w.interruptTask q id = r at hone ⊢
    obtain ⟨delivered, w₁⟩ := r
    cases delivered with
    | true => exact (ledger_countInterrupts w₁ q 1).trans hone
    | false => exact hone
  · rfl

theorem ledger_loadScript {key : Nat} {source : List UInt8} {w₁ : World}
    (hQ : w.queue? q = some Q) (h : w.loadScript q e source = .ok (key, w₁)) :
    ∃ value, w₁.ledger = w.ledger.keep e value ∧
      ∀ registry, w.ledger.registry e = some registry → key = (registry.insert value).1 ∧
        ∃ program, value = .callable program ∧
          Machine.readSource Q.config.chunkName source = .ok program := by
  obtain ⟨E, E₁, E₂, hE, hload, hreference, rfl⟩ := loadScript_eq_ok h
  rw [hQ, Option.map_some, Option.getD_some] at hload
  obtain ⟨value, hregistry, hkey⟩ := Engine.registry_reference hload hreference
  refine ⟨value, ?_, fun registry hsome => ?_⟩
  · rw [Ledger.keep, registry_ledger hE, Option.map_map]
    exact (ledger_setEngine hE E₂).trans (congrArg _ hregistry)
  · rw [registry_ledger hE] at hsome
    obtain ⟨m, hm, rfl⟩ := Option.map_eq_some_iff.1 hsome
    exact hkey m hm

/-- A source that is accepted is kept, and a script that claims its key is queued under a new id. -/
theorem ledger_parseAndStart {source : List UInt8} {w' : World} (hw : w.WellFormed)
    (hQ : w.queue? q = some Q) (h : w.parseAndStart q e source = (.ok id, w')) :
    w.Fresh q id ∧ ∃ key value,
      (∀ registry, w.ledger.registry e = some registry → key = (registry.insert value).1 ∧
        ∃ program, value = .callable program ∧
          Machine.readSource Q.config.chunkName source = .ok program) ∧
      w'.ledger = (w.ledger.keep e value).setClaim (q, id) (some ⟨e, key, true, false⟩) := by
  unfold parseAndStart at h
  split at h
  · cases h
  · next key w₁ hload =>
    obtain ⟨value, hkept, hkey⟩ := ledger_loadScript hQ hload
    have haside := aside_loadScript (T := fun _ => True) hload
    have hnoted : w.Follows (fun _ _ => True) (fun _ => True)
        ((w₁.notify q .notice "Running script...").notify q .state "1") :=
      (haside.follows.trans (follows_notify _ q _ _)).trans (follows_notify _ q _ _)
    have hledger : ((w₁.notify q .notice "Running script...").notify q .state "1").ledger =
        w.ledger.keep e value := by rw [ledger_notify, ledger_notify, hkept]
    obtain ⟨Q₂, hQ₂, hedits⟩ := queue?_of_rel_left (hnoted.queues q) hQ
    obtain ⟨⟨Q₃, hQ₃, hfresh⟩, hpush⟩ := ledger_push (hnoted.moves.wellFormed hw) hQ₂
      (.script { engine := e, key, release := true })
    obtain rfl := Option.some.inj (hQ₂.symm.trans hQ₃)
    rw [hledger] at hpush
    cases h
    exact ⟨⟨Q, hQ, fun hknown => hfresh (hedits.moves.known (hw q Q hQ) hknown)⟩, key, value, hkey,
      hpush⟩

theorem ledger_parseAndStart_error {source : List UInt8} {error : LoadError} {w' : World}
    (h : w.parseAndStart q e source = (.error error, w')) : w'.ledger = w.ledger := by
  unfold parseAndStart at h
  split at h
  · cases h
    exact ledger_notify w q _ _
  · cases h

end World

def EngineAction.handlesKeys : EngineAction Action → Bool
  | .reference | .unreference _ => true
  | _ => false

theorem Engine.registry_serviced {E E' : Engine} {action : EngineAction Action}
    (h : E.Serviced action E') (hkeys : action.handlesKeys = false) :
    E'.machine?.map (·.registry) = E.machine?.map (·.registry) := by
  have hset : ∀ {m m' : Machine}, E.machine? = some m → m'.registry = m.registry →
      (E.setMachine m').machine?.map (·.registry) = E.machine?.map (·.registry) := by
    intro m m' hm hregistry
    cases E with
    | machine =>
      cases hm
      exact congrArg some hregistry
    | pacer | inert => cases hm
  cases h with
  | references | unreferences => cases hkeys
  | loads loaded => exact registry_load loaded
  | hooks | clears | hosts | triggers => simp
  | truncates => cases E <;> rfl
  | pushes before pushed =>
    obtain ⟨_, rfl⟩ := Machine.push?_eq_some.1 pushed
    exact hset before rfl
  | pops before popped =>
    obtain rfl := Machine.popInt?_eq_some popped
    exact hset before rfl

theorem World.ledger_performOnEngine {E : Engine} (hE : w.engine? e = some E)
    {action : EngineAction Action} (h : action.handlesKeys = false) (k : Pending .reply) :
    (w.performOnEngine e E action k).world.ledger = w.ledger := by
  obtain ⟨s, hruns, hs⟩ := exists_runs hE action
  rw [hs]
  have hworld : s.world.ledger = w.ledger :=
    hruns.rel (R := fun w₁ w₂ => w₂.ledger = w₁.ledger) rfl (fun h h' => h'.trans h)
      (fun _ _ => rfl) fun serviced => ledger_setEngine_of_eq hE (Engine.registry_serviced serviced h)
  exact (s.within (robust_ledger _ fun _ => True) hworld k).world

end TaskLoop
