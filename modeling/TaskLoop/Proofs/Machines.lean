import TaskLoop.Session.Process
import TaskLoop.Proofs.Change

namespace TaskLoop

namespace Engine

variable (E : Engine)

@[simp] theorem machine?_setHook (hook : Hook) (every : Nat) :
    (E.setHook hook every).machine? = E.machine? := by cases E <;> rfl

@[simp] theorem machine?_clearHook : E.clearHook.machine? = E.machine? := by cases E <;> rfl

@[simp] theorem machine?_setProbe (probe : Option Probe) :
    (E.setProbe probe).machine? = E.machine? := by cases E <;> rfl

@[simp] theorem machine?_setHost (name : String) (calls : List (HostCall Action)) :
    (E.setHost name calls).machine? = E.machine? := by cases E <;> rfl

@[simp] theorem machine?_setTrigger (trigger : Option (Nat × List Action)) :
    (E.setTrigger trigger).machine? = E.machine? := by cases E <;> rfl

@[simp] theorem machine?_pushChunk (chunk : PacerChunk) :
    (E.pushChunk chunk).machine? = E.machine? := by cases E <;> rfl

@[simp] theorem machine?_popChunk : E.popChunk.machine? = E.machine? := by cases E <;> rfl

@[simp] theorem machine?_count : E.count.machine? = E.machine?.map (·.count) := by cases E <;> rfl

@[simp] theorem machine?_setTop (height : Nat) :
    (E.setTop height).machine? = E.machine?.map (·.truncate height) := by cases E <;> rfl

@[simp] theorem machine?_unreference (key : Nat) :
    (E.unreference key).machine? = E.machine?.map (·.unreference key) := by cases E <;> rfl

@[simp] theorem machine?_setMachine (m : Machine) :
    (E.setMachine m).machine? = E.machine?.map fun _ => m := by cases E <;> rfl

end Engine

namespace World

variable {w : World} {e : Nat} {m : Machine}

theorem machine?_modifyEngine {f : Engine → Engine} {g : Machine → Machine}
    (h : ∀ E, (f E).machine? = E.machine?.map g) (w : World) (e e' : Nat) :
    (w.modifyEngine e f).machine? e' = if e = e' then (w.machine? e).map g else w.machine? e' := by
  split
  · next he =>
    subst he
    rw [machine?, machine?, engine?_modifyEngine]
    cases w.engine? e with
    | none => rfl
    | some E => exact h E
  · next hne => rw [machine?, engine?_modifyEngine_of_ne w f hne, machine?]

theorem machine?_modifyEngine_of_eq {f : Engine → Engine} (h : ∀ E, (f E).machine? = E.machine?)
    (w : World) (e e' : Nat) : (w.modifyEngine e f).machine? e' = w.machine? e' := by
  rw [machine?_modifyEngine (g := id) (fun E => by rw [h, Option.map_id, id])]
  split
  · next he => rw [he, Option.map_id, id]
  · rfl

@[simp] theorem machine?_logged (w : World) (event : Event) (e : Nat) :
    (w.logged event).machine? e = w.machine? e := rfl

@[simp] theorem machine?_handle (w : World) (handler : Handler) (message : String)
    (frames : List TraceFrame) (e : Nat) :
    (w.handle handler message frames).2.machine? e = w.machine? e := by
  cases handler <;> rfl

@[simp] theorem machine?_tickHook (w : World) (e e' : Nat) :
    (w.tickHook e).2.machine? e' = w.machine? e' := by
  unfold tickHook
  split
  · rfl
  · dsimp only
    split <;> exact machine?_modifyEngine_of_eq (fun E => E.machine?_setProbe _) w e e'

theorem machine?_at (w : World) (now : UInt64) (e : Nat) :
    { w with now }.machine? e = w.machine? e := rfl

@[simp] theorem machine?_advance (w : World) (ms : UInt64) (e : Nat) :
    (w.advance ms).machine? e = w.machine? e := by rw [advance, machine?_at]

@[simp] theorem machine?_setClock (w : World) (ms : UInt64) (e : Nat) :
    (w.setClock ms).machine? e = w.machine? e := by rw [setClock, machine?_at]

@[simp] theorem machine?_named (w : World) (name : String) (q : Nat) (id : TaskId) (e : Nat) :
    (w.named name q id).machine? e = w.machine? e := by
  unfold named
  split <;> rfl

@[simp] theorem machine?_notify (w : World) (q : Nat) (tag : Tag) (text : String) (e : Nat) :
    (w.notify q tag text).machine? e = w.machine? e := rfl

@[simp] theorem machine?_installHook (w : World) (q e e' : Nat) :
    (w.installHook q e).machine? e' = w.machine? e' := by
  unfold installHook
  split
  · rfl
  · exact machine?_modifyEngine_of_eq (fun E => E.machine?_setHook _ _) w e e'

theorem machine?_setMachine (h : w.machine? e = some m) (m' : Machine) :
    (w.setMachine e m').machine? e = some m' := by
  rw [setMachine, machine?_modifyEngine fun E => E.machine?_setMachine m', if_pos rfl, h]
  rfl

theorem machine?_modifyMachine (h : w.machine? e = some m) (f : Machine → Machine) :
    (w.modifyMachine e f).machine? e = some (f m) := by
  simp only [modifyMachine, h]
  exact machine?_setMachine h (f m)

/-- A machine that is called starts a program that it keeps, or reports that there is none. -/
theorem callProtected_cases (hm : w.machine? e = some m) (key : Nat) (handler : Handler)
    (k : Pending .call) :
    (∃ p, m.registry.get? key = some (.callable p) ∧
      w.callProtected e key handler k = w.deliver (.cons (.machine e
        ⟨p, Program.start, m.allocated, m.stack.height, handler⟩) k) ()) ∨
    (∀ p, m.registry.get? key ≠ some (.callable p)) ∧ ∃ text,
      w.callProtected e key handler k =
        (w.handle handler RuntimeFault.notCallable.message []).2.deliver k (.error (.runtime text)) := by
  obtain ⟨E, hE, hmachine⟩ := Option.bind_eq_some_iff.1 hm
  unfold callProtected
  rw [hE]
  cases E with
  | pacer | inert => cases hmachine
  | machine engine =>
    cases hmachine
    dsimp only
    split
    · next p hp => exact .inl ⟨p, hp, rfl⟩
    · next hnone => exact .inr ⟨hnone, _, rfl⟩

theorem callProtected_eq {key : Nat} {p : Program} (hm : w.machine? e = some m)
    (hkey : m.registry.get? key = some (.callable p)) (handler : Handler) (k : Pending .call) :
    w.callProtected e key handler k = w.deliver (.cons (.machine e
      ⟨p, Program.start, m.allocated, m.stack.height, handler⟩) k) () := by
  obtain ⟨p', hp, hstarts⟩ | ⟨hnone, _⟩ := callProtected_cases hm key handler k
  · cases hkey.symm.trans hp
    exact hstarts
  · exact absurd hkey (hnone p)

theorem log_modifyMachine (w : World) (e : Nat) (f : Machine → Machine) :
    (w.modifyMachine e f).log = w.log := by
  unfold modifyMachine
  split <;> rfl

theorem log_tickHook (w : World) (e : Nat) : (w.tickHook e).2.log = w.log := by
  unfold tickHook
  split
  · rfl
  · dsimp only
    split <;> rfl

theorem world_callBack (w : World) (actions : List Action) (k : Pending .routine) :
    (w.callBack actions k).world = w := by
  cases actions <;> rfl

end World

end TaskLoop
