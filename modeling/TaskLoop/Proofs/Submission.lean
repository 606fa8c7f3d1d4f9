import Mathlib
import TaskLoop.Proofs.Ownership

namespace TaskLoop

variable {w w' : World} {q e i j : Nat} {id : TaskId} {Q : Queue} {p : Process} {s : Course}
  {m : Machine} {chunk : String} {source : List UInt8} {error : LoadError} {program : Program}

namespace Registry

variable {α : Type} {r r' : Registry α}

theorem Updates.wellFormed (h : r.Updates r') (hr : r.WellFormed) : r'.WellFormed := by
  obtain rfl | ⟨a, rfl⟩ | ⟨key, rfl⟩ := h
  · exact hr
  · exact hr.insert
  · exact hr.erase

theorem size_insert (h : r.WellFormed) (a : α) : (r.insert a).2.size = r.size + 1 := by
  cases hv : r.vacant with
  | nil => simp [insert, hv, size]
  | cons free rest =>
    obtain ⟨hbound, hfree⟩ :=
      Array.getElem?_eq_some_iff.1 (h.vacant free (hv ▸ List.mem_cons_self ..))
    simp [insert, hv, size, Array.setIfInBounds_def, hbound, Array.countP_set, hfree]

end Registry

theorem World.updates_performOnEngine {E : Engine} {action : EngineAction Action}
    (hE : w.engine? e = some E) (hkeyed : action.handlesKeys = true) (k : Pending .reply) :
    Option.Rel Registry.Updates (w.ledger.registry e)
      ((w.performOnEngine e E action k).world.ledger.registry e) := by
  cases action with
  | reference =>
    rw [performOnEngine]
    split
    · exact w.ledger.updates_refl e
    · next key E' hreference =>
      rw [deliver, ledger_setEngine hE, Ledger.registry_setRegistry, if_pos rfl, registry_ledger hE]
      cases E with
      | machine M =>
        obtain ⟨⟨key', m'⟩, hm, he⟩ := Option.map_eq_some_iff.1 hreference
        cases he
        obtain ⟨value, _, rfl⟩ := Machine.reference?_eq_some hm
        exact .some (.inr (.inl ⟨value, rfl⟩))
      | pacer P =>
        obtain ⟨_, _, he⟩ := Option.map_eq_some_iff.1 hreference
        cases he
        exact .none
      | inert => cases hreference
  | unreference key =>
    rw [performOnEngine, deliver, ledger_setEngine hE, Ledger.registry_setRegistry, if_pos rfl,
      registry_ledger hE]
    cases E with
    | machine M => exact .some (.inr (.inr ⟨key, rfl⟩))
    | pacer | inert => exact .none
  | _ => cases hkeyed

/-- A registry changes by one value or key at a time. -/
theorem Process.Sound.registry_updates (h : p.Sound) (e : Nat) :
    Option.Rel Registry.Updates (p.world.ledger.registry e) (p.step.world.ledger.registry e) := by
  by_cases htends : ∃ action k, p.control = .perform (.engine e action) k ∧
      action.handlesKeys = true
  · obtain ⟨w, control⟩ := p
    obtain ⟨action, k, rfl, hkeyed⟩ := htends
    change Option.Rel Registry.Updates (w.ledger.registry e)
      ((w.perform (.engine e action) k).world.ledger.registry e)
    rw [World.perform]
    split
    · exact w.ledger.updates_refl e
    · next E hE => exact World.updates_performOnEngine hE hkeyed k
  · refine h.deal.registry_updates fun e' action haction hkeyed he => htends ?_
    subst he
    cases hc : p.control with
    | perform action' k =>
      rw [hc] at haction
      cases haction
      exact ⟨action, k, rfl, hkeyed⟩
    | _ => rw [hc] at haction; cases haction

namespace Course

end Course

/-- Why a machine refuses a source: it is larger than the memory, it is not text, the text is no
program, or there is no room for the program on the stack. -/
inductive Machine.Refuses (m : Machine) (chunk : String) (source : List UInt8) : LoadError → Prop
  | oversized (size : m.limits.memory.toNat < source.length) : Refuses m chunk source
      (.memory s!"chunk '{chunk}' needs {source.length} bytes, limit is {m.limits.memory.toNat}")
  | undecodable {fault : Text.Utf8.Fault} (size : source.length ≤ m.limits.memory.toNat)
      (decoded : Text.Utf8.decode source = .error fault) :
      Refuses m chunk source (.malformed s!"{chunk}: {fault.message}")
  | illFormed {text : List Char} {diagnostic : Source.Diagnostic}
      (size : source.length ≤ m.limits.memory.toNat)
      (decoded : Text.Utf8.decode source = .ok text)
      (compiled : Source.compile chunk text = .error diagnostic) :
      Refuses m chunk source (.malformed (diagnostic.message chunk))
  | crowded {text : List Char} {program : Program} (size : source.length ≤ m.limits.memory.toNat)
      (decoded : Text.Utf8.decode source = .ok text)
      (compiled : Source.compile chunk text = .ok program)
      (full : m.limits.stack.toNat ≤ m.stack.height) :
      Refuses m chunk source (.memory "stack overflow")

structure Machine.Accepts (m : Machine) (chunk : String) (source : List UInt8) (program : Program) :
    Prop where
  size : source.length ≤ m.limits.memory.toNat
  compiled : ∃ text, Text.Utf8.decode source = .ok text ∧ Source.compile chunk text = .ok program
  room : m.stack.height < m.limits.stack.toNat

theorem Machine.load_cases (m : Machine) (chunk : String) (source : List UInt8) :
    (∃ error, m.Refuses chunk source error ∧ m.load chunk source = .error error) ∨
      ∃ program, m.Accepts chunk source program ∧
        m.load chunk source = .ok { m with stack := m.stack.push (.callable program) } := by
  unfold load
  split
  · next size => exact .inl ⟨_, .oversized size, rfl⟩
  · next size =>
    have size := Nat.le_of_not_lt size
    unfold readSource
    cases decoded : Text.Utf8.decode source with
    | error fault => exact .inl ⟨_, .undecodable size decoded, rfl⟩
    | ok text =>
      dsimp only
      cases compiled : Source.compile chunk text with
      | error diagnostic => exact .inl ⟨_, .illFormed size decoded compiled, rfl⟩
      | ok program =>
        by_cases room : m.stack.height < m.limits.stack.toNat
        · refine .inr ⟨program, ⟨size, ⟨text, decoded, compiled⟩, room⟩, ?_⟩
          simp only [push?, if_pos room]
        · refine .inl ⟨_, .crowded size decoded compiled (Nat.le_of_not_lt room), ?_⟩
          simp only [push?, if_neg room]

namespace World

/-- A source was accepted: one machine keeps the program under a key that was free, a script that is
to call it is the last of the queue, and there are two more messages. -/
structure Admitted (q : Nat) (Q : Queue) (e : Nat) (E : MachineEngine) (program : Program)
    (id : TaskId) (w w' : World) : Prop where
  fresh : ¬ Q.tasks.Known id
  kept : ∃ key registry,
    w'.engine? e = some (.machine { E with machine := { E.machine with registry } }) ∧
    E.machine.registry.get? key = none ∧ registry.get? key = some (.callable program) ∧
    (∀ key', key' ≠ key → registry.get? key' = E.machine.registry.get? key') ∧
    registry.size = E.machine.registry.size + 1 ∧
    w'.task? q id = some (.script { engine := e, key, release := true })
  engines : ∀ e', e' ≠ e → w'.engine? e' = w.engine? e'
  queue : ∃ tasks, w'.queue? q = some
    { Q with tasks, order := Q.order ++ [id],
             messages := Q.messages ++ [⟨.notice, "Running script..."⟩, ⟨.state, "1"⟩] }
  tasks : ∀ id', id' ≠ id → w'.task? q id' = w.task? q id'
  others : ∀ q', q' ≠ q → w'.queue? q' = w.queue? q'
  log : w'.log = .status q ⟨.state, "1"⟩ :: .status q ⟨.notice, "Running script..."⟩ :: w.log

theorem queue?_notify_of_ne (w : World) {q q' : Nat} (h : q' ≠ q) (tag : Tag) (text : String) :
    (w.notify q tag text).queue? q' = w.queue? q' := queue?_modifyQueue_of_ne w _ h.symm

theorem get?_insert_of_ne {tasks : Arena Task} (h : tasks.WellFormed) (task : Task)
    (hid : id ≠ (tasks.insert task).1) : (tasks.insert task).2.get? id = tasks.get? id := by
  cases hold : tasks.get? id with
  | some old => exact Arena.get?_insert_of_get? h hold task
  | none =>
    refine Option.eq_none_iff_forall_ne_some.2 fun new hnew => ?_
    obtain ⟨he, _⟩ | hbefore := Arena.get?_insert h task hnew
    · exact hid he
    · cases hold.symm.trans hbefore

variable {E : MachineEngine}

theorem parseAndStart_of_error (hE : w.engine? e = some (.machine E)) (hQ : w.queue? q = some Q)
    (hload : E.machine.load Q.config.chunkName source = .error error) :
    w.parseAndStart q e source = (.error error, w.notify q .notice error.notice) := by
  have hscript : w.loadScript q e source = .error error := by
    simp [loadScript, hE, hQ, Engine.load, hload, Except.map]
  rw [parseAndStart, hscript]

theorem loadScript_of_ok (hE : w.engine? e = some (.machine E)) (hQ : w.queue? q = some Q)
    (hload : E.machine.load Q.config.chunkName source =
      .ok { E.machine with stack := E.machine.stack.push (.callable program) }) :
    w.loadScript q e source = .ok ((E.machine.registry.insert (.callable program)).1,
      w.setEngine e (.machine { E with machine :=
        { E.machine with registry := (E.machine.registry.insert (.callable program)).2 } })) := by
  simp [loadScript, hE, hQ, Engine.load, hload, Except.map, Engine.reference?,
    Machine.reference?_push]

/-- Two messages announce a task that becomes the last of its queue. -/
theorem push_announced (hQ : w.queue? q = some Q) (task : Task)
    (h : ((w.notify q .notice "Running script...").notify q .state "1").push q task = (id, w')) :
    id = (Q.tasks.insert task).1 ∧ w'.engines = w.engines ∧
      w'.queue? q = some { Q with
        tasks := (Q.tasks.insert task).2, order := Q.order ++ [id],
        messages := Q.messages ++ [⟨.notice, "Running script..."⟩, ⟨.state, "1"⟩] } ∧
      (∀ q', q' ≠ q → w'.queue? q' = w.queue? q') ∧
      w'.log = .status q ⟨.state, "1"⟩ :: .status q ⟨.notice, "Running script..."⟩ :: w.log := by
  have hQ₂ := queue?_notify (queue?_notify hQ .notice "Running script...") .state "1"
  rw [List.append_assoc] at hQ₂
  rw [push, hQ₂] at h
  cases h
  refine ⟨rfl, rfl, queue?_setQueue_self hQ₂ _, fun q' hq => ?_, rfl⟩
  rw [queue?_setQueue_of_ne _ hq.symm, queue?_notify_of_ne _ hq, queue?_notify_of_ne _ hq]

theorem admitted_parseAndStart (hE : w.engine? e = some (.machine E)) (hQ : w.queue? q = some Q)
    (hwell : Q.WellFormed) (hr : E.machine.registry.WellFormed)
    (hload : E.machine.load Q.config.chunkName source =
      .ok { E.machine with stack := E.machine.stack.push (.callable program) }) :
    ∃ id w', w.parseAndStart q e source = (.ok id, w') ∧ w.Admitted q Q e E program id w' := by
  have hscript := loadScript_of_ok hE hQ hload
  generalize hkey : (E.machine.registry.insert (.callable program)).1 = key at hscript
  generalize hregistry : (E.machine.registry.insert (.callable program)).2 = registry at hscript
  generalize hw₁ : w.setEngine e (.machine { E with machine := { E.machine with registry } }) = w₁
    at hscript
  have hQ₁ : w₁.queue? q = some Q := by rw [← hw₁]; exact hQ
  obtain ⟨id, w', hpush⟩ : ∃ id w', ((w₁.notify q .notice "Running script...").notify q .state
      "1").push q (.script { engine := e, key, release := true }) = (id, w') := ⟨_, _, rfl⟩
  have hstarts : w.parseAndStart q e source = (.ok id, w') := by
    rw [parseAndStart, hscript]
    simp only [hpush]
  obtain ⟨rfl, hengines, hqueue, hothers, hlog⟩ := push_announced hQ₁ _ hpush
  have hself : w'.engine? e = some (.machine { E with machine := { E.machine with registry } }) := by
    have hbound := (Array.getElem?_eq_some_iff.1 hE).1
    rw [engine?, hengines, ← hw₁, setEngine]
    simp [hbound]
  refine ⟨_, w', hstarts, ?_⟩
  refine ⟨fun hknown => Arena.fst_insert_ne hwell.tasks hknown _ rfl, ⟨key, registry, hself, ?_, ?_,
    fun key' hne => ?_, ?_, ?_⟩, fun e' he => ?_, ⟨_, hqueue⟩, fun id' hid => ?_, fun q' hq => ?_, ?_⟩
  · rw [← hkey]
    exact Registry.get?_insert_fst hr
  · rw [← hregistry, Registry.get?_insert hr, if_pos hkey.symm]
  · rw [← hregistry, Registry.get?_insert hr, if_neg (hkey ▸ hne)]
  · rw [← hregistry]
    exact Registry.size_insert hr _
  · exact (task?_eq hqueue _).trans (Arena.get?_insert_self hwell.tasks _)
  · rw [engine?, hengines, ← hw₁, setEngine, Array.getElem?_setIfInBounds_ne he.symm]
    rfl
  · rw [task?_eq hqueue, task?_eq hQ]
    exact get?_insert_of_ne hwell.tasks _ hid
  · rw [hothers q' hq, ← hw₁]
    rfl
  · rw [hlog, ← hw₁]
    rfl

theorem Admitted.named (h : w.Admitted q Q e E program id w') (name : String) :
    w.Admitted q Q e E program id (w'.named name q id) := by
  unfold World.named
  split
  · exact h
  · exact ⟨h.fresh, h.kept, h.engines, h.queue, h.tasks, h.others, h.log⟩

end World

namespace Course

end Course

end TaskLoop
