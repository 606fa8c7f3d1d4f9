import TaskLoop.Proofs.Interrupt

namespace TaskLoop

namespace World

variable {w : World} {q e n N l : Nat} {id : TaskId} {hook : Hook}

theorem lasting_pulse (e : Nat) (pulse : Option (Option Probe × Nat)) :
    Lasting (· ≠ e) fun w => w.pulse e = pulse :=
  fun _ _ hw haside => (haside.pulse e fun h => h rfl).trans hw

theorem pulse_countInstruction {probe : Option Probe} (hp : w.pulse e = some (probe, n)) :
    (w.countInstruction e).pulse e = some (probe, n + 1) := by
  obtain ⟨E, hE, hpulse⟩ := Option.bind_eq_some_iff.1 hp
  simp [countInstruction, pulse_modifyEngine, hE, hpulse]

theorem tickHook_of_lt (hp : w.pulse e = some (some ⟨hook, N, l⟩, n)) (hl : 1 < l) :
    ∃ w₁, w.tickHook e = (none, w₁) ∧ w₁.pulse e = some (some ⟨hook, N, l - 1⟩, n) := by
  obtain ⟨E, hE, hpulse⟩ := Option.bind_eq_some_iff.1 hp
  cases E with
  | machine E =>
    obtain ⟨m, probe, hosts⟩ := E
    simp only [Engine.pulse, Option.some.injEq, Prod.mk.injEq] at hpulse
    obtain ⟨rfl, rfl⟩ := hpulse
    refine ⟨w.modifyEngine e (·.setProbe (some ⟨hook, N, l - 1⟩)), ?_, ?_⟩
    · simp only [tickHook, hE, Option.bind_eq_bind, Option.bind_some, Engine.probe?, Probe.tick,
        if_neg (Nat.not_le.2 hl)]
      rfl
    · simp [pulse_modifyEngine, hE, Engine.pulse, Engine.setProbe]
  | pacer | inert => cases hpulse

theorem tickHook_of_le (hp : w.pulse e = some (some ⟨hook, N, l⟩, n)) (hl : l ≤ 1) :
    ∃ w₁, w.tickHook e = (some hook, w₁) ∧
      w₁.pulse e = some (some ⟨hook.rest, N, N⟩, n) ∧ w₁.queues = w.queues := by
  obtain ⟨E, hE, hpulse⟩ := Option.bind_eq_some_iff.1 hp
  cases E with
  | machine E =>
    obtain ⟨m, probe, hosts⟩ := E
    simp only [Engine.pulse, Option.some.injEq, Prod.mk.injEq] at hpulse
    obtain ⟨rfl, rfl⟩ := hpulse
    refine ⟨w.modifyEngine e (·.setProbe (some ⟨hook.rest, N, N⟩)), ?_, ?_, ?_⟩
    · simp only [tickHook, hE, Option.bind_eq_bind, Option.bind_some, Engine.probe?, Probe.tick,
        if_pos hl]
      rfl
    · simp [pulse_modifyEngine, hE, Engine.pulse, Engine.setProbe]
    · rfl
  | pacer | inert => cases hpulse

theorem exists_pulse (h : (w.machine? e).isSome) : ∃ probe n, w.pulse e = some (probe, n) := by
  obtain ⟨m, hm⟩ := Option.isSome_iff_exists.1 h
  obtain ⟨E, hE, hmachine⟩ := Option.bind_eq_some_iff.1 hm
  cases E with
  | machine E => exact ⟨E.probe, E.machine.executed, by simp [pulse, hE, Engine.pulse]⟩
  | pacer | inert => cases hmachine

theorem executed_of_pulse {probe : Option Probe} (hp : w.pulse e = some (probe, n)) :
    w.executed e = n := by
  obtain ⟨E, hE, hpulse⟩ := Option.bind_eq_some_iff.1 hp
  cases E with
  | machine E => cases hpulse; simp [executed, hE, Engine.executed]
  | pacer | inert => cases hpulse

theorem executed_le_of_pulse {probe : Option Probe} {bound : Nat}
    (hp : w.pulse e = some (probe, n)) (hn : n ≤ bound) : w.executed e ≤ bound := by
  rw [executed_of_pulse hp]
  exact hn

theorem cancelled?_of_running {t : ScriptTask} (hrunning : w.Running q id)
    (ht : w.task? q id = some (.script t)) (harmed : t.armed = true) :
    (w.queue? q >>= (·.cancelled?)) = some id := by
  obtain ⟨Q, hQ, hg⟩ := task?_eq_some.1 ht
  simp [hQ, Queue.cancelled?, hrunning.current hQ, hg, Task.armed, harmed]

end World

/-- What a machine comes to while the hook of a queue is on it and the running script of the queue
has been interrupted: the call ends, the hook is due and cancels the script, or an instruction is
executed and the hook counts down. -/
inductive Process.Watched (w : World) (q e N l n : Nat) (id : TaskId) (call : MachineCall)
    (k : Pending .call) : Process → Prop
  | ends (fetched : call.program.fetch call.frames = none) :
      Watched w q e N l n id call k (w.leaveMachine e call (.ok ()) k)
  | cancels {w₁ : World} {call' : MachineCall} {op : Op} (due : l ≤ 1)
      (aside : w.Aside (fun _ => True) w₁)
      (pulse : w₁.pulse e = some (some ⟨.cancel q, N, N⟩, n + 1)) :
      Watched w q e N l n id call k (w₁.unwind (.cancelled id) (.cons (.counted e call' op) k))
  | executes {w₁ : World} {op : Op} {frames : List CallFrame} (early : 1 < l)
      (fetched : call.program.fetch call.frames = some (op, frames))
      (aside : w.Aside (fun _ => True) w₁)
      (pulse : w₁.pulse e = some (some ⟨.cancel q, N, l - 1⟩, n + 1)) :
      Watched w q e N l n id call k (w₁.executeOp e { call with frames } op k)

theorem World.watched_runMachine {w : World} {q e N l n : Nat} {id : TaskId}
    (hp : w.pulse e = some (some ⟨.cancel q, N, l⟩, n))
    (hcancelled : (w.queue? q >>= (·.cancelled?)) = some id) (call : MachineCall)
    (k : Pending .call) : (w.runMachine e call k).Watched w q e N l n id call k := by
  have hcount := pulse_countInstruction hp
  have haside := (aside_countInstruction w e trivial).trans
    (aside_tickHook (T := fun _ => True) (w.countInstruction e) e trivial)
  unfold runMachine
  split
  · next hfetch => exact .ends hfetch
  · next op frames hfetch =>
    dsimp only
    by_cases hdue : l ≤ 1
    · obtain ⟨w₁, htick, hp₁, hqueues⟩ := tickHook_of_le hcount hdue
      have hcancelled₁ : (w₁.queue? q >>= (·.cancelled?)) = some id := by
        rw [queue?, hqueues]
        exact hcancelled
      rw [htick] at haside ⊢
      dsimp only
      rw [fireHook, hcancelled₁]
      exact .cancels hdue haside hp₁
    · obtain ⟨w₁, htick, hp₁⟩ := tickHook_of_lt hcount (Nat.lt_of_not_le hdue)
      rw [htick] at haside ⊢
      exact .executes (Nat.lt_of_not_le hdue) hfetch haside hp₁

end TaskLoop
