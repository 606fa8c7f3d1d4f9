import Mathlib
import TaskLoop.Proofs.ScriptsFirst

namespace TaskLoop

open CommandLine

variable {w : World} {Q Q' : Queue} {id : TaskId} {p : Process} {f f' : Front}
  {action : Option Action}

namespace Queue

theorem Proceeds.isSome (h : Q.Proceeds action f Q' f') (horderly : Q.Orderly f)
    (hsome : (Q'.flag? id).isSome) : (Q.flag? id).isSome := by
  cases h with
  | alarms _ _ alarms => simpa only [alarms.flags, Option.isSome_map] using hsome
  | other _ outcome =>
    obtain same | ⟨_, loses⟩ := horderly.same_or_loses outcome
    · exact same.flags id ▸ hsome
    · rw [loses.flags] at hsome
      split at hsome
      · cases hsome
      · exact hsome

theorem exists_script (h : (Q.flag? id).isSome) : ∃ t, Q.get? id = some (.script t) := by
  obtain ⟨flag, hflag⟩ := Option.isSome_iff_exists.1 h
  obtain ⟨task, hg, hflag⟩ := Option.bind_eq_some_iff.1 hflag
  cases task with
  | script t => exact ⟨t, hg⟩
  | idle | timer | watcher => cases hflag

theorem Proceeds.turn (h : Q.Proceeds action f Q' f') (horderly : Q.Orderly f)
    (hturn : f.task? = some id) : f'.task? = some id ∨ Q'.flag? id = none := by
  cases h with
  | alarms _ front =>
    subst front
    exact .inl hturn
  | other _ outcome =>
    cases outcome with
    | steps step same =>
      cases step with
      | ends | closes | ended | rests => cases hturn
      | calls | returns | rings | rang => exact .inl hturn
      | passes =>
        cases hturn
        right
        rw [same.flags]
        exact Option.not_isSome_iff_eq_none.1 fun hsome => horderly.front.2 ⟨id, hsome⟩
    | enters _ front =>
      obtain rfl | ⟨rfl, _⟩ := front <;> cases hturn
    | leaves front loses =>
      subst front
      cases hturn
      exact .inr (by rw [loses.flags, if_pos rfl])

/-- All queued scripts have been interrupted, or none. -/
def Flagged (Q : Queue) (interrupted : Prop) : Prop :=
  ∀ id flag, Q.flag? id = some flag → (flag = true ↔ interrupted)

variable {interrupted : Prop}

theorem Same.flagged (h : Q.Same Q') (hflagged : Q.Flagged interrupted) :
    Q'.Flagged interrupted := fun id flag hflag => hflagged id flag (h.flags id ▸ hflag)

theorem Alarms.flagged (h : Q.Alarms Q') : Q'.Flagged True := fun id flag hflag => by
  rw [h.flags] at hflag
  obtain ⟨_, _, rfl⟩ := Option.map_eq_some_iff.1 hflag
  exact iff_of_true rfl trivial

/-- Scripts are interrupted by scripts only: a watchdog finds none of them. -/
theorem Proceeds.flagged (h : Q.Proceeds action f Q' f') (horderly : Q.Orderly f)
    (hflagged : Q.Flagged interrupted) : Q'.Flagged (interrupted ∨ action = some interruption) := by
  cases h with
  | alarms haction _ alarms => simpa only [haction, or_true] using alarms.flagged
  | other haction outcome =>
    simp only [haction, or_false]
    obtain same | ⟨_, loses⟩ := horderly.same_or_loses outcome
    · exact same.flagged hflagged
    · intro id flag hflag
      rw [loses.flags] at hflag
      split at hflag
      · cases hflag
      · exact hflagged id flag hflag

end Queue

namespace CommandLine.Launch

variable {l : Launch} {clock : Clock} {n m : Nat}

def after (l : Launch) (clock : Clock) (n : Nat) : Process := l.process.runUnder clock 0 n

def moment (l : Launch) (clock : Clock) (n : Nat) : Process := (l.after clock n).atTime (clock n)

theorem after_succ (l : Launch) (clock : Clock) (n : Nat) : l.after clock (n + 1) =
    if (l.after clock n).isOver then l.after clock n else (l.moment clock n).step := by
  rw [after, Process.runUnder_succ, Nat.zero_add]
  rfl

theorem led_succ (h : (l.after clock n).Led Q f) : ∃ Q' f', (l.after clock (n + 1)).Led Q' f' ∧
    Q.Proceeds (l.after clock n).control.action? f Q' f' := by
  rw [after_succ]
  split
  · next hover =>
    obtain ⟨rfl, reply, hcontrol⟩ := h.stage.answered hover
    refine ⟨Q, .ending 0, h, .other ?_ (.steps .ended (.refl Q))⟩
    rw [hcontrol]
    exact (Option.some_ne_none _).symm
  · exact (h.atTime (clock n)).step

variable {Q₀ : Queue}

theorem exists_led (h : l.process.Led Q₀ .rest) (clock : Clock) (n : Nat) :
    ∃ Q f, (l.after clock n).Led Q f := by
  induction n with
  | zero => exact ⟨Q₀, .rest, h⟩
  | succ n ih =>
    obtain ⟨Q, f, hled⟩ := ih
    obtain ⟨Q', f', hled', _⟩ := led_succ hled
    exact ⟨Q', f', hled'⟩

def Interrupts (l : Launch) (clock : Clock) (n : Nat) (id : TaskId) : Prop :=
  (l.moment clock n).control.action? = some interruption ∧
    (0, id) ∈ (l.moment clock n).control.turns

theorem flagged_after (h : l.process.Led Q₀ .rest) (hflags : Q₀.Flagged False) (clock : Clock)
    (hled : (l.after clock n).Led Q f) :
    Q.Flagged (∃ m < n, (l.after clock m).control.action? = some interruption) := by
  induction n generalizing Q f with
  | zero =>
    obtain rfl : Q₀ = Q := Option.some.inj (h.queue.symm.trans hled.queue)
    simpa only [Nat.not_lt_zero, false_and, exists_false] using hflags
  | succ n ih =>
    obtain ⟨Q₁, f₁, hled₁⟩ := exists_led h clock n
    obtain ⟨Q₂, f₂, hled₂, hproceeds⟩ := led_succ hled₁
    obtain rfl : Q₂ = Q := Option.some.inj (hled₂.queue.symm.trans hled.queue)
    have hflagged := hproceeds.flagged hled₁.orderly (ih hled₁)
    intro id flag hflag
    rw [hflagged id flag hflag]
    constructor
    · rintro (⟨m, hm, haction⟩ | haction)
      · exact ⟨m, Nat.lt_succ_of_lt hm, haction⟩
      · exact ⟨n, Nat.lt_succ_self n, haction⟩
    · rintro ⟨m, hm, haction⟩
      obtain hm | rfl := Nat.lt_succ_iff_lt_or_eq.1 hm
      · exact .inl ⟨m, hm, haction⟩
      · exact .inr haction

/-- The script whose turn it is has left the queue when its turn is over. -/
theorem turn_or_gone (h : l.process.Led Q₀ .rest) (hmn : m ≤ n)
    (hturn : (0, id) ∈ (l.after clock m).control.turns) (hled : (l.after clock n).Led Q f) :
    (0, id) ∈ (l.after clock n).control.turns ∨ Q.flag? id = none := by
  induction n, hmn using Nat.le_induction generalizing Q f with
  | base => exact .inl hturn
  | succ n hmn ih =>
    obtain ⟨Q₁, f₁, hled₁⟩ := exists_led h clock n
    obtain ⟨Q₂, f₂, hled₂, hproceeds⟩ := led_succ hled₁
    obtain rfl : Q₂ = Q := Option.some.inj (hled₂.queue.symm.trans hled.queue)
    obtain hturn | hgone := ih hled₁
    · rw [hled₂.stage.mem_turns]
      exact hproceeds.turn hled₁.orderly (hled₁.stage.mem_turns.1 hturn)
    · right
      refine Option.not_isSome_iff_eq_none.1 fun hsome => ?_
      have hbefore := hproceeds.isSome hled₁.orderly hsome
      rw [hgone] at hbefore
      cases hbefore

end CommandLine.Launch

structure World.Counting (id : TaskId) (N n left : Nat) (w : World) : Prop where
  serves : w.Serves
  pulse : w.pulse 0 = some (some ⟨.cancel 0, N, left⟩, n)
  cancelled : (w.queue? 0 >>= (·.cancelled?)) = some id

/-- The call of an interrupted script, and how many transitions it takes at most. At the end the
call has returned before all instructions were counted, or it has been cancelled at the last one. -/
inductive Process.Ticks (id : TaskId) (N total : Nat) (k : Pending .call) : Nat → Process → Prop
  | runs {w : World} {n left : Nat} (counting : w.Counting id N n left) (pos : 1 ≤ left)
      (le : left ≤ N) (sum : n + left = total) (call : MachineCall) :
      Ticks id N total k (4 * left) (w.deliver (.cons (.machine 0 call) k) ())
  | performs {w : World} {n left : Nat} (counting : w.Counting id N n left) (pos : 1 ≤ left)
      (lt : left < N) (sum : n + left = total) (call : MachineCall) (name : String)
      (turn : HostCall Action) {action : Action} (mem : action ∈ hostActions) :
      Ticks id N total k (4 * left + 3) ⟨w, .perform action
        (.cons (.routine action [] none) (.cons (.host 0 call name turn) k))⟩
  | answers {w : World} {n left : Nat} (counting : w.Counting id N n left) (pos : 1 ≤ left)
      (lt : left < N) (sum : n + left = total) (call : MachineCall) (name : String)
      (turn : HostCall Action) (action : Action) (reply : Reply) :
      Ticks id N total k (4 * left + 2) (w.deliver
        (.cons (.routine action [] none) (.cons (.host 0 call name turn) k)) reply)
  | hosted {w : World} {n left : Nat} (counting : w.Counting id N n left) (pos : 1 ≤ left)
      (lt : left < N) (sum : n + left = total) (call : MachineCall) (name : String)
      (turn : HostCall Action) (complaint : Option String) :
      Ticks id N total k (4 * left + 1) (w.deliver (.cons (.host 0 call name turn) k) complaint)
  | cancels {w : World} {probe : Option Probe} (counted : w.pulse 0 = some (probe, total))
      (call : MachineCall) (op : Op) :
      Ticks id N total k 1 (w.unwind (.cancelled id) (.cons (.counted 0 call op) k))
  | returns {w : World} (counted : w.executed 0 < total) (result : Except CallError Unit) :
      Ticks id N total k 0 (w.deliver k result)
  | leaves {w : World} {probe : Option Probe} (counted : w.pulse 0 = some (probe, total)) :
      Ticks id N total k 0 (w.unwind (.cancelled id) k)

namespace World.Counting

variable {N n left total : Nat} {k : Pending .call} (h : w.Counting id N n left)

include h

theorem attended {w₁ : World} (hw : w₁.Attended w.queues)
    (hpulse : w₁.pulse 0 = some (some ⟨.cancel 0, N, left⟩, n)) : w₁.Counting id N n left := by
  refine ⟨hw.serves, hpulse, ?_⟩
  rw [hw.queue?]
  exact h.cancelled

theorem executed_lt (hpos : 1 ≤ left) (hsum : n + left = total) : w.executed 0 < total := by
  rw [executed_of_pulse h.pulse]
  omega

theorem ticks_of_resumes (hpos : 1 ≤ left) (hle : left ≤ N) (hsum : n + left = total)
    (hp : p.Resumes w.queues k) (hpulse : p.world.pulse 0 = some (some ⟨.cancel 0, N, left⟩, n)) :
    ∃ rank ≤ 4 * left, p.Ticks id N total k rank := by
  have hcounting := h.attended hp.world hpulse
  have hcontrol := hp.control
  obtain ⟨w₁, control⟩ := p
  cases hcontrol with
  | runs call => exact ⟨_, Nat.le_refl _, .runs hcounting hpos hle hsum call⟩
  | ends result => exact ⟨0, Nat.zero_le _, .returns (hcounting.executed_lt hpos hsum) result⟩

theorem ticks_of_executes (hpos : 1 ≤ left) (hlt : left < N) (hsum : n + left = total)
    (hp : p.Executes w.queues k) (hpulse : p.world.pulse 0 = some (some ⟨.cancel 0, N, left⟩, n)) :
    ∃ rank ≤ 4 * left + 3, p.Ticks id N total k rank := by
  have hworld := hp.world
  have hcontrol := hp.control
  obtain ⟨w₁, control⟩ := p
  cases hcontrol with
  | resumed resumed =>
    obtain ⟨rank, hrank, hticks⟩ := h.ticks_of_resumes hpos hlt.le hsum ⟨hworld, resumed⟩ hpulse
    exact ⟨rank, by omega, hticks⟩
  | performs call name turn mem =>
    exact ⟨_, Nat.le_refl _, .performs (h.attended hworld hpulse) hpos hlt hsum call name turn mem⟩

theorem ticks_runMachine (hpos : 1 ≤ left) (hle : left ≤ N) (hsum : n + left = total)
    (call : MachineCall) :
    ∃ rank < 4 * left, (w.runMachine 0 call k).Ticks id N total k rank := by
  have hcount := pulse_countInstruction h.pulse
  have htick := (h.serves.attended.modifyEngine (fun _ hE => hE.count) 0).tickHook.1
  rw [← World.countInstruction] at htick
  unfold World.runMachine
  split
  · have hleave := (within_leaveMachine (lasting_pulse 0 _).robust h.pulse 0 call (.ok ()) k).world
    have hcounting := h.attended (h.serves.attended.leaveMachine call (.ok ())).world hleave
    exact ⟨0, by omega, .returns (hcounting.executed_lt hpos hsum) _⟩
  · next op frames _ =>
    dsimp only
    by_cases hdue : left ≤ 1
    · obtain ⟨w₁, heq, hpulse, hqueues⟩ := tickHook_of_le hcount hdue
      have hcancelled : (w₁.queue? 0 >>= (·.cancelled?)) = some id := by
        rw [World.queue?, hqueues]
        exact h.cancelled
      rw [heq]
      dsimp only
      rw [fireHook, hcancelled]
      have htotal : n + 1 = total := by omega
      exact ⟨1, by omega, .cancels (htotal ▸ hpulse) _ _⟩
    · obtain ⟨w₁, heq, hpulse⟩ := tickHook_of_lt hcount (Nat.lt_of_not_le hdue)
      rw [heq] at htick ⊢
      have hcounting : w₁.Counting id N (n + 1) (left - 1) := by
        refine ⟨htick.serves, hpulse, ?_⟩
        rw [htick.queue?]
        exact h.cancelled
      have hsum₁ : n + 1 + (left - 1) = total := by omega
      obtain ⟨rank, hrank, hticks⟩ := hcounting.ticks_of_executes (by omega) (by omega) hsum₁
        (hcounting.serves.attended.executeOp { call with frames } op)
        (within_executeOp (lasting_pulse 0 _).robust hpulse 0 { call with frames } op k).world
      exact ⟨rank, by omega, hticks⟩

end World.Counting

namespace Process.Ticks

variable {N total rank : Nat} {k : Pending .call}

theorem turns (h : p.Ticks id N total k rank) : p.control.turns = k.turns := by
  cases h <;> rfl

theorem isOver (h : p.Ticks id N total k rank) : p.isOver = false := by
  cases h <;> rfl

/-- If hooks are due at every instruction then no host function is called. -/
theorem action? (h : p.Ticks id 1 total k rank) : p.control.action? = none := by
  cases h with
  | performs _ pos lt => omega
  | _ => rfl

theorem atTime (h : p.Ticks id N total k rank) (now : UInt64) :
    (p.atTime now).Ticks id N total k rank := by
  have hcounting : ∀ {w : World} {n left : Nat}, w.Counting id N n left →
      (w.setClock now).Counting id N n left := fun {w n left} hw =>
    hw.attended (hw.serves.attended.atTime now) hw.pulse
  cases h with
  | runs counting pos le sum call => exact .runs (hcounting counting) pos le sum call
  | performs counting pos lt sum call name turn mem =>
    exact .performs (hcounting counting) pos lt sum call name turn mem
  | answers counting pos lt sum call name turn action reply =>
    exact .answers (hcounting counting) pos lt sum call name turn action reply
  | hosted counting pos lt sum call name turn complaint =>
    exact .hosted (hcounting counting) pos lt sum call name turn complaint
  | @cancels w _ counted call op => exact .cancels (w := w.setClock now) counted call op
  | @returns w counted result => exact .returns (w := w.setClock now) counted result
  | @leaves w _ counted => exact .leaves (w := w.setClock now) counted

theorem step (h : p.Ticks id N total k rank) (hrank : 0 < rank)
    (hquiet : p.control.action? ≠ some interruption) :
    ∃ rank' < rank, p.step.Ticks id N total k rank' := by
  cases h with
  | runs counting pos le sum call => exact counting.ticks_runMachine pos le sum call
  | @performs w n left counting pos lt sum call name turn action mem =>
    have haction : action ≠ interruption := fun heq => hquiet (congrArg some heq)
    obtain ⟨w₁, reply, hstep, hw₁⟩ := counting.serves.attended.perform mem haction
      (.cons (.routine action [] none) (.cons (.host 0 call name turn) k))
    -- the hook does not count what a host function does, and no other action than an interrupt
    -- touches it
    have hpulse : w₁.pulse 0 = w.pulse 0 := by
      have hplain : action.run? = none ∧ ¬ action.Touches w 0 := by
        simp only [hostActions, List.mem_cons, List.not_mem_nil, or_false] at mem
        obtain rfl | rfl | rfl := mem
        · exact ⟨rfl, fun h => h⟩
        · exact ⟨rfl, fun h => h⟩
        · exact absurd rfl haction
      have hfollows := (w.within_perform hplain.1
        (.cons (.routine action [] none) (.cons (.host 0 call name turn) k))).world
      rw [hstep] at hfollows
      exact hfollows.pulse 0 hplain.2
    refine ⟨4 * left + 2, by omega, ?_⟩
    change (w.perform action _).Ticks id N total k _
    rw [hstep]
    exact .answers (counting.attended hw₁ (hpulse.trans counting.pulse)) pos lt sum call name turn
      action reply
  | answers counting pos lt sum call name turn action reply =>
    have hlogged :=
      counting.attended (counting.serves.attended.logged (.did action reply)) counting.pulse
    exact ⟨_, by omega, .hosted hlogged pos lt sum call name turn _⟩
  | @hosted w n left counting pos lt sum call name turn complaint =>
    obtain ⟨rank, hrank, hticks⟩ := counting.ticks_of_resumes pos lt.le sum
      (counting.serves.attended.hostReturned (k := k) call name turn complaint)
      (World.within_hostReturned (World.lasting_pulse 0 _).robust counting.pulse 0 call name turn complaint
        k).world
    exact ⟨rank, by omega, hticks⟩
  | @cancels w probe counted call op =>
    have haside : w.Aside (fun _ => False)
        (w.modifyMachine 0 fun m => { m with allocated := call.mark }) :=
      World.aside_modifyMachine w 0 fun m => by rfl
    exact ⟨0, by omega, .leaves ((haside.pulse 0 fun h => h).trans counted)⟩
  | returns | leaves => cases hrank

theorem ends (h : p.Ticks id N total k 0) :
    (∃ result, p.control = .deliver result k) ∧ p.world.executed 0 < total ∨
      p.control = .unwind (.cancelled id) k ∧ p.world.executed 0 = total := by
  generalize hrank : 0 = rank at h
  cases h with
  | returns counted result => exact .inl ⟨⟨result, rfl⟩, counted⟩
  | leaves counted => exact .inr ⟨rfl, World.executed_of_pulse counted⟩
  | runs | performs | answers | hosted | cancels => omega

end Process.Ticks

theorem World.Serves.exists_pulse (h : w.Serves) :
    ∃ probe, w.pulse 0 = some (probe, w.executed 0) := by
  obtain ⟨E, hE, hserves⟩ := h
  cases E with
  | machine E => exact ⟨E.probe, by simp [pulse, hE, Engine.pulse, executed, Engine.executed]⟩
  | pacer | inert => exact hserves.elim

/-- The step of an interrupted script begins with the hook of the queue on the machine. -/
theorem World.ticks_stepScript {t : ScriptTask} (hw : w.Serves) (hQ : w.queue? 0 = some Q)
    (hc : Q.current = some id) (hg : Q.get? id = some (.script t)) (ht : t.engine = 0)
    (harmed : t.armed = true) (k : Pending .verdict) :
    ∃ (t' : ScriptTask) (top rank : Nat), (w.stepScript 0 id t k).Ticks id Q.config.interval
      (w.executed 0 + Q.config.interval) (.cons (.script 0 id t' top) k) rank := by
  obtain ⟨engine, key, release, armed, ran⟩ := t
  obtain rfl : engine = 0 := ht
  obtain rfl : armed = true := harmed
  generalize hw₁ : w.modifyQueue 0 (·.modify id fun _ => .script ⟨0, key, release, true, true⟩) = w₁
  have hQ₁ : w₁.queue? 0 = some (Q.modify id fun _ => .script ⟨0, key, release, true, true⟩) := by
    rw [← hw₁, queue?_modifyQueue, hQ, Option.map_some]
  have hserves : w₁.Serves := hw₁ ▸ hw.modifyQueue 0 _
  obtain ⟨probe, hp⟩ := hw.exists_pulse
  have hp₁ : w₁.pulse 0 = some (probe, w.executed 0) := by
    rw [← hw₁, pulse_modifyQueue, hp]
  obtain ⟨Q₂, hQ₂, hpulse⟩ := pulse_installHook hQ₁ hp₁
  obtain rfl := Option.some.inj (hQ₁.symm.trans ((queue?_installHook w₁ 0 0 0).symm.trans hQ₂))
  have hcounting : (w₁.installHook 0 0).Counting id Q.config.interval (w.executed 0)
      Q.config.interval := by
    refine ⟨hserves.installHook 0, hpulse, ?_⟩
    rw [hQ₂]
    have hcurrent : (Q.modify id fun _ => .script ⟨0, key, release, true, true⟩).current =
        some id := hc
    have hrecord : (Q.modify id fun _ => .script ⟨0, key, release, true, true⟩).get? id =
        some (.script ⟨0, key, release, true, true⟩) := by
      rw [Queue.get?_modify, if_pos rfl, hg]
      rfl
    simp [Queue.cancelled?, hcurrent, hrecord, Task.armed]
  have hpos : 1 ≤ Q.config.interval := Nat.le_max_left ..
  obtain ⟨rank, _, hticks⟩ := hcounting.ticks_of_resumes hpos (Nat.le_refl _) rfl
    (hcounting.serves.attended.callProtected key .traceback)
    (within_callProtected (lasting_pulse 0 _).robust hpulse 0 key .traceback (.cons
      (.script 0 id ⟨0, key, release, true, true⟩ (((w.engine? 0).map (·.top)).getD 0)) k)).world
  refine ⟨⟨0, key, release, true, true⟩, ((w.engine? 0).map (·.top)).getD 0, rank, ?_⟩
  rw [stepScript]
  dsimp only
  rw [hw₁]
  exact hticks

theorem Process.Led.ticks_of_begins {t : ScriptTask} (h : p.Led Q f) (hbegins : p.Begins 0 id)
    (hg : Q.get? id = some (.script t)) (harmed : t.armed = true) :
    ∃ (t' : ScriptTask) (top : Nat) (walk : Walk) (k : Pending .pass) (rank : Nat),
      p.step.Ticks id Q.config.interval (p.world.executed 0 + Q.config.interval)
        (.cons (.script 0 id t' top) (.cons (.turn 0 id walk) k)) rank := by
  have henters := hbegins.enters
  generalize p.step = p' at henters
  cases henters with
  | @intro task walk k queued turns =>
    obtain rfl : task = .script t :=
      Option.some.inj (queued.symm.trans (World.task?_eq_some.2 ⟨Q, h.queue, hg⟩))
    have ht : t.engine = 0 := by cases h.members id _ hg; assumption
    have hQ₁ : (p.world.modifyQueue 0 (·.enter id)).queue? 0 = some (Q.enter id) := by
      rw [World.queue?_modifyQueue, h.queue, Option.map_some]
    obtain ⟨t', top, rank, hticks⟩ := World.ticks_stepScript
      (h.serves.modifyQueue 0 (·.enter id)) hQ₁ rfl hg ht harmed (.cons (.turn 0 id walk) k)
    exact ⟨t', top, walk, k, rank, hticks⟩

namespace CommandLine.Launch

variable {l : Launch} {clock : Clock} {n m N total rank : Nat} {k : Pending .call} {Q₀ : Queue}

theorem exists_ticks_zero (h : (l.after clock n).Ticks id N total k rank)
    (hquiet : N = 1 ∨ ∀ m, (l.after clock m).control.turns = k.turns →
      (l.after clock m).control.action? ≠ some interruption) :
    ∃ m, n ≤ m ∧ (l.after clock m).Ticks id N total k 0 ∧
      ∀ j, n ≤ j → j ≤ m → (l.after clock j).control.turns = k.turns := by
  -- every transition of the call lowers the rank, and at rank zero the call has ended
  induction rank using Nat.strong_induction_on generalizing n with
  | _ rank ih =>
    by_cases hrank : rank = 0
    · subst hrank
      refine ⟨n, Nat.le_refl n, h, fun j hnj hjn => ?_⟩
      obtain rfl := Nat.le_antisymm hnj hjn
      exact h.turns
    · have haction : (l.after clock n).control.action? ≠ some interruption := by
        obtain rfl | hquiet := hquiet
        · rw [h.action?]
          exact (Option.some_ne_none _).symm
        · exact hquiet n h.turns
      obtain ⟨rank', hlt, hnext⟩ := (h.atTime (clock n)).step (Nat.pos_of_ne_zero hrank) haction
      have hsucc : l.after clock (n + 1) = (l.moment clock n).step := by
        rw [after_succ, if_neg (by rw [h.isOver]; decide)]
      rw [← moment, ← hsucc] at hnext
      obtain ⟨m, hm, hticks, hturns⟩ := ih rank' hlt hnext
      refine ⟨m, by omega, hticks, fun j hnj hjm => ?_⟩
      obtain rfl | hlt := Nat.eq_or_lt_of_le hnj
      · exact h.turns
      · exact hturns j hlt hjm

theorem after_succ_of_begins {q : Nat} (h : (l.moment clock n).Begins q id) :
    l.after clock (n + 1) = (l.moment clock n).step := by
  rw [after_succ, if_neg]
  intro hover
  have hstep : (l.moment clock n).step = l.moment clock n := Process.step_of_isOver hover
  rw [Process.Begins, hstep] at h
  exact List.cons_ne_self _ _ h.symm

theorem config_after (h : l.process.Led Q₀ .rest) (hled : (l.after clock n).Led Q f) :
    Q.config = Q₀.config := by
  induction n generalizing Q f with
  | zero => rw [Option.some.inj (hled.queue.symm.trans h.queue)]
  | succ n ih =>
    obtain ⟨Q₁, f₁, hled₁⟩ := exists_led h clock n
    rw [← ih hled₁]
    have hqueue := hled.queue
    rw [after_succ] at hqueue
    split at hqueue
    · rw [Option.some.inj (hqueue.symm.trans hled₁.queue)]
    · have hmoment := hled₁.atTime (clock n)
      obtain ⟨Q₂, hQ₂, hmoves⟩ := World.queue?_of_rel (hmoment.sound.step.1.queues 0) hqueue
      obtain rfl := Option.some.inj (hmoment.queue.symm.trans hQ₂)
      exact hmoves.config hmoment.wellFormed

/-- The call of the script whose step begins comes to its end. It returns before so many
instructions have been counted, or it is cancelled at the last of them. -/
def Concludes (l : Launch) (clock : Clock) (n : Nat) (id : TaskId) (N : Nat) : Prop :=
  ∃ (m : Nat) (t : ScriptTask) (top : Nat) (k : Pending .verdict), n < m ∧
    (∀ j, n < j → j ≤ m → (0, id) ∈ (l.moment clock j).control.turns) ∧
    ((∃ result, (l.moment clock m).control = .deliver result (.cons (.script 0 id t top) k)) ∧
        (l.moment clock m).world.executed 0 < (l.moment clock n).world.executed 0 + N ∨
      (l.moment clock m).control = .unwind (.cancelled id) (.cons (.script 0 id t top) k) ∧
        (l.moment clock m).world.executed 0 = (l.moment clock n).world.executed 0 + N)

theorem concludes_of_armed {t : ScriptTask} (hled : (l.after clock n).Led Q f)
    (hbegins : (l.moment clock n).Begins 0 id) (hg : Q.get? id = some (.script t))
    (harmed : t.armed = true) (hquiet : Q.config.interval = 1 ∨ ∀ m, ¬ l.Interrupts clock m id) :
    l.Concludes clock n id Q.config.interval := by
  obtain ⟨t', top, walk, k, rank, hticks⟩ :=
    (hled.atTime (clock n)).ticks_of_begins hbegins hg harmed
  have hmem : (0, id) ∈ (Pending.cons (.script 0 id t' top) (.cons (.turn 0 id walk) k)).turns :=
    List.mem_cons_self ..
  rw [← moment, ← after_succ_of_begins hbegins] at hticks
  obtain ⟨m, hm, hzero, hturns⟩ := exists_ticks_zero hticks <| hquiet.imp_right fun hquiet m hturns
    haction => hquiet m ⟨haction, by rw [moment, Process.atTime, hturns]; exact hmem⟩
  refine ⟨m, t', top, .cons (.turn 0 id walk) k, hm, fun j hnj hjm => ?_,
    (hzero.atTime (clock m)).ends⟩
  rw [moment, Process.atTime, hturns j hnj hjm]
  exact hmem

/-- What interrupts a script is another script, in the middle of its step. -/
theorem exists_interrupts_iff (h : l.process.Led Q₀ .rest) (hled : (l.after clock n).Led Q f)
    (hbegins : (l.moment clock n).Begins 0 id) (hsome : (Q.flag? id).isSome) :
    (∃ m < n, (l.after clock m).control.action? = some interruption) ↔
      ∃ m < n, ∃ id' ≠ id, l.Interrupts clock m id' := by
  constructor
  · rintro ⟨m, hm, haction⟩
    obtain ⟨Q₁, f₁, hled₁⟩ := exists_led h clock m
    obtain ⟨Q₂, f₂, hled₂, hproceeds⟩ := led_succ hled₁
    cases hproceeds with
    | other quiet => exact absurd haction quiet
    | @alarms id' loud front alarms =>
      have hturn : (0, id') ∈ (l.after clock m).control.turns :=
        hled₁.stage.mem_turns.2 (by rw [front]; rfl)
      refine ⟨m, hm, id', ?_, haction, hturn⟩
      -- a script has one turn only, so none of its own comes after an interrupt of its own
      rintro rfl
      obtain hturn | hgone := turn_or_gone h hm.le hturn hled
      · exact (hled.atTime (clock n)).sound.not_mem_turns_of_begins hbegins id' hturn
      · rw [hgone] at hsome
        cases hsome
  · rintro ⟨m, hm, _, _, haction, _⟩
    exact ⟨m, hm, haction⟩

/-- The timeout reaches no script, whatever the clock says. While a script is queued, every turn
that begins is that of a script, so that the watchdog has its turn when all scripts have gone. When
the step of a script begins, the script has been interrupted just if another one has called
`interrupt` in its step. Then its call counts no more instructions than the interval says and is
cancelled at the last of them, unless it calls `interrupt` itself. -/
theorem timeout_reaches_no_script {read : Reading} {r : RunRequest} {settings : Settings}
    {lines : List String} (hsettings : resolve read r = .ok settings)
    (hlaunch : launch read (clock 0) r = (lines, .ok l)) :
    (∀ n id, (l.moment clock n).Begins 0 id →
      (∀ t, (l.moment clock n).world.task? 0 id ≠ some (.script t)) →
      ∀ id' t, (l.moment clock n).world.task? 0 id' ≠ some (.script t)) ∧
    ∀ n id t, (l.moment clock n).Begins 0 id →
      (l.moment clock n).world.task? 0 id = some (.script t) →
      (t.armed = true ↔ ∃ m < n, ∃ id' ≠ id, l.Interrupts clock m id') ∧
      (t.armed = true → settings.queue.interval = 1 ∨ (∀ m, ¬ l.Interrupts clock m id) →
        l.Concludes clock n id settings.queue.interval) := by
  obtain ⟨Q₀, hled₀, hpoised⟩ := exists_led_launch hsettings hlaunch
  have hflags : Q₀.Flagged False := fun id flag hflag => by
    simp [hpoised.flags id flag hflag]
  refine ⟨fun n id hbegins hplain id' t ht => ?_, fun n id t hbegins ht => ?_⟩
  · obtain ⟨Q, f, hled⟩ := exists_led hled₀ clock n
    obtain ⟨_, hQ, hg⟩ := World.task?_eq_some.1 ht
    obtain rfl := Option.some.inj (hled.queue.symm.trans hQ)
    have hs : Q.Scripted := ⟨id', by rw [Queue.flag?, hg]; rfl⟩
    have hsome := (hled.atTime (clock n)).isSome_of_begins hbegins hs
    obtain ⟨t', ht'⟩ := Queue.exists_script hsome
    exact hplain t' (World.task?_eq_some.2 ⟨Q, hled.queue, ht'⟩)
  · obtain ⟨Q, f, hled⟩ := exists_led hled₀ clock n
    obtain ⟨_, hQ, hg⟩ := World.task?_eq_some.1 ht
    obtain rfl := Option.some.inj (hled.queue.symm.trans hQ)
    have hflag : Q.flag? id = some t.armed := by rw [Queue.flag?, hg]; rfl
    have hconfig := (config_after hled₀ hled).trans hpoised.config
    have hiff := flagged_after hled₀ hflags clock hled id t.armed hflag
    refine ⟨hiff.trans (exists_interrupts_iff hled₀ hled hbegins (by rw [hflag]; rfl)),
      fun harmed hquiet => ?_⟩
    rw [← hconfig] at hquiet ⊢
    exact concludes_of_armed hled hbegins hg harmed hquiet

end CommandLine.Launch

namespace CommandLine

def launched? (read : Reading) (now : UInt64) (r : RunRequest) : Option Launch :=
  (launch read now r).2.toOption

theorem exists_launch_eq {read : Reading} {now : UInt64} {r : RunRequest} {l : Launch}
    (h : launched? read now r = some l) : ∃ lines, launch read now r = (lines, .ok l) := by
  unfold launched? at h
  generalize launch read now r = launched at h
  obtain ⟨lines, failure | l'⟩ := launched
  · cases h
  · cases h
    exact ⟨lines, rfl⟩

def twoScripts : Reading := fun path =>
  if path = "stop" then some "host interrupt".toUTF8.data.toList
  else if path = "print" then some "push 1\nhost print".toUTF8.data.toList
  else none

def hasty (files : List String) : RunRequest :=
  { files, timeout := some 0, overrides := { hookInterval := some 1 } }

theorem exists_begins {read : Reading} {r : RunRequest} {clock : Clock} {n : Nat} {flag : Bool}
    (h : (launched? read (clock 0) r).map (fun l =>
      (((l.moment clock n).world.task? 0 id).bind Task.flag?, (l.moment clock n).control.turns,
        (l.moment clock n).step.control.turns)) = some (some flag, [], [(0, id)])) :
    ∃ l t, launched? read (clock 0) r = some l ∧ (l.moment clock n).Begins 0 id ∧
      (l.moment clock n).world.task? 0 id = some (.script t) ∧ t.armed = flag := by
  obtain ⟨l, hl, h⟩ := Option.map_eq_some_iff.1 h
  obtain ⟨hflag, hturns, hstep⟩ : _ ∧ _ ∧ _ := by simpa only [Prod.mk.injEq] using h
  obtain ⟨task, htask, hflag⟩ := Option.bind_eq_some_iff.1 hflag
  cases task with
  | script t =>
    refine ⟨l, t, hl, ?_, htask, Option.some.inj hflag⟩
    rw [Process.Begins, hstep, hturns]
  | idle | timer | watcher => cases hflag

/-- A script that comes after one that interrupts is cancelled at its first instruction. -/
theorem timeout_reaches_no_script_stopped :
    ∃ l, launched? twoScripts 0 (hasty ["stop", "print"]) = some l ∧
      (l.moment (Clock.still 0) 8).Begins 0 ⟨2, 1⟩ ∧
      (∃ m < 8, ∃ id' ≠ ⟨2, 1⟩, l.Interrupts (Clock.still 0) m id') ∧
      l.Concludes (Clock.still 0) 8 ⟨2, 1⟩ 1 := by
  obtain ⟨l, t, hl, hbegins, htask, harmed⟩ :=
    @exists_begins ⟨2, 1⟩ twoScripts (hasty ["stop", "print"]) (Clock.still 0) 8 true
      (by decide +kernel)
  obtain ⟨lines, hlaunch⟩ := exists_launch_eq hl
  obtain ⟨hiff, hconcludes⟩ :=
    (Launch.timeout_reaches_no_script rfl hlaunch).2 8 ⟨2, 1⟩ t hbegins htask
  exact ⟨l, hl, hbegins, hiff.1 harmed, hconcludes harmed (.inl rfl)⟩

/-- A script that has no time runs to its end. When its step begins the time of the run is up and
the script has not been interrupted; it executes both its instructions. -/
theorem late_script_prints :
    (∃ l t, launched? twoScripts 0 (hasty ["print"]) = some l ∧
      (l.moment (Clock.still 0) 0).Begins 0 ⟨1, 1⟩ ∧
      (l.moment (Clock.still 0) 0).world.task? 0 ⟨1, 1⟩ = some (.script t) ∧ t.armed = false) ∧
    (launched? twoScripts 0 (hasty ["print"])).map (fun l =>
      ((l.moment (Clock.still 0) 0).world.executed 0,
        (l.after (Clock.still 0) 100).world.executed 0)) = some (0, 2) ∧
    run? 100 twoScripts (Clock.still 0) (hasty ["print"]) =
      some ⟨["u Running script...", "S 1", "1"], none⟩ :=
  ⟨@exists_begins ⟨1, 1⟩ twoScripts (hasty ["print"]) (Clock.still 0) 0 false (by decide +kernel),
    by decide +kernel⟩

end CommandLine

end TaskLoop
