import Mathlib
import TaskLoop.Proofs.Charges
import TaskLoop.Proofs.Countdown
import TaskLoop.Proofs.Course

namespace TaskLoop

variable {a b c : Hole} {w : World} {q e : Nat} {id : TaskId} {p : Process}

def Activation.waits : Activation a b → Nat
  | .counted .. => 1
  | _ => 0

def Pending.waiting : {a : Hole} → Pending a → Nat
  | _, .outermost => 0
  | _, .cons f k => f.waits + k.waiting

def Control.waiting : Control → Nat
  | .perform _ k => k.waiting
  | .deliver _ k => k.waiting
  | .unwind _ k => k.waiting
  | _ => 0

namespace World

theorem waiting_callBack (w : World) (actions : List Action) (k : Pending .routine) :
    (w.callBack actions k).control.waiting = k.waiting := by
  cases actions with
  | nil => rfl
  | cons action rest => exact Nat.zero_add _

theorem waiting_fireHook (w : World) (hook : Hook) (instruction depth : Nat) (k : Pending .done) :
    (w.fireHook hook instruction depth k).control.waiting = k.waiting := by
  cases hook with
  | cancel q =>
    simp only [fireHook]
    split <;> rfl
  | user label fires => exact (waiting_callBack ..).trans (Nat.zero_add _)

theorem pulse_fireHook (w : World) (hook : Hook) (instruction depth : Nat) (k : Pending .done) :
    (w.fireHook hook instruction depth k).world.pulse e = w.pulse e := by
  cases hook with
  | cancel q =>
    simp only [fireHook]
    split <;> rfl
  | user label fires =>
    rw [fireHook, world_callBack]
    rfl

theorem waiting_failMachine (w : World) (e : Nat) (call : MachineCall) (fault : Fault)
    (k : Pending .call) : (w.failMachine e call fault k).control.waiting = k.waiting := by
  cases fault <;> rfl

theorem waiting_executeOp (w : World) (e : Nat) (call : MachineCall) (op : Op) (k : Pending .call) :
    (w.executeOp e call op k).control.waiting = k.waiting := by
  unfold executeOp
  split
  · rfl
  · split
    · exact Nat.zero_add _
    · exact waiting_failMachine ..
    · unfold callHost
      split
      · exact waiting_failMachine ..
      · dsimp only
        split
        · exact Nat.zero_add _
        · exact (waiting_callBack ..).trans (Nat.zero_add _)

end World

namespace World

variable {w' : World} {h : Hook} {m c fired left n : Nat}

/-- The hook was set for every `m` instructions when the machine had counted `c` of them, and it has
been invoked so many times since. The machine has counted `n` instructions by now. -/
structure Scheduled (w : World) (e : Nat) (h : Hook) (m c fired left n : Nat) : Prop where
  pulse : w.pulse e = some (some ⟨Hook.rest^[fired] h, m, left⟩, n)
  due : n + left = c + (fired + 1) * m
  positive : 1 ≤ left
  bounded : left ≤ m

namespace Scheduled

theorem of_pulse (hs : w.Scheduled e h m c fired left n) (hp : w'.pulse e = w.pulse e) :
    w'.Scheduled e h m c fired left n :=
  ⟨hp.trans hs.pulse, hs.due, hs.positive, hs.bounded⟩

theorem executed (hs : w.Scheduled e h m c fired left n) : w.executed e = n :=
  executed_of_pulse hs.pulse

theorem counts (hs : w.Scheduled e h m c fired left n) (hearly : 1 < left)
    (hp : w'.pulse e = some (some ⟨Hook.rest^[fired] h, m, left - 1⟩, n + 1)) :
    w'.Scheduled e h m c fired (left - 1) (n + 1) := by
  obtain ⟨_, hdue, _, hbounded⟩ := hs
  exact ⟨hp, by omega, by omega, by omega⟩

theorem fires (hs : w.Scheduled e h m c fired left n) (hdue : left ≤ 1)
    (hp : w'.pulse e = some (some ⟨(Hook.rest^[fired] h).rest, m, m⟩, n + 1)) :
    w'.Scheduled e h m c (fired + 1) m (n + 1) := by
  obtain ⟨_, hnow, hpositive, hbounded⟩ := hs
  rw [← Function.iterate_succ_apply' Hook.rest] at hp
  refine ⟨hp, ?_, Nat.le_trans hpositive hbounded, Nat.le_refl m⟩
  obtain rfl : left = 1 := Nat.le_antisymm hdue hpositive
  rw [hnow, Nat.add_assoc, ← Nat.succ_mul]

end Scheduled

end World

namespace Process

/-- The next transition counts an instruction of the machine and invokes a hook, which is told the
number of the instruction and a depth. The machine has done nothing but count the instruction, which
waits on the stack until the hook has returned. -/
def InvokesHook (p : Process) (e : Nat) (hook : Hook) (instruction depth : Nat) : Prop :=
  ∃ (call : MachineCall) (op : Op) (frames : List CallFrame) (k : Pending .call) (w₁ : World),
    p.control = .deliver () (.cons (.machine e call) k) ∧
    call.program.fetch call.frames = some (op, frames) ∧
    p.step = w₁.fireHook hook instruction depth (.cons (.counted e { call with frames } op) k) ∧
    w₁.machine? e = (p.world.machine? e).map Machine.count

inductive Beat (p p' : Process) (e : Nat) (h : Hook) (m c fired left n : Nat) : Prop
  | rests (scheduled : p'.world.Scheduled e h m c fired left n)
      (silent : ∀ hook instruction depth, ¬ p.InvokesHook e hook instruction depth)
  | counts (early : 1 < left) (scheduled : p'.world.Scheduled e h m c fired (left - 1) (n + 1))
      (silent : ∀ hook instruction depth, ¬ p.InvokesHook e hook instruction depth)
  | fires (due : left = 1) (scheduled : p'.world.Scheduled e h m c (fired + 1) m (n + 1))
      (call : MachineCall) (innermost : p'.control.calls.head? = some (e, call))
      (invokes : p.InvokesHook e (Hook.rest^[fired] h) (n + 1) call.frames.length)

theorem InvokesHook.ticks {hook : Hook} {instruction depth : Nat}
    (h : p.InvokesHook e hook instruction depth) : p.control.Ticks e := by
  obtain ⟨call, op, frames, k, w₁, hcontrol, _⟩ := h
  rw [hcontrol]
  exact rfl

variable {h : Hook} {m c fired left n : Nat} {call : MachineCall} {k : Pending .call}

theorem beat_machine (hs : w.Scheduled e h m c fired left n) :
    Beat ⟨w, .deliver () (.cons (.machine e call) k)⟩ (w.runMachine e call k) e h m c fired left n := by
  have hcount := World.pulse_countInstruction hs.pulse
  cases hfetch : call.program.fetch call.frames with
  | none =>
    have hrun : w.runMachine e call k = w.leaveMachine e call (.ok ()) k := by
      rw [World.runMachine, hfetch]
    refine .rests (hs.of_pulse ?_) ?_
    · rw [hrun]
      exact (World.within_leaveMachine (World.lasting_pulse e (w.pulse e)).robust rfl e call _ k).world
    · rintro hook' instruction depth ⟨call', op, frames, k', w₁, hcontrol, hsome, _⟩
      cases hcontrol
      rw [hfetch] at hsome
      cases hsome
  | some fetched =>
    obtain ⟨op, frames⟩ := fetched
    by_cases hdue : left ≤ 1
    · obtain ⟨w₁, htick, hp₁, _⟩ := World.tickHook_of_le hcount hdue
      have hrun : w.runMachine e call k = w₁.fireHook (Hook.rest^[fired] h) (n + 1) frames.length
          (.cons (.counted e { call with frames } op) k) := by
        rw [World.runMachine, hfetch]
        dsimp only
        rw [htick]
        dsimp only
        rw [World.executed_of_pulse hp₁]
      have hmachine := World.machine?_tickHook (w.countInstruction e) e e
      rw [htick, World.countInstruction, World.machine?_modifyEngine Engine.machine?_count,
        if_pos rfl] at hmachine
      have hcalls := (World.idles_fireHook (World.Frugal.refl w₁) (Hook.rest^[fired] h) (n + 1)
        frames.length (.cons (.counted e { call with frames } op) k)).calls
      refine .fires (Nat.le_antisymm hdue hs.positive) (hs.fires hdue ?_) { call with frames } ?_ ?_
      · rw [hrun, World.pulse_fireHook, hp₁]
      · rw [hrun, hcalls]
        rfl
      · exact ⟨call, op, frames, k, w₁, rfl, hfetch, (step_deliver ..).trans hrun, hmachine⟩
    · obtain ⟨w₁, htick, hp₁⟩ := World.tickHook_of_lt hcount (Nat.lt_of_not_le hdue)
      have hrun : w.runMachine e call k = w₁.executeOp e { call with frames } op k := by
        rw [World.runMachine, hfetch]
        dsimp only
        rw [htick]
      refine .counts (Nat.lt_of_not_le hdue) (hs.counts (Nat.lt_of_not_le hdue) ?_) ?_
      · rw [hrun]
        exact (World.within_executeOp (World.lasting_pulse e _).robust hp₁ e _ op k).world
      · rintro hook' instruction depth ⟨call', op', frames', k', w₂, hcontrol, _, hstep, _⟩
        cases hcontrol
        -- an invocation would leave one more instruction waiting
        have hwaiting := congrArg (·.control.waiting) ((step_deliver ..).symm.trans hstep)
        simp only [Activation.resume, hrun, World.waiting_executeOp, World.waiting_fireHook,
          Pending.waiting, Activation.waits] at hwaiting
        omega

/-- A machine is on its way, and its hook is neither set nor cleared. -/
theorem beat (hsound : p.Sound) (hs : p.world.Scheduled e h m c fired left n)
    (hkept : ¬ p.Rehooks e) (hpacers : e ∉ p.control.pacers) : Beat p p.step e h m c fired left n := by
  by_cases hticks : p.control.Ticks e
  · obtain ⟨w, control⟩ := p
    cases control with
    | deliver result k =>
      cases k with
      | outermost => exact hticks.elim
      | cons f k =>
        cases f with
        | machine e' call =>
          obtain rfl : e' = e := hticks
          rw [step_deliver]
          exact beat_machine hs
        | pacer e' call | triggered e' instruction depth call =>
          obtain rfl : e' = e := hticks
          exact absurd (List.mem_cons_self ..) hpacers
        | _ => exact hticks.elim
    | _ => exact hticks.elim
  · exact .rests (hs.of_pulse (hsound.step.1.pulse e fun h => h.elim hkept hticks)) fun _ _ _ h => hticks h.ticks

end Process

instance (f : Activation a b) : Decidable f.Plain :=
  match f with
  | .routine .. | .unheeded | .callReply | .doneReply .. | .machine .. | .counted .. | .host ..
  | .pacer .. | .triggered .. => isTrue trivial
  | .idle .. | .firing .. | .quiet .. | .rested | .script .. | .turn .. | .walk .. | .drain ..
  | .forever .. | .passReply | .runReply | .sweep .. | .cleanup .. => isFalse fun h => h

def Action.handlesHook : Action → Bool
  | .engine _ (.setHook ..) | .engine _ .clearHook => true
  | _ => false

/-- Whether nothing goes on but callbacks and protected calls, and no action that handles a queue or a
hook. -/
def Control.plain : Control → Bool
  | .perform action _ => !action.tampers && !action.handlesHook
  | .deliver _ (.cons f _) => decide f.Plain
  | .unwind _ (.cons f _) => decide f.Plain
  | _ => true

/-- Protected calls neither set nor clear a hook by themselves, however they go on and end. -/
theorem Process.not_rehooks_of_plain (h : p.control.plain = true) : ¬ p.Rehooks e := by
  have hR : World.Lasting (fun _ => True) (fun _ => True) := fun _ _ _ _ => trivial
  have hbegins : ∀ {q id}, p.step.control.turns = p.control.turns → ¬ p.Begins q id :=
    fun hturns hb => List.cons_ne_self _ _ (hb.symm.trans hturns)
  obtain ⟨w, control⟩ := p
  rintro (hrehooks | ⟨q, id, hb, _⟩)
  · cases control with
    | perform action k =>
      cases action with
      | queue q action =>
        cases action with
        | contains | kind | count | isEmpty | ids | current | stats | config | now | describe
        | messages | tagged | notify | clearMessages => exact hrehooks
        | _ => cases h
      | engine e' action =>
        cases action with
        | setHook | clearHook => cases h
        | _ => exact hrehooks
      | _ => exact hrehooks
    | deliver result k =>
      cases k with
      | outermost => exact hrehooks
      | cons f k =>
        cases f with
        | script | turn | sweep => cases h
        | _ => exact hrehooks
    | unwind payload k =>
      cases k with
      | outermost => exact hrehooks
      | cons f k =>
        cases f with
        | script | turn => cases h
        | _ => exact hrehooks
    | _ => exact hrehooks
  · refine hbegins ?_ hb
    cases control with
    | perform action k =>
      have htampers : action.tampers = false := by simpa using (Bool.and_eq_true_iff.1 h).1
      exact (w.within_perform_beside htampers k).stack.turns
    | deliver result k =>
      cases k with
      | outermost => rfl
      | cons f k =>
        have hf : f.Plain := of_decide_eq_true h
        rw [step_deliver, Control.turns, Pending.turns_cons hf.turn?]
        exact (hf.within hR.robust trivial (fun _ _ => trivial) result k).stack.turns
    | unwind payload k =>
      cases k with
      | outermost => rfl
      | cons f k =>
        have hf : f.Plain := of_decide_eq_true h
        rw [step_unwind, Control.turns, Pending.turns_cons hf.turn?]
        cases f with
        | quiet | script | turn | sweep | cleanup => exact hf.elim
        | _ => rfl
    | _ => rfl

namespace World

theorem isSome_machine? (w : World) (e : Nat) : (w.machine? e).isSome = (w.pulse e).isSome := by
  rw [machine?, pulse]
  cases w.engine? e with
  | none => rfl
  | some E => cases E <;> rfl

theorem pulse_begin (w : World) (command : Command) (e : Nat) :
    (w.begin command).world.pulse e = w.pulse e :=
  begin_induction (motive := fun p => p.world.pulse e = w.pulse e) (fun _ => rfl) rfl
    (fun _ _ _ => rfl) command

theorem pacers_begin (w : World) (command : Command) : (w.begin command).control.pacers = [] :=
  begin_induction (motive := fun p => p.control.pacers = []) (fun _ => rfl) rfl (fun _ _ _ => rfl) command

end World

namespace Course

variable {s : Course} {i j l : Nat} {h : Hook} {m c fired left n : Nat}

theorem isSome_pulse_succ (s : Course) (i e : Nat) :
    ((s (i + 1)).world.pulse e).isSome = ((s i).world.pulse e).isSome := by
  obtain hstep | ⟨_, command, hbegin⟩ := s.step_or_begin i
  · rw [hstep]
    exact (s.sound i).step.1.machines e
  · rw [hbegin, World.pulse_begin]

theorem not_mem_pacers (h : ((s i).world.pulse e).isSome) : e ∉ (s i).control.pacers := by
  induction i with
  | zero =>
    obtain ⟨start, queues, engines, hfresh⟩ := s.starts
    rw [show s 0 = _ from hfresh]
    exact List.not_mem_nil
  | succ i ih =>
    rw [isSome_pulse_succ] at h
    obtain hstep | ⟨_, command, hbegin⟩ := s.step_or_begin i
    · rw [hstep]
      intro he
      obtain hold | hnone := (s i).paces_step e he
      · exact ih h hold
      · rw [← World.isSome_machine?, hnone] at h
        cases h
    · rw [hbegin, World.pacers_begin]
      exact List.not_mem_nil

theorem beat (hs : (s i).world.Scheduled e h m c fired left n) (hkept : ¬ (s i).Rehooks e) :
    (s i).Beat (s (i + 1)) e h m c fired left n := by
  obtain hstep | ⟨hended, command, hbegin⟩ := s.step_or_begin i
  · rw [hstep]
    exact Process.beat (s.sound i) hs hkept (not_mem_pacers (by rw [hs.pulse]; rfl))
  · rw [hbegin]
    refine .rests (hs.of_pulse (World.pulse_begin _ command e)) fun hook instruction depth hinvokes => ?_
    obtain ⟨call, op, frames, k, w₁, hcontrol, _⟩ := hinvokes
    rw [hcontrol] at hended
    cases hended

/-- A hook stays on schedule until it is set again or cleared. -/
theorem scheduled (hs : (s i).world.Scheduled e h m c 0 m c) (hij : i ≤ j)
    (hkept : ∀ l, i ≤ l → l < j → ¬ (s l).Rehooks e) :
    ∃ fired left n, (s j).world.Scheduled e h m c fired left n := by
  induction hij with
  | refl => exact ⟨0, m, c, hs⟩
  | @step j hij ih =>
    obtain ⟨fired, left, n, hj⟩ := ih fun l hil hlj => hkept l hil (Nat.lt_succ_of_lt hlj)
    cases beat hj (hkept j hij (Nat.lt_succ_self j)) with
    | rests scheduled => exact ⟨_, _, _, scheduled⟩
    | counts _ scheduled => exact ⟨_, _, _, scheduled⟩
    | fires _ scheduled => exact ⟨_, _, _, scheduled⟩

section

variable (hs : (s i).world.Scheduled e h m c 0 m c)
  (hkept : ∀ l, i ≤ l → l < j → ¬ (s l).Rehooks e)

include hs hkept

theorem executed_mono {l₁ l₂ : Nat} (hil : i ≤ l₁) (hl : l₁ ≤ l₂) (hlj : l₂ ≤ j) :
    (s l₁).world.executed e ≤ (s l₂).world.executed e := by
  induction hl with
  | refl => exact Nat.le_refl _
  | @step l₂ hl ih =>
    have hlt : l₂ < j := hlj
    apply Nat.le_trans (ih (Nat.le_of_lt hlt))
    have hil₂ := Nat.le_trans hil hl
    obtain ⟨fired, left, n, hl₂⟩ := scheduled hs hil₂ fun l h₁ h₂ => hkept l h₁ (by omega)
    rw [hl₂.executed]
    cases beat hl₂ (hkept l₂ hil₂ hlt) with
    | rests scheduled => rw [scheduled.executed]
    | counts _ scheduled => rw [scheduled.executed]; omega
    | fires _ scheduled => rw [scheduled.executed]; omega

/-- Where a hook is invoked, the counter has come to one of its values. -/
theorem value_of_invokesHook {hook : Hook} {instruction depth : Nat} (hil : i ≤ l) (hlj : l < j)
    (hinvokes : (s l).InvokesHook e hook instruction depth) :
    ∃ n call, 1 ≤ n ∧ (s l).world.executed e + 1 = c + n * m ∧
      (s (l + 1)).world.executed e = c + n * m ∧
      (s (l + 1)).control.calls.head? = some (e, call) ∧
      (s l).InvokesHook e (Hook.rest^[n - 1] h) (c + n * m) call.frames.length := by
  obtain ⟨fired, left, n, hl⟩ := scheduled hs hil fun l' h₁ h₂ => hkept l' h₁ (by omega)
  cases beat hl (hkept l hil hlj) with
  | rests _ silent => exact absurd hinvokes (silent _ _ _)
  | counts _ _ silent => exact absurd hinvokes (silent _ _ _)
  | fires due scheduled call innermost invokes =>
    have hvalue : n + 1 = c + (fired + 1) * m := by
      have hdue := hl.due
      rwa [due] at hdue
    refine ⟨fired + 1, call, Nat.le_add_left 1 fired, ?_, ?_, innermost, ?_⟩
    · rw [hl.executed, hvalue]
    · rw [scheduled.executed, hvalue]
    · rw [← hvalue]
      exact invokes

/-- The counter does not pass one of its values without the hook. -/
theorem exists_invokesHook (hij : i ≤ j) (hn : 1 ≤ n)
    (hreached : c + n * m ≤ (s j).world.executed e) :
    ∃ l, i ≤ l ∧ l < j ∧ (s (l + 1)).world.executed e = c + n * m ∧
      ∃ hook instruction depth, (s l).InvokesHook e hook instruction depth := by
  induction hij with
  | refl =>
    have hpositive := Nat.le_trans hs.positive hs.bounded
    have hgrows := Nat.mul_pos hn hpositive
    rw [hs.executed] at hreached
    omega
  | @step j hij ih =>
    have hkept' : ∀ l, i ≤ l → l < j → ¬ (s l).Rehooks e := fun l h₁ h₂ => hkept l h₁ (by omega)
    by_cases hbefore : c + n * m ≤ (s j).world.executed e
    · obtain ⟨l, hil, hlj, hl⟩ := ih hkept' hbefore
      exact ⟨l, hil, Nat.lt_succ_of_lt hlj, hl⟩
    · obtain ⟨fired, left, count, hj⟩ := scheduled hs hij hkept'
      rw [hj.executed] at hbefore
      cases beat hj (hkept j hij (Nat.lt_succ_self j)) with
      | rests scheduled =>
        rw [scheduled.executed] at hreached
        exact absurd hreached hbefore
      | counts early scheduled =>
        -- the value would lie strictly between two multiples
        rw [scheduled.executed] at hreached
        have hdue := hj.due
        have hbounded := hj.bounded
        have hlt : n * m < (fired + 1) * m := by omega
        have hle := Nat.mul_le_mul_right m (Nat.lt_of_mul_lt_mul_right hlt)
        rw [Nat.succ_mul] at hle
        omega
      | fires due scheduled call _ invokes =>
        rw [scheduled.executed] at hreached
        refine ⟨j, hij, Nat.lt_succ_self j, ?_, _, _, _, invokes⟩
        rw [scheduled.executed]
        omega

end

/-- From the moment a hook is set on a machine, until its hook is set again or cleared, whatever
programs are called and however the calls end: a hook is invoked only when the counter comes to a
multiple of the interval past what it was when the hook was set, and once for each of them that the
counter comes to. It is the hook that was set, as its firings so far have left it. It is told the
counter and how many frames the innermost protected call has, and the instruction waits for it. -/
theorem hook_schedule (s : Course) {i j : Nat} {E : MachineEngine} {h : Hook} {every : Nat}
    (hset : (s i).world.engine? e = some ((Engine.machine E).setHook h every)) (hij : i ≤ j)
    (hkept : ∀ l, i ≤ l → l < j → ¬ (s l).Rehooks e) :
    (∀ l hook instruction depth, i ≤ l → l < j → (s l).InvokesHook e hook instruction depth →
      ∃ n call, 1 ≤ n ∧ (s (l + 1)).world.executed e = E.machine.executed + n * max every 1 ∧
        (s (l + 1)).control.calls.head? = some (e, call) ∧
        (s l).InvokesHook e (Hook.rest^[n - 1] h) (E.machine.executed + n * max every 1)
          call.frames.length) ∧
    ∀ n, 1 ≤ n → E.machine.executed + n * max every 1 ≤ (s j).world.executed e →
      ∃! l, i ≤ l ∧ l < j ∧
        (s (l + 1)).world.executed e = E.machine.executed + n * max every 1 ∧
        ∃ hook instruction depth, (s l).InvokesHook e hook instruction depth := by
  have hs : (s i).world.Scheduled e h (max every 1) E.machine.executed 0 (max every 1)
      E.machine.executed := by
    refine ⟨?_, by omega, Nat.le_max_right .., Nat.le_refl _⟩
    rw [World.pulse, hset]
    rfl
  refine ⟨fun l hook instruction depth hil hlj hinvokes => ?_, fun n hn hreached => ?_⟩
  · obtain ⟨n, call, hn, _, hvalue⟩ := value_of_invokesHook hs hkept hil hlj hinvokes
    exact ⟨n, call, hn, hvalue⟩
  · obtain ⟨l, hil, hlj, hvalue, hinvokes⟩ := exists_invokesHook hs hkept hij hn hreached
    refine ⟨l, ⟨hil, hlj, hvalue, hinvokes⟩, ?_⟩
    -- a later invocation finds the counter at the value already, an earlier one leaves it there
    have hlate : ∀ l₁ l₂, i ≤ l₁ → l₁ < l₂ → l₂ < j →
        (s (l₁ + 1)).world.executed e = (s (l₂ + 1)).world.executed e →
        ¬ ∃ hook instruction depth, (s l₂).InvokesHook e hook instruction depth := by
      rintro l₁ l₂ hil₁ hlt hl₂j heq ⟨hook, instruction, depth, hinvokes₂⟩
      obtain ⟨n₂, call, _, hbefore, hafter, _⟩ :=
        value_of_invokesHook hs hkept (by omega) hl₂j hinvokes₂
      have hmono : (s (l₁ + 1)).world.executed e ≤ (s l₂).world.executed e :=
        executed_mono hs hkept (by omega) hlt (by omega)
      omega
    rintro l' ⟨hil', hlj', hvalue', hinvokes'⟩
    obtain hlt | rfl | hlt := Nat.lt_trichotomy l' l
    · exact absurd hinvokes (hlate l' l hil' hlt hlj (hvalue'.trans hvalue.symm))
    · rfl
    · exact absurd hinvokes' (hlate l l' hil hlt hlj' (hvalue.trans hvalue'.symm))

/-- A machine with a hook for every second instruction. A program is called that raises an error, and
then one whose host function lets a payload out. The first time it is invoked, the hook itself calls
the first program. -/
def hooking : Course :=
  .ofCommands [] [.machine {}] [
    .act (.engine 0 (.host "h" [⟨[.unwind "x"], none, false⟩])),
    .act (.engine 0 (.load "a" "push 1\npush 2\nraise y".toUTF8.data.toList)),
    .act (.engine 0 .reference),
    .act (.engine 0 (.load "b" "push 1\npush 2\nhost h".toUTF8.data.toList)),
    .act (.engine 0 .reference),
    .act (.engine 0 (.setHook 2 "t" [[.engine 0 (.call 0 .traceback)]])),
    .act (.engine 0 (.call 0 .traceback)), .act (.engine 0 (.call 1 .traceback))]

theorem engine?_of_setHook {E : Engine} {label : String} {fires : List (List Action)} {every : Nat}
    (hE : (s i).world.engine? e = some E)
    (haction : (s i).control.action? = some (.engine e (.setHook every label fires))) :
    (s (i + 1)).world.engine? e = some (E.setHook (.user label fires) every) := by
  cases hc : (s i).control with
  | perform action k =>
    rw [hc] at haction
    cases haction
    rw [succ_eq_step (by rw [hc]; rfl), Process.step, hc]
    dsimp only
    rw [World.perform, hE]
    dsimp only [World.performOnEngine, World.deliver]
    rw [World.setEngine_eq_modifyEngine, World.engine?_modifyEngine, hE]
    rfl
  | _ => rw [hc] at haction; cases haction

theorem hook_schedule_hooking :
    (∀ l < 49, 17 ≤ l → (hooking l).control.plain = true) ∧ (hooking 49).world.executed 0 = 9 ∧
    ∀ n, 1 ≤ n → n ≤ 4 → ∃! l, 17 ≤ l ∧ l < 49 ∧
      (hooking (l + 1)).world.executed 0 = 0 + n * max 2 1 ∧
      ∃ hook instruction depth, (hooking l).InvokesHook 0 hook instruction depth := by
  have hplain : ∀ l < 49, 17 ≤ l → (hooking l).control.plain = true := by decide +kernel
  have hexecuted : (hooking 49).world.executed 0 = 9 := by decide +kernel
  have hmachine : ((hooking 16).world.machine? 0).map (·.executed) = some 0 := by decide +kernel
  obtain ⟨m, hm, hzero⟩ := Option.map_eq_some_iff.1 hmachine
  obtain ⟨E, hE, hkind⟩ := Option.bind_eq_some_iff.1 hm
  have haction : (hooking 16).control.action? =
      some (.engine 0 (.setHook 2 "t" [[.engine 0 (.call 0 .traceback)]])) := by cbv
  cases E with
  | machine E =>
    cases hkind
    obtain ⟨_, honce⟩ := hook_schedule hooking (engine?_of_setHook hE haction) (j := 49) (by decide)
      fun l hil hlj => Process.not_rehooks_of_plain (hplain l hlj hil)
    refine ⟨hplain, hexecuted, fun n hn hle => ?_⟩
    have hvalue := honce n hn
    rw [hzero, hexecuted, show max 2 1 = 2 from rfl] at hvalue
    exact hvalue (by omega)
  | pacer | inert => cases hkind

end Course

end TaskLoop
