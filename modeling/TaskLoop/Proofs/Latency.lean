import Mathlib
import TaskLoop.Proofs.Countdown

namespace TaskLoop

variable {a b c : Hole} {w : World} {q e : Nat} {id : TaskId} {p : Process}

def World.Lone (w : World) (q : Nat) : Prop := ∀ q' Q, w.queue? q' = some Q → q' = q

theorem World.lone_of_size (h : w.queues.size ≤ 1) : w.Lone 0 := by
  intro q' Q hQ
  obtain ⟨hlt, _⟩ := Array.getElem?_eq_some_iff.1 (Option.join_eq_some_iff.1 hQ)
  omega

theorem World.Running.eq_of_lone {q' : Nat} {id' : TaskId} (h : w.Running q' id')
    (hlone : w.Lone q) : q' = q := by
  obtain ⟨Q, hQ, _⟩ := h
  exact hlone q' Q hQ

namespace Pending

variable {k : Pending b} {f : Activation a b}

/-- While the only queue is in the step of a script, no turn is on top of it. -/
theorem ne_verdict_of_lone (hk : k.Stacked w) (hlone : w.Lone q) (hm : (q, id) ∈ k.scripts) :
    b ≠ .verdict := by
  rintro rfl
  cases k with
  | cons f k =>
    cases f with
    | turn q' id' walk =>
      obtain ⟨⟨hrunning, halone⟩, hk⟩ := hk
      obtain rfl := hrunning.eq_of_lone hlone
      exact halone id (hk.scripts_subset hm)

end Pending

namespace Process

def Disturbs (p : Process) (e : Nat) : Prop :=
  ∃ action, p.control.action? = some action ∧ action.Touches p.world e

theorem interrupts_of_action? (name : String) {t : ScriptTask}
    (h : p.control.action? = some (.queue q (.interrupt name)))
    (ht : p.world.task? q id = some (.script t)) (hid : p.world.resolve name = id) :
    p.Interrupts q id := by
  obtain ⟨w, control⟩ := p
  cases control with
  | perform action k => cases h; exact .inl ⟨_, k, rfl, ⟨t, ht⟩, rfl, hid⟩
  | _ => cases h

/-- While the only queue is in the step of a script, a payload goes from one activation to the next,
and touches no hook. -/
theorem unwind_of_lone {f : Activation a b} {k : Pending b} {payload : Payload}
    (hk : (Pending.cons f k).Stacked w) (hlone : w.Lone q)
    (hin : (q, id) ∈ (Pending.cons f k).scripts)
    (hstill : (q, id) ∈ (step ⟨w, .unwind payload (.cons f k)⟩).control.scripts) :
    (∀ e, ¬ f.Unhooks w e payload) ∧ ∃ w₁ : World, step ⟨w, .unwind payload (.cons f k)⟩ = w₁.unwind payload k ∧
      w₁.queues = w.queues ∧ ∀ e, w₁.pulse e = w.pulse e := by
  rw [step_unwind] at hstill ⊢
  obtain ⟨hf, hk⟩ := hk
  have hallocated : ∀ e (call : MachineCall),
      w.Aside (fun _ => False) (w.modifyMachine e fun m => { m with allocated := call.mark }) :=
    fun e call => World.aside_modifyMachine w e fun m => by rfl
  by_cases hm : (q, id) ∈ k.scripts
  · have hb := Pending.ne_verdict_of_lone hk hlone hm
    have hturn := hk.scripts_subset hm
    cases f with
    | machine e call | counted e call op | host e call name turn =>
      exact ⟨fun _ h => h, _, rfl, (hallocated e call).queues, fun e' => (hallocated e call).pulse e' nofun⟩
    | turn q' id' walk =>
      obtain rfl := hf.1.eq_of_lone hlone
      exact absurd hturn (hf.2 id)
    | sweep rest => rw [show k.turns = [] from hf] at hturn; cases hturn
    | quiet | script => exact absurd rfl hb
    | cleanup => cases hstill
    | _ => exact ⟨fun _ h => h, w, rfl, rfl, fun _ => rfl⟩
  · obtain hm' | hm' := List.mem_append.1 hin
    · cases f with
      | script q' id' t base =>
        rw [Activation.unwind] at hstill
        split at hstill
        · exact absurd hstill hm
        · exact absurd hstill hm
      | _ => cases hm'
    · exact absurd hm' hm

/-- While the only queue is in the step of a script, the hook of an engine is touched by actions
that handle it, and by instructions that are counted. -/
theorem Sound.disturbs_or_ticks (h : p.Sound) (hlone : p.world.Lone q)
    (hin : (q, id) ∈ p.control.scripts) (hstill : (q, id) ∈ p.step.control.scripts)
    (htouches : p.Touches e) :
    p.Disturbs e ∨ ∃ (a b : Hole) (f : Activation a b) (k : Pending b) (result : a.Result),
      p.control = .deliver result (.cons f k) ∧ f.Ticks e := by
  have hr := h.ready
  have hrunning : p.world.Running q id := hr.running (hr.scripts_subset hin)
  obtain (htouches | ⟨q', id', hbegins, hrearms⟩) | hticks := htouches
  · obtain ⟨w, control⟩ := p
    cases control with
    | perform action k => exact .inl ⟨action, rfl, htouches⟩
    | deliver result k =>
      cases k with
      | outermost => exact htouches.elim
      | cons f k =>
        obtain ⟨hf, hk⟩ : (Pending.cons f k).Stacked w := Pending.Ready.stack hr
        by_cases hm : (q, id) ∈ k.scripts
        · have hturn := hk.scripts_subset hm
          cases f with
          | turn q' id' walk =>
            obtain rfl := hf.1.eq_of_lone hlone
            exact absurd hturn (hf.2 id)
          | sweep rest => rw [show k.turns = [] from hf] at hturn; cases hturn
          | script => exact absurd rfl (Pending.ne_verdict_of_lone hk hlone hm)
          | _ => exact htouches.elim
        · obtain hm' | hm' := List.mem_append.1 hin
          · cases f with
            | script q' id' t base =>
              rw [step_deliver] at hstill
              exact absurd hstill hm
            | _ => cases hm'
          · exact absurd hm' hm
    | unwind payload k =>
      cases k with
      | outermost => exact htouches.elim
      | cons f k =>
        exact absurd htouches ((unwind_of_lone (Pending.Ready.stack hr) hlone hin hstill).1 e)
    | answered | escaped | aborted => exact htouches.elim
  · -- a queue that is in the step of a script begins no other turn
    obtain ⟨task, ht⟩ := hbegins.enters.queued
    obtain ⟨Q, hQ, _⟩ := World.task?_eq_some.1 ht
    obtain rfl := hlone q' Q hQ
    cases (h.current_of_begins hbegins hQ).symm.trans (hrunning.current hQ)
  · obtain ⟨w, control⟩ := p
    cases control with
    | deliver result k =>
      cases k with
      | outermost => exact hticks.elim
      | cons f k => exact .inr ⟨_, _, f, k, result, rfl, hticks⟩
    | _ => exact hticks.elim

end Process

/-- The hook of the queue counts down to the bound, or it has cancelled the script by then. -/
inductive Process.Winding (q N e : Nat) (id : TaskId) (bound : Nat) (p : Process) : Prop
  | down {l n : Nat} (pulse : p.world.pulse e = some (some ⟨.cancel q, N, l⟩, n)) (left : 1 ≤ l)
      (bounded : n + l ≤ bound)
  | out {probe : Option Probe} {n : Nat} (pulse : p.world.pulse e = some (probe, n))
      (bounded : n ≤ bound) {a : Hole} {k : Pending a}
      (leaving : p.control = .unwind (.cancelled id) k)

namespace Process.Winding

variable {N bound : Nat}

theorem executed_le (h : p.Winding q N e id bound) : p.world.executed e ≤ bound := by
  cases h with
  | down pulse left bounded => exact World.executed_le_of_pulse pulse (by omega)
  | out pulse bounded => exact World.executed_le_of_pulse pulse bounded

end Process.Winding

namespace World

variable {n N l bound : Nat}

theorem winding_fireHook (hp : w.pulse e = some (some ⟨.cancel q, N, l⟩, n)) (hn : n ≤ bound)
    (hcancelled : (w.queue? q >>= (·.cancelled?)) = some id) (instruction depth : Nat)
    (k : Pending .done) :
    (w.fireHook (.cancel q) instruction depth k).Winding q N e id bound := by
  have hfire : w.fireHook (.cancel q) instruction depth k = w.unwind (.cancelled id) k := by
    rw [fireHook, hcancelled]
  rw [hfire]
  exact .out hp hn rfl

theorem winding_tickPacer (hp : w.pulse e = some (some ⟨.cancel q, N, l⟩, n)) (hl : 1 ≤ l)
    (hbound : n + l ≤ bound + 1) (hcancelled : (w.queue? q >>= (·.cancelled?)) = some id)
    (instruction depth : Nat) (call : PacerCall) (k : Pending .call) :
    (w.tickPacer e instruction depth call k).Winding q N e id bound := by
  by_cases hdue : l ≤ 1
  · obtain ⟨w₁, htick, hp₁, hqueues⟩ := tickHook_of_le hp hdue
    rw [tickPacer, htick]
    refine winding_fireHook hp₁ (by omega) ?_ instruction depth _
    rw [queue?, hqueues]
    exact hcancelled
  · obtain ⟨w₁, htick, hp₁⟩ := tickHook_of_lt hp (Nat.lt_of_not_le hdue)
    rw [tickPacer, htick]
    exact .down hp₁ (by omega) (by omega)

/-- What goes on within a stack and touches no other engine leaves the hook as it is. -/
theorem winding_of_within {k : Pending c}
    {pulse : Option (Option Probe × Nat)} (h : p.Within (fun w => w.pulse e = pulse) k)
    (hp : pulse = some (some ⟨.cancel q, N, l⟩, n)) (hl : 1 ≤ l) (hbound : n + l ≤ bound) :
    p.Winding q N e id bound := .down (h.world.trans hp) hl hbound

theorem winding_runMachine (hp : w.pulse e = some (some ⟨.cancel q, N, l⟩, n)) (hl : 1 ≤ l)
    (hbound : n + l ≤ bound) (hcancelled : (w.queue? q >>= (·.cancelled?)) = some id)
    (call : MachineCall) (k : Pending .call) :
    (w.runMachine e call k).Winding q N e id bound := by
  have hwatched := watched_runMachine hp hcancelled call k
  generalize w.runMachine e call k = p at hwatched ⊢
  cases hwatched with
  | ends =>
    exact winding_of_within (within_leaveMachine (lasting_pulse e _).robust hp e call _ k) rfl hl hbound
  | cancels due aside pulse => exact .out pulse (by omega) rfl
  | executes early fetched aside pulse =>
    exact winding_of_within (within_executeOp (lasting_pulse e _).robust pulse e _ _ k) rfl (by omega)
      (by omega)

theorem winding_runPacer (hp : w.pulse e = some (some ⟨.cancel q, N, l⟩, n)) (hl : 1 ≤ l)
    (hbound : n + l ≤ bound) (hcancelled : (w.queue? q >>= (·.cancelled?)) = some id)
    (call : PacerCall) (k : Pending .call) :
    (w.runPacer e call k).Winding q N e id bound := by
  have hcount := pulse_countInstruction hp
  unfold runPacer
  split
  · exact winding_of_within (within_leavePacer (lasting_pulse e _).robust hp e _ k) rfl hl hbound
  · have hR := lasting_pulse e (some (some ⟨.cancel q, N, l⟩, n))
    exact winding_of_within (within_leavePacer hR.robust (hR hp (aside_handle w ..)) e _ k) rfl hl hbound
  · next rest depth _ =>
    -- the engine is a machine, and so has no trigger
    have htrigger : ((w.countInstruction e).engine? e >>= (·.trigger?)) = none := by
      obtain ⟨E, hE, hpulse⟩ := Option.bind_eq_some_iff.1 hcount
      cases E with
      | machine => rw [hE]; rfl
      | pacer | inert => cases hpulse
    dsimp only
    rw [htrigger]
    exact winding_tickPacer hcount hl (by omega) hcancelled _ _ _ k

end World

theorem Activation.winding_resume {N l n bound : Nat} {f : Activation a b} {k : Pending b}
    (hf : f.Ticks e) (result : a.Result) (hp : w.pulse e = some (some ⟨.cancel q, N, l⟩, n))
    (hl : 1 ≤ l) (hbound : n + l ≤ bound)
    (hcancelled : (w.queue? q >>= (·.cancelled?)) = some id) :
    (f.resume result w k).Winding q N e id bound := by
  cases f with
  | machine e' call =>
    obtain rfl : e' = e := hf
    exact World.winding_runMachine hp hl hbound hcancelled call k
  | pacer e' call =>
    obtain rfl : e' = e := hf
    exact World.winding_runPacer hp hl hbound hcancelled call k
  | triggered e' instruction depth call =>
    obtain rfl : e' = e := hf
    exact World.winding_tickPacer hp hl (by omega) hcancelled instruction depth call k
  | _ => exact hf.elim

namespace World

theorem Hooked.winding {n : Nat} {Q : Queue} (h : w.Hooked q e n) (hQ : w.queue? q = some Q)
    (control : Control) :
    Process.Winding q Q.config.interval e id (n + Q.config.interval) ⟨w, control⟩ := by
  obtain ⟨Q', hQ', hp⟩ := h
  obtain rfl := Option.some.inj (hQ.symm.trans hQ')
  exact .down hp (Nat.le_max_left ..) (Nat.le_refl _)

theorem Moves.lone {I : Nat → TaskId → Prop} {T : Nat → Prop} {w' : World} (h : w.Moves I T w')
    (hlone : w.Lone q) : w'.Lone q := by
  intro q' Q' hQ'
  obtain ⟨Q, hQ, _⟩ := queue?_of_rel (h.queues q') hQ'
  exact hlone q' Q hQ

end World

namespace Process

def Renews (p : Process) (q e : Nat) : Prop :=
  ∃ id t, p.Interrupts q id ∧ p.world.task? q id = some (.script t) ∧ t.engine = e

section

variable {N bound : Nat} {t : ScriptTask}

/-- While the step of an interrupted script goes on, a transition brings the hook closer to
cancelling it, or starts the hook again in time. -/
theorem Sound.winding_step {Q : Queue} (h : p.Sound) (hlone : p.world.Lone q)
    (hQ : p.world.queue? q = some Q) (ht : p.world.task? q id = some (.script t))
    (harmed : t.armed = true) (hin : (q, id) ∈ p.control.scripts)
    (hstill : (q, id) ∈ p.step.control.scripts)
    (hrenews : p.Disturbs e → p.Renews q e ∧
      (Q.config.interval = 1 ∨ p.world.executed e + Q.config.interval ≤ bound))
    (hw : p.Winding q Q.config.interval e id bound) :
    p.step.Winding q Q.config.interval e id bound := by
  have hrunning := h.ready.running (h.ready.scripts_subset hin)
  cases hw with
  | @down l n hp hl hbound =>
    by_cases htouches : p.Touches e
    · obtain hdisturbs | ⟨a, b, f, k, result, hcontrol, hticks⟩ :=
        h.disturbs_or_ticks hlone hin hstill htouches
      · obtain ⟨⟨id', t', hi, ht', rfl⟩, hintime⟩ := hrenews hdisturbs
        obtain ⟨t'', ht'', harms⟩ := h.arms hi
        obtain rfl : t' = t'' := by cases ht'.symm.trans ht''; rfl
        obtain ⟨Q', hQ', hp'⟩ := harms.hook _ _ hp
        obtain ⟨Q₀, hQ₀, hmoves⟩ := World.queue?_of_rel (h.step.1.queues q) hQ'
        obtain rfl := Option.some.inj (hQ.symm.trans hQ₀)
        rw [hmoves.config (h.queues q Q hQ)] at hp'
        rw [World.executed_of_pulse hp] at hintime
        exact .down hp' (Nat.le_max_left ..) (by omega)
      · obtain ⟨w, control⟩ := p
        cases hcontrol
        rw [step_deliver]
        exact f.winding_resume hticks result hp hl hbound
          (World.cancelled?_of_running hrunning ht harmed)
    · exact .down ((h.step.1.pulse e htouches).trans hp) hl hbound
  | @out probe n hp hbound a k leaving =>
    obtain ⟨w, control⟩ := p
    cases leaving
    cases k with
    | outermost => cases hin
    | cons f k =>
      obtain ⟨_, w₁, hstep, _, hpulse⟩ :=
        unwind_of_lone (Pending.Ready.stack h.ready) hlone hin hstill
      rw [hstep]
      exact .out ((hpulse e).trans hp) hbound rfl

/-- As long as the step of an interrupted script goes on, its hook counts down. -/
theorem Sound.winding_run {Q : Queue} {n m : Nat} (h : p.Sound) (hlone : p.world.Lone q)
    (hQ : p.world.queue? q = some Q) (ht : p.world.task? q id = some (.script t))
    (harmed : t.armed = true) (hhooked : p.world.Hooked q e n)
    (hin : ∀ i ≤ m, (q, id) ∈ (p.run i).control.scripts)
    (hqueued : ∀ i ≤ m, ((p.run i).world.task? q id).isSome)
    (hrenews : ∀ i < m, (p.run i).Disturbs e → (p.run i).Renews q e ∧
      (Q.config.interval = 1 ∨ (p.run i).world.executed e = n)) :
    (p.run m).Winding q Q.config.interval e id (n + Q.config.interval) := by
  have hrunning := h.ready.running (h.ready.scripts_subset (hin 0 (Nat.zero_le m)))
  induction m with
  | zero => exact hhooked.winding hQ p.control
  | succ m ih =>
    have hwinding := ih (fun i hi => hin i (by omega)) (fun i hi => hqueued i (by omega))
      fun i hi => hrenews i (by omega)
    obtain ⟨task', ht'⟩ := Option.isSome_iff_exists.1 (hqueued m (by omega))
    obtain ⟨task, htask, hheir⟩ := h.task?_origin_run hrunning ht'
    have harmed' : task'.armed = true := hheir.armed (by cases htask.symm.trans ht; exact harmed)
    obtain ⟨t', rfl⟩ := Task.eq_script_of_armed harmed'
    have hmoves := h.moves_run m
    obtain ⟨Q', hQ', hmoved⟩ := World.queue?_of_rel_left (hmoves.queues q) hQ
    have hstill := hin (m + 1) (Nat.le_refl _)
    rw [run_succ_step] at hstill ⊢
    rw [← hmoved.config (h.queues q Q hQ)] at hwinding hrenews ⊢
    refine (h.run m).winding_step (hmoves.lone hlone) hQ' ht' harmed'
      (hin m (by omega)) hstill (fun hdisturbs => ?_) hwinding
    obtain ⟨hrenew, hintime⟩ := hrenews m (by omega) hdisturbs
    exact ⟨hrenew, by omega⟩

/-- An interrupted script whose step begins puts the hook of its queue on its machine. -/
theorem Begins.arms (hbegins : p.Begins q id) (ht : p.world.task? q id = some (.script t))
    (harmed : t.armed = true) : p.world.Arms q id { t with ran := true } p.step.world := by
  obtain ⟨Q, hQ, _⟩ := World.task?_eq_some.1 ht
  have henters := hbegins.enters
  generalize p.step = p' at henters ⊢
  cases henters with
  | @intro task walk k queued turns =>
    obtain rfl := Option.some.inj (queued.symm.trans ht)
    have hQ₁ : ((p.world.modifyQueue q (·.enter id)).modifyQueue q
        (·.modify id fun _ => .script { t with ran := true })).queue? q =
          some ((Q.enter id).modify id fun _ => .script { t with ran := true }) := by
      simp [World.queue?_modifyQueue, hQ]
    have harms : p.world.Arms q id { t with ran := true }
        (((p.world.modifyQueue q (·.enter id)).modifyQueue q
          (·.modify id fun _ => .script { t with ran := true })).installHook q t.engine) := by
      refine ⟨?_, fun probe n hp => World.pulse_installHook hQ₁ hp⟩
      rw [World.task?_installHook, World.task?_modifyQueue, World.task?_enter, ht, if_pos rfl,
        ← harmed]
      rfl
    have hlasting : World.Lasting (fun _ => False)
        (p.world.Arms q id { t with ran := true }) := fun w w' hw haside =>
      ⟨by rw [World.task?, World.queue?, haside.queues]; exact hw.task, fun probe n hp => by
        obtain ⟨Q', hQ', hp'⟩ := hw.hook probe n hp
        exact ⟨Q', by rw [World.queue?, haside.queues]; exact hQ', (haside.pulse _ not_false).trans hp'⟩⟩
    rw [World.stepTask, World.stepScript]
    dsimp only
    rw [if_pos harmed]
    exact (World.within_callProtected hlasting.robust harms t.engine t.key .traceback _).world

end

/-- The machine of an interrupted script counts at most as many instructions as the interval of the
queue before the step of the script ends. This is so from each interrupt on, or from the beginning
of the step, if in the meantime the script is not removed and the hook of the machine is handled
only by interrupts, each of them before another instruction is counted unless the interval is
one. -/
theorem Reachable.cancellation_latency {Q : Queue} {t : ScriptTask} {m : Nat} (h : p.Reachable)
    (hlone : p.world.Lone q) (hQ : p.world.queue? q = some Q)
    (ht : p.world.task? q id = some (.script t)) (hmachine : (p.world.machine? t.engine).isSome)
    (hstart : p.Interrupts q id ∨ p.Begins q id ∧ t.armed = true)
    (hin : ∀ i ≤ m, 0 < i → (q, id) ∈ (p.run i).control.scripts)
    (hqueued : ∀ i ≤ m, 0 < i → ((p.run i).world.task? q id).isSome)
    (hrenews : ∀ i < m, 0 < i → (p.run i).Disturbs t.engine → (p.run i).Renews q t.engine ∧
      (Q.config.interval = 1 ∨
        (p.run i).world.executed t.engine = p.world.executed t.engine)) :
    (p.run m).world.executed t.engine ≤ p.world.executed t.engine + Q.config.interval := by
  cases m with
  | zero => exact Nat.le_add_right ..
  | succ m =>
    obtain ⟨probe, n, hp⟩ := World.exists_pulse hmachine
    obtain ⟨t', hengine, harms⟩ :
        ∃ t', t'.engine = t.engine ∧ p.world.Arms q id t' p.step.world := by
      obtain hi | ⟨hbegins, harmed⟩ := hstart
      · obtain ⟨t', ht', harms⟩ := h.sound.arms hi
        cases ht.symm.trans ht'
        exact ⟨t, rfl, harms⟩
      · exact ⟨{ t with ran := true }, rfl, hbegins.arms ht harmed⟩
    have hhooked := harms.hook probe n (hengine ▸ hp)
    obtain ⟨Q', hQ', hmoves⟩ := World.queue?_of_rel_left (h.sound.step.1.queues q) hQ
    rw [World.executed_of_pulse hp, ← hmoves.config (h.sound.queues q Q hQ)] at hrenews ⊢
    rw [run_succ]
    rw [hengine] at hhooked
    refine (h.step.sound.winding_run (h.sound.step.1.lone hlone) hQ' harms.task rfl hhooked
      (fun i hi => ?_) (fun i hi => ?_) fun i hi => ?_).executed_le
    · rw [← run_succ]; exact hin (i + 1) (by omega) (by omega)
    · rw [← run_succ]; exact hqueued (i + 1) (by omega) (by omega)
    · rw [← run_succ]; exact hrenews (i + 1) (by omega) (by omega)

/-- Scripts on one machine that may call a host function, which performs these actions. This is the
run of their queue after so many transitions. -/
def hosted (hookInterval : UInt32) (actions : List Action) (scripts : List (String × String)) :
    Nat → Process :=
  during [{ hookInterval }] [.machine {}]
    (.act (.engine 0 (.host "h" [⟨actions, none, false⟩])) :: scripts.map fun (name, source) =>
      .act (.queue 0 (.parseAndStart name 0 source.toUTF8.data.toList)))
    (.act (.queue 0 .runOnce))

def interrupting : Nat → Process :=
  hosted 3 [.queue 0 (.interrupt "S"), .queue 0 (.interrupt "T")]
    [("S", "host h\npush 1\npop\npush 2\npop"), ("T", "push 1")]

theorem reachable_interrupting (n : Nat) : (interrupting n).Reachable :=
  reachable_during n (by decide +kernel) (by decide +kernel)

/-- The second interrupt comes before another instruction is counted, and does no harm. -/
theorem cancellation_latency_interrupting :
    (interrupting 2).Interrupts 0 ⟨1, 1⟩ ∧ ((interrupting 2).run 2).Renews 0 0 ∧
    (∀ i ≤ 9, 0 < i → (0, ⟨1, 1⟩) ∈ ((interrupting 2).run i).control.scripts) ∧
    ((interrupting 2).run 9).world.executed 0 ≤ (interrupting 2).world.executed 0 + 3 := by
  have hS : (interrupting 2).world.task? 0 ⟨1, 1⟩ =
    some (.script { engine := 0, key := 0, release := true, ran := true }) := by cbv
  have hT : ((interrupting 2).run 2).world.task? 0 ⟨2, 1⟩ =
    some (.script { engine := 0, key := 1, release := true }) := by cbv
  have hinterrupts : (interrupting 2).Interrupts 0 ⟨1, 1⟩ :=
    interrupts_of_action? "S" (by cbv) hS (by decide +kernel)
  have hrenews : ((interrupting 2).run 2).Renews 0 0 :=
    ⟨_, _, interrupts_of_action? "T" (by cbv) hT
      (by decide +kernel), hT, rfl⟩
  have hin : ∀ i ≤ 9, 0 < i → (0, ⟨1, 1⟩) ∈ ((interrupting 2).run i).control.scripts := by
    decide +kernel
  have hinterval : ((interrupting 2).world.queue? 0).map (·.config.interval) = some 3 := by
    decide +kernel
  obtain ⟨Q, hQ, hthree⟩ := Option.map_eq_some_iff.1 hinterval
  have hquiet : ∀ i < 9, 0 < i → i ≠ 2 → ((interrupting 2).run i).control.action?.isNone := by
    decide +kernel
  have hcount : ((interrupting 2).run 2).world.executed 0 = (interrupting 2).world.executed 0 := by
    decide +kernel
  refine ⟨hinterrupts, hrenews, hin, hthree ▸ ?_⟩
  refine (reachable_interrupting 2).cancellation_latency
    (World.lone_of_size (by decide +kernel)) hQ hS (by decide +kernel) (.inl hinterrupts) hin
    (by decide +kernel) fun i hi hpos hdisturbs => ?_
  by_cases htwo : i = 2
  · subst htwo
    exact ⟨hrenews, .inr hcount⟩
  · obtain ⟨action, haction, _⟩ := hdisturbs
    have hnone := hquiet i hi hpos htwo
    rw [haction] at hnone
    cases hnone

/-- The host function removes the other script again, which takes the hook off the machine. -/
def removing : Nat → Process :=
  hosted 1 [.queue 0 (.interrupt "S"), .queue 0 (.interrupt "T"), .queue 0 (.remove "T")]
    [("S", "host h\npush 1\npop\npush 2\npop"), ("T", "push 1")]

theorem reachable_removing (n : Nat) : (removing n).Reachable :=
  reachable_during n (by decide +kernel) (by decide +kernel)

/-- The script calls the host function again before the hook is due. -/
def repeating : Nat → Process :=
  hosted 3 [.queue 0 (.interrupt "S")]
    [("S", "host h\npush 1\nhost h\npop\nhost h\npush 1\nhost h\npop")]

theorem reachable_repeating (n : Nat) : (repeating n).Reachable :=
  reachable_during n (by decide +kernel) (by decide +kernel)

/-- Without the condition on how the hook is handled, an interrupted script that is still queued may
go on for longer than the interval: its step is in progress all the time, and yet the machine counts
four instructions where the interval is one, and seven where it is three. -/
theorem late_cancellations :
    ((removing 2).Reachable ∧ (removing 2).world.Lone 0 ∧ (removing 2).Interrupts 0 ⟨1, 1⟩ ∧
      ((removing 2).world.queue? 0).map (·.config.interval) = some 1 ∧
      (∀ i ≤ 13, (0, ⟨1, 1⟩) ∈ ((removing 2).run i).control.scripts ∧
        (((removing 2).run i).world.task? 0 ⟨1, 1⟩).isSome) ∧
      ((removing 2).run 13).world.executed 0 = (removing 2).world.executed 0 + 4) ∧
    ((repeating 2).Reachable ∧ (repeating 2).world.Lone 0 ∧ (repeating 2).Interrupts 0 ⟨1, 1⟩ ∧
      ((repeating 2).world.queue? 0).map (·.config.interval) = some 3 ∧
      (∀ i ≤ 20, (0, ⟨1, 1⟩) ∈ ((repeating 2).run i).control.scripts ∧
        (((repeating 2).run i).world.task? 0 ⟨1, 1⟩).isSome) ∧
      ((repeating 2).run 20).world.executed 0 = (repeating 2).world.executed 0 + 7) := by
  have hremoving : (removing 2).world.task? 0 ⟨1, 1⟩ =
    some (.script { engine := 0, key := 0, release := true, ran := true }) := by cbv
  have hrepeating : (repeating 2).world.task? 0 ⟨1, 1⟩ =
    some (.script { engine := 0, key := 0, release := true, ran := true }) := by cbv
  constructor
  · exact ⟨reachable_removing 2, World.lone_of_size (by decide +kernel),
      interrupts_of_action? "S" (by cbv) hremoving (by decide +kernel), by decide +kernel,
      by decide +kernel, by decide +kernel⟩
  · exact ⟨reachable_repeating 2, World.lone_of_size (by decide +kernel),
      interrupts_of_action? "S" (by cbv) hrepeating (by decide +kernel), by decide +kernel,
      by decide +kernel, by decide +kernel⟩

end Process

end TaskLoop
