import Mathlib
import TaskLoop.Proofs.ScriptStep

namespace TaskLoop

variable {a b c : Hole} {w w₁ w₂ w₃ : World} {q d N : Nat} {id : TaskId} {p : Process} {Q Q₁ : Queue}
  {task : Task}

def Event.ring? : Event → Option String
  | .quiet name _ => some name
  | _ => none

def Task.ring? : Task → Option String
  | .watcher ⟨name, some _⟩ => some name
  | _ => none

namespace World

/-- What has been logged since tells of no turns but those of watchers with these names, the last
one in front. -/
def Rang (names : List String) (w w₁ : World) : Prop :=
  ∃ new, w₁.log = new ++ w.log ∧ (new.filter Event.ofTurn).map Event.ring? = names.map some

theorem Rang.trans {names names' : List String} (h : w₁.Rang names w₂) (h' : w₂.Rang names' w₃) :
    w₁.Rang (names' ++ names) w₃ := by
  obtain ⟨new, hnew, hrings⟩ := h
  obtain ⟨new', hnew', hrings'⟩ := h'
  exact ⟨new' ++ new, by rw [hnew', hnew, List.append_assoc], by simp [hrings, hrings']⟩

theorem Beside.rang (h : w₁.Beside w₂) : w₁.Rang [] w₂ := by
  obtain ⟨new, hnew, hall⟩ := h.log
  refine ⟨new, hnew, ?_⟩
  rw [List.filter_eq_nil_iff.2 fun event hm => by simp [hall event hm]]
  rfl

end World

structure Queue.Rewritten (id : TaskId) (task : Task) (Q Q₁ : Queue) : Prop where
  config : Q₁.config = Q.config
  order : Q₁.order = Q.order
  current : Q₁.current = Q.current
  stopping : Q₁.stopping = Q.stopping
  stats : Q₁.stats = Q.stats
  record : Q₁.get? id = some task
  others : ∀ id', id' ≠ id → Q₁.get? id' = Q.get? id'

/-- How the last step of a task ends, with what record of it and with which rings: the task is done,
or it is a watcher in a queue with other tasks and waits. -/
inductive Task.Outcome (onlyWatchers : Bool) (task : Task) :
    Verdict → Task → List String → Prop
  | done (task₁ : Task) (rests : task.kind = .watcher → onlyWatchers = true) :
      Outcome onlyWatchers task .done task₁ task.ring?.toList
  | waits (watcher : task.kind = .watcher) (busy : onlyWatchers = false) :
      Outcome onlyWatchers task .again task []

namespace World

structure Stepped (q : Nat) (id : TaskId) (task : Task) (names : List String) (w w₁ : World) :
    Prop where
  queue : ∀ Q, w.queue? q = some Q → ∃ Q₁, w₁.queue? q = some Q₁ ∧ Q.Rewritten id task Q₁
  machines : ∀ e, (w₁.pulse e).isSome = (w.pulse e).isSome
  rang : w.Rang names w₁

theorem Stepped.beside {names : List String} (h : w.Stepped q id task names w₁)
    (hbeside : w₁.Beside w₂) : w.Stepped q id task names w₂ := by
  refine ⟨fun Q hQ => ?_, fun e => (hbeside.machines e).trans (h.machines e),
    h.rang.trans hbeside.rang⟩
  obtain ⟨Q₁, hQ₁, hrewritten⟩ := h.queue Q hQ
  obtain ⟨Q₂, hQ₂, messages, rfl⟩ := queue?_of_rel_left (hbeside.queues q) hQ₁
  exact ⟨_, hQ₂, hrewritten.config, hrewritten.order, hrewritten.current, hrewritten.stopping,
    hrewritten.stats, hrewritten.record, hrewritten.others⟩

theorem Stepped.aside {T : Nat → Prop} {names : List String} (h : w.Stepped q id task names w₁)
    (haside : w₁.Aside T w₂) : w.Stepped q id task names w₂ := h.beside haside.beside

theorem stepped_refl (ht : w.task? q id = some task) : w.Stepped q id task [] w := by
  refine ⟨fun Q hQ => ⟨Q, hQ, rfl, rfl, rfl, rfl, rfl, ?_, fun _ _ => rfl⟩, fun _ => rfl, [], rfl, rfl⟩
  simpa [task?, hQ] using ht

theorem stepped_modifyQueue (ht : w.task? q id = some task) (task' : Task) :
    w.Stepped q id task' [] (w.modifyQueue q (·.modify id fun _ => task')) := by
  refine ⟨fun Q hQ => ⟨Q.modify id fun _ => task', by rw [queue?_modifyQueue, hQ]; rfl,
    rfl, rfl, rfl, rfl, rfl, ?_, fun id' hne => ?_⟩, fun _ => rfl, [], rfl, rfl⟩
  · have hg : Q.get? id = some task := by simpa [task?, hQ] using ht
    rw [Queue.get?_modify, if_pos rfl, hg]
    rfl
  · rw [Queue.get?_modify, if_neg hne]

open Process

theorem leads_stepScript {k : Pending .verdict} {t : ScriptTask} (hd : d < k.depth)
    (hQ : w.queue? q = some Q) (hc : Q.current = some id) (hg : Q.get? id = some (.script t))
    (harmed : t.armed = true) (hmachine : (w.pulse t.engine).isSome)
    (hhost : (w.stepScript q id t k).Throughout d (Hostless q Q.config.interval)) :
    ∃ w₁, (w.stepScript q id t k).Leads (fun p => p.Steady k.turns d ∧
        p.world.executed t.engine ≤ w.executed t.engine + Q.config.interval) (w₁.deliver k .done) ∧
      w.Stepped q id (.script { t with ran := true }) [] w₁ := by
  obtain ⟨⟨probe, n⟩, hp⟩ := Option.isSome_iff_exists.1 hmachine
  have hstepped := stepped_modifyQueue (task?_eq_some.2 ⟨Q, hQ, hg⟩) (.script { t with ran := true })
  have hstep : w.stepScript q id t k = ((w.modifyQueue q
      (·.modify id fun _ => .script { t with ran := true })).installHook q t.engine).callProtected
        t.engine t.key .traceback (.cons (.script q id { t with ran := true }
          (((w.engine? t.engine).map (·.top)).getD 0)) k) := by
    rw [stepScript]
    dsimp only
    rw [if_pos harmed]
  rw [hstep] at hhost ⊢
  have hp₁ : (w.modifyQueue q (·.modify id fun _ => .script { t with ran := true })).pulse t.engine =
    some (probe, n) := hp
  generalize w.modifyQueue q (·.modify id fun _ => .script { t with ran := true }) = w₁
    at hstepped hhost hp₁ ⊢
  obtain ⟨Q₁, hQ₁, hrewritten⟩ := hstepped.queue Q hQ
  obtain ⟨Q₂, hQ₂, hp₂⟩ := pulse_installHook hQ₁ hp₁
  obtain rfl : Q₁ = Q₂ := Option.some.inj (hQ₁.symm.trans (queue?_installHook w₁ q _ q ▸ hQ₂))
  rw [hrewritten.config] at hp₂
  have hcancelled : ((w₁.installHook q t.engine).queue? q >>= (·.cancelled?)) = some id := by
    simp [hQ₁, Queue.cancelled?, hrewritten.current, hc, hrewritten.record, Task.armed, harmed]
  obtain ⟨p₁, hends, hleads, haside, hcount⟩ := leads_callProtected rfl (Nat.lt_succ_of_lt hd)
    (Nat.le_max_left ..) hp₂ hcancelled t.key .traceback hhost
  obtain ⟨w₃, w₄, hlast, hreport, haside'⟩ := hends.step
  refine ⟨w₄, ?_, ?_⟩
  · rw [executed_of_pulse hp]
    refine (hleads.mono fun h => ⟨h.1.steady (Nat.lt_succ_of_lt hd), h.2⟩).trans
      (hlast ▸ Leads.step ⟨?_, hcount⟩)
    exact hends.steady hd
  · have hstepped₁ := (hstepped.aside (aside_installHook (T := fun _ => True) w₁ q _ trivial)).aside haside
    obtain rfl | ⟨text, rfl⟩ := hreport
    · exact hstepped₁.aside haside'
    · exact (hstepped₁.beside (beside_notify _ q .notice text)).aside haside'

theorem stepped_ring (hQ : w.queue? q = some Q) (hg : Q.get? id = some task) (t : WatcherTask) :
    w.Stepped q id (.watcher { t with callback := none }) [t.name]
      ((w.setQueue q (Q.modify id fun _ => .watcher { t with callback := none })).logged
        (.quiet t.name Q.count)) := by
  refine ⟨fun Q' hQ' => ⟨Q.modify id fun _ => .watcher { t with callback := none },
    queue?_setQueue_self hQ _, ?_⟩, fun _ => rfl, [.quiet t.name Q.count], rfl, rfl⟩
  obtain rfl : Q = Q' := Option.some.inj (hQ.symm.trans hQ')
  refine ⟨rfl, rfl, rfl, rfl, rfl, ?_, fun id' hne => ?_⟩
  · rw [Queue.get?_modify, if_pos rfl, hg]
    rfl
  · rw [Queue.get?_modify, if_neg hne]

theorem leads_quiet {k : Pending .verdict} {name : String} {callback : QuietCallback}
    (hd : d < k.depth)
    (hpolite : (w.callBack callback.actions (.cons (.quiet name callback.onDrop) k)).Throughout d
      Polite) :
    ∃ w₁, (w.callBack callback.actions (.cons (.quiet name callback.onDrop) k)).Leads
        (Steady k.turns d) (w₁.deliver k .done) ∧ w.Beside w₁ := by
  have hdeep : d < k.depth + 1 := Nat.lt_succ_of_lt hd
  obtain ⟨w₁, complaint, hruns, hbeside₁⟩ := leads_callBack hdeep hpolite
  have hruns' := hruns.mono fun h => h.steady hdeep
  have hquiet : (w₁.deliver (.cons (.quiet name callback.onDrop) k) complaint).step =
    w₁.destroyCallback name callback.onDrop (.cons .rested k) := step_deliver ..
  have hdrops : (w₁.deliver (.cons (.quiet name callback.onDrop) k) complaint).Leads
      (Steady k.turns d) (w₁.destroyCallback name callback.onDrop (.cons .rested k)) := by
    exact hquiet ▸ .step ⟨rfl, by rw [hquiet]; exact over_destroyCallback.turns, hdeep⟩
  obtain ⟨w₂, hrests, hbeside₂⟩ := leads_destroyCallback hdeep
    ((hpolite.leads hruns' Steady.depth).leads hdrops Steady.depth)
  have hrested : (w₂.deliver (.cons .rested k) ()).step = w₂.deliver k .done := step_deliver ..
  have hends : (w₂.deliver (.cons .rested k) ()).Leads (Steady k.turns d) (w₂.deliver k .done) :=
    hrested ▸ .step ⟨rfl, by rw [hrested]; rfl, hdeep⟩
  exact ⟨w₂, ((hruns'.trans hdrops).trans (hrests.mono fun h => h.steady hdeep)).trans hends,
    hbeside₁.trans hbeside₂⟩

/-- The last step of a task comes to its end. -/
theorem leads_stepTask {k : Pending .verdict} (hd : d < k.depth) (hQ : w.queue? q = some Q)
    (hc : Q.current = some id) (hg : Q.get? id = some task) (htold : task.told = task)
    (hmachine : ∀ e, task.engine? = some e → (w.pulse e).isSome)
    (hgentle : (w.stepTask q id task k).Throughout d fun p =>
      p.Polite ∧ p.Hostless q Q.config.interval) :
    ∃ w₁ v task₁ names, (w.stepTask q id task k).Leads (fun p => p.Steady k.turns d ∧
        ∀ e, task.engine? = some e → p.world.executed e ≤ w.executed e + Q.config.interval)
          (w₁.deliver k v) ∧
      w.Stepped q id task₁ names w₁ ∧ task.Outcome Q.onlyWatchers v task₁ names := by
  have hrefl := stepped_refl (task?_eq_some.2 ⟨Q, hQ, hg⟩)
  cases task with
  | idle t =>
    have halive : t.alive = false := by
      injection htold with htold
      exact (congrArg IdleTask.alive htold).symm
    have hstep : w.stepTask q id (.idle t) k = w.deliver k .done := by
      simp [stepTask, stepIdle, halive]
    exact ⟨w, .done, _, _, hstep ▸ Leads.refl _, hrefl, .done _ fun h => by cases h⟩
  | timer t =>
    have halive : t.alive = false := by
      injection htold with htold
      exact (congrArg TimerTask.alive htold).symm
    have hstep : w.stepTask q id (.timer t) k = w.deliver k .done := by
      simp [stepTask, stepTimer, halive]
    exact ⟨w, .done, _, _, hstep ▸ Leads.refl _, hrefl, .done _ fun h => by cases h⟩
  | script t =>
    have harmed : t.armed = true := by
      injection htold with htold
      exact (congrArg ScriptTask.armed htold).symm
    obtain ⟨w₁, hleads, hstepped⟩ := leads_stepScript hd hQ hc hg harmed (hmachine _ rfl)
      (hgentle.mono fun h => h.2)
    refine ⟨w₁, .done, _, _, hleads.mono fun h => ⟨h.1, fun e he => ?_⟩, hstepped,
      .done _ fun h => by cases h⟩
    cases he
    exact h.2
  | watcher t =>
    obtain ⟨name, callback⟩ := t
    rw [stepTask, stepWatcher, hQ] at hgentle ⊢
    dsimp only at hgentle ⊢
    cases honly : Q.onlyWatchers with
    | false => exact ⟨w, .again, _, _, by simpa [honly] using Leads.refl _, hrefl, .waits rfl rfl⟩
    | true =>
      rw [honly] at hgentle
      cases callback with
      | none => exact ⟨w, .done, _, _, Leads.refl _, hrefl, .done _ fun _ => rfl⟩
      | some callback =>
        obtain ⟨w₁, hleads, hbeside⟩ := leads_quiet hd (hgentle.mono fun h => h.1)
        exact ⟨w₁, .done, _, _, hleads.mono fun h => ⟨h, fun _ he => by cases he⟩,
          (stepped_ring hQ hg ⟨name, some callback⟩).beside hbeside, .done _ fun _ => rfl⟩

end World

structure Queue.Keeps (left : List TaskId) (Q Q₁ : Queue) : Prop where
  config : Q₁.config = Q.config
  stopping : Q₁.stopping = Q.stopping
  stats : Q₁.stats = Q.stats
  idle : Q₁.current = none
  order : Q₁.order = left
  records : ∀ id ∈ left, Q₁.get? id = Q.get? id

theorem Queue.Keeps.notified {left : List TaskId} {Q₂ : Queue} (h : Q.Keeps left Q₁)
    (h' : Q₁.Notified Q₂) : Q.Keeps left Q₂ := by
  obtain ⟨_, rfl⟩ := h'
  exact ⟨h.config, h.stopping, h.stats, h.idle, h.order, h.records⟩

namespace Queue

variable {kept rest : List TaskId}

theorem dropWhile_order (hnodup : Q.order.Nodup) (horder : Q.order = kept ++ id :: rest) :
    Q.order.dropWhile (· != id) = id :: rest := by
  rw [horder] at hnodup
  have hkept : ∀ id' ∈ kept, (id' != id) = true := fun id' hm => by
    rw [bne_iff_ne]
    rintro rfl
    exact (List.nodup_append.1 hnodup).2.2 id' hm id' (List.mem_cons_self ..) rfl
  rw [horder, List.dropWhile_append_of_pos hkept]
  simp

theorem nextAfter?_eq (hnodup : Q.order.Nodup) (horder : Q.order = kept ++ id :: rest) :
    Q.nextAfter? id = rest.head? := by
  rw [nextAfter?, dropWhile_order hnodup horder]
  rfl

theorem filter_order (hnodup : Q.order.Nodup) (horder : Q.order = kept ++ id :: rest) :
    Q.order.filter (· != id) = kept ++ rest := by
  rw [horder] at hnodup ⊢
  obtain ⟨_, hrest, hdisjoint⟩ := List.nodup_append.1 hnodup
  have hkept : kept.filter (· != id) = kept := List.filter_eq_self.2 fun id' hm => by
    simpa using hdisjoint id' hm id (List.mem_cons_self ..)
  have hrest' : rest.filter (· != id) = rest := List.filter_eq_self.2 fun id' hm => by
    simpa using ne_of_mem_of_not_mem hm (List.nodup_cons.1 hrest).1
  simp [hkept, hrest']

end Queue

namespace Process

/-- If the step of a script of the queue begins with the next transition, its engine counts no more
than so many instructions while the step is in progress, and the script takes no other step. -/
def Prompt (q N : Nat) (p : Process) : Prop :=
  ∀ id t, p.Begins q id → p.world.task? q id = some (.script t) →
    (∀ m, (∀ i ≤ m, 0 < i → (q, id) ∈ (p.run i).control.scripts) →
      (p.run m).world.executed t.engine ≤ p.world.executed t.engine + N) ∧
    ∀ i, 0 < i → ¬ (p.run i).Begins q id

structure Underway (q N d : Nat) (p : Process) : Prop where
  prompt : p.Prompt q N
  depth : d < p.control.depth

structure Calm (d : Nat) (p : Process) : Prop where
  turns : p.step.control.turns.length ≤ p.control.turns.length
  depth : d < p.control.depth

theorem not_begins (h : p.step.control.turns.length ≤ p.control.turns.length) :
    ¬ p.Begins q id := by
  intro hbegins
  rw [hbegins, List.length_cons] at h
  omega

theorem prompt_of_length (h : p.step.control.turns.length ≤ p.control.turns.length) :
    p.Prompt q N := fun _ _ hbegins => absurd hbegins (not_begins h)

theorem Calm.underway (h : p.Calm d) : p.Underway q N d := ⟨prompt_of_length h.turns, h.depth⟩

theorem Steady.calm {ts : List (Nat × TaskId)} (h : p.Steady ts d) : p.Calm d :=
  ⟨Nat.le_of_eq (by rw [h.turns, h.after]), h.depth⟩

end Process

namespace World

open Process

variable {kept rest : List TaskId} {walk : Walk} {k : Pending .pass}

theorem endTurn_again (hQ : w.queue? q = some Q) (hwf : Q.WellFormed) (hc : Q.current = some id)
    (hg : Q.get? id = some task) (horder : Q.order = kept ++ id :: rest) (walk : Walk)
    (k : Pending .pass) : w.endTurn q id walk .again k = (w.setQueue q Q.leave).deliver
      (.cons (.walk q rest.head? { walk with stepped := walk.stepped + 1 }) k) () := by
  have hcontains : Q.contains id = true := by
    simp [Queue.contains, Arena.contains, show Q.tasks.get? id = some task from hg]
  simp only [endTurn, hQ, chooseNext, hcontains, if_true, Queue.nextAfter?_eq hwf.nodup horder,
    hwf.held_eq_none_of_get? hc hg]

theorem endTurn_done (hQ : w.queue? q = some Q) (hwf : Q.WellFormed)
    (hg : Q.get? id = some task) (horder : Q.order = kept ++ id :: rest) (walk : Walk)
    (k : Pending .pass) : ∃ Q₁, Q.Keeps (kept ++ rest) Q₁ ∧ w.endTurn q id walk .done k =
      (w.setQueue q Q₁).destroy task (.cons (.walk q rest.head?
        { walk with stepped := walk.stepped + 1, completed := walk.completed + 1 }) k) := by
  have hcontains : Q.contains id = true := by
    simp [Queue.contains, Arena.contains, show Q.tasks.get? id = some task from hg]
  obtain ⟨tasks, hunlink, hothers⟩ := Queue.unlink?_of_get? (Q := Q.leave) hg
  have hfilter := Queue.filter_order hwf.nodup horder
  refine ⟨{ Q.leave with tasks, order := Q.leave.order.filter (· != id) },
    ⟨rfl, rfl, rfl, rfl, hfilter, fun id' hm => hothers id' ?_⟩, ?_⟩
  · rw [← hfilter, List.mem_filter] at hm
    simpa using hm.2
  · simp only [endTurn, hQ, chooseNext, hcontains, if_true, Queue.nextAfter?_eq hwf.nodup horder,
      hunlink]

def leftBy (kept : List TaskId) (id : TaskId) (rest : List TaskId) : Verdict → List TaskId
  | .done => kept ++ rest
  | .again => kept ++ id :: rest

/-- The turn of a task comes to its end, and the pass goes on with the task behind it. -/
theorem leads_endTurn {v : Verdict} (hd : d < k.depth) (hQ : w.queue? q = some Q)
    (hwf : Q.WellFormed) (hc : Q.current = some id) (hg : Q.get? id = some task)
    (horder : Q.order = kept ++ id :: rest)
    (hpolite : (w.deliver (.cons (.turn q id walk) k) v).Throughout d Polite) :
    ∃ w₁ walk₁ Q₁, (w.deliver (.cons (.turn q id walk) k) v).Leads (Calm d)
        (w₁.deliver (.cons (.walk q rest.head? walk₁) k) ()) ∧
      w₁.queue? q = some Q₁ ∧ Q.Keeps (leftBy kept id rest v) Q₁ ∧
      (∀ e, (w₁.pulse e).isSome = (w.pulse e).isSome) ∧ w.Rang [] w₁ := by
  have hdeep : d < k.depth + 1 := Nat.lt_succ_of_lt hd
  have hstep : (w.deliver (.cons (.turn q id walk) k) v).step = w.endTurn q id walk v k :=
    step_deliver ..
  have hfirst : (w.endTurn q id walk v k).control.turns = k.turns →
      (w.deliver (.cons (.turn q id walk) k) v).Leads (Calm d)
        (w.endTurn q id walk v k) := fun hturns =>
    hstep ▸ .step ⟨by rw [hstep, hturns]; exact Nat.le_succ _, hdeep⟩
  cases v with
  | again =>
    have heq := endTurn_again hQ hwf hc hg horder walk k
    rw [heq] at hfirst
    exact ⟨_, _, Q.leave, hfirst rfl, queue?_setQueue_self hQ _,
      ⟨rfl, rfl, rfl, rfl, horder, fun _ _ => rfl⟩, fun _ => rfl, [], rfl, rfl⟩
  | done =>
    obtain ⟨Q₁, hkeeps, heq⟩ := endTurn_done hQ hwf hg horder walk k
    generalize Walk.mk walk.visited (walk.stepped + 1) (walk.completed + 1) = walk₁ at heq
    rw [heq] at hfirst
    have hfirst := hfirst over_destroy.turns
    obtain ⟨w₁, hleads, hbeside⟩ := leads_destroy hdeep (hpolite.leads hfirst Calm.depth)
    obtain ⟨Q₂, hQ₂, hnotified⟩ := queue?_of_rel_left (hbeside.queues q) (queue?_setQueue_self hQ Q₁)
    exact ⟨w₁, walk₁, Q₂, hfirst.trans (hleads.mono fun h => (h.steady hdeep).calm), hQ₂,
      hkeeps.notified hnotified, hbeside.machines, hbeside.rang⟩

end World

namespace Process

variable {k : Pending .pass} {kept rest : List TaskId}

theorem Leads.sound {G : Process → Prop} {p₁ : Process} (h : p.Leads G p₁) (hp : p.Sound) :
    p₁.Sound := by
  obtain ⟨n, rfl, _⟩ := h
  exact hp.run n

structure Walking (q : Nat) (k : Pending .pass) (next : Option TaskId) (p : Process) : Prop where
  step : ∃ walk, p.step = p.world.walkOn q next walk k
  turns : p.control.turns = k.turns

/-- The step of a script is prompt if it leads to the end of its turn in time, and the script has
left the queue when the next turn begins. -/
theorem prompt_of_leads {w₁ : World} {p₁ : Process} {v : Verdict} {walk : Walk} (hp : p.Sound)
    (hturns : p.step.control.turns = (q, id) :: k.turns) (hk : p.control.turns = k.turns)
    (hqueued : p.world.task? q id = some task)
    (hleads : p.step.Leads (fun p' => ∀ e, task.engine? = some e →
      p'.world.executed e ≤ p.world.executed e + N) (w₁.deliver (.cons (.turn q id walk) k) v))
    (hends : p.step.Leads (Calm d) p₁)
    (hgone : ∀ e, task.engine? = some e → p₁.world.task? q id = none) : p.Prompt q N := by
  intro id' t hbegins ht
  obtain rfl : id' = id := by
    rw [Begins, hk] at hbegins
    exact (Prod.mk.inj (List.cons.inj (hbegins.symm.trans hturns)).1).2
  obtain rfl := Option.some.inj (hqueued.symm.trans ht)
  refine ⟨fun m hin => ?_, fun i hi hagain => ?_⟩
  · have hsound := hleads.sound hp.step.2
    obtain ⟨n, hn, hall⟩ := hleads
    cases m with
    | zero => exact Nat.le_add_right ..
    | succ m =>
      rw [run_succ]
      by_cases hm : m < n
      · exact hall m hm t.engine rfl
      · -- the turn has ended, and the script is not in its step any more
        have hscripts := hin (n + 1) (by omega) (by omega)
        rw [run_succ, hn] at hscripts
        obtain ⟨⟨_, halone⟩, hstack⟩ := Pending.Ready.stack hsound.ready
        exact absurd (hstack.scripts_subset hscripts) (halone id')
  · obtain ⟨n, hn, hcalm⟩ := hends
    obtain ⟨j, rfl⟩ := Nat.exists_eq_succ_of_ne_zero (Nat.pos_iff_ne_zero.1 hi)
    by_cases hj : j < n
    · rw [run_succ] at hagain
      exact not_begins (hcalm j hj).turns hagain
    · have hnone := hp.task?_run_eq_none (m := n + 1) (n := j + 1) hqueued
        (by rw [run_succ, hn]; exact hgone t.engine rfl) (by omega)
      obtain ⟨task', hqueued'⟩ := hagain.enters.queued
      cases hnone.symm.trans hqueued'

/-- A pass comes from a task that was told to finish to the one behind it. -/
theorem Walking.leads_turn (h : p.Walking q k (some id)) (hsound : p.Sound) (hd : d < k.depth)
    (hQ : p.world.queue? q = some Q)
    (horder : Q.order = kept ++ id :: rest) (hg : Q.get? id = some task) (htold : task.told = task)
    (hmachine : ∀ e, task.engine? = some e → (p.world.pulse e).isSome)
    (hgentle : p.step.Throughout d fun p => p.Polite ∧ p.Hostless q Q.config.interval) :
    p.Prompt q Q.config.interval ∧ ∃ p₁ Q₁ v task₁ names,
      p.step.Leads (Underway q Q.config.interval d) p₁ ∧ p₁.Walking q k rest.head? ∧
      d < p₁.control.depth ∧ p₁.world.queue? q = some Q₁ ∧ Q.Keeps (World.leftBy kept id rest v) Q₁ ∧
      (∀ e, (p₁.world.pulse e).isSome = (p.world.pulse e).isSome) ∧
      p.world.Rang names p₁.world ∧ task.Outcome Q.onlyWatchers v task₁ names := by
  obtain ⟨walk, hstep⟩ := h.step
  have hqueued : p.world.task? q id = some task := World.task?_eq_some.2 ⟨Q, hQ, hg⟩
  have henters : p.step.Enters p.world k.turns q id := by
    rw [hstep, World.walkOn, show (p.world.queue? q >>= (·.get? id)) = some task from hqueued]
    exact .intro hqueued rfl
  have hstep₁ : p.step = (p.world.modifyQueue q (·.enter id)).stepTask q id task
      (.cons (.turn q id { walk with visited := id :: walk.visited }) k) := by
    rw [hstep, World.walkOn, show (p.world.queue? q >>= (·.get? id)) = some task from hqueued]
  have hQ₁ : (p.world.modifyQueue q (·.enter id)).queue? q = some (Q.enter id) := by
    rw [World.queue?_modifyQueue, hQ]
    rfl
  obtain ⟨w₁, v, task₁, names, hleads, hstepped, houtcome⟩ := World.leads_stepTask
    (Nat.lt_succ_of_lt hd) hQ₁ rfl hg htold hmachine (hstep₁ ▸ hgentle)
  rw [← hstep₁] at hleads
  have hsound₁ := hleads.sound hsound.step.2
  obtain ⟨Q₂, hQ₂, hrewritten⟩ := hstepped.queue _ hQ₁
  have hwf := hsound₁.queues q Q₂ hQ₂
  obtain ⟨w₂, walk₂, Q₃, hends, hQ₃, hkeeps, hmachines, hrang⟩ := World.leads_endTurn hd hQ₂ hwf
    hrewritten.current hrewritten.record (hrewritten.order.trans horder)
    ((hgentle.leads hleads fun h => h.1.depth).mono fun h => h.1)
  have hcalm := (hleads.mono fun h => h.1.calm).trans hends
  have hleft : id ∉ kept ++ rest := by
    have hnodup := hwf.nodup
    rw [hrewritten.order, show (Q.enter id).order = _ from horder] at hnodup
    exact (List.nodup_middle.1 hnodup).notMem
  refine ⟨prompt_of_leads hsound henters.turns h.turns hqueued (hleads.mono fun h => h.2) hcalm
    fun e he => ?_, _, Q₃, v, task₁, names, hcalm.mono Calm.underway,
    ⟨⟨walk₂, Process.step_deliver ..⟩, rfl⟩, Nat.lt_succ_of_lt hd, hQ₃, ?_,
    fun e => (hmachines e).trans (hstepped.machines e), hstepped.rang.trans hrang, houtcome⟩
  · cases houtcome with
    | done =>
      refine Option.eq_none_iff_forall_ne_some.2 fun task' ht' => hleft ?_
      obtain ⟨Q', hQ', hg'⟩ := World.task?_eq_some.1 ht'
      obtain rfl := Option.some.inj (hQ₃.symm.trans hQ')
      have hm := (((hcalm.sound hsound.step.2).queues q Q₃ hQ₃).order id).2 ⟨task', hg'⟩
      rwa [hkeeps.order] at hm
    | waits watcher =>
      cases task with
      | watcher => cases he
      | idle | timer | script => cases watcher
  · refine ⟨hkeeps.config.trans hrewritten.config, hkeeps.stopping.trans hrewritten.stopping,
      hkeeps.stats.trans hrewritten.stats, hkeeps.idle, hkeeps.order, fun id' hm => ?_⟩
    rw [hkeeps.records id' hm]
    by_cases hid : id' = id
    · subst hid
      cases houtcome with
      | done => exact absurd hm hleft
      | waits => rw [hrewritten.record, hg]
    · exact hrewritten.others id' hid

end Process

end TaskLoop
