import TaskLoop.Proofs.LastTurn

namespace TaskLoop

open scoped List

variable {w : World} {q d : Nat} {id : TaskId} {p : Process} {Q Q₁ Q₂ : Queue} {task task₁ : Task}
  {ids kept rest left left' : List TaskId} {names : List String} {v : Verdict}

namespace Queue

def rings (Q : Queue) (ids : List TaskId) : List String :=
  ids.filterMap fun id => (Q.get? id).bind Task.ring?

def Watches (Q : Queue) (id : TaskId) : Prop :=
  ∃ task, Q.get? id = some task ∧ task.kind = .watcher

theorem rings_congr (h : ∀ id ∈ ids, Q₁.get? id = Q.get? id) : Q₁.rings ids = Q.rings ids :=
  List.filterMap_congr fun id hm => by rw [h id hm]

@[simp] theorem rings_nil (Q : Queue) : Q.rings [] = [] := rfl

theorem rings_append (Q : Queue) (ids ids' : List TaskId) :
    Q.rings (ids ++ ids') = Q.rings ids ++ Q.rings ids' := List.filterMap_append

theorem rings_cons (hg : Q.get? id = some task) (ids : List TaskId) :
    Q.rings (id :: ids) = task.ring?.toList ++ Q.rings ids := by
  rw [rings, List.filterMap_cons, hg, Option.bind_some]
  cases task.ring? <;> rfl

theorem WellFormed.onlyWatchers_iff (hQ : Q.WellFormed) :
    Q.onlyWatchers = true ↔ ∀ id ∈ Q.order, Q.Watches id := by
  rw [onlyWatchers, List.all_eq_true]
  constructor
  · intro hall id hm
    obtain ⟨task, hg⟩ := (hQ.order id).1 hm
    exact ⟨task, hg, by simpa using hall task (Arena.mem_records.2 ⟨id, hg⟩)⟩
  · intro hall task hm
    obtain ⟨id, hg⟩ := Arena.mem_records.1 hm
    obtain ⟨task', hg', hkind⟩ := hall id ((hQ.order id).2 ⟨task, hg⟩)
    obtain rfl := Option.some.inj (hg.symm.trans hg')
    simpa using hkind

theorem Keeps.watches_iff (h : Q.Keeps left Q₁) (hm : id ∈ left) :
    Q₁.Watches id ↔ Q.Watches id := by rw [Watches, Watches, h.records id hm]

theorem Keeps.trans (h : Q.Keeps left Q₁) (h' : Q₁.Keeps left' Q₂) (hsub : left' ⊆ left) :
    Q.Keeps left' Q₂ :=
  ⟨h'.config.trans h.config, h'.stopping.trans h.stopping, h'.stats.trans h.stats, h'.idle, h'.order,
    fun id hm => (h'.records id hm).trans (h.records id (hsub hm))⟩

end Queue

/-- A turn of a pass leaves the tasks that are ahead, and watchers behind it. -/
theorem Task.Outcome.leaves (h : task.Outcome Q.onlyWatchers v task₁ names) (hQ : Q.WellFormed)
    (hg : Q.get? id = some task) (horder : Q.order = kept ++ id :: rest)
    (hkept : ∀ id' ∈ kept, Q.Watches id') :
    ∃ kept', World.leftBy kept id rest v = kept' ++ rest ∧ (∀ id' ∈ kept', Q.Watches id') ∧
      kept' ++ rest ⊆ kept ++ id :: rest ∧
      ((∀ id' ∈ id :: rest, Q.Watches id') → kept' = kept) ∧
      names ++ Q.rings (kept' ++ rest) ~ Q.rings (kept ++ id :: rest) := by
  cases h with
  | done =>
    refine ⟨kept, rfl, hkept, fun id' hm => ?_, fun _ => rfl, ?_⟩
    · exact (List.perm_middle.mem_iff).2 (List.mem_cons_of_mem id hm)
    · rw [Queue.rings_append, Queue.rings_append, Queue.rings_cons hg, ← List.append_assoc,
        ← List.append_assoc]
      exact List.perm_append_comm.append_right _
  | waits watcher busy =>
    refine ⟨kept ++ [id], by simp [World.leftBy], fun id' hm => ?_, by simp, fun hall => ?_, by simp⟩
    · obtain hm | hm := List.mem_append.1 hm
      · exact hkept id' hm
      · rw [List.mem_singleton.1 hm]
        exact ⟨task, hg, watcher⟩
    · have honly := hQ.onlyWatchers_iff.2 fun id' hm => by
        rw [horder] at hm
        exact (List.mem_append.1 hm).elim (hkept id') (hall id')
      cases honly.symm.trans busy

namespace Process

/-- The tasks were told to finish, and the scripts among them are on machines. -/
def Dismissed (w : World) (Q : Queue) (ids : List TaskId) : Prop :=
  ∀ id ∈ ids, ∃ task, Q.get? id = some task ∧ task.told = task ∧
    ∀ e, task.engine? = some e → (w.pulse e).isSome

theorem dismissed_of_watches (h : ∀ id ∈ ids, Q.Watches id) : Dismissed w Q ids := fun id hm => by
  obtain ⟨task, hg, hkind⟩ := h id hm
  refine ⟨task, hg, ?_⟩
  cases task with
  | watcher => exact ⟨rfl, nofun⟩
  | idle | timer | script => cases hkind

/-- A pass over tasks that were told to finish comes to its end. Only watchers are left then, and
none if there were only watchers. -/
theorem Walking.leads_pass {k : Pending .pass} {todo : List TaskId}
    (h : p.Walking q k todo.head?) (hsound : p.Sound) (hd : d < k.depth)
    (hQ : p.world.queue? q = some Q) (hidle : Q.current = none) (horder : Q.order = kept ++ todo)
    (hkept : ∀ id ∈ kept, Q.Watches id) (htold : Dismissed p.world Q todo)
    (hgentle : p.step.Throughout d fun p => p.Polite ∧ p.Hostless q Q.config.interval) :
    p.Prompt q Q.config.interval ∧ ∃ w₁ n Q₁ steps completed left names,
      p.step.Leads (Underway q Q.config.interval d) (w₁.deliver k n) ∧
      w₁.queue? q = some (Q₁.countPass steps completed) ∧ Q.Keeps left Q₁ ∧
      left ⊆ kept ++ todo ∧ (∀ id ∈ left, Q.Watches id) ∧
      ((∀ id ∈ todo, Q.Watches id) → left = kept) ∧
      names ++ Q.rings left ~ Q.rings (kept ++ todo) ∧ p.world.Rang names w₁ := by
  induction todo generalizing kept Q p with
  | nil =>
    obtain ⟨walk, hstep⟩ := h.step
    rw [List.head?_nil, World.walkOn, World.finishPass] at hstep
    refine ⟨prompt_of_length ?_, p.world.modifyQueue q (·.countPass walk.stepped walk.completed),
      walk.stepped, Q, walk.stepped, walk.completed, kept, [], hstep ▸ Leads.refl _, ?_, ⟨rfl, rfl, rfl, hidle, by simpa using horder, fun _ _ => rfl⟩,
      by simp, hkept, fun _ => rfl, by simp, [], rfl, rfl⟩
    · rw [hstep, h.turns]
      exact Nat.le_refl _
    · rw [World.queue?_modifyQueue, hQ]
      rfl
  | cons id rest ih =>
    obtain ⟨task, hg, hself, hmachine⟩ := htold id (List.mem_cons_self ..)
    obtain ⟨hprompt, p₁, Q₁, v, task₁, names, hleads, hwalking, hdepth, hQ₁, hkeeps, hmachines, hrang,
      houtcome⟩ := h.leads_turn hsound hd hQ horder hg hself hmachine hgentle
    obtain ⟨kept', hleft, hkept', hsub, hall, hperm⟩ := houtcome.leaves (hsound.queues q Q hQ) hg
      horder hkept
    rw [hleft] at hkeeps
    have htold' : Dismissed p₁.world Q₁ rest := fun id' hm => by
      obtain ⟨task', hg', hself', hmachine'⟩ := htold id' (List.mem_cons_of_mem id hm)
      refine ⟨task', (hkeeps.records id' (List.mem_append_right _ hm)).trans hg', hself', ?_⟩
      exact fun e he => (hmachines e).trans (hmachine' e he)
    have hgentle₁ : p₁.step.Throughout d fun p => p.Polite ∧ p.Hostless q Q.config.interval :=
      (hgentle.leads hleads Underway.depth).leads (Leads.step hdepth) fun h => h
    obtain ⟨hprompt₁, w₂, n, Q₂, steps, completed, left, names', hleads', hQ₂, hkeeps', hsub', hwatch,
      hempty, hperm', hrang'⟩ := ih hwalking (hleads.sound hsound.step.2) hQ₁ hkeeps.idle hkeeps.order
        (fun id' hm => (hkeeps.watches_iff (List.mem_append_left _ hm)).2 (hkept' id' hm)) htold'
        (hkeeps.config ▸ hgentle₁)
    rw [hkeeps.config] at hprompt₁ hleads'
    have hin : ∀ id' ∈ left, Q₁.get? id' = Q.get? id' := fun id' hm => hkeeps.records id' (hsub' hm)
    refine ⟨hprompt, w₂, n, Q₂, steps, completed, left, names' ++ names,
      (hleads.trans (.step ⟨hprompt₁, hdepth⟩)).trans hleads', hQ₂, hkeeps.trans hkeeps' hsub',
      fun id' hm => hsub (hsub' hm), fun id' hm => ?_, fun hall' => ?_, ?_, hrang.trans hrang'⟩
    · exact (hkeeps.watches_iff (hsub' hm)).1 (hwatch id' hm)
    · rw [← hall hall']
      refine hempty fun id' hm => ?_
      exact (hkeeps.watches_iff (List.mem_append_right _ hm)).2 (hall' id' (List.mem_cons_of_mem id hm))
    · rw [Queue.rings_congr hin, Queue.rings_congr hkeeps.records] at hperm'
      calc names' ++ names ++ Q.rings left
        _ = names' ++ (names ++ Q.rings left) := List.append_assoc ..
        _ ~ names ++ (names' ++ Q.rings left) := List.perm_append_comm_assoc ..
        _ ~ names ++ Q.rings (kept' ++ rest) := hperm'.append_left names
        _ ~ Q.rings (kept ++ id :: rest) := hperm

structure Draining (q : Nat) (k : Pending .run) (p : Process) : Prop where
  step : p.step = p.world.drainOn q k
  turns : p.control.turns = k.turns

section Draining

variable {k : Pending .run}

theorem draining_deliver (w : World) (q : Nat) (k : Pending .run) (n : Nat) :
    (w.deliver (.cons (.drain q) k) n).Draining q k := ⟨step_deliver .., rfl⟩

theorem Draining.walking (h : p.Draining q k) (hQ : p.world.queue? q = some Q)
    (hidle : Q.current = none) (hstop : Q.stopping = false) (hne : Q.order ≠ []) :
    p.Walking q (.cons (.drain q) k) Q.order.head? := by
  refine ⟨⟨{}, ?_⟩, h.turns⟩
  simp [h.step, World.drainOn, World.startPass, hQ, hidle, hstop, hne]

theorem Draining.step_eq (h : p.Draining q k) (hQ : p.world.queue? q = some Q)
    (hstop : Q.stopping = false) (hempty : Q.order = []) :
    p.step = p.world.deliver k .drained := by
  simp [h.step, World.drainOn, hQ, hstop, hempty]

theorem Draining.prompt {N : Nat} (h : p.Draining q k) (hstep : p.step = w.deliver k .drained) :
    p.Prompt q N := by
  refine prompt_of_length (Nat.le_of_eq ?_)
  rw [hstep, h.turns]
  rfl

/-- A run of a queue with nothing but watchers in it drains the queue in one pass. -/
theorem Draining.leads_watchers (h : p.Draining q k) (hsound : p.Sound) (hd : d < k.depth)
    (hQ : p.world.queue? q = some Q) (hidle : Q.current = none) (hstop : Q.stopping = false)
    (hwatch : ∀ id ∈ Q.order, Q.Watches id)
    (hgentle : p.step.Throughout d fun p => p.Polite ∧ p.Hostless q Q.config.interval) :
    p.Prompt q Q.config.interval ∧ ∃ w₁ Q₁ names,
      p.step.Leads (Underway q Q.config.interval d) (w₁.deliver k .drained) ∧
      w₁.queue? q = some Q₁ ∧ Q₁.order = [] ∧ Q₁.stats.passes ≤ Q.stats.passes + 1 ∧
      names ~ Q.rings Q.order ∧ p.world.Rang names w₁ := by
  by_cases hempty : Q.order = []
  · have hstep := h.step_eq hQ hstop hempty
    exact ⟨h.prompt hstep, p.world, Q, [], hstep ▸ Leads.refl _, hQ, hempty, Nat.le_succ _,
      by rw [hempty]; rfl, [], rfl, rfl⟩
  · have hdeep : d < k.depth + 1 := Nat.lt_succ_of_lt hd
    obtain ⟨hprompt, w₁, n, Q₁, steps, completed, left, names, hleads, hQ₁, hkeeps, _, _, hleft, hperm,
      hrang⟩ := (h.walking hQ hidle hstop hempty).leads_pass hsound hdeep hQ hidle
        (List.nil_append Q.order).symm (by simp) (dismissed_of_watches hwatch) hgentle
    rw [hleft hwatch] at hkeeps hperm
    have hdraining := draining_deliver w₁ q k n
    have hstep₁ := hdraining.step_eq hQ₁ (hkeeps.stopping.trans hstop) hkeeps.order
    refine ⟨hprompt, w₁, _, names, hleads.trans (hstep₁ ▸ .step ⟨hdraining.prompt hstep₁, hdeep⟩), hQ₁,
      hkeeps.order, ?_, by simpa using hperm, hrang⟩
    rw [← hkeeps.stats]
    exact Nat.le_refl _

/-- A run of a queue whose tasks were all told to finish drains the queue in two passes. -/
theorem Draining.leads_drained (h : p.Draining q k) (hsound : p.Sound) (hd : d < k.depth)
    (hQ : p.world.queue? q = some Q) (hidle : Q.current = none) (hstop : Q.stopping = false)
    (htold : Dismissed p.world Q Q.order)
    (hgentle : p.step.Throughout d fun p => p.Polite ∧ p.Hostless q Q.config.interval) :
    p.Prompt q Q.config.interval ∧ ∃ w₁ Q₁ names,
      p.step.Leads (Underway q Q.config.interval d) (w₁.deliver k .drained) ∧
      w₁.queue? q = some Q₁ ∧ Q₁.order = [] ∧ Q₁.stats.passes ≤ Q.stats.passes + 2 ∧
      names ~ Q.rings Q.order ∧ p.world.Rang names w₁ := by
  by_cases hempty : Q.order = []
  · obtain ⟨hprompt, w₁, Q₁, names, hleads, hQ₁, horder, hpasses, hrest⟩ :=
      h.leads_watchers hsound hd hQ hidle hstop (by simp [hempty]) hgentle
    exact ⟨hprompt, w₁, Q₁, names, hleads, hQ₁, horder, Nat.le_succ_of_le hpasses, hrest⟩
  · have hdeep : d < k.depth + 1 := Nat.lt_succ_of_lt hd
    obtain ⟨hprompt, w₁, n, Q₁, steps, completed, left, names, hleads, hQ₁, hkeeps, _, hwatch, _, hperm,
      hrang⟩ := (h.walking hQ hidle hstop hempty).leads_pass hsound hdeep hQ hidle
        (List.nil_append Q.order).symm (by simp) htold hgentle
    have hgentle₁ := (hgentle.leads hleads Underway.depth).leads (Leads.step hdeep) fun h => h
    have hwatch₁ : ∀ id ∈ Q₁.order, Q₁.Watches id := fun id hm => by
      rw [hkeeps.order] at hm
      exact (hkeeps.watches_iff hm).2 (hwatch id hm)
    obtain ⟨hprompt₁, w₂, Q₂, names', hleads', hQ₂, horder, hpasses, hperm', hrang'⟩ :=
      (draining_deliver w₁ q k n).leads_watchers (hleads.sound hsound.step.2) hd hQ₁ hkeeps.idle
        (hkeeps.stopping.trans hstop) hwatch₁ (hkeeps.config ▸ hgentle₁)
    rw [show (Q₁.countPass steps completed).config = Q.config from hkeeps.config] at hprompt₁ hleads'
    refine ⟨hprompt, w₂, Q₂, names' ++ names,
      (hleads.trans (.step ⟨hprompt₁, hdeep⟩)).trans hleads', hQ₂, horder, ?_, ?_,
      hrang.trans hrang'⟩
    · rw [← hkeeps.stats]
      exact hpasses
    · have hrings : (Q₁.countPass steps completed).rings Q₁.order = Q.rings left := by
        rw [hkeeps.order]
        exact Queue.rings_congr hkeeps.records
      exact ((hperm'.trans (.of_eq hrings)).append_right names).trans
        (List.perm_append_comm.trans hperm)

end Draining

end Process

@[simp] theorem Task.ring?_told (task : Task) : task.told.ring? = task.ring? := by cases task <;> rfl

structure Queue.Told (watcher : WatcherTask) (Q Q₁ : Queue) (id : TaskId) : Prop where
  config : Q₁.config = Q.config
  current : Q₁.current = Q.current
  stopping : Q₁.stopping = Q.stopping
  passes : Q₁.stats.passes = Q.stats.passes
  order : Q₁.order = Q.order ++ [id]
  records : ∀ id' ∈ Q.order, Q₁.get? id' = (Q.get? id').map Task.told
  watcher : Q₁.get? id = some (.watcher watcher)

theorem World.told_interruptAll (hw : w.WellFormed) (hQ : w.queue? q = some Q)
    (watcher : WatcherTask) :
    ∃ Q₁ id, (w.interruptAll q watcher).2.queue? q = some Q₁ ∧ Q.Told watcher Q₁ id ∧
      ∀ e, (w.pulse e).isSome → ((w.interruptAll q watcher).2.pulse e).isSome := by
  have htells := tells_interruptTasks w q Q.order
  have hwell := (follows_interruptTasks (I := fun _ _ => True) (T := fun _ => True) q Q.order w 0
    (fun _ _ _ => trivial) fun _ _ _ _ _ => trivial).moves.wellFormed hw
  have hdef : (w.interruptAll q watcher).2 = (((w.interruptTasks q Q.order).2.modifyQueue q
      (·.countInterrupts (w.interruptTasks q Q.order).1)).push q (.watcher watcher)).2 := by
    rw [interruptAll, hQ]
    rfl
  rw [hdef]
  change (w.interruptTasks q Q.order).2.WellFormed at hwell
  generalize (w.interruptTasks q Q.order).1 = n
  generalize (w.interruptTasks q Q.order).2 = w₁ at htells hwell
  obtain ⟨tasks, hQ₁⟩ := htells.queue Q hQ
  have hcounted : (w₁.modifyQueue q (·.countInterrupts n)).queue? q =
      some ({ Q with tasks }.countInterrupts n) := by
    rw [queue?_modifyQueue, hQ₁]
    rfl
  have hpush : ((w₁.modifyQueue q (·.countInterrupts n)).push q (.watcher watcher)).2 =
      (w₁.modifyQueue q (·.countInterrupts n)).setQueue q
        ({ Q with tasks }.countInterrupts n |>.push (.watcher watcher)).2 := by
    rw [push, hcounted]
  rw [hpush]
  have htasks := (hwell q _ hQ₁).tasks
  refine ⟨_, (tasks.insert (.watcher watcher)).1, queue?_setQueue_self hcounted _,
    ⟨rfl, rfl, rfl, rfl, rfl, fun id' hm => ?_, Arena.get?_insert_self htasks _⟩, fun e he => ?_⟩
  · obtain ⟨task, hg⟩ := ((hw q Q hQ).order id').1 hm
    have htold : w₁.task? q id' = some task.told := by
      rw [htells.tasks, task?_eq_some.2 ⟨Q, hQ, hg⟩]
      simp [hm]
    obtain ⟨Q', hQ', hg'⟩ := task?_eq_some.1 htold
    obtain rfl := Option.some.inj (hQ₁.symm.trans hQ')
    rw [show Q.get? id' = some task from hg]
    exact Arena.get?_insert_of_get? htasks hg' _
  · obtain ⟨⟨probe, n⟩, hp⟩ := Option.isSome_iff_exists.1 he
    obtain ⟨probe', hp'⟩ := htells.counts e probe n hp
    exact Option.isSome_iff_exists.2 ⟨_, hp'⟩

theorem Queue.Told.rings_eq {watcher : WatcherTask} (h : Q.Told watcher Q₁ id) :
    Q₁.rings Q₁.order = Q.rings Q.order ++ (Task.watcher watcher).ring?.toList := by
  have hold : Q₁.rings Q.order = Q.rings Q.order := List.filterMap_congr fun id' hm => by
    rw [h.records id' hm]
    cases Q.get? id' <;> simp
  rw [h.order, Queue.rings_append, hold, Queue.rings_cons h.watcher, Queue.rings_nil,
    List.append_nil]

theorem Queue.Told.dismissed {watcher : WatcherTask} {w₁ : World} (h : Q.Told watcher Q₁ id)
    (hQ : Q.WellFormed)
    (hmachines : ∀ id' ∈ Q.order, ∀ t, Q.get? id' = some (.script t) → (w₁.pulse t.engine).isSome) :
    Process.Dismissed w₁ Q₁ Q₁.order := by
  intro id' hm
  rw [h.order, List.mem_append] at hm
  obtain hm | hm := hm
  · obtain ⟨task, hg⟩ := (hQ.order id').1 hm
    refine ⟨task.told, by rw [h.records id' hm, show Q.get? id' = some task from hg]; rfl,
      task.told_told, fun e he => ?_⟩
    cases task with
    | script t =>
      cases he
      exact hmachines id' hm t hg
    | idle | timer | watcher => cases he
  · rw [List.mem_singleton.1 hm]
    exact ⟨_, h.watcher, rfl, nofun⟩

namespace Process

variable {p' : Process} {k k' : Pending .reply} {name : String} {actions : List Action}
  {onDrop : Option (List Action)}

theorem draining_perform (hcontrol : p.control = .perform (.queue q .runOnce) k)
    (hQ : p.world.queue? q = some Q) (hidle : Q.current = none) :
    p.Draining q (.cons .runReply k) := by
  obtain ⟨w, control⟩ := p
  cases hcontrol
  refine ⟨?_, rfl⟩
  simp [Process.step, World.perform, World.performOnQueue, World.startRun,
    show w.queue? q = some Q from hQ, hidle]

theorem told_step (hw : p.world.WellFormed)
    (hcontrol : p.control = .perform (.queue q (.interruptAll name actions onDrop)) k)
    (hQ : p.world.queue? q = some Q) :
    ∃ Q₁ id, p.step.world.queue? q = some Q₁ ∧
      Q.Told ⟨name, some ⟨actions, onDrop⟩⟩ Q₁ id ∧
      ∀ e, (p.world.pulse e).isSome → (p.step.world.pulse e).isSome := by
  obtain ⟨w, control⟩ := p
  cases hcontrol
  have hnamed : ∀ (w : World) id, (w.named name q id).queues = w.queues ∧
      (w.named name q id).engines = w.engines := fun w id => by
    unfold World.named
    split <;> exact ⟨rfl, rfl⟩
  have hstep : (Process.mk w (.perform (.queue q (.interruptAll name actions onDrop)) k)).step.world =
      (w.interruptAll q ⟨name, some ⟨actions, onDrop⟩⟩).2.named name q
        (w.interruptAll q ⟨name, some ⟨actions, onDrop⟩⟩).1 := by
    simp [Process.step, World.perform, World.performOnQueue, show w.queue? q = some Q from hQ,
      World.deliver]
  obtain ⟨Q₁, id, hQ₁, htold, hpulse⟩ := World.told_interruptAll hw hQ ⟨name, some ⟨actions, onDrop⟩⟩
  refine ⟨Q₁, id, ?_, htold, fun e he => ?_⟩
  · rw [hstep, World.queue?, (hnamed _ _).1]
    exact hQ₁
  · rw [hstep, World.pulse, World.engine?, (hnamed _ _).2]
    exact hpulse e he

/-- After all tasks of a queue have been told to finish, a run drains it in at most two passes, if
callbacks keep to themselves and if hooks are due at every instruction or scripts call no host
functions. The callback of each watcher runs once, nothing else runs but scripts, and each script
takes one step, in which its machine counts at most as many instructions as the interval of the
queue. -/
theorem Reachable.quiescence (h : p.Reachable)
    (hcontrol : p.control = .perform (.queue q (.interruptAll name actions onDrop)) k)
    (hQ : p.world.queue? q = some Q) (hidle : Q.current = none) (hstop : Q.stopping = false)
    (hmachines : ∀ id ∈ Q.order, ∀ t, Q.get? id = some (.script t) →
      (p.world.machine? t.engine).isSome)
    (hlater : p.step.Later p') (hcontrol' : p'.control = .perform (.queue q .runOnce) k')
    (hqueues : p'.world.queues = p.step.world.queues)
    (hengines : p'.world.engines = p.step.world.engines)
    (hpolite : p'.step.Throughout k'.depth Polite)
    (hhost : Q.config.hookInterval ≤ 1 ∨
      p'.step.Throughout k'.depth fun p => ∀ name, p.control.scriptOp? q ≠ some (.host name)) :
    ∃ n w₁ Q₁ names, p'.run n = w₁.deliver k' (.outcome .drained) ∧
      (∀ i < n, (p'.run i).Prompt q Q.config.interval) ∧
      w₁.queue? q = some Q₁ ∧ Q₁.count = 0 ∧ Q₁.stats.passes ≤ Q.stats.passes + 2 ∧
      names ~ Q.rings Q.order ++ [name] ∧ p'.world.Rang names w₁ := by
  obtain ⟨Q₁, id, hQ₁, htold, hpulse⟩ := told_step h.sound.queues hcontrol hQ
  have hQ' : p'.world.queue? q = some Q₁ := by
    rw [World.queue?, hqueues]
    exact hQ₁
  have hdismissed : Dismissed p'.world Q₁ Q₁.order := by
    refine htold.dismissed (h.sound.queues q Q hQ) fun id hm t hg => ?_
    obtain ⟨probe, n, hp⟩ := World.exists_pulse (hmachines id hm t hg)
    rw [World.pulse, World.engine?, hengines]
    exact hpulse t.engine (Option.isSome_iff_exists.2 ⟨_, hp⟩)
  have hgentle : p'.step.Throughout k'.depth fun p => p.Polite ∧ p.Hostless q Q₁.config.interval := by
    intro i hi
    refine ⟨hpolite i hi, ?_⟩
    obtain hsmall | hhost := hhost
    · left
      rw [htold.config, QueueConfig.interval]
      exact Nat.max_eq_left hsmall
    · exact .inr (hhost i hi)
  obtain ⟨hprompt, w₁, Q₂, names, hleads, hQ₂, horder, hpasses, hperm, hrang⟩ :=
    (draining_perform hcontrol' hQ' (htold.current.trans hidle)).leads_drained
      (h.sound.step.2.later hlater) (Nat.lt_succ_self _) hQ' (htold.current.trans hidle)
      (htold.stopping.trans hstop) hdismissed hgentle
  have hlast : (w₁.deliver (.cons .runReply k') .drained).step =
      w₁.deliver k' (.outcome .drained) := step_deliver ..
  have hends : (w₁.deliver (.cons .runReply k') .drained).Leads (Prompt q Q₁.config.interval)
      (w₁.deliver k' (.outcome .drained)) :=
    hlast ▸ .step (prompt_of_length (by rw [hlast]; exact Nat.le_refl _))
  obtain ⟨n, hn, hall⟩ := (Leads.step hprompt).trans ((hleads.mono Underway.prompt).trans hends)
  rw [htold.config] at hall
  rw [htold.passes] at hpasses
  exact ⟨n, w₁, Q₂, names, hn, hall, hQ₂, by rw [Queue.count, horder]; rfl, hpasses,
    htold.rings_eq ▸ hperm, hrang⟩

/-- A queue with a watcher that notifies its observer, an idle task, a timer and a script that never ends
by itself. -/
def fleet : Process :=
  during [{ hookInterval := 2 }] [.machine {}]
    [.act (.queue 0 (.interruptAll "W" (World.interruptedNotice 0) none)),
      .act (.queue 0 (.idle "I" [⟨[], .again⟩] (some [.engine 0 .top]))),
      .act (.queue 0 (.timer "T" 0 none [[]] none)),
      .act (.queue 0 (.parseAndStart "S" 0 "top:\njump top".toUTF8.data.toList))]
    (.act (.queue 0 (.interruptAll "f" [.engine 0 .top] none))) 0

theorem reachable_fleet : fleet.Reachable :=
  reachable_during 0 (by decide +kernel) (by decide +kernel)

def settling : Process := (fleet.run 2).world.begin (.act (.queue 0 .runOnce))

theorem later_settling : fleet.step.Later settling := by
  have hstep : fleet.run 2 = fleet.step.step := by rw [run_succ, run_succ, run_zero]
  refine .tail (.single (.step fleet.step)) ?_
  rw [settling, hstep]
  exact .command (by decide +kernel) _

theorem polite_settling : settling.step.Throughout 0 Polite := by
  have hcheck : ∀ i < 30, ∀ action ∈ (settling.step.run i).control.action?,
      action.tampers = false ∧ ∃ n < 5, ((settling.step.run i).run n).control.depth <
        (settling.step.run i).control.depth ∧
        ∀ j ≤ n, ((settling.step.run i).run j).control.payload? = none := by
    decide +kernel
  refine throughout_of_lt (n := 30) (by decide +kernel) fun i hi action haction => ?_
  obtain ⟨htampers, n, _, hends⟩ := hcheck i hi action haction
  exact ⟨htampers, n, hends⟩

theorem hostless_settling : settling.step.Throughout 0 fun p =>
    ∀ name, p.control.scriptOp? 0 ≠ some (.host name) := by
  have hcheck : ∀ i < 30, ∀ op ∈ (settling.step.run i).control.scriptOp? 0, op = .jump 0 := by
    decide +kernel
  refine throughout_of_lt (n := 30) (by decide +kernel) fun i hi name hop => ?_
  cases hcheck i hi _ hop

theorem quiescence_fleet :
    fleet.control = .perform (.queue 0 (.interruptAll "f" [.engine 0 .top] none)) .outermost ∧
    fleet.step.Later settling ∧ settling.control = .perform (.queue 0 .runOnce) .outermost ∧
    ∃ n w₁ Q₁ names, settling.run n = w₁.deliver .outermost (.outcome .drained) ∧
      (∀ i < n, (settling.run i).Prompt 0 2) ∧ w₁.queue? 0 = some Q₁ ∧ Q₁.count = 0 ∧
      Q₁.stats.passes ≤ 2 ∧ names ~ ["W", "f"] ∧ settling.world.Rang names w₁ := by
  have hcontrol : fleet.control =
    .perform (.queue 0 (.interruptAll "f" [.engine 0 .top] none)) .outermost := by cbv
  have hcontrol' : settling.control = .perform (.queue 0 .runOnce) .outermost := by cbv
  have hqueue : (fleet.world.queue? 0).map (fun Q => (Q.current, Q.stopping, Q.config.interval,
    Q.stats.passes, Q.rings Q.order)) = some (none, false, 2, 0, ["W"]) := by decide +kernel
  have hmachines : ∀ Q ∈ fleet.world.queue? 0, ∀ id ∈ Q.order,
    ∀ e ∈ (Q.get? id).bind Task.engine?, (fleet.world.machine? e).isSome := by decide +kernel
  obtain ⟨Q, hQ, hqueue⟩ := Option.map_eq_some_iff.1 hqueue
  simp only [Prod.mk.injEq] at hqueue
  obtain ⟨hidle, hstop, hinterval, hpasses, hrings⟩ := hqueue
  refine ⟨hcontrol, later_settling, hcontrol', ?_⟩
  have hquiet := reachable_fleet.quiescence hcontrol hQ hidle hstop
    (fun id hm t hg => hmachines Q hQ id hm t.engine (by rw [hg]; rfl)) later_settling hcontrol'
    (by cbv) (by cbv) polite_settling (.inr hostless_settling)
  rwa [hinterval, hpasses, hrings] at hquiet

end Process

end TaskLoop
