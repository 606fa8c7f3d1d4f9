import TaskLoop.Proofs.Step

namespace TaskLoop

variable {p p' : Process} {w : World} {q : Nat} {id : TaskId}

def Control.ended : Control → Bool
  | .answered _ | .escaped _ => true
  | _ => false

namespace Process

inductive Next : Process → Process → Prop
  | step (p : Process) : Next p p.step
  | command {p : Process} (ended : p.control.ended = true) (command : Command) :
      Next p (p.world.begin command)

def Later : Process → Process → Prop := Relation.ReflTransGen Next

def fresh (start : UInt64) (queues : List QueueConfig) (engines : List EngineKind) : Process :=
  ⟨World.make start queues engines, .answered .null⟩

def Reachable (p : Process) : Prop :=
  ∃ start queues engines, (fresh start queues engines).Later p

def Interrupted (p : Process) (q : Nat) (id : TaskId) : Prop :=
  ∃ p₀ : Process, p₀.Reachable ∧ p₀.Interrupts q id ∧ p₀.step.Later p

theorem Reachable.later (h : p.Reachable) (h' : p.Later p') : p'.Reachable := by
  obtain ⟨start, queues, engines, hp⟩ := h
  exact ⟨start, queues, engines, hp.trans h'⟩

theorem Reachable.step (h : p.Reachable) : p.step.Reachable := h.later (.single (.step p))

theorem later_run (p : Process) (n : Nat) : p.Later (p.run n) := by
  induction n generalizing p with
  | zero => exact .refl
  | succ n ih => rw [run_succ]; exact .head (.step p) (ih p.step)

theorem run_succ_step (p : Process) (n : Nat) : p.run (n + 1) = (p.run n).step := by
  rw [run_add, run_succ, run_zero]

theorem Reachable.run (h : p.Reachable) (n : Nat) : (p.run n).Reachable := h.later (later_run p n)

def after (fuel : Nat) (p : Process) (commands : List Command) : Process :=
  commands.foldl (fun p command => (p.world.begin command).run fuel) p

def inTurn (fuel : Nat) (p : Process) : List Command → Bool
  | [] => true
  | command :: rest => p.control.ended && inTurn fuel ((p.world.begin command).run fuel) rest

theorem reachable_fresh (start : UInt64) (queues : List QueueConfig) (engines : List EngineKind) :
    (fresh start queues engines).Reachable := ⟨start, queues, engines, .refl⟩

theorem Reachable.after {fuel : Nat} {commands : List Command} (h : p.Reachable)
    (hturn : p.inTurn fuel commands = true) : (p.after fuel commands).Reachable := by
  induction commands generalizing p with
  | nil => exact h
  | cons command rest ih =>
    rw [inTurn, Bool.and_eq_true] at hturn
    exact ih ((h.later (.single (.command hturn.1 command))).run fuel) hturn.2

def during (queues : List QueueConfig) (engines : List EngineKind) (setup : List Command)
    (command : Command) (n : Nat) : Process :=
  (((fresh 0 queues engines).after 100 setup).world.begin command).run n

theorem reachable_during {queues : List QueueConfig} {engines : List EngineKind}
    {setup : List Command} {command : Command} (n : Nat)
    (hsetup : (fresh 0 queues engines).inTurn 100 setup = true)
    (hended : ((fresh 0 queues engines).after 100 setup).control.ended = true) :
    (during queues engines setup command n).Reachable :=
  (((reachable_fresh 0 queues engines).after hsetup).later (.single (.command hended command))).run n

theorem Interrupted.later (h : p.Interrupted q id) (h' : p.Later p') : p'.Interrupted q id := by
  obtain ⟨p₀, hp₀, hi, hl⟩ := h
  exact ⟨p₀, hp₀, hi, hl.trans h'⟩

end Process

theorem Queue.wellFormed_new (config : QueueConfig) : ({ config } : Queue).WellFormed := by
  refine ⟨Arena.wellFormed_empty, List.nodup_nil, fun id => ?_, nofun⟩
  simp [Queue.get?, Arena.get?_empty]

theorem Queue.not_armed_new (config : QueueConfig) : ¬ ({ config } : Queue).Armed id := by
  simp [Queue.Armed, Queue.get?, Arena.get?_empty]

namespace World

theorem queue?_make {start : UInt64} {queues : List QueueConfig} {engines : List EngineKind}
    {Q : Queue} (h : (make start queues engines).queue? q = some Q) :
    ∃ config, Q = { config } := by
  simp only [queue?, make, Option.join_eq_some_iff, List.getElem?_toArray, List.getElem?_map,
    Option.map_eq_some_iff, Option.some.injEq] at h
  obtain ⟨config, _, rfl⟩ := h
  exact ⟨config, rfl⟩

theorem ready_make (start : UInt64) (queues : List QueueConfig) (engines : List EngineKind) :
    Pending.outermost.Ready (make start queues engines) := by
  refine ⟨fun q Q hQ => ?_, trivial, fun q Q id hQ hc => ?_⟩
  · obtain ⟨config, rfl⟩ := queue?_make hQ
    exact Queue.wellFormed_new config
  · obtain ⟨config, rfl⟩ := queue?_make hQ
    cases hc

/-- A command performs an action, or it drops a queue, whose records are then to be destroyed. -/
theorem begin_induction {motive : Process → Prop}
    (act : ∀ action, motive ⟨{ w with log := [] }, .perform action .outermost⟩)
    (absent : motive (({ w with log := [] } : World).deliver .outermost .noQueue))
    (drops : ∀ q Q, w.queue? q = some Q →
      motive (({ w with log := [], queues := w.queues.setIfInBounds q none } : World).deliver
        (.cons (.sweep Q.tasks.records) (.cons (.doneReply .null) .outermost)) ()))
    (command : Command) : motive (w.begin command) := by
  cases command with
  | act action => exact act action
  | dropQueue q =>
    simp only [begin, dropQueue]
    split
    · exact absent
    · next Q hQ => exact drops q Q hQ

theorem queue?_begin {command : Command} {Q : Queue}
    (h : (w.begin command).world.queue? q = some Q) : w.queue? q = some Q := by
  cases command with
  | act action => exact h
  | dropQueue q' =>
    simp only [begin, dropQueue] at h
    split at h
    · exact h
    · by_cases hq : q' = q
      · subst hq
        simp only [deliver, queue?, Option.join_eq_some_iff] at h
        simp [Array.getElem?_setIfInBounds] at h
      · simpa [deliver, queue?, Array.getElem?_setIfInBounds_ne hq] using h

theorem ready_begin (h : Pending.outermost.Ready w) (command : Command) :
    Pending.outermost.Ready (w.begin command).world :=
  ⟨fun q Q hQ => h.queues q Q (queue?_begin hQ), trivial,
    fun q Q id hQ hc => h.marks q Q id (queue?_begin hQ) hc⟩

theorem sound_begin (h : Pending.outermost.Ready w) (command : Command) :
    (w.begin command).Sound := by
  have hr := ready_begin h command
  cases command with
  | act action => exact ⟨hr, nofun⟩
  | dropQueue q =>
    simp only [begin, dropQueue] at hr ⊢
    split at hr
    · exact ⟨hr, nofun⟩
    · have hreply : (Pending.cons (.doneReply .null) .outermost).Ready _ := hr.cons trivial
      exact ⟨hreply.cons (f := .sweep _) rfl, nofun⟩

end World

namespace Process

theorem Sound.ended (h : p.Sound) (hended : p.control.ended = true) :
    Pending.outermost.Ready p.world := by
  have hr := h.ready
  cases hc : p.control with
  | answered | escaped => rw [hc] at hr; exact hr
  | perform | deliver | unwind | aborted => rw [hc] at hended; cases hended

theorem Sound.next (h : p.Sound) (hnext : p.Next p') : p'.Sound := by
  cases hnext with
  | step => exact h.step.2
  | command ended command => exact World.sound_begin (h.ended ended) command

theorem Sound.later (h : p.Sound) (hlater : p.Later p') : p'.Sound := by
  induction hlater with
  | refl => exact h
  | tail _ hnext ih => exact ih.next hnext

theorem Sound.run (h : p.Sound) (n : Nat) : (p.run n).Sound := h.later (later_run p n)

theorem Sound.moves_run (h : p.Sound) (n : Nat) :
    p.world.Moves (fun _ _ => True) (fun _ => True) (p.run n).world := by
  induction n with
  | zero => exact World.Moves.refl p.world
  | succ n ih =>
    rw [run_succ_step]
    exact ih.trans ((h.run n).step.1.mono (fun _ _ _ => trivial) fun _ _ => trivial)

/-- A running task that is queued after a run was queued before it. -/
theorem Sound.task?_origin_run {n : Nat} {task' : Task} (h : p.Sound)
    (hrunning : p.world.Running q id) (ht' : (p.run n).world.task? q id = some task') :
    ∃ task, p.world.task? q id = some task ∧ task.Heir task' := by
  obtain ⟨Q, hQ, _, hknown⟩ := hrunning
  obtain ⟨Q', hQ', hg'⟩ := World.task?_eq_some.1 ht'
  obtain ⟨Q₀, hQ₀, hmoves⟩ := World.queue?_of_rel ((h.moves_run n).queues q) hQ'
  obtain rfl := Option.some.inj (hQ.symm.trans hQ₀)
  obtain ⟨task, hg, hheir⟩ := hmoves.get?_origin (h.queues q Q hQ) hknown hg'
  exact ⟨task, World.task?_eq_some.2 ⟨Q, hQ, hg⟩, hheir⟩

theorem Sound.task?_run_eq_none {m n : Nat} {task : Task} (h : p.Sound)
    (ht : p.world.task? q id = some task) (hgone : (p.run m).world.task? q id = none)
    (hmn : m ≤ n) : (p.run n).world.task? q id = none := by
  obtain ⟨Q, hQ, hg⟩ := World.task?_eq_some.1 ht
  obtain ⟨l, rfl⟩ := Nat.exists_eq_add_of_le hmn
  rw [run_add]
  refine Option.eq_none_iff_forall_ne_some.2 fun task' ht' => ?_
  obtain ⟨Q₂, hQ₂, hg₂⟩ := World.task?_eq_some.1 ht'
  obtain ⟨Q₁, hQ₁, hmoves'⟩ := World.queue?_of_rel (((h.run m).moves_run l).queues q) hQ₂
  obtain ⟨Q₀, hQ₀, hmoves⟩ := World.queue?_of_rel ((h.moves_run m).queues q) hQ₁
  obtain rfl := Option.some.inj (hQ.symm.trans hQ₀)
  have hknown := hmoves.known (h.queues q Q hQ) (.inl ⟨task, hg⟩)
  obtain ⟨task₁, hg₁, _⟩ := hmoves'.get?_origin ((h.run m).queues q Q₁ hQ₁) hknown hg₂
  cases hgone.symm.trans (World.task?_eq_some.2 ⟨Q₁, hQ₁, hg₁⟩)

theorem sound_fresh (start : UInt64) (queues : List QueueConfig) (engines : List EngineKind) :
    (fresh start queues engines).Sound :=
  ⟨World.ready_make start queues engines, nofun⟩

theorem Reachable.sound (h : p.Reachable) : p.Sound := by
  obtain ⟨start, queues, engines, hlater⟩ := h
  exact (sound_fresh start queues engines).later hlater

/-- A task that is found interrupted in a session has been interrupted by some transition. -/
theorem Reachable.interrupted (h : p.Reachable) (ha : p.world.Armed q id) :
    p.Interrupted q id := by
  obtain ⟨start, queues, engines, hlater⟩ := h
  induction hlater with
  | refl =>
    obtain ⟨Q, hQ, ha⟩ := ha
    obtain ⟨config, rfl⟩ := World.queue?_make hQ
    exact absurd ha (Queue.not_armed_new config)
  | @tail p p' hlater hnext ih =>
    have hp : p.Reachable := ⟨start, queues, engines, hlater⟩
    cases hnext with
    | step =>
      obtain ha | hi := hp.sound.step.1.armed_origin hp.sound.queues ha
      · exact (ih ha).later (.single (.step p))
      · exact ⟨p, hp, hi, .refl⟩
    | command ended command =>
      obtain ⟨Q, hQ, ha⟩ := ha
      exact (ih ⟨Q, World.queue?_begin hQ, ha⟩).later (.single (.command ended command))

end Process

end TaskLoop
