import TaskLoop.Proofs.Course
import TaskLoop.Proofs.Interrupt

namespace TaskLoop

open scoped List

variable {w w' : World} {I : Nat → TaskId → Prop} {T : Nat → Prop} {q i j n : Nat} {id id' : TaskId}
  {ids : List TaskId} {p : Process} {Q Q' : Queue}

/-- Of the tasks that were queued some stay, in their order. Those that are pushed come after them,
under ids that the queue has never given out. -/
theorem Queue.Moves.order {I : TaskId → Prop} (h : Q.Moves I Q') (hQ : Q.WellFormed) :
    ∃ kept new, Q'.order = kept ++ new ∧ kept <+ Q.order ∧ ∀ id ∈ new, ¬ Q.tasks.Known id := by
  induction h with
  | refl => exact ⟨Q.order, [], by simp, .refl _, nofun⟩
  | @tail A B hmoves move ih =>
    obtain ⟨kept, new, horder, hkept, hnew⟩ := ih
    have hA : A.WellFormed := Moves.wellFormed hmoves hQ
    have hfilter : ∀ id : TaskId, ∃ kept' new', A.order.filter (· != id) = kept' ++ new' ∧
        kept' <+ Q.order ∧ ∀ id ∈ new', ¬ Q.tasks.Known id := fun id =>
      ⟨kept.filter (· != id), new.filter (· != id), by rw [horder, List.filter_append],
        List.filter_sublist.trans hkept, fun id' hm => hnew id' (List.mem_filter.1 hm).1⟩
    cases move with
    | enter | leave => exact ⟨kept, new, horder, hkept, hnew⟩
    | edit edit =>
      cases edit with
      | note | rewrite => exact ⟨kept, new, horder, hkept, hnew⟩
      | push task =>
        refine ⟨kept, new ++ [(A.tasks.insert task).1], ?_, hkept, fun id hm => ?_⟩
        · rw [← List.append_assoc, ← horder]
          rfl
        · obtain hm | hm := List.mem_append.1 hm
          · exact hnew id hm
          · intro hknown
            rw [List.mem_singleton.1 hm] at hknown
            exact Arena.fst_insert_ne hA.tasks (Moves.known hmoves hQ hknown) task rfl
      | @unlink id _ _ taken | @hold id _ _ taken =>
        obtain ⟨_, _, rfl⟩ := Queue.unlink?_eq_some taken
        exact hfilter id

namespace World

def order (w : World) (q : Nat) : List TaskId := ((w.queue? q).map (·.order)).getD []

theorem order_eq (hQ : w.queue? q = some Q) : w.order q = Q.order := by rw [order, hQ]; rfl

theorem order_eq_nil (h : w.queue? q = none) : w.order q = [] := by rw [order, h]; rfl

theorem mem_order (hw : w.WellFormed) : id ∈ w.order q ↔ ∃ task, w.task? q id = some task := by
  cases hQ : w.queue? q with
  | none => simp [order, task?, hQ]
  | some Q => rw [order_eq hQ, (hw q Q hQ).order, task?, hQ]; rfl

theorem task?_eq_none_iff (hw : w.WellFormed) : w.task? q id = none ↔ id ∉ w.order q := by
  rw [mem_order hw, Option.eq_none_iff_forall_ne_some, not_exists]

theorem nodup_order (hw : w.WellFormed) (q : Nat) : (w.order q).Nodup := by
  cases hQ : w.queue? q with
  | none => simp [order, hQ]
  | some Q => exact order_eq hQ ▸ (hw q Q hQ).nodup

def newcomers (w w' : World) (q : Nat) : List TaskId := (w'.order q).filter (· ∉ w.order q)

theorem newcomers_eq {kept new : List TaskId} (h : w'.order q = kept ++ new)
    (hkept : kept ⊆ w.order q) (hnew : ∀ id ∈ new, id ∉ w.order q) : w.newcomers w' q = new := by
  rw [newcomers, h, List.filter_append, List.filter_eq_nil_iff.2 fun id hm => by simpa using hkept hm,
    List.nil_append, List.filter_eq_self]
  exact fun id hm => by simpa using hnew id hm

/-- A list of ids that were given out by a queue: none twice, all queued tasks among them, in their
order. -/
structure Lists (w : World) (q : Nat) (ids : List TaskId) : Prop where
  nodup : ids.Nodup
  order : w.order q <+ ids
  known : ∀ Q, w.queue? q = some Q → ∀ id ∈ ids, Q.tasks.Known id

theorem Moves.lists (h : w.Moves I T w') (hw : w.WellFormed) (hl : w.Lists q ids) :
    w'.Lists q (ids ++ w.newcomers w' q) := by
  have hrel := h.queues q
  cases hQ : w.queue? q with
  | none =>
    rw [hQ] at hrel
    have hQ' : w'.queue? q = none := by
      generalize w'.queue? q = o at hrel
      cases hrel
      rfl
    rw [newcomers, order_eq_nil hQ', List.filter_nil, List.append_nil]
    exact ⟨hl.nodup, by simp [order_eq_nil hQ'], fun Q' h => by cases hQ'.symm.trans h⟩
  | some Q =>
    obtain ⟨Q', hQ', hmoves⟩ := queue?_of_rel_left hrel hQ
    have hwf := hw q Q hQ
    have hknown := hl.known Q hQ
    obtain ⟨kept, new, horder, hkept, hnew⟩ := hmoves.order hwf
    have hfresh : ∀ id ∈ new, id ∉ ids := fun id hm hm' => hnew id hm (hknown id hm')
    have hsub : Q.order <+ ids := order_eq hQ ▸ hl.order
    have hnewcomers : w.newcomers w' q = new :=
      newcomers_eq ((order_eq hQ').trans horder) (order_eq hQ ▸ hkept.subset) fun id hm hm' =>
        hfresh id hm (hl.order.subset hm')
    have hnodup : (kept ++ new).Nodup := horder ▸ (hmoves.wellFormed hwf).nodup
    rw [hnewcomers]
    refine ⟨hl.nodup.append (hnodup.sublist (List.sublist_append_right ..))
      fun id hm hm' => hfresh id hm' hm, ?_, fun Q₁ hQ₁ id hm => ?_⟩
    · rw [order_eq hQ', horder]
      exact (hkept.trans hsub).append (.refl new)
    · obtain rfl := Option.some.inj (hQ'.symm.trans hQ₁)
      obtain hm | hm := List.mem_append.1 hm
      · exact hmoves.known hwf (hknown id hm)
      · exact .inl (((hmoves.wellFormed hwf).order id).1 (horder ▸ List.mem_append_right _ hm))

end World

namespace Process

def pushed (p : Process) (q : Nat) : List TaskId := p.world.newcomers p.step.world q

theorem Sound.lists_step (h : p.Sound) (hl : p.world.Lists q ids) :
    p.step.world.Lists q (ids ++ p.pushed q) := h.step.1.lists h.queues hl

theorem pushed_of_ended (h : p.control.ended = true) : p.pushed q = [] := by
  rw [pushed, step_of_ended h, World.newcomers, List.filter_eq_nil_iff]
  exact fun id hm => by simpa using hm

end Process

def pushes (row : Nat → Process) (q n : Nat) : List TaskId :=
  (List.range n).flatMap fun i => (row i).pushed q

theorem pushes_succ (row : Nat → Process) (q n : Nat) :
    pushes row q (n + 1) = pushes row q n ++ (row n).pushed q := by
  simp [pushes, List.range_succ]

theorem mem_pushes {row : Nat → Process} (hin : i < n) (hm : id ∈ (row i).pushed q) :
    id ∈ pushes row q n := List.mem_flatMap.2 ⟨i, List.mem_range.2 hin, hm⟩

theorem World.lists_begin (h : w.Lists q ids) (command : Command) :
    (w.begin command).world.Lists q ids := by
  refine ⟨h.nodup, ?_, fun Q hQ => h.known Q (queue?_begin hQ)⟩
  cases hQ : (w.begin command).world.queue? q with
  | none => simp [order_eq_nil hQ]
  | some Q =>
    rw [order_eq hQ, ← order_eq (queue?_begin hQ)]
    exact h.order

/-- All that was pushed on a queue in the course of a session lists what is queued. -/
theorem Course.lists (s : Course) (q i : Nat) : (s i).world.Lists q (pushes s q i) := by
  induction i with
  | zero =>
    obtain ⟨start, queues, engines, h⟩ := s.starts
    refine ⟨List.nodup_nil, ?_, nofun⟩
    cases hQ : (s 0).world.queue? q with
    | none => simp [World.order_eq_nil hQ]
    | some Q =>
      have hmade : (World.make start queues engines).queue? q = some Q := by
        rw [← hQ, h]
        rfl
      obtain ⟨config, rfl⟩ := World.queue?_make hmade
      simp [World.order_eq hQ]
  | succ i ih =>
    rw [pushes_succ]
    obtain hstep | ⟨hended, command, hbegin⟩ := s.step_or_begin i
    · rw [hstep]
      exact (s.sound i).lists_step ih
    · rw [hbegin, Process.pushed_of_ended hended, List.append_nil]
      exact World.lists_begin ih command

def QueueAction.pushes {α : Type} : QueueAction α → Bool
  | .idle .. | .timer .. | .interruptAll .. | .parseAndStart .. | .startScript .. => true
  | _ => false

def Process.Returns (p : Process) (q : Nat) (id : TaskId) : Prop :=
  ∃ (w : World) (action : QueueAction Action) (k : Pending .reply),
    p.control = .perform (.queue q action) k ∧ action.pushes = true ∧ p.step = w.deliver k (.task id)

namespace World

theorem order_push (hQ : w.queue? q = some Q) (task : Task) :
    (w.push q task).2.order q = w.order q ++ [(w.push q task).1] := by
  simp only [push, hQ]
  rw [order_eq (queue?_setQueue_self hQ _), order_eq hQ]
  rfl

theorem order_named (w : World) (name : String) (q' : Nat) :
    (w.named name q' id).order q = w.order q := by
  rw [order, (aside_named (T := fun _ => False) w name q' id).queue? q]
  rfl

theorem order_modifyQueue {f : Queue → Queue} (hf : ∀ Q, (f Q).order = Q.order) :
    (w.modifyQueue q f).order q = w.order q := by
  rw [order, order, queue?_modifyQueue]
  cases w.queue? q with
  | none => rfl
  | some Q => exact hf Q

theorem order_interruptAll (hQ : w.queue? q = some Q) (watcher : WatcherTask) :
    (w.interruptAll q watcher).2.order q = w.order q ++ [(w.interruptAll q watcher).1] := by
  obtain ⟨tasks, hQ₁⟩ := (tells_interruptTasks w q (((w.queue? q).map (·.order)).getD [])).queue Q hQ
  have hcount : ∀ n, ((w.interruptTasks q (((w.queue? q).map (·.order)).getD [])).2.modifyQueue q
      (·.countInterrupts n)).queue? q = some (({ Q with tasks } : Queue).countInterrupts n) :=
    fun n => by rw [queue?_modifyQueue, hQ₁]; rfl
  rw [interruptAll, order_push (hcount _), order_eq (hcount _), order_eq hQ]
  rfl

theorem order_parseAndStart (hQ : w.queue? q = some Q) {e : Nat} {source : List UInt8}
    (h : w.parseAndStart q e source = (.ok id, w')) : w'.order q = w.order q ++ [id] := by
  unfold parseAndStart at h
  split at h
  · cases h
  · next key w₁ hload =>
    have hQ₁ := ((aside_loadScript (T := fun _ => False) hload).queue? q).trans hQ
    have hQ₂ := queue?_notify (queue?_notify hQ₁ .notice "Running script...") .state "1"
    cases h
    refine (order_push hQ₂ _).trans ?_
    rw [order_eq hQ₂, order_eq hQ]
    rfl

end World

namespace Process

theorem Returns.order (h : p.Returns q id) :
    p.step.world.order q = p.world.order q ++ [id] := by
  obtain ⟨w', action, k, hcontrol, hpushes, hstep⟩ := h
  obtain ⟨w, control⟩ := p
  subst hcontrol
  change w.perform (.queue q action) k = _ at hstep
  rw [show step ⟨w, .perform (.queue q action) k⟩ = _ from hstep]
  simp only [World.perform] at hstep
  split at hstep
  · cases hstep
  · next Q hQ =>
    have hstart : ∀ name task, w.start q name task k = w'.deliver k (.task id) →
        w'.order q = w.order q ++ [id] := fun name task h => by
      cases h
      exact (World.order_named ..).trans (World.order_push hQ task)
    cases action with
    | idle | timer | startScript => exact hstart _ _ hstep
    | interruptAll name actions onDrop =>
      cases hstep
      exact (World.order_named ..).trans (World.order_interruptAll hQ _)
    | parseAndStart name e source =>
      simp only [World.performOnQueue] at hstep
      split at hstep
      · cases hstep
      · next hparsed =>
        cases hstep
        exact (World.order_named ..).trans (World.order_parseAndStart hQ hparsed)
    | _ => cases hpushes

theorem Returns.pushed (h : p.Returns q id) (hsound : p.Sound) : p.pushed q = [id] := by
  have hnodup := World.nodup_order hsound.step.2.queues q
  rw [h.order] at hnodup
  exact World.newcomers_eq h.order (List.Subset.refl _) fun id' hm hm' =>
    List.disjoint_of_nodup_append hnodup hm' hm

end Process

structure World.Rejects (w : World) (q : Nat) (id : TaskId) : Prop where
  contains : ∀ name k, w.resolve name = id →
    w.perform (.queue q (.contains name)) k = w.deliver k (.bool false)
  kind : ∀ name k, w.resolve name = id → w.perform (.queue q (.kind name)) k = w.deliver k .null
  remove : ∀ name k, w.resolve name = id →
    w.perform (.queue q (.remove name)) k = w.deliver k (.unknownTask id)
  interrupt : ∀ name k, w.resolve name = id →
    w.perform (.queue q (.interrupt name)) k = w.deliver k (.unknownTask id)

theorem World.rejects (hQ : w.queue? q = some Q) (hg : Q.get? id = none) : w.Rejects q id := by
  have hcontains : Q.contains id = false := by
    rw [Queue.contains, Arena.contains, show Q.tasks.get? id = none from hg]
    rfl
  have hunlink : Q.unlink? id = none := by
    rw [Queue.unlink?, Arena.remove?, show Q.tasks.get? id = none from hg]
    rfl
  refine ⟨fun name k h => ?_, fun name k h => ?_, fun name k h => ?_, fun name k h => ?_⟩
  · simp only [perform, hQ, performOnQueue, h, hcontains]
  · simp only [perform, hQ, performOnQueue, h, hg]
  · simp only [perform, hQ, performOnQueue, h, removeTask, hunlink]
  · simp only [perform, hQ, performOnQueue, h, interruptOne, hcontains]
    rfl

namespace Course

variable {s : Course}

theorem get?_eq_none (hm : id ∈ pushes s q i) (hgone : id ∉ (s i).world.order q) (hij : i ≤ j)
    (hQ : (s j).world.queue? q = some Q) : Q.get? id = none := by
  obtain ⟨Q₀, hQ₀, hmoves⟩ := moves hij hQ
  have hwf := (s.sound i).queues q Q₀ hQ₀
  refine Option.eq_none_iff_forall_ne_some.2 fun task hg => hgone ?_
  obtain ⟨task₀, hg₀, _⟩ := hmoves.get?_origin hwf ((s.lists q i).known Q₀ hQ₀ id hm) hg
  exact World.order_eq hQ₀ ▸ (hwf.order id).2 ⟨task₀, hg₀⟩

theorem returns_ne (hij : i < j) (hi : (s i).Returns q id) (hj : (s j).Returns q id') :
    id ∈ pushes s q j ∧ id ≠ id' := by
  have hm : id ∈ pushes s q j := mem_pushes hij (by rw [hi.pushed (s.sound i)]; simp)
  refine ⟨hm, fun he => ?_⟩
  have hnodup := (s.lists q (j + 1)).nodup
  rw [pushes_succ, hj.pushed (s.sound j)] at hnodup
  exact List.disjoint_of_nodup_append hnodup hm (by simp [he])

theorem order_of_returns (h : (s i).Returns q id) :
    (s (i + 1)).world.order q = (s i).world.order q ++ [id] := by
  rw [succ_eq_step, h.order]
  obtain ⟨_, _, _, hcontrol, _⟩ := h
  rw [hcontrol]
  rfl

/-- At every moment of a session a queue lists the ids of its records, each once and in the order in
which they were pushed. A push returns the id that it appends, no id is returned twice, and one whose
task has left the queue is rejected from then on. -/
theorem handles (s : Course) (q : Nat) :
    (∀ i Q, (s i).world.queue? q = some Q → Q.order.Nodup ∧
      (∀ id, id ∈ Q.order ↔ Q.contains id = true) ∧
      Q.order <+ pushes s q i ∧ (pushes s q i).Nodup) ∧
    (∀ i id, (s i).Returns q id → (s (i + 1)).world.order q = (s i).world.order q ++ [id]) ∧
    (∀ i j id id', i < j → (s i).Returns q id → (s j).Returns q id' →
      id ∈ pushes s q j ∧ id ≠ id') ∧
    ∀ i j id Q, id ∈ pushes s q i → id ∉ (s i).world.order q → i ≤ j →
      (s j).world.queue? q = some Q →
        Q.contains id = false ∧ Q.get? id = none ∧ (s j).world.Rejects q id := by
  refine ⟨fun i Q hQ => ?_, fun i id => order_of_returns, fun i j id id' => returns_ne,
    fun i j id Q hm hgone hij hQ => ?_⟩
  · have hwf := (s.sound i).queues q Q hQ
    have hlists := s.lists q i
    refine ⟨hwf.nodup, fun id => ?_, World.order_eq hQ ▸ hlists.order, hlists.nodup⟩
    rw [hwf.order, Queue.contains, Arena.contains, Option.isSome_iff_exists]
    rfl
  · have hg := get?_eq_none hm hgone hij hQ
    refine ⟨?_, hg, World.rejects hQ hg⟩
    rw [Queue.contains, Arena.contains, show Q.tasks.get? id = none from hg]
    rfl

/-- A task is removed, and the next one that is pushed comes to live in its slot. -/
def reusing : Course :=
  .ofCommands [{}] [] [.act (.queue 0 (.idle "A" [] none)), .act (.queue 0 (.idle "B" [] none)),
    .act (.queue 0 (.remove "A")), .act (.queue 0 (.idle "C" [] none)),
    .act (.queue 0 (.contains "A"))]

theorem handles_reusing :
    (reusing 1).Returns 0 ⟨1, 1⟩ ∧ (reusing 11).Returns 0 ⟨1, 3⟩ ∧
    (⟨1, 1⟩ : TaskId) ∈ pushes reusing 0 11 ∧ (⟨1, 1⟩ : TaskId) ≠ ⟨1, 3⟩ ∧
    ∃ Q, (reusing 14).world.queue? 0 = some Q ∧ Q.order = [⟨2, 1⟩, ⟨1, 3⟩] ∧
      Q.order <+ pushes reusing 0 14 ∧ Q.contains ⟨1, 1⟩ = false ∧
      (reusing 14).world.Rejects 0 ⟨1, 1⟩ := by
  obtain ⟨horder, _, hreturns, hstale⟩ := reusing.handles 0
  have hfirst : (reusing 1).Returns 0 ⟨1, 1⟩ := ⟨_, _, .outermost, rfl, rfl, rfl⟩
  have hlast : (reusing 11).Returns 0 ⟨1, 3⟩ := ⟨_, _, .outermost, rfl, rfl, rfl⟩
  obtain ⟨hm, hne⟩ := hreturns 1 11 _ _ (by decide) hfirst hlast
  have hqueue : ((reusing 14).world.queue? 0).map (·.order) = some [⟨2, 1⟩, ⟨1, 3⟩] := by
    decide +kernel
  obtain ⟨Q, hQ, hids⟩ := Option.map_eq_some_iff.1 hqueue
  obtain ⟨hcontains, _, hrejects⟩ := hstale 11 14 _ Q hm (by decide +kernel) (by decide) hQ
  exact ⟨hfirst, hlast, hm, hne, Q, hQ, hids, (horder 14 Q hQ).2.2.1, hcontains, hrejects⟩

end Course

end TaskLoop
