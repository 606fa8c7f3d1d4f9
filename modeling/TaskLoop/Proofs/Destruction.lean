import Mathlib
import TaskLoop.Proofs.DropLog
import TaskLoop.Proofs.Sweeps

namespace TaskLoop

variable {w : World} {q i j l m d : Nat} {id : TaskId} {s : Course} {Q : Queue} {task held : Task}
  {name : String} {onDrop : Option (List Action)}

namespace Course

theorem bears (ht : (s m).world.task? q id = some task) (hmi : m ≤ i)
    (hQ : (s i).world.queue? q = some Q) : Q.Bears (fun task' => task'.kind = task.kind) id := by
  obtain ⟨Q₀, hQ₀, hmoves⟩ := moves hmi hQ
  have hg := (World.task?_eq hQ₀ id).symm.trans ht
  exact hmoves.bears (fun heir hkind => heir.kind.trans hkind) ((s.sound m).queues q Q₀ hQ₀)
    (.inl ⟨task, hg, rfl⟩)

theorem kind_eq {task' : Task} (ht : (s m).world.task? q id = some task) (hmi : m ≤ i)
    (ht' : (s i).world.task? q id = some task') : task'.kind = task.kind := by
  obtain ⟨Q, hQ, hg⟩ := World.task?_eq_some.1 ht'
  obtain ⟨task₁, hg₁, hkind⟩ | ⟨hspent, _⟩ := bears ht hmi hQ
  · obtain rfl := Option.some.inj (hg.symm.trans hg₁)
    exact hkind
  · cases hspent.get?_eq_none.symm.trans hg

theorem turn_origin (hm : (q, id) ∈ (s i).control.turns) :
    ∃ j < i, ∃ task, (s j).world.task? q id = some task := by
  induction i with
  | zero =>
    obtain ⟨start, queues, engines, hstart⟩ := s.starts
    rw [show s 0 = _ from hstart] at hm
    cases hm
  | succ i ih =>
    obtain hstep | ⟨_, command, hbegin⟩ := s.step_or_begin i
    · rw [hstep] at hm
      obtain hm | hbegins := Process.mem_turns_step hm
      · obtain ⟨j, hj, hqueued⟩ := ih hm
        exact ⟨j, Nat.lt_succ_of_lt hj, hqueued⟩
      · exact ⟨i, Nat.lt_succ_self i, hbegins.enters.queued⟩
    · rw [hbegin, World.turns_begin] at hm
      cases hm

structure Pushed (s : Course) (m q : Nat) (id : TaskId) (task : Task) : Prop where
  queued : (s m).world.task? q id = some task
  first : ∀ j < m, (s j).world.task? q id = none

theorem exists_pushed (ht : (s i).world.task? q id = some task) :
    ∃ m task', m ≤ i ∧ s.Pushed m q id task' ∧ task.kind = task'.kind := by
  have hexists : ∃ m, (s m).world.task? q id ≠ none := ⟨i, by rw [ht]; exact Option.some_ne_none _⟩
  classical
  obtain ⟨task', ht'⟩ := Option.ne_none_iff_exists'.1 (Nat.find_spec hexists)
  have hmi := Nat.find_min' hexists (by rw [ht]; exact Option.some_ne_none _)
  exact ⟨_, task', hmi, ⟨ht', fun j hj => not_not.1 (Nat.find_min hexists hj)⟩, kind_eq ht' hmi ht⟩

namespace Pushed

theorem not_mem_turns (h : s.Pushed m q id task) : (q, id) ∉ (s m).control.turns := by
  intro hm
  obtain ⟨j, hj, task', ht'⟩ := turn_origin hm
  cases (h.first j hj).symm.trans ht'

theorem le_of_queued {task' : Task} (h : s.Pushed m q id task)
    (ht' : (s i).world.task? q id = some task') : m ≤ i := by
  by_contra hlt
  cases (h.first i (Nat.lt_of_not_le hlt)).symm.trans ht'

theorem le_of_turn (h : s.Pushed m q id task) (hm : (q, id) ∈ (s i).control.turns) : m ≤ i := by
  obtain ⟨j, hj, task', ht'⟩ := turn_origin hm
  exact (h.le_of_queued ht').trans (Nat.le_of_lt hj)

theorem kind_of_ringing (h : s.Pushed m q id task) (hmi : m ≤ i)
    (hm : (q, id) ∈ (s i).control.ringing) : task.kind = .watcher := by
  induction hmi with
  | refl => exact absurd (Control.ringing_subset _ hm) h.not_mem_turns
  | @step j hmj ih =>
    obtain hstep | ⟨_, command, hbegin⟩ := s.step_or_begin j
    · rw [hstep] at hm
      cases (s.sound j).turnover with
      | steady _ rings => exact ih (rings.subset hm)
      | fires fires =>
        rw [fires.rings] at hm
        obtain hm | hm := List.mem_cons.1 hm
        · cases hm
          obtain ⟨t, ht⟩ := face_watcher fires.before
          exact (kind_eq h.queued hmj ht).symm
        · exact ih hm
    · have hturn := Control.ringing_subset _ hm
      rw [hbegin, World.turns_begin] at hturn
      cases hturn

/-- A watcher that was removed in its turn had invoked its callback. -/
theorem callback?_of_held (h : s.Pushed m q id task) (hkind : task.kind = .watcher) (hmi : m ≤ i)
    (hm : (q, id) ∈ (s i).control.turns) (hQ : (s i).world.queue? q = some Q)
    (hheld : Q.held = some held) : held.callback? = none := by
  induction hmi generalizing Q held with
  | refl => exact absurd hm h.not_mem_turns
  | @step j hmj ih =>
    obtain hstep | ⟨_, command, hbegin⟩ := s.step_or_begin j
    · have hcurrent := ((s.sound (j + 1)).ready.running hm).current hQ
      have hspent := (s.sound (j + 1)).get?_of_held hm hQ hheld
      rw [hstep] at hm hQ
      obtain ⟨Q₀, hQ₀, hmoves⟩ := World.queue?_of_rel ((s.sound j).step.1.queues q) hQ
      have hturn : (q, id) ∈ (s j).control.turns ∨ ∃ task', Q₀.get? id = some task' := by
        refine (Process.mem_turns_step hm).imp_right fun hbegins => ?_
        obtain ⟨task', ht'⟩ := hbegins.enters.queued
        exact ⟨task', (World.task?_eq hQ₀ id).symm.trans ht'⟩
      cases hg : Q₀.get? id with
      | none =>
        -- it has been held back before
        have hturn := hturn.resolve_right fun hqueued => by
          obtain ⟨task', ht'⟩ := hqueued
          cases hg.symm.trans ht'
        obtain ⟨task', hg', _⟩ | ⟨hspent₀, _⟩ := bears h.queued hmj hQ₀
        · cases hg.symm.trans hg'
        · have hsame := hmoves.held ((s.sound j).queues q Q₀ hQ₀) hspent₀ hcurrent
          exact ih hturn hQ₀ (hsame.symm.trans hheld)
      | some old =>
        -- it is removed now, and not before it has given its callback away
        have ht := World.task?_eq_some.2 ⟨Q₀, hQ₀, hg⟩
        have hgone := (World.task?_eq hQ id).trans hspent.get?_eq_none
        obtain hremoves | hcompletes := (s.sound j).leaves ht hgone
        · have hturn := (Process.mem_turns_step hm).resolve_right hremoves.not_begins
          obtain ⟨Q₁, old', left, k, hQ₁, taken, _, hremoved⟩ := hremoves.step_eq
          obtain rfl := Option.some.inj (hQ₀.symm.trans hQ₁)
          have hrunning := ((s.sound j).ready.running hturn).current hQ₀
          rw [hremoved, World.removeTask_holds taken hrunning, World.deliver,
            World.queue?_setQueue_self hQ₀] at hQ
          obtain rfl := Option.some.inj hQ
          obtain rfl := Option.some.inj hheld
          obtain rfl := Option.some.inj ((Queue.get?_of_unlink? taken).symm.trans hg)
          refine Option.eq_none_iff_forall_ne_some.2 fun callback howns => ?_
          have hface := World.face_of_callback ht ((kind_eq h.queued hmj ht).trans hkind) howns
          obtain ⟨walk, k', hp⟩ := s.unrung j q id hturn hface
          exact hremoves.not_ends ⟨walk, k', .inl ⟨_, hp⟩⟩
        · exact absurd hm ((s.sound j).not_mem_turns_of_ends hcompletes.ends)
    · rw [hbegin, World.turns_begin] at hm
      cases hm

theorem tends (h : s.Pushed m q id task) (hmi : m ≤ i) : (s i).Tends task.kind q id where
  sound := s.sound i
  unrung := s.unrung i
  bears _ hQ := Course.bears h.queued hmi hQ
  rings := h.kind_of_ringing hmi
  spent _ _ hm hQ hheld hkind := h.callback?_of_held hkind hmi hm hQ hheld

theorem keeps (h : s.Pushed m q id task) (hscript : task.kind ≠ .script) :
    (s m).Keeps task.kind q id := by
  left
  by_cases hwatcher : task.kind = .watcher
  · cases hcallback : task.callback? with
    | some callback => exact ⟨task, callback.1, callback.2, h.queued, hcallback⟩
    | none =>
      have hface : (s m).world.face q id = some (some false) := by
        rw [World.face, h.queued, Option.map_some, Task.pending?_eq hwatcher, hcallback]
        rfl
      obtain ⟨j, hj, hinvokes⟩ := invoked hface
      obtain ⟨t, ht⟩ := face_watcher (fires_of_invokes hinvokes).before
      cases (h.first j hj).symm.trans ht
  · exact (h.tends (Nat.le_refl m)).owns hscript hwatcher h.queued

theorem keeps_of_le (h : s.Pushed m q id task) (hscript : task.kind ≠ .script) (hmi : m ≤ i)
    (hij : i ≤ j) (hkept : (s j).Keeps task.kind q id) : (s i).Keeps task.kind q id := by
  induction hij with
  | refl => exact hkept
  | @step j hij ih =>
    refine ih ?_
    obtain hstep | ⟨_, command, hbegin⟩ := s.step_or_begin j
    · have htends := h.tends (hmi.trans (Nat.le_succ_of_le hij))
      rw [hstep] at hkept htends
      exact hkept.of_step (h.tends (hmi.trans hij)) htends hscript
    · obtain ⟨task', name, onDrop, ht, howns⟩ | hm := hkept
      · obtain ⟨Q, hQ, hg⟩ := World.task?_eq_some.1 ht
        rw [hbegin] at hQ
        exact .inl ⟨task', name, onDrop, World.task?_eq_some.2 ⟨Q, World.queue?_begin hQ, hg⟩, howns⟩
      · have hturn := Control.engaged_subset _ _ hm
        rw [hbegin, World.turns_begin] at hturn
        cases hturn

theorem loses_unique (h : s.Pushed m q id task) (hscript : task.kind ≠ .script) (hmi : m ≤ i)
    (hi : (s i).Keeps task.kind q id) (hi' : ¬ (s (i + 1)).Keeps task.kind q id) (hmj : m ≤ j)
    (hj : (s j).Keeps task.kind q id) (hj' : ¬ (s (j + 1)).Keeps task.kind q id) : i = j := by
  have hlt : ∀ {i j : Nat}, m ≤ i → ¬ (s (i + 1)).Keeps task.kind q id →
      (s j).Keeps task.kind q id → ¬ i < j := fun hmi hi' hj hij =>
    hi' (h.keeps_of_le hscript (Nat.le_succ_of_le hmi) (Nat.succ_le_of_lt hij) hj)
  exact Nat.le_antisymm (Nat.not_lt.1 (hlt hmj hj' hi)) (Nat.not_lt.1 (hlt hmi hi' hj))

end Pushed

/-- The next transition destroys the callback of the task, as one of its own or with its queue. -/
def Destroys (s : Course) (i q : Nat) (id : TaskId) (name : String)
    (onDrop : Option (List Action)) : Prop :=
  (s i).Destroys q id name onDrop ∨
    ∃ task, s.Sweeps i q id task ∧ task.callback? = some (name, onDrop)

namespace Pushed

/-- A callback that a transition destroys as one of its own was kept until then. -/
theorem loses (h : s.Pushed m q id task) (hd : (s i).Destroys q id name onDrop) :
    m ≤ i ∧ (s i).control.ended = false ∧ (s i).Keeps task.kind q id ∧
      ¬ (s (i + 1)).Keeps task.kind q id := by
  have hmi : m ≤ i := by
    cases hd with
    | removed _ _ queued | completed _ queued => exact h.le_of_queued queued
    | held ends => exact h.le_of_turn ends.mem_turns
    | rung rang => exact h.le_of_turn (Control.ringing_subset _ rang.mem_ringing)
  have hkeeps := hd.keeps (h.tends hmi)
  have hlost := hd.not_keeps (h.tends hmi)
  have hgoes : (s i).control.ended = false :=
    Bool.eq_false_iff.2 fun hended => hlost (by rw [Process.step_of_ended hended]; exact hkeeps)
  exact ⟨hmi, hgoes, hkeeps, by rw [succ_eq_step hgoes]; exact hlost⟩

/-- The callback of a queued task is lost when the queue is dropped. -/
theorem loses_drops (h : s.Pushed m q id task) (hdrops : s.Drops d q)
    (howns : (s d).world.Owns q id) :
    m ≤ d ∧ (s d).Keeps task.kind q id ∧ ¬ (s (d + 1)).Keeps task.kind q id := by
  refine ⟨?_, .inl howns, ?_⟩
  · obtain ⟨task', _, _, ht', _⟩ := howns
    exact h.le_of_queued ht'
  · rintro (⟨task', _, _, ht', _⟩ | hm)
    · obtain ⟨Q, hQ, _⟩ := World.task?_eq_some.1 ht'
      cases (queue?_of_drops hdrops (Nat.lt_succ_self d)).symm.trans hQ
    · have hturn := Control.engaged_subset _ _ hm
      rw [hdrops.2, World.turns_begin] at hturn
      cases hturn

theorem loses_sweeps {task' : Task} (h : s.Pushed m q id task) (hsweeps : s.Sweeps i q id task')
    (howns : task'.callback? = some (name, onDrop)) :
    ∃ d < i, (s d).control.ended = true ∧ m ≤ d ∧ (s d).Keeps task.kind q id ∧
      ¬ (s (d + 1)).Keeps task.kind q id := by
  obtain ⟨d, Q, rest, _, _, hdropping, hQ, hsuffix, _, _⟩ := hsweeps
  have hg := Arena.mem_entries.1 (hsuffix.subset (List.mem_cons_self ..))
  exact ⟨d, hdropping.2.1, hdropping.1.1, h.loses_drops hdropping.1
    ⟨task', name, onDrop, World.task?_eq_some.2 ⟨Q, hQ, hg⟩, howns⟩⟩

theorem destroys_unique {name' : String} {onDrop' : Option (List Action)}
    (h : s.Pushed m q id task) (hscript : task.kind ≠ .script)
    (hi : s.Destroys i q id name onDrop) (hj : s.Destroys j q id name' onDrop') : i = j := by
  -- a callback is not lost both as one of its own and with its queue
  have hapart : ∀ {i j : Nat} {task' : Task} {name name' : String}
      {onDrop onDrop' : Option (List Action)}, (s i).Destroys q id name onDrop →
      s.Sweeps j q id task' → task'.callback? ≠ some (name', onDrop') :=
    fun {i j task' name name' onDrop onDrop'} hd hsweeps howns => by
      obtain ⟨hmi, hgoes, hkept, hlost⟩ := h.loses hd
      obtain ⟨d, _, hended, hmd, hkept', hlost'⟩ := h.loses_sweeps hsweeps howns
      obtain rfl := h.loses_unique hscript hmi hkept hlost hmd hkept' hlost'
      cases hgoes.symm.trans hended
  obtain hi | ⟨task₁, hi, howns⟩ := hi
  · obtain hj | ⟨task₂, hj, howns'⟩ := hj
    · obtain ⟨hmi, _, hkept, hlost⟩ := h.loses hi
      obtain ⟨hmj, _, hkept', hlost'⟩ := h.loses hj
      exact h.loses_unique hscript hmi hkept hlost hmj hkept' hlost'
    · exact absurd howns' (hapart hi hj)
  · obtain hj | ⟨task₂, hj, _⟩ := hj
    · exact absurd howns (hapart hj hi)
    · exact sweeps_unique hi hj

theorem not_keeps_of_destroys (h : s.Pushed m q id task) (hscript : task.kind ≠ .script)
    (hd : s.Destroys i q id name onDrop) (hij : i < j) : ¬ (s j).Keeps task.kind q id := by
  obtain ⟨d, hdi, hmd, hlost⟩ : ∃ d ≤ i, m ≤ d ∧ ¬ (s (d + 1)).Keeps task.kind q id := by
    obtain hd | ⟨task', hsweeps, howns⟩ := hd
    · obtain ⟨hmi, _, _, hlost⟩ := h.loses hd
      exact ⟨i, Nat.le_refl i, hmi, hlost⟩
    · obtain ⟨d, hdi, _, hmd, _, hlost⟩ := h.loses_sweeps hsweeps howns
      exact ⟨d, Nat.le_of_lt hdi, hmd, hlost⟩
  exact fun hkept => hlost (h.keeps_of_le hscript (Nat.le_succ_of_le hmd)
    (Nat.succ_le_of_lt (Nat.lt_of_le_of_lt hdi hij)) hkept)

/-- The callback of a task that is no longer queued at the end of an action has been destroyed. -/
theorem destroys_of_ended (h : s.Pushed m q id task) (hscript : task.kind ≠ .script) (hmi : m ≤ i)
    (hended : (s i).control.ended = true) (hgone : (s i).world.task? q id = none) :
    ∃ l < i, ∃ name onDrop, s.Destroys l q id name onDrop := by
  have hidle : ∀ {l}, (s l).control.ended = true → (q, id) ∉ (s l).control.engaged task.kind :=
    fun hended hm => by
      have hturn := Control.engaged_subset _ _ hm
      rw [Process.turns_of_ended hended] at hturn
      cases hturn
  have hlost : ¬ (s i).Keeps task.kind q id := by
    rintro (⟨task', _, _, ht', _⟩ | hm)
    · cases hgone.symm.trans ht'
    · exact hidle hended hm
  obtain ⟨l, hml, hli, hkept, hlost⟩ : ∃ l, m ≤ l ∧ l < i ∧ (s l).Keeps task.kind q id ∧
      ¬ (s (l + 1)).Keeps task.kind q id := by
    clear hended hgone
    induction hmi with
    | refl => exact absurd (h.keeps hscript) hlost
    | @step i hmi ih =>
      by_cases hkept : (s i).Keeps task.kind q id
      · exact ⟨i, hmi, Nat.lt_succ_self i, hkept, hlost⟩
      · obtain ⟨l, hml, hli, hl⟩ := ih hkept
        exact ⟨l, hml, Nat.lt_succ_of_lt hli, hl⟩
  obtain hstep | ⟨hended', command, hbegin⟩ := s.step_or_begin l
  · have halive := alive_of_le (Control.ne_aborted_of_ended hended) (Nat.succ_le_of_lt hli)
    have htends := h.tends (Nat.le_succ_of_le hml)
    rw [hstep] at hlost halive htends
    obtain ⟨name, onDrop, hd⟩ := hkept.destroys (h.tends hml) htends hscript halive hlost
    exact ⟨l, hli, name, onDrop, .inl hd⟩
  · obtain ⟨task', name, onDrop, ht', howns⟩ := hkept.resolve_right (hidle hended')
    obtain ⟨Q, hQ, hg⟩ := World.task?_eq_some.1 ht'
    obtain hqueue | ⟨rfl, _⟩ := World.queue?_begin_eq (s l).world command q
    · refine absurd (.inl ⟨task', name, onDrop, World.task?_eq_some.2 ⟨Q, ?_, hg⟩, howns⟩) hlost
      rw [hbegin]
      exact hqueue.trans hQ
    · obtain ⟨l', _, hl', hsweeps⟩ := sweeps_of_drops ⟨hended', hbegin⟩ hQ hg hli hended
      exact ⟨l', hl', name, onDrop, .inr ⟨task', hsweeps, howns⟩⟩

end Pushed

theorem ringing_origin (hm : (q, id) ∈ (s i).control.ringing) : ∃ j < i, (s j).Invokes q id := by
  induction i with
  | zero =>
    obtain ⟨start, queues, engines, hstart⟩ := s.starts
    rw [show s 0 = _ from hstart] at hm
    cases hm
  | succ i ih =>
    have hbefore : (q, id) ∈ (s i).control.ringing → ∃ j < i + 1, (s j).Invokes q id := fun hm => by
      obtain ⟨j, hj, hinvokes⟩ := ih hm
      exact ⟨j, Nat.lt_succ_of_lt hj, hinvokes⟩
    obtain hstep | ⟨_, command, hbegin⟩ := s.step_or_begin i
    · rw [hstep] at hm
      cases (s.sound i).turnover with
      | steady _ rings => exact hbefore (rings.subset hm)
      | fires fires =>
        have hm' := hm
        rw [fires.rings] at hm'
        obtain hm' | hm' := List.mem_cons.1 hm'
        · cases hm'
          exact ⟨i, Nat.lt_succ_self i, (s.sound i).invokes_iff.2 fires⟩
        · exact hbefore hm'
    · have hturn := Control.ringing_subset _ hm
      rw [hbegin, World.turns_begin] at hturn
      cases hturn

/-- A callback is destroyed when its task has left the queue, or, that of a watcher, after it has
been invoked. -/
theorem Pushed.left_of_destroys (h : s.Pushed m q id task) (hd : s.Destroys i q id name onDrop) :
    (s (i + 1)).world.task? q id = none ∨ task.kind = .watcher ∧ ∃ j < i, (s j).Invokes q id := by
  obtain hd | ⟨task', ⟨d, Q, rest, _, _, hdropping, _⟩, _⟩ := hd
  · obtain ⟨hmi, hgoes, _⟩ := h.loses hd
    rw [succ_eq_step hgoes]
    cases hd with
    | removed removes => exact .inl ((s.sound i).task?_of_leaves (.inl removes))
    | completed completes => exact .inl ((s.sound i).task?_of_leaves (.inr completes))
    | held ends queue held =>
      refine .inl ((h.tends hmi).task?_step ?_)
      rw [World.task?_eq queue]
      exact ((s.sound i).get?_of_held ends.mem_turns queue held).get?_eq_none
    | rung rang =>
      exact .inr ⟨h.kind_of_ringing hmi rang.mem_ringing, ringing_origin rang.mem_ringing⟩
  · left
    rw [World.task?, queue?_of_drops hdropping.1 (Nat.lt_succ_of_lt hdropping.2.1)]
    rfl

theorem Pushed.succ_of_destroys (h : s.Pushed m q id task) (hd : s.Destroys i q id name onDrop) :
    ∃ (w : World) (k : Pending .done), s (i + 1) = w.destroyCallback name onDrop k := by
  obtain hd | ⟨task', hsweeps, howns⟩ := hd
  · obtain ⟨_, hgoes, _⟩ := h.loses hd
    rw [succ_eq_step hgoes]
    exact hd.step_eq (s.sound i)
  · obtain ⟨w, k, hstep⟩ := hsweeps.step_eq
    exact ⟨w, k, hstep.trans (World.destroy_eq howns w k)⟩

/-- Whatever the log tells of as destroyed is the callback of some task. -/
theorem destroys_of_dropLog (hlog : (s (i + 1)).world.dropLog = name :: (s i).world.dropLog) :
    ∃ q id actions, s.Destroys i q id name (some actions) := by
  obtain hstep | ⟨_, command, hbegin⟩ := s.step_or_begin i
  · rw [hstep] at hlog
    obtain hsame | ⟨name', actions, hlog', hsheds⟩ := (s.sound i).truthful
    · exact absurd (hlog.symm.trans hsame) (List.cons_ne_self _ _)
    · obtain ⟨rfl, _⟩ := List.cons.inj (hlog'.symm.trans hlog)
      obtain ⟨q, id, hd⟩ | ⟨task, tasks, k, hcontrol, howns⟩ := hsheds
      · exact ⟨q, id, actions, .inl hd⟩
      · obtain ⟨q, id, hsweeps⟩ := sweeps_of_control hcontrol
        exact ⟨q, id, actions, .inr ⟨task, hsweeps, howns⟩⟩
  · rw [hbegin, World.dropLog_begin] at hlog
    cases hlog

/-- The callback of an idle task, of a timer or of a watcher is destroyed at most once. From then on
nothing goes on for it: the turn of the task is not on the stack, nor is the callback of the watcher
running. The callback of an idle task or of a timer is destroyed only when its task is no longer
queued, and that of a watcher also after it was invoked. At the end of an action the callback of
every task that is no longer queued has been destroyed. Whatever the log tells of as destroyed is
the callback of a task that is destroyed just then. -/
theorem destroyed_once (s : Course) (ht : (s m).world.task? q id = some task)
    (hscript : task.kind ≠ .script) :
    (∀ i j name name' onDrop onDrop', s.Destroys i q id name onDrop →
      s.Destroys j q id name' onDrop' → i = j) ∧
    (∀ i name onDrop, s.Destroys i q id name onDrop →
      (∃ (w : World) (k : Pending .done), s (i + 1) = w.destroyCallback name onDrop k) ∧
      (∀ j, i < j → (q, id) ∉ (s j).control.engaged task.kind) ∧
      ((s (i + 1)).world.task? q id = none ∨
        task.kind = .watcher ∧ ∃ j < i, (s j).Invokes q id)) ∧
    (∀ i, m ≤ i → (s i).control.ended = true → (s i).world.task? q id = none →
      ∃! l, l < i ∧ ∃ name onDrop, s.Destroys l q id name onDrop) ∧
    ∀ i name, (s (i + 1)).world.dropLog = name :: (s i).world.dropLog →
      ∃ q id actions, s.Destroys i q id name (some actions) := by
  obtain ⟨n, task₀, hnm, hpushed, hkind⟩ := exists_pushed ht
  rw [hkind] at hscript ⊢
  refine ⟨fun i j _ _ _ _ hi hj => hpushed.destroys_unique hscript hi hj,
    fun i name onDrop hd => ⟨hpushed.succ_of_destroys hd, fun j hij hm => ?_,
      hpushed.left_of_destroys hd⟩, fun i hmi hended hgone => ?_, fun i name => destroys_of_dropLog⟩
  · exact hpushed.not_keeps_of_destroys hscript hd hij (.inr hm)
  · obtain ⟨l, hl, name, onDrop, hd⟩ :=
      hpushed.destroys_of_ended hscript (hnm.trans hmi) hended hgone
    refine ⟨l, ⟨hl, name, onDrop, hd⟩, fun l' hl' => ?_⟩
    obtain ⟨_, name', onDrop', hd'⟩ := hl'
    exact hpushed.destroys_unique hscript hd' hd

/-- An idle task removes itself in its step. A watcher and a timer are destroyed with their queue,
and a payload leaves what sees the timer destroyed. -/
def parting : Course :=
  .ofCommands [{}] []
    [.act (.queue 0 (.interruptAll "W" [] (some []))),
      .act (.queue 0 (.idle "A" [⟨[.queue 0 (.remove "A")], .again⟩] (some [.queue 0 .count]))),
      .act (.queue 0 (.timer "T" 5 none [] (some [.unwind "x"]))),
      .act (.queue 0 .runPass), .dropQueue 0]

theorem destroyed_once_parting :
    (∃ q id actions, parting.Destroys 16 q id "A" (some actions)) ∧
    (parting 25).control.ended = true ∧
    (∃! l, l < 25 ∧ ∃ name onDrop, parting.Destroys l 0 ⟨2, 1⟩ name onDrop) ∧
    (parting 37).control.ended = true ∧
    (∃! l, l < 37 ∧ ∃ name onDrop, parting.Destroys l 0 ⟨1, 1⟩ name onDrop) ∧
    ∃! l, l < 37 ∧ ∃ name onDrop, parting.Destroys l 0 ⟨3, 1⟩ name onDrop := by
  have hkinds : ((parting 8).world.task? 0 ⟨1, 1⟩).map Task.kind = some .watcher ∧
      ((parting 8).world.task? 0 ⟨2, 1⟩).map Task.kind = some .idle ∧
      ((parting 8).world.task? 0 ⟨3, 1⟩).map Task.kind = some .timer := by decide +kernel
  have hgone : ((parting 25).world.task? 0 ⟨2, 1⟩).isNone ∧
      ((parting 37).world.queue? 0).isNone := by
    decide +kernel
  have hended : (parting 25).control.ended = true ∧ (parting 37).control.ended = true := by
    decide +kernel
  have hlog : (parting 17).world.dropLog = "A" :: (parting 16).world.dropLog := by decide +kernel
  have hdropped : ∀ id, (parting 37).world.task? 0 id = none := fun id => by
    rw [World.task?, Option.isNone_iff_eq_none.1 hgone.2]
    rfl
  obtain ⟨hwatcher, hidle, htimer⟩ := hkinds
  obtain ⟨watcher, hw, hwkind⟩ := Option.map_eq_some_iff.1 hwatcher
  obtain ⟨idle, ha, hakind⟩ := Option.map_eq_some_iff.1 hidle
  obtain ⟨timer, ht, htkind⟩ := Option.map_eq_some_iff.1 htimer
  obtain ⟨_, _, hwonce, _⟩ := parting.destroyed_once hw (by rw [hwkind]; decide)
  obtain ⟨_, _, haonce, htold⟩ := parting.destroyed_once ha (by rw [hakind]; decide)
  obtain ⟨_, _, htonce, _⟩ := parting.destroyed_once ht (by rw [htkind]; decide)
  exact ⟨htold 16 "A" hlog, hended.1,
    haonce 25 (by decide) hended.1 (Option.isNone_iff_eq_none.1 hgone.1), hended.2,
    hwonce 37 (by decide) hended.2 (hdropped _), htonce 37 (by decide) hended.2 (hdropped _)⟩

end Course

end TaskLoop
