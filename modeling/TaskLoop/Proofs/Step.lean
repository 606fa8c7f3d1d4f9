import TaskLoop.Session
import TaskLoop.Proofs.Requests

namespace TaskLoop

variable {a b c : Hole} {w w' : World} {I : Nat → TaskId → Prop} {T : Nat → Prop}
  {q : Nat} {id : TaskId} {p : Process}

/-- A process that comes out of a world by moves of the queues, on top of a stack. It fits, and a
cancellation that begins comes from the hook of a queue. -/
structure Process.Sequel (I : Nat → TaskId → Prop) (T : Nat → Prop) (w : World) (k : Pending c)
    (p : Process) : Prop where
  moves : w.Moves I T p.world
  sound : p.Sound
  stack : p.control.Atop k
  raised : ∀ id, p.control.payload? = some (.cancelled id) → ∃ q, p.Cancels q id

theorem Process.Sequel.pop {f : Activation a b} {k : Pending b} (h : p.Sequel I T w (.cons f k))
    (free : f.payload? = none) : p.Sequel I T w k :=
  ⟨h.moves, h.sound, h.stack.trans (.cons free .refl), h.raised⟩

theorem World.sequel_deliver {k : Pending a} (hk : k.Ready w') (hw : w.Moves I T w')
    (result : a.Result) : (w'.deliver k result).Sequel I T w k :=
  ⟨hw, ⟨hk, nofun⟩, .refl, nofun⟩

/-- A task that has just been cancelled has its step on the stack. -/
theorem Process.Cancels.mem_scripts (h : p.Cancels q id) (hr : p.control.Ready p.world) :
    (q, id) ∈ p.control.scripts ∧ ∃ t, p.world.task? q id = some (.script t) ∧ t.armed = true := by
  obtain ⟨a, k, e, Q, hcontrol, hticked, _, hQ, hcancel⟩ := h
  obtain ⟨hcur, harm⟩ := Option.filter_eq_some_iff.1 hcancel
  obtain ⟨t, ht, harmed⟩ : ∃ t, Q.get? id = some (.script t) ∧ t.armed = true := by
    cases hg : Q.get? id with
    | none => simp [hg] at harm
    | some task =>
      cases task with
      | script t => exact ⟨t, rfl, by simpa [hg, Task.armed] using harm⟩
      | idle | timer | watcher => simp [hg, Task.armed] at harm
  have htask := World.task?_eq_some.2 ⟨Q, hQ, ht⟩
  have ha : a ≠ .verdict := by
    rintro rfl
    cases k with | cons f k => cases f; cases hticked
  rw [hcontrol] at hr ⊢
  have hk : k.Ready p.world := hr
  exact ⟨hk.stack.mem_scripts ha (hk.marks q Q id hQ hcur) htask rfl, t, htask, harmed⟩

/-- Callbacks and protected calls keep the stack fitting. -/
theorem Process.Within.sequel {k : Pending c} (h : p.Within (w'.Follows I T) k)
    (hk : k.Ready w') (hw : w.Moves I T w') : p.Sequel I T w k := by
  have hr := h.stack.ready (hk.follows h.world)
  refine ⟨hw.trans h.world.moves, ⟨hr, fun id hid => ?_⟩, h.stack.atop, h.raised⟩
  obtain ⟨q, hcancels⟩ := h.raised id hid
  obtain ⟨hm, t, ht, ha⟩ := hcancels.mem_scripts hr
  obtain ⟨Q, hQ, hg⟩ := World.task?_eq_some.1 ht
  exact ⟨q, hm, Q, hQ, .inl ⟨.script t, hg, ha⟩⟩

namespace Process.Stepping

variable {R : World → Prop} {kind : TaskKind} {k : Pending .verdict}

theorem turns (h : p.Stepping R q id kind k) : p.control.turns = k.turns := by
  cases h with
  | verdict => rfl
  | @within _ f _ steps within =>
    have hf : f.turn? = none := by cases f <;> trivial
    rw [within.stack.turns, Pending.turns_cons hf]

theorem sequel (h : p.Stepping (w'.Follows I T) q id kind k) (hk : k.Ready w')
    (hw : w.Moves I T w') (hhead : k.turns.head? = some (q, id)) (hkind : k.StepOf w' kind) :
    p.Sequel I T w k := by
  cases h with
  | verdict world => exact World.sequel_deliver (hk.follows world) (hw.trans world.moves) _
  | @within a f _ steps within =>
    have hfits : f.Fits w' k := by
      cases f with
      | script => obtain ⟨rfl, rfl, rfl⟩ := steps; exact ⟨hhead, hkind⟩
      | firing => obtain ⟨rfl, rfl, rfl⟩ := steps; exact hkind
      | idle | quiet | rested => cases steps; exact hkind
      | cleanup => exact steps.elim
    have hfree : f.payload? = none := by cases f <;> trivial
    exact (within.sequel (hk.cons hfits) hw).pop hfree

end Process.Stepping

def World.Bites (w : World) (q : Nat) (dog : TaskId) : Prop :=
  ∃ Q t deadline, w.queue? q = some Q ∧ Q.get? dog = some (.idle t) ∧ t.alive = true ∧
    t.body = .watchdog deadline ∧ deadline ≤ w.now ∧ Q.count ≠ 1

namespace World

/-- Stepping the task sets the hook of the engine: an interrupted script puts its hook back, and a
watchdog interrupts the scripts of its queue. -/
def Rearms (w : World) (q : Nat) (id : TaskId) (e : Nat) : Prop :=
  (∃ t, w.task? q id = some (.script t) ∧ t.armed = true ∧ t.engine = e) ∨
    w.Bites q id ∧ ∃ id' task, w.task? q id' = some task ∧ task.engine? = some e

def discarded? (w : World) (q : Nat) (id : TaskId) (verdict : Verdict) : Option Task :=
  w.queue? q >>= fun Q =>
    match verdict with
    | .done => Q.record? id
    | .again => Q.held

variable {k : Pending .verdict}

theorem follows_logged (w : World) (event : Event) : w.Follows I T (w.logged event) :=
  change_logged (fun _ _ => .refl) w event

theorem follows_rewrite {task : Task} (ht : w.task? q id = some task) (task' : Task)
    (hheir : task.Heir task') (harmed : task'.armed = true → task.armed = true) :
    w.Follows I T (w.modifyQueue q (·.modify id fun _ => task')) := by
  refine follows_modifyQueue fun Q hQ => .rewrite id _ (fun old hg => ?_) fun old hg ha => .inl ?_
  all_goals
    obtain rfl : old = task := Option.some.inj ((task?_eq_some.2 ⟨Q, hQ, hg⟩).symm.trans ht)
  · exact hheir
  · exact harmed ha

theorem bites_of_barks {task : Task} (ht : w.task? q id = some task)
    (h : task.barks w.now (((w.queue? q).map (·.count)).getD 0) = true) : w.Bites q id := by
  obtain ⟨Q, hQ, hg⟩ := task?_eq_some.1 ht
  rw [hQ, Option.map_some, Option.getD_some] at h
  unfold Task.barks at h
  split at h
  · next t =>
    split at h
    · next deadline hbody =>
      simp only [Bool.and_eq_true, bne_iff_ne, decide_eq_true_eq] at h
      exact ⟨Q, t, deadline, hQ, hg, h.1.1, hbody, h.2, h.1.2⟩
    · cases h
  · cases h

theorem stepping_stepTask {task : Task} (ht : w.task? q id = some task)
    (hI : w.Bites q id → ∀ id' t, w.task? q id' = some (.script t) → I q id')
    (hT : ∀ e, w.Rearms q id e → T e) :
    (w.stepTask q id task k).Stepping (w.Follows I T) q id task.kind k := by
  have hallows : w.Allows (Follows I T) q id task :=
    { refl := Follows.refl w
      trans := Follows.trans
      log := fun w₁ event _ => follows_logged w₁ event
      rewrite := fun w₁ task' hq hturns => by
        have ht₁ : w₁.task? q id = some task := by rw [task?, hq]; exact ht
        cases hturns <;> exact follows_rewrite ht₁ _ ⟨rfl, rfl, fun h => h⟩ fun h => h
      hook := fun w₁ t htask harmed =>
        (aside_installHook w₁ q t.engine (hT _ (.inl ⟨t, htask ▸ ht, harmed, rfl⟩))).follows
      alarm := fun hbarks => by
        have hbites := bites_of_barks ht hbarks
        exact follows_interruptAll w q _ (hI hbites) fun id' task' e ht' he =>
          hT e (.inr ⟨hbites, id', task', ht', he⟩) }
  exact hallows.stepping (lasting_follows w I T).robust k

end World

def Process.Bitten (w : World) (ts : List (Nat × TaskId)) (p : Process) (q : Nat) (id : TaskId) :
    Prop :=
  (∃ t, w.task? q id = some (.script t)) ∧ ∃ dog, p.control.turns = (q, dog) :: ts ∧ w.Bites q dog

namespace World

variable {Q : Queue} {task : Task}

theorem moves_enter (hQ : w.queue? q = some Q) (hidle : Q.current = none)
    (hg : Q.get? id = some task) : w.Moves I T (w.modifyQueue q (·.enter id)) := by
  refine change_modifyQueue (fun _ _ => .refl) fun Q' hQ' => .single ?_
  obtain rfl := Option.some.inj (hQ.symm.trans hQ')
  exact .enter hg hidle

theorem wellFormed_enter (hw : w.WellFormed) (hQ : w.queue? q = some Q) (hidle : Q.current = none)
    (hg : Q.get? id = some task) : (w.modifyQueue q (·.enter id)).WellFormed :=
  (moves_enter (I := fun _ _ => False) (T := fun _ => False) hQ hidle hg).wellFormed hw

end World

namespace Pending

variable {k : Pending .pass} {walk : Walk} {Q Q' : Queue}

theorem Ready.not_mem_of_current {k : Pending a} (h : k.Ready w) (hQ : w.queue? q = some Q)
    (hc : Q.current = none) (id : TaskId) : (q, id) ∉ k.turns := by
  intro hm
  cases hc.symm.trans ((h.stack.running hm).current hQ)

theorem Ready.current_eq_none {k : Pending a} (h : k.Ready w) (hQ : w.queue? q = some Q)
    (hq : ∀ id, (q, id) ∉ k.turns) : Q.current = none := by
  cases hc : Q.current with
  | none => rfl
  | some id => exact absurd (h.marks q Q id hQ hc) (hq id)

theorem edits_of_ne {k : Pending a} (hq : ∀ id, (q, id) ∉ k.turns)
    (hother : ∀ q', q ≠ q' → w'.queue? q' = w.queue? q') (q' : Nat) (id : TaskId)
    (hm : (q', id) ∈ k.turns) :
    Option.Rel (Queue.Edits (I q')) (w.queue? q') (w'.queue? q') := by
  rw [hother q' fun he => hq id (he ▸ hm)]
  exact World.rel_refl (fun _ => .refl) _

theorem Ready.enter {task : Task} (h : k.Ready w) (hq : ∀ id, (q, id) ∉ k.turns)
    (ht : w.task? q id = some task) :
    (Pending.cons (.turn q id walk) k).Ready (w.modifyQueue q (·.enter id)) := by
  obtain ⟨Q, hQ, hg⟩ := World.task?_eq_some.1 ht
  have hidle := h.current_eq_none hQ hq
  have hother := fun q' (hne : q ≠ q') => World.queue?_modifyQueue_of_ne w (·.enter id) hne
  have hself : (w.modifyQueue q (·.enter id)).queue? q = some (Q.enter id) := by
    rw [World.queue?_modifyQueue, hQ]
    rfl
  refine ⟨World.wellFormed_enter h.queues hQ hidle hg, ⟨⟨⟨_, hself, rfl, .inl ⟨task, hg⟩⟩, hq⟩, ?_⟩,
    fun q' Q' id' hQ' hc => ?_⟩
  · exact h.stack.edits (I := fun _ _ => False) h.queues (edits_of_ne hq hother)
  · by_cases hne : q = q'
    · subst hne
      obtain rfl := Option.some.inj (hself.symm.trans hQ')
      obtain rfl := Option.some.inj hc
      exact List.mem_cons_self ..
    · exact mem_turns_cons (h.marks q' Q' id' (hother q' hne ▸ hQ') hc)

theorem Ready.leave (h : (Pending.cons (.turn q id walk) k).Ready w) (hQ : w.queue? q = some Q)
    (hmoves : Q.Moves (I q) Q') (hc : Q'.current = none) : k.Ready (w.setQueue q Q') := by
  obtain ⟨hrun, hq⟩ := h.fits
  have hother := fun q' (hne : q ≠ q') => World.queue?_setQueue_of_ne (w := w) Q' hne
  have hchange : w.Moves I (fun _ => False) (w.setQueue q Q') :=
    World.change_setQueue (fun _ _ => .refl) hQ hmoves
  have hself := World.queue?_setQueue_self hQ Q'
  refine ⟨hchange.wellFormed h.queues, h.stack.2.edits (I := I) h.queues (edits_of_ne hq hother),
    fun q' Q'' id' hQ'' hc' => ?_⟩
  by_cases hne : q = q'
  · subst hne
    obtain rfl := Option.some.inj (hself.symm.trans hQ'')
    cases hc.symm.trans hc'
  · have hm := h.marks q' Q'' id' (hother q' hne ▸ hQ'') hc'
    obtain hm | hm := List.mem_cons.1 hm
    · exact absurd (Prod.mk.inj hm).1.symm hne
    · exact hm

end Pending

namespace World

theorem queue?_enter {Q₁ : Queue} (h : (w.modifyQueue q (·.enter id)).queue? q = some Q₁) :
    ∃ Q, w.queue? q = some Q ∧ Q₁ = Q.enter id := by
  rw [queue?_modifyQueue] at h
  obtain ⟨Q, hQ, rfl⟩ := Option.map_eq_some_iff.1 h
  exact ⟨Q, hQ, rfl⟩

theorem task?_enter {id' : TaskId} :
    (w.modifyQueue q (·.enter id)).task? q id' = w.task? q id' := by
  simp only [task?, queue?_modifyQueue]
  cases w.queue? q <;> rfl

theorem Bites.of_enter (h : (w.modifyQueue q (·.enter id)).Bites q id) : w.Bites q id := by
  obtain ⟨Q₁, t, deadline, hQ₁, hrest⟩ := h
  obtain ⟨Q, hQ, rfl⟩ := queue?_enter hQ₁
  exact ⟨Q, t, deadline, hQ, hrest⟩

theorem Rearms.of_enter {e : Nat} (h : (w.modifyQueue q (·.enter id)).Rearms q id e) :
    w.Rearms q id e := by
  simp only [Rearms, task?_enter] at h
  exact h.imp_right (And.imp_left Bites.of_enter)

theorem Noted.follows (h : w.Noted w') : w.Follows I T w' := by
  obtain rfl | ⟨q, f, g, rfl⟩ := h
  · exact Follows.refl _
  · exact follows_modifyQueue fun Q _ => .note (f Q) (g Q) Q.messages

theorem stepping_enter {task : Task} (queued : w.task? q id = some task) (walk : Walk)
    (k : Pending .pass) :
    ((w.modifyQueue q (·.enter id)).stepTask q id task (.cons (.turn q id walk) k)).Stepping
      ((w.modifyQueue q (·.enter id)).Follows (fun _ _ => True) fun _ => True) q id task.kind
      (.cons (.turn q id walk) k) :=
  stepping_stepTask (task?_enter.trans queued) (fun _ _ _ _ => trivial) fun _ _ => trivial

/-- Passes that go on leave the stack fitting. Whose turn begins says what is interrupted, and which
hooks are set. -/
theorem Walks.sequel {k : Pending a} (h : w.Walks False k p) (hk : k.Ready w)
    (hI : ∀ q id, p.Bitten w k.turns q id → I q id)
    (hT : ∀ q id, p.control.turns = (q, id) :: k.turns → ∀ e, w.Rearms q id e → T e) :
    p.Sequel I T w k := by
  induction h with
  | rests noted result =>
    have hw : w.Follows I T _ := noted.follows
    exact sequel_deliver (hk.follows hw) hw.moves result
  | @enters q id task walk k queued free =>
    obtain ⟨Q, hQ, hg⟩ := task?_eq_some.1 queued
    have hidle : Q.current = none := free.resolve_left (fun h => h) Q hQ
    have ht₁ : (w.modifyQueue q (·.enter id)).task? q id = some task := task?_enter.trans queued
    -- whose turn has begun is seen before it is known what the step may do
    have hturns := (stepping_enter queued walk k).turns
    have hstepping := stepping_stepTask (k := .cons (.turn q id walk) k) ht₁
      (fun hbites id' t' ht' => hI q id' ⟨⟨t', task?_enter.symm.trans ht'⟩, id, hturns,
        hbites.of_enter⟩) fun e he => hT q id hturns e he.of_enter
    refine (hstepping.sequel (hk.enter (hk.not_mem_of_current hQ hidle) queued)
      (moves_enter hQ hidle hg) rfl fun q' id' task' hhead ht' => ?_).pop rfl
    cases hhead
    rw [Option.some.inj (ht'.symm.trans ht₁)]
  | @awaited _ _ f k _ awaits _ ih =>
    rw [Pending.turns_cons awaits.turn?] at ih
    have hfits : f.Fits w k ∧ f.payload? = none := by
      cases f with
      | drain | forever | passReply | runReply => exact ⟨trivial, rfl⟩
      | _ => cases awaits
    exact (ih (hk.cons hfits.1) hI hT).pop hfits.2

theorem sequel_endTurn {k : Pending .pass} {walk : Walk} {verdict : Verdict}
    (hk : (Pending.cons (.turn q id walk) k).Ready w)
    (hT : ∀ task, w.discarded? q id verdict = some task → ∀ e, task.Unhooks e → T e) :
    (w.endTurn q id walk verdict k).Sequel I T w k := by
  obtain ⟨⟨Q₀, hQ₀, _⟩, hq⟩ := hk.fits
  have hready : ∀ {Q Q' : Queue} {next : Option TaskId} {walk : Walk}, w.queue? q = some Q →
      Q.Moves (I q) Q' → Q'.current = none →
      (Pending.cons (.walk q next walk) k).Ready (w.setQueue q Q') :=
    fun hQ hmoves hc => (hk.leave (I := I) hQ hmoves hc).cons hq
  have hdestroy : ∀ {Q Q' : Queue} {task : Task} {next : Option TaskId} {walk : Walk},
      w.queue? q = some Q → Q.Moves (I q) Q' → Q'.current = none →
      w.discarded? q id verdict = some task →
      ((w.setQueue q Q').destroy task (.cons (.walk q next walk) k)).Sequel I T w k :=
    fun hQ hmoves hc hd => ((within_destroy (lasting_follows _ I T) (Follows.refl _) _ (hT _ hd)
      _).sequel (hready hQ hmoves hc) (change_setQueue (fun _ _ => .refl) hQ hmoves)).pop rfl
  have hcloses := closes_endTurn w q id walk verdict k
  generalize w.endTurn q id walk verdict k = p at hcloses ⊢
  cases hcloses with
  | missing none => cases none.symm.trans hQ₀
  | @completes Q left task _ _ hQ done taken =>
    have hg : Q.get? id = some task := Queue.get?_of_unlink? (Q := Q.leave) taken
    have hc : left.current = none := by obtain ⟨_, _, rfl⟩ := Queue.unlink?_eq_some taken; rfl
    refine hdestroy hQ (.tail (.single .leave) (.edit (.unlink taken nofun))) hc ?_
    simp [discarded?, hQ, done, Queue.record?, hg]
  | @destroys Q task _ _ hQ gone held =>
    refine hdestroy hQ (.single .leave) rfl ?_
    cases verdict with
    | again => simp [discarded?, hQ, held]
    | done => simp [discarded?, hQ, Queue.record?, gone rfl, held]
  | leaves hQ =>
    exact (sequel_deliver (hready hQ (.single .leave) rfl)
      (change_setQueue (fun _ _ => .refl) hQ (.single .leave)) _).pop rfl

theorem sequel_timerFired {k : Pending .verdict} (hk : k.Ready w) (q : Nat) (id : TaskId) :
    (w.timerFired q id k).Sequel I T w k := by
  obtain ⟨w', verdict, heq, rfl | ⟨Q, t, deadline, hQ, hrecord, rfl⟩⟩ := timerFired_eq w q id k
  · rw [heq]
    exact sequel_deliver hk (Moves.refl _) verdict
  · have hedit : Q.Edit (I q) (Q.modify id fun _ => .timer { t with deadline }) := by
      refine .rewrite id _ (fun task hg => ?_) fun task hg ha => by cases ha
      obtain rfl : task = .timer t := by simpa [Queue.record?, hg] using hrecord
      exact ⟨rfl, rfl, fun h => h⟩
    have hnext := follows_setQueue (T := T) hQ hedit
    rw [heq]
    exact sequel_deliver (hk.follows hnext) hnext.moves verdict

theorem scriptArmed_notify (w : World) (q : Nat) (id : TaskId) (tag : Tag) (text : String) :
    (w.notify q tag text).scriptArmed q id = w.scriptArmed q id := by
  rw [scriptArmed, scriptArmed, notify, queue?_logged, queue?_modifyQueue]
  cases w.queue? q <;> rfl

/-- At the end of the call of a script an error is reported. The rest goes on aside: a script that has
been interrupted has its hook cleared. -/
theorem scriptReturned_eq (w : World) (q : Nat) (id : TaskId) (t : ScriptTask) (base : Nat)
    (result : Except CallError Unit) (k : Pending .verdict)
    (hT : w.scriptArmed q id = true → T t.engine) :
    ∃ w₀ w₁, w.scriptReturned q id t base result k = w₁.deliver k .done ∧
      (w₀ = w ∨ ∃ text, w₀ = w.notify q .notice text) ∧ w₀.Aside T w₁ := by
  have hquiet : ∀ (w₁ : World) (f : Engine → Engine), (∀ E, (f E).pulse = E.pulse) →
      w₁.Aside T (w₁.modifyEngine t.engine f) :=
    fun w₁ f hf => aside_modifyEngine_of_pulse w₁ t.engine fun E _ => hf E
  have hclear : ∀ w₁ : World, w₁.scriptArmed q id = w.scriptArmed q id → w₁.Aside T
      (if w₁.scriptArmed q id then w₁.modifyEngine t.engine (·.clearHook) else w₁) := by
    intro w₁ hsame
    split
    · next harmed =>
      exact aside_modifyEngine _ _ (fun E _ => by simp) fun _ _ h =>
        absurd (hT (hsame.symm.trans harmed)) h
    · exact Aside.refl w₁
  have hrelease : ∀ w₁ : World, w₁.Aside T
      (if t.release then w₁.modifyEngine t.engine (·.unreference t.key) else w₁) := by
    intro w₁
    split
    · exact hquiet w₁ _ fun E => E.pulse_unreference t.key
    · exact Aside.refl w₁
  have hleave := fun (w₀ : World) hsame =>
    (hquiet w₀ (·.setTop base) fun E => E.pulse_setTop base).trans
      ((hclear _ hsame).trans (hrelease _))
  cases result with
  | ok => exact ⟨w, _, rfl, .inl rfl, hleave w rfl⟩
  | error e =>
    exact ⟨w.notify q .notice e.notice, _, rfl, .inr ⟨_, rfl⟩, hleave _ (scriptArmed_notify ..)⟩

theorem follows_scriptReturned (w : World) (q : Nat) (id : TaskId) (t : ScriptTask) (base : Nat)
    (result : Except CallError Unit) (k : Pending .verdict)
    (hT : w.scriptArmed q id = true → T t.engine) :
    ∃ w₁, w.scriptReturned q id t base result k = w₁.deliver k .done ∧ w.Follows I T w₁ := by
  obtain ⟨w₀, w₁, heq, rfl | ⟨text, rfl⟩, haside⟩ := w.scriptReturned_eq q id t base result k hT
  · exact ⟨w₁, heq, haside.follows⟩
  · exact ⟨w₁, heq, (follows_notify w q _ _).trans haside.follows⟩

end World

namespace Activation

/-- Giving the activation the result sets or clears the hook of the engine: the call of an
interrupted script has ended, or the record of one that never ran is destroyed. -/
def Rehooks (w : World) (e : Nat) : (f : Activation a b) → a.Result → Prop
  | .script q id t _, _ => t.engine = e ∧ w.scriptArmed q id = true
  | .turn q id _, verdict => ∃ task, w.discarded? q id verdict = some task ∧ task.Unhooks e
  | .sweep (task :: _), _ => task.Unhooks e
  | _, _ => False

def Unhooks (w : World) (e : Nat) (payload : Payload) : Activation a b → Prop
  | .script q id t _ => payload = .cancelled id ∧ t.engine = e ∧ w.scriptArmed q id = true
  | .turn q _ _ => ∃ task, (w.queue? q >>= (·.held)) = some task ∧ task.Unhooks e
  | _ => False

variable {f : Activation a b} {k : Pending b}

theorem sequel_resume {result : a.Result} (hk : (Pending.cons f k).Ready w)
    (hI : ∀ q id, (f.resume result w k).Bitten w (Pending.cons f k).turns q id → I q id)
    (hrearms : ∀ q id, (f.resume result w k).control.turns = (q, id) :: (Pending.cons f k).turns →
      ∀ e, w.Rearms q id e → T e)
    (hT : ∀ e, f.Rehooks w e result ∨ f.Ticks e → T e) (hfree : f.payload? = none) :
    (f.resume result w k).Sequel I T w k := by
  have hR := World.lasting_follows w I T
  have hw := World.Follows.refl (I := I) (T := T) w
  have hmoves := World.Moves.refl (I := I) (T := T) w
  have hplain : f.Plain → (f.resume result w k).Sequel I T w k := fun hf =>
    (hf.within hR.robust hw (fun e he => hT e (.inr he)) result k).sequel (hk.tail hf.turn?) hmoves
  cases f with
  | routine | unheeded | callReply | doneReply | machine | counted | host | pacer | triggered =>
    exact hplain trivial
  | idle | rested | passReply | runReply => exact World.sequel_deliver (hk.tail rfl) hmoves _
  | firing q id => exact World.sequel_timerFired (hk.tail rfl) q id
  | quiet name onDrop =>
    have hrested : (Pending.cons .rested k).Ready w := (hk.tail rfl).cons hk.fits
    exact ((World.within_destroyCallback hR hw name onDrop _).sequel hrested hmoves).pop rfl
  | script q id t base =>
    obtain ⟨w₁, heq, hw₁⟩ := World.follows_scriptReturned (I := I) w q id t base result k
      fun harmed => hT _ (.inl ⟨rfl, harmed⟩)
    rw [resume, heq]
    exact World.sequel_deliver ((hk.tail rfl).follows hw₁) hw₁.moves _
  | turn q id walk => exact World.sequel_endTurn hk fun task hd e he => hT e (.inl ⟨task, hd, he⟩)
  | walk q next walk =>
    have hidle := fun Q hQ => (hk.tail rfl).current_eq_none (Q := Q) hQ hk.fits
    exact (w.walks_walkOn q next walk k (.inr hidle)).sequel (hk.tail rfl) hI hrearms
  | drain q => exact (w.walks_drainOn q k).sequel (hk.tail rfl) hI hrearms
  | forever q =>
    cases result with
    | stopped => exact World.sequel_deliver (hk.tail rfl) hmoves _
    | drained => exact ((w.walks_startRun q _).sequel hk hI hrearms).pop rfl
  | sweep rest =>
    cases rest with
    | nil => exact World.sequel_deliver (hk.tail rfl) hmoves _
    | cons task rest =>
      have hrest : (Pending.cons (.sweep rest) k).Ready w := (hk.tail rfl).cons hk.fits
      exact ((World.within_destroy hR hw task (fun e he => hT e (.inl he)) _).sequel hrest
        hmoves).pop rfl
  | cleanup => cases hfree

end Activation

/-- What becomes of a payload that leaves an activation: it goes on at once or after a destruction,
or a script keeps it to itself. A destruction that it leaves ends everything. -/
inductive Process.Fate (I : Nat → TaskId → Prop) (T : Nat → Prop) (w : World) (payload : Payload)
    (f : Activation a b) (k : Pending b) : Process → Prop
  | passes {w₁ : World} (moves : w.Moves I T w₁) (ready : k.Ready w₁) (owns : k.Owns w₁ payload)
      (lets : ∀ q id, f.script? = some (q, id) → payload ≠ .cancelled id) :
      Fate I T w payload f k (w₁.unwind payload k)
  | destroys {p : Process} (sequel : p.Sequel I T w (.cons (.cleanup payload b) k))
      (lets : f.script? = none) : Fate I T w payload f k p
  | swallows {w₁ : World} {q : Nat} {id : TaskId} {result : b.Result} (moves : w.Moves I T w₁)
      (ready : k.Ready w₁) (script : f.script? = some (q, id)) (own : payload = .cancelled id) :
      Fate I T w payload f k (w₁.deliver k result)
  | aborts (waits : f.payload?.isSome) (queues : w.WellFormed) : Fate I T w payload f k ⟨w, .aborted⟩

namespace Process.Fate

variable {payload : Payload} {f : Activation a b} {k : Pending b}

theorem moves (h : p.Fate I T w payload f k) : w.Moves I T p.world := by
  cases h with
  | passes moves | swallows moves => exact moves
  | destroys sequel => exact sequel.moves
  | aborts => exact World.Moves.refl w

theorem sound (h : p.Fate I T w payload f k) : p.Sound := by
  cases h with
  | passes _ ready owns =>
    exact ⟨ready, fun id hid => owns id (Option.some.inj hid)⟩
  | destroys sequel => exact sequel.sound
  | swallows _ ready => exact ⟨ready, nofun⟩
  | aborts _ queues => exact ⟨queues, nofun⟩

end Process.Fate

theorem World.fate_abandonTurn {k : Pending .pass} {walk : Walk} {payload : Payload}
    (hk : (Pending.cons (.turn q id walk) k).Ready w)
    (howns : (Pending.cons (.turn q id walk) k).Owns w payload)
    (hT : ∀ task, (w.queue? q >>= (·.held)) = some task → ∀ e, task.Unhooks e → T e) :
    (w.abandonTurn q payload k).Fate I T w payload (.turn q id walk) k := by
  obtain ⟨⟨Q, hQ, hc, _⟩, hq⟩ := hk.fits
  have hleft : w.Moves I T (w.setQueue q Q.leave) :=
    World.change_setQueue (fun _ _ => .refl) hQ (.single .leave)
  have hk₁ : k.Ready (w.setQueue q Q.leave) := hk.leave (I := I) hQ (.single .leave) rfl
  have howns₁ : k.Owns (w.setQueue q Q.leave) payload :=
    Pending.Owns.edits (I := I) hk.queues hk.stack.2
      (Pending.edits_of_ne hq fun q' hne => World.queue?_setQueue_of_ne Q.leave hne) howns
  rw [World.abandonTurn, hQ]
  dsimp only
  split
  · exact .passes hleft hk₁ howns₁ nofun
  · next task hheld =>
    exact .destroys ((World.within_destroy (World.lasting_follows _ I T) (World.Follows.refl _) task
      (hT task (by simp [hQ, hheld])) _).sequel (hk₁.cons ⟨howns₁, nofun⟩) hleft) rfl

namespace Activation

variable {f : Activation a b} {k : Pending b}

theorem fate_unwind {payload : Payload} (hk : (Pending.cons f k).Ready w)
    (howns : (Pending.cons f k).Owns w payload) (hT : ∀ e, f.Unhooks w e payload → T e) :
    (f.unwind payload w k).Fate I T w payload f k := by
  have hmoves := World.Moves.refl (I := I) (T := T) w
  have hallocated : ∀ e (call : MachineCall), w.Follows I T
      (w.modifyMachine e fun m => { m with allocated := call.mark }) := fun e call => by
    refine (World.aside_modifyMachine w e fun m => ?_).follows
    rfl
  cases f with
  | quiet name onDrop =>
    have hclean : (Pending.cons (.cleanup payload .verdict) k).Ready w :=
      (hk.tail rfl).cons ⟨howns, fun _ => hk.fits⟩
    exact .destroys ((World.within_destroyCallback (World.lasting_follows w I _)
      (World.Follows.refl w) name onDrop _).sequel hclean hmoves) rfl
  | script q id t base =>
    rw [unwind]
    split
    · next hown =>
      obtain ⟨w₁, heq, hw₁⟩ := World.follows_scriptReturned (I := I) w q id t base (.ok ()) k
        fun harmed => hT _ ⟨hown, rfl, harmed⟩
      rw [heq]
      exact .swallows hw₁.moves ((hk.tail rfl).follows hw₁) rfl hown
    · next hne =>
      refine .passes hmoves (hk.tail rfl) (fun id' hid' => ?_)
        fun q' id' hs => by cases hs; exact hne
      obtain ⟨q', hm, ha⟩ := howns id' hid'
      refine ⟨q', ?_, ha⟩
      obtain hm | hm := List.mem_cons.1 hm
      · exact absurd (hid'.trans (by rw [(Prod.mk.inj hm).2])) hne
      · exact hm
  | turn q id walk =>
    exact World.fate_abandonTurn hk howns fun task hheld e he => hT e ⟨task, hheld, he⟩
  | machine e call | counted e call op | host e call name turn =>
    have hw₁ := hallocated e call
    exact .passes hw₁.moves ((hk.tail rfl).follows hw₁)
      (Pending.Owns.edits (I := I) hk.queues (hk.tail rfl).stack (fun q _ _ => hw₁.queues q) howns)
      nofun
  | sweep rest =>
    have hclean : (Pending.cons (.cleanup payload .done) k).Ready w :=
      (hk.tail rfl).cons ⟨howns, nofun⟩
    exact .destroys ((World.sequel_deliver (hclean.cons hk.fits) hmoves _).pop rfl) rfl
  | cleanup => exact .aborts rfl hk.queues
  | _ => exact .passes hmoves (hk.tail rfl) howns nofun

end Activation

def Control.Rehooks (w : World) (e : Nat) : Control → Prop
  | .perform action _ => action.Touches w e
  | .deliver result (.cons f _) => f.Rehooks w e result
  | .unwind payload (.cons f _) => f.Unhooks w e payload
  | _ => False

def Control.Ticks (e : Nat) : Control → Prop
  | .deliver _ (.cons f _) => f.Ticks e
  | _ => False

namespace Process

def Begins (p : Process) (q : Nat) (id : TaskId) : Prop :=
  p.step.control.turns = (q, id) :: p.control.turns

def Interrupts (p : Process) (q : Nat) (id : TaskId) : Prop :=
  (∃ action k, p.control = .perform action k ∧ action.Interrupts p.world q id) ∨
    (∃ t, p.world.task? q id = some (.script t)) ∧ ∃ dog, p.Begins q dog ∧ p.world.Bites q dog

def Rehooks (p : Process) (e : Nat) : Prop :=
  p.control.Rehooks p.world e ∨ ∃ q id, p.Begins q id ∧ p.world.Rearms q id e

def Touches (p : Process) (e : Nat) : Prop := p.Rehooks e ∨ p.control.Ticks e

@[simp] theorem step_deliver (w : World) (result : a.Result) (f : Activation a b) (k : Pending b) :
    step ⟨w, .deliver result (.cons f k)⟩ = f.resume result w k := by simp only [Process.step]

@[simp] theorem step_unwind (w : World) (payload : Payload) (f : Activation a b) (k : Pending b) :
    step ⟨w, .unwind payload (.cons f k)⟩ = f.unwind payload w k := by simp only [Process.step]

theorem sequel_perform {k : Pending .reply} (hk : k.Ready w) (action : Action) :
    (step ⟨w, .perform action k⟩).Sequel (Interrupts ⟨w, .perform action k⟩)
      (Touches ⟨w, .perform action k⟩) w k := by
  cases hrun : action.run? with
  | none =>
    refine ((w.within_perform hrun k).mono fun hw => hw.mono (fun q id hi => ?_)
      fun e he => ?_).sequel hk (World.Moves.refl w)
    · exact .inl ⟨action, k, rfl, hi⟩
    · exact .inl (.inl he)
  | some q =>
    exact (World.walks_perform hrun w k).sequel hk (fun _ _ => Or.inr)
      fun q id hb e he => .inl (.inr ⟨q, id, hb, he⟩)

theorem sequel_deliver {f : Activation a b} {k : Pending b} (hk : (Pending.cons f k).Ready w)
    (hfree : f.payload? = none) (result : a.Result) :
    (step ⟨w, .deliver result (.cons f k)⟩).Sequel (Interrupts ⟨w, .deliver result (.cons f k)⟩)
      (Touches ⟨w, .deliver result (.cons f k)⟩) w k := by
  have hstep := step_deliver w result f k
  rw [hstep]
  refine Activation.sequel_resume hk (fun q id hb => .inr ?_)
    (fun q id hb e he => .inl (.inr ⟨q, id, ?_, he⟩)) (fun e he => he.imp_left .inl) hfree
  all_goals
    simp only [Begins, hstep]
    exact hb

theorem fate_unwind {f : Activation a b} {k : Pending b} {payload : Payload}
    (h : Sound ⟨w, .unwind payload (.cons f k)⟩) :
    (step ⟨w, .unwind payload (.cons f k)⟩).Fate (Interrupts ⟨w, .unwind payload (.cons f k)⟩)
      (Touches ⟨w, .unwind payload (.cons f k)⟩) w payload f k := by
  rw [step_unwind]
  exact Activation.fate_unwind h.ready (fun id hid => h.flight id (by rw [hid]; rfl))
    fun e he => .inl (.inl he)

/-- A transition makes moves of the queues, with the interrupts that it is said to make, and leaves
the stack fitting. -/
theorem Sound.step (h : p.Sound) :
    p.world.Moves p.Interrupts p.Touches p.step.world ∧ p.step.Sound := by
  obtain ⟨w, control⟩ := p
  have hr := h.ready
  have hrefl := World.Moves.refl (I := Interrupts ⟨w, control⟩) (T := Touches ⟨w, control⟩) w
  cases control with
  | perform action k =>
    have hnext := sequel_perform hr action
    exact ⟨hnext.moves, hnext.sound⟩
  | deliver result k =>
    cases k with
    | outermost => exact ⟨hrefl, hr, nofun⟩
    | cons f k =>
      cases hpayload : f.payload? with
      | none =>
        have hnext := sequel_deliver hr hpayload result
        exact ⟨hnext.moves, hnext.sound⟩
      | some payload =>
        cases f with
        | cleanup payload' hole =>
          rw [step_deliver]
          refine ⟨hrefl, hr.tail rfl, fun id hid => hr.fits.1 id ?_⟩
          simpa [Activation.resume, World.unwind, Control.payload?] using hid
        | _ => cases hpayload
  | unwind payload k =>
    cases k with
    | outermost =>
      refine ⟨hrefl, hr, fun id hid => ?_⟩
      obtain ⟨q, hm, _⟩ := h.flight id hid
      cases hm
    | cons f k =>
      have hfate := fate_unwind h
      exact ⟨hfate.moves, hfate.sound⟩
  | answered | escaped | aborted => exact ⟨hrefl, h⟩

end Process

end TaskLoop
