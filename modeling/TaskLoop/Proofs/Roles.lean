import TaskLoop.Proofs.Frame

namespace TaskLoop

variable {a b c : Hole} {w w' w₁ w₂ w₃ : World} {E B : Prop} {T : Nat → Prop} {q : Nat} {id : TaskId}
  {p : Process} {Q Q' : Queue}

/-- What is done to a queue: something that a pass does, or a run of passes. -/
inductive Role where
  | pass (q : Nat)
  | run (q : Nat)

def Role.queue : Role → Nat
  | .pass q | .run q => q

def Activation.role? : Activation a b → Option Role
  | .firing q _ | .script q _ _ _ | .turn q _ _ | .walk q _ _ => some (.pass q)
  | .drain q | .forever q => some (.run q)
  | _ => none

theorem Activation.Plain.role? {f : Activation a b} (h : f.Plain) : f.role? = none := by
  cases f <;> trivial

variable {S : Role → Prop}

inductive Pending.Topped (S : Role → Prop) (k : Pending c) : {a : Hole} → Pending a → Prop
  | refl : Topped S k k
  | cons {a b : Hole} {f : Activation a b} {k' : Pending b}
      (role : ∀ role, f.role? = some role → S role) (above : k.Topped S k') : Topped S k (.cons f k')

namespace Pending

theorem Topped.trans {k : Pending c} {k' : Pending b} {k'' : Pending a} (h : k.Topped S k')
    (h' : k'.Topped S k'') : k.Topped S k'' := by
  induction h' with
  | refl => exact h
  | cons role _ ih => exact .cons role ih

theorem Topped.upon {k : Pending c} {k' : Pending a} (h : k.Topped S k') : k.Upon k' := by
  induction h with
  | refl => exact .refl
  | cons _ _ ih => exact .cons _ ih

theorem topped_cons {f : Activation a b} (hf : f.role? = none) (k : Pending b) :
    k.Topped S (.cons f k) :=
  .cons (fun role h => by cases hf.symm.trans h) .refl

theorem topped_role {f : Activation a b} {role : Role} (hf : f.role? = some role) (hS : S role)
    (k : Pending b) : k.Topped S (.cons f k) :=
  .cons (fun _ h => Option.some.inj (hf.symm.trans h) ▸ hS) .refl

theorem Over.topped {k : Pending c} {k' : Pending a} (h : k.Over k') : k.Topped S k' := by
  induction h with
  | refl => exact .refl
  | cons plain _ ih => exact ih.trans (topped_cons plain.role? _)

end Pending

namespace Control

def Topped (S : Role → Prop) (k : Pending c) : Control → Prop
  | .perform _ k' => k.Topped S k'
  | .deliver _ k' => k.Topped S k'
  | .unwind _ k' => k.Topped S k'
  | _ => False

variable {k : Pending c} {control : Control}

theorem Over.topped (h : control.Over k) : control.Topped S k := by
  cases control with
  | perform | deliver | unwind => exact Pending.Over.topped h
  | answered | escaped | aborted => exact h.elim

theorem Topped.trans {k' : Pending b} (h : control.Topped S k') (h' : k.Topped S k') :
    control.Topped S k := by
  cases control with
  | perform | deliver | unwind => exact h'.trans h
  | answered | escaped | aborted => exact h.elim

theorem Topped.upon (h : control.Topped S k) : control.Upon k := by
  cases control with
  | perform | deliver | unwind => exact Pending.Topped.upon h
  | answered | escaped | aborted => exact h.elim

end Control

namespace World

def stopping (w : World) (q : Nat) : Bool := ((w.queue? q).map (·.stopping)).getD false

theorem stopping_eq (hQ : w.queue? q = some Q) : w.stopping q = Q.stopping := by
  rw [stopping, hQ]
  rfl

/-- Work on one queue. The other queues are as they were, so is its stop flag if it is not exempt, and
nothing is logged that tells of a turn unless one begins. -/
structure Minds (E B : Prop) (q : Nat) (w w' : World) : Prop where
  others : ∀ q', q' ≠ q → w'.queue? q' = w.queue? q'
  stopping : ¬ E → w'.stopping q = w.stopping q
  log : ∃ new, w'.log = new ++ w.log ∧ ∀ event ∈ new, event.ofTurn = true → B

theorem minds_of_log (hothers : ∀ q', q' ≠ q → w'.queue? q' = w.queue? q')
    (hstopping : ¬ E → w'.stopping q = w.stopping q) (hlog : w'.log = w.log) : w.Minds E B q w' :=
  ⟨hothers, hstopping, [], hlog, by simp⟩

theorem Minds.refl (w : World) : w.Minds E B q w := minds_of_log (fun _ _ => rfl) (fun _ => rfl) rfl

theorem Minds.trans (h : w₁.Minds E B q w₂) (h' : w₂.Minds E B q w₃) : w₁.Minds E B q w₃ := by
  refine ⟨fun q' hq => (h'.others q' hq).trans (h.others q' hq),
    fun hE => (h'.stopping hE).trans (h.stopping hE), ?_⟩
  obtain ⟨new, hnew, hall⟩ := h.log
  obtain ⟨new', hnew', hall'⟩ := h'.log
  refine ⟨new' ++ new, by rw [hnew', hnew, List.append_assoc], fun event hm => ?_⟩
  exact (List.mem_append.1 hm).elim (hall' event) (hall event)

theorem Aside.minds (h : w.Aside T w') : w.Minds E B q w' := by
  refine ⟨fun q' _ => h.queue? q', fun _ => ?_, ?_⟩
  · rw [World.stopping, h.queue? q]
    rfl
  · obtain ⟨new, hnew, hall⟩ := h.log
    exact ⟨new, hnew, fun event hm hturn => by cases (hall event hm).symm.trans hturn⟩

theorem lasting_minds (w : World) (E B : Prop) (q : Nat) (T : Nat → Prop) :
    Lasting T (w.Minds E B q) := fun _ _ h h' => h.trans h'.minds

theorem minds_setQueue (hQ : w.queue? q = some Q) (h : ¬ E → Q'.stopping = Q.stopping) :
    w.Minds E B q (w.setQueue q Q') := by
  refine minds_of_log (fun q' hq => queue?_setQueue_of_ne Q' hq.symm) (fun hE => ?_) rfl
  rw [stopping_eq (queue?_setQueue_self hQ Q'), stopping_eq hQ, h hE]

theorem minds_modifyQueue {f : Queue → Queue} (hf : ∀ Q, (f Q).stopping = Q.stopping) (w : World)
    (q : Nat) : w.Minds E B q (w.modifyQueue q f) := by
  refine minds_of_log (fun q' hq => queue?_modifyQueue_of_ne w f hq.symm) (fun _ => ?_) rfl
  rw [stopping, stopping, queue?_modifyQueue]
  cases w.queue? q with
  | none => rfl
  | some Q => exact hf Q

theorem minds_rewrite (w : World) (q : Nat) (id : TaskId) (task : Task) :
    w.Minds E B q (w.modifyQueue q (·.modify id fun _ => task)) :=
  minds_modifyQueue (f := (·.modify id fun _ => task)) (fun _ => rfl) w q

theorem minds_logged (w : World) (q : Nat) {event : Event} (h : event.ofTurn = true → B) :
    w.Minds E B q (w.logged event) :=
  ⟨fun _ _ => rfl, fun _ => rfl, [event], rfl, by simpa using h⟩

theorem minds_notify (w : World) (q : Nat) (tag : Tag) (text : String) :
    w.Minds E B q (w.notify q tag text) :=
  (minds_modifyQueue (f := (·.record ⟨tag, text⟩)) (fun _ => rfl) w q).trans
    (minds_logged _ q fun h => by cases h)

theorem Grant.minds {E' : Prop} (hE : E' → E) (h : w.Grant E' q w') : w.Minds E B q w' := by
  obtain haside | ⟨Q, Q', hQ, hgrant, rfl⟩ := h.aside_or_queue
  · exact haside.minds
  · refine minds_setQueue hQ fun hnot => ?_
    cases hgrant with
    | note _ _ _ kept => exact kept.resolve_right fun h => hnot (hE h)
    | push | interrupt => rfl

theorem Grants.minds {E' : Prop} (hE : E' → E) (h : w.Grants E' q w') : w.Minds E B q w' := by
  induction h with
  | refl => exact Minds.refl w
  | tail _ grant ih => exact ih.trans (grant.minds hE)

end World

structure Process.Minds (S : Role → Prop) (E B : Prop) (q : Nat) (w : World) (k : Pending c)
    (p : Process) : Prop where
  world : w.Minds E B q p.world
  stack : p.control.Topped S k

theorem Process.Within.minds {k : Pending c} (h : p.Within (w.Minds E B q) k) :
    p.Minds S E B q w k := ⟨h.world, h.stack.topped⟩

theorem Process.Minds.pop {f : Activation a b} {k : Pending b} (h : p.Minds S E B q w (.cons f k))
    (hf : f.role? = none) : p.Minds S E B q w k :=
  ⟨h.world, h.stack.trans (Pending.topped_cons hf k)⟩

theorem Process.Minds.pop_role {f : Activation a b} {k : Pending b} {role : Role}
    (h : p.Minds S E B q w (.cons f k)) (hf : f.role? = some role) (hS : S role) :
    p.Minds S E B q w k :=
  ⟨h.world, h.stack.trans (Pending.topped_role hf hS k)⟩

theorem Process.Minds.after {k : Pending c} (h : w.Minds E B q w₁) (h' : p.Minds S E B q w₁ k) :
    p.Minds S E B q w k := ⟨h.trans h'.world, h'.stack⟩

namespace World

theorem minds_deliver (h : w.Minds E B q w') (k : Pending a) (result : a.Result) :
    (w'.deliver k result).Minds S E B q w k := ⟨h, .refl⟩

theorem minds_destroy (h : w.Minds E B q w') (task : Task) (k : Pending .done) :
    (w'.destroy task k).Minds S E B q w k :=
  (within_destroy (lasting_minds w E B q fun _ => True) h task (fun _ _ => trivial) k).minds

theorem minds_unlink {Q₀ left : Queue} {task : Task} (hQ : w.queue? q = some Q)
    (taken : Q₀.unlink? id = some (task, left)) (hstopping : Q₀.stopping = Q.stopping)
    (held : Option Task) : w.Minds E B q (w.setQueue q { left with held }) := by
  obtain ⟨tasks, _, rfl⟩ := Queue.unlink?_eq_some taken
  exact minds_setQueue hQ fun _ => hstopping

theorem minds_removeTask (hQ : w.queue? q = some Q) (id : TaskId) (k : Pending .reply) :
    (w.removeTask q Q id k).Minds S E B q w k := by
  have hremoves := withdraws_removeTask w q Q id k
  generalize w.removeTask q Q id k = p at hremoves ⊢
  cases hremoves with
  | missing reply => exact minds_deliver (Minds.refl w) k reply
  | holds taken => exact minds_deliver (minds_unlink hQ taken rfl _) k _
  | @destroys task left taken =>
    exact (minds_destroy (minds_unlink hQ taken rfl left.held) task _).pop rfl

theorem minds_performOnQueue (hQ : w.queue? q = some Q) {action : QueueAction Action}
    (hrun : (Action.queue q action).run? = none) (hE : action = .stop → E) (k : Pending .reply) :
    (w.performOnQueue q Q action k).Minds S E B q w k := by
  cases hremoved : (Action.queue q action).removed? with
  | none => exact ((within_request hQ hrun hremoved k).mono (Grants.minds hE)).minds
  | some name =>
    obtain rfl := Action.eq_of_removed? hremoved
    exact minds_removeTask hQ _ k

theorem minds_stepTask (hB : B) (hS : S (.pass q)) (w : World) (id : TaskId) (task : Task)
    (k : Pending .verdict) : (w.stepTask q id task k).Minds S E B q w k := by
  have hallows : w.Allows (Minds E B q) q id task :=
    { refl := Minds.refl w
      trans := Minds.trans
      log := fun w₁ _ _ => minds_logged w₁ q fun _ => hB
      rewrite := fun w₁ task' _ _ => minds_rewrite w₁ q id task'
      hook := fun w₁ t _ _ => (aside_installHook (T := fun _ => True) w₁ q t.engine trivial).minds
      alarm := fun _ => (grants_interruptAll (E := False) w q rfl).minds False.elim }
  have hstepping := hallows.stepping (lasting_minds w E B q fun _ => True).robust k
  generalize w.stepTask q id task k = p at hstepping ⊢
  cases hstepping with
  | verdict world => exact minds_deliver world k _
  | @within _ f _ steps within =>
    have hminds : Process.Minds S E B q w (.cons f k) p := within.minds
    cases f with
    | idle | quiet | rested => exact hminds.pop rfl
    | firing | script =>
      obtain ⟨rfl, _⟩ := steps
      exact hminds.pop_role rfl hS
    | cleanup => exact steps.elim

theorem minds_timerFired (w : World) (q : Nat) (id : TaskId) (k : Pending .verdict) :
    (w.timerFired q id k).Minds S E B q w k := by
  obtain ⟨w', verdict, heq, rfl | ⟨Q, t, deadline, hQ, _, rfl⟩⟩ := timerFired_eq w q id k
  · rw [heq]
    exact minds_deliver (Minds.refl _) k verdict
  · rw [heq]
    refine minds_deliver (minds_setQueue hQ fun _ => ?_) k verdict
    rfl

theorem minds_scriptReturned (w : World) (q : Nat) (id : TaskId) (t : ScriptTask) (base : Nat)
    (result : Except CallError Unit) (k : Pending .verdict) :
    (w.scriptReturned q id t base result k).Minds S E B q w k := by
  obtain ⟨w₀, w₁, heq, rfl | ⟨text, rfl⟩, haside⟩ :=
    w.scriptReturned_eq (T := fun _ => True) q id t base result k fun _ => trivial
  · rw [heq]
    exact minds_deliver haside.minds k _
  · rw [heq]
    exact minds_deliver ((minds_notify w q _ _).trans haside.minds) k _

theorem minds_walkOn (hS : S (.pass q)) (w : World) (next : Option TaskId) (walk : Walk)
    (k : Pending .pass) (hB : ∀ id, (w.walkOn q next walk k).Enters w k.turns q id → B) :
    (w.walkOn q next walk k).Minds S E B q w k := by
  have hfinish : (w.finishPass q walk k).Minds S E B q w k :=
    minds_deliver (minds_modifyQueue (f := (·.countPass walk.stepped walk.completed))
      (fun _ => rfl) w q) k _
  unfold walkOn at hB ⊢
  split
  · exact hfinish
  · next id =>
    cases ht : w.queue? q >>= (·.get? id) with
    | none => exact hfinish
    | some task =>
      simp only [ht] at hB
      have henter : w.Minds E B q (w.modifyQueue q (·.enter id)) :=
        minds_modifyQueue (f := (·.enter id)) (fun _ => rfl) w q
      exact .after henter ((minds_stepTask (hB id (.intro ht rfl)) hS _ id task _).pop_role rfl hS)

theorem minds_startPass (hS : S (.pass q)) (w : World) (k : Pending .pass)
    (hB : ∀ id, (w.startPass q k).Enters w k.turns q id → B) :
    (w.startPass q k).Minds S E B q w k := by
  unfold startPass at hB ⊢
  split
  · exact minds_deliver (Minds.refl w) k _
  · next Q hQ =>
    split
    · exact minds_deliver (Minds.refl w) k _
    · next hidle =>
      simp only [hQ, if_neg hidle] at hB
      exact minds_walkOn hS w _ _ k hB

theorem minds_drainOn (hS : ∀ role, role.queue = q → S role) (hE : E) (w : World)
    (k : Pending .run) (hB : ∀ id, (w.drainOn q k).Enters w k.turns q id → B) :
    (w.drainOn q k).Minds S E B q w k := by
  unfold drainOn at hB ⊢
  split
  · exact minds_deliver (Minds.refl w) k _
  · next Q hQ =>
    split
    · exact minds_deliver (minds_setQueue hQ fun hnot => absurd hE hnot) k _
    · next hstop =>
      split
      · exact minds_deliver (Minds.refl w) k _
      · next hmore =>
        simp only [hQ, if_neg hstop, if_neg hmore] at hB
        exact (minds_startPass (hS _ rfl) w (.cons (.drain q) k) hB).pop_role rfl (hS _ rfl)

theorem minds_startRun (hS : ∀ role, role.queue = q → S role) (hE : E) (w : World)
    (k : Pending .run) (hB : ∀ id, (w.startRun q k).Enters w k.turns q id → B) :
    (w.startRun q k).Minds S E B q w k := by
  unfold startRun at hB ⊢
  split
  · exact minds_deliver (Minds.refl w) k _
  · next hidle =>
    rw [if_neg hidle] at hB
    exact minds_drainOn hS hE w k hB

theorem minds_leave (hQ : w.queue? q = some Q) : w.Minds E B q (w.setQueue q Q.leave) :=
  minds_setQueue hQ fun _ => rfl

theorem minds_endTurn (hS : S (.pass q)) (w : World) (id : TaskId) (walk : Walk) (verdict : Verdict)
    (k : Pending .pass) : (w.endTurn q id walk verdict k).Minds S E B q w k := by
  have hcloses := closes_endTurn w q id walk verdict k
  generalize w.endTurn q id walk verdict k = p at hcloses ⊢
  cases hcloses with
  | missing => exact minds_deliver (Minds.refl w) k _
  | @completes Q left task _ _ hQ _ taken =>
    exact (minds_destroy (minds_unlink hQ taken rfl left.held) task _).pop_role rfl hS
  | destroys hQ => exact (minds_destroy (minds_leave hQ) _ _).pop_role rfl hS
  | leaves hQ => exact (minds_deliver (minds_leave hQ) (.cons (.walk q _ _) k) ()).pop_role rfl hS

theorem minds_abandonTurn (w : World) (q : Nat) (payload : Payload) (k : Pending .pass) :
    (w.abandonTurn q payload k).Minds S E B q w k := by
  have habandons := abandons_abandonTurn w q payload k
  generalize w.abandonTurn q payload k = p at habandons ⊢
  cases habandons with
  | missing => exact ⟨Minds.refl w, .refl⟩
  | destroys hQ => exact (minds_destroy (minds_leave hQ) _ _).pop rfl
  | leaves hQ => exact ⟨minds_leave hQ, .refl⟩

end World

def Action.role? : Action → Option Role
  | .queue q .runOnce | .queue q .runForever => some (.run q)
  | .queue q _ => some (.pass q)
  | _ => none

def Control.role? : Control → Option Role
  | .perform action _ => action.role?
  | .deliver _ (.cons f _) => f.role?
  | .unwind _ (.cons f _) => f.role?
  | _ => none

def Process.Stops (p : Process) (q : Nat) : Prop :=
  ∃ k, p.control = .perform (.queue q .stop) k

def Role.Makes : Role → Role → Prop
  | .pass q, role => role = .pass q
  | .run q, role => role.queue = q

namespace World

theorem minds_perform_aside (w : World) {action : Action} (h : action.role? = none) (q : Nat)
    (k : Pending .reply) : (w.perform action k).Minds S E B q w k := by
  have hqueue : action.onQueue = false := by
    cases action with
    | queue q action => cases action <;> cases h
    | _ => rfl
  have hwithin := within_perform_aside w hqueue k
  exact ⟨hwithin.world.minds, hwithin.stack.topped⟩

theorem minds_perform (w : World) {action : Action} {role : Role} (h : action.role? = some role)
    (hS : ∀ role', role.Makes role' → S role')
    (hE : action = .queue role.queue .stop ∨ role = .run role.queue → E) (k : Pending .reply)
    (hB : ∀ id, (w.perform action k).Enters w k.turns role.queue id → B) :
    (w.perform action k).Minds S E B role.queue w k := by
  obtain ⟨q, queueAction, rfl⟩ : ∃ q queueAction, action = .queue q queueAction := by
    cases action with
    | queue q queueAction => exact ⟨q, queueAction, rfl⟩
    | advance | setClock | unwind | alive | engine => cases h
  simp only [perform] at hB ⊢
  cases hQ : w.queue? q with
  | none => exact minds_deliver (Minds.refl w) k _
  | some Q =>
    simp only [hQ] at hB
    have hother : (Action.queue q queueAction).run? = none → role = .pass q →
        (w.performOnQueue q Q queueAction k).Minds S E B role.queue w k := by
      rintro hrun rfl
      exact minds_performOnQueue hQ hrun (fun hstop => hE (.inl (by rw [hstop]; rfl))) k
    cases queueAction with
    | runPass =>
      cases h
      exact (minds_startPass (hS _ rfl) w (.cons .passReply k) hB).pop rfl
    | runOnce =>
      cases h
      exact (minds_startRun hS (hE (.inr rfl)) w (.cons .runReply k) hB).pop rfl
    | runForever =>
      cases h
      exact (minds_startRun hS (hE (.inr rfl)) w (.cons (.forever q) k) hB).pop_role rfl (hS _ rfl)
    | _ => cases h; exact hother rfl rfl

end World

namespace Activation

theorem minds_resume_aside {f : Activation a b} (hf : f.role? = none) (result : a.Result) (w : World)
    (q : Nat) (k : Pending b) : (f.resume result w k).Minds S E B q w k := by
  have hR : World.Lasting (fun _ => True) (w.Minds E B q) := World.lasting_minds w E B q _
  have hw : w.Minds E B q w := World.Minds.refl w
  have hplain : f.Plain → (f.resume result w k).Minds S E B q w k := fun hf =>
    (hf.within hR.robust hw (fun _ _ => trivial) result k).minds
  cases f with
  | routine | unheeded | callReply | doneReply | machine | counted | host | pacer | triggered =>
    exact hplain trivial
  | idle | rested | passReply | runReply => exact World.minds_deliver hw k _
  | quiet name onDrop =>
    exact (World.within_destroyCallback hR hw name onDrop (.cons .rested k)).minds.pop rfl
  | sweep rest =>
    cases rest with
    | nil => exact World.minds_deliver hw k _
    | cons task rest => exact (World.minds_destroy hw task (.cons (.sweep rest) k)).pop rfl
  | cleanup => exact ⟨hw, .refl⟩
  | firing | script | turn | walk | drain | forever => cases hf

theorem minds_resume {f : Activation a b} {role : Role} (hf : f.role? = some role)
    (hS : ∀ role', role.Makes role' → S role') (hE : role = .run role.queue → E) (result : a.Result)
    (w : World) (k : Pending b)
    (hB : f.turn? = none → ∀ id, (f.resume result w k).Enters w k.turns role.queue id → B) :
    (f.resume result w k).Minds S E B role.queue w k := by
  cases f with
  | firing q id => cases hf; exact World.minds_timerFired w q id k
  | script q id t base => cases hf; exact World.minds_scriptReturned w q id t base result k
  | turn q id walk => cases hf; exact World.minds_endTurn (hS _ rfl) w id walk result k
  | walk q next walk => cases hf; exact World.minds_walkOn (hS _ rfl) w next walk k (hB rfl)
  | drain q => cases hf; exact World.minds_drainOn hS (hE rfl) w k (hB rfl)
  | forever q =>
    cases hf
    cases result with
    | stopped => exact World.minds_deliver (World.Minds.refl w) k _
    | drained =>
      exact (World.minds_startRun hS (hE rfl) w (.cons (.forever q) k) (hB rfl)).pop_role rfl (hS _ rfl)
  | _ => cases hf

theorem minds_unwind_aside {f : Activation a b} (hf : f.role? = none) (payload : Payload) (w : World)
    (q : Nat) (k : Pending b) : (f.unwind payload w k).Minds S E B q w k ∨
      f.unwind payload w k = ⟨w, .aborted⟩ := by
  have hw : w.Minds E B q w := World.Minds.refl w
  cases f with
  | quiet name onDrop =>
    exact .inl ((World.within_destroyCallback (World.lasting_minds w E B q fun _ => True) hw name
      onDrop _).minds.pop rfl)
  | machine e call | counted e call | host e call =>
    left
    refine ⟨World.Aside.minds (T := fun _ => True) (World.aside_modifyMachine w e fun m => ?_), .refl⟩
    rfl
  | sweep rest => exact .inl ⟨hw, (Pending.topped_cons rfl k).trans (Pending.topped_cons rfl _)⟩
  | cleanup => exact .inr rfl
  | firing | script | turn | walk | drain | forever => cases hf
  | _ => exact .inl ⟨hw, .refl⟩

theorem minds_unwind {f : Activation a b} {role : Role} (hf : f.role? = some role)
    (payload : Payload) (w : World) (k : Pending b) :
    (f.unwind payload w k).Minds S E B role.queue w k := by
  have hw : w.Minds E B role.queue w := World.Minds.refl w
  cases f with
  | script q id t base =>
    rw [unwind]
    split
    · cases hf; exact World.minds_scriptReturned w q id t base _ k
    · exact ⟨hw, .refl⟩
  | turn q id walk => cases hf; exact World.minds_abandonTurn w q payload k
  | firing | walk | drain | forever => exact ⟨hw, .refl⟩
  | _ => cases hf

end Activation

namespace Process

/-- A transition works on the queue that its role names. -/
theorem minds_step (p : Process) (hq : ∀ role, p.control.role? = some role → role.queue = q) :
    p.world.Minds (p.Stops q ∨ p.control.role? = some (.run q)) (∃ id, p.Begins q id) q
      p.step.world := by
  obtain ⟨w, control⟩ := p
  have hall : ∀ role role', Role.Makes role role' → True := fun _ _ _ => trivial
  cases control with
  | perform action k =>
    cases hrole : action.role? with
    | none => exact (w.minds_perform_aside (S := fun _ => True) hrole q k).world
    | some role =>
      obtain rfl := hq role hrole
      refine (w.minds_perform hrole (hall role) (fun hE => ?_) k fun id henters => ?_).world
      · exact hE.imp (fun hstop => ⟨k, by rw [hstop]⟩) fun hrun => hrole.trans (congrArg some hrun)
      · exact ⟨id, henters.turns⟩
  | deliver result k =>
    cases k with
    | outermost => exact World.Minds.refl w
    | cons f k =>
      rw [step_deliver]
      cases hrole : f.role? with
      | none => exact (Activation.minds_resume_aside (S := fun _ => True) hrole result w q k).world
      | some role =>
        obtain rfl := hq role hrole
        refine (Activation.minds_resume hrole (hall role) (fun hrun => ?_) result w k
          fun hturn id henters => ?_).world
        · exact .inr (hrole.trans (congrArg some hrun))
        · refine ⟨id, ?_⟩
          rw [Begins, step_deliver, henters.turns]
          exact congrArg _ (Pending.turns_cons hturn k).symm
  | unwind payload k =>
    cases k with
    | outermost => exact World.Minds.refl w
    | cons f k =>
      rw [step_unwind]
      cases hrole : f.role? with
      | none =>
        obtain hminds | haborted :=
          Activation.minds_unwind_aside (S := fun _ => True) hrole payload w q k
        · exact hminds.world
        · rw [haborted]
          exact World.Minds.refl w
      | some role =>
        obtain rfl := hq role hrole
        exact (Activation.minds_unwind (S := fun _ => True) hrole payload w k).world
  | answered | escaped | aborted => exact World.Minds.refl w

/-- A queue is as it was if the transition works on another one or on none. -/
theorem queue?_step (h : ∀ role, p.control.role? = some role → role.queue ≠ q) :
    p.step.world.queue? q = p.world.queue? q := by
  cases hrole : p.control.role? with
  | none =>
    have hminds := p.minds_step (q := q + 1) fun role h' => by cases hrole.symm.trans h'
    exact hminds.others q (Nat.ne_of_lt (Nat.lt_succ_self q))
  | some role =>
    have hminds := p.minds_step fun role' h' => congrArg Role.queue
      (Option.some.inj (h'.symm.trans hrole))
    exact hminds.others q (h role hrole).symm

/-- A stop is pending until a run of the queue uses it up, and not before somebody asks for it. -/
theorem stopping_step (hstops : ¬ p.Stops q) (hrun : p.control.role? ≠ some (.run q)) :
    p.step.world.stopping q = p.world.stopping q := by
  by_cases hq : ∀ role, p.control.role? = some role → role.queue = q
  · exact (p.minds_step hq).stopping fun hE => hE.elim hstops hrun
  · obtain ⟨role, hq⟩ := not_forall.1 hq
    obtain ⟨hrole, hne⟩ := Classical.not_imp.1 hq
    rw [World.stopping, queue?_step fun role' h' => Option.some.inj (hrole.symm.trans h') ▸ hne]
    rfl

/-- The log tells of a turn only when one begins. -/
theorem exists_log_step (p : Process) : ∃ new, p.step.world.log = new ++ p.world.log ∧
    ∀ event ∈ new, event.ofTurn = true → ∃ q id, p.Begins q id := by
  cases hrole : p.control.role? with
  | none =>
    have hminds := p.minds_step (q := 0) fun role h' => by cases hrole.symm.trans h'
    obtain ⟨new, hnew, hall⟩ := hminds.log
    exact ⟨new, hnew, fun event hm hturn => ⟨0, hall event hm hturn⟩⟩
  | some role =>
    have hminds := p.minds_step fun role' h' => congrArg Role.queue
      (Option.some.inj (h'.symm.trans hrole))
    obtain ⟨new, hnew, hall⟩ := hminds.log
    exact ⟨new, hnew, fun event hm hturn => ⟨role.queue, hall event hm hturn⟩⟩

/-- What runs on top of a stack puts no other roles there than those that come out of its own. -/
theorem topped_step {k : Pending c} (h : p.control.Topped S k) (hdeep : k.depth < p.control.depth)
    (hS : ∀ role, p.control.role? = some role → ∀ role', role.Makes role' → S role') :
    p.step.control.Topped S k ∨ p.step.control = .aborted := by
  obtain ⟨w, control⟩ := p
  cases control with
  | perform action k' =>
    cases hrole : action.role? with
    | none =>
      exact .inl ((w.minds_perform_aside (E := True) (B := True) hrole 0 k').stack.trans h)
    | some role =>
      exact .inl ((w.minds_perform (E := True) (B := True) hrole (hS role hrole)
        (fun _ => trivial) k' fun _ _ => trivial).stack.trans h)
  | deliver result k' =>
    cases h with
    | refl => exact absurd hdeep (Nat.lt_irrefl _)
    | @cons _ _ f k' _ above =>
      rw [step_deliver]
      cases hrole : f.role? with
      | none =>
        exact .inl ((Activation.minds_resume_aside (E := True) (B := True) hrole result w 0
          k').stack.trans above)
      | some role =>
        exact .inl ((Activation.minds_resume (E := True) (B := True) hrole (hS role hrole)
          (fun _ => trivial) result w k' fun _ _ _ => trivial).stack.trans above)
  | unwind payload k' =>
    cases h with
    | refl => exact absurd hdeep (Nat.lt_irrefl _)
    | @cons _ _ f k' _ above =>
      rw [step_unwind]
      cases hrole : f.role? with
      | none =>
        refine (Activation.minds_unwind_aside (E := True) (B := True) hrole payload w 0 k').imp
          (fun hminds => hminds.stack.trans above) fun haborted => ?_
        rw [haborted]
      | some role =>
        exact .inl ((Activation.minds_unwind (E := True) (B := True) hrole payload w
          k').stack.trans above)
  | answered | escaped | aborted => exact h.elim

end Process

end TaskLoop
