import TaskLoop.Proofs.Ledger

namespace TaskLoop

variable {a b c : Hole} {w : World} {q e : Nat} {id : TaskId} {p : Process}

/-- What the stack holds for a script: its claim while its call is in progress, or while its record
waits to be destroyed with its queue. -/
inductive Holding where
  | called (queue : Nat) (id : TaskId) (claim : Claim)
  | doomed (claim : Claim)
deriving DecidableEq, Repr

def Activation.holdings : Activation a b → List Holding
  | .script q id t _ => [.called q id t.claim]
  | .sweep rest => (rest.filterMap Task.claim?).map .doomed
  | _ => []

namespace Pending

def holdings : {a : Hole} → Pending a → List Holding
  | _, .outermost => []
  | _, .cons f k => f.holdings ++ k.holdings

theorem holdings_cons {f : Activation a b} (h : f.holdings = []) (k : Pending b) :
    (cons f k).holdings = k.holdings := by rw [holdings, h, List.nil_append]

theorem Over.holdings {k : Pending c} {k' : Pending a} (h : k.Over k') : k'.holdings = k.holdings := by
  induction h with
  | refl => rfl
  | @cons _ _ f _ plain _ ih =>
    have hf : f.holdings = [] := by cases f <;> trivial
    rw [holdings_cons hf, ih]

end Pending

namespace Control

def holdings : Control → List Holding
  | .perform _ k => k.holdings
  | .deliver _ k => k.holdings
  | .unwind _ k => k.holdings
  | _ => []

theorem Over.holdings {k : Pending c} {control : Control} (h : control.Over k) :
    control.holdings = k.holdings := by
  cases control with
  | perform | deliver | unwind => exact Pending.Over.holdings h
  | answered | escaped | aborted => exact h.elim

end Control

/-- What is claimed in the world, what the stack holds, and whose turns are on it. -/
structure Account where
  ledger : Ledger
  holdings : List Holding
  turns : List (Nat × TaskId)

namespace Process

def account (p : Process) : Account := ⟨p.world.ledger, p.control.holdings, p.control.turns⟩

theorem ledger_eq {A : Account} (h : p.account = A) : p.world.ledger = A.ledger :=
  congrArg Account.ledger h

theorem holdings_eq {A : Account} (h : p.account = A) : p.control.holdings = A.holdings :=
  congrArg Account.holdings h

theorem turns_eq {A : Account} (h : p.account = A) : p.control.turns = A.turns :=
  congrArg Account.turns h

theorem account_of_over {k : Pending c} (h : p.control.Over k) :
    p.account = ⟨p.world.ledger, k.holdings, k.turns⟩ := by rw [Process.account, h.holdings, h.turns]

theorem Stepping.holdings {R : World → Prop} {kind : TaskKind} {k : Pending .verdict}
    (h : p.Stepping R q id kind k) (hkind : kind ≠ .script) : p.control.holdings = k.holdings := by
  cases h with
  | verdict => rfl
  | @within _ f _ steps within =>
    rw [within.stack.holdings]
    cases f with
    | script => exact absurd steps.2.2 hkind
    | idle | firing | quiet | rested => rfl
    | _ => exact steps.elim

def GivesBack (p : Process) (q : Nat) (id : TaskId) (claim : Claim) : Prop :=
  ∃ t base k, t.claim = claim ∧
    ((∃ result, p.control = .deliver result (.cons (.script q id t base) k)) ∨
      p.control = .unwind (.cancelled id) (.cons (.script q id t base) k))

def Forsakes (p : Process) (q : Nat) (id : TaskId) (claim : Claim) : Prop :=
  ∃ payload t base k, t.claim = claim ∧
    p.control = .unwind payload (.cons (.script q id t base) k) ∧ payload ≠ .cancelled id

def Discards (p : Process) (claim : Claim) : Prop :=
  ∃ t rest k, t.claim = claim ∧ p.control = .deliver () (.cons (.sweep (.script t :: rest)) k)

inductive Deal (p : Process) : Prop
  | quiet (account : p.step.account = p.account)
  /-- The step of a task that is no script begins. -/
  | enters {q : Nat} {id : TaskId} (unclaimed : p.world.ledger.claims (q, id) = none)
      (account : p.step.account = { p.account with turns := (q, id) :: p.control.turns })
  | calls {q : Nat} {id : TaskId} {claim : Claim}
      (claimed : p.world.ledger.claims (q, id) = some claim)
      (account : p.step.account =
        ⟨p.world.ledger.setClaim (q, id) (some { claim with ran := true }),
          .called q id { claim with ran := true } :: p.control.holdings,
          (q, id) :: p.control.turns⟩)
  | starts {q : Nat} {id : TaskId} {name : String} {e key : Nat} {release : Bool}
      (action : p.control.action? = some (.queue q (.startScript name e key release)))
      (fresh : p.world.Fresh q id)
      (account : p.step.account = { p.account with
        ledger := p.world.ledger.setClaim (q, id) (some ⟨e, key, release, false⟩) })
  | parses {q : Nat} {id : TaskId} {name : String} {e key : Nat} {source : List UInt8} {value : Value}
      (action : p.control.action? = some (.queue q (.parseAndStart name e source)))
      (fresh : p.world.Fresh q id)
      (kept : ∀ registry, p.world.ledger.registry e = some registry →
        key = (registry.insert value).1 ∧ ∃ Q program, p.world.queue? q = some Q ∧
          value = .callable program ∧ Machine.readSource Q.config.chunkName source = .ok program)
      (account : p.step.account = { p.account with
        ledger := (p.world.ledger.keep e value).setClaim (q, id) (some ⟨e, key, true, false⟩) })
  | returns {q : Nat} {id : TaskId} {claim : Claim} {rest : List Holding}
      (ends : p.GivesBack q id claim)
      (holdings : p.control.holdings = .called q id claim :: rest)
      (account : p.step.account = ⟨p.world.ledger.release claim, rest, p.control.turns⟩)
  | forsakes {q : Nat} {id : TaskId} {claim : Claim} {rest : List Holding}
      (forsakes : p.Forsakes q id claim)
      (holdings : p.control.holdings = .called q id claim :: rest)
      (account : p.step.account = { p.account with holdings := rest })
  | removes {q : Nat} {id : TaskId} (removes : p.Removes q id) (idle : (q, id) ∉ p.control.turns)
      (account : p.step.account = { p.account with
        ledger := (p.world.ledger.setClaim (q, id) none).discard (p.world.ledger.claims (q, id)) })
  /-- The task removes itself, or is removed while it runs. -/
  | parks {q : Nat} {id : TaskId} (running : (q, id) ∈ p.control.turns)
      (account : p.step.account = { p.account with
        ledger := (p.world.ledger.setClaim (q, id) none).setHeld q
          (p.world.ledger.claims (q, id)) })
  | completes {q : Nat} {id : TaskId} {turns : List (Nat × TaskId)}
      (turn : p.control.turns = (q, id) :: turns)
      (account : p.step.account =
        ⟨((p.world.ledger.setClaim (q, id) none).setHeld q none).discard
          (p.world.ledger.claims (q, id)), p.control.holdings, turns⟩)
  | leaves {q : Nat} {id : TaskId} {turns : List (Nat × TaskId)}
      (turn : p.control.turns = (q, id) :: turns)
      (account : p.step.account =
        ⟨(p.world.ledger.setHeld q none).discard (p.world.ledger.held q), p.control.holdings, turns⟩)
  | sweeps {claim : Claim} {rest : List Holding} (discards : p.Discards claim)
      (holdings : p.control.holdings = .doomed claim :: rest)
      (account : p.step.account = ⟨p.world.ledger.discard (some claim), rest, p.control.turns⟩)
  /-- An engine is asked to keep a value or to free a key. -/
  | tends {e : Nat} {action : EngineAction Action} {registry : Option (Registry Value)}
      (tends : p.control.action? = some (.engine e action)) (keyed : action.handlesKeys = true)
      (account : p.step.account = { p.account with
        ledger := p.world.ledger.setRegistry e registry })
  | aborts (ledger : p.step.world.ledger = p.world.ledger) (aborted : p.step.control = .aborted)

end Process

theorem Activation.Plain.ledger {f : Activation a b} (hf : f.Plain) (result : a.Result) (w : World)
    (k : Pending b) : (f.resume result w k).world.ledger = w.ledger :=
  (hf.within (World.robust_ledger _ fun _ => True) rfl (fun _ _ => trivial) result k).world

namespace Process

theorem deal_of_over {k : Pending c} (h : p.step.control.Over k)
    (hledger : p.step.world.ledger = p.world.ledger)
    (hstack : p.account = ⟨p.world.ledger, k.holdings, k.turns⟩) : p.Deal :=
  .quiet (by rw [account_of_over h, hledger, hstack])

theorem deal_stepTask {task : Task} {walk : Walk} {k : Pending .pass} (h : p.Sound)
    (hstack : p.account = ⟨p.world.ledger, k.holdings, k.turns⟩)
    (queued : p.world.task? q id = some task)
    (hp : p.step =
      (p.world.modifyQueue q (·.enter id)).stepTask q id task (.cons (.turn q id walk) k)) :
    p.Deal := by
  have hledger := World.ledger_enter p.world q id
  have ht : (p.world.modifyQueue q (·.enter id)).task? q id = some task :=
    World.task?_enter.trans queued
  have hstepping := World.stepping_enter queued walk k
  have hclaim := World.claims_ledger_of_task? queued
  obtain ⟨_, hholdings, hturns⟩ := Account.mk.inj hstack
  cases task with
  | idle | timer | watcher =>
    have hbegins : p.Begins q id := by
      rw [Begins, hp, hstepping.turns, hturns]
      rfl
    have hquiet := (World.ledger_stepTask (h.wellFormed_enter hbegins queued) ht (fun hkind => by
      cases hkind) (.cons (.turn q id walk) k)).trans hledger
    refine @Deal.enters p q id (by rw [hclaim]; rfl) ?_
    rw [hp, account, hquiet, hstepping.holdings (fun hkind => by cases hkind), hstepping.turns, hstack,
      hturns]
    rfl
  | script t =>
    obtain ⟨base, hover⟩ : ∃ base, p.step.control.Over (.cons
        (.script q id { t with ran := true } base) (.cons (.turn q id walk) k)) := by
      rw [hp]
      exact ⟨_, World.over_callProtected⟩
    refine .calls hclaim ?_
    rw [account_of_over hover, hholdings, hturns, hp, World.stepTask, World.ledger_stepScript ht, hledger]
    rfl

theorem deal_walks {k : Pending a} {p' : Process} (h : p.Sound)
    (hwalks : p.world.Walks True k p')
    (hp : p.step = p') (hstack : p.account = ⟨p.world.ledger, k.holdings, k.turns⟩) : p.Deal := by
  induction hwalks with
  | @rests _ k w' noted result =>
    have hledger : w'.ledger = p.world.ledger := by
      obtain rfl | ⟨q, f, g, rfl⟩ := noted
      · rfl
      · refine World.ledger_modifyQueue (fun Q => ?_) (fun Q => ?_) p.world q <;> rfl
    refine .quiet ?_
    rw [hp, hstack, ← hledger]
    rfl
  | enters queued => exact deal_stepTask h hstack queued hp
  | @awaited _ _ f k _ awaits _ ih =>
    have hf : f.holdings = [] := by cases f <;> trivial
    refine ih hp ?_
    rw [hstack, Pending.holdings_cons hf, Pending.turns_cons awaits.turn?]

theorem account_destroy (w : World) (task : Task) (k : Pending .done) :
    (w.destroy task k).account = ⟨w.ledger.discard task.claim?, k.holdings, k.turns⟩ := by
  rw [account_of_over World.over_destroy, World.ledger_destroy]

/-- A task that is done and is still queued is taken out of its queue when its turn ends. Otherwise it
may have been removed before, and its record has been waiting for this. -/
theorem account_endTurn {Q : Queue} (hQ : w.queue? q = some Q) (id : TaskId) (walk : Walk)
    (verdict : Verdict) (k : Pending .pass) :
    (w.endTurn q id walk verdict k).account =
      ⟨if verdict = .done ∧ (Q.get? id).isSome then
        ((w.ledger.setClaim (q, id) none).setHeld q none).discard (w.ledger.claims (q, id))
        else (w.ledger.setHeld q none).discard (w.ledger.held q), k.holdings, k.turns⟩ := by
  have hnone : ∀ next walk', Q.held = none →
      ((w.setQueue q Q.leave).deliver (.cons (.walk q next walk') k) ()).account =
        ⟨(w.ledger.setHeld q none).discard (w.ledger.held q), k.holdings, k.turns⟩ := by
    intro next walk' hheld
    rw [World.held_ledger hQ, hheld, account, World.deliver, World.ledger_leave hQ]
    rfl
  have hsome : ∀ next walk' task, Q.held = some task →
      ((w.setQueue q Q.leave).destroy task (.cons (.walk q next walk') k)).account =
        ⟨(w.ledger.setHeld q none).discard (w.ledger.held q), k.holdings, k.turns⟩ := by
    intro next walk' task hheld
    rw [World.held_ledger hQ, account_destroy, hheld, World.ledger_leave hQ]
    rfl
  rw [World.endTurn, hQ]
  cases verdict with
  | again =>
    dsimp only
    split
    · next hheld => exact hnone _ _ hheld
    · next task hheld => exact hsome _ _ task hheld
  | done =>
    cases hg : Q.get? id with
    | none =>
      have hgone : Q.leave.unlink? id = none := by
        rw [Queue.unlink?, Arena.remove?, show Q.leave.tasks.get? id = none from hg]
        rfl
      simp only [hgone]
      split
      · next hheld => exact hnone _ _ hheld
      · next task hheld => exact hsome _ _ task hheld
    | some task =>
      obtain ⟨tasks, taken, _⟩ := Queue.unlink?_of_get? (Q := Q.leave) hg
      obtain ⟨hclaim, hledger⟩ := World.ledger_unlink hQ taken rfl _ rfl
      simp only [taken]
      rw [account_destroy, hledger, hclaim]
      rfl

theorem account_abandonTurn {Q : Queue} (hQ : w.queue? q = some Q) (payload : Payload)
    (k : Pending .pass) :
    (w.abandonTurn q payload k).account =
      ⟨(w.ledger.setHeld q none).discard (w.ledger.held q), k.holdings, k.turns⟩ := by
  rw [World.abandonTurn, hQ, World.held_ledger hQ]
  dsimp only
  split
  · next hheld =>
    rw [hheld, account, World.unwind, World.ledger_leave hQ]
    rfl
  · next task hheld =>
    rw [account_destroy, hheld, World.ledger_leave hQ]
    rfl

theorem deal_scriptReturned {t : ScriptTask} {base : Nat} {result : Except CallError Unit}
    {k : Pending .verdict} (hends : p.GivesBack q id t.claim)
    (hstack : p.control.holdings = .called q id t.claim :: k.holdings)
    (hturns : p.control.turns = k.turns)
    (hp : p.step = p.world.scriptReturned q id t base result k) : p.Deal := by
  refine .returns hends hstack ?_
  rw [hp, account, World.ledger_scriptReturned, hturns]
  rfl

theorem GivesBack.step_eq {claim : Claim} (h : p.GivesBack q id claim) :
    ∃ t base result k, t.claim = claim ∧
      (p.Sound → (Pending.cons (.script q id t base) k).Ready p.world) ∧
      p.step = p.world.scriptReturned q id t base result k := by
  obtain ⟨w, control⟩ := p
  obtain ⟨t, base, k, hclaim, ⟨result, rfl⟩ | rfl⟩ := h
  · exact ⟨t, base, result, k, hclaim, (·.ready), step_deliver w result (.script q id t base) k⟩
  · refine ⟨t, base, .ok (), k, hclaim, (·.ready), ?_⟩
    rw [step_unwind, Activation.unwind, if_pos rfl]

/-- The turn of a script ends with its call. -/
theorem Sound.completes_of_givesBack {claim : Claim} (h : p.Sound) (hends : p.GivesBack q id claim) :
    p.step.Completes q id := by
  obtain ⟨t, base, result, k, _, hready, hstep⟩ := hends.step_eq
  have hhead := (hready h).fits.1
  cases k with
  | cons f k =>
    cases f with
    | turn q' id' walk =>
      obtain ⟨rfl, rfl⟩ := Prod.mk.inj (Option.some.inj hhead)
      exact ⟨walk, k, by rw [hstep]; rfl⟩

theorem deal_remove {name : String} {Q : Queue} {k : Pending .reply} (hQ : w.queue? q = some Q)
    (h : Sound ⟨w, .perform (.queue q (.remove name)) k⟩) :
    Deal ⟨w, .perform (.queue q (.remove name)) k⟩ := by
  have hstep : step ⟨w, .perform (.queue q (.remove name)) k⟩ = w.removeTask q Q (w.resolve name) k := by
    change w.perform (.queue q (.remove name)) k = _
    rw [World.perform, hQ]
    rfl
  unfold World.removeTask at hstep
  split at hstep
  · exact .quiet (by rw [hstep]; rfl)
  · next task left taken =>
    split at hstep
    · next hcurrent =>
      obtain ⟨hclaim, hledger⟩ := World.ledger_unlink hQ taken rfl
        { left with held := some task } rfl
      refine .parks (h.ready.marks hQ hcurrent fun haborted => by cases haborted) ?_
      rw [hstep, hclaim, account, World.deliver, hledger]
      rfl
    · next hcurrent =>
      obtain ⟨hclaim, hledger⟩ := World.ledger_unlink hQ taken rfl left rfl
      have hheld : left.held.bind Task.claim? = (w.ledger.setClaim (q, w.resolve name) none).held q := by
        obtain ⟨_, _, rfl⟩ := Queue.unlink?_eq_some taken
        exact (World.held_ledger hQ).symm
      refine @Deal.removes _ q (w.resolve name) ?_ ?_ ?_
      · exact ⟨_, k, rfl, ⟨task, World.task?_eq_some.2 ⟨Q, hQ, Queue.get?_of_unlink? taken⟩⟩, name,
          rfl, rfl⟩
      · exact fun hm => hcurrent ((h.ready.running hm).current hQ)
      · rw [hstep, account_destroy, hledger, hheld, Ledger.setHeld_eq_self, hclaim]
        rfl

theorem deal_of_ledger {action : Action} {k : Pending .reply} (hrun : action.run? = none)
    (hledger : (w.perform action k).world.ledger = w.ledger) : Deal ⟨w, .perform action k⟩ :=
  deal_of_over (w.within_perform hrun k).stack hledger rfl

theorem deal_engine {E : Engine} {action : EngineAction Action} {k : Pending .reply}
    (hE : w.engine? e = some E) : Deal ⟨w, .perform (.engine e action) k⟩ := by
  have hperform : w.perform (.engine e action) k = w.performOnEngine e E action k := by
    rw [World.perform, hE]
  have hrun : (Action.engine e action).run? = none := rfl
  have hover := (w.within_perform hrun k).stack
  cases hhandles : action.handlesKeys with
  | false =>
    refine deal_of_ledger hrun ?_
    rw [hperform]
    exact World.ledger_performOnEngine hE hhandles k
  | true =>
    cases action with
    | reference =>
      simp only [World.performOnEngine] at hperform
      split at hperform
      · exact deal_of_ledger hrun (by rw [hperform]; rfl)
      · next key E' _ =>
        refine @Deal.tends _ e .reference (E'.machine?.map (·.registry)) rfl rfl ?_
        rw [step, account_of_over hover, hperform, World.deliver, World.ledger_setEngine hE]
        rfl
    | unreference key =>
      refine @Deal.tends _ e (.unreference key) ((E.unreference key).machine?.map (·.registry)) rfl
        rfl ?_
      rw [step, account_of_over hover, hperform, World.performOnEngine, World.deliver,
        World.ledger_setEngine hE]
      rfl
    | _ => cases hhandles

theorem deal_queue {Q : Queue} {action : QueueAction Action} {k : Pending .reply}
    (hQ : w.queue? q = some Q) (hrun : (Action.queue q action).run? = none)
    (h : Sound ⟨w, .perform (.queue q action) k⟩) : Deal ⟨w, .perform (.queue q action) k⟩ := by
  have hperform : w.perform (.queue q action) k = w.performOnQueue q Q action k := by
    rw [World.perform, hQ]
  have hover := (w.within_perform hrun k).stack
  have hquiet : (w.performOnQueue q Q action k).world.ledger = w.ledger →
      Deal ⟨w, .perform (.queue q action) k⟩ :=
    fun hledger => deal_of_ledger hrun (by rw [hperform, hledger])
  cases action with
  | idle | timer => exact hquiet (World.ledger_start h.queues q _ rfl k)
  | interruptAll name actions onDrop =>
    exact hquiet ((World.ledger_named _ name q _).trans (World.ledger_interruptAll h.queues q _))
  | parseAndStart name e source =>
    simp only [World.performOnQueue] at hperform hquiet
    split at hperform
    · next error w' hparse =>
      exact hquiet (by rw [hparse]; exact World.ledger_parseAndStart_error hparse)
    · next id w' hparse =>
      obtain ⟨hfresh, key, value, hkey, hledger⟩ := World.ledger_parseAndStart h.queues hQ hparse
      refine @Deal.parses _ q id name e key source value rfl hfresh
        (fun registry hregistry => ?_) ?_
      · obtain ⟨hkey, program, hvalue, hread⟩ := hkey registry hregistry
        exact ⟨hkey, Q, program, hQ, hvalue, hread⟩
      · rw [step, account_of_over hover, hperform, World.deliver, World.ledger_named, hledger]
        rfl
  | startScript name e key release =>
    obtain ⟨hfresh, hpush⟩ := World.ledger_push h.queues hQ (.script { engine := e, key, release })
    refine .starts rfl hfresh ?_
    rw [step, account_of_over hover, hperform]
    exact congrArg (Account.mk · _ _) ((World.ledger_named _ name q _).trans hpush)
  | interrupt name => exact hquiet (World.ledger_interruptOne w q Q _ k)
  | remove name => exact deal_remove hQ h
  | contains | kind | count | isEmpty | ids | current | stats | config | now | describe
  | messages | tagged => exact hquiet rfl
  | stop | clearMessages => exact hquiet (World.ledger_setQueue_of_eq hQ (fun _ => rfl) rfl)
  | notify tag text => exact hquiet (World.ledger_notify w q tag text)
  | runPass | runOnce | runForever => cases hrun

theorem deal_perform {action : Action} {k : Pending .reply} (h : Sound ⟨w, .perform action k⟩) :
    Deal ⟨w, .perform action k⟩ := by
  cases hrun : action.run? with
  | some q => exact deal_walks h (World.walks_perform hrun w k) rfl rfl
  | none =>
    cases action with
    | advance ms => exact deal_of_ledger hrun (by rw [World.perform]; exact w.ledger_advance ms)
    | setClock ms => exact deal_of_ledger hrun (by rw [World.perform]; exact w.ledger_setClock ms)
    | unwind | alive => exact deal_of_ledger hrun rfl
    | engine e action =>
      cases hE : w.engine? e with
      | none => exact deal_of_ledger hrun (by rw [World.perform, hE]; rfl)
      | some E => exact deal_engine hE
    | queue q action =>
      cases hQ : w.queue? q with
      | none => exact deal_of_ledger hrun (by rw [World.perform, hQ]; rfl)
      | some Q => exact deal_queue hQ hrun h

theorem account_destroyCallback (w : World) (name : String) (onDrop : Option (List Action))
    (k : Pending .done) :
    (w.destroyCallback name onDrop k).account = ⟨w.ledger, k.holdings, k.turns⟩ := by
  rw [account_of_over World.over_destroyCallback, World.ledger_destroyCallback]

theorem deal_deliver {f : Activation a b} {k : Pending b} {result : a.Result}
    (h : Sound ⟨w, .deliver result (.cons f k)⟩) : Deal ⟨w, .deliver result (.cons f k)⟩ := by
  have hstep := step_deliver w result f k
  have hplain : f.Plain → Deal ⟨w, .deliver result (.cons f k)⟩ := fun hf => by
    refine deal_of_over (hstep ▸ hf.over result k) (by rw [hstep]; exact hf.ledger result w k) ?_
    rw [account, Control.holdings, Control.turns, (Pending.Over.cons hf .refl).holdings,
      Pending.turns_cons hf.turn?]
  cases f with
  | routine | unheeded | callReply | doneReply | machine | counted | host | pacer | triggered =>
    exact hplain trivial
  | idle | rested | passReply | runReply | cleanup => exact .quiet (by rw [hstep]; rfl)
  | firing q id =>
    obtain ⟨w', verdict, hfired, _⟩ := w.timerFired_eq q id k
    have hledger := w.ledger_timerFired q id k
    refine .quiet ?_
    rw [hfired] at hledger
    rw [hstep, Activation.resume, hfired, account, hledger]
    rfl
  | quiet name onDrop =>
    exact .quiet (by rw [hstep, Activation.resume, account_destroyCallback]; rfl)
  | script q id t base =>
    exact deal_scriptReturned ⟨t, base, k, rfl, .inl ⟨result, rfl⟩⟩ rfl rfl hstep
  | turn q id walk =>
    have hturn : (q, id) ∈ (Pending.cons (.turn q id walk) k).turns := List.mem_cons_self ..
    obtain ⟨Q, hQ, _, _⟩ := h.ready.running hturn
    have haccount := (congrArg account hstep).trans (account_endTurn hQ id walk result k)
    split at haccount
    · exact @Deal.completes _ q id k.turns rfl haccount
    · exact @Deal.leaves _ q id k.turns rfl haccount
  | walk q next walk => exact deal_walks h (w.walks_walkOn q next walk k (.inl trivial)) hstep rfl
  | drain q => exact deal_walks h (World.walks_drainOn w q k) hstep rfl
  | forever q =>
    cases result with
    | stopped => exact .quiet (by rw [hstep]; rfl)
    | drained => exact deal_walks h (World.walks_startRun w q (.cons (.forever q) k)) hstep rfl
  | sweep rest =>
    cases rest with
    | nil => exact .quiet (by rw [hstep]; rfl)
    | cons task rest =>
      have haccount := (congrArg account hstep).trans (account_destroy w task (.cons (.sweep rest) k))
      cases task with
      | script t => exact .sweeps ⟨t, rest, k, rfl, rfl⟩ rfl haccount
      | idle | timer | watcher => exact .quiet haccount

theorem deal_unwind {f : Activation a b} {k : Pending b} {payload : Payload}
    (h : Sound ⟨w, .unwind payload (.cons f k)⟩) : Deal ⟨w, .unwind payload (.cons f k)⟩ := by
  have hstep := step_unwind w payload f k
  cases f with
  | quiet name onDrop =>
    exact .quiet (by rw [hstep, Activation.unwind, account_destroyCallback]; rfl)
  | script q id t base =>
    rw [Activation.unwind] at hstep
    split at hstep
    · next hown =>
      exact deal_scriptReturned ⟨t, base, k, rfl, .inr (by rw [hown])⟩ rfl rfl hstep
    · next hforeign =>
      exact .forsakes ⟨payload, t, base, k, rfl, rfl, hforeign⟩ rfl (by rw [hstep]; rfl)
  | turn q id walk =>
    have hturn : (q, id) ∈ (Pending.cons (.turn q id walk) k).turns := List.mem_cons_self ..
    obtain ⟨Q, hQ, _, _⟩ := h.ready.running hturn
    exact @Deal.leaves _ q id k.turns rfl
      ((congrArg account hstep).trans (account_abandonTurn hQ payload k))
  | machine e call | counted e call op | host e call name turn =>
    have hledger := World.ledger_modifyMachine (f := ({ · with allocated := call.mark }))
      (fun _ => rfl) w e
    refine .quiet ?_
    rw [hstep, account]
    exact congrArg (Account.mk · _ _) hledger
  | cleanup => exact .aborts (by rw [hstep]; rfl) (by rw [hstep]; rfl)
  | _ => exact .quiet (by rw [hstep]; rfl)

theorem Sound.deal (h : p.Sound) : p.Deal := by
  obtain ⟨w, control⟩ := p
  cases control with
  | perform action k => exact deal_perform h
  | deliver result k =>
    cases k with
    | outermost => exact .quiet rfl
    | cons f k => exact deal_deliver h
  | unwind payload k =>
    cases k with
    | outermost => exact .quiet rfl
    | cons f k => exact deal_unwind h
  | answered | escaped | aborted => exact .quiet rfl

end Process

end TaskLoop
