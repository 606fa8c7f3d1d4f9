import TaskLoop.Proofs.Account
import TaskLoop.Proofs.Watchers

namespace TaskLoop

variable {a b c : Hole} {w : World} {q e key : Nat} {id : TaskId} {p : Process} {s : Course}
  {i j : Nat} {claim : Claim}

namespace Process

def LetsGo (p : Process) : Holding → Prop
  | .called q id claim => p.GivesBack q id claim ∨ p.Forsakes q id claim
  | .doomed claim => p.Discards claim

/-- What the stack holds it goes on to hold until it lets go of it. -/
theorem Deal.mem_holdings {holding : Holding} (h : p.Deal) (hm : holding ∈ p.control.holdings) :
    holding ∈ p.step.control.holdings ∨ p.LetsGo holding ∨ p.step.control = .aborted := by
  have hsame : p.step.control.holdings = p.control.holdings →
      holding ∈ p.step.control.holdings ∨ p.LetsGo holding ∨ p.step.control = .aborted :=
    fun heq => .inl (heq ▸ hm)
  cases h with
  | quiet account | enters _ account | starts _ _ account | parses _ _ _ account
  | removes _ _ account | parks _ account | completes _ account | leaves _ account
  | tends _ _ account => exact hsame (holdings_eq account)
  | calls _ account =>
    left
    rw [Process.holdings_eq account]
    exact List.mem_cons_of_mem _ hm
  | returns ends holdings account =>
    obtain rfl | hm := List.mem_cons.1 (holdings ▸ hm)
    · exact .inr (.inl (.inl ends))
    · left
      rwa [Process.holdings_eq account]
  | forsakes forsakes holdings account =>
    obtain rfl | hm := List.mem_cons.1 (holdings ▸ hm)
    · exact .inr (.inl (.inr forsakes))
    · left
      rwa [Process.holdings_eq account]
  | sweeps discards holdings account =>
    obtain rfl | hm := List.mem_cons.1 (holdings ▸ hm)
    · exact .inr (.inl discards)
    · left
      rwa [Process.holdings_eq account]
  | aborts _ aborted => exact .inr (.inr aborted)

def Opens (p : Process) (q : Nat) (id : TaskId) (claim : Claim) : Prop :=
  p.world.Fresh q id ∧ claim.ran = false ∧
    ((∃ name, p.control.action? =
      some (.queue q (.startScript name claim.engine claim.key claim.release))) ∨
    ∃ name source, p.control.action? = some (.queue q (.parseAndStart name claim.engine source)) ∧
      ∀ registry, p.world.ledger.registry claim.engine = some registry →
        ∃ Q program, p.world.queue? q = some Q ∧
          Machine.readSource Q.config.chunkName source = .ok program ∧
          p.step.world.ledger.registry claim.engine =
            some (registry.insert (.callable program)).2 ∧
          claim.key = (registry.insert (.callable program)).1)

def Calls (p : Process) (q : Nat) (id : TaskId) : Prop :=
  p.Begins q id ∧ ∃ t, p.world.task? q id = some (.script t)

theorem Calls.step_eq (h : p.Calls q id) : ∃ t, ∃ w : World, ∃ base k,
    p.world.task? q id = some (.script t) ∧
      w.ledger = p.world.ledger.setClaim (q, id) (some { t.claim with ran := true }) ∧
      p.step = w.callProtected t.engine t.key .traceback
        (.cons (.script q id { t with ran := true } base) k) := by
  obtain ⟨hbegins, t, ht⟩ := h
  have henters := hbegins.enters
  generalize p.step = p' at henters ⊢
  cases henters with
  | @intro task walk k queued _ =>
    obtain rfl := Option.some.inj (ht.symm.trans queued)
    refine ⟨t, _, _, _, ht, ?_, rfl⟩
    have hledger := World.ledger_stepScript (w := p.world.modifyQueue q (·.enter id))
      (World.task?_enter.trans queued) (.cons (.turn q id walk) k)
    rw [World.ledger_enter, World.stepScript, World.ledger_callProtected] at hledger
    exact hledger

theorem Calls.claimed (h : p.Calls q id) : ∃ claim, p.world.ledger.claims (q, id) = some claim := by
  obtain ⟨_, t, ht⟩ := h
  exact ⟨t.claim, World.claims_ledger_of_task? ht⟩

/-- What the next transition does to the claims of the queued scripts. -/
inductive Restates (p : Process) : Prop
  | same (claims : p.step.world.ledger.claims = p.world.ledger.claims)
  | calls {q : Nat} {id : TaskId} {claim : Claim}
      (claimed : p.world.ledger.claims (q, id) = some claim) (calls : p.Calls q id)
      (called : .called q id { claim with ran := true } ∈ p.step.control.holdings)
      (claims : p.step.world.ledger.claims =
        Function.update p.world.ledger.claims (q, id) (some { claim with ran := true }))
  | opens {q : Nat} {id : TaskId} {claim : Claim} (opens : p.Opens q id claim)
      (claims : p.step.world.ledger.claims =
        Function.update p.world.ledger.claims (q, id) (some claim))
  | leaves {q : Nat} {id : TaskId}
      (leaves : p.Removes q id ∧ (q, id) ∉ p.control.turns ∨ (q, id) ∈ p.control.turns)
      (claims : p.step.world.ledger.claims = Function.update p.world.ledger.claims (q, id) none)

theorem Deal.restates (h : p.Deal) : p.Restates := by
  cases h with
  | quiet account | enters _ account | forsakes _ _ account =>
    exact .same (congrArg Ledger.claims (ledger_eq account))
  | tends _ _ account | returns _ _ account | leaves _ account | sweeps _ _ account =>
    exact .same ((congrArg Ledger.claims (ledger_eq account)).trans (by simp))
  | aborts ledger => exact .same (congrArg Ledger.claims ledger)
  | calls claimed account =>
    obtain ⟨t, ht, _⟩ := World.task?_of_claims claimed
    refine .calls claimed ⟨turns_eq account, t, ht⟩ ?_ (congrArg Ledger.claims (ledger_eq account))
    rw [holdings_eq account]
    exact List.mem_cons_self ..
  | @starts _ _ name _ _ _ action fresh account =>
    exact .opens ⟨fresh, rfl, .inl ⟨name, action⟩⟩ (congrArg Ledger.claims (ledger_eq account))
  | @parses _ _ name _ _ source _ action fresh kept account =>
    refine .opens ⟨fresh, rfl, .inr ⟨name, source, action, fun registry hregistry => ?_⟩⟩
      (congrArg Ledger.claims (ledger_eq account))
    obtain ⟨hkey, Q, program, hQ, rfl, hread⟩ := kept registry hregistry
    refine ⟨Q, program, hQ, hread, ?_, hkey⟩
    rw [ledger_eq account]
    simp [Ledger.keep, hregistry]
  | removes removes idle account =>
    exact .leaves (.inl ⟨removes, idle⟩)
      ((congrArg Ledger.claims (ledger_eq account)).trans (Ledger.claims_discard ..))
  | parks running account =>
    exact .leaves (.inr running) (congrArg Ledger.claims (ledger_eq account))
  | completes turn account =>
    exact .leaves (.inr (turn ▸ List.mem_cons_self ..))
      ((congrArg Ledger.claims (ledger_eq account)).trans (Ledger.claims_discard ..))

theorem Restates.claims_origin (h : p.Restates)
    (hc : p.step.world.ledger.claims (q, id) = some claim) :
    p.world.ledger.claims (q, id) = some claim ∨
      (∃ claim', p.world.ledger.claims (q, id) = some claim' ∧ claim = { claim' with ran := true } ∧
        .called q id claim ∈ p.step.control.holdings) ∨
      p.Opens q id claim := by
  cases h with
  | same claims => exact .inl (by rwa [claims] at hc)
  | calls claimed _ called claims =>
    rw [claims, Function.update_apply] at hc
    split at hc
    · next hx =>
      cases hx
      cases hc
      exact .inr (.inl ⟨_, claimed, rfl, called⟩)
    · exact .inl hc
  | opens opens claims =>
    rw [claims, Function.update_apply] at hc
    split at hc
    · next hx =>
      cases hx
      cases hc
      exact .inr (.inr opens)
    · exact .inl hc
  | leaves _ claims =>
    rw [claims, Function.update_apply] at hc
    split at hc
    · cases hc
    · exact .inl hc

end Process

structure Account.Regular (A : Account) : Prop where
  running : ∀ x claim, x ∈ A.turns → A.ledger.claims x = some claim → claim.ran = true
  held : ∀ q claim, A.ledger.held q = some claim → claim.ran = true

namespace Process

theorem Sound.running_step (h : p.Sound) (hregular : p.account.Regular)
    (hm : (q, id) ∈ p.step.control.turns)
    (hc : p.step.world.ledger.claims (q, id) = some claim) : claim.ran = true := by
  obtain hm | hbegins := mem_turns_step hm
  · obtain hc | ⟨_, _, rfl, _⟩ | ⟨hfresh, _⟩ := h.deal.restates.claims_origin hc
    · exact hregular.running (q, id) claim hm hc
    · rfl
    · exact absurd (h.ready.running hm) hfresh.not_running
  · obtain ⟨task, ht⟩ := hbegins.enters.queued
    cases task with
    | script t =>
      obtain ⟨t', w, _, _, _, hledger, hstep⟩ := Calls.step_eq ⟨hbegins, t, ht⟩
      rw [hstep, World.ledger_callProtected, hledger, Ledger.claims_setClaim, if_pos rfl] at hc
      cases hc
      rfl
    | idle | timer | watcher =>
      have hnone : p.world.ledger.claims (q, id) = none := World.claims_ledger_of_task? ht
      obtain hc | ⟨_, hc, _⟩ | ⟨⟨Q, hQ, hunknown⟩, _⟩ := h.deal.restates.claims_origin hc
      · cases hnone.symm.trans hc
      · cases hnone.symm.trans hc
      · obtain ⟨Q', hQ', hg⟩ := World.task?_eq_some.1 ht
        obtain rfl := Option.some.inj (hQ.symm.trans hQ')
        exact absurd (Arena.known_of_get? hg) hunknown

theorem Sound.held_step (h : p.Sound) (hregular : p.account.Regular)
    (hc : p.step.world.ledger.held q = some claim) : claim.ran = true := by
  have hheld : p.world.ledger.held q = some claim → claim.ran = true := hregular.held q claim
  cases h.deal with
  | quiet account | enters _ account | calls _ account | starts _ _ account | parses _ _ _ account
  | forsakes _ _ account | tends _ _ account => exact hheld (by rwa [ledger_eq account] at hc)
  | returns _ _ account | removes _ _ account | sweeps _ _ account =>
    rw [ledger_eq account] at hc
    exact hheld (by simpa using hc)
  | aborts ledger => exact hheld (by rwa [ledger] at hc)
  | @parks q' id' running account =>
    rw [ledger_eq account, Ledger.held_setHeld] at hc
    split at hc
    · exact hregular.running (q', id') claim running hc
    · exact hheld hc
  | completes _ account | leaves _ account =>
    rw [ledger_eq account, Ledger.held_discard, Ledger.held_setHeld] at hc
    split at hc
    · cases hc
    · exact hheld hc

theorem Sound.regular_step (h : p.Sound) (hregular : p.account.Regular) : p.step.account.Regular :=
  ⟨fun _ _ => h.running_step hregular, fun _ _ => h.held_step hregular⟩

/-- A script that waits goes on to wait until its call is made or it is removed. -/
theorem Restates.claims_of_waiting (h : p.Restates) (hregular : p.account.Regular)
    (hc : p.world.ledger.claims (q, id) = some claim) (hran : claim.ran = false) :
    p.step.world.ledger.claims (q, id) = some claim ∨
      .called q id { claim with ran := true } ∈ p.step.control.holdings ∨
      p.Removes q id ∧ (q, id) ∉ p.control.turns := by
  cases h with
  | same claims => exact .inl (by rw [claims, hc])
  | @calls q' id' claim' claimed _ called claims =>
    by_cases hx : (q, id) = (q', id')
    · cases hx
      obtain rfl := Option.some.inj (claimed.symm.trans hc)
      exact .inr (.inl called)
    · exact .inl (by rw [claims, Function.update_of_ne hx, hc])
  | @opens q' id' _ opens claims =>
    have hx : (q, id) ≠ (q', id') := fun hx => by cases hx; cases opens.1.claims.symm.trans hc
    exact .inl (by rw [claims, Function.update_of_ne hx, hc])
  | @leaves q' id' leaves claims =>
    by_cases hx : (q, id) = (q', id')
    · cases hx
      obtain hremoves | hrunning := leaves
      · exact .inr (.inr hremoves)
      · cases hran.symm.trans (hregular.running (q, id) claim hrunning hc)
    · exact .inl (by rw [claims, Function.update_of_ne hx, hc])

theorem Completes.mem_turns (h : p.Completes q id) : (q, id) ∈ p.control.turns := by
  obtain ⟨walk, k, hp⟩ := h
  rw [hp]
  exact List.mem_cons_self ..

/-- A task that is done is no longer queued when its turn has ended. -/
theorem Sound.claims_of_completes (h : p.Sound) (hdone : p.Completes q id) :
    p.step.world.ledger.claims (q, id) = none := by
  obtain ⟨Q, hQ, _, _⟩ := h.ready.running hdone.mem_turns
  obtain ⟨walk, k, hp⟩ := hdone
  have hstep : p.step = p.world.endTurn q id walk .done k := by
    rw [hp]
    exact step_deliver p.world _ (.turn q id walk) k
  rw [ledger_eq ((congrArg account hstep).trans (account_endTurn hQ id walk .done k))]
  cases hg : Q.get? id with
  | none => simp [World.claims_ledger hQ, Queue.claim?, hg]
  | some task => simp

/-- A script whose call is in progress has its turn. -/
theorem Sound.mem_turns_of_called (h : p.Sound) (hm : .called q id claim ∈ p.control.holdings) :
    (q, id) ∈ p.control.turns := by
  have hscripts : ∀ {a : Hole} (k : Pending a), .called q id claim ∈ k.holdings →
      (q, id) ∈ k.scripts := by
    intro a k hm
    induction k with
    | outermost => cases hm
    | cons f k ih =>
      refine List.mem_append.2 ((List.mem_append.1 hm).imp (fun hf => ?_) ih)
      cases f with
      | script =>
        cases List.mem_singleton.1 hf
        exact List.mem_singleton.2 rfl
      | sweep =>
        obtain ⟨_, _, heq⟩ := List.mem_map.1 hf
        cases heq
      | _ => cases hf
  refine h.ready.scripts_subset ?_
  cases hc : p.control with
  | perform | deliver | unwind => exact hscripts _ (by rwa [hc] at hm)
  | answered | escaped | aborted => rw [hc] at hm; cases hm

/-- What comes on the stack is a script whose call is made. -/
theorem Deal.holdings_origin {holding : Holding} (h : p.Deal)
    (hm : holding ∈ p.step.control.holdings) :
    holding ∈ p.control.holdings ∨ ∃ q id claim, p.world.ledger.claims (q, id) = some claim ∧
      holding = .called q id { claim with ran := true } ∧ p.Calls q id := by
  cases h with
  | quiet account | enters _ account | starts _ _ account | parses _ _ _ account
  | removes _ _ account | parks _ account | completes _ account | leaves _ account
  | tends _ _ account =>
    left
    rwa [Process.holdings_eq account] at hm
  | @calls q id claim claimed account =>
    rw [Process.holdings_eq account] at hm
    obtain rfl | hm := List.mem_cons.1 hm
    · obtain ⟨t, ht, _⟩ := World.task?_of_claims claimed
      exact .inr ⟨q, id, claim, claimed, rfl, turns_eq account, t, ht⟩
    · exact .inl hm
  | returns _ holdings account | forsakes _ holdings account | sweeps _ holdings account =>
    rw [Process.holdings_eq account] at hm
    exact .inl (holdings ▸ List.mem_cons_of_mem _ hm)
  | aborts _ aborted =>
    rw [aborted] at hm
    cases hm

/-- Once its call has been made, the script is in it or about to leave its queue. -/
def Orderly (p : Process) (q : Nat) (id : TaskId) : Prop :=
  ∀ claim, p.world.ledger.claims (q, id) = some claim → claim.ran = true →
    .called q id claim ∈ p.control.holdings ∨ p.Completes q id

theorem Calls.orderly_step (h : p.Calls q id) : p.step.Orderly q id := by
  obtain ⟨t, w, base, k, ht, hledger, hstep⟩ := h.step_eq
  intro claim hc _
  rw [hstep, World.ledger_callProtected, hledger] at hc
  rw [Ledger.claims_setClaim, if_pos rfl] at hc
  cases hc
  left
  rw [hstep, World.over_callProtected.holdings]
  exact List.mem_cons_self ..

theorem Sound.orderly_step (h : p.Sound) (horderly : p.Orderly q id) :
    p.step.Orderly q id ∨
      (∃ claim, p.world.ledger.claims (q, id) = some claim ∧ p.Forsakes q id claim) ∨
      p.step.control = .aborted := by
  by_cases hexcept : (∃ claim, p.world.ledger.claims (q, id) = some claim ∧ p.Forsakes q id claim) ∨
      p.step.control = .aborted
  · exact .inr hexcept
  · obtain ⟨hforsakes, haborted⟩ := not_or.1 hexcept
    refine .inl fun claim hc hran => ?_
    obtain hc' | ⟨_, _, _, hcalled⟩ | ⟨_, hran', _⟩ := h.deal.restates.claims_origin hc
    · obtain hcalled | hdone := horderly claim hc' hran
      · obtain hm | (hends | hforsaken) | haborted' := h.deal.mem_holdings hcalled
        · exact .inl hm
        · exact .inr (h.completes_of_givesBack hends)
        · exact absurd ⟨claim, hc', hforsaken⟩ hforsakes
        · exact absurd haborted' haborted
      · cases (h.claims_of_completes hdone).symm.trans hc
    · exact .inl hcalled
    · cases hran.symm.trans hran'

/-- A script that is orderly is not called again. -/
theorem Sound.ran_of_calls (h : p.Sound) (horderly : p.Orderly q id) (hcalls : p.Calls q id)
    (hc : p.world.ledger.claims (q, id) = some claim) : claim.ran = false := by
  refine Bool.eq_false_iff.2 fun hran => ?_
  have hidle := h.not_mem_turns_of_begins hcalls.1 id
  obtain hcalled | hdone := horderly claim hc hran
  · exact hidle (h.mem_turns_of_called hcalled)
  · exact hidle hdone.mem_turns

end Process

theorem Control.ended_eq_false {control : Control} {holding : Holding}
    (h : holding ∈ control.holdings) : control.ended = false := by
  cases control with
  | answered | escaped => cases h
  | perform | deliver | unwind | aborted => rfl

theorem Control.ne_aborted_of_ended {control : Control} (h : control.ended = true) :
    control ≠ .aborted := by
  rintro rfl
  cases h

theorem Process.account_of_ended (h : p.control.ended = true) : p.account = ⟨p.world.ledger, [], []⟩ := by
  obtain ⟨w, control⟩ := p
  cases control with
  | answered | escaped => rfl
  | perform | deliver | unwind | aborted => cases h

theorem Process.holdings_of_ended (h : p.control.ended = true) : p.control.holdings = [] :=
  holdings_eq (account_of_ended h)

theorem Process.turns_of_ended (h : p.control.ended = true) : p.control.turns = [] :=
  turns_eq (account_of_ended h)

theorem World.ledger_begin_dropQueue (w : World) (q : Nat) :
    (w.begin (.dropQueue q)).world.ledger = w.ledger.drop q := by
  have hqueue : ∀ q', (w.begin (.dropQueue q)).world.queue? q' =
      if q' = q then none else w.queue? q' := by
    intro q'
    split
    · next he => rw [he, queue?_begin_dropQueue]
    · next hne =>
      obtain heq | ⟨heq, _⟩ := w.queue?_begin_eq (.dropQueue q) q'
      · exact heq
      · cases heq
        exact absurd rfl hne
  refine Ledger.ext (funext fun (q', id) => ?_) (funext fun q' => ?_) (funext fun e => ?_)
  · simp only [ledger, task?, Ledger.drop, hqueue]
    split <;> rfl
  · simp only [ledger, Ledger.drop, hqueue, Function.update_apply]
    split <;> rfl
  · simp only [begin, dropQueue]
    split <;> rfl

theorem World.account_begin (w : World) (command : Command) :
    (w.begin command).account = ⟨w.ledger, [], []⟩ ∨ ∃ q Q, command = .dropQueue q ∧
      w.queue? q = some Q ∧ (w.begin command).account =
        ⟨w.ledger.drop q, (Q.tasks.records.filterMap Task.claim?).map .doomed, []⟩ := by
  cases command with
  | act action => exact .inl rfl
  | dropQueue q =>
    have hlogged : ∀ o, w.queue? q = o → ({ w with log := [] } : World).queue? q = o := fun _ h => h
    cases hQ : w.queue? q with
    | none =>
      left
      simp only [begin, dropQueue, hlogged none hQ]
      rfl
    | some Q =>
      refine .inr ⟨q, Q, rfl, hQ, ?_⟩
      rw [Process.account, ledger_begin_dropQueue]
      simp only [begin, dropQueue, hlogged _ hQ]
      exact congrArg (Account.mk _ · _) (List.append_nil _)

inductive Course.Dealt (s : Course) (i : Nat) : Prop
  | deals (step : s (i + 1) = (s i).step) (deal : (s i).Deal)
  | rests (ended : (s i).control.ended = true) (account : (s (i + 1)).account = (s i).account)
  | drops {q : Nat} {Q : Queue} (drops : s.Drops i q) (queue : (s i).world.queue? q = some Q)
      (account : (s (i + 1)).account =
        ⟨(s i).world.ledger.drop q, (Q.tasks.records.filterMap Task.claim?).map .doomed, []⟩)

theorem Course.dealt (s : Course) (i : Nat) : s.Dealt i := by
  obtain hstep | ⟨hended, command, hbegin⟩ := s.step_or_begin i
  · exact .deals hstep (s.sound i).deal
  · obtain haccount | ⟨q, Q, rfl, hQ, haccount⟩ := (s i).world.account_begin command
    · exact .rests hended (by rw [hbegin, haccount, Process.account_of_ended hended])
    · exact .drops ⟨hended, hbegin⟩ hQ (by rw [hbegin, haccount])

theorem World.claims_make (start : UInt64) (queues : List QueueConfig) (engines : List EngineKind)
    (x : Nat × TaskId) : (make start queues engines).ledger.claims x = none := by
  obtain ⟨q, id⟩ := x
  cases hQ : (make start queues engines).queue? q with
  | none =>
    simp only [ledger, task?, hQ]
    rfl
  | some Q =>
    obtain ⟨config, rfl⟩ := queue?_make hQ
    rw [claims_ledger hQ, Queue.claim?, Queue.get?, Arena.get?_empty]
    rfl

theorem World.held_make (start : UInt64) (queues : List QueueConfig) (engines : List EngineKind)
    (q : Nat) : (make start queues engines).ledger.held q = none := by
  cases hQ : (make start queues engines).queue? q with
  | none =>
    simp only [ledger, hQ]
    rfl
  | some Q =>
    obtain ⟨config, rfl⟩ := queue?_make hQ
    rw [held_ledger hQ]
    rfl

namespace Course

theorem claims_zero (s : Course) (x : Nat × TaskId) : (s 0).world.ledger.claims x = none := by
  obtain ⟨start, queues, engines, h⟩ := s.starts
  rw [show s 0 = _ from h]
  exact World.claims_make start queues engines x

theorem regular (s : Course) (i : Nat) : (s i).account.Regular := by
  induction i with
  | zero =>
    obtain ⟨start, queues, engines, h⟩ := s.starts
    rw [show s 0 = _ from h]
    refine ⟨nofun, fun q claim hc => ?_⟩
    cases (World.held_make start queues engines q).symm.trans hc
  | succ i ih =>
    cases s.dealt i with
    | deals step => rw [step]; exact (s.sound i).regular_step ih
    | rests _ account => rw [account]; exact ih
    | drops _ _ account =>
      rw [account]
      refine ⟨nofun, fun q claim hc => ?_⟩
      rw [Ledger.held_drop] at hc
      split at hc
      · cases hc
      · exact ih.held q claim hc

def Dropping (s : Course) (d i q : Nat) : Prop :=
  s.Drops d q ∧ d < i ∧ ∀ l, d < l → l ≤ i → (s l).control.ended = false

/-- The script holds its key: it waits for its call, or the call is in progress, or its record is to
be destroyed with its queue. -/
inductive Outstanding (s : Course) (i q : Nat) (id : TaskId) (claim : Claim) : Prop
  | waiting (claimed : (s i).world.ledger.claims (q, id) = some claim)
  | called (called : .called q id { claim with ran := true } ∈ (s i).control.holdings)
  | doomed {d : Nat} (dropping : s.Dropping d i q)
      (claimed : (s d).world.ledger.claims (q, id) = some claim)
      (doomed : .doomed claim ∈ (s i).control.holdings)

/-- The script is settled: its call has ended, or it is removed before the call, or it is destroyed
with its queue. -/
def Settles (s : Course) (i q : Nat) (id : TaskId) (claim : Claim) : Prop :=
  (s i).GivesBack q id { claim with ran := true } ∨
    (s i).Removes q id ∧ (q, id) ∉ (s i).control.turns ∧
      (s i).world.ledger.claims (q, id) = some claim ∨
    (∃ d, s.Dropping d i q ∧ (s d).world.ledger.claims (q, id) = some claim) ∧ (s i).Discards claim

theorem Dropping.succ {d : Nat} (h : s.Dropping d i q) (hended : (s (i + 1)).control.ended = false) :
    s.Dropping d (i + 1) q := by
  refine ⟨h.1, by have := h.2.1; omega, fun l hdl hl => ?_⟩
  obtain hl | rfl := Nat.lt_or_eq_of_le hl
  · exact h.2.2 l hdl (by omega)
  · exact hended

/-- A script that holds its key goes on to hold it until it is settled, unless a payload leaves its
step. -/
theorem Outstanding.succ (h : s.Outstanding i q id claim) (hran : claim.ran = false) :
    s.Outstanding (i + 1) q id claim ∨ s.Settles i q id claim ∨
      (s i).Forsakes q id { claim with ran := true } ∨ (s (i + 1)).control = .aborted := by
  cases h with
  | waiting claimed =>
    cases s.dealt i with
    | deals step deal =>
      obtain hc | hcalled | ⟨hremoves, hidle⟩ :=
        deal.restates.claims_of_waiting (s.regular i) claimed hran
      · exact .inl (.waiting (by rw [step, hc]))
      · exact .inl (.called (by rw [step]; exact hcalled))
      · exact .inr (.inl (.inr (.inl ⟨hremoves, hidle, claimed⟩)))
    | rests _ account =>
      exact .inl (.waiting ((congrArg (·.ledger.claims (q, id)) account).trans claimed))
    | @drops q' Q drops queue account =>
      by_cases hq : q = q'
      · subst hq
        have hdoomed : Holding.doomed claim ∈ (s (i + 1)).control.holdings := by
          rw [Process.holdings_eq account]
          refine List.mem_map_of_mem (List.mem_filterMap.2 ?_)
          rw [World.claims_ledger queue] at claimed
          obtain ⟨task, hg, hclaim⟩ := Option.bind_eq_some_iff.1 claimed
          exact ⟨task, Arena.mem_records.2 ⟨id, hg⟩, hclaim⟩
        refine .inl (.doomed (d := i) ⟨drops, by omega, fun l hil hl => ?_⟩ claimed hdoomed)
        obtain rfl : l = i + 1 := by omega
        exact Control.ended_eq_false hdoomed
      · left
        refine .waiting ((congrArg (·.ledger.claims (q, id)) account).trans ?_)
        simp [hq, claimed]
  | called called =>
    have hstep := succ_eq_step (Control.ended_eq_false called)
    obtain hm | (hends | hforsakes) | haborted := (s.sound i).deal.mem_holdings called
    · exact .inl (.called (by rw [hstep]; exact hm))
    · exact .inr (.inl (.inl hends))
    · exact .inr (.inr (.inl hforsakes))
    · exact .inr (.inr (.inr (by rw [hstep, haborted])))
  | doomed dropping claimed doomed =>
    have hstep := succ_eq_step (Control.ended_eq_false doomed)
    obtain hm | hdiscards | haborted := (s.sound i).deal.mem_holdings doomed
    · rw [← hstep] at hm
      exact .inl (.doomed (dropping.succ (Control.ended_eq_false hm)) claimed hm)
    · exact .inr (.inl (.inr (.inr ⟨⟨_, dropping, claimed⟩, hdiscards⟩)))
    · exact .inr (.inr (.inr (by rw [hstep, haborted])))

theorem aborted_of_le (h : (s i).control = .aborted) (hij : i ≤ j) : (s j).control = .aborted := by
  induction hij with
  | refl => exact h
  | step _ ih =>
    rw [succ_eq_step (by rw [ih]; rfl), Process.step_of_isOver (by rw [Process.isOver, ih]), ih]

theorem alive_of_le (h : (s j).control ≠ .aborted) (hij : i ≤ j) : (s i).control ≠ .aborted :=
  fun haborted => h (aborted_of_le haborted hij)

theorem not_fresh (h : (s i).world.ledger.claims (q, id) = some claim) (hij : i ≤ j) :
    ¬ (s j).world.Fresh q id := by
  rintro ⟨Q', hQ', hunknown⟩
  obtain ⟨Q, hQ, hmoves⟩ := moves hij hQ'
  rw [World.claims_ledger hQ] at h
  obtain ⟨task, hg, _⟩ := Option.bind_eq_some_iff.1 h
  exact hunknown (hmoves.known ((s.sound i).queues q Q hQ) (Arena.known_of_get? hg))

/-- What a queued script claims was claimed before, or it is queued now. -/
theorem claims_origin (hc : (s (i + 1)).world.ledger.claims (q, id) = some claim) :
    (s i).world.ledger.claims (q, id) = some claim ∨
      (∃ claim', (s i).world.ledger.claims (q, id) = some claim' ∧
        claim = { claim' with ran := true } ∧ .called q id claim ∈ (s (i + 1)).control.holdings) ∨
      (s i).Opens q id claim := by
  cases s.dealt i with
  | deals step deal => rw [step] at hc ⊢; exact deal.restates.claims_origin hc
  | rests _ account =>
    exact .inl ((congrArg (·.ledger.claims (q, id)) account).symm.trans hc)
  | drops _ _ account =>
    left
    rw [Process.ledger_eq account,
      Ledger.claims_drop] at hc
    split at hc
    · cases hc
    · exact hc

/-- What a script claims stays the same, but for the mark that its call has been made. -/
theorem claims_of_le {claim' : Claim} (h : (s i).world.ledger.claims (q, id) = some claim)
    (hij : i ≤ j) (h' : (s j).world.ledger.claims (q, id) = some claim') :
    claim' = claim ∨ claim' = { claim with ran := true } := by
  induction hij generalizing claim' with
  | refl => exact .inl (Option.some.inj (h'.symm.trans h))
  | @step j hij ih =>
    obtain hc | ⟨claim₁, hc, rfl, _⟩ | ⟨hfresh, _⟩ := claims_origin h'
    · exact ih hc
    · obtain rfl | rfl := ih hc
      · exact .inr rfl
      · exact .inr rfl
    · exact absurd hfresh (not_fresh h hij)

theorem orderly_succ (h : (s i).Orderly q id) :
    (s (i + 1)).Orderly q id ∨
      (∃ claim, (s i).world.ledger.claims (q, id) = some claim ∧ (s i).Forsakes q id claim) ∨
      (s (i + 1)).control = .aborted := by
  cases hended : (s i).control.ended with
  | false =>
    rw [succ_eq_step hended]
    exact (s.sound i).orderly_step h
  | true =>
    -- with nothing on the stack, no script that is queued has been called
    refine .inl fun claim hc hran => ?_
    have hidle : ∀ {x}, x ∉ (s i).control.turns := fun {x} hm => by
      rw [Process.turns_of_ended hended] at hm
      cases hm
    obtain hc | ⟨_, _, _, hcalled⟩ | ⟨_, hran', _⟩ := claims_origin hc
    · obtain hcalled | hdone := h claim hc hran
      · exact absurd ((s.sound i).mem_turns_of_called hcalled) hidle
      · exact absurd hdone.mem_turns hidle
    · exact .inl hcalled
    · cases hran.symm.trans hran'

theorem orderly_of_le (h : (s i).Orderly q id) (hij : i ≤ j) :
    (s j).Orderly q id ∨
      (∃ l, i ≤ l ∧ l < j ∧ ∃ claim, (s l).world.ledger.claims (q, id) = some claim ∧
        (s l).Forsakes q id claim) ∨
      (s j).control = .aborted := by
  induction hij with
  | refl => exact .inl h
  | @step j hij ih =>
    obtain horderly | ⟨l, hil, hlj, hforsakes⟩ | haborted := ih
    · obtain hnext | hforsakes | haborted := orderly_succ horderly
      · exact .inl hnext
      · exact .inr (.inl ⟨j, hij, Nat.lt_succ_self j, hforsakes⟩)
      · exact .inr (.inr haborted)
    · exact .inr (.inl ⟨l, hil, Nat.lt_succ_of_lt hlj, hforsakes⟩)
    · exact .inr (.inr (aborted_of_le haborted (Nat.le_succ j)))

theorem succ_of_calls (h : (s i).Calls q id) : s (i + 1) = (s i).step := by
  refine (s.step_or_begin i).resolve_right fun ⟨hended, _⟩ => ?_
  have hbegins := h.1
  rw [Process.Begins, Process.step_of_ended hended] at hbegins
  exact absurd (congrArg List.length hbegins) (by simp)

/-- A script is called again only after a payload has left its step. -/
theorem forsaken_of_calls (hi : (s i).Calls q id) (hj : (s j).Calls q id) (hij : i < j) :
    ∃ l, i < l ∧ l < j ∧ ∃ claim, (s l).world.ledger.claims (q, id) = some claim ∧
      (s l).Forsakes q id claim := by
  have hstep := succ_of_calls hi
  have horderly : (s (i + 1)).Orderly q id := by rw [hstep]; exact hi.orderly_step
  obtain horderly | hforsakes | haborted := orderly_of_le horderly (Nat.succ_le_of_lt hij)
  · obtain ⟨t, w, _, _, _, hledger, hcall⟩ := hi.step_eq
    obtain ⟨claim, hclaim⟩ := hj.claimed
    have hcalled : (s (i + 1)).world.ledger.claims (q, id) = some { t.claim with ran := true } := by
      rw [hstep, hcall, World.ledger_callProtected, hledger, Ledger.claims_setClaim, if_pos rfl]
    have hran : claim.ran = true := by
      obtain rfl | rfl := claims_of_le hcalled (Nat.succ_le_of_lt hij) hclaim
      · rfl
      · rfl
    cases hran.symm.trans ((s.sound j).ran_of_calls horderly hj hclaim)
  · exact hforsakes
  · exact absurd haborted hj.1.ne_aborted

/-- From when it is queued on, a script holds its key until it is settled, unless a payload leaves its
step. -/
theorem Outstanding.of_le (h : s.Outstanding i q id claim) (hran : claim.ran = false) (hij : i ≤ j) :
    s.Outstanding j q id claim ∨ (∃ m, i ≤ m ∧ m < j ∧ s.Settles m q id claim) ∨
      (∃ l, i ≤ l ∧ l < j ∧ (s l).Forsakes q id { claim with ran := true }) ∨
      (s j).control = .aborted := by
  induction hij with
  | refl => exact .inl h
  | @step j hij ih =>
    obtain hout | ⟨m, him, hmj, hsettles⟩ | ⟨l, hil, hlj, hforsakes⟩ | haborted := ih
    · obtain hout | hsettles | hforsakes | haborted := hout.succ hran
      · exact .inl hout
      · exact .inr (.inl ⟨j, hij, Nat.lt_succ_self j, hsettles⟩)
      · exact .inr (.inr (.inl ⟨j, hij, Nat.lt_succ_self j, hforsakes⟩))
      · exact .inr (.inr (.inr haborted))
    · exact .inr (.inl ⟨m, him, Nat.lt_succ_of_lt hmj, hsettles⟩)
    · exact .inr (.inr (.inl ⟨l, hil, Nat.lt_succ_of_lt hlj, hforsakes⟩))
    · exact .inr (.inr (.inr (aborted_of_le haborted (Nat.le_succ j))))

/-- A script that holds its key held it before, unless it has just been queued. -/
theorem Outstanding.pred (h : s.Outstanding (i + 1) q id claim) (hran : claim.ran = false)
    (hopened : ¬ (s i).Opens q id claim)
    (horderly : ∀ claim', (s i).world.ledger.claims (q, id) = some claim' →
      claim'.engine = claim.engine → (s i).Orderly q id) :
    s.Outstanding i q id claim := by
  cases h with
  | waiting claimed =>
    obtain hc | ⟨claim', _, rfl, _⟩ | hopens := claims_origin claimed
    · exact .waiting hc
    · cases hran
    · exact absurd hopens hopened
  | called called =>
    cases s.dealt i with
    | deals step deal =>
      rw [step] at called
      obtain hm | ⟨_, _, claim', hc, heq, hcalls⟩ := deal.holdings_origin called
      · exact .called hm
      · obtain ⟨rfl, rfl, hclaim⟩ := Holding.called.inj heq
        obtain ⟨hengine, hkey, hrelease, _⟩ := Claim.mk.inj hclaim
        have hran' := (s.sound i).ran_of_calls (horderly claim' hc hengine.symm) hcalls hc
        obtain rfl : claim' = claim :=
          Claim.ext hengine.symm hkey.symm hrelease.symm (hran'.trans hran.symm)
        exact .waiting hc
    | rests _ account =>
      rw [Process.holdings_eq account] at called
      exact .called called
    | drops _ _ account =>
      rw [Process.holdings_eq account] at called
      obtain ⟨_, _, heq⟩ := List.mem_map.1 called
      cases heq
  | @doomed d dropping claimed doomed =>
    obtain ⟨hdrops, hd, hended⟩ := dropping
    obtain hd | rfl := Nat.lt_or_eq_of_le (Nat.le_of_lt_succ hd)
    · rw [succ_eq_step (hended i hd (Nat.le_succ i))] at doomed
      obtain hm | ⟨_, _, _, _, heq, _⟩ := (s.sound i).deal.holdings_origin doomed
      · exact .doomed ⟨hdrops, hd, fun l hdl hl => hended l hdl (Nat.le_succ_of_le hl)⟩ claimed hm
      · cases heq
    · exact .waiting claimed

theorem Settles.outstanding (h : s.Settles i q id claim) : s.Outstanding i q id claim := by
  obtain ⟨t, base, k, hclaim, hcontrol⟩ | ⟨_, _, hc⟩ | ⟨⟨d, hdropping, hc⟩, hdiscards⟩ := h
  · refine .called ?_
    obtain ⟨result, hcontrol⟩ | hcontrol := hcontrol
    · rw [hcontrol, ← hclaim]
      exact List.mem_cons_self ..
    · rw [hcontrol, ← hclaim]
      exact List.mem_cons_self ..
  · exact .waiting hc
  · obtain ⟨t, rest, k, rfl, hcontrol⟩ := hdiscards
    refine .doomed hdropping hc ?_
    rw [hcontrol]
    exact List.mem_cons_self ..

end Course

end TaskLoop
