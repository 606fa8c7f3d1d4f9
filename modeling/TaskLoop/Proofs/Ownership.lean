import Mathlib
import TaskLoop.Proofs.OneCall

namespace TaskLoop

def Claim.key? (e : Nat) (claim : Claim) : Option Nat :=
  if claim.engine = e ∧ claim.ran = false then some claim.key else none

namespace Holding

def claim : Holding → Claim
  | called _ _ claim => claim
  | doomed claim => claim

def key? (e : Nat) : Holding → Option Nat
  | called _ _ claim => if claim.engine = e then some claim.key else none
  | doomed claim => claim.key? e

end Holding

variable {w : World} {q e key : Nat} {id : TaskId} {x : Nat × TaskId} {p : Process} {s : Course}
  {i j : Nat} {claim : Claim} {t : ScriptTask} {L L' : Ledger} {holding : Holding}
  {holdings : List Holding}

namespace Ledger

def waiting (L : Ledger) (e : Nat) (x : Nat × TaskId) : Option Nat :=
  (L.claims x).bind (Claim.key? e)

theorem waiting_congr (h : L'.claims = L.claims) : L'.waiting e = L.waiting e := by
  funext x
  rw [waiting, waiting, h]

theorem waiting_setClaim (L : Ledger) (e : Nat) (x : Nat × TaskId) (claim : Option Claim) :
    (L.setClaim x claim).waiting e =
      Function.update (L.waiting e) x (claim.bind (Claim.key? e)) := by
  funext y
  simp only [waiting, claims_setClaim, Function.update_apply]
  split <;> rfl

theorem waiting_drop (L : Ledger) (e q : Nat) :
    (L.drop q).waiting e = fun x => if x.1 = q then none else L.waiting e x := by
  funext x
  rw [waiting, claims_drop]
  split <;> rfl

theorem waiting_eq_none (h : ∀ claim, L.claims x = some claim → claim.ran = true) :
    L.waiting e x = none := by
  rw [waiting]
  cases hc : L.claims x with
  | none => rfl
  | some claim => simp [Claim.key?, h claim hc]

/-- The keys of an engine that hold something are shared out among the scripts that wait and those on
the stack, and all of them will release their keys. -/
structure Balanced (L : Ledger) (holdings : List Holding) (e : Nat) : Prop where
  tally : ∀ r, L.registry e = some r →
    r.Tally (holdings.filterMap (Holding.key? e)) (L.waiting e)
  claims : ∀ x claim, L.claims x = some claim → claim.engine = e → claim.release = true
  holdings : ∀ holding ∈ holdings, holding.claim.engine = e → holding.claim.release = true

namespace Balanced

theorem of_eq (h : L.Balanced holdings e) (hregistry : L'.registry e = L.registry e)
    (hclaims : L'.claims = L.claims) : L'.Balanced holdings e := by
  refine ⟨fun r hr => ?_, fun x claim hc => h.claims x claim (by rwa [hclaims] at hc), h.holdings⟩
  rw [waiting_congr hclaims]
  exact h.tally r (by rwa [hregistry] at hr)

/-- A script that is not counted among those who wait is entered or taken out. -/
theorem setClaim (h : L.Balanced holdings e) (hold : L.waiting e x = none)
    {claim : Option Claim} (hnew : claim.bind (Claim.key? e) = none)
    (hrelease : ∀ c, claim = some c → c.engine = e → c.release = true) :
    (L.setClaim x claim).Balanced holdings e := by
  refine ⟨fun r hr => ?_, fun y c hc => ?_, h.holdings⟩
  · rw [waiting_setClaim, hnew, ← hold, Function.update_eq_self]
    exact h.tally r hr
  · rw [claims_setClaim] at hc
    split at hc
    · exact hrelease c hc
    · exact h.claims y c hc

/-- A script is queued that is not on the engine. -/
theorem elsewhere (h : L.Balanced holdings e) (hc : L.claims x = none) (he : claim.engine ≠ e) :
    (L.setClaim x (some claim)).Balanced holdings e := by
  refine h.setClaim (waiting_eq_none fun c hc' => ?_) ?_ fun c hc' hce => ?_
  · cases hc.symm.trans hc'
  · simp [Claim.key?, he]
  · cases hc'
    exact absurd hce he

/-- A script that has been called is taken out of its queue. -/
theorem unclaim (h : L.Balanced holdings e) (hran : ∀ c, L.claims x = some c → c.ran = true) :
    (L.setClaim x none).Balanced holdings e :=
  h.setClaim (waiting_eq_none hran) rfl nofun

/-- The key of a script that waits goes on the stack with it. -/
theorem raise (h : L.Balanced holdings e) (hc : L.claims x = some claim)
    (hkey : holding.key? e = claim.key? e) (hrelease : holding.claim.release = claim.release)
    (hengine : holding.claim.engine = claim.engine) {claim' : Option Claim}
    (hnew : claim'.bind (Claim.key? e) = none)
    (hrelease' : ∀ c, claim' = some c → c.engine = e → c.release = true) :
    (L.setClaim x claim').Balanced (holding :: holdings) e := by
  have hwaiting : L.waiting e x = claim.key? e := by
    rw [waiting, hc]
    rfl
  refine ⟨fun r hr => ?_, fun y c hy => ?_, fun holding' hm he => ?_⟩
  · rw [waiting_setClaim, hnew, List.filterMap_cons, hkey]
    cases hk : claim.key? e with
    | none =>
      rw [Function.update_eq_self_iff.2 (hwaiting.trans hk).symm]
      exact h.tally r hr
    | some key => exact (h.tally r hr).push (hwaiting.trans hk)
  · rw [claims_setClaim] at hy
    split at hy
    · exact hrelease' c hy
    · exact h.claims y c hy
  · obtain rfl | hm := List.mem_cons.1 hm
    · rw [hrelease]
      exact h.claims x claim hc (hengine.symm.trans he)
    · exact h.holdings holding' hm he

/-- A key goes from the stack, and it is freed. -/
theorem tail (h : L.Balanced (holding :: holdings) e) (hclaims : L'.claims = L.claims)
    (hregistry : L'.registry e = (holding.key? e).elim (L.registry e)
      fun key => (L.registry e).map (·.erase key)) : L'.Balanced holdings e := by
  refine ⟨fun r hr => ?_, fun x claim hc => h.claims x claim (by rwa [hclaims] at hc),
    fun holding' hm => h.holdings holding' (List.mem_cons_of_mem _ hm)⟩
  have htally := h.tally
  rw [hregistry] at hr
  rw [List.filterMap_cons] at htally
  rw [waiting_congr hclaims]
  cases hk : holding.key? e with
  | none =>
    rw [hk] at hr htally
    exact htally r hr
  | some key =>
    rw [hk] at hr htally
    obtain ⟨r', hr', rfl⟩ := Option.map_eq_some_iff.1 hr
    exact (htally r' hr').pop

end Balanced

theorem registry_release (hrelease : claim.engine = e → claim.release = true) :
    (L.release claim).registry e = (if claim.engine = e then some claim.key else none).elim
      (L.registry e) fun key => (L.registry e).map (·.erase key) := by
  unfold release
  by_cases he : claim.engine = e
  · rw [if_pos (hrelease he), if_pos he, free, he, registry_setRegistry, if_pos rfl]
    rfl
  · rw [if_neg he]
    split
    · rw [free, registry_setRegistry, if_neg (Ne.symm he)]
      rfl
    · rfl

/-- A script that has been called has nothing more to give back when its record is destroyed. -/
theorem discard_eq_self {claim : Option Claim} (h : ∀ c, claim = some c → c.ran = true) :
    L.discard claim = L := by
  cases claim with
  | none => rfl
  | some c => exact if_pos (h c rfl)

theorem registry_discard (hrelease : claim.engine = e → claim.release = true) :
    (L.discard (some claim)).registry e = (claim.key? e).elim (L.registry e)
      fun key => (L.registry e).map (·.erase key) := by
  rw [discard, Claim.key?]
  cases hran : claim.ran with
  | true => simp
  | false =>
    simp only [Bool.false_eq_true, if_false, and_true]
    exact registry_release hrelease

theorem updates_refl (L : Ledger) (e : Nat) :
    Option.Rel Registry.Updates (L.registry e) (L.registry e) := by
  cases L.registry e with
  | none => exact .none
  | some r => exact .some (.inl rfl)

theorem updates_setRegistry {f : Registry Value → Registry Value}
    (h : ∀ r : Registry Value, r.Updates (f r))
    (L : Ledger) (e e' : Nat) : Option.Rel Registry.Updates (L.registry e)
      ((L.setRegistry e' ((L.registry e').map f)).registry e) := by
  rw [registry_setRegistry]
  split
  · next he =>
    rw [← he]
    cases L.registry e with
    | none => exact .none
    | some r => exact .some (h r)
  · exact L.updates_refl e

theorem updates_release (L : Ledger) (claim : Claim) (e : Nat) :
    Option.Rel Registry.Updates (L.registry e) ((L.release claim).registry e) := by
  unfold release
  split
  · exact L.updates_setRegistry (fun r => .inr (.inr ⟨claim.key, rfl⟩)) e claim.engine
  · exact L.updates_refl e

theorem updates_discard (h : L'.registry = L.registry) (claim : Option Claim) (e : Nat) :
    Option.Rel Registry.Updates (L.registry e) ((L'.discard claim).registry e) := by
  rw [← h]
  unfold discard
  split
  · exact L'.updates_refl e
  · split
    · exact L'.updates_refl e
    · exact L'.updates_release _ e

namespace Balanced

/-- The call of a script is made. -/
theorem call (h : L.Balanced holdings e) (hc : L.claims (q, id) = some claim)
    (hran : claim.engine = e → claim.ran = false) :
    (L.setClaim (q, id) (some { claim with ran := true })).Balanced
      (.called q id { claim with ran := true } :: holdings) e := by
  refine h.raise hc ?_ rfl rfl ?_ fun c hc' he => ?_
  · by_cases he : claim.engine = e
    · simp [Holding.key?, Claim.key?, he, hran he]
    · simp [Holding.key?, Claim.key?, he]
  · simp [Claim.key?]
  · cases hc'
    exact h.claims _ claim hc he

/-- The call of a script has ended. -/
theorem release (h : L.Balanced (.called q id claim :: holdings) e) :
    (L.release claim).Balanced holdings e :=
  h.tail (claims_release ..) (registry_release (h.holdings _ (List.mem_cons_self ..)))

/-- The record of a script is destroyed that has been taken out of its queue. -/
theorem discard (h : L.Balanced (.doomed claim :: holdings) e) :
    (L.discard (some claim)).Balanced holdings e :=
  h.tail (claims_discard ..) (registry_discard (h.holdings _ (List.mem_cons_self ..)))

/-- A script is taken out of its queue and destroyed. -/
theorem remove (h : L.Balanced holdings e) (x : Nat × TaskId) :
    ((L.setClaim x none).discard (L.claims x)).Balanced holdings e := by
  cases hc : L.claims x with
  | none => exact h.setClaim (by rw [waiting, hc]; rfl) rfl nofun
  | some claim =>
    have hdoomed : (L.setClaim x none).Balanced (.doomed claim :: holdings) e :=
      h.raise hc rfl rfl rfl rfl nofun
    exact hdoomed.discard

/-- A script is queued whose program has been put into the registry. -/
theorem keep (h : L.Balanced holdings e) (hc : L.claims x = none) {value : Value}
    (hkey : ∀ r, L.registry e = some r → key = (r.insert value).1) :
    ((L.keep e value).setClaim x (some ⟨e, key, true, false⟩)).Balanced holdings e := by
  refine ⟨fun r hr => ?_, fun y c hy he => ?_, h.holdings⟩
  · rw [registry_setClaim, Ledger.keep, registry_setRegistry, if_pos rfl] at hr
    obtain ⟨r', hr', rfl⟩ := Option.map_eq_some_iff.1 hr
    have hwaits : Option.bind (some ⟨e, key, true, false⟩) (Claim.key? e) =
        some (r'.insert value).1 := by
      rw [← hkey r' hr']
      simp [Claim.key?]
    rw [waiting_setClaim, waiting_congr (L.claims_keep e value), hwaits]
    exact (h.tally r' hr').insert (by rw [waiting, hc]; rfl)
  · rw [claims_setClaim] at hy
    split at hy
    · cases hy
      rfl
    · exact h.claims y c hy he

end Balanced

theorem waiting_of_get? {Q : Queue} {task : Task} (hQ : ∀ id, L.claims (q, id) = Q.claim? id)
    (hg : Q.get? id = some task) : L.waiting e (q, id) = task.claim?.bind (Claim.key? e) := by
  rw [waiting, hQ, Queue.claim?, hg]
  rfl

theorem mem_keys_iff {Q : Queue} (hQ : ∀ id, L.claims (q, id) = Q.claim? id) :
    key ∈ Q.tasks.records.filterMap (fun task => task.claim?.bind (Claim.key? e)) ↔
      ∃ x, x.1 = q ∧ L.waiting e x = some key := by
  rw [List.mem_filterMap]
  constructor
  · rintro ⟨task, hm, hk⟩
    obtain ⟨id, hg⟩ := Arena.mem_records.1 hm
    exact ⟨(q, id), rfl, (waiting_of_get? hQ hg).trans hk⟩
  · rintro ⟨⟨_, id⟩, rfl, hk⟩
    cases hg : Q.get? id with
    | none =>
      rw [waiting, hQ, Queue.claim?, hg] at hk
      cases hk
    | some task =>
      exact ⟨task, Arena.mem_records.2 ⟨id, hg⟩, (waiting_of_get? hQ hg).symm.trans hk⟩

/-- A queue is dropped, and its scripts are doomed. -/
theorem Balanced.drop {Q : Queue} (h : L.Balanced [] e)
    (hQ : ∀ id, L.claims (q, id) = Q.claim? id) :
    (L.drop q).Balanced ((Q.tasks.records.filterMap Task.claim?).map .doomed) e := by
  have hkeys : (((Q.tasks.records.filterMap Task.claim?).map Holding.doomed).filterMap
      (Holding.key? e)) = Q.tasks.records.filterMap fun task => task.claim?.bind (Claim.key? e) := by
    rw [List.filterMap_map, List.filterMap_filterMap]
    rfl
  refine ⟨fun r hr => ?_, fun x c hc => ?_, fun holding hm he => ?_⟩
  · have htally := h.tally r hr
    rw [hkeys, waiting_drop]
    refine htally.sweep ?_ fun key => mem_keys_iff hQ
    refine Arena.nodup_filterMap_records fun id id' task task' key hg hg' hk hk' => ?_
    exact congrArg Prod.snd (htally.single (q, id) (q, id') key
      ((waiting_of_get? hQ hg).trans hk) ((waiting_of_get? hQ hg').trans hk'))
  · rw [claims_drop] at hc
    split at hc
    · cases hc
    · exact h.claims x c hc
  · obtain ⟨c, hclaimed, rfl⟩ := List.mem_map.1 hm
    obtain ⟨task, hrecord, hc⟩ := List.mem_filterMap.1 hclaimed
    obtain ⟨id, hg⟩ := Arena.mem_records.1 hrecord
    refine h.claims (q, id) c ?_ he
    rw [hQ, Queue.claim?, show Q.get? id = some task from hg]
    exact hc

end Ledger

def Action.meddles (e : Nat) : Action → Bool
  | .queue _ (.startScript _ e' _ _) => e' == e
  | .engine e' action => e' == e && action.handlesKeys
  | _ => false

namespace Process

def forsaken? (p : Process) : Option Nat :=
  match p.control with
  | .unwind payload (.cons (.script _ id t _) _) =>
    if payload = .cancelled id then none else some t.engine
  | _ => none

theorem Forsakes.forsaken? (h : p.Forsakes q id claim) : p.forsaken? = some claim.engine := by
  obtain ⟨payload, t, base, k, rfl, hcontrol, hpayload⟩ := h
  rw [Process.forsaken?, hcontrol]
  exact if_neg hpayload

/-- Scripts come to the engine only with their source, nobody else handles its keys, and no payload
but its own cancellation leaves the step of a script on it. -/
structure Respects (p : Process) (e : Nat) : Prop where
  action : ∀ action, p.control.action? = some action → action.meddles e = false
  contained : p.forsaken? ≠ some e

theorem meddles_of_all (h : p.control.action?.all (!Action.meddles e ·) = true) :
    ∀ action, p.control.action? = some action → action.meddles e = false := by
  intro action haction
  rw [haction] at h
  simpa using h

theorem Respects.not_forsakes (h : p.Respects e) (he : claim.engine = e) :
    ¬ p.Forsakes q id claim := fun hforsakes => h.contained (he ▸ hforsakes.forsaken?)

theorem Respects.ne_of_handlesKeys {e' : Nat} {action : EngineAction Action} (h : p.Respects e)
    (haction : p.control.action? = some (.engine e' action)) (hkeyed : action.handlesKeys = true) :
    e ≠ e' := by
  rintro rfl
  simpa [Action.meddles, hkeyed] using h.action _ haction

theorem Sound.balanced_step (h : p.Sound) (hrespects : p.Respects e) (hregular : p.account.Regular)
    (horderly : ∀ q id claim, p.world.ledger.claims (q, id) = some claim → claim.engine = e →
      p.Orderly q id)
    (hb : p.world.ledger.Balanced p.control.holdings e) (halive : p.step.control ≠ .aborted) :
    p.step.world.ledger.Balanced p.step.control.holdings e := by
  have hof : ∀ {A : Account}, p.step.account = A → A.ledger.Balanced A.holdings e →
      p.step.world.ledger.Balanced p.step.control.holdings e := by
    rintro _ rfl hA
    exact hA
  cases h.deal with
  | quiet account | enters _ account => exact hof account hb
  | @calls q id claim claimed account =>
    refine hof account (hb.call claimed fun he => ?_)
    have hbegins : p.Begins q id := turns_eq account
    obtain ⟨t, ht, _⟩ := World.task?_of_claims claimed
    exact h.ran_of_calls (horderly q id claim claimed he) ⟨hbegins, t, ht⟩ claimed
  | @starts q id name e' key release action fresh account =>
    have he : e' ≠ e := by simpa [Action.meddles] using hrespects.action _ action
    exact hof account (hb.elsewhere fresh.claims he)
  | @parses q id name e' key source value action fresh kept account =>
    refine hof account ?_
    by_cases he : e' = e
    · subst he
      exact hb.keep fresh.claims fun r hr => (kept r hr).1
    · have hkeep : (p.world.ledger.keep e' value).Balanced p.control.holdings e :=
        hb.of_eq (by simp [Ledger.keep, Ne.symm he]) (Ledger.claims_keep ..)
      exact hkeep.elsewhere (by rw [Ledger.claims_keep, fresh.claims]) he
  | returns _ holdings account => exact hof account (Ledger.Balanced.release (holdings ▸ hb))
  | @forsakes q id claim rest forsakes holdings account =>
    have he : claim.engine ≠ e := fun he => hrespects.not_forsakes he forsakes
    refine hof account (Ledger.Balanced.tail (holdings ▸ hb) rfl ?_)
    simp [Holding.key?, he]
  | removes _ _ account => exact hof account (hb.remove _)
  | @parks q id running account =>
    have hran := fun c => hregular.running (q, id) c running
    exact hof account ((hb.unclaim hran).of_eq rfl rfl)
  | @completes q id turns turn account =>
    have hm : (q, id) ∈ p.control.turns := turn ▸ List.mem_cons_self ..
    have hran : ∀ c, p.world.ledger.claims (q, id) = some c → c.ran = true :=
      fun c => hregular.running (q, id) c hm
    rw [Ledger.discard_eq_self hran] at account
    exact hof account ((hb.unclaim hran).of_eq rfl rfl)
  | @leaves q id turns turn account =>
    have hran : ∀ c, p.world.ledger.held q = some c → c.ran = true := hregular.held q
    rw [Ledger.discard_eq_self hran] at account
    exact hof account (hb.of_eq rfl rfl)
  | sweeps _ holdings account => exact hof account (Ledger.Balanced.discard (holdings ▸ hb))
  | tends tends keyed account =>
    have he := hrespects.ne_of_handlesKeys tends keyed
    exact hof account (hb.of_eq (by simp [he]) rfl)
  | aborts _ aborted => exact absurd aborted halive

end Process

/-- A registry that nobody else tends changes by one value or key at a time. -/
theorem Process.Deal.registry_updates (h : p.Deal) (htends : ∀ e' action,
      p.control.action? = some (.engine e' action) → action.handlesKeys = true → e ≠ e') :
    Option.Rel Registry.Updates (p.world.ledger.registry e) (p.step.world.ledger.registry e) := by
  have hof : ∀ {A : Account}, p.step.account = A →
      Option.Rel Registry.Updates (p.world.ledger.registry e) (A.ledger.registry e) →
      Option.Rel Registry.Updates (p.world.ledger.registry e) (p.step.world.ledger.registry e) := by
    rintro _ rfl hA
    exact hA
  have hsame := p.world.ledger.updates_refl e
  cases h with
  | quiet account | enters _ account | calls _ account | starts _ _ account | forsakes _ _ account
  | parks _ account => exact hof account hsame
  | parses _ _ _ account =>
    exact hof account (p.world.ledger.updates_setRegistry (fun r => .inr (.inl ⟨_, rfl⟩)) e _)
  | returns _ _ account => exact hof account (Ledger.updates_release ..)
  | removes _ _ account | completes _ account | leaves _ account | sweeps _ _ account =>
    exact hof account (Ledger.updates_discard (by rfl) _ e)
  | tends tends keyed account =>
    refine hof account ?_
    rw [Ledger.registry_setRegistry, if_neg (htends _ _ tends keyed)]
    exact hsame
  | aborts ledger => rwa [ledger]

theorem World.registry_make {start : UInt64} {queues : List QueueConfig} {engines : List EngineKind}
    {r : Registry Value} (h : (make start queues engines).ledger.registry e = some r) : r = {} := by
  obtain ⟨m, hm, rfl⟩ := Option.map_eq_some_iff.1 h
  obtain ⟨E, hE, hm⟩ := Option.bind_eq_some_iff.1 hm
  simp only [engine?, make, List.getElem?_toArray, List.getElem?_map] at hE
  obtain ⟨kind, _, rfl⟩ := Option.map_eq_some_iff.1 hE
  cases kind with
  | machine limits => cases hm; rfl
  | pacer | inert => cases hm

theorem Registry.tally_empty {α X : Type} {waiting : X → Option Nat} (h : ∀ x, waiting x = none) :
    Tally ({} : Registry α) [] waiting where
  wellFormed := ⟨List.nodup_nil, nofun⟩
  occupied key := by simp [get?, h]
  nodup := List.nodup_nil
  apart x key hx := by simp [h] at hx
  single x y key hx := by simp [h] at hx

theorem World.script_of_waiting (h : w.ledger.waiting e (q, id) = some key) :
    ∃ t, w.task? q id = some (.script t) ∧ t.engine = e ∧ t.key = key := by
  obtain ⟨claim, hc, hkey⟩ := Option.bind_eq_some_iff.1 h
  obtain ⟨t, ht, rfl⟩ := task?_of_claims hc
  rw [Claim.key?] at hkey
  split at hkey
  · next he => exact ⟨t, ht, he.1, Option.some.inj hkey⟩
  · cases hkey

def World.Holds (w : World) (e key : Nat) (program : Program) : Prop :=
  ∃ m, w.machine? e = some m ∧ m.registry.get? key = some (.callable program)

theorem World.holds_iff {program : Program} : w.Holds e key program ↔
    ∃ r, w.ledger.registry e = some r ∧ r.get? key = some (.callable program) := by
  constructor
  · rintro ⟨m, hm, hget⟩
    exact ⟨m.registry, by simp only [ledger, hm]; rfl, hget⟩
  · rintro ⟨r, hr, hget⟩
    obtain ⟨m, hm, rfl⟩ := Option.map_eq_some_iff.1 hr
    exact ⟨m, hm, hget⟩

theorem World.keeps_of_registry {r : Registry Value} (h : w.ledger.registry e = some r) (key : Nat) :
    w.keeps e key = (r.get? key).isSome := by
  obtain ⟨m, hm, rfl⟩ := Option.map_eq_some_iff.1 h
  obtain ⟨E, hE, hm⟩ := Option.bind_eq_some_iff.1 hm
  rw [keeps, hE]
  cases E with
  | machine E => cases hm; rfl
  | pacer | inert => cases hm

theorem World.callProtected_of_holds {program : Program} (h : w.Holds e key program)
    (handler : Handler) (k : Pending .call) :
    ∃ call : MachineCall, call.program = program ∧
      w.callProtected e key handler k = w.deliver (.cons (.machine e call) k) () := by
  obtain ⟨m, hm, hget⟩ := h
  obtain ⟨E, hE, hm⟩ := Option.bind_eq_some_iff.1 hm
  cases E with
  | machine E =>
    cases hm
    rw [callProtected, hE]
    simp only [hget]
    exact ⟨_, rfl, rfl⟩
  | pacer | inert => cases hm

def Process.Runs (p : Process) (q : Nat) (id : TaskId) (e : Nat) (program : Program) : Prop :=
  ∃ (w : World) (call : MachineCall) (t : ScriptTask) (base : Nat) (k : Pending .verdict),
    call.program = program ∧
      p = w.deliver (.cons (.machine e call) (.cons (.script q id t base) k)) ()

namespace Course

def Exclusive (s : Course) (e i : Nat) : Prop := ∀ l < i, (s l).Respects e

theorem starts_of_claims_eq (hc : (s i).world.ledger.claims (q, id) = some claim) :
    ∃ j < i, ∃ t, s.Starts j q id t ∧ (claim = t.claim ∨ claim = { t.claim with ran := true }) := by
  induction i generalizing claim with
  | zero => cases (s.claims_zero (q, id)).symm.trans hc
  | succ i ih =>
    have hearlier : ∀ {claim'}, (s i).world.ledger.claims (q, id) = some claim' →
        ∃ j < i + 1, ∃ t, s.Starts j q id t ∧
          (claim = t.claim ∨ claim = { t.claim with ran := true }) := by
      intro claim' hc'
      obtain ⟨j, hji, t, hstarts, _⟩ := ih hc'
      refine ⟨j, Nat.lt_succ_of_lt hji, t, hstarts, ?_⟩
      exact claims_of_le (World.claims_ledger_of_task? hstarts.2) (by omega) hc
    obtain hc' | ⟨claim', hc', _⟩ | ⟨hfresh, _⟩ := claims_origin hc
    · exact hearlier hc'
    · exact hearlier hc'
    · obtain ⟨t, ht, rfl⟩ := World.task?_of_claims hc
      refine ⟨i, Nat.lt_succ_self i, t, ⟨?_, ht⟩, .inl rfl⟩
      obtain ⟨Q, hQ, hunknown⟩ := hfresh
      refine Option.eq_none_iff_forall_ne_some.2 fun task htask => ?_
      obtain ⟨Q', hQ', hg⟩ := World.task?_eq_some.1 htask
      obtain rfl := Option.some.inj (hQ.symm.trans hQ')
      exact hunknown (Arena.known_of_get? hg)

/-- Between two commands only a queued script holds its key. -/
theorem Outstanding.queued (hout : s.Outstanding i q id claim)
    (hended : (s i).control.ended = true) :
    ∃ t, (s i).world.task? q id = some (.script t) := by
  have hholdings := Process.holdings_of_ended hended
  cases hout with
  | waiting claimed =>
    obtain ⟨t, ht, _⟩ := World.task?_of_claims claimed
    exact ⟨t, ht⟩
  | called called => rw [hholdings] at called; cases called
  | doomed _ _ doomed => rw [hholdings] at doomed; cases doomed

/-- A script that was started holds its key, with its program in it, until it is settled. Then the key
is free, and the script is not queued any longer. -/
inductive Tenure (s : Course) (j i q : Nat) (id : TaskId) (t : ScriptTask) (program : Program) : Prop
  | keeps (queued : ∃ t', (s i).world.task? q id = some (.script t'))
      (holds : ∀ l, j < l → l ≤ i → (s l).world.Holds t.engine t.key program)
      (unsettled : ∀ m, j < m → m < i → ¬ s.Settles m q id t.claim)
  | released {m : Nat} (unqueued : ∀ t', (s i).world.task? q id ≠ some (.script t'))
      (after : j < m) (before : m < i) (settles : s.Settles m q id t.claim)
      (holds : ∀ l, j < l → l ≤ m → (s l).world.Holds t.engine t.key program)
      (freed : (s (m + 1)).world.keeps t.engine t.key = false)
      (once : ∀ m', j < m' → m' < i → s.Settles m' q id t.claim → m' = m)

namespace Exclusive

theorem of_le (h : s.Exclusive e i) (hji : j ≤ i) : s.Exclusive e j :=
  fun l hl => h l (Nat.lt_of_lt_of_le hl hji)

/-- A script on the engine that has been called is in its call or about to leave. -/
theorem orderly (h : s.Exclusive e i) (halive : (s i).control ≠ .aborted)
    (hc : (s i).world.ledger.claims (q, id) = some claim) (he : claim.engine = e) :
    (s i).Orderly q id := by
  induction i generalizing claim with
  | zero => cases (s.claims_zero (q, id)).symm.trans hc
  | succ i ih =>
    have halive' := alive_of_le halive (Nat.le_succ i)
    have hlater : ∀ {claim'}, (s i).world.ledger.claims (q, id) = some claim' → claim'.engine = e →
        (s (i + 1)).Orderly q id := by
      intro claim' hc' he'
      have horderly := ih (h.of_le (Nat.le_succ i)) halive' hc' he'
      obtain hnext | ⟨claim'', hc'', hforsakes⟩ | haborted := orderly_succ horderly
      · exact hnext
      · obtain rfl := Option.some.inj (hc'.symm.trans hc'')
        exact absurd hforsakes ((h i (Nat.lt_succ_self i)).not_forsakes he')
      · exact absurd haborted halive
    obtain hc' | ⟨claim', hc', rfl, _⟩ | ⟨_, hran, _⟩ := claims_origin hc
    · exact hlater hc' he
    · exact hlater hc' he
    · intro claim' hc' hran'
      obtain rfl := Option.some.inj (hc.symm.trans hc')
      cases hran.symm.trans hran'

theorem balanced (h : s.Exclusive e i) (halive : (s i).control ≠ .aborted) :
    (s i).world.ledger.Balanced (s i).control.holdings e := by
  induction i with
  | zero =>
    obtain ⟨start, queues, engines, hstart⟩ := s.starts
    have hholdings : (s 0).control.holdings = [] := by
      rw [show s 0 = _ from hstart]
      rfl
    rw [hholdings]
    refine ⟨fun r hr => ?_, fun x claim hc => ?_, nofun⟩
    · rw [show s 0 = _ from hstart] at hr
      rw [World.registry_make hr]
      refine Registry.tally_empty fun x => ?_
      rw [Ledger.waiting, s.claims_zero]
      rfl
    · cases (s.claims_zero x).symm.trans hc
  | succ i ih =>
    have halive' := alive_of_le halive (Nat.le_succ i)
    have hbefore := h.of_le (Nat.le_succ i)
    have hb := ih hbefore halive'
    cases s.dealt i with
    | deals step =>
      rw [step] at halive ⊢
      exact (s.sound i).balanced_step (h i (Nat.lt_succ_self i)) (s.regular i)
        (fun q id claim hc he => hbefore.orderly halive' hc he) hb halive
    | rests _ account =>
      rw [Process.ledger_eq account, Process.holdings_eq account]
      exact hb
    | drops drops queue account =>
      rw [Process.ledger_eq account, Process.holdings_eq account]
      rw [Process.holdings_of_ended drops.1] at hb
      exact hb.drop fun id => World.claims_ledger queue id

theorem registry_succ (h : s.Exclusive e (i + 1)) : Option.Rel Registry.Updates
    ((s i).world.ledger.registry e) ((s (i + 1)).world.ledger.registry e) := by
  cases s.dealt i with
  | deals step deal =>
    rw [step]
    exact deal.registry_updates fun _ _ => (h i (Nat.lt_succ_self i)).ne_of_handlesKeys
  | rests _ account | drops _ _ account =>
    rw [Process.ledger_eq account]
    exact Ledger.updates_refl ..

theorem registry_of_le {r : Registry Value} (h : s.Exclusive e i) (hji : j ≤ i)
    (hr : (s i).world.ledger.registry e = some r) :
    ∃ r', (s j).world.ledger.registry e = some r' := by
  induction hji generalizing r with
  | refl => exact ⟨r, hr⟩
  | @step i _ ih =>
    have hupdates := h.registry_succ
    cases hr' : (s i).world.ledger.registry e with
    | none =>
      rw [hr', hr] at hupdates
      cases hupdates
    | some r' => exact ih (h.of_le (Nat.le_succ i)) hr'

/-- The key of a script that holds it is not free. -/
theorem occupied {r : Registry Value} (h : s.Exclusive e i) (halive : (s i).control ≠ .aborted)
    (hr : (s i).world.ledger.registry e = some r) (hout : s.Outstanding i q id claim)
    (hran : claim.ran = false) (he : claim.engine = e) : (r.get? claim.key).isSome := by
  have hkey : claim.key? e = some claim.key := by simp [Claim.key?, hran, he]
  rw [((h.balanced halive).tally r hr).occupied]
  cases hout with
  | waiting claimed =>
    refine .inr ⟨(q, id), ?_⟩
    rw [Ledger.waiting, claimed]
    exact hkey
  | called called =>
    exact .inl (List.mem_filterMap.2 ⟨_, called, by simp [Holding.key?, he]⟩)
  | doomed _ _ doomed => exact .inl (List.mem_filterMap.2 ⟨_, doomed, hkey⟩)

theorem outstanding_of_succ (h : s.Exclusive e (i + 1)) (halive : (s (i + 1)).control ≠ .aborted)
    (hc : (s j).world.ledger.claims (q, id) = some claim) (hji : j ≤ i) (hran : claim.ran = false)
    (he : claim.engine = e) (hout : s.Outstanding (i + 1) q id claim) :
    s.Outstanding i q id claim := by
  refine hout.pred hran (fun hopens => not_fresh hc hji hopens.1) fun claim' hc' he' => ?_
  exact (h.of_le (Nat.le_succ i)).orderly (alive_of_le halive (Nat.le_succ i)) hc' (he'.trans he)

/-- As long as a script holds its key, the key holds the same program. -/
theorem holds {program : Program} (h : s.Exclusive e i) (halive : (s i).control ≠ .aborted)
    (hc : (s j).world.ledger.claims (q, id) = some claim) (hran : claim.ran = false)
    (he : claim.engine = e) (hholds : (s j).world.Holds e claim.key program) (hji : j ≤ i)
    (hout : s.Outstanding i q id claim) : (s i).world.Holds e claim.key program := by
  induction hji with
  | refl => exact hholds
  | @step i hji ih =>
    have hbefore := h.of_le (Nat.le_succ i)
    have halive' := alive_of_le halive (Nat.le_succ i)
    have hkept := ih hbefore halive' (h.outstanding_of_succ halive hc hji hran he hout)
    obtain ⟨r, hr, hget⟩ := World.holds_iff.1 hkept
    have hupdates := h.registry_succ
    rw [hr] at hupdates
    generalize hr' : (s (i + 1)).world.ledger.registry e = o at hupdates
    cases hupdates with
    | @some _ r' updates =>
      refine World.holds_iff.2 ⟨r', hr', ?_⟩
      rw [updates.get?_eq ((hbefore.balanced halive').tally r hr).wellFormed (by rw [hget]; rfl)
        (h.occupied halive hr' hout hran he), hget]

theorem outstanding_of_le {l : Nat} (h : s.Exclusive e i) (halive : (s i).control ≠ .aborted)
    (hc : (s j).world.ledger.claims (q, id) = some claim) (hran : claim.ran = false)
    (he : claim.engine = e) (hjl : j ≤ l) (hli : l ≤ i) (hout : s.Outstanding i q id claim) :
    s.Outstanding l q id claim := by
  induction hli with
  | refl => exact hout
  | @step i hli ih =>
    exact ih (h.of_le (Nat.le_succ i)) (alive_of_le halive (Nat.le_succ i))
      (h.outstanding_of_succ halive hc (Nat.le_trans hjl hli) hran he hout)

theorem not_outstanding {r : Registry Value} {m : Nat} (h : s.Exclusive e i)
    (halive : (s i).control ≠ .aborted) (hr : (s i).world.ledger.registry e = some r)
    (hc : (s j).world.ledger.claims (q, id) = some claim) (hran : claim.ran = false)
    (he : claim.engine = e) (hjm : j ≤ m) (hmi : m < i) (hsettles : s.Settles m q id claim) :
    ¬ s.Outstanding i q id claim := by
  intro hout
  have hji : j ≤ i := Nat.le_trans hjm (Nat.le_of_lt hmi)
  have hrelease := ((h.of_le hji).balanced (alive_of_le halive hji)).claims (q, id) claim hc he
  have hnext := h.outstanding_of_le halive hc hran he (Nat.le_succ_of_le hjm) hmi hout
  obtain ⟨r', hr'⟩ := h.registry_of_le hmi hr
  have hfree := hsettles.keeps hran hrelease
  rw [he, World.keeps_of_registry hr'] at hfree
  cases hfree.symm.trans ((h.of_le hmi).occupied (alive_of_le halive hmi) hr' hnext hran he)

/-- A script on the engine came with its source, and its key holds the program. -/
theorem started {r : Registry Value} (h : s.Exclusive e i) (halive : (s i).control ≠ .aborted)
    (hji : j < i) (hr : (s i).world.ledger.registry e = some r) (hstarts : s.Starts j q id t)
    (he : t.engine = e) : ∃ name source Q program,
      (s j).control.action? = some (.queue q (.parseAndStart name e source)) ∧
      (s j).world.queue? q = some Q ∧ Machine.readSource Q.config.chunkName source = .ok program ∧
      (s (j + 1)).world.Holds e t.key program := by
  subst he
  have hji' := Nat.le_of_lt hji
  obtain ⟨_, _, ⟨name, haction⟩ | ⟨name, source, haction, hkept⟩⟩ := hstarts.opens
  · have hmeddles := (h j hji).action _ haction
    simp [Action.meddles, ScriptTask.claim] at hmeddles
  · obtain ⟨r₀, hr₀⟩ := h.registry_of_le hji' hr
    obtain ⟨Q, program, hQ, hread, hr₁, hkey⟩ := hkept r₀ hr₀
    have hwf := (((h.of_le hji').balanced (alive_of_le halive hji')).tally r₀ hr₀).wellFormed
    have hended : (s j).control.ended = false := by
      cases hcontrol : (s j).control with
      | perform => rfl
      | _ => rw [hcontrol] at haction; cases haction
    refine ⟨name, source, Q, program, haction, hQ, hread, World.holds_iff.2
      ⟨(r₀.insert (.callable program)).2, ?_, ?_⟩⟩
    · rw [succ_eq_step hended]
      exact hr₁
    · rw [Registry.get?_insert hwf]
      exact if_pos hkey

/-- Between two commands no script that has been called is queued. -/
theorem ran_of_ended (h : s.Exclusive e i) (hended : (s i).control.ended = true)
    (hc : (s i).world.ledger.claims (q, id) = some claim) (he : claim.engine = e) :
    claim.ran = false := by
  refine Bool.eq_false_iff.2 fun hran => ?_
  obtain hcalled | hdone := h.orderly (Control.ne_aborted_of_ended hended) hc he claim hc hran
  · rw [Process.holdings_of_ended hended] at hcalled
    cases hcalled
  · have hm := hdone.mem_turns
    rw [Process.turns_of_ended hended] at hm
    cases hm

/-- Between two commands the keys are shared out among the queued scripts. -/
theorem tally_of_ended {r : Registry Value} (h : s.Exclusive e i)
    (hended : (s i).control.ended = true) (hr : (s i).world.ledger.registry e = some r) :
    r.Tally [] ((s i).world.ledger.waiting e) := by
  have htally := (h.balanced (Control.ne_aborted_of_ended hended)).tally r hr
  rwa [Process.holdings_of_ended hended] at htally

theorem waiting_of_ended (h : s.Exclusive e i) (hended : (s i).control.ended = true)
    (ht : (s i).world.task? q id = some (.script t)) (he : t.engine = e) :
    (s i).world.ledger.waiting e (q, id) = some t.key := by
  have hc := World.claims_ledger_of_task? ht
  have hran := h.ran_of_ended hended hc he
  rw [Ledger.waiting, hc]
  exact if_pos ⟨he, hran⟩

/-- The call of a script runs the program that its key has held from the start. -/
theorem runs {program : Program} (h : s.Exclusive e i) (hcalls : (s i).Calls q id)
    (hc : (s j).world.ledger.claims (q, id) = some claim) (hran : claim.ran = false)
    (he : claim.engine = e) (hholds : (s j).world.Holds e claim.key program) (hji : j ≤ i) :
    (s (i + 1)).Runs q id e program := by
  have halive := hcalls.1.ne_aborted
  obtain ⟨t, w, base, k, ht, hledger, hstep⟩ := hcalls.step_eq
  have hc' := World.claims_ledger_of_task? ht
  obtain rfl : t.claim = claim := by
    obtain heq | heq := claims_of_le hc hji hc'
    · exact heq
    · have hran' := (s.sound i).ran_of_calls (h.orderly halive hc' (by rw [heq]; exact he)) hcalls hc'
      rw [heq] at hran'
      cases hran'
  have hkept := h.holds halive hc hran he hholds hji (.waiting hc')
  have hwholds : w.Holds t.engine t.key program := by
    obtain ⟨r, hr, hget⟩ := World.holds_iff.1 hkept
    refine World.holds_iff.2 ⟨r, ?_, hget⟩
    rw [hledger, Ledger.registry_setClaim, show t.engine = e from he, hr]
  obtain ⟨call, hprogram, hcall⟩ := World.callProtected_of_holds hwholds .traceback
    (.cons (.script q id { t with ran := true } base) k)
  refine ⟨w, call, { t with ran := true }, base, k, hprogram, ?_⟩
  rw [succ_of_calls hcalls, hstep, hcall, show t.engine = e from he]

/-- A script on the engine is called once. -/
theorem calls_unique {l l' : Nat} (h : s.Exclusive e i)
    (hc : (s j).world.ledger.claims (q, id) = some claim) (he : claim.engine = e)
    (hjl : j ≤ l) (hjl' : j ≤ l') (hl : l < i) (hl' : l' < i) (hcalls : (s l).Calls q id)
    (hcalls' : (s l').Calls q id) : l = l' := by
  have hnever : ∀ {l l'}, j ≤ l → l' < i → (s l).Calls q id → (s l').Calls q id → ¬ l < l' := by
    intro l l' hjl hl' hcalls hcalls' hlt
    obtain ⟨m, hlm, hml, claim', hc', hforsakes⟩ := forsaken_of_calls hcalls hcalls' hlt
    refine (h m (by omega)).not_forsakes ?_ hforsakes
    obtain rfl | rfl := claims_of_le hc (by omega) hc'
    · exact he
    · exact he
  have hle := hnever hjl hl' hcalls hcalls'
  have hge := hnever hjl' hl hcalls' hcalls
  omega

theorem tenure {r : Registry Value} {program : Program} (h : s.Exclusive e i)
    (hended : (s i).control.ended = true) (hr : (s i).world.ledger.registry e = some r)
    (hji : j < i) (hstarts : s.Starts j q id t) (he : t.engine = e)
    (hholds : (s (j + 1)).world.Holds e t.key program) : s.Tenure j i q id t program := by
  subst he
  have hlive := Control.ne_aborted_of_ended hended
  have hc := World.claims_ledger_of_task? hstarts.2
  have hran : t.claim.ran = false := hstarts.opens.2.1
  have hrelease := ((h.of_le hji).balanced (alive_of_le hlive hji)).claims (q, id) t.claim hc rfl
  have hheld : ∀ {m}, m ≤ i → s.Outstanding m q id t.claim →
      ∀ l, j < l → l ≤ m → (s l).world.Holds t.engine t.key program := by
    intro m hmi hout l hjl hlm
    have hout' := (h.of_le hmi).outstanding_of_le (alive_of_le hlive hmi) hc hran rfl hjl hlm hout
    have hli := Nat.le_trans hlm hmi
    exact (h.of_le hli).holds (alive_of_le hlive hli) hc hran rfl hholds hjl hout'
  have hover : ∀ {m m'}, j < m → m < m' → m' ≤ i → s.Settles m q id t.claim →
      ¬ s.Outstanding m' q id t.claim := by
    intro m m' hjm hmm' hm'i hsettles
    obtain ⟨r', hr'⟩ := h.registry_of_le hm'i hr
    exact (h.of_le hm'i).not_outstanding (alive_of_le hlive hm'i) hr' hc hran rfl hjm hmm' hsettles
  obtain hout | ⟨m, hjm, hmi, hsettles⟩ | ⟨l, _, hli, hforsakes⟩ | haborted :=
    (Outstanding.waiting hc).of_le hran (Nat.succ_le_of_lt hji)
  · exact .keeps (hout.queued hended) (hheld (Nat.le_refl i) hout) fun m hjm hmi hsettles =>
      hover hjm hmi (Nat.le_refl i) hsettles hout
  · refine .released (fun t' ht' => ?_) hjm hmi hsettles
      (hheld (Nat.le_of_lt hmi) hsettles.outstanding) (hsettles.keeps hran hrelease)
      fun m' hjm' hm'i hsettles' => ?_
    · have hc' := World.claims_ledger_of_task? ht'
      obtain heq | heq := claims_of_le hc (Nat.succ_le_of_lt hji) hc'
      · exact hover hjm hmi (Nat.le_refl i) hsettles (.waiting (hc'.trans (congrArg some heq)))
      · have hran' := h.ran_of_ended hended hc' (by rw [heq]; rfl)
        rw [heq] at hran'
        cases hran'
    · obtain hlt | heq | hgt := Nat.lt_trichotomy m' m
      · exact absurd hsettles.outstanding (hover hjm' hlt (Nat.le_of_lt hmi) hsettles')
      · exact heq
      · exact absurd hsettles'.outstanding (hover hjm hgt (Nat.le_of_lt hm'i) hsettles)
  · exact absurd hforsakes ((h l hli).not_forsakes rfl)
  · exact absurd haborted hlive

end Exclusive

/-- Between two commands the keys of a machine that hold something are those of the scripts queued on
it, each with the program compiled from the source that its script came with. The script is called
once, the call runs this program, and the key is released once: when the call ends, when the script is
removed before it, or with the queue. -/
theorem key_ownership {m : Machine} (h : s.Exclusive e i) (hended : (s i).control.ended = true)
    (hm : (s i).world.machine? e = some m) :
    (∀ key, (m.registry.get? key).isSome ↔
      ∃ q id t, (s i).world.task? q id = some (.script t) ∧ t.engine = e ∧ t.key = key) ∧
    (∀ q id t q' id' t', (s i).world.task? q id = some (.script t) →
      (s i).world.task? q' id' = some (.script t') → t.engine = e → t'.engine = e →
      t.key = t'.key → q = q' ∧ id = id') ∧
    (∀ q id t, (s i).world.task? q id = some (.script t) → t.engine = e →
      ∃ j < i, ∃ t₀, s.Starts j q id t₀ ∧ t₀.claim = t.claim) ∧
    ∀ j q id t, j < i → s.Starts j q id t → t.engine = e → ∃ name source Q program,
      (s j).control.action? = some (.queue q (.parseAndStart name e source)) ∧
      (s j).world.queue? q = some Q ∧ Machine.readSource Q.config.chunkName source = .ok program ∧
      (∀ l, j < l → l < i → (s l).Calls q id → (s (l + 1)).Runs q id e program) ∧
      (∀ l l', j < l → j < l' → l < i → l' < i → (s l).Calls q id → (s l').Calls q id → l = l') ∧
      s.Tenure j i q id t program := by
  have hlive := Control.ne_aborted_of_ended hended
  have hr : (s i).world.ledger.registry e = some m.registry := by
    simp only [World.ledger, hm]
    rfl
  have htally := h.tally_of_ended hended hr
  refine ⟨fun key => ?_, fun q id t q' id' t' ht ht' he he' hkey => ?_, fun q id t ht he => ?_,
    fun j q id t hji hstarts he => ?_⟩
  · rw [htally.occupied, or_iff_right List.not_mem_nil]
    constructor
    · rintro ⟨⟨q, id⟩, hwaiting⟩
      obtain ⟨t, ht, he, hkey⟩ := World.script_of_waiting hwaiting
      exact ⟨q, id, t, ht, he, hkey⟩
    · rintro ⟨q, id, t, ht, he, rfl⟩
      exact ⟨(q, id), h.waiting_of_ended hended ht he⟩
  · have hsame := htally.single (q, id) (q', id') t.key (h.waiting_of_ended hended ht he)
      (hkey ▸ h.waiting_of_ended hended ht' he')
    exact Prod.mk.inj hsame
  · have hc := World.claims_ledger_of_task? ht
    have hran := h.ran_of_ended hended hc he
    obtain ⟨j, hji, t₀, hstarts, heq | heq⟩ := starts_of_claims_eq hc
    · exact ⟨j, hji, t₀, hstarts, heq.symm⟩
    · rw [heq] at hran
      cases hran
  · obtain ⟨name, source, Q, program, haction, hQ, hread, hholds⟩ :=
      h.started hlive hji hr hstarts he
    have hc := World.claims_ledger_of_task? hstarts.2
    have hran : t.claim.ran = false := hstarts.opens.2.1
    refine ⟨name, source, Q, program, haction, hQ, hread, fun l hjl hli hcalls => ?_,
      fun l l' hjl hjl' hl hl' => h.calls_unique hc he hjl hjl' hl hl',
      h.tenure hended hr hji hstarts he hholds⟩
    exact (h.of_le (Nat.le_of_lt hli)).runs hcalls hc hran he hholds hjl

/-- A script is interrupted in its call, another one is removed before its call, and two more are
started, each of which takes a key that has been freed. -/
def sharing : Course :=
  .ofCommands [{ hookInterval := 1 }] [.machine {}]
    [.act (.engine 0 (.host "h" [⟨[.queue 0 (.interrupt "A")], none, false⟩])),
      .act (.queue 0 (.parseAndStart "A" 0 "host h\npush 1".toUTF8.data.toList)),
      .act (.queue 0 (.parseAndStart "B" 0 "pop".toUTF8.data.toList)),
      .act (.queue 0 (.remove "B")),
      .act (.queue 0 (.parseAndStart "C" 0 "push 2".toUTF8.data.toList)),
      .act (.queue 0 .runPass),
      .act (.queue 0 (.parseAndStart "D" 0 "push 3".toUTF8.data.toList))]

theorem key_ownership_sharing :
    sharing.Exclusive 0 37 ∧ (sharing 37).control.ended = true ∧
    ∃ m, (sharing 37).world.machine? 0 = some m ∧
      (∀ key, (m.registry.get? key).isSome ↔
        ∃ q id t, (sharing 37).world.task? q id = some (.script t) ∧ t.engine = 0 ∧ t.key = key) ∧
      ∃ t, sharing.Starts 14 0 ⟨2, 3⟩ t ∧ t.claim = ⟨0, 1, true, false⟩ ∧
        (sharing 26).Calls 0 ⟨2, 3⟩ ∧
        ∃ program, (sharing 27).Runs 0 ⟨2, 3⟩ 0 program ∧
          sharing.Tenure 14 37 0 ⟨2, 3⟩ t program := by
  have hexclusive : sharing.Exclusive 0 37 := by
    have hall : ∀ l < 37, (sharing l).control.action?.all (!Action.meddles 0 ·) = true ∧
        (sharing l).forsaken? ≠ some 0 := by decide +kernel
    exact fun l hl => ⟨Process.meddles_of_all (hall l hl).1, (hall l hl).2⟩
  have hended : (sharing 37).control.ended = true := by decide +kernel
  obtain ⟨m, hm⟩ : ∃ m, (sharing 37).world.machine? 0 = some m :=
    Option.isSome_iff_exists.1 (by decide +kernel)
  obtain ⟨t, hstarts, hclaim⟩ :
      ∃ t, sharing.Starts 14 0 ⟨2, 3⟩ t ∧ t.claim = ⟨0, 1, true, false⟩ :=
    starts_of_claims (by decide +kernel) (by decide +kernel)
  have hcalls : (sharing 26).Calls 0 ⟨2, 3⟩ := by
    have hclaims : (sharing 26).world.ledger.claims (0, ⟨2, 3⟩) = some ⟨0, 1, true, false⟩ := by
      decide +kernel
    obtain ⟨t', ht', _⟩ := World.task?_of_claims hclaims
    exact ⟨by rw [Process.Begins]; decide +kernel, t', ht'⟩
  obtain ⟨hkeys, _, _, hscripts⟩ := key_ownership hexclusive hended hm
  obtain ⟨_, _, _, program, _, _, _, hruns, _, htenure⟩ :=
    hscripts 14 0 ⟨2, 3⟩ t (by decide) hstarts (congrArg Claim.engine hclaim)
  exact ⟨hexclusive, hended, m, hm, hkeys, t, hstarts, hclaim, hcalls, program,
    hruns 26 (by decide) (by decide) hcalls, htenure⟩

/-- A script of queue 0 is interrupted and then steps a script of queue 1, which calls back into the
first machine. The cancellation passes through the step of the second script. -/
def passing : Course :=
  .ofCommands [{ hookInterval := 1 }, { hookInterval := 1 }] [.machine {}, .machine {}]
    [.act (.engine 0 (.host "a" [⟨[.queue 0 (.interrupt "U"), .queue 1 .runPass], none, false⟩])),
      .act (.engine 0 (.load "k" "push 1\npop".toUTF8.data.toList)), .act (.engine 0 .reference),
      .act (.engine 1 (.host "b" [⟨[.engine 0 (.call 0 .traceback)], none, false⟩])),
      .act (.queue 1 (.idle "X" [] none)),
      .act (.queue 1 (.parseAndStart "T" 1 "host b".toUTF8.data.toList)),
      .act (.queue 0 (.parseAndStart "U" 0 "host a".toUTF8.data.toList)),
      .act (.queue 0 .runPass), .act (.queue 1 (.remove "T"))]

/-- The second script has left its queue, and its key is not free, though nobody meddles with its
machine and only cancellations are raised. -/
theorem key_leaks_passing :
    (∀ l < 50, (∀ action, (passing l).control.action? = some action → action.meddles 1 = false) ∧
      ∀ message, (passing l).control.payload? ≠ some (.foreign message)) ∧
    (passing 50).control.ended = true ∧
    ∃ t, passing.Starts 16 1 ⟨2, 1⟩ t ∧ t.claim = ⟨1, 0, true, false⟩ ∧
      (passing 50).world.task? 1 ⟨2, 1⟩ = none ∧ (passing 50).world.keeps t.engine t.key = true := by
  have hall : ∀ l < 50, (passing l).control.action?.all (!Action.meddles 1 ·) = true ∧
      ((passing l).control.payload? = none ∨
        (passing l).control.payload? = some (.cancelled ⟨1, 1⟩)) := by decide +kernel
  obtain ⟨t, hstarts, hclaim⟩ :
      ∃ t, passing.Starts 16 1 ⟨2, 1⟩ t ∧ t.claim = ⟨1, 0, true, false⟩ :=
    starts_of_claims (by decide +kernel) (by decide +kernel)
  obtain ⟨hengine, hkey, _, _⟩ := Claim.mk.inj hclaim
  refine ⟨fun l hl => ⟨Process.meddles_of_all (hall l hl).1, fun message hforeign => ?_⟩,
    by decide +kernel, t, hstarts, hclaim, Option.isNone_iff_eq_none.1 (by decide +kernel), ?_⟩
  · obtain hnone | hcancelled := (hall l hl).2
    · cases hnone.symm.trans hforeign
    · cases hcancelled.symm.trans hforeign
  · rw [hengine, hkey]
    decide +kernel

end Course

end TaskLoop
