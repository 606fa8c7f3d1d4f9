import Mathlib
import TaskLoop.Proofs.Departures
import TaskLoop.Proofs.Keys
import TaskLoop.Proofs.ScriptLife

namespace TaskLoop

variable {w : World} {q e key : Nat} {id : TaskId} {p : Process} {s : Course} {i j : Nat}
  {claim : Claim} {t : ScriptTask}

namespace World

theorem keeps_scriptReturned (hrelease : t.release = true) (w : World) (q : Nat) (id : TaskId)
    (base : Nat) (result : Except CallError Unit) (k : Pending .verdict) :
    (w.scriptReturned q id t base result k).world.keeps t.engine t.key = false := by
  simp only [scriptReturned, hrelease, if_true]
  exact keeps_unreference ..

theorem keeps_destroy (hrelease : t.release = true) (hran : t.ran = false) (w : World)
    (k : Pending .done) : (w.destroy (.script t) k).world.keeps t.engine t.key = false := by
  simp only [destroy, hran, releaseScript, hrelease, if_true]
  exact keeps_unreference ..

end World

namespace Course

theorem Settles.keeps (h : s.Settles i q id claim) (hran : claim.ran = false)
    (hrelease : claim.release = true) :
    (s (i + 1)).world.keeps claim.engine claim.key = false := by
  obtain hends | ⟨hremoves, hidle, hclaim⟩ | ⟨_, hdiscards⟩ := h
  · obtain ⟨t, base, result, k, hclaim, _, hstep⟩ := hends.step_eq
    have hended : (s i).control.ended = false := by
      obtain ⟨_, _, _, _, ⟨result, hcontrol⟩ | hcontrol⟩ := hends
      · rw [hcontrol]; rfl
      · rw [hcontrol]; rfl
    obtain ⟨hengine, hkey, hrelease', _⟩ := Claim.mk.inj hclaim
    rw [succ_eq_step hended, hstep, ← hengine, ← hkey]
    exact World.keeps_scriptReturned (hrelease'.trans hrelease) ..
  · obtain ⟨t, ht, rfl⟩ := World.task?_of_claims hclaim
    obtain ⟨w', k, hstep⟩ := (s.sound i).step_of_removes hremoves hidle ht
    obtain ⟨_, _, hcontrol, _⟩ := hremoves
    rw [succ_eq_step (by rw [hcontrol]; rfl), hstep]
    exact World.keeps_destroy hrelease hran ..
  · obtain ⟨t, rest, k, rfl, hcontrol⟩ := hdiscards
    have hstep : (s i).step = (s i).world.destroy (.script t) (.cons (.sweep rest) k) := by
      rw [show s i = ⟨(s i).world, (s i).control⟩ from rfl, hcontrol]
      exact Process.step_deliver ..
    rw [succ_eq_step (by rw [hcontrol]; rfl), hstep]
    exact World.keeps_destroy hrelease hran ..

def Starts (s : Course) (i q : Nat) (id : TaskId) (t : ScriptTask) : Prop :=
  (s i).world.task? q id = none ∧ (s (i + 1)).world.task? q id = some (.script t)

theorem Starts.opens (h : s.Starts i q id t) : (s i).Opens q id t.claim := by
  obtain ⟨hnone, hsome⟩ := h
  have hbefore : (s i).world.ledger.claims (q, id) = none := by
    simp only [World.ledger, hnone]
    rfl
  obtain hc | ⟨_, hc, _⟩ | hopens := claims_origin (World.claims_ledger_of_task? hsome)
  · cases hbefore.symm.trans hc
  · cases hbefore.symm.trans hc
  · exact hopens

/-- The script has been destroyed: it is not queued, its turn is over, and it does not wait to be
destroyed with its queue. -/
structure Destroyed (s : Course) (i q : Nat) (id : TaskId) (claim : Claim) : Prop where
  unqueued : (s i).world.task? q id = none
  idle : (q, id) ∉ (s i).control.turns
  swept : .doomed claim ∉ (s i).control.holdings
  alive : (s i).control ≠ .aborted

theorem Destroyed.not_outstanding (h : s.Destroyed i q id claim) :
    ¬ s.Outstanding i q id claim := by
  intro hout
  cases hout with
  | waiting claimed =>
    obtain ⟨t, ht, _⟩ := World.task?_of_claims claimed
    cases h.unqueued.symm.trans ht
  | called called => exact h.idle ((s.sound i).mem_turns_of_called called)
  | doomed _ _ doomed => exact h.swept doomed

/-- A script is called a second time only after a payload that is not its own cancellation has left its
step. When a script has been destroyed that was to release its key, it has been settled and the key
held nothing after that, or such a payload has left its step. -/
theorem one_call_one_release (s : Course) (q : Nat) (id : TaskId) :
    (∀ i j, i < j → (s i).Calls q id → (s j).Calls q id →
      ∃ l, i < l ∧ l < j ∧ ∃ claim, (s l).Forsakes q id claim) ∧
    ∀ i j t, s.Starts i q id t → t.release = true → i < j → s.Destroyed j q id t.claim →
      (∃ m, i < m ∧ m < j ∧ s.Settles m q id t.claim ∧
        (s (m + 1)).world.keeps t.engine t.key = false) ∨
      ∃ l, i < l ∧ l < j ∧ ∃ claim, (s l).Forsakes q id claim := by
  refine ⟨fun i j hij hi hj => ?_, fun i j t hstarts hrelease hij hdestroyed => ?_⟩
  · obtain ⟨l, hil, hlj, claim, _, hforsakes⟩ := forsaken_of_calls hi hj hij
    exact ⟨l, hil, hlj, claim, hforsakes⟩
  · have hran : t.claim.ran = false := hstarts.opens.2.1
    have hout : s.Outstanding (i + 1) q id t.claim :=
      .waiting (World.claims_ledger_of_task? hstarts.2)
    obtain hout | ⟨m, him, hmj, hsettles⟩ | ⟨l, hil, hlj, hforsakes⟩ | haborted :=
      hout.of_le hran (Nat.succ_le_of_lt hij)
    · exact absurd hout hdestroyed.not_outstanding
    · exact .inl ⟨m, him, hmj, hsettles, hsettles.keeps hran hrelease⟩
    · exact .inr ⟨l, hil, hlj, _, hforsakes⟩
    · exact absurd haborted hdestroyed.alive

/-- Between two commands every script that is not queued has been destroyed. -/
theorem destroyed_of_ended (hended : (s i).control.ended = true)
    (hnone : ((s i).world.task? q id).isNone) : s.Destroyed i q id claim := by
  refine ⟨Option.isNone_iff_eq_none.1 hnone, ?_, ?_, Control.ne_aborted_of_ended hended⟩
  · rw [Process.turns_of_ended hended]
    exact List.not_mem_nil
  · rw [Process.holdings_of_ended hended]
    exact List.not_mem_nil

theorem starts_of_claims (hnone : ((s i).world.task? q id).isNone)
    (hclaim : (s (i + 1)).world.ledger.claims (q, id) = some claim) :
    ∃ t, s.Starts i q id t ∧ t.claim = claim := by
  obtain ⟨t, ht, hclaim⟩ := World.task?_of_claims hclaim
  exact ⟨t, ⟨Option.isNone_iff_eq_none.1 hnone, ht⟩, hclaim⟩

/-- A host function unwinds, in both of the calls of a script. Then the script and one that was never
called are removed. -/
def throwing : Course :=
  .ofCommands [{}] [.machine {}]
    [.act (.engine 0 (.host "h" [⟨[.unwind "x"], none, false⟩, ⟨[.unwind "x"], none, false⟩])),
      .act (.queue 0 (.parseAndStart "S" 0 "host h".toUTF8.data.toList)),
      .act (.queue 0 (.parseAndStart "T" 0 "pop".toUTF8.data.toList)),
      .act (.queue 0 .runPass), .act (.queue 0 .runPass),
      .act (.queue 0 (.remove "S")), .act (.queue 0 (.remove "T"))]

theorem calls_throwing : (throwing 10).Calls 0 ⟨1, 1⟩ ∧ (throwing 20).Calls 0 ⟨1, 1⟩ := by
  have hbegins : (throwing 10).Begins 0 ⟨1, 1⟩ ∧ (throwing 20).Begins 0 ⟨1, 1⟩ := by
    rw [Process.Begins, Process.Begins]
    decide +kernel
  have hclaims : (throwing 10).world.ledger.claims (0, ⟨1, 1⟩) = some ⟨0, 0, true, false⟩ ∧
      (throwing 20).world.ledger.claims (0, ⟨1, 1⟩) = some ⟨0, 0, true, true⟩ := by decide +kernel
  obtain ⟨t, ht, _⟩ := World.task?_of_claims hclaims.1
  obtain ⟨t', ht', _⟩ := World.task?_of_claims hclaims.2
  exact ⟨⟨hbegins.1, t, ht⟩, hbegins.2, t', ht'⟩

theorem one_call_one_release_throwing :
    ((throwing 10).Calls 0 ⟨1, 1⟩ ∧ (throwing 20).Calls 0 ⟨1, 1⟩ ∧
      ∃ l, 10 < l ∧ l < 20 ∧ ∃ claim, (throwing l).Forsakes 0 ⟨1, 1⟩ claim) ∧
    ∃ t, throwing.Starts 7 0 ⟨2, 1⟩ t ∧ t.release = true ∧
      throwing.Destroyed 37 0 ⟨2, 1⟩ t.claim ∧
      ((∃ m, 7 < m ∧ m < 37 ∧ throwing.Settles m 0 ⟨2, 1⟩ t.claim ∧
        (throwing (m + 1)).world.keeps t.engine t.key = false) ∨
      ∃ l, 7 < l ∧ l < 37 ∧ ∃ claim, (throwing l).Forsakes 0 ⟨2, 1⟩ claim) := by
  obtain ⟨hfirst, hsecond⟩ := calls_throwing
  refine ⟨⟨hfirst, hsecond,
    (throwing.one_call_one_release 0 ⟨1, 1⟩).1 10 20 (by decide) hfirst hsecond⟩, ?_⟩
  obtain ⟨t, hstarts, hclaim⟩ :
      ∃ t, throwing.Starts 7 0 ⟨2, 1⟩ t ∧ t.claim = ⟨0, 1, true, false⟩ :=
    starts_of_claims (by decide +kernel) (by decide +kernel)
  have hrelease : t.release = true := congrArg Claim.release hclaim
  have hdestroyed : throwing.Destroyed 37 0 ⟨2, 1⟩ t.claim :=
    destroyed_of_ended (by decide +kernel) (by decide +kernel)
  exact ⟨t, hstarts, hrelease, hdestroyed,
    (throwing.one_call_one_release 0 ⟨2, 1⟩).2 7 37 t hstarts hrelease (by decide) hdestroyed⟩

/-- The first script has been called twice, and it has been destroyed while its key holds its
program. -/
theorem throwing_calls_again_and_leaks :
    (throwing 10).Calls 0 ⟨1, 1⟩ ∧ (throwing 20).Calls 0 ⟨1, 1⟩ ∧
    ∃ t, throwing.Starts 4 0 ⟨1, 1⟩ t ∧ t.release = true ∧
      throwing.Destroyed 33 0 ⟨1, 1⟩ t.claim ∧
      ∀ l, 5 ≤ l → l ≤ 33 → (throwing l).world.keeps t.engine t.key = true := by
  obtain ⟨t, hstarts, hclaim⟩ :
      ∃ t, throwing.Starts 4 0 ⟨1, 1⟩ t ∧ t.claim = ⟨0, 0, true, false⟩ :=
    starts_of_claims (by decide +kernel) (by decide +kernel)
  obtain ⟨hengine, hkey, hrelease, _⟩ := Claim.mk.inj hclaim
  refine ⟨calls_throwing.1, calls_throwing.2, t, hstarts, hrelease, ?_, fun l hl hl' => ?_⟩
  · exact destroyed_of_ended (by decide +kernel) (by decide +kernel)
  · have hkept : ∀ l ≤ 33, 5 ≤ l → (throwing l).world.keeps 0 0 = true := by decide +kernel
    rw [hengine, hkey]
    exact hkept l hl' hl

end Course

end TaskLoop
