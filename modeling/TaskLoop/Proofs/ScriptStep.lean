import TaskLoop.Proofs.Callback
import TaskLoop.Proofs.Countdown

namespace TaskLoop

variable {w : World} {q e d n N l : Nat} {id : TaskId} {p : Process}

theorem Machine.execute_ne_host {op : Op} (m : Machine) (frames : List CallFrame) (name : String)
    (hop : op ≠ .host name) : m.execute op frames ≠ .host name := by
  have hpushing : ∀ (m : Machine) (v : Value), m.pushing v frames ≠ .host name := fun m v => by
    unfold pushing
    split <;> nofun
  have harithmetic : ∀ f, m.arithmetic f frames ≠ .host name := fun f => by
    unfold arithmetic
    split
    · nofun
    · split
      · nofun
      · split
        · exact hpushing _ _
        · nofun
  cases op with
  | push v => exact hpushing m _
  | add | sub => exact harithmetic _
  | dup =>
    unfold execute
    dsimp only
    split
    · nofun
    · exact hpushing m _
  | pop | jumpz target =>
    unfold execute
    dsimp only
    split <;> nofun
  | call function =>
    unfold execute
    dsimp only
    split <;> nofun
  | alloc bytes =>
    unfold execute charge
    dsimp only
    split <;> nofun
  | jump | ret | raise => nofun
  | host name' => rintro ⟨⟩; exact hop rfl

def Control.scriptOp? (q : Nat) : Control → Option Op
  | .deliver _ (.cons (.machine _ call) (.cons (.script q' _ _ _) _)) =>
    if q' = q then (call.program.fetch call.frames).map Prod.fst else none
  | _ => none

/-- No script of the queue calls a host function next, or hooks are due at every instruction. -/
def Process.Hostless (q N : Nat) (p : Process) : Prop :=
  N = 1 ∨ ∀ name, p.control.scriptOp? q ≠ some (.host name)

inductive Process.CallEnds (id : TaskId) (k : Pending .call) : Process → Prop
  | returned (w : World) (result : Except CallError Unit) : CallEnds id k (w.deliver k result)
  | cancelled (w : World) : CallEnds id k (w.unwind (.cancelled id) k)

namespace World

open Process

variable {call : MachineCall} {k : Pending .call}

theorem callEnds_failMachine (w : World) (e : Nat) (call : MachineCall) (fault : Fault)
    (k : Pending .call) : (w.failMachine e call fault k).CallEnds id k := by
  cases fault with
  | memory => exact .returned _ _
  | runtime => exact .returned _ _

theorem executeOp_cases {op : Op} (hop : ∀ name, op ≠ .host name) (w : World) (e : Nat)
    (call : MachineCall) (k : Pending .call) :
    (w.executeOp e call op k).CallEnds id k ∨ ∃ (w₁ : World) (call' : MachineCall),
      w.executeOp e call op k = w₁.deliver (.cons (.machine e call') k) () := by
  unfold executeOp
  split
  · exact .inl (.returned _ _)
  · next m _ =>
    split
    · exact .inr ⟨_, _, rfl⟩
    · exact .inl (callEnds_failMachine _ e call _ k)
    · next name heffect => exact absurd heffect (m.execute_ne_host call.frames name (hop name))

theorem lasting_aside_pulse (w : World) (e : Nat) (pulse : Option (Option Probe × Nat)) :
    Lasting (· ≠ e) fun w₁ => w.Aside (fun _ => True) w₁ ∧ w₁.pulse e = pulse :=
  fun _ _ h haside => ⟨h.1.trans (haside.mono fun _ _ => trivial), lasting_pulse e pulse h.2 haside⟩

/-- The machine of an interrupted script comes to the end of the call while the hook counts down. -/
theorem leads_machine {k' : Pending .verdict} {t : ScriptTask} {base : Nat}
    (hk : k = .cons (.script q id t base) k') (hd : d < k.depth)
    (hp : w.pulse e = some (some ⟨.cancel q, N, l⟩, n)) (hl : 1 ≤ l) (hle : l ≤ N)
    (hcancelled : (w.queue? q >>= (·.cancelled?)) = some id)
    (hhost : (w.deliver (.cons (.machine e call) k) ()).Throughout d (Hostless q N)) :
    ∃ p₁ : Process, p₁.CallEnds id k ∧ (w.deliver (.cons (.machine e call) k) ()).Leads
        (fun p => p.Above k ∧ p.world.executed e ≤ n + l) p₁ ∧
      w.Aside (fun _ => True) p₁.world ∧ p₁.world.executed e ≤ n + l := by
  induction l generalizing w n call with
  | zero => omega
  | succ l ih =>
    have hstep : (w.deliver (.cons (.machine e call) k) ()).step = w.runMachine e call k :=
      step_deliver w () (.machine e call) k
    -- the instruction is counted, whatever it comes to
    have hfirst : (w.deliver (.cons (.machine e call) k) ()).Leads
        (fun p => p.Above k ∧ p.world.executed e ≤ n + (l + 1)) (w.runMachine e call k) := by
      have hover := (within_runMachine (T := fun _ => True) (R := fun _ => True) (w := w)
        (fun _ _ _ _ => trivial) trivial e trivial call k).stack
      rw [← hstep] at hover ⊢
      exact .step ⟨⟨.cons trivial .refl, hover⟩, executed_le_of_pulse hp (by omega)⟩
    have hwatched := watched_runMachine hp hcancelled call k
    generalize w.runMachine e call k = p at hfirst hwatched
    cases hwatched with
    | ends =>
      obtain ⟨haside, hpulse⟩ := (within_leaveMachine (lasting_aside_pulse w e _).robust
        ⟨Aside.refl w, hp⟩ e call (.ok ()) k).world
      exact ⟨_, .returned _ _, hfirst, haside, executed_le_of_pulse hpulse (by omega)⟩
    | @cancels w₁ call' op due aside pulse =>
      have hmark := aside_modifyMachine (T := (· ≠ e)) w₁ e
        (f := fun m => { m with allocated := call'.mark }) fun m => by rfl
      obtain ⟨haside, hpulse⟩ := lasting_aside_pulse w e _ ⟨aside, pulse⟩ hmark
      have hnext : (w₁.unwind (.cancelled id) (.cons (.counted e call' op) k)).step =
          (w₁.modifyMachine e fun m => { m with allocated := call'.mark }).unwind (.cancelled id) k :=
        step_unwind w₁ _ (.counted e call' op) k
      refine ⟨_, .cancelled _, hfirst.trans (hnext ▸ .step ⟨⟨.cons trivial .refl, ?_⟩, ?_⟩), haside,
        executed_le_of_pulse hpulse (by omega)⟩
      · rw [hnext]
        exact .refl
      · exact executed_le_of_pulse pulse (by omega)
    | @executes w₁ op frames early fetched aside pulse =>
      have hop : ∀ name, op ≠ .host name := by
        rintro name rfl
        obtain hone | hnone := hhost.here (Nat.lt_succ_of_lt hd)
        · omega
        · subst hk
          exact hnone name (by simp [deliver, Control.scriptOp?, fetched])
      obtain ⟨haside, hpulse⟩ := (within_executeOp (lasting_aside_pulse w e _).robust
        ⟨aside, pulse⟩ e { call with frames } op k).world
      obtain hends | ⟨w₂, call', hnext⟩ := executeOp_cases hop w₁ e { call with frames } k
      · exact ⟨_, hends, hfirst, haside, executed_le_of_pulse hpulse (by omega)⟩
      · rw [hnext] at hfirst haside hpulse
        have hcancelled₂ : (w₂.queue? q >>= (·.cancelled?)) = some id :=
          (haside.queue? q).symm ▸ hcancelled
        obtain ⟨p₁, hends, hrest, haside₁, hcount⟩ := ih (w := w₂) hpulse (by omega) (by omega)
          hcancelled₂ (hhost.leads hfirst fun h => h.1.depth hd)
        refine ⟨p₁, hends, hfirst.trans (hrest.mono fun h => ⟨h.1, by omega⟩), haside.trans haside₁,
          by omega⟩

theorem leads_callProtected {k' : Pending .verdict} {t : ScriptTask} {base : Nat}
    (hk : k = .cons (.script q id t base) k') (hd : d < k.depth)
    (hN : 1 ≤ N) (hp : w.pulse e = some (some ⟨.cancel q, N, N⟩, n))
    (hcancelled : (w.queue? q >>= (·.cancelled?)) = some id) (key : Nat) (handler : Handler)
    (hhost : (w.callProtected e key handler k).Throughout d (Hostless q N)) :
    ∃ p₁ : Process, p₁.CallEnds id k ∧ (w.callProtected e key handler k).Leads
        (fun p => p.Above k ∧ p.world.executed e ≤ n + N) p₁ ∧
      w.Aside (fun _ => True) p₁.world ∧ p₁.world.executed e ≤ n + N := by
  obtain ⟨E, hE, hpulse⟩ := Option.bind_eq_some_iff.1 hp
  cases E with
  | pacer | inert => cases hpulse
  | machine E =>
    rw [callProtected, hE] at hhost ⊢
    dsimp only at hhost ⊢
    split at hhost
    · exact leads_machine hk hd hp hN (Nat.le_refl N) hcancelled hhost
    · refine ⟨_, .returned _ _, Leads.refl _, aside_handle w .., ?_⟩
      exact executed_le_of_pulse (lasting_pulse e _ hp (aside_handle w ..)) (Nat.le_add_right ..)

end World

theorem Process.CallEnds.step {k : Pending .verdict} {t : ScriptTask} {base : Nat}
    (h : p.CallEnds id (.cons (.script q id t base) k)) :
    ∃ w₀ w₁, p.step = w₁.deliver k .done ∧
      (w₀ = p.world ∨ ∃ text, w₀ = p.world.notify q .notice text) ∧
      w₀.Aside (fun _ => True) w₁ := by
  cases h with
  | returned w result =>
    rw [World.deliver, step_deliver]
    exact w.scriptReturned_eq q id t base result k fun _ => trivial
  | cancelled w =>
    rw [World.unwind, step_unwind, Activation.unwind, if_pos rfl]
    exact w.scriptReturned_eq q id t base (.ok ()) k fun _ => trivial

theorem Process.CallEnds.steady {k : Pending .verdict} {t : ScriptTask} {base : Nat}
    (h : p.CallEnds id (.cons (.script q id t base) k)) (hd : d < k.depth) :
    p.Steady k.turns d := by
  obtain ⟨_, _, hstep, _⟩ := h.step
  refine ⟨?_, by rw [hstep]; rfl, ?_⟩
  · cases h with
    | returned | cancelled => rfl
  · cases h with
    | returned | cancelled => exact Nat.lt_succ_of_lt hd

end TaskLoop
