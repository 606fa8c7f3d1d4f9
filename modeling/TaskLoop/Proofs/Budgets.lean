import TaskLoop.Proofs.Charges
import TaskLoop.Proofs.Course

namespace TaskLoop

variable {a : Hole} {w : World} {e key i j : Nat} {p : Process} {k : Pending .call} {ps : List Nat}
  {handler : Handler} {m m' : Machine} {mark : UInt64} {L : Nat → Option Limits}

structure Machine.Fits (m : Machine) : Prop where
  stack : m.stack.height ≤ m.limits.stack.toNat
  memory : m.allocated ≤ m.limits.memory

theorem Machine.Fits.charged (hm : m.Fits) (h : m.Charged m') : m'.Fits := by
  refine ⟨?_, ?_⟩
  · rw [h.limits]
    exact Nat.le_trans h.height (Nat.max_le.2 ⟨hm.stack, Nat.le_refl _⟩)
  · rw [h.limits]
    obtain hsame | hle := h.allocated
    · exact hsame ▸ hm.memory
    · exact hle

structure MachineCall.Fits (limits : Limits) (call : MachineCall) : Prop where
  frames : call.frames.length ≤ max 1 limits.callDepth.toNat
  mark : call.mark ≤ limits.memory

namespace Control

def marks (control : Control) (e : Nat) : List UInt64 :=
  (control.calls.filter (·.1 = e)).map (·.2.mark)

theorem marks_eq_nil {control : Control} (h : ∀ call, (e, call) ∉ control.calls) :
    control.marks e = [] := by
  refine List.map_eq_nil_iff.2 (List.filter_eq_nil_iff.2 ?_)
  rintro ⟨e', call⟩ hm he
  obtain rfl : e' = e := of_decide_eq_true he
  exact h call hm

theorem marks_cons {control : Control} {call : MachineCall} {cs : List (Nat × MachineCall)}
    {e' : Nat} (h : control.calls = (e', call) :: cs) (e : Nat) :
    control.marks e =
      (if e' = e then [call.mark] else []) ++ (cs.filter (·.1 = e)).map (·.2.mark) := by
  rw [marks, h, List.filter_cons]
  by_cases he : e' = e
  · simp [he]
  · simp [he]

end Control

namespace Process

/-- The process keeps to the limits of its machines. If nothing has been aborted, the outermost call
of a machine has found nothing allocated, and without a call nothing is. -/
structure Budgeted (L : Nat → Option Limits) (p : Process) : Prop where
  limits : ∀ e, (p.world.machine? e).map (·.limits) = L e
  machines : ∀ e m, p.world.machine? e = some m → m.Fits
  calls : ∀ e call, (e, call) ∈ p.control.calls → ∀ l, L e = some l → call.Fits l
  idle : p.control ≠ .aborted → ∀ e m, p.world.machine? e = some m →
    (p.control.marks e).getLastD m.allocated = 0

theorem Budgeted.limits_eq (h : p.Budgeted L) (hm : p.world.machine? e = some m) :
    L e = some m.limits := by
  rw [← h.limits, hm]
  rfl

end Process

namespace World

theorem Machines.limits_eq {R : Nat → Machine → Machine → Prop} {w' : World} (h : w.Machines R w')
    (hR : ∀ e m m', R e m m' → m.Sober m') (e : Nat) :
    (w'.machine? e).map (·.limits) = (w.machine? e).map (·.limits) := by
  have hrel := h e
  generalize w.machine? e = o at hrel ⊢
  generalize w'.machine? e = o' at hrel ⊢
  cases hrel with
  | none => rfl
  | some h => exact congrArg some (hR e _ _ h).limits

theorem machine?_begin (w : World) (command : Command) (e : Nat) :
    (w.begin command).world.machine? e = w.machine? e :=
  begin_induction (motive := fun p => p.world.machine? e = w.machine? e) (fun _ => rfl) rfl
    (fun _ _ _ => rfl) command

theorem calls_begin (w : World) (command : Command) : (w.begin command).control.calls = [] :=
  begin_induction (motive := fun p => p.control.calls = []) (fun _ => rfl) rfl (fun _ _ _ => rfl) command

end World

namespace Process

theorem Budgeted.embarks {p' : Process} (h : p.Budgeted L)
    (h' : p'.Embarks p.world p.control.calls ps) (hlive : p.control ≠ .aborted) : p'.Budgeted L := by
  have hworld : p.world.Frugal p'.world := by
    cases h' with
    | idles idles => exact idles.world
    | calls _ _ world => exact world
  have hmachines : ∀ e m', p'.world.machine? e = some m' → m'.Fits := fun e m' hm' => by
    obtain ⟨m, hm, hfrugal⟩ := hworld.origin hm'
    exact (h.machines e m hm).charged hfrugal.charged
  refine ⟨fun e => (hworld.limits_eq (fun _ _ _ h => h.toSober) e).trans (h.limits e), hmachines,
    fun e call hm l hl => ?_, fun _ e m' hm' => ?_⟩
  · cases h' with
    | idles idles => exact h.calls e call (idles.calls ▸ hm) l hl
    | @calls e₀ m program handler world machine calls =>
      rw [calls] at hm
      obtain hm | hm := List.mem_cons.1 hm
      · cases hm
        obtain ⟨m₀, hm₀, hfrugal⟩ := world.origin machine
        obtain rfl : m₀.limits = l := Option.some.inj ((h.limits_eq hm₀).symm.trans hl)
        refine ⟨Nat.le_max_left .., ?_⟩
        exact hfrugal.limits ▸ (hmachines _ m machine).memory
      · exact h.calls e call hm l hl
  · obtain ⟨m, hm, hfrugal⟩ := hworld.origin hm'
    have hidle := h.idle hlive e m hm
    rw [hfrugal.allocated]
    cases h' with
    | idles idles => rwa [Control.marks, idles.calls]
    | @calls e₀ m₀ program handler world machine calls =>
      rw [Control.marks_cons calls]
      split
      · next he =>
        subst he
        obtain rfl := Option.some.inj (machine.symm.trans hm')
        rw [List.singleton_append, List.getLastD_cons, hfrugal.allocated]
        exact hidle
      · exact hidle

theorem Budgeted.works {p' : Process} {call : MachineCall} (h : p.Budgeted L)
    (before : p.control.calls = (e, call) :: k.calls) (h' : p'.Works p.world e call k)
    (hlive : p.control ≠ .aborted) : p'.Budgeted L := by
  have hmem : (e, call) ∈ p.control.calls := by rw [before]; exact List.mem_cons_self ..
  have hbelow : ∀ e₁ call₁, (e₁, call₁) ∈ k.calls → ∀ l, L e₁ = some l → call₁.Fits l :=
    fun e₁ call₁ hm => h.calls e₁ call₁ (by rw [before]; exact List.mem_cons_of_mem _ hm)
  have hmarks := Control.marks_cons before
  -- what is the same whether a result or a payload leaves the call
  have hends : p.world.Discharges e call.mark p'.world → p'.control.calls = k.calls →
      p'.Budgeted L := fun world calls => by
    refine ⟨fun e₁ => (world.limits_eq (fun _ _ _ h => h.1) e₁).trans (h.limits e₁),
      fun e₁ m' hm' => ?_, fun e₁ call₁ hm => hbelow e₁ call₁ (calls ▸ hm), fun _ e₁ m' hm' => ?_⟩
    · obtain ⟨m, hm, hsober, hallocated⟩ := world.origin hm'
      refine (h.machines e₁ m hm).charged ⟨hsober, ?_⟩
      rw [hallocated]
      split
      · next he =>
        subst he
        exact .inr (h.calls _ call hmem _ (h.limits_eq hm)).mark
      · exact .inl rfl
    · obtain ⟨m, hm, _, hallocated⟩ := world.origin hm'
      have hidle := h.idle hlive e₁ m hm
      rw [hmarks] at hidle
      rw [Control.marks, calls, hallocated]
      split at hidle
      · next he =>
        rw [if_pos he.symm]
        rwa [List.singleton_append, List.getLastD_cons] at hidle
      · next he =>
        rw [if_neg (Ne.symm he)]
        exact hidle
  cases h' with
  | returns world result control => exact hends world (by rw [control]; rfl)
  | unwinds world payload control => exact hends world (by rw [control]; rfl)
  | @goes _ _ call' own mark frames world upon calls =>
    refine ⟨fun e₁ => (world.limits_eq (fun _ _ _ h => h.1.toSober) e₁).trans (h.limits e₁),
      fun e₁ m' hm' => ?_, fun e₁ call₁ hm l hl => ?_, fun _ e₁ m' hm' => ?_⟩
    · obtain ⟨m, hm, hcharged, _⟩ := world.origin hm'
      exact (h.machines e₁ m hm).charged hcharged
    · rw [calls] at hm
      obtain hm | hm := List.mem_cons.1 hm
      · cases hm
        have hfits := h.calls e call hmem l hl
        refine ⟨?_, mark ▸ hfits.mark⟩
        rw [← h.limits] at hl
        obtain ⟨m, hm, rfl⟩ := Option.map_eq_some_iff.1 hl
        exact Nat.le_trans (frames m hm) (Nat.max_le.2 ⟨hfits.frames, Nat.le_max_right ..⟩)
      · exact hbelow e₁ call₁ hm l hl
    · obtain ⟨m, hm, _, hother⟩ := world.origin hm'
      have hidle := h.idle hlive e₁ m hm
      rw [hmarks] at hidle
      rw [Control.marks_cons calls, mark]
      split at hidle
      · next he =>
        rw [if_pos he]
        rwa [List.singleton_append, List.getLastD_cons] at hidle ⊢
      · next he =>
        rw [if_neg he, hother (Ne.symm he)]
        exact hidle

theorem Budgeted.step (h : p.Budgeted L) : p.step.Budgeted L := by
  by_cases hlive : p.control = .aborted
  · rwa [step_of_isOver (by rw [isOver, hlive])]
  · cases p.traffic with
    | embarks embarks => exact h.embarks embarks hlive
    | works before works => exact h.works before works hlive
    | aborts world aborted =>
      refine ⟨fun e => world ▸ h.limits e, fun e m hm => h.machines e m (world ▸ hm), ?_,
        fun hne => absurd aborted hne⟩
      rw [aborted]
      intro e call hm
      cases hm

theorem Budgeted.begin (h : p.Budgeted L) (hended : p.control.ended = true) (command : Command) :
    (p.world.begin command).Budgeted L := by
  have hmachine := p.world.machine?_begin command
  have hcalls := p.world.calls_begin command
  have hbefore : p.control.calls = [] ∧ p.control ≠ .aborted := by
    cases hc : p.control with
    | answered | escaped => exact ⟨rfl, fun h => by cases h⟩
    | perform | deliver | unwind | aborted => rw [hc] at hended; cases hended
  refine ⟨fun e => hmachine e ▸ h.limits e, fun e m hm => h.machines e m (hmachine e ▸ hm),
    fun e call hm => ?_, fun _ e m hm => ?_⟩
  · rw [hcalls] at hm
    cases hm
  · have hidle := h.idle hbefore.2 e m (hmachine e ▸ hm)
    rw [Control.marks, hbefore.1] at hidle
    rwa [Control.marks, hcalls]

/-- A protected call that has found so much allocated is in progress, or it has ended and so much is
allocated, or everything is over. -/
inductive Attends (k : Pending .call) (e : Nat) (mark : UInt64) (p : Process) : Prop
  | inside {a : Hole} {f : Activation a .call} {call : MachineCall} (own : f.call? = some (e, call))
      (marked : call.mark = mark) (upon : p.control.Upon (.cons f k))
  | ended (depth : p.control.depth = k.depth)
      (allocated : ∀ m, p.world.machine? e = some m → m.allocated = mark)
  | aborted (aborted : p.control = .aborted)

theorem Works.attends {call : MachineCall} (h : p.Works w e call k) : p.Attends k e call.mark := by
  have hends : w.Discharges e call.mark p.world →
      ∀ m, p.world.machine? e = some m → m.allocated = call.mark := fun world m hm => by
    obtain ⟨_, _, _, hallocated⟩ := world.origin hm
    rwa [if_pos rfl] at hallocated
  cases h with
  | goes own mark frames world upon calls => exact .inside own mark upon
  | returns world result control => exact .ended (by rw [control]; rfl) (hends world)
  | unwinds world payload control => exact .ended (by rw [control]; rfl) (hends world)

theorem Attends.step (h : p.Attends k e mark) (hinside : k.depth < p.control.depth) :
    p.step.Attends k e mark := by
  cases h with
  | ended depth => exact absurd hinside (by omega)
  | aborted aborted => rw [aborted] at hinside; cases hinside
  | @inside a f call own marked upon =>
    have ha : a ≠ .reply := by
      rintro rfl
      cases f
    subst marked
    cases holds upon ha with
    | above deeper stays =>
      obtain hupon | haborted := stays
      · exact .inside own rfl hupon
      · exact .aborted haborted
    | result w result =>
      rw [World.deliver, step_deliver]
      exact (Activation.works_resume own result w k).attends
    | payload w payload =>
      rw [World.unwind, step_unwind]
      exact (Activation.works_unwind own payload w k).attends

theorem attends_callProtected (hm : w.machine? e = some m) :
    (w.callProtected e key handler k).Attends k e m.allocated := by
  obtain ⟨p, _, hcall⟩ | ⟨_, text, hcall⟩ := World.callProtected_cases hm key handler k
  · rw [hcall]
    exact .inside (f := .machine e _) rfl rfl .refl
  · rw [hcall]
    refine .ended rfl fun m' hm' => ?_
    rw [World.deliver, World.machine?_handle, hm] at hm'
    rw [Option.some.inj hm']

end Process

def Activation.machine? {a b : Hole} : Activation a b → Option Nat
  | .machine e _ => some e
  | _ => none

def Control.machine? : Control → Option Nat
  | .deliver _ (.cons f _) => f.machine?
  | _ => none

theorem Control.machine?_eq_some {control : Control} (h : control.machine? = some e) :
    ∃ call k, control = .deliver () (.cons (.machine e call) k) := by
  cases control with
  | deliver result k =>
    cases k with
    | outermost => cases h
    | cons f k =>
      cases f with
      | machine e' call => cases h; exact ⟨call, k, rfl⟩
      | _ => cases h
  | _ => cases h

def Process.Reports (p : Process) (e depth : Nat) : Prop :=
  p.control.machine? = some e ∧
    ∃ label instruction, p.step.world.log = .hook label instruction depth :: p.world.log

def Event.ofHook : Event → Bool
  | .hook .. => true
  | _ => false

namespace World

variable {call : MachineCall}

def Silent (w : World) (log : List Event) : Prop :=
  w.log = log ∨ ∃ event : Event, event.ofHook = false ∧ w.log = event :: log

theorem Silent.ne_hook {log : List Event} {label : String} {instruction depth : Nat}
    (h : w.Silent log) : w.log ≠ .hook label instruction depth :: log := by
  intro hlog
  obtain h | ⟨event, hevent, h⟩ := h
  · exact List.cons_ne_self _ _ (hlog.symm.trans h)
  · cases (List.cons.inj (hlog.symm.trans h)).1
    cases hevent

theorem silent_failMachine (w : World) (e : Nat) (call : MachineCall) (fault : Fault)
    (k : Pending .call) : (w.failMachine e call fault k).world.Silent w.log := by
  cases fault with
  | memory => exact .inl (log_modifyMachine w e _)
  | runtime fault =>
    unfold failMachine handle
    cases call.handler with
    | traceback => exact .inl (log_modifyMachine w e _)
    | recording => exact .inr ⟨.handled _ _, rfl, log_modifyMachine _ e _⟩

theorem silent_executeOp (w : World) (e : Nat) (call : MachineCall) (op : Op) (k : Pending .call) :
    (w.executeOp e call op k).world.Silent w.log := by
  unfold executeOp
  split
  · exact .inl rfl
  · split
    · exact .inl rfl
    · exact silent_failMachine (w.setMachine e _) e call _ k
    · next name _ =>
      unfold callHost
      split
      · exact silent_failMachine w e call _ k
      · dsimp only
        split
        · exact .inr ⟨.host name, rfl, rfl⟩
        · exact .inr ⟨.host name, rfl, by rw [world_callBack]; rfl⟩

theorem depth_runMachine {label : String} {instruction depth : Nat}
    (h : (w.runMachine e call k).world.log = .hook label instruction depth :: w.log) :
    1 ≤ depth ∧ depth ≤ call.frames.length := by
  unfold runMachine at h
  split at h
  · exact absurd h (Silent.ne_hook (.inl (log_modifyMachine w e _)))
  · next op frames hfetch =>
    have htick := log_tickHook (w.countInstruction e) e
    dsimp only at h
    split at h
    · next w₁ h₁ =>
      rw [h₁] at htick
      exact absurd (h.trans (congrArg _ htick.symm)) (silent_executeOp w₁ e _ op k).ne_hook
    · next hook w₁ h₁ =>
      rw [h₁] at htick
      cases hook with
      | cancel q =>
        refine absurd h (Silent.ne_hook (.inl (Eq.trans ?_ htick)))
        simp only [fireHook]
        split <;> rfl
      | user label fires =>
        rw [fireHook, world_callBack] at h
        cases (List.cons.inj h).1
        exact Program.length_fetch hfetch

end World

theorem Process.Budgeted.depth_le {depth : Nat} (h : p.Budgeted L) (hm : p.world.machine? e = some m)
    (hreports : p.Reports e depth) : 1 ≤ depth ∧ depth ≤ max 1 m.limits.callDepth.toNat := by
  obtain ⟨hmachine, label, instruction, hlog⟩ := hreports
  obtain ⟨w, control⟩ := p
  obtain ⟨call, k, rfl⟩ := Control.machine?_eq_some hmachine
  rw [step_deliver] at hlog
  obtain ⟨hpos, hle⟩ := World.depth_runMachine hlog
  have hmem : (e, call) ∈ (Pending.cons (.machine e call) k).calls := List.mem_cons_self ..
  exact ⟨hpos, Nat.le_trans hle (h.calls e call hmem _ (h.limits_eq hm)).frames⟩

theorem World.machine?_make {start : UInt64} {queues : List QueueConfig} {engines : List EngineKind}
    (h : (World.make start queues engines).machine? e = some m) : ∃ limits, m = { limits } := by
  obtain ⟨E, hE, hmachine⟩ := Option.bind_eq_some_iff.1 h
  simp only [engine?, make, List.getElem?_toArray, List.getElem?_map, Option.map_eq_some_iff] at hE
  obtain ⟨kind, _, rfl⟩ := hE
  cases kind with
  | machine limits => exact ⟨limits, (Option.some.inj hmachine).symm⟩
  | pacer | inert => cases hmachine

namespace Course

variable {s : Course}

theorem budgeted (s : Course) (i : Nat) :
    (s i).Budgeted fun e => ((s 0).world.machine? e).map (·.limits) := by
  induction i with
  | zero =>
    obtain ⟨start, queues, engines, hfresh⟩ := s.starts
    have hmade : ∀ e m, (s 0).world.machine? e = some m → ∃ limits, m = { limits } := by
      intro e m hm
      rw [show s 0 = _ from hfresh] at hm
      exact World.machine?_make hm
    have hcalls : (s 0).control.calls = [] := congrArg (·.control.calls) hfresh
    refine ⟨fun _ => rfl, fun e m hm => ?_, fun e call hm => ?_, fun _ e m hm => ?_⟩
    · obtain ⟨limits, rfl⟩ := hmade e m hm
      exact ⟨Nat.zero_le _, UInt64.zero_le⟩
    · rw [hcalls] at hm
      cases hm
    · obtain ⟨limits, rfl⟩ := hmade e m hm
      rw [Control.marks, hcalls]
      rfl
  | succ i ih =>
    obtain hstep | ⟨hended, command, hbegin⟩ := s.step_or_begin i
    · rw [hstep]
      exact ih.step
    · rw [hbegin]
      exact ih.begin hended command

/-- A protected call that is made in the course of a session is attended to until it ends. -/
theorem attends (hm : w.machine? e = some m) (hcall : s i = w.callProtected e key handler k)
    (hij : i ≤ j) (hinside : ∀ l, i ≤ l → l < j → k.depth < (s l).control.depth) :
    (s j).Attends k e m.allocated := by
  induction hij with
  | refl =>
    rw [hcall]
    exact Process.attends_callProtected hm
  | @step j hij ih =>
    have hdeeper := hinside j hij (Nat.lt_succ_self j)
    rw [succ_eq_step]
    · exact (ih fun l hil hlj => hinside l hil (Nat.lt_succ_of_lt hlj)).step hdeeper
    · cases hc : (s j).control with
      | answered | escaped => rw [hc] at hdeeper; cases hdeeper
      | perform | deliver | unwind | aborted => rfl

/-- At every moment of a session a machine has the limits that it was made with, its stack and what
it has allocated are within them, and a hook that it fires is told a depth within them. If no
protected call of the machine is in progress, nothing is allocated. A call that has come to its end,
by a result or by a payload, leaves allocated what was allocated when it was made. -/
theorem budgets (s : Course) {m₀ : Machine} (hm₀ : (s 0).world.machine? e = some m₀) (i : Nat) :
    ∃ m, (s i).world.machine? e = some m ∧ m.limits = m₀.limits ∧
      m.stack.items.length ≤ m₀.limits.stack.toNat ∧ m.allocated ≤ m₀.limits.memory ∧
      (∀ depth, (s i).Reports e depth → 1 ≤ depth ∧ depth ≤ max 1 m₀.limits.callDepth.toNat) ∧
      ((s i).control ≠ .aborted → (∀ call, (e, call) ∉ (s i).control.calls) → m.allocated = 0) ∧
      ∀ (w : World) (m₁ : Machine) (key : Nat) (handler : Handler) (k : Pending .call) (j : Nat),
        w.machine? e = some m₁ → s i = w.callProtected e key handler k → i ≤ j →
        (∀ l, i ≤ l → l < j → k.depth < (s l).control.depth) → (s j).control.depth ≤ k.depth →
        (s j).control ≠ .aborted →
          ∃ m', (s j).world.machine? e = some m' ∧ m'.allocated = m₁.allocated := by
  have hmachine : ∀ i, ∃ m, (s i).world.machine? e = some m ∧ m.limits = m₀.limits := fun i => by
    have hlimits := (s.budgeted i).limits e
    rw [hm₀] at hlimits
    exact Option.map_eq_some_iff.1 hlimits
  have hbudgeted := s.budgeted i
  obtain ⟨m, hm, hlimits⟩ := hmachine i
  have hfits := hbudgeted.machines e m hm
  refine ⟨m, hm, hlimits, ?_, hlimits ▸ hfits.memory, fun depth hreports => ?_,
    fun hlive hnone => ?_, fun w m₁ key handler k j hm₁ hcall hij hinside hdepth hlive => ?_⟩
  · rw [← m.stack.height_eq, ← hlimits]
    exact hfits.stack
  · exact hlimits ▸ hbudgeted.depth_le hm hreports
  · have hidle := hbudgeted.idle hlive e m hm
    rwa [Control.marks_eq_nil hnone] at hidle
  · obtain ⟨m', hm', _⟩ := hmachine j
    refine ⟨m', hm', ?_⟩
    cases attends hm₁ hcall hij hinside with
    | inside own marked upon =>
      exact absurd (Nat.le_trans upon.depth_le hdepth) (Nat.not_succ_le_self _)
    | ended depth allocated => exact allocated m' hm'
    | aborted aborted => exact absurd aborted hlive

/-- A machine whose first program calls a host function twice, from a nested function. The first
time the host function makes another protected call, which runs out of memory; the second time a
payload leaves it. -/
def nested : Course :=
  .ofCommands [] [.machine ⟨64, 2, 4⟩] [
    .act (.engine 0 (.host "h" [⟨[.engine 0 (.call 1 .traceback)], none, false⟩,
      ⟨[.unwind "x"], none, false⟩])),
    .act (.engine 0 (.load "a"
      "alloc 10\ncall f\nfn f\nalloc 20\nhost h\nhost h\nend".toUTF8.data.toList)),
    .act (.engine 0 .reference),
    .act (.engine 0 (.load "b" "alloc 20\nalloc 20".toUTF8.data.toList)),
    .act (.engine 0 .reference), .act (.engine 0 (.setHook 1 "t" [])),
    .act (.engine 0 (.call 0 .traceback))]

theorem callProtected_of_action? {E : Engine} (hE : (s i).world.engine? e = some E)
    (haction : (s i).control.action? = some (.engine e (.call key handler))) :
    ∃ k, k.depth = (s i).control.depth + 1 ∧
      s (i + 1) = (s i).world.callProtected e key handler k := by
  cases hc : (s i).control with
  | perform action k =>
    rw [hc] at haction
    cases haction
    refine ⟨.cons .callReply k, rfl, ?_⟩
    rw [succ_eq_step (by rw [hc]; rfl), Process.step, hc]
    dsimp only
    rw [World.perform, hE]
    rfl
  | _ => rw [hc] at haction; cases haction

theorem budgets_nested :
    (nested 29).Reports 0 2 ∧ 2 ≤ max 1 (2 : UInt64).toNat ∧
    ((nested 32).world.machine? 0).map (·.allocated) = some 30 ∧
    ((nested 38).world.machine? 0).map (·.allocated) = some 50 ∧
    (∃ m, (nested 39).world.machine? 0 = some m ∧ m.allocated = 30) ∧
    (nested 48).control.payload? = some (.foreign "x") ∧
    ∃ m, (nested 48).world.machine? 0 = some m ∧ m.allocated = 0 := by
  obtain ⟨m₀, hm₀, hlimits⟩ : ∃ m₀, (nested 0).world.machine? 0 = some m₀ ∧ m₀.limits = ⟨64, 2, 4⟩ :=
    ⟨_, rfl, rfl⟩
  have hreports : (nested 29).Reports 0 2 := ⟨by cbv, "t", 4, by cbv⟩
  obtain ⟨_, _, _, _, _, hdepth, _⟩ := budgets nested hm₀ 29
  obtain ⟨_, _, _, _, _, _, _, hinner⟩ := budgets nested hm₀ 33
  obtain ⟨m₁, hm₁, _, _, _, _, hidle, _⟩ := budgets nested hm₀ 48
  have hallocated : ((nested 32).world.machine? 0).map (·.allocated) = some 30 := by decide +kernel
  obtain ⟨m, hm, hm30⟩ := Option.map_eq_some_iff.1 hallocated
  obtain ⟨E, hE, _⟩ := Option.bind_eq_some_iff.1 hm
  have haction : (nested 32).control.action? = some (.engine 0 (.call 1 .traceback)) := by cbv
  obtain ⟨k, hk, hcall⟩ := callProtected_of_action? hE haction
  have hinside : ∀ l < 39, 33 ≤ l → 4 < (nested l).control.depth := by decide +kernel
  have hdepth32 : (nested 32).control.depth = 3 := by decide +kernel
  have hcalls : (nested 48).control.calls.length = 0 := by decide +kernel
  have hlive : ∀ i, 0 < (nested i).control.depth → (nested i).control ≠ .aborted := by
    intro i hpos h
    rw [h] at hpos
    cases hpos
  rw [hdepth32] at hk
  rw [hlimits] at hdepth
  refine ⟨hreports, (hdepth 2 hreports).2, hallocated, by decide +kernel, ?_, by decide +kernel, m₁,
    hm₁, hidle (hlive 48 (by decide +kernel)) fun call hm => ?_⟩
  · rw [← hm30]
    exact hinner _ m 1 .traceback k 39 hm hcall (by decide)
      (fun l hl hlt => hk ▸ hinside l hlt hl) (hk ▸ by decide +kernel) (hlive 39 (by decide +kernel))
  · rw [List.length_eq_zero_iff.1 hcalls] at hm
    cases hm

end Course

end TaskLoop
