import Mathlib
import TaskLoop.Proofs.CallStack
import TaskLoop.Proofs.ScriptTurn

namespace TaskLoop

variable {p p₁ : Process} {w : World} {q e n d : Nat} {id : TaskId} {t : ScriptTask}
  {E : MachineEngine} {P : Program} {Q : Queue} {walk : Walk} {k : Pending .pass}
  {K : Pending .verdict} {m m₁ : Machine} {result : Except CallError Unit} {base : Nat}

def Task.unarmed : Task → Task
  | script t => script { t with armed := false }
  | task => task

theorem Arena.position?_modify {α : Type} (a : Arena α) (id : TaskId) (f : α → α) (other : TaskId) :
    (a.modify id f).position? other = a.position? other := by
  cases hi : a.position? id with
  | none => rw [modify, hi]
  | some i =>
    have hversion : ∀ j : Nat, ((a.modify id f).slots[j]?.map Slot.version) =
        a.slots[j]?.map Slot.version := by
      intro j
      rw [modify, hi]
      dsimp only
      rw [Array.getElem?_modify]
      split
      · rw [Option.map_map]
        rfl
      · rfl
    rw [position?, position?, hversion]

theorem Arena.modify_modify {α : Type} (a : Arena α) (id : TaskId) (f g : α → α) :
    (a.modify id f).modify id g = a.modify id (g ∘ f) := by
  have hi := a.position?_modify id f id
  unfold modify at hi ⊢
  cases hposition : a.position? id with
  | none => simp [hposition]
  | some i =>
    rw [hposition] at hi
    dsimp only at hi ⊢
    rw [hi]
    dsimp only
    congr 1
    apply Array.ext
    · simp
    · intro j hj hj'
      rw [Array.getElem_modify, Array.getElem_modify, Array.getElem_modify]
      split
      · simp
      · rfl

theorem Queue.modify_modify (Q : Queue) (id : TaskId) (f g : Task → Task) :
    (Q.modify id f).modify id g = Q.modify id (g ∘ f) := by
  rw [modify, modify, modify, ← Arena.modify_modify]

namespace World

def unarmed (w : World) (q : Nat) (id : TaskId) (e : Nat) : World :=
  (w.modifyQueue q (·.modify id Task.unarmed)).modifyEngine e (·.clearHook)

theorem modifyQueue_modifyQueue (w : World) (q : Nat) (f g : Queue → Queue) :
    (w.modifyQueue q f).modifyQueue q g = w.modifyQueue q (g ∘ f) := by
  have hqueues : (w.queues.modify q (Option.map f)).modify q (Option.map g) =
      w.queues.modify q (Option.map (g ∘ f)) := by
    apply Array.ext
    · simp
    · intro i hi hi'
      rw [Array.getElem_modify, Array.getElem_modify, Array.getElem_modify]
      split
      · rw [Option.map_map]
      · rfl
  simp only [modifyQueue, hqueues]

theorem HasScript.unarmed (h : w.HasScript q id Q t E P) :
    (w.unarmed q id t.engine).HasScript q id (Q.modify id Task.unarmed) { t with armed := false }
      { E with probe := none } P := by
  refine ⟨?_, ?_, ?_, h.program⟩
  · rw [World.unarmed, queue?_modifyEngine, queue?_modifyQueue, h.queue]
    rfl
  · rw [Queue.get?_modify, if_pos rfl, h.task]
    rfl
  · rw [World.unarmed, engine?_modifyEngine, engine?_modifyQueue, h.engine]
    rfl

/-- The step of the script begins alike, whether it was interrupted or not. -/
theorem entered_unarmed (w : World) (q : Nat) (id : TaskId) (t : ScriptTask) (e : Nat) :
    (w.unarmed q id e).entered q id { t with armed := false } =
      (w.entered q id t).unarmed q id e := by
  have hqueues : (w.modifyQueue q (·.modify id Task.unarmed)).entered q id { t with armed := false } =
      (w.entered q id t).modifyQueue q (·.modify id Task.unarmed) := by
    simp only [entered, modifyQueue_modifyQueue]
    congr 1
    funext Q
    simp only [Function.comp_apply]
    rw [Queue.modify_modify]
    exact Queue.modify_modify (Q.enter id) id Task.unarmed _
  exact congrArg (modifyEngine · e (·.clearHook)) hqueues

theorem report_unarmed (w : World) (q : Nat) (id : TaskId) (e : Nat)
    (result : Except CallError Unit) :
    (w.unarmed q id e).report q result = (w.report q result).unarmed q id e := by
  cases result with
  | ok => rfl
  | error error =>
    have hswap : (w.modifyQueue q (·.modify id Task.unarmed)).modifyQueue q
        (·.record ⟨.notice, error.notice⟩) =
        (w.modifyQueue q (·.record ⟨.notice, error.notice⟩)).modifyQueue q
          (·.modify id Task.unarmed) := by
      rw [modifyQueue_modifyQueue, modifyQueue_modifyQueue]
      rfl
    exact congrArg (fun w => (modifyEngine w e (·.clearHook)).logged
      (.status q ⟨.notice, error.notice⟩)) hswap

theorem mount_unarmed (w : World) (q : Nat) (id : TaskId) (e : Nat) (hprobe : E.probe = none) :
    (w.unarmed q id e).mount e E = (w.mount e E).unarmed q id e := by
  obtain ⟨m, probe, hosts⟩ := E
  obtain rfl : probe = none := hprobe
  rw [unarmed, mount_modifyEngine]
  exact (modifyEngine_mount (w.modifyQueue q (·.modify id Task.unarmed)) e rfl).symm

end World

namespace Process

/-- The number of instructions that an engine counts until the step ends, infinite if there is no
bound. -/
noncomputable def tally (K : Pending .verdict) (e : Nat) (p : Process) : ℕ∞ :=
  ⨆ (i : Nat) (_ : ∀ j < i, (p.run j).During K),
    (((p.run i).world.executed e - p.world.executed e : Nat) : ℕ∞)

theorem le_tally (h : p.Leads (During K) p₁) (e : Nat) :
    ((p₁.world.executed e - p.world.executed e : Nat) : ℕ∞) ≤ p.tally K e := by
  obtain ⟨i, rfl, hi⟩ := h
  exact le_iSup₂_of_le i hi le_rfl

theorem tally_eq (h : p.Leads (Busy K.depth e n) p₁) (hended : p₁.control.depth ≤ K.depth)
    (hcount : p₁.world.executed e = n) : p.tally K e = (n - p.world.executed e : Nat) := by
  apply le_antisymm
  · obtain ⟨N, rfl, hN⟩ := h
    refine iSup₂_le fun i hi => ?_
    have hle : i ≤ N := by
      by_contra hlt
      exact absurd (hi N (Nat.lt_of_not_le hlt)) (Nat.not_lt.2 hended)
    have hexecuted : (p.run i).world.executed e ≤ n := by
      obtain hlt | rfl := Nat.lt_or_eq_of_le hle
      · exact (hN i hlt).executed
      · exact hcount.le
    exact_mod_cast Nat.sub_le_sub_right hexecuted _
  · rw [← hcount]
    exact le_tally (h.mono fun hbusy => hbusy.depth) e

end Process

/-- What the step of an interrupted script leaves of its machine: no hook, as much allocated as
before, a stack that is no higher, and the key is free if the script owned it. -/
structure MachineEngine.Restored (t : ScriptTask) (E E₁ : MachineEngine) : Prop where
  probe : E₁.probe = none
  allocated : E₁.machine.allocated = E.machine.allocated
  height : E₁.machine.stack.height ≤ E.machine.stack.height
  registry : E₁.machine.registry =
    if t.release then E.machine.registry.erase t.key else E.machine.registry

def MachineEngine.leftAt (E : MachineEngine) (t : ScriptTask) (m : Machine) : MachineEngine :=
  restore { E with machine := m } t E.machine.stack.height true

theorem MachineEngine.restored_leftAt (hallocated : m.allocated = E.machine.allocated)
    (hregistry : m.registry = E.machine.registry) : E.Restored t (E.leftAt t m) := by
  have hheight : (m.truncate E.machine.stack.height).stack.height ≤ E.machine.stack.height :=
    Nat.min_le_right ..
  constructor
  · rfl
  · rw [leftAt, restore]
    split
    · exact hallocated
    · exact hallocated
  · rw [leftAt, restore]
    split
    · exact hheight
    · exact hheight
  · rw [leftAt, restore]
    split
    · exact congrArg (Registry.erase · t.key) hregistry
    · exact hregistry

theorem MachineEngine.executed_restore (E : MachineEngine) (t : ScriptTask) (base : Nat)
    (armed : Bool) : (E.restore t base armed).machine.executed = E.machine.executed := by
  rw [restore]
  split
  · rfl
  · rfl

theorem MachineEngine.stack_restore (E : MachineEngine) (t : ScriptTask) (base : Nat)
    (armed : Bool) : (E.restore t base armed).machine.stack = E.machine.stack.truncate base := by
  rw [restore]
  split
  · rfl
  · rfl

namespace World

theorem messages_entered (w : World) (q : Nat) (id : TaskId) (t : ScriptTask) (q' : Nat) :
    ((w.entered q id t).queue? q').map (·.messages) = (w.queue? q').map (·.messages) := by
  by_cases hq : q = q'
  · subst hq
    rw [entered, queue?_modifyQueue, queue?_modifyQueue, Option.map_map, Option.map_map]
    rfl
  · rw [entered, queue?_modifyQueue_of_ne _ _ hq, queue?_modifyQueue_of_ne _ _ hq]

/-- The hook cancels the running script before the instruction takes effect that was counted last. -/
theorem runMachine_cancels {N l : Nat} {op : Op} {frames : List CallFrame}
    (he : e < w.engines.size) (hprobe : E.probe = some ⟨.cancel q, N, l⟩) (hl : l ≤ 1)
    (hcancelled : (w.queue? q >>= (·.cancelled?)) = some id) (call : MachineCall)
    (hfetch : call.program.fetch call.frames = some (op, frames)) (k : Pending .call) :
    (w.mount e E).runMachine e call k =
      (w.mount e { E with machine := E.machine.count, probe := some ⟨.cancel q, N, N⟩ }).unwind
        (.cancelled id) (.cons (.counted e { call with frames } op) k) := by
  rw [runMachine_mount_of_le he hprobe hl hfetch, fireHook,
    show (w.mount e _).queue? q = w.queue? q from rfl, hcancelled]
  rfl

theorem leads_cancelled {op : Op} {call : MachineCall} (he : t.engine < w.engines.size) :
    ((w.mount t.engine E).unwind (.cancelled id) (.cons (.counted t.engine call op)
      (.cons (.script q id t base) K))).Leads (Process.During K)
      ((w.mount t.engine (MachineEngine.restore
        { E with machine := { E.machine with allocated := call.mark } } t base
          (w.scriptArmed q id))).deliver K .done) := by
  have hfirst : ((w.mount t.engine E).unwind (.cancelled id) (.cons (.counted t.engine call op)
      (.cons (.script q id t base) K))).step =
      (w.mount t.engine { E with machine := { E.machine with allocated := call.mark } }).unwind
        (.cancelled id) (.cons (.script q id t base) K) := by
    rw [unwind, Process.step_unwind, Activation.unwind, modifyMachine_mount he]
  have hsecond : ((w.mount t.engine { E with machine := { E.machine with allocated :=
      call.mark } }).unwind (.cancelled id) (.cons (.script q id t base) K)).step =
      (w.mount t.engine (MachineEngine.restore
        { E with machine := { E.machine with allocated := call.mark } } t base
          (w.scriptArmed q id))).deliver K .done := by
    rw [unwind, Process.step_unwind, Activation.unwind, if_pos rfl, scriptReturned_mount]
    rfl
  have hinside : K.depth < K.depth + 1 + 1 := by omega
  refine (Process.Leads.step hinside).trans ?_
  rw [hfirst, ← hsecond]
  exact .step (Nat.lt_succ_self K.depth)

theorem leads_returned (w : World) (q : Nat) (id : TaskId) (t : ScriptTask) (E : MachineEngine)
    (base : Nat) (result : Except CallError Unit) (hcount : E.machine.executed ≤ n)
    (he : t.engine < w.engines.size) (K : Pending .verdict) :
    ((w.mount t.engine E).deliver (.cons (.script q id t base) K) result).Leads
      (Process.Busy K.depth t.engine n)
      (((w.report q result).mount t.engine (E.restore t base (w.scriptArmed q id))).deliver K
        .done) := by
  have hstep : ((w.mount t.engine E).deliver (.cons (.script q id t base) K) result).step =
      ((w.report q result).mount t.engine (E.restore t base (w.scriptArmed q id))).deliver K
        .done := by
    rw [deliver, Process.step_deliver, ← scriptReturned_mount]
    rfl
  exact hstep ▸ .step ⟨Nat.lt_succ_self K.depth, by rw [deliver, executed_mount he]; exact hcount⟩

end World

def World.freeStep (w : World) (q : Nat) (id : TaskId) (e : Nat) (walk : Walk) (k : Pending .pass) :
    Process := (w.unarmed q id e).walkOn q (some id) walk k

namespace Process

def CallGives (q : Nat) (id : TaskId) (K : Pending .verdict) (result : Except CallError Unit)
    (p : Process) : Prop :=
  ∃ w t base, p.Leads (During K) (World.deliver w (.cons (.script q id t base) K) result)

def StandsBefore (q : Nat) (id : TaskId) (K : Pending .verdict) (e : Nat) (m : Machine)
    (call : MachineCall) (p : Process) : Prop :=
  ∃ w t base, p.Leads (During K)
    (World.deliver w (.cons (.machine e call) (.cons (.script q id t base) K)) ()) ∧
    w.machine? e = some m

def CancelledAt (q : Nat) (id : TaskId) (K : Pending .verdict) (e : Nat) (m : Machine)
    (call : MachineCall) (op : Op) (p : Process) : Prop :=
  ∃ w t base, p.Leads (During K) (World.unwind w (.cancelled id)
      (.cons (.counted e call op) (.cons (.script q id t base) K))) ∧
    w.machine? e = some m

/-- The step goes like the other one: the calls come to the same result, and the worlds in which the
steps end differ only in the mark of the interrupt. -/
structure Agrees (q : Nat) (id : TaskId) (K : Pending .verdict) (e : Nat) (p free : Process)
    (w₁ : World) : Prop where
  result : ∃ result, p.CallGives q id K result ∧ free.CallGives q id K result
  world : free.Leads (During K) ((w₁.unarmed q id e).deliver K .done)

/-- The step is cut off where the other one goes on. The machine comes to stand before the instruction
with this number as in the other step; the instruction is counted and never executed, and the stack
is cut down to the height. -/
def CutOff (q : Nat) (id : TaskId) (K : Pending .verdict) (e n base : Nat) (p free : Process)
    (w₁ : World) : Prop :=
  ∃ m call op frames, free.StandsBefore q id K e m call ∧ m.executed + 1 = n ∧
    call.program.fetch call.frames = some (op, frames) ∧
    p.CancelledAt q id K e m.count { call with frames } op ∧
    (w₁.machine? e).map (·.stack) = some (m.stack.truncate base)

end Process

theorem World.executed_step_machine {op : Op} {frames : List CallFrame} {call : MachineCall}
    (he : e < w.engines.size) (hlets : E.Lets 1)
    (hfetch : call.program.fetch call.frames = some (op, frames)) (k : Pending .call) :
    ((w.mount e E).deliver (.cons (.machine e call) k) ()).step.world.executed e =
      E.machine.executed + 1 := by
  have hpulse : (w.mount e (E.advance 1 E.machine.count)).pulse e =
      some ((E.advance 1 E.machine.count).probe, E.machine.executed + 1) := by
    rw [pulse, engine?_mount he]
    rfl
  rw [deliver, Process.step_deliver]
  change (World.runMachine _ _ _ _).world.executed e = _
  rw [runMachine_mount he hlets k hfetch]
  exact executed_of_pulse (within_executeOp (lasting_pulse e _).robust hpulse e _ op k).world

namespace World.HasScript

open Process

variable {j : Nat} {op : Op} {frames₁ frames₂ : List CallFrame}

/-- The step of a script gets through a stint, if the hook is not due in it. -/
theorem leads_of_advances (h : w.HasScript q id Q t E P)
    (hadvances : E.machine.Advances P Program.start j m₁ frames₁)
    (hlets : (E.arm q Q.config.interval t.armed).Lets j) (walk : Walk) (k : Pending .pass) :
    (w.walkOn q (some id) walk k).Leads (During (.turning q id walk k))
      (((w.entered q id t).mount t.engine
          ((E.arm q Q.config.interval t.armed).advance j m₁)).deliver
        (.cons (.machine t.engine ⟨P, frames₁, E.machine.allocated, E.machine.stack.height,
            .traceback⟩)
          (.cons (.script q id { t with ran := true } E.machine.stack.height)
            (.turning q id walk k))) ()) := by
  rw [h.walkOn_eq]
  refine (leads_advances h.size (Nat.le_succ _) ?_ hlets (Nat.le_refl _) _ _).mono
    fun hbusy => hbusy.depth
  rw [MachineEngine.machine_arm]
  exact hadvances

/-- The step of a script comes to its end, if its call finishes before the hook is due. -/
theorem leads_of_finishes (h : w.HasScript q id Q t E P)
    (hfinishes : E.machine.Finishes P Program.start j m₁ result)
    (hlets : (E.arm q Q.config.interval t.armed).Lets j) (walk : Walk) (k : Pending .pass) :
    (w.walkOn q (some id) walk k).CallGives q id (.turning q id walk k) result ∧
    (w.walkOn q (some id) walk k).Leads
      (Busy (Pending.turning q id walk k).depth t.engine (E.machine.executed + j))
      ((((w.entered q id t).report q result).mount t.engine
        (((E.arm q Q.config.interval t.armed).advance j
          (m₁.leave E.machine.stack.height E.machine.allocated)).restore t E.machine.stack.height
            t.armed)).deliver (.turning q id walk k) .done) := by
  have hcount : m₁.executed = E.machine.executed + j := hfinishes.executed_eq.1
  rw [← MachineEngine.machine_arm E q Q.config.interval t.armed] at hfinishes
  rw [h.walkOn_eq]
  have hcall := leads_finishes h.size (Nat.le_succ (Pending.turning q id walk k).depth) hfinishes
    hlets (Nat.le_of_eq hcount) E.machine.allocated E.machine.stack.height
    (k := .cons (.script q id { t with ran := true } E.machine.stack.height) (.turning q id walk k))
  refine ⟨⟨_, _, _, hcall.mono fun hbusy => hbusy.depth⟩, hcall.trans ?_⟩
  have hend := leads_returned (w.entered q id t) q id { t with ran := true }
    ((E.arm q Q.config.interval t.armed).advance j
      (m₁.leave E.machine.stack.height E.machine.allocated)) E.machine.stack.height result
    (Nat.le_of_eq hcount) h.size (.turning q id walk k)
  rw [h.scriptArmed_entered] at hend
  exact hend

theorem tally_of_finishes (h : w.HasScript q id Q t E P)
    (hfinishes : E.machine.Finishes P Program.start j m₁ result)
    (hlets : (E.arm q Q.config.interval t.armed).Lets j) (walk : Walk) (k : Pending .pass) :
    (w.walkOn q (some id) walk k).tally (.turning q id walk k) t.engine = j := by
  obtain ⟨-, hleads⟩ := h.leads_of_finishes hfinishes hlets walk k
  rw [tally_eq hleads (Nat.le_refl _), h.executed_walkOn, Nat.add_sub_cancel_left]
  rw [deliver, executed_mount (h.size.trans_eq (size_report ..).symm),
    MachineEngine.executed_restore]
  exact hfinishes.executed_eq.1

/-- A step that comes to the instruction with this number counts it. -/
theorem le_tally_of_advances (h : w.HasScript q id Q t E P)
    (hadvances : E.machine.Advances P Program.start j m₁ frames₁)
    (hfetch : P.fetch frames₁ = some (op, frames₂))
    (hlets : (E.arm q Q.config.interval t.armed).Lets (j + 1)) (walk : Walk) (k : Pending .pass) :
    ((j + 1 : Nat) : ℕ∞) ≤
      (w.walkOn q (some id) walk k).tally (.turning q id walk k) t.engine := by
  have hbefore : (E.arm q Q.config.interval t.armed).Lets j :=
    fun probe hprobe => Nat.lt_of_succ_lt (hlets probe hprobe)
  have hleads := (h.leads_of_advances hadvances hbefore walk k).trans
    (Leads.step (Nat.lt_succ_of_lt (Nat.lt_succ_self _)))
  have hcount : m₁.executed + 1 - E.machine.executed = j + 1 := by
    rw [hadvances.executed_eq.1]
    omega
  have htally := le_tally hleads t.engine
  rw [executed_step_machine h.size (hlets.advance m₁) hfetch, h.executed_walkOn] at htally
  exact hcount ▸ htally

/-- An interrupted step whose call finishes before the hook is due goes like the other one. -/
theorem agrees_of_finishes (h : w.HasScript q id Q t E P) (harmed : t.armed = true)
    (hfinishes : E.machine.Finishes P Program.start j m₁ result) (hj : j < Q.config.interval)
    (walk : Walk) (k : Pending .pass) :
    ∃ w₁ E₁, (w.walkOn q (some id) walk k).Leads (During (.turning q id walk k))
        (w₁.deliver (.turning q id walk k) .done) ∧
      w₁.engine? t.engine = some (.machine E₁) ∧ E.Restored t E₁ ∧
      E₁.machine.executed = E.machine.executed + j ∧
      (w.walkOn q (some id) walk k).Agrees q id (.turning q id walk k) t.engine
        (w.freeStep q id t.engine walk k) w₁ := by
  have hlets : (E.arm q Q.config.interval t.armed).Lets j := by
    rw [MachineEngine.arm, if_pos harmed]
    intro probe hprobe
    cases hprobe
    exact hj
  have hleft : ((E.arm q Q.config.interval t.armed).advance j
      (m₁.leave E.machine.stack.height E.machine.allocated)).restore t E.machine.stack.height
        t.armed = E.leftAt t (m₁.leave E.machine.stack.height E.machine.allocated) := by
    rw [harmed]
    rfl
  obtain ⟨hgives, hleads⟩ := h.leads_of_finishes hfinishes hlets walk k
  obtain ⟨hgives', hleads'⟩ := h.unarmed.leads_of_finishes hfinishes
    (MachineEngine.lets_of_none rfl j) walk k
  rw [hleft] at hleads
  rw [entered_unarmed, report_unarmed] at hleads'
  -- the machines are left alike, so the worlds differ in the record of the script only
  have hmount := mount_unarmed ((w.entered q id t).report q result) q id t.engine
    (E := E.leftAt t (m₁.leave E.machine.stack.height E.machine.allocated)) rfl
  have hfree : (w.freeStep q id t.engine walk k).Leads
      (Busy (Pending.turning q id walk k).depth t.engine (E.machine.executed + j))
      (((((w.entered q id t).report q result).mount t.engine
        (E.leftAt t (m₁.leave E.machine.stack.height E.machine.allocated))).unarmed q id
          t.engine).deliver (.turning q id walk k) .done) := hmount ▸ hleads'
  have hexecuted : (E.leftAt t (m₁.leave E.machine.stack.height
      E.machine.allocated)).machine.executed = E.machine.executed + j :=
    (MachineEngine.executed_restore ..).trans hfinishes.executed_eq.1
  exact ⟨_, _, hleads.mono fun hbusy => hbusy.depth,
    engine?_mount (h.size.trans_eq (size_report ..).symm) _,
    MachineEngine.restored_leftAt rfl hfinishes.executed_eq.2, hexecuted,
    ⟨result, hgives, hgives'⟩, hfree.mono fun hbusy => hbusy.depth⟩

/-- An interrupted step that comes to the instruction at which the hook is due is cut off there. -/
theorem cutOff_of_advances (h : w.HasScript q id Q t E P) (harmed : t.armed = true)
    (hadvances : E.machine.Advances P Program.start n m₁ frames₁)
    (hfetch : P.fetch frames₁ = some (op, frames₂)) (hn : n + 1 = Q.config.interval)
    (walk : Walk) (k : Pending .pass) :
    ∃ w₁ E₁, (w.walkOn q (some id) walk k).Leads (During (.turning q id walk k))
        (w₁.deliver (.turning q id walk k) .done) ∧
      w₁.engine? t.engine = some (.machine E₁) ∧ E.Restored t E₁ ∧
      E₁.machine.executed = E.machine.executed + Q.config.interval ∧
      (w.walkOn q (some id) walk k).CutOff q id (.turning q id walk k) t.engine
        (E.machine.executed + Q.config.interval) E.machine.stack.height
        (w.freeStep q id t.engine walk k) w₁ ∧
      w₁.log = w.log ∧ ∀ q', (w₁.queue? q').map (·.messages) = (w.queue? q').map (·.messages) := by
  have hlets : (E.arm q Q.config.interval t.armed).Lets n := by
    rw [MachineEngine.arm, if_pos harmed]
    intro probe hprobe
    cases hprobe
    dsimp only
    omega
  have hstands := h.leads_of_advances hadvances hlets walk k
  have hstands' := h.unarmed.leads_of_advances hadvances (MachineEngine.lets_of_none rfl n) walk k
  have hcount : m₁.executed = E.machine.executed + n := hadvances.executed_eq.1
  -- one instruction is left when the machine stands before it, so that the hook is due
  have hprobe : ((E.arm q Q.config.interval t.armed).advance n m₁).probe =
      some ⟨.cancel q, Q.config.interval, Q.config.interval - n⟩ := by
    rw [MachineEngine.arm, if_pos harmed]
    rfl
  have hcancels := runMachine_cancels h.size hprobe (by omega)
    (by rw [h.cancelled?_entered, if_pos harmed])
    ⟨P, frames₁, E.machine.allocated, E.machine.stack.height, .traceback⟩ hfetch
    (.cons (.script q id { t with ran := true } E.machine.stack.height) (.turning q id walk k))
  have hleads := hstands.trans (Leads.step (Nat.lt_succ_of_lt (Nat.lt_succ_self _)))
  rw [deliver, step_deliver] at hleads
  change (w.walkOn q (some id) walk k).Leads _ (World.runMachine _ _ _ _) at hleads
  rw [hcancels] at hleads
  have hend := hleads.trans (leads_cancelled (t := { t with ran := true }) h.size)
  rw [h.scriptArmed_entered, harmed] at hend
  refine ⟨_, E.leftAt t { m₁.count with allocated := E.machine.allocated }, hend,
    engine?_mount h.size _, MachineEngine.restored_leftAt rfl hadvances.executed_eq.2, ?_, ?_, rfl,
    fun q' => messages_entered w q id t q'⟩
  · rw [MachineEngine.leftAt, MachineEngine.executed_restore, ← hn, ← Nat.add_assoc, ← hcount]
    rfl
  · refine ⟨m₁, _, op, frames₂, ⟨_, _, _, hstands', machine?_mount h.unarmed.size _⟩, by omega,
      hfetch, ⟨_, _, _, hleads, machine?_mount h.size _⟩, ?_⟩
    rw [machine?_mount h.size, Option.map_some]
    exact congrArg some (MachineEngine.stack_restore ..)

end World.HasScript

namespace Process

/-- The step of a script that was interrupted before its turn, whatever has happened to the hook of its
machine since, is a truncated run. It is compared with the step that the script would have made, if no
host function is called before the instruction at which the hook is due. It counts as many instructions
as the other step or as the interval of the queue, whichever is less. If the other step counts fewer
than the interval, this step agrees with it; otherwise it is cut off before the last instruction takes
effect, and nothing is reported. It comes to its end in both cases, and leaves the machine without a
hook and as it was found. -/
theorem Interrupted.truncated_step (hinterrupted : p.Interrupted q id)
    (hstep : p.step = p.world.walkOn q (some id) walk k)
    (hQ : p.world.queue? q = some Q) (ht : Q.get? id = some (.script t))
    (hE : p.world.engine? t.engine = some (.machine E))
    (hP : E.machine.registry.get? t.key = some (.callable P))
    (hhost : (p.world.freeStep q id t.engine walk k).Throughout
      (Pending.turning q id walk k).depth fun p' =>
        p'.world.executed t.engine + 1 < E.machine.executed + Q.config.interval →
          ∀ name, p'.control.op? ≠ some (.host name)) :
    ∃ w₁ E₁, p.step.Leads (During (.turning q id walk k))
        (w₁.deliver (.turning q id walk k) .done) ∧
      w₁.engine? t.engine = some (.machine E₁) ∧ E.Restored t E₁ ∧
      (E₁.machine.executed : ℕ∞) = E.machine.executed + min (Q.config.interval : ℕ∞)
        ((p.world.freeStep q id t.engine walk k).tally (.turning q id walk k)
          t.engine) ∧
      ((p.world.freeStep q id t.engine walk k).tally (.turning q id walk k)
          t.engine < Q.config.interval →
        p.step.Agrees q id (.turning q id walk k) t.engine
          (p.world.freeStep q id t.engine walk k) w₁) ∧
      (Q.config.interval ≤ (p.world.freeStep q id t.engine walk k).tally
          (.turning q id walk k) t.engine →
        p.step.CutOff q id (.turning q id walk k) t.engine
          (E.machine.executed + Q.config.interval) E.machine.stack.height
          (p.world.freeStep q id t.engine walk k) w₁ ∧
        w₁.log = p.world.log ∧
        ∀ q', (w₁.queue? q').map (·.messages) = (p.world.queue? q').map (·.messages)) := by
  have hscript : p.world.HasScript q id Q t E P := ⟨hQ, ht, hE, hP⟩
  have harmed : t.armed = true := by
    obtain ⟨task, hg, ha⟩ | ⟨hspent, _⟩ := hinterrupted.marked hQ
    · cases ht.symm.trans hg
      exact ha
    · cases ht.symm.trans hspent.get?_eq_none
  obtain ⟨n, hn⟩ : ∃ n, n + 1 = Q.config.interval :=
    ⟨_, Nat.sub_add_cancel (Nat.le_max_left 1 _)⟩
  rw [hstep]
  obtain ⟨j, hj, m₁, result, hfinishes⟩ | ⟨m₁, frames₁, op, frames₂, hadvances, hfetch⟩ |
    ⟨j, hj, m₁, frames₁, name, frames₂, hadvances, hfetch⟩ :=
      E.machine.finishes_or_advances P Program.start n
  · obtain ⟨w₁, E₁, hleads, hE₁, hrestored, hcount, hagrees⟩ :=
      hscript.agrees_of_finishes harmed hfinishes (by omega) walk k
    have htally : (p.world.freeStep q id t.engine walk k).tally (.turning q id walk k) t.engine = j :=
      hscript.unarmed.tally_of_finishes hfinishes (MachineEngine.lets_of_none rfl j) walk k
    have hlt : (j : ℕ∞) < Q.config.interval := by
      rw [← hn]
      exact_mod_cast Nat.lt_succ_of_le hj
    rw [htally]
    refine ⟨w₁, E₁, hleads, hE₁, hrestored, ?_, fun _ => hagrees,
      fun hle => absurd hlt (not_lt.2 hle)⟩
    rw [hcount, min_eq_right hlt.le]
    push_cast
    rfl
  · obtain ⟨w₁, E₁, hleads, hE₁, hrestored, hcount, hcut⟩ :=
      hscript.cutOff_of_advances harmed hadvances hfetch hn walk k
    have htally : (Q.config.interval : ℕ∞) ≤
        (p.world.freeStep q id t.engine walk k).tally (.turning q id walk k) t.engine :=
      hn ▸ hscript.unarmed.le_tally_of_advances hadvances hfetch
        (MachineEngine.lets_of_none rfl (n + 1)) walk k
    refine ⟨w₁, E₁, hleads, hE₁, hrestored, ?_, fun hlt => absurd hlt (not_lt.2 htally),
      fun _ => hcut⟩
    rw [hcount, min_eq_left htally]
    push_cast
    rfl
  · -- before the instruction at which the hook is due no host function is called
    have hstands := hscript.unarmed.leads_of_advances hadvances
      (MachineEngine.lets_of_none rfl j) walk k
    have hhere := (hhost.leads hstands fun h => h).here (Nat.lt_succ_of_lt (Nat.lt_succ_self _))
    refine absurd ?_ (hhere ?_ name)
    · rw [World.deliver, Control.op?, Activation.op?, hfetch]
      rfl
    · rw [World.deliver, World.executed_mount hscript.unarmed.size]
      change m₁.executed + 1 < _
      rw [hadvances.executed_eq.1, ← hn]
      omega

/-- Two scripts on one machine are interrupted and the second one is removed, which takes the hook off
the machine; then the first one has its turn. Its third instruction calls a host function. -/
def preempted : Process :=
  during [{ hookInterval := 3 }] [.machine {}]
    [.act (.engine 0 (.host "h" [⟨[], none, false⟩])),
      .act (.queue 0 (.parseAndStart "S" 0 "push 1\npop\nhost h".toUTF8.data.toList)),
      .act (.queue 0 (.parseAndStart "T" 0 "push 1".toUTF8.data.toList)),
      .act (.queue 0 (.interrupt "S")), .act (.queue 0 (.interrupt "T")),
      .act (.queue 0 (.remove "T"))]
    (.act (.queue 0 .runOnce)) 0

/-- The hook is put back, and it cancels the script before the host function is called. -/
theorem truncated_step_preempted :
    ∃ E w₁ E₁, preempted.world.engine? 0 = some (.machine E) ∧ E.probe.isNone ∧
      preempted.Interrupted 0 ⟨1, 1⟩ ∧
      preempted.step.Leads
        (During (.turning 0 ⟨1, 1⟩ {} (.passes 0)))
        (World.deliver w₁ (.turning 0 ⟨1, 1⟩ {} (.passes 0)) .done) ∧
      w₁.engine? 0 = some (.machine E₁) ∧
      E.Restored { engine := 0, key := 0, release := true, armed := true } E₁ ∧
      E₁.machine.executed = E.machine.executed + 3 ∧ w₁.log = preempted.world.log := by
  have ht : preempted.world.task? 0 ⟨1, 1⟩ =
    some (.script { engine := 0, key := 0, release := true, armed := true }) := by cbv
  have hqueue : (preempted.world.queue? 0).map
      (fun Q => (Q.current, Q.stopping, Q.order, Q.config.interval)) =
      some (none, false, [⟨1, 1⟩], 3) := by decide +kernel
  have hkey : (preempted.world.machine? 0 >>= (·.registry.get? 0)) =
      some (.callable ⟨"usercode", #[⟨"", #[.push 1, .pop, .host "h"], #[1, 2, 3]⟩]⟩) := by
    decide +kernel
  have hhook : (preempted.world.engine? 0 >>= (·.probe?)).isNone := by decide +kernel
  have hexecuted : preempted.world.executed 0 = 0 := by decide +kernel
  have hended : ((preempted.world.freeStep 0 ⟨1, 1⟩ 0 {} (.passes 0)).run 6).control.depth ≤
      (Pending.turning 0 ⟨1, 1⟩ {} (.passes 0)).depth := by decide +kernel
  have hops : ((preempted.world.freeStep 0 ⟨1, 1⟩ 0 {} (.passes 0)).run 0).control.op? =
        some (.push 1) ∧
      ((preempted.world.freeStep 0 ⟨1, 1⟩ 0 {} (.passes 0)).run 1).control.op? = some .pop := by
    decide +kernel
  have hlate : ∀ i < 6, 2 ≤ i →
      2 ≤ ((preempted.world.freeStep 0 ⟨1, 1⟩ 0 {} (.passes 0)).run i).world.executed 0 := by
    decide +kernel
  have hthird : ((preempted.world.freeStep 0 ⟨1, 1⟩ 0 {} (.passes 0)).run 3).world.executed 0 -
      (preempted.world.freeStep 0 ⟨1, 1⟩ 0 {} (.passes 0)).world.executed 0 = 3 := by decide +kernel
  have hduring : ∀ i < 3, (Pending.turning 0 ⟨1, 1⟩ {} (.passes 0)).depth <
      ((preempted.world.freeStep 0 ⟨1, 1⟩ 0 {} (.passes 0)).run i).control.depth := by decide +kernel
  obtain ⟨Q, hQ, hg⟩ := World.task?_eq_some.1 ht
  simp only [hQ, Option.map_some, Option.some.injEq, Prod.mk.injEq] at hqueue
  obtain ⟨hidle, hgoing, horder, hthree⟩ := hqueue
  obtain ⟨m, hm, hP⟩ := Option.bind_eq_some_iff.1 hkey
  obtain ⟨engine, hE, hmachine⟩ := Option.bind_eq_some_iff.1 hm
  cases engine with
  | pacer | inert => cases hmachine
  | machine E =>
    cases hmachine
    have hinterrupted : preempted.Interrupted 0 ⟨1, 1⟩ :=
      (reachable_during 0 (by decide +kernel) (by decide +kernel)).interrupted
        ⟨Q, hQ, .inl ⟨_, hg, rfl⟩⟩
    have hzero : E.machine.executed = 0 := by
      rw [World.executed, hE] at hexecuted
      exact hexecuted
    have htally : (3 : ℕ∞) ≤ (preempted.world.freeStep 0 ⟨1, 1⟩ 0 {} (.passes 0)).tally
        (.turning 0 ⟨1, 1⟩ {} (.passes 0)) 0 := by
      have hle := le_tally ⟨3, rfl, hduring⟩ 0
      rw [hthird] at hle
      exact hle
    have hhost : (preempted.world.freeStep 0 ⟨1, 1⟩ 0 {} (.passes 0)).Throughout
        (Pending.turning 0 ⟨1, 1⟩ {} (.passes 0)).depth fun p' =>
          p'.world.executed 0 + 1 < E.machine.executed + Q.config.interval →
            ∀ name, p'.control.op? ≠ some (.host name) := by
      refine throughout_of_lt hended fun i hi hearly name hop => ?_
      have hcount := hlate i hi
      obtain rfl | rfl | hge : i = 0 ∨ i = 1 ∨ 2 ≤ i := by omega
      · cases hops.1.symm.trans hop
      · cases hops.2.symm.trans hop
      · omega
    obtain ⟨w₁, E₁, hleads, hE₁, hrestored, hcount, -, hcut⟩ := hinterrupted.truncated_step
      (World.perform_runOnce hQ hidle hgoing horder) hQ hg hE hP hhost
    rw [hthree] at hcount hcut
    obtain ⟨-, hlog, -⟩ := hcut htally
    rw [hE] at hhook
    refine ⟨E, w₁, E₁, hE, hhook, hinterrupted, hleads, hE₁, hrestored, ?_, hlog⟩
    have hmin : min ((3 : Nat) : ℕ∞) ((preempted.world.freeStep 0 ⟨1, 1⟩ 0 {} (.passes 0)).tally
        (.turning 0 ⟨1, 1⟩ {} (.passes 0)) 0) = (3 : Nat) := min_eq_left htally
    exact_mod_cast hcount.trans (congrArg (_ + ·) hmin)

end Process

end TaskLoop
