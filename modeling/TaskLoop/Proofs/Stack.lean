import TaskLoop.Proofs.Within

namespace TaskLoop

variable {a b c : Hole} {w w' : World} {I : Nat → TaskId → Prop} {T : Nat → Prop}
  {q : Nat} {id : TaskId}

namespace Activation

def turn? : Activation a b → Option (Nat × TaskId)
  | .turn q id _ => some (q, id)
  | _ => none

def script? : Activation a b → Option (Nat × TaskId)
  | .script q id _ _ => some (q, id)
  | _ => none

def payload? : Activation a b → Option Payload
  | .cleanup payload _ => some payload
  | _ => none

theorem Plain.turn? {f : Activation a b} (h : f.Plain) : f.turn? = none := by
  cases f <;> trivial

theorem Plain.payload? {f : Activation a b} (h : f.Plain) : f.payload? = none := by
  cases f <;> trivial

end Activation

namespace Pending

def turns : {a : Hole} → Pending a → List (Nat × TaskId)
  | _, .outermost => []
  | _, .cons f k => f.turn?.toList ++ k.turns

def scripts : {a : Hole} → Pending a → List (Nat × TaskId)
  | _, .outermost => []
  | _, .cons f k => f.script?.toList ++ k.scripts

def payloads : {a : Hole} → Pending a → List Payload
  | _, .outermost => []
  | _, .cons f k => f.payload?.toList ++ k.payloads

def depth : {a : Hole} → Pending a → Nat
  | _, .outermost => 0
  | _, .cons _ k => k.depth + 1

inductive Atop (k : Pending c) : {a : Hole} → Pending a → Prop
  | refl : Atop k k
  | cons {a b : Hole} {f : Activation a b} {k' : Pending b} (free : f.payload? = none)
      (atop : k.Atop k') : Atop k (.cons f k')

theorem turns_cons {f : Activation a b} (h : f.turn? = none) (k : Pending b) :
    (cons f k).turns = k.turns := by simp [turns, h]

theorem mem_turns_cons {f : Activation a b} {k : Pending b} {x : Nat × TaskId} (h : x ∈ k.turns) :
    x ∈ (cons f k).turns := List.mem_append_right _ h

theorem Over.turns {k : Pending c} {k' : Pending a} (h : k.Over k') : k'.turns = k.turns := by
  induction h with
  | refl => rfl
  | cons plain _ ih => rw [turns_cons plain.turn?, ih]

theorem Over.depth_le {k : Pending c} {k' : Pending a} (h : k.Over k') : k.depth ≤ k'.depth := by
  induction h with
  | refl => exact Nat.le_refl _
  | cons _ _ ih => exact Nat.le_succ_of_le ih

theorem Over.atop {k : Pending c} {k' : Pending a} (h : k.Over k') : k.Atop k' := by
  induction h with
  | refl => exact .refl
  | cons plain _ ih => exact .cons plain.payload? ih

theorem Atop.trans {k : Pending c} {k' : Pending b} {k'' : Pending a} (h : k.Atop k')
    (h' : k'.Atop k'') : k.Atop k'' := by
  induction h' with
  | refl => exact h
  | cons free _ ih => exact .cons free ih

theorem Atop.payloads {k : Pending c} {k' : Pending a} (h : k.Atop k') :
    k'.payloads = k.payloads := by
  induction h with
  | refl => rfl
  | cons free _ ih => simp [Pending.payloads, free, ih]

end Pending

namespace World

def Armed (w : World) (q : Nat) (id : TaskId) : Prop := ∃ Q, w.queue? q = some Q ∧ Q.Armed id

def Running (w : World) (q : Nat) (id : TaskId) : Prop :=
  ∃ Q, w.queue? q = some Q ∧ Q.current = some id ∧ Q.tasks.Known id

def WellFormed (w : World) : Prop := ∀ q Q, w.queue? q = some Q → Q.WellFormed

theorem Running.current {Q : Queue} (h : w.Running q id) (hQ : w.queue? q = some Q) :
    Q.current = some id := by
  obtain ⟨Q', hQ', hc, _⟩ := h
  obtain rfl : Q = Q' := Option.some.inj (hQ.symm.trans hQ')
  exact hc

theorem queue?_of_rel {R : Queue → Queue → Prop} {Q' : Queue}
    (h : Option.Rel R (w.queue? q) (w'.queue? q)) (hQ' : w'.queue? q = some Q') :
    ∃ Q, w.queue? q = some Q ∧ R Q Q' := by
  rw [hQ'] at h
  generalize w.queue? q = o at h
  cases h with | some h => exact ⟨_, rfl, h⟩

theorem queue?_of_rel_left {R : Queue → Queue → Prop} {Q : Queue}
    (h : Option.Rel R (w.queue? q) (w'.queue? q)) (hQ : w.queue? q = some Q) :
    ∃ Q', w'.queue? q = some Q' ∧ R Q Q' := by
  rw [hQ] at h
  generalize w'.queue? q = o at h
  cases h with | some h => exact ⟨_, rfl, h⟩

theorem Moves.wellFormed (h : w.Moves I T w') (hw : w.WellFormed) : w'.WellFormed := by
  intro q Q' hQ'
  obtain ⟨Q, hQ, hm⟩ := queue?_of_rel (h.queues q) hQ'
  exact hm.wellFormed (hw q Q hQ)

/-- A task is found interrupted only if it was so before, or is interrupted by one of the moves. -/
theorem Moves.armed_origin (h : w.Moves I T w') (hw : w.WellFormed) (ha : w'.Armed q id) :
    w.Armed q id ∨ I q id := by
  obtain ⟨Q', hQ', ha⟩ := ha
  obtain ⟨Q, hQ, hm⟩ := queue?_of_rel (h.queues q) hQ'
  exact (hm.armed_origin (hw q Q hQ) ha).imp_left fun ha => ⟨Q, hQ, ha⟩

theorem Running.edits (hr : w.Running q id) (hw : w.WellFormed)
    (h : Option.Rel (Queue.Edits (I q)) (w.queue? q) (w'.queue? q)) : w'.Running q id := by
  obtain ⟨Q, hQ, hc, hk⟩ := hr
  obtain ⟨Q', hQ', he⟩ := queue?_of_rel_left h hQ
  exact ⟨Q', hQ', (he.current (hw q Q hQ)).trans hc, he.moves.known (hw q Q hQ) hk⟩

theorem Armed.edits (ha : w.Armed q id) (hr : w.Running q id) (hw : w.WellFormed)
    (h : Option.Rel (Queue.Edits (I q)) (w.queue? q) (w'.queue? q)) : w'.Armed q id := by
  obtain ⟨Q, hQ, ha⟩ := ha
  obtain ⟨Q', hQ', he⟩ := queue?_of_rel_left h hQ
  exact ⟨Q', hQ', he.armed (hw q Q hQ) (hr.current hQ) ha⟩

theorem Running.task?_origin {task' : Task} (hr : w.Running q id) (hw : w.WellFormed)
    (h : Option.Rel (Queue.Edits (I q)) (w.queue? q) (w'.queue? q))
    (ht : w'.task? q id = some task') : ∃ task, w.task? q id = some task ∧ task.Heir task' := by
  obtain ⟨Q, hQ, _, hk⟩ := hr
  obtain ⟨Q', hQ', he⟩ := queue?_of_rel_left h hQ
  obtain ⟨Q'', hQ'', hg⟩ := task?_eq_some.1 ht
  obtain rfl : Q' = Q'' := Option.some.inj (hQ'.symm.trans hQ'')
  obtain ⟨task, hg', hheir⟩ := he.moves.get?_origin (hw q Q hQ) hk hg
  exact ⟨task, task?_eq_some.2 ⟨Q, hQ, hg'⟩, hheir⟩

end World

namespace Pending

def StepOf (w : World) (kind : TaskKind) (k : Pending a) : Prop :=
  ∀ q id task, k.turns.head? = some (q, id) → w.task? q id = some task → task.kind = kind

/-- A payload that is a cancellation belongs to an interrupted script whose step is in progress. -/
def Owns (w : World) (payload : Payload) (k : Pending a) : Prop :=
  ∀ id, payload = .cancelled id → ∃ q, (q, id) ∈ k.scripts ∧ w.Armed q id

end Pending

/-- What an activation needs of the world and of the stack below it. A queue has one turn at a time,
and the step on top of a turn is one for the kind of task that it is. -/
def Activation.Fits (w : World) (f : Activation a b) (k : Pending b) : Prop :=
  match f with
  | .turn q id _ => w.Running q id ∧ ∀ id', (q, id') ∉ k.turns
  | .walk q _ _ => ∀ id, (q, id) ∉ k.turns
  | .sweep _ => k.turns = []
  | .cleanup payload hole => k.Owns w payload ∧ (hole = .verdict → k.StepOf w .watcher)
  | .idle _ => k.StepOf w .idle
  | .firing _ _ => k.StepOf w .timer
  | .quiet _ _ | .rested => k.StepOf w .watcher
  | .script q id _ _ => k.turns.head? = some (q, id) ∧ k.StepOf w .script
  | _ => True

theorem Activation.Plain.fits {f : Activation a b} (h : f.Plain) (k : Pending b) : f.Fits w k := by
  cases f <;> trivial

namespace Pending

def Stacked (w : World) : {a : Hole} → Pending a → Prop
  | _, .outermost => True
  | _, .cons f k => f.Fits w k ∧ k.Stacked w

theorem Stacked.running {k : Pending a} (h : k.Stacked w) (hm : (q, id) ∈ k.turns) :
    w.Running q id := by
  induction k with
  | outermost => simp [turns] at hm
  | cons f k ih =>
    obtain ⟨hf, hk⟩ := h
    obtain hm | hm := List.mem_append.1 hm
    · cases f with
      | turn q' id' walk =>
        obtain ⟨rfl, rfl⟩ := Prod.mk.inj (List.mem_singleton.1 hm)
        exact hf.1
      | _ => simp [Activation.turn?] at hm
    · exact ih hk hm

theorem Stacked.nodup {k : Pending a} (h : k.Stacked w) : (k.turns.map Prod.fst).Nodup := by
  induction k with
  | outermost => exact List.nodup_nil
  | cons f k ih =>
    obtain ⟨hf, hk⟩ := h
    cases f with
    | turn q id walk =>
      refine List.nodup_cons.2 ⟨fun hm => ?_, ih hk⟩
      obtain ⟨⟨q', id'⟩, hm, hq⟩ := List.mem_map.1 hm
      cases hq
      exact hf.2 id' hm
    | _ => exact ih hk

theorem Stacked.scripts_subset {k : Pending a} (h : k.Stacked w) : k.scripts ⊆ k.turns := by
  induction k with
  | outermost => simp [scripts]
  | cons f k ih =>
    intro x hx
    obtain ⟨hf, hk⟩ := h
    obtain hx | hx := List.mem_append.1 hx
    · cases f with
      | script q id task base =>
        rw [List.mem_singleton.1 hx]
        exact mem_turns_cons (List.mem_of_head? hf.1)
      | _ => simp [Activation.script?] at hx
    · exact mem_turns_cons (ih hk hx)

/-- A running script that is still queued is in its step, unless its turn has only begun. -/
theorem Stacked.mem_scripts_or {k : Pending a} {task : Task} (h : k.Stacked w)
    (hm : (q, id) ∈ k.turns) (ht : w.task? q id = some task) (hkind : task.kind = .script) :
    (q, id) ∈ k.scripts ∨ a = .verdict ∧ k.turns.head? = some (q, id) := by
  induction k with
  | outermost => simp [turns] at hm
  | cons f k ih =>
    obtain ⟨hf, hk⟩ := h
    cases f with
    | turn q' id' walk =>
      obtain hm | hm := List.mem_cons.1 hm
      · exact .inr ⟨rfl, by rw [hm]; rfl⟩
      · obtain hs | ⟨hb, _⟩ := ih hk hm
        · exact .inl hs
        · cases hb
    | script q' id' task' base =>
      obtain hs | ⟨_, hhead⟩ := ih hk hm
      · exact .inl (List.mem_cons_of_mem _ hs)
      · rw [Option.some.inj (hhead.symm.trans hf.1)]
        exact .inl (List.mem_cons_self ..)
    | idle | firing | quiet | rested =>
      obtain hs | ⟨_, hhead⟩ := ih hk hm
      · exact .inl hs
      · cases hkind.symm.trans (hf q id task hhead ht)
    | cleanup payload hole =>
      obtain hs | ⟨hb, hhead⟩ := ih hk hm
      · exact .inl hs
      · cases hkind.symm.trans (hf.2 hb q id task hhead ht)
    | _ =>
      obtain hs | ⟨hb, _⟩ := ih hk hm
      · exact .inl hs
      · cases hb

theorem Stacked.mem_scripts {k : Pending a} {task : Task} (h : k.Stacked w) (ha : a ≠ .verdict)
    (hm : (q, id) ∈ k.turns) (ht : w.task? q id = some task) (hkind : task.kind = .script) :
    (q, id) ∈ k.scripts :=
  (h.mem_scripts_or hm ht hkind).resolve_right fun hv => ha hv.1

section

variable {k : Pending a} (hw : w.WellFormed) (hk : k.Stacked w)
  (hq : ∀ q id, (q, id) ∈ k.turns → Option.Rel (Queue.Edits (I q)) (w.queue? q) (w'.queue? q))

include hw hk hq

theorem Owns.edits {payload : Payload} (h : k.Owns w payload) : k.Owns w' payload := by
  intro id hid
  obtain ⟨q, hm, ha⟩ := h id hid
  have hm' := hk.scripts_subset hm
  exact ⟨q, hm, ha.edits (hk.running hm') hw (hq q id hm')⟩

theorem StepOf.edits {kind : TaskKind} (h : k.StepOf w kind) : k.StepOf w' kind := by
  intro q id task' hhead ht'
  have hm := List.mem_of_head? hhead
  obtain ⟨task, ht, hheir⟩ := (hk.running hm).task?_origin hw (hq q id hm) ht'
  exact hheir.kind.trans (h q id task hhead ht)

end

/-- A stack goes on to fit when the queues of its turns are only edited. -/
theorem Stacked.edits {k : Pending a} (hk : k.Stacked w) (hw : w.WellFormed)
    (hq : ∀ q id, (q, id) ∈ k.turns →
      Option.Rel (Queue.Edits (I q)) (w.queue? q) (w'.queue? q)) : k.Stacked w' := by
  induction k with
  | outermost => trivial
  | cons f k ih =>
    obtain ⟨hf, hk⟩ := hk
    have hq' := fun q id hm => hq q id (mem_turns_cons hm)
    refine ⟨?_, ih hk hq'⟩
    cases f with
    | turn q id walk => exact ⟨hf.1.edits hw (hq q id (List.mem_cons_self ..)), hf.2⟩
    | walk | sweep => exact hf
    | cleanup payload hole =>
      exact ⟨hf.1.edits hw hk hq', fun hv => (hf.2 hv).edits hw hk hq'⟩
    | idle | firing | quiet | rested => exact StepOf.edits hw hk hq' hf
    | script => exact ⟨hf.1, hf.2.edits hw hk hq'⟩
    | _ => trivial

/-- The queues are well formed, the stack fits, and every task that a queue marks as running has its
turn on the stack. -/
structure Ready (w : World) (k : Pending a) : Prop where
  queues : w.WellFormed
  stack : k.Stacked w
  marks : ∀ q Q id, w.queue? q = some Q → Q.current = some id → (q, id) ∈ k.turns

variable {k : Pending b}

theorem Ready.follows (h : k.Ready w) (hw : w.Follows I T w') : k.Ready w' := by
  refine ⟨hw.moves.wellFormed h.queues, h.stack.edits h.queues fun q _ _ => hw.queues q,
    fun q Q' id hQ' hc => ?_⟩
  obtain ⟨Q, hQ, he⟩ := World.queue?_of_rel (hw.queues q) hQ'
  exact h.marks q Q id hQ ((he.current (h.queues q Q hQ)).symm.trans hc)

theorem Ready.cons {f : Activation a b} (h : k.Ready w) (hf : f.Fits w k) :
    (Pending.cons f k).Ready w :=
  ⟨h.queues, ⟨hf, h.stack⟩, fun q Q id hQ hc => mem_turns_cons (h.marks q Q id hQ hc)⟩

theorem Ready.tail {f : Activation a b} (h : (Pending.cons f k).Ready w)
    (hturn : f.turn? = none) : k.Ready w :=
  ⟨h.queues, h.stack.2, fun q Q id hQ hc => turns_cons hturn k ▸ h.marks q Q id hQ hc⟩

theorem Ready.fits {f : Activation a b} (h : (Pending.cons f k).Ready w) : f.Fits w k := h.stack.1

theorem Ready.lower {k' : Pending a} (h : k.Ready w) (hover : k.Over k') : k'.Ready w := by
  induction hover with
  | refl => exact h
  | cons plain _ ih => exact ih.cons (plain.fits _)

end Pending

namespace Control

def action? : Control → Option Action
  | .perform action _ => some action
  | _ => none

def depth : Control → Nat
  | .perform _ k => k.depth
  | .deliver _ k => k.depth
  | .unwind _ k => k.depth
  | _ => 0

def turns : Control → List (Nat × TaskId)
  | .perform _ k => k.turns
  | .deliver _ k => k.turns
  | .unwind _ k => k.turns
  | _ => []

def scripts : Control → List (Nat × TaskId)
  | .perform _ k => k.scripts
  | .deliver _ k => k.scripts
  | .unwind _ k => k.scripts
  | _ => []

def payloads : Control → List Payload
  | .perform _ k => k.payloads
  | .deliver _ k => k.payloads
  | .unwind payload k => payload :: k.payloads
  | _ => []

def Atop (k : Pending c) : Control → Prop
  | .perform _ k' => k.Atop k'
  | .deliver _ k' => k.Atop k'
  | .unwind _ k' => k.Atop k'
  | _ => False

def Ready (w : World) : Control → Prop
  | .perform _ k => k.Ready w
  | .deliver _ k => k.Ready w
  | .unwind _ k => k.Ready w
  | .answered _ | .escaped _ => Pending.outermost.Ready w
  | .aborted => w.WellFormed

variable {k : Pending c} {control : Control}

theorem Over.turns (h : control.Over k) : control.turns = k.turns := by
  cases control with
  | perform | deliver | unwind => exact Pending.Over.turns h
  | answered | escaped | aborted => exact h.elim

theorem Over.depth_le (h : control.Over k) : k.depth ≤ control.depth := by
  cases control with
  | perform | deliver | unwind => exact Pending.Over.depth_le h
  | answered | escaped | aborted => exact h.elim

theorem Over.trans {k' : Pending b} (h : control.Over k') (h' : k.Over k') : control.Over k := by
  cases control with
  | perform | deliver | unwind => exact h'.trans h
  | answered | escaped | aborted => exact h.elim

theorem Over.atop (h : control.Over k) : control.Atop k := by
  cases control with
  | perform | deliver | unwind => exact Pending.Over.atop h
  | answered | escaped | aborted => exact h.elim

theorem Atop.trans {k' : Pending b} (h : control.Atop k') (h' : k.Atop k') : control.Atop k := by
  cases control with
  | perform | deliver | unwind => exact h'.trans h
  | answered | escaped | aborted => exact h.elim

theorem Atop.mem_payloads {payload : Payload} (h : control.Atop k)
    (hm : payload ∈ control.payloads) : payload ∈ k.payloads ∨ control.payload? = some payload := by
  cases control with
  | perform | deliver => exact .inl (Pending.Atop.payloads h ▸ hm)
  | unwind payload' k' =>
    obtain rfl | hm := List.mem_cons.1 hm
    · exact .inr rfl
    · exact .inl (Pending.Atop.payloads h ▸ hm)
  | answered | escaped | aborted => exact h.elim

theorem Over.ready (h : control.Over k) (hk : k.Ready w) : control.Ready w := by
  cases control with
  | perform | deliver | unwind => exact hk.lower h
  | answered | escaped | aborted => exact h.elim

end Control

/-- The stack fits the world, and a cancellation on its way out belongs to an interrupted script
whose step it has not left yet. -/
structure Process.Sound (p : Process) : Prop where
  ready : p.control.Ready p.world
  flight : ∀ id, p.control.payload? = some (.cancelled id) →
    ∃ q, (q, id) ∈ p.control.scripts ∧ p.world.Armed q id

namespace Control

variable {control : Control}

theorem Ready.queues (h : control.Ready w) : w.WellFormed := by
  cases control with
  | perform | deliver | unwind | answered | escaped => exact Pending.Ready.queues h
  | aborted => exact h

theorem Ready.nodup (h : control.Ready w) : (control.turns.map Prod.fst).Nodup := by
  cases control with
  | perform | deliver | unwind => exact (Pending.Ready.stack h).nodup
  | answered | escaped | aborted => exact List.nodup_nil

theorem Ready.marks {Q : Queue} (h : control.Ready w) (hQ : w.queue? q = some Q)
    (hc : Q.current = some id) (hended : control ≠ .aborted) : (q, id) ∈ control.turns := by
  cases control with
  | perform | deliver | unwind | answered | escaped => exact Pending.Ready.marks h q Q id hQ hc
  | aborted => exact absurd rfl hended

theorem Ready.running (h : control.Ready w) (hm : (q, id) ∈ control.turns) : w.Running q id := by
  cases control with
  | perform | deliver | unwind => exact (Pending.Ready.stack h).running hm
  | answered | escaped | aborted => cases hm

theorem Ready.scripts_subset (h : control.Ready w) : control.scripts ⊆ control.turns := by
  cases control with
  | perform | deliver | unwind => exact (Pending.Ready.stack h).scripts_subset
  | answered | escaped | aborted => exact List.nil_subset _

end Control

theorem Process.Sound.queues {p : Process} (h : p.Sound) : p.world.WellFormed := h.ready.queues

end TaskLoop
