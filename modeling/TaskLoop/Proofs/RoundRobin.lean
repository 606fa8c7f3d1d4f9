import Mathlib
import TaskLoop.Proofs.Seclusion

namespace TaskLoop

variable {w : World} {q r n : Nat} {id : TaskId} {p : Process} {Q Q₀ Q₁ Q₂ : Queue}
  {count : TaskId → Nat} {ids past todo : List TaskId}

def roundOf (count : TaskId → Nat) (ids : List TaskId) (r : Nat) : List TaskId :=
  ids.filter (r < count ·)

def turnsOf (count : TaskId → Nat) (ids : List TaskId) (r : Nat) : List TaskId :=
  (List.range r).flatMap (roundOf count ids)

def roundsOf (count : TaskId → Nat) (ids : List TaskId) : Nat := (ids.map count).foldr max 0

def verdictOf (count : TaskId → Nat) (id : TaskId) (r : Nat) : Verdict :=
  if r + 1 < count id then .again else .done

theorem mem_roundOf : id ∈ roundOf count ids r ↔ id ∈ ids ∧ r < count id := by simp [roundOf]

theorem roundOf_zero (h : ∀ id ∈ ids, 1 ≤ count id) : roundOf count ids 0 = ids :=
  List.filter_eq_self.2 fun id hid => decide_eq_true (h id hid)

theorem roundOf_succ (count : TaskId → Nat) (ids : List TaskId) (r : Nat) :
    roundOf count ids (r + 1) = (roundOf count ids r).filter (r + 1 < count ·) := by
  rw [roundOf, roundOf, List.filter_filter]
  refine List.filter_congr fun id _ => ?_
  by_cases h : r + 1 < count id
  · simp [h, Nat.lt_of_succ_lt h]
  · simp [h]

theorem turnsOf_succ (count : TaskId → Nat) (ids : List TaskId) (r : Nat) :
    turnsOf count ids (r + 1) = turnsOf count ids r ++ roundOf count ids r := by
  simp [turnsOf, List.range_succ]

theorem roundsOf_le_iff : roundsOf count ids ≤ r ↔ ∀ id ∈ ids, count id ≤ r := by
  induction ids with
  | nil => simp [roundsOf]
  | cons id ids ih =>
    rw [roundsOf, List.map_cons, List.foldr_cons, Nat.max_le, List.forall_mem_cons]
    exact and_congr_right fun _ => ih

theorem count_le_roundsOf (hid : id ∈ ids) : count id ≤ roundsOf count ids :=
  roundsOf_le_iff.1 (Nat.le_refl _) id hid

theorem roundOf_eq_nil_iff : roundOf count ids r = [] ↔ roundsOf count ids ≤ r := by
  rw [roundsOf_le_iff, roundOf, List.filter_eq_nil_iff]
  simp

/-- A task that still has turns has had one in each round. -/
theorem count_turnsOf (hnodup : ids.Nodup) (hid : id ∈ ids) (hr : r ≤ count id) :
    (turnsOf count ids r).count id = r := by
  induction r with
  | zero => rfl
  | succ r ih =>
    have hround : (roundOf count ids r).count id = 1 :=
      List.count_eq_one_of_mem (hnodup.filter _) (mem_roundOf.2 ⟨hid, hr⟩)
    rw [turnsOf_succ, List.count_append, ih (Nat.le_of_succ_le hr), hround]

theorem sum_min_succ (count : TaskId → Nat) (ids : List TaskId) (r : Nat) :
    (ids.map fun id => min (count id) (r + 1)).sum =
      (ids.map fun id => min (count id) r).sum + (roundOf count ids r).length := by
  induction ids with
  | nil => rfl
  | cons id ids ih =>
    by_cases h : r < count id
    · simp only [roundOf, List.filter_cons, h, decide_true, if_true, List.map_cons, List.sum_cons,
        List.length_cons] at ih ⊢
      omega
    · simp only [roundOf, List.filter_cons, h, decide_false, Bool.false_eq_true, if_false,
        List.map_cons, List.sum_cons] at ih ⊢
      omega

theorem length_turnsOf (count : TaskId → Nat) (ids : List TaskId) (r : Nat) :
    (turnsOf count ids r).length = (ids.map fun id => min (count id) r).sum := by
  induction r with
  | zero => simp [turnsOf]
  | succ r ih => rw [turnsOf_succ, List.length_append, ih, sum_min_succ]

theorem length_turnsOf_roundsOf (count : TaskId → Nat) (ids : List TaskId) :
    (turnsOf count ids (roundsOf count ids)).length = (ids.map count).sum := by
  rw [length_turnsOf]
  exact congrArg List.sum (List.map_congr_left fun _ hid => Nat.min_eq_left (count_le_roundsOf hid))

/-- The tasks that are done after a round are those that were done before and those that have their
last turn in it. -/
theorem countP_roundOf (count : TaskId → Nat) (ids : List TaskId) (r : Nat) :
    ids.countP (count · ≤ r + 1) =
      ids.countP (count · ≤ r) + (roundOf count ids r).countP (count · ≤ r + 1) := by
  induction ids with
  | nil => rfl
  | cons id ids ih =>
    by_cases h : r < count id
    · have hnot : ¬ count id ≤ r := Nat.not_le.2 h
      simp only [roundOf, List.filter_cons, h, decide_true, if_true, List.countP_cons, hnot,
        decide_false, Bool.false_eq_true, if_false] at ih ⊢
      omega
    · have hle : count id ≤ r := Nat.not_lt.1 h
      simp only [roundOf, List.filter_cons, h, decide_false, Bool.false_eq_true, if_false,
        List.countP_cons, hle, Nat.le_succ_of_le hle, decide_true, if_true] at ih ⊢
      omega

namespace Queue

def pushAll (Q : Queue) : List Task → List TaskId × Queue
  | [] => ([], Q)
  | task :: tasks =>
    let (ids, Q₁) := (Q.push task).2.pushAll tasks
    ((Q.push task).1 :: ids, Q₁)

theorem order_pushAll (Q : Queue) (tasks : List Task) :
    (Q.pushAll tasks).2.order = Q.order ++ (Q.pushAll tasks).1 := by
  induction tasks generalizing Q with
  | nil => simp [pushAll]
  | cons task tasks ih =>
    rw [pushAll, ih]
    simp [push]

theorem pushAll_same (Q : Queue) (tasks : List Task) :
    (Q.pushAll tasks).2.current = Q.current ∧ (Q.pushAll tasks).2.stopping = Q.stopping ∧
      (Q.pushAll tasks).2.stats = Q.stats := by
  induction tasks generalizing Q with
  | nil => exact ⟨rfl, rfl, rfl⟩
  | cons task tasks ih => exact ih (Q.push task).2

/-- The queue in a round of its run: these tasks have had their turn, and those are to have it. -/
structure InRound (Q₀ : Queue) (count : TaskId → Nat) (ids : List TaskId) (r : Nat)
    (past todo : List TaskId) (Q : Queue) : Prop where
  order : Q.order = past.filter (r + 1 < count ·) ++ todo
  idle : Q.current = none
  stopping : Q.stopping = false
  stats : Q.stats = { Q₀.stats with
    passes := Q₀.stats.passes + r
    steps := Q₀.stats.steps + (turnsOf count ids r).length
    completed := Q₀.stats.completed + ids.countP (count · ≤ r) }
  fresh : r = 0 → ∀ id ∈ todo, Q.get? id = Q₀.get? id

theorem InRound.start (horder : Q₀.order = ids) (hidle : Q₀.current = none)
    (hstop : Q₀.stopping = false) (hcount : ∀ id ∈ ids, 1 ≤ count id) :
    Q₀.InRound count ids 0 [] (roundOf count ids 0) Q₀ := by
  have hnone : ids.countP (count · ≤ 0) = 0 :=
    List.countP_eq_zero.2 fun id hid => by simpa using Nat.ne_of_gt (hcount id hid)
  refine ⟨?_, hidle, hstop, ?_, fun _ _ _ => rfl⟩
  · rw [roundOf_zero hcount, horder]
    rfl
  · rw [hnone]
    rfl

theorem InRound.turn (h : Q₀.InRound count ids r past (id :: todo) Q) (hid : id ∉ todo)
    (hspared : (Q.enter id).SparedBy id Q₁)
    (hkeeps : Q₁.Keeps (World.leftBy (past.filter (r + 1 < count ·)) id todo (verdictOf count id r))
      Q₂) : Q₀.InRound count ids r (past ++ [id]) todo Q₂ := by
  refine ⟨?_, hkeeps.idle, ?_, ?_, fun hr id' hid' => ?_⟩
  · rw [hkeeps.order, verdictOf]
    by_cases hmore : r + 1 < count id
    · simp [hmore, World.leftBy]
    · simp [hmore, World.leftBy]
  · rw [hkeeps.stopping, hspared.stopping]
    exact h.stopping
  · rw [hkeeps.stats, hspared.stats]
    exact h.stats
  · have hleft : id' ∈
        World.leftBy (past.filter (r + 1 < count ·)) id todo (verdictOf count id r) := by
      cases verdictOf count id r <;> simp [World.leftBy, hid']
    have hne : id' ≠ id := fun he => hid (he ▸ hid')
    rw [hkeeps.records id' hleft, hspared.others id' hne]
    exact h.fresh hr id' (List.mem_cons_of_mem _ hid')

theorem InRound.countPass (h : Q₀.InRound count ids r (roundOf count ids r) [] Q) :
    Q₀.InRound count ids (r + 1) [] (roundOf count ids (r + 1))
      (Q.countPass (roundOf count ids r).length
        ((roundOf count ids r).countP (count · ≤ r + 1))) := by
  refine ⟨?_, h.idle, h.stopping, ?_, fun hr => absurd hr (Nat.succ_ne_zero r)⟩
  · rw [roundOf_succ]
    exact h.order.trans (List.append_nil _)
  · rw [Queue.countPass, h.stats, turnsOf_succ, List.length_append, countP_roundOf count ids]
    simp only [Nat.add_assoc]

end Queue

structure Walk.Counts (count : TaskId → Nat) (r : Nat) (past : List TaskId) (walk : Walk) : Prop where
  stepped : walk.stepped = past.length
  completed : walk.completed = past.countP (count · ≤ r + 1)

theorem Walk.Counts.after {walk : Walk} (h : walk.Counts count r past) (id : TaskId) :
    (Walk.after { walk with visited := id :: walk.visited } (verdictOf count id r)).Counts count r
      (past ++ [id]) := by
  by_cases hmore : r + 1 < count id
  · have hnot : ¬ count id ≤ r + 1 := Nat.not_le.2 hmore
    constructor <;> simp [Walk.after, verdictOf, hmore, hnot, h.stepped, h.completed]
  · have hlast : count id ≤ r + 1 := Nat.not_lt.1 hmore
    constructor <;> simp [Walk.after, verdictOf, hmore, hlast, h.stepped, h.completed]

namespace Process

variable {k : Pending .reply}

def passStack (q : Nat) (k : Pending .reply) : Pending .pass := .cons (.drain q) (.cons .runReply k)

/-- While the run lasts, no callback touches the queue and no watchdog interrupts its tasks. Every turn
ends, and the last of the turns that a task is to have, but none before it, with the verdict that the
task is done. Every destructor returns. -/
structure Cooperates (q : Nat) (k : Pending .reply) (count : TaskId → Nat) (p : Process) : Prop where
  apart : ∀ n, 0 < n → p.Deep k.depth n → (p.run n).touches q = false
  quiet : ∀ n, p.Deep k.depth n → (p.run n).barks q = false
  turns : ∀ n id, p.Deep k.depth n → (p.run n).Begins q id → ∃ walk m w,
    (p.run n).Yields (.cons (.turn q id walk) (passStack q k)) m w
      (verdictOf count id ((p.stepped q n).count id))
  destructors : ∀ n next walk, p.Deep k.depth n →
    (p.run n).step.control.Upon (.cons .unheeded (.cons (.walk q next walk) (passStack q k))) →
    ∃ m w, (p.run n).Yields (.cons (.walk q next walk) (passStack q k)) m w ()

theorem Deep.add {d m : Nat} (h : p.Deep d n) (h' : (p.run n).Deep d m) : p.Deep d (n + m) := by
  intro l hl hpos
  obtain hlt | hle := Nat.lt_or_ge n l
  · have hdeep := h' (l - n) (by omega) (by omega)
    rwa [← run_add, Nat.add_sub_cancel' (Nat.le_of_lt hlt)] at hdeep
  · exact h l hle hpos

theorem Cooperates.apart_run (h : p.Cooperates q k count) (hdeep : p.Deep k.depth n) {l : Nat}
    (hpos : 0 < l) (hl : (p.run n).Deep k.depth l) : ((p.run n).run l).touches q = false := by
  rw [← run_add]
  exact h.apart (n + l) (by omega) (hdeep.add hl)

structure Amid (q : Nat) (k : Pending .reply) (count : TaskId → Nat) (Q₀ : Queue)
    (ids : List TaskId) (r : Nat) (past todo : List TaskId) (n : Nat) (p : Process) : Prop where
  deep : p.Deep k.depth n
  round : past ++ todo = roundOf count ids r
  queue : ∃ Q, (p.run n).world.queue? q = some Q ∧ Q₀.InRound count ids r past todo Q
  stepped : p.stepped q n = turnsOf count ids r ++ past

structure BeforeTurn (q : Nat) (k : Pending .reply) (count : TaskId → Nat) (Q₀ : Queue)
    (ids : List TaskId) (r : Nat) (past todo : List TaskId) (n : Nat) (p : Process) : Prop
    extends Amid q k count Q₀ ids r past todo n p where
  strides : ∃ walk, (p.run n).Strides q (passStack q k) todo.head? walk ∧
    walk.Counts count r past

structure BeforePass (q : Nat) (k : Pending .reply) (count : TaskId → Nat) (Q₀ : Queue)
    (ids : List TaskId) (r n : Nat) (p : Process) : Prop
    extends Amid q k count Q₀ ids r [] (roundOf count ids r) n p where
  draining : (p.run n).Draining q (.cons .runReply k)

theorem Amid.not_mem (h : p.Amid q k count Q₀ ids r past (id :: todo) n) (hnodup : ids.Nodup) :
    id ∉ past ∧ id ∉ todo := by
  have hround : (past ++ id :: todo).Nodup := h.round ▸ hnodup.filter _
  obtain ⟨_, htodo, hdisjoint⟩ := List.nodup_append.1 hround
  exact ⟨fun hm => hdisjoint id hm id (List.mem_cons_self ..) rfl, (List.nodup_cons.1 htodo).1⟩

/-- A task that is to have a turn in a round has had as many turns as there were rounds before. -/
theorem Amid.count_eq (h : p.Amid q k count Q₀ ids r past (id :: todo) n) (hnodup : ids.Nodup) :
    (p.stepped q n).count id = r := by
  have hid : id ∈ ids ∧ r < count id := mem_roundOf.1 (by rw [← h.round]; simp)
  rw [h.stepped, List.count_append, count_turnsOf hnodup hid.1 (Nat.le_of_lt hid.2),
    List.count_eq_zero_of_not_mem (h.not_mem hnodup).1, Nat.add_zero]

theorem depth_lt_passStack (q : Nat) (k : Pending .reply) : k.depth < (passStack q k).depth :=
  Nat.lt_succ_of_lt (Nat.lt_succ_self _)

/-- The next task has its turn, and no callback touches the queue meanwhile. -/
theorem BeforeTurn.yields (h : p.BeforeTurn q k count Q₀ ids r past (id :: todo) n) (hp : p.Sound)
    (hnodup : ids.Nodup) (hcoop : p.Cooperates q k count) :
    ∃ walk m w,
      (p.run n).Yields (.cons (.turn q id walk) (passStack q k)) m w (verdictOf count id r) ∧
      (p.run n).Deep k.depth m ∧ ∀ l < m, 0 < l → ((p.run n).run l).touches q = false := by
  obtain ⟨Q, hQ, hround⟩ := h.queue
  obtain ⟨walk, hstrides, _⟩ := h.strides
  obtain ⟨task, hg⟩ := (((hp.run n).queues q Q hQ).order id).1 (by rw [hround.order]; simp)
  have hbegins := begins_walkOn hstrides.step hstrides.turns (World.task?_eq_some.2 ⟨Q, hQ, hg⟩)
  obtain ⟨walk', m, w, hturn⟩ := hcoop.turns n id h.deep hbegins
  rw [h.count_eq hnodup] at hturn
  have hdeep : ∀ l ≤ m, (p.run n).Deep k.depth l := fun l hl =>
    hturn.deep (Nat.lt_succ_of_lt (depth_lt_passStack q k)) hl
  exact ⟨walk', m, w, hturn, hdeep m (Nat.le_refl m), fun l hl hpos =>
    hcoop.apart_run h.deep hpos (hdeep l (Nat.le_of_lt hl))⟩

/-- One turn: the task is stepped, and the pass goes on with the task behind. -/
theorem BeforeTurn.next (h : p.BeforeTurn q k count Q₀ ids r past (id :: todo) n) (hp : p.Sound)
    (hnodup : ids.Nodup) (hcoop : p.Cooperates q k count) :
    ∃ m, p.BeforeTurn q k count Q₀ ids r (past ++ [id]) todo m := by
  obtain ⟨Q, hQ, hround⟩ := h.queue
  obtain ⟨walk, hstrides, hcounts⟩ := h.strides
  obtain ⟨walk', m, w, hturn, hdeep, hapart⟩ := h.yields hp hnodup hcoop
  obtain ⟨hended, hstepped, Q₁, hQ₁, hspared⟩ := hstrides.turn (hp.run n) hQ
    (by rw [hround.order]; simp) hturn (hcoop.quiet n h.deep) hapart
  -- what follows the verdict, up to the next turn
  rw [← run_add] at hended
  have hsound := hended ▸ hp.run (n + m)
  have hdeep' : p.Deep k.depth (n + m) := h.deep.add hdeep
  obtain ⟨m', w₂, Q₂, hnext, hsilent, hQ₂, hkeeps⟩ := hsound.turn_ends (depth_lt_passStack q k) hQ₁
    hspared.current (hspared.order.trans hround.order) (fun next walk hupon => by
      rw [← hended] at hupon ⊢
      exact hcoop.destructors (n + m) next walk hdeep' hupon) fun l hpos hl => by
      rw [← hended] at hl ⊢
      exact hcoop.apart_run hdeep' hpos hl
  rw [← hended] at hnext hsilent
  have hend := hnext.returns
  rw [← run_add] at hend
  refine ⟨n + m + m', ⟨?_, ?_, ⟨Q₂, ?_, hround.turn (h.not_mem hnodup).2 hspared hkeeps⟩, ?_⟩,
    _, ⟨?_, ?_⟩, hcounts.after id⟩
  · exact hdeep'.add (hnext.deep (Nat.lt_succ_of_lt (depth_lt_passStack q k)) (Nat.le_refl m'))
  · rw [← h.round, List.append_assoc]
    rfl
  · rw [hend]
    exact hQ₂
  · rw [stepped_add, stepped_add, hstepped, hsilent, h.stepped, List.append_nil, List.append_assoc]
  · rw [hend]
    exact step_deliver ..
  · rw [hend]
    rfl

theorem BeforeTurn.turns {now : List TaskId}
    (h : p.BeforeTurn q k count Q₀ ids r past (now ++ todo) n) (hp : p.Sound) (hnodup : ids.Nodup)
    (hcoop : p.Cooperates q k count) :
    ∃ m, p.BeforeTurn q k count Q₀ ids r (past ++ now) todo m := by
  induction now generalizing past n with
  | nil => exact ⟨n, (List.append_nil past).symm ▸ h⟩
  | cons id now ih =>
    obtain ⟨m, hnext⟩ := h.next hp hnodup hcoop
    rw [List.append_cons]
    exact ih hnext

theorem Deep.succ {d : Nat} (h : p.Deep d n) (hd : d < (p.run (n + 1)).control.depth) :
    p.Deep d (n + 1) := by
  intro l hl hpos
  obtain rfl | hlt := Nat.eq_or_lt_of_le hl
  · exact hd
  · exact h l (Nat.le_of_lt_succ hlt) hpos

theorem stepped_succ_of_length
    (h : (p.run (n + 1)).control.turns.length ≤ (p.run n).control.turns.length) :
    p.stepped q (n + 1) = p.stepped q n := by
  have hquiet : (p.run n).stepped q 1 = [] := stepped_eq_nil fun l hl => by
    rw [Nat.lt_one_iff.1 hl]
    exact begun?_eq_none_of_length (run_succ_step p n ▸ h)
  rw [stepped_add, hquiet, List.append_nil]

/-- A pass ends when every task of the round has had its turn. -/
theorem BeforeTurn.ends (h : p.BeforeTurn q k count Q₀ ids r past [] n) :
    p.BeforePass q k count Q₀ ids (r + 1) (n + 1) := by
  obtain rfl : past = roundOf count ids r := (List.append_nil past).symm.trans h.round
  obtain ⟨Q, hQ, hround⟩ := h.queue
  obtain ⟨walk, hstrides, hcounts⟩ := h.strides
  have hend : p.run (n + 1) = ((p.run n).world.modifyQueue q
      (·.countPass walk.stepped walk.completed)).deliver (passStack q k) walk.stepped := by
    rw [run_succ_step, hstrides.step]
    rfl
  refine ⟨⟨h.deep.succ ?_, rfl, ⟨_, ?_, hround.countPass⟩, ?_⟩, ?_⟩
  · rw [hend]
    exact Nat.lt_succ_of_lt (Nat.lt_succ_self _)
  · rw [hend, ← hcounts.stepped, ← hcounts.completed]
    exact (World.queue?_modifyQueue ..).trans (by rw [hQ]; rfl)
  · rw [stepped_succ_of_length (by rw [hend, hstrides.turns]; exact Nat.le_refl _), h.stepped,
      turnsOf_succ, List.append_nil]
  · rw [hend]
    exact draining_deliver ..

/-- A run makes another pass while there is a round left. -/
theorem BeforePass.begins (h : p.BeforePass q k count Q₀ ids r n) (hr : r < roundsOf count ids) :
    p.BeforeTurn q k count Q₀ ids r [] (roundOf count ids r) n := by
  obtain ⟨Q, hQ, hround⟩ := h.queue
  have hne : roundOf count ids r ≠ [] := fun he => absurd (roundOf_eq_nil_iff.1 he) (Nat.not_le.2 hr)
  have horder : Q.order = roundOf count ids r := hround.order
  refine ⟨h.toAmid, {}, ⟨?_, h.draining.turns⟩, rfl, rfl⟩
  simp [h.draining.step, World.drainOn, World.startPass, hQ, hround.idle, hround.stopping, horder,
    hne, passStack]

theorem BeforePass.rounds (h : p.BeforePass q k count Q₀ ids r n) (hr : r ≤ roundsOf count ids)
    (hp : p.Sound) (hnodup : ids.Nodup) (hcoop : p.Cooperates q k count) :
    ∃ m, p.BeforePass q k count Q₀ ids (roundsOf count ids) m := by
  obtain ⟨left, hleft⟩ := Nat.exists_eq_add_of_le hr
  induction left generalizing r n with
  | zero =>
    rw [hleft]
    exact ⟨n, h⟩
  | succ left ih =>
    have hpass := h.begins (by omega)
    rw [← List.append_nil (roundOf count ids r)] at hpass
    obtain ⟨m, hdone⟩ := hpass.turns hp hnodup hcoop
    exact ih hdone.ends (by omega) (by omega)

theorem BeforePass.drained (h : p.BeforePass q k count Q₀ ids (roundsOf count ids) n) :
    ∃ w Q, p.Yields k (n + 2) w (.outcome .drained) ∧ w.queue? q = some Q ∧ Q.order = [] ∧
      Q.stats = { Q₀.stats with
        passes := Q₀.stats.passes + roundsOf count ids
        steps := Q₀.stats.steps + (ids.map count).sum
        completed := Q₀.stats.completed + ids.length } ∧
      p.stepped q (n + 2) = turnsOf count ids (roundsOf count ids) := by
  obtain ⟨Q, hQ, hround⟩ := h.queue
  have hempty : Q.order = [] := hround.order.trans (roundOf_eq_nil_iff.2 (Nat.le_refl _))
  have hend : p.run (n + 1) = (p.run n).world.deliver (.cons .runReply k) .drained := by
    rw [run_succ_step, h.draining.step_eq hQ hround.stopping hempty]
  have hreply : p.run (n + 2) = (p.run n).world.deliver k (.outcome .drained) := by
    rw [run_succ_step, hend]
    exact step_deliver ..
  have hall : ids.countP (count · ≤ roundsOf count ids) = ids.length :=
    List.countP_eq_length.2 fun _ hid => decide_eq_true (count_le_roundsOf hid)
  refine ⟨_, Q, ⟨Nat.succ_pos _, fun l hl hpos => ?_, hreply⟩, hQ, hempty, ?_, ?_⟩
  · refine h.deep.succ ?_ l (Nat.le_of_lt_succ hl) hpos
    rw [hend]
    exact Nat.lt_succ_self _
  · rw [hround.stats, hall, length_turnsOf_roundsOf]
  · rw [stepped_succ_of_length (by rw [hreply, hend]; exact Nat.le_refl _),
      stepped_succ_of_length (by rw [hend, h.draining.turns]; exact Nat.le_refl _), h.stepped,
      List.append_nil]

theorem beforePass_zero (hcontrol : p.control = .perform (.queue q .runOnce) k)
    (hQ : p.world.queue? q = some Q₀) (horder : Q₀.order = ids) (hidle : Q₀.current = none)
    (hstop : Q₀.stopping = false) (hcount : ∀ id ∈ ids, 1 ≤ count id) :
    p.BeforePass q k count Q₀ ids 0 0 where
  deep _ hl hpos := absurd hpos (Nat.not_lt.2 hl)
  round := rfl
  queue := ⟨Q₀, hQ, .start horder hidle hstop hcount⟩
  stepped := rfl
  draining := draining_perform hcontrol hQ hidle

/-- A timer that is due at the beginning and does not repeat has one turn. -/
theorem BeforePass.count_of_due {t : TimerTask} (h : p.BeforePass q k count Q₀ ids 0 0) (hp : p.Sound)
    (hnodup : ids.Nodup) (hcount : ∀ id ∈ ids, 1 ≤ count id) (hcoop : p.Cooperates q k count)
    (hid : id ∈ ids) (ht : Q₀.get? id = some (.timer t)) (halive : t.alive = true)
    (honce : t.interval = none) (hdue : t.deadline ≤ p.world.now) : count id = 1 := by
  have hmore := h.begins (Nat.lt_of_lt_of_le (hcount id hid) (count_le_roundsOf hid))
  obtain ⟨past, todo, rfl⟩ := List.append_of_mem hid
  rw [roundOf_zero hcount] at hmore
  obtain ⟨n, hturn⟩ := hmore.turns hp hnodup hcoop
  obtain ⟨Q, hQ, hround⟩ := hturn.queue
  obtain ⟨walk, hstrides, _⟩ := hturn.strides
  obtain ⟨walk', m, w, hyields, _, hapart⟩ := hturn.yields hp hnodup hcoop
  have hdone := hstrides.verdict_of_due hQ ((hround.fresh rfl id (List.mem_cons_self ..)).trans ht)
    halive honce (UInt64.le_trans hdue (UInt64.le_iff_toNat_le.2 (hp.moves_run n).now)) hyields hapart
  have hlast : ¬ 0 + 1 < count id := fun hlt => by
    rw [verdictOf, if_pos hlt] at hdone
    cases hdone
  have hone := hcount id hid
  omega

/-- Draining is round robin. Some tasks are pushed on an empty queue for which no stop is asked. If
they cooperate, a run that is asked for outside the steps of the queue returns and has drained it. It
has stepped, round by round, the tasks that were not done yet, in the order in which they were pushed,
and has counted its rounds as passes, its turns as steps, and a completion for each task. A timer that
is due and does not repeat has one turn. -/
theorem Reachable.round_robin (h : p.Reachable) (Q₀ : Queue) (tasks : List Task)
    (hcontrol : p.control = .perform (.queue q .runOnce) k) (hempty : Q₀.order = [])
    (hidle : Q₀.current = none) (hstop : Q₀.stopping = false) (hids : (Q₀.pushAll tasks).1 = ids)
    (hQ : p.world.queue? q = some (Q₀.pushAll tasks).2) (hcount : ∀ id ∈ ids, 1 ≤ count id)
    (hcoop : p.Cooperates q k count) :
    (∃ n w Q, p.Yields k n w (.outcome .drained) ∧ w.queue? q = some Q ∧ Q.order = [] ∧
      p.stepped q n = (List.range (roundsOf count ids)).flatMap (fun r => ids.filter (r < count ·)) ∧
      Q.stats = { Q₀.stats with
        passes := Q₀.stats.passes + roundsOf count ids
        steps := Q₀.stats.steps + (ids.map count).sum
        completed := Q₀.stats.completed + ids.length }) ∧
    ∀ id ∈ ids, ∀ t, (Q₀.pushAll tasks).2.get? id = some (.timer t) → t.alive = true →
      t.interval = none → t.deadline ≤ p.world.now → count id = 1 := by
  obtain ⟨hcurrent, hstopping, hstats⟩ := Q₀.pushAll_same tasks
  have horder : (Q₀.pushAll tasks).2.order = ids := by
    rw [Queue.order_pushAll, hempty, List.nil_append, hids]
  have hp := h.sound
  have hnodup : ids.Nodup := horder ▸ (hp.queues q _ hQ).nodup
  have hstart := beforePass_zero hcontrol hQ horder (hcurrent.trans hidle) (hstopping.trans hstop)
    hcount
  refine ⟨?_, fun id hid t ht halive honce hdue =>
    hstart.count_of_due hp hnodup hcount hcoop hid ht halive honce hdue⟩
  obtain ⟨n, hlast⟩ := hstart.rounds (Nat.zero_le _) hp hnodup hcoop
  obtain ⟨w, Q, hyields, hQ', hdrained, hcounted, hstepped⟩ := hlast.drained
  exact ⟨n + 2, w, Q, hyields, hQ', hdrained, hstepped, hstats ▸ hcounted⟩

/-- An idle task with two turns, which looks at its queue, and a timer that is due, which notifies the
observer. This is the run of the queue after so many transitions. -/
def rotating : Nat → Process :=
  during [{}] []
    [.act (.queue 0 (.idle "A" [⟨[.queue 0 .count], .again⟩, ⟨[], .done⟩] none)),
      .act (.queue 0 (.timer "T" 0 none [[.queue 0 (.notify .notice "T")]] none))]
    (.act (.queue 0 .runOnce))

def rotatingTasks : List Task :=
  [.idle { name := "A", body := .steps [⟨[.queue 0 .count], .again⟩, ⟨[], .done⟩], onDrop := none },
    .timer
      { name := "T", deadline := 0, interval := none, fires := [[.queue 0 (.notify .notice "T")]],
        onDrop := none }]

def rotatingCount (id : TaskId) : Nat := if id.slot = 1 then 2 else 1

theorem cooperates_rotating : (rotating 0).Cooperates 0 .outermost rotatingCount := by
  have hbefore : ∀ n, (rotating 0).Deep 0 n → n < 17 := fun n hdeep => by
    refine Nat.lt_of_not_le fun hle => absurd (hdeep 17 hle (by decide)) ?_
    decide +kernel
  have hapart : ∀ n < 17, 0 < n → ((rotating 0).run n).touches 0 = false := by decide +kernel
  have hquiet : ∀ n < 17, ((rotating 0).run n).barks 0 = false := by decide +kernel
  have hbegun : ∀ n < 17, ((rotating 0).run n).begun? 0 =
      if n = 0 ∨ n = 11 then some ⟨1, 1⟩ else if n = 5 then some ⟨2, 1⟩ else none := by decide +kernel
  have hdestructors : ∀ n < 17, ((rotating 0).run n).step.control.destructors = 0 := by decide +kernel
  refine ⟨fun n hpos hdeep => hapart n (hbefore n hdeep) hpos,
    fun n hdeep => hquiet n (hbefore n hdeep), fun n id hdeep hbegins => ?_,
    fun n next walk hdeep hupon => ?_⟩
  · have hbegins' := begun?_eq_some.2 hbegins
    rw [hbegun n (hbefore n hdeep)] at hbegins'
    split at hbegins'
    · next hn =>
      cases hbegins'
      obtain rfl | rfl := hn
      · refine ⟨⟨[⟨1, 1⟩], 0, 0⟩, 4, (rotating 4).world, by decide, by decide +kernel, eq_deliver ?_⟩
        cbv
      · refine ⟨⟨[⟨1, 1⟩], 0, 0⟩, 2, (rotating 13).world, by decide, by decide +kernel, eq_deliver ?_⟩
        cbv
    · split at hbegins'
      · next hn =>
        cases hbegins'
        subst hn
        refine ⟨⟨[⟨2, 1⟩, ⟨1, 1⟩], 1, 0⟩, 4, (rotating 9).world, by decide, by decide +kernel,
          eq_deliver ?_⟩
        cbv
      · cases hbegins'
  · have hle := hupon.destructors_le
    rw [hdestructors n (hbefore n hdeep)] at hle
    simp [Pending.destructors, Activation.destroys, Activation.clears] at hle

/-- The idle task is stepped, then the timer, and then the idle task again. -/
theorem round_robin_rotating :
    (∃ n w Q, (rotating 0).Yields .outermost n w (.outcome .drained) ∧ w.queue? 0 = some Q ∧
      Q.order = [] ∧ (rotating 0).stepped 0 n = [⟨1, 1⟩, ⟨2, 1⟩, ⟨1, 1⟩] ∧
      Q.stats = { passes := 2, steps := 3, completed := 2 }) ∧ rotatingCount ⟨2, 1⟩ = 1 := by
  have hreachable : (rotating 0).Reachable :=
    reachable_during 0 (by decide +kernel) (by decide +kernel)
  have hcontrol : (rotating 0).control = .perform (.queue 0 .runOnce) .outermost := by cbv
  have hids : (Queue.pushAll {} rotatingTasks).1 = [⟨1, 1⟩, ⟨2, 1⟩] := by cbv
  have hQ : (rotating 0).world.queue? 0 = some (Queue.pushAll {} rotatingTasks).2 := by cbv
  obtain ⟨⟨n, w, Q, hyields, hQ', hempty, hstepped, hstats⟩, honce⟩ := hreachable.round_robin {}
    rotatingTasks hcontrol rfl rfl rfl hids hQ (by decide) cooperates_rotating
  exact ⟨⟨n, w, Q, hyields, hQ', hempty, hstepped, hstats⟩,
    honce ⟨2, 1⟩ (by decide) _ (by cbv) rfl rfl (by decide +kernel)⟩

end Process

end TaskLoop
