import TaskLoop.Proofs.Reachable

namespace TaskLoop

variable {p p' : Process} {q : Nat} {id : TaskId} {i j n : Nat}

structure Course where
  process : Nat → Process
  starts : ∃ start queues engines, process 0 = Process.fresh start queues engines
  next : ∀ i, (process i).Next (process (i + 1))

instance : CoeFun Course fun _ => Nat → Process := ⟨Course.process⟩

/-- What a process leaves of a queue that is there has come out of it by moves. -/
theorem Process.Sound.moves_next {Q' : Queue} (h : p.Sound) (hnext : p.Next p')
    (hQ' : p'.world.queue? q = some Q') :
    ∃ Q, p.world.queue? q = some Q ∧ Q.Moves (fun _ => True) Q' := by
  cases hnext with
  | step =>
    obtain ⟨Q, hQ, hmoves⟩ := World.queue?_of_rel (h.step.1.queues q) hQ'
    exact ⟨Q, hQ, hmoves.mono fun _ _ => trivial⟩
  | command ended command => exact ⟨Q', World.queue?_begin hQ', .refl⟩

theorem Process.step_of_ended (h : p.control.ended = true) : p.step = p := by
  refine step_of_isOver ?_
  cases hc : p.control with
  | answered | escaped => rw [isOver, hc]
  | perform | deliver | unwind | aborted => rw [hc] at h; cases h

namespace Course

variable (s : Course)

theorem reachable (i : Nat) : (s i).Reachable := by
  induction i with
  | zero =>
    obtain ⟨start, queues, engines, h⟩ := s.starts
    exact ⟨start, queues, engines, h ▸ .refl⟩
  | succ i ih => exact ih.later (.single (s.next i))

theorem sound (i : Nat) : (s i).Sound := (s.reachable i).sound

variable {s}

theorem step_or_begin (s : Course) (i : Nat) :
    s (i + 1) = (s i).step ∨
      (s i).control.ended = true ∧ ∃ command, s (i + 1) = (s i).world.begin command := by
  generalize hp : s (i + 1) = p
  have hnext := s.next i
  change (s i).Next (s (i + 1)) at hnext
  rw [hp] at hnext
  generalize s i = p' at hnext ⊢
  cases hnext with
  | step => exact .inl rfl
  | command ended command => exact .inr ⟨ended, command, rfl⟩

theorem succ_eq_step (h : (s i).control.ended = false) : s (i + 1) = (s i).step :=
  (s.step_or_begin i).resolve_right fun hb => by simp [h] at hb

theorem add_eq_run (h : ∀ l < n, (s (i + l)).control.ended = false) : s (i + n) = (s i).run n := by
  induction n with
  | zero => rfl
  | succ n ih =>
    rw [← Nat.add_assoc, succ_eq_step (h n (Nat.lt_succ_self n)),
      ih fun l hl => h l (Nat.lt_succ_of_lt hl), Process.run_succ_step]

/-- A queue that is there was there before, and has come out of what it was by moves. -/
theorem moves {Q' : Queue} (hij : i ≤ j) (hQ' : (s j).world.queue? q = some Q') :
    ∃ Q, (s i).world.queue? q = some Q ∧ Q.Moves (fun _ => True) Q' := by
  induction hij generalizing Q' with
  | refl => exact ⟨Q', hQ', .refl⟩
  | @step j _ ih =>
    obtain ⟨Q₁, hQ₁, hmoves⟩ := (s.sound j).moves_next (s.next j) hQ'
    obtain ⟨Q, hQ, hmoves'⟩ := ih hQ₁
    exact ⟨Q, hQ, hmoves'.trans hmoves⟩

theorem now_le (s : Course) (hij : i ≤ j) : (s i).world.now.toNat ≤ (s j).world.now.toNat := by
  induction hij with
  | refl => exact Nat.le_refl _
  | @step j _ ih =>
    refine Nat.le_trans ih ?_
    obtain hstep | ⟨_, command, hbegin⟩ := s.step_or_begin j
    · rw [hstep]
      exact (s.sound j).step.1.now
    · rw [hbegin]
      exact World.begin_induction (motive := fun p => (s j).world.now.toNat ≤ p.world.now.toNat)
        (fun _ => Nat.le_refl _) (Nat.le_refl _) (fun _ _ _ => Nat.le_refl _) command

theorem task?_eq_none {l : Nat} {task : Task} (hij : i ≤ j) (hjl : j ≤ l)
    (ht : (s i).world.task? q id = some task) (hgone : (s j).world.task? q id = none) :
    (s l).world.task? q id = none := by
  refine Option.eq_none_iff_forall_ne_some.2 fun task' ht' => ?_
  obtain ⟨Q₂, hQ₂, hg₂⟩ := World.task?_eq_some.1 ht'
  obtain ⟨Q₁, hQ₁, hlater⟩ := moves hjl hQ₂
  obtain ⟨Q₀, hQ₀, hmoves⟩ := moves hij hQ₁
  obtain ⟨Q, hQ, hg⟩ := World.task?_eq_some.1 ht
  obtain rfl := Option.some.inj (hQ.symm.trans hQ₀)
  have hknown := hmoves.known ((s.sound i).queues q Q hQ) (Arena.known_of_get? hg)
  obtain ⟨task₁, hg₁, _⟩ := hlater.get?_origin ((s.sound j).queues q Q₁ hQ₁) hknown hg₂
  cases hgone.symm.trans (World.task?_eq_some.2 ⟨Q₁, hQ₁, hg₁⟩)

def play : Process × List Command → Process × List Command
  | (p, []) => (p.step, [])
  | (p, command :: rest) =>
    if p.control.ended then (p.world.begin command, rest) else (p.step, command :: rest)

theorem next_play (x : Process × List Command) : x.1.Next (play x).1 := by
  obtain ⟨p, commands⟩ := x
  cases commands with
  | nil => exact .step p
  | cons command rest =>
    rw [play]
    split
    · next hended => exact .command hended command
    · exact .step p

def ofCommands (queues : List QueueConfig) (engines : List EngineKind) (commands : List Command) :
    Course where
  process i := (Nat.repeat play i (Process.fresh 0 queues engines, commands)).1
  starts := ⟨0, queues, engines, rfl⟩
  next _ := next_play _

end Course

end TaskLoop
