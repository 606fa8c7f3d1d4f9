import TaskLoop.Proofs.Timeout

namespace TaskLoop

open CommandLine

variable {Q Q' : Queue} {id : TaskId} {p : Process} {f f' : Front} {action : Option Action}

namespace Control

theorem Executed.scripts {k : Pending .call} {control : Control} (h : control.Executed k) :
    control.scripts = k.scripts := by
  cases h with
  | resumed resumed => cases resumed <;> rfl
  | performs => rfl

theorem Calls.scripts {k : Pending .call} {control : Control} (h : control.Calls id k) :
    control.scripts = k.scripts := by
  cases h with
  | executed executed => exact executed.scripts
  | _ => rfl

theorem Stage.mem_scripts {control : Control} (h : control.Stage (.call id)) :
    (0, id) ∈ control.scripts := by
  cases h with
  | calls call =>
    rw [call.scripts]
    exact List.mem_cons_self ..

theorem Stage.isOver (h : p.control.Stage (.ending 0)) : p.isOver = true := by
  rw [Process.isOver]
  generalize p.control = control at h
  cases h with
  | ended => rfl

end Control

namespace Queue

def scripts (Q : Queue) : Nat := Q.order.countP fun id => (Q.flag? id).isSome

theorem scripted_of_scripts (h : Q.scripts ≠ 0) : Q.Scripted := by
  obtain ⟨id, _, hsome⟩ := List.countP_pos_iff.1 (Nat.pos_of_ne_zero h)
  exact ⟨id, hsome⟩

theorem WellFormed.scripts_ne_zero (hQ : Q.WellFormed) (h : (Q.flag? id).isSome) : Q.scripts ≠ 0 :=
  (List.countP_pos_iff.2 ⟨id, hQ.mem_order_of_flag? h, h⟩).ne'

theorem Same.scripts (h : Q.Same Q') : Q'.scripts = Q.scripts := by
  simp only [Queue.scripts, h.order, h.flags]

theorem Alarms.scripts (h : Q.Alarms Q') : Q'.scripts = Q.scripts := by
  obtain ⟨new, horder, hnew, _⟩ := h.grows
  have hplain : Q.flag? new = none := by rw [flag?_eq, hnew]; rfl
  simp [Queue.scripts, horder, h.flags, hplain]

theorem Loses.scripts (h : Q.Loses id Q') (hQ : Q.WellFormed) (hm : id ∈ Q.order) :
    Q.scripts = Q'.scripts + if (Q.flag? id).isSome then 1 else 0 := by
  obtain ⟨kept, rest, horder⟩ := List.append_of_mem hm
  have hleft : Q'.scripts = (kept ++ rest).countP fun id => (Q.flag? id).isSome := by
    rw [Queue.scripts, h.order, filter_order hQ.nodup horder]
    refine List.countP_congr fun id' hm' => ?_
    have hne : id' ≠ id := by
      rintro rfl
      have hnodup := hQ.nodup
      rw [horder, List.nodup_middle] at hnodup
      exact (List.nodup_cons.1 hnodup).1 hm'
    rw [h.flags, if_neg hne]
  rw [hleft, Queue.scripts, horder, List.countP_append, List.countP_append, List.countP_cons,
    Nat.add_assoc]

def ahead (Q : Queue) (id : TaskId) : Nat := (Q.order.dropWhile (· != id)).length

end Queue

/-- At most so many transitions are left of a pass before a task leaves the queue, not counting those
that call a program. -/
def CommandLine.Front.remaining (Q : Queue) : Front → Nat
  | .turn _ => 0
  | .ending left => left
  | .ring _ left => left + 1
  | .call _ => 5
  | .rest => 6
  | .next none => 7
  | .next (some id) => 7 + 2 * Q.ahead id
  | .waits id => 6 + 2 * Q.ahead id

namespace Queue

theorem remaining_nextAfter? (hQ : Q.WellFormed) (hm : id ∈ Q.order) :
    (Front.next (Q.nextAfter? id)).remaining Q < (Front.waits id).remaining Q := by
  obtain ⟨kept, rest, horder⟩ := List.append_of_mem hm
  have hahead : Q.ahead id = rest.length + 1 := by
    rw [ahead, dropWhile_order hQ.nodup horder, List.length_cons]
  rw [nextAfter?_eq hQ.nodup horder]
  cases rest with
  | nil => simp [Front.remaining, hahead]
  | cons next rest =>
    have hsplit : Q.order = (kept ++ [id]) ++ next :: rest := by rw [horder]; simp
    have hnext : Q.ahead next = rest.length + 1 := by
      rw [ahead, dropWhile_order hQ.nodup hsplit, List.length_cons]
    simp only [List.head?_cons, Front.remaining, hahead, hnext, List.length_cons]
    omega

end Queue

theorem CommandLine.Front.Step.remaining_lt (h : f.Step Q f') (hf : f.Leads Q)
    (hQ : Q.WellFormed) (hne : f' ≠ f) : f'.remaining Q < f.remaining Q := by
  cases h with
  | ends | closes | returns | rings | rang => simp [Front.remaining]
  | ended | calls => exact absurd rfl hne
  | rests next => cases next <;> simp only [Front.remaining] <;> omega
  | passes => exact Queue.remaining_nextAfter? hQ hf.1

namespace Queue

/-- A transition lowers this, unless it is one of a call. An interrupt adds a watcher, so that the
length of the queue counts only when all scripts have gone. -/
def rank (Q : Queue) (f : Front) : ℕ ×ₗ ℕ ×ₗ ℕ :=
  toLex (Q.scripts, toLex (if Q.scripts = 0 then Q.order.length else 0, f.remaining Q))

theorem rank_lt (h : f'.remaining Q < f.remaining Q) : Q.rank f' < Q.rank f := by
  rw [rank, rank, Prod.Lex.toLex_lt_toLex]
  exact .inr ⟨rfl, Prod.Lex.toLex_lt_toLex.2 (.inr ⟨rfl, h⟩)⟩

theorem Same.rank (h : Q.Same Q') (f : Front) : Q'.rank f = Q.rank f := by
  have hremaining : f.remaining Q' = f.remaining Q := by
    cases f with
    | next chosen => cases chosen <;> simp only [Front.remaining, ahead, h.order]
    | waits => simp only [Front.remaining, ahead, h.order]
    | _ => rfl
  rw [Queue.rank, h.scripts, h.order, hremaining]
  rfl

theorem Alarms.rank (h : Q.Alarms Q') (hs : Q.scripts ≠ 0) :
    Q'.rank (.call id) = Q.rank (.call id) := by
  rw [Queue.rank, h.scripts, if_neg hs, Queue.rank, if_neg hs]
  rfl

theorem Loses.rank (h : Q.Loses id Q') (horderly : Q.Orderly (.turn id)) (hQ : Q.WellFormed)
    (f' : Front) : Q'.rank f' < Q.rank (.turn id) := by
  have hm := horderly.front.1
  have hscripts := h.scripts hQ hm
  rw [Queue.rank, Queue.rank, Prod.Lex.toLex_lt_toLex]
  by_cases hs : Q.scripts = 0
  · have hlength : Q'.order.length < Q.order.length := by
      rw [h.order]
      exact List.length_filter_lt_length_iff_exists.2 ⟨id, hm, by simp⟩
    have hs' : Q'.scripts = 0 := by omega
    refine .inr ⟨hs'.trans hs.symm, ?_⟩
    rw [if_pos hs', if_pos hs]
    exact Prod.Lex.toLex_lt_toLex.2 (.inl hlength)
  · -- while scripts are queued, the task that leaves is one of them
    have hscripted := scripted_of_scripts hs
    rw [if_pos (horderly.isSome_of_head? hQ hscripted (horderly.front.2 hscripted))] at hscripts
    exact .inl (by omega)

theorem Orderly.remaining_of_entered (h : Q.Orderly f) (hmem : id ∈ Q.order)
    (hfront : f = .next (some id) ∨ f = .rest ∧ Q.order.head? = some id)
    (hentered : Q.Entered id Q' f') : f'.remaining Q < f.remaining Q := by
  have hwatched := h.not_watched hmem hfront
  obtain rfl | ⟨rfl, hhead⟩ := hfront
  · cases hentered <;> simp only [Front.remaining] <;> omega
  · cases hentered with
    | calls | rings | goes | bites => simp [Front.remaining]
    | waits _ waiting =>
      obtain watched | outwaited := waiting
      · exact absurd watched hwatched
      · exact absurd hhead (outwaited.head?_ne h.sorted)

/-- A transition lowers the rank, unless the run stays where it is. -/
theorem Proceeds.rank (h : Q.Proceeds action f Q' f') (horderly : Q.Orderly f) (hQ : Q.WellFormed) :
    Q'.rank f' < Q.rank f ∨ f' = f ∧ Q'.rank f = Q.rank f ∧ f.Step Q f := by
  cases h with
  | alarms _ front alarms =>
    subst front
    exact .inr ⟨rfl, alarms.rank (hQ.scripts_ne_zero horderly.front.1), .calls _⟩
  | other _ outcome =>
    cases outcome with
    | steps step same =>
      by_cases heq : f' = f
      · subst heq
        exact .inr ⟨rfl, same.rank f', step⟩
      · left
        rw [same.rank]
        exact rank_lt (step.remaining_lt horderly.front hQ heq)
    | enters mem front entered =>
      left
      rw [(horderly.same_of_entered mem front entered).rank]
      exact rank_lt (horderly.remaining_of_entered mem front entered)
    | leaves front loses =>
      subst front
      exact .inl (loses.rank horderly hQ _)

end Queue

namespace CommandLine.Launch

variable {l : Launch} {clock : Clock} {n m : Nat}

/-- Every step of a script comes to an end. -/
def StepsEnd (l : Launch) (clock : Clock) : Prop :=
  ∀ n id, (0, id) ∈ (l.after clock n).control.scripts →
    ∃ m, n ≤ m ∧ (0, id) ∉ (l.after clock m).control.scripts

theorem stays_or_lowers (hled : (l.after clock n).Led Q f) (hnm : n ≤ m) :
    (∃ Q', (l.after clock m).Led Q' f ∧ Q'.rank f = Q.rank f) ∨
      ∃ j Q' f', (l.after clock j).Led Q' f' ∧ Q'.rank f' < Q.rank f := by
  induction m, hnm using Nat.le_induction with
  | base => exact .inl ⟨Q, hled, rfl⟩
  | succ m _ ih =>
    obtain ⟨Q₁, hled₁, heq⟩ | hlower := ih
    · obtain ⟨Q₂, f₂, hled₂, hproceeds⟩ := led_succ hled₁
      rw [← heq]
      obtain hlt | ⟨rfl, hrank, _⟩ := hproceeds.rank hled₁.orderly hled₁.wellFormed
      · exact .inr ⟨m + 1, Q₂, f₂, hled₂, hlt⟩
      · exact .inl ⟨Q₂, hled₂, hrank⟩
    · exact .inr hlower

theorem exists_lower (hends : l.StepsEnd clock) (hled : (l.after clock n).Led Q f)
    (hrunning : f ≠ .ending 0) : ∃ j Q' f', (l.after clock j).Led Q' f' ∧ Q'.rank f' < Q.rank f := by
  obtain ⟨Q₁, f₁, hled₁, hproceeds⟩ := led_succ hled
  obtain hlt | ⟨rfl, _, hstep⟩ := hproceeds.rank hled.orderly hled.wellFormed
  · exact ⟨n + 1, Q₁, f₁, hled₁, hlt⟩
  · generalize hf : f₁ = f at hstep
    cases hstep with
    | ended => exact absurd hf hrunning
    | calls id =>
      subst hf
      obtain ⟨m, hnm, hleft⟩ := hends n id hled.stage.mem_scripts
      obtain ⟨Q', hled', _⟩ | hlower := stays_or_lowers hled hnm
      · exact absurd hled'.stage.mem_scripts hleft
      · exact hlower

theorem exists_isOver {Q₀ : Queue} (h : l.process.Led Q₀ .rest) (hends : l.StepsEnd clock) :
    ∃ n, (l.after clock n).isOver = true := by
  have hover : ∀ rank n Q f, (l.after clock n).Led Q f → Q.rank f = rank →
      ∃ n, (l.after clock n).isOver = true := by
    intro rank
    induction rank using WellFoundedLT.induction with
    | ind rank ih =>
      intro n Q f hled hrank
      by_cases hf : f = .ending 0
      · subst hf
        exact ⟨n, hled.stage.isOver⟩
      · obtain ⟨j, Q', f', hled', hlt⟩ := exists_lower hends hled hf
        exact ih _ (hrank ▸ hlt) j Q' f' hled' rfl
  obtain ⟨Q, f, hled⟩ := exists_led h clock 0
  exact hover _ 0 Q f hled rfl

theorem after_of_isOver (hover : (l.after clock n).isOver = true) (hnm : n ≤ m) :
    l.after clock m = l.after clock n := by
  induction m, hnm using Nat.le_induction with
  | base => rfl
  | succ m _ ih => rw [after_succ, ih, if_pos hover]

/-- A run ends just if the steps of its scripts do: the watchdog and the watchers always finish. -/
theorem exists_isOver_iff {Q₀ : Queue} (h : l.process.Led Q₀ .rest) (clock : Clock) :
    (∃ n, (l.after clock n).isOver = true) ↔ l.StepsEnd clock := by
  refine ⟨fun ⟨n, hover⟩ k id _ => ⟨max k n, le_max_left k n, ?_⟩, exists_isOver h⟩
  obtain ⟨Q, f, hled⟩ := exists_led h clock n
  obtain ⟨_, reply, hcontrol⟩ := hled.stage.answered hover
  rw [after_of_isOver hover (le_max_right k n), hcontrol]
  exact List.not_mem_nil

end CommandLine.Launch

end TaskLoop
