import TaskLoop.Proofs.Begin

namespace TaskLoop

variable {a b c : Hole} {w : World} {q : Nat} {id : TaskId} {p : Process}

namespace Pending

inductive Upon (k : Pending c) : {a : Hole} → Pending a → Prop
  | refl : Upon k k
  | cons {a b : Hole} (f : Activation a b) {k' : Pending b} (above : k.Upon k') : Upon k (.cons f k')

theorem Upon.trans {k : Pending c} {k' : Pending b} {k'' : Pending a} (h : k.Upon k')
    (h' : k'.Upon k'') : k.Upon k'' := by
  induction h' with
  | refl => exact h
  | cons f _ ih => exact .cons f ih

theorem Atop.upon {k : Pending c} {k' : Pending a} (h : k.Atop k') : k.Upon k' := by
  induction h with
  | refl => exact .refl
  | cons _ _ ih => exact .cons _ ih

theorem Piled.upon {k : Pending c} {rs : List Task} {k' : Pending a} (h : k.Piled rs k') :
    k.Upon k' := by
  induction h with
  | refl => exact .refl
  | cons _ _ ih => exact .cons _ ih

theorem Upon.depth_le {k : Pending c} {k' : Pending a} (h : k.Upon k') : k.depth ≤ k'.depth := by
  induction h with
  | refl => exact Nat.le_refl _
  | cons _ _ ih => exact Nat.le_succ_of_le ih

theorem Upon.turns {k : Pending c} {k' : Pending a} (h : k.Upon k') : k.turns <:+ k'.turns := by
  induction h with
  | refl => exact List.suffix_refl _
  | cons _ _ ih => exact ih.trans (List.suffix_append _ _)

end Pending

namespace Control

def Upon (k : Pending c) : Control → Prop
  | .perform _ k' => k.Upon k'
  | .deliver _ k' => k.Upon k'
  | .unwind _ k' => k.Upon k'
  | _ => False

variable {k : Pending c} {control : Control}

theorem Over.upon (h : control.Over k) : control.Upon k := by
  cases control with
  | perform | deliver | unwind => exact (Pending.Over.atop h).upon
  | answered | escaped | aborted => exact h.elim

theorem Atop.upon (h : control.Atop k) : control.Upon k := by
  cases control with
  | perform | deliver | unwind => exact Pending.Atop.upon h
  | answered | escaped | aborted => exact h.elim

theorem Piled.upon {rs : List Task} (h : control.Piled k rs) : control.Upon k := by
  cases control with
  | perform | deliver | unwind => exact Pending.Piled.upon h
  | answered | escaped | aborted => exact h.elim

theorem Upon.trans {k' : Pending b} (h : control.Upon k') (h' : k.Upon k') : control.Upon k := by
  cases control with
  | perform | deliver | unwind => exact h'.trans h
  | answered | escaped | aborted => exact h.elim

theorem Upon.depth_le (h : control.Upon k) : k.depth ≤ control.depth := by
  cases control with
  | perform | deliver | unwind => exact Pending.Upon.depth_le h
  | answered | escaped | aborted => exact h.elim

theorem Upon.turns (h : control.Upon k) : k.turns <:+ control.turns := by
  cases control with
  | perform | deliver | unwind => exact Pending.Upon.turns h
  | answered | escaped | aborted => exact h.elim

theorem Upon.ne_aborted (h : control.Upon k) : control ≠ .aborted := by
  rintro rfl
  exact h

end Control

namespace Process

theorem eq_deliver {result : a.Result} {k : Pending a} (h : p.control = .deliver result k) :
    p = p.world.deliver k result := by
  obtain ⟨w, control⟩ := p
  exact congrArg (mk w) h

/-- What runs on top of a stack: more of it comes next or everything is over, unless it gives the
stack a result or a payload. -/
inductive Holds (k : Pending c) : Process → Prop
  | above {p : Process} (deeper : k.depth < p.control.depth)
      (stays : p.step.control.Upon k ∨ p.step.control = .aborted) : Holds k p
  | result (w : World) (result : c.Result) : Holds k (w.deliver k result)
  | payload (w : World) (payload : Payload) : Holds k (w.unwind payload k)

def Stays (k : Pending c) (p : Process) : Prop := p.control.Upon k ∨ p.control = .aborted

theorem Stepping.upon {R : World → Prop} {kind : TaskKind} {k : Pending .verdict}
    (h : p.Stepping R q id kind k) : p.control.Upon k := by
  cases h with
  | verdict => exact .refl
  | within _ within => exact within.stack.upon.trans (.cons _ .refl)

theorem Shifts.stays {E : Prop} {k : Pending c} {rs : List Task} (h : p.Shifts w E k rs) :
    p.Stays k := by
  cases h with
  | piles stack => exact .inl stack.upon
  | @enters q id task walk k' _ queued stack =>
    exact .inl ((World.stepping_enter queued walk k').upon.trans (.cons _ stack.upon))
  | aborts aborted => exact .inr aborted

/-- A transition leaves the stack below the innermost activation alone. -/
theorem holds {k : Pending c} (hupon : p.control.Upon k) (hc : c ≠ .reply) : p.Holds k := by
  obtain ⟨w, control⟩ := p
  cases control with
  | perform action k' =>
    refine .above ?_ ((w.shifts_perform action k').stays.imp_left fun hu => hu.trans hupon)
    cases hupon with
    | refl => exact absurd rfl hc
    | cons f above => exact Nat.lt_succ_of_le above.depth_le
  | deliver result k' =>
    cases hupon with
    | refl => exact .result w result
    | cons f above =>
      refine .above (Nat.lt_succ_of_le above.depth_le) ?_
      rw [step_deliver]
      exact (f.shifts_resume result w _).stays.imp_left fun hu => hu.trans above
  | unwind payload k' =>
    cases hupon with
    | refl => exact .payload w payload
    | cons f above =>
      refine .above (Nat.lt_succ_of_le above.depth_le) ?_
      rw [step_unwind]
      exact (f.shifts_unwind payload w _).stays.imp_left fun hu => hu.trans above
  | answered | escaped | aborted => exact hupon.elim

end Process

end TaskLoop
