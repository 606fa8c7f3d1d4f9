import TaskLoop.Proofs.Reachable

namespace TaskLoop

variable {a b c : Hole} {w : World} {p p₁ p₂ : Process} {G H P : Process → Prop} {d : Nat}

namespace Process

def Leads (G : Process → Prop) (p p₁ : Process) : Prop :=
  ∃ n, p.run n = p₁ ∧ ∀ i < n, G (p.run i)

theorem Leads.refl (p : Process) : p.Leads G p := ⟨0, rfl, nofun⟩

theorem Leads.trans (h : p.Leads G p₁) (h' : p₁.Leads G p₂) : p.Leads G p₂ := by
  obtain ⟨m, rfl, hm⟩ := h
  obtain ⟨n, rfl, hn⟩ := h'
  refine ⟨m + n, run_add m n p, fun i hi => ?_⟩
  by_cases him : i < m
  · exact hm i him
  · have hin := hn (i - m) (by omega)
    rwa [← run_add, Nat.add_sub_cancel' (Nat.le_of_not_lt him)] at hin

theorem Leads.step (h : G p) : p.Leads G p.step :=
  ⟨1, by rw [run_succ, run_zero], fun i hi => Nat.lt_one_iff.1 hi ▸ h⟩

theorem Leads.mono (hGH : ∀ {p}, G p → H p) (h : p.Leads G p₁) : p.Leads H p₁ := by
  obtain ⟨n, hn, hall⟩ := h
  exact ⟨n, hn, fun i hi => hGH (hall i hi)⟩

def Throughout (d : Nat) (P : Process → Prop) (p : Process) : Prop :=
  ∀ i, (∀ j ≤ i, d < (p.run j).control.depth) → P (p.run i)

theorem Throughout.here (h : p.Throughout d P) (hd : d < p.control.depth) : P p :=
  h 0 fun _ hj => Nat.le_zero.1 hj ▸ hd

theorem Throughout.mono {P' : Process → Prop} (h : p.Throughout d P) (hP : ∀ {p}, P p → P' p) :
    p.Throughout d P' := fun i hi => hP (h i hi)

theorem Throughout.leads (h : p.Throughout d P) (hl : p.Leads G p₁)
    (hG : ∀ {p}, G p → d < p.control.depth) : p₁.Throughout d P := by
  obtain ⟨n, rfl, hn⟩ := hl
  intro i hi
  rw [← run_add]
  refine h (n + i) fun j hj => ?_
  by_cases hjn : j < n
  · exact hG (hn j hjn)
  · have hd := hi (j - n) (by omega)
    rwa [← run_add, Nat.add_sub_cancel' (Nat.le_of_not_lt hjn)] at hd

theorem throughout_of_lt {n : Nat} (hn : (p.run n).control.depth ≤ d) (h : ∀ i < n, P (p.run i)) :
    p.Throughout d P := fun i hi => by
  by_cases hin : i < n
  · exact h i hin
  · exact absurd (hi n (Nat.le_of_not_lt hin)) (Nat.not_lt.2 hn)

/-- An action that is performed does not tamper with a queue, and the callback that performs it comes
to its end with no payload on the way. -/
def Polite (p : Process) : Prop :=
  ∀ action, p.control.action? = some action → action.tampers = false ∧
    ∃ n, (p.run n).control.depth < p.control.depth ∧
      ∀ i ≤ n, (p.run i).control.payload? = none

def Above (k : Pending c) (p : Process) : Prop := p.control.Over k ∧ p.step.control.Over k

theorem Above.depth {k : Pending c} (h : p.Above k) (hd : d < k.depth) : d < p.control.depth :=
  Nat.lt_of_lt_of_le hd h.1.depth_le

theorem Above.lower {f : Activation a b} {k : Pending b} (h : p.Above (.cons f k))
    (plain : f.Plain) : p.Above k :=
  ⟨h.1.trans (.cons plain .refl), h.2.trans (.cons plain .refl)⟩

/-- The turns on the stack are these, now and after the next transition, and the stack is deep. -/
structure Steady (ts : List (Nat × TaskId)) (d : Nat) (p : Process) : Prop where
  turns : p.control.turns = ts
  after : p.step.control.turns = ts
  depth : d < p.control.depth

theorem Above.steady {k : Pending c} (h : p.Above k) (hd : d < k.depth) : p.Steady k.turns d :=
  ⟨h.1.turns, h.2.turns, h.depth hd⟩

/-- A callback or a protected call that does not tamper with queues leaves them alone. -/
theorem within_step {k : Pending c} (hover : p.control.Over k)
    (hstrict : k.depth < p.control.depth) (hpayload : p.control.payload? = none)
    (htampers : ∀ action, p.control.action? = some action → action.tampers = false) :
    p.step.Within p.world.Beside k := by
  obtain ⟨w, control⟩ := p
  cases control with
  | perform action k' =>
    have hwithin := w.within_perform_beside (htampers action rfl) k'
    exact ⟨hwithin.world, hwithin.stack.trans hover, hwithin.raised⟩
  | deliver result k' =>
    cases hover with
    | refl => exact absurd hstrict (Nat.lt_irrefl _)
    | @cons a b f k' plain above =>
      have hwithin := plain.within (World.lasting_aside w fun _ => True).robust (World.Aside.refl w)
        (fun _ _ => trivial) result k'
      rw [step_deliver]
      exact ⟨hwithin.world.beside, hwithin.stack.trans above, hwithin.raised⟩
  | unwind payload k' => cases hpayload
  | answered | escaped | aborted => exact hover.elim

/-- What goes on above the stack of a callback is deeper, unless the callback has come to its end. -/
theorem eq_deliver_of_over {k : Pending .routine} (hover : p.control.Over k)
    (hpayload : p.control.payload? = none) (hdepth : p.control.depth ≤ k.depth) :
    ∃ result, p = p.world.deliver k result := by
  obtain ⟨w, control⟩ := p
  have habove : ∀ {b : Hole} {k' : Pending b}, k.Over k' → ¬ k'.depth + 1 ≤ k.depth :=
    fun above hle => absurd above.depth_le (Nat.not_le.2 hle)
  cases control with
  | perform action k' => cases hover with | cons _ above => exact absurd hdepth (habove above)
  | deliver result k' =>
    cases hover with
    | refl => exact ⟨result, rfl⟩
    | cons _ above => exact absurd hdepth (habove above)
  | unwind payload k' => cases hpayload
  | answered | escaped | aborted => exact hover.elim

/-- If callbacks are polite, what goes on above the stack of one comes back to it. -/
theorem leads_return {k : Pending .routine} {n : Nat} (hd : d < k.depth)
    (hpolite : p.Throughout d Polite) (hover : p.control.Over k)
    (hback : (p.run n).control.depth ≤ k.depth)
    (hpayload : ∀ i ≤ n, (p.run i).control.payload? = none) :
    ∃ w result, p.Leads (Above k) (w.deliver k result) ∧ p.world.Beside w := by
  induction n generalizing p with
  | zero =>
    obtain ⟨result, hp⟩ := eq_deliver_of_over hover (hpayload 0 (Nat.le_refl 0)) hback
    exact ⟨p.world, result, hp ▸ Leads.refl p, World.Beside.refl _⟩
  | succ n ih =>
    obtain hstrict | hdepth := Nat.lt_or_ge k.depth p.control.depth
    · have hdeep : d < p.control.depth := Nat.lt_trans hd hstrict
      have hwithin := within_step hover hstrict (hpayload 0 (Nat.zero_le _)) fun action haction =>
        (hpolite.here hdeep action haction).1
      have hstep : p.Leads (Above k) p.step := .step ⟨hover, hwithin.stack⟩
      obtain ⟨w, result, hleads, hbeside⟩ := ih (hpolite.leads hstep fun h => h.depth hd)
        hwithin.stack (by rwa [← run_succ]) fun i hi => by
          rw [← run_succ]
          exact hpayload (i + 1) (Nat.succ_le_succ hi)
      exact ⟨w, result, hstep.trans hleads, hwithin.world.trans hbeside⟩
    · obtain ⟨result, hp⟩ := eq_deliver_of_over hover (hpayload 0 (Nat.zero_le _)) hdepth
      exact ⟨p.world, result, hp ▸ Leads.refl p, World.Beside.refl _⟩

end Process

namespace World

open Process

theorem leads_callBack {k : Pending .routine} {actions : List Action} (hd : d < k.depth)
    (hpolite : (w.callBack actions k).Throughout d Polite) :
    ∃ w₁ result, (w.callBack actions k).Leads (Above k) (w₁.deliver k result) ∧
      w.Beside w₁ := by
  cases actions with
  | nil => exact ⟨w, none, Leads.refl _, .refl w⟩
  | cons action rest =>
    have hdeep : d < (Pending.cons (.routine action rest none) k).depth := Nat.lt_succ_of_lt hd
    obtain ⟨_, n, hback, hpayload⟩ := hpolite.here hdeep action rfl
    exact leads_return hd hpolite over_callBack (Nat.le_of_lt_succ hback) hpayload

theorem leads_destroyCallback {k : Pending .done} {name : String} {onDrop : Option (List Action)}
    (hd : d < k.depth) (hpolite : (w.destroyCallback name onDrop k).Throughout d Polite) :
    ∃ w₁, (w.destroyCallback name onDrop k).Leads (Above k) (w₁.deliver k ()) ∧ w.Beside w₁ := by
  cases onDrop with
  | none => exact ⟨w, Leads.refl _, .refl w⟩
  | some actions =>
    obtain ⟨w₁, result, hleads, hbeside⟩ := leads_callBack (Nat.lt_succ_of_lt hd) hpolite
    have hlast : (w₁.deliver (.cons .unheeded k) result).Leads (Above k) (w₁.deliver k ()) := by
      have hstep : (w₁.deliver (.cons .unheeded k) result).step = w₁.deliver k () :=
        step_deliver w₁ result .unheeded k
      have habove : (w₁.deliver (.cons .unheeded k) result).Above k :=
        ⟨.cons trivial .refl, hstep ▸ .refl⟩
      exact hstep ▸ Leads.step habove
    exact ⟨w₁, (hleads.mono fun h => h.lower trivial).trans hlast,
      (aside_logged (T := fun _ => True) w rfl).beside.trans hbeside⟩

theorem leads_destroy {k : Pending .done} {task : Task} (hd : d < k.depth)
    (hpolite : (w.destroy task k).Throughout d Polite) :
    ∃ w₁, (w.destroy task k).Leads (Above k) (w₁.deliver k ()) ∧ w.Beside w₁ := by
  cases task with
  | idle t => exact leads_destroyCallback hd hpolite
  | timer t => exact leads_destroyCallback hd hpolite
  | script t =>
    refine ⟨_, Leads.refl _, ?_⟩
    split
    · exact .refl w
    · exact (aside_releaseScript (T := fun _ => True) w t fun _ => trivial).beside
  | watcher t =>
    obtain ⟨name, callback⟩ := t
    cases callback with
    | none => exact ⟨w, Leads.refl _, .refl w⟩
    | some callback => exact leads_destroyCallback hd hpolite

end World

end TaskLoop
