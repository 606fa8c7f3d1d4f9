import Mathlib
import TaskLoop.Proofs.Budgets
import TaskLoop.Proofs.CallChain

namespace TaskLoop

variable {a b : Hole} {w w₁ : World} {e i j t : Nat} {k : Pending .call} {call : MachineCall} {op : Op} {ps : List Nat}
  {p p' P : Process} {m m' : Machine}

def Op.bytes : Op → UInt64
  | .alloc bytes => bytes
  | _ => 0

def Process.bytes (p : Process) (e : Nat) : UInt64 :=
  match p.executes? with
  | some (e', _, op) => if e' = e then op.bytes else 0
  | none => 0

theorem saturatingAdd_zero (x : UInt64) : saturatingAdd x 0 = x := by
  unfold saturatingAdd
  rw [if_neg UInt64.not_lt_zero, UInt64.add_zero]

namespace Machine

/-- An instruction after which the machine goes on has charged what it asked for. -/
theorem allocated_of_execute {frames frames' : List CallFrame}
    (h : m.execute op frames = .next m' frames') :
    m'.allocated = saturatingAdd m.allocated op.bytes := by
  by_cases hop : ∃ bytes, op = .alloc bytes
  · obtain ⟨bytes, rfl⟩ := hop
    rw [execute, charge] at h
    split at h
    · cases h
    · cases h
      rfl
  · have hzero : op.bytes = 0 := by
      cases op with
      | alloc bytes => exact absurd ⟨bytes, rfl⟩ hop
      | _ => rfl
    have hall := frugal_execute (fun bytes heq => hop ⟨bytes, heq⟩) m frames
    rw [h] at hall
    rw [hzero, saturatingAdd_zero]
    exact hall.allocated

end Machine

namespace Process

theorem bytes_eq_zero (h : p.executes? = none) (e : Nat) : p.bytes e = 0 := by
  rw [bytes, h]

theorem bytes_eq {e' : Nat} (h : p.executes? = some (e', call, op)) (e : Nat) :
    p.bytes e = if e' = e then op.bytes else 0 := by
  rw [bytes, h]

theorem bytes_host {e' : Nat} {name : String} (h : p.executes? = some (e', call, .host name))
    (e : Nat) : p.bytes e = 0 := by
  rw [bytes_eq h]
  exact ite_self _

end Process

namespace Control

def openings (control : Control) : List (Nat × UInt64) :=
  control.calls.map fun (e, call) => (e, call.mark)

theorem openings_cons {control : Control} {cs : List (Nat × MachineCall)}
    (h : control.calls = (e, call) :: cs) :
    control.openings = (e, call.mark) :: cs.map fun (e, call) => (e, call.mark) := by
  rw [openings, h, List.map_cons]

end Control

namespace Process

/-- What becomes of the memory of the machines from one process to the next. A protected call begins and
marks what its machine has allocated, or one ends and that is what its machine has allocated again;
otherwise the machine of the innermost call may have been charged. -/
inductive Accrues (p p' : Process) : Prop
  | stays (openings : p'.control.openings = p.control.openings)
      (innermost : ∀ e, p.bytes e ≠ 0 → p.control.openings.head?.map Prod.fst = some e)
      (allocated : ∀ e m', p'.world.machine? e = some m' → ∃ m, p.world.machine? e = some m ∧
        m'.allocated = saturatingAdd m.allocated (p.bytes e))
  | begins {e : Nat} {m : Machine} (machine : p.world.machine? e = some m)
      (openings : p'.control.openings = (e, m.allocated) :: p.control.openings)
      (idle : ∀ e, p.bytes e = 0)
      (allocated : ∀ e m', p'.world.machine? e = some m' → ∃ m, p.world.machine? e = some m ∧
        m'.allocated = m.allocated)
  | ends {e : Nat} {mark : UInt64} (openings : p.control.openings = (e, mark) :: p'.control.openings)
      (allocated : ∀ e' m', p'.world.machine? e' = some m' → ∃ m, p.world.machine? e' = some m ∧
        m'.allocated = if e' = e then mark else m.allocated)
  | aborts (aborted : p'.control = .aborted)

theorem Idles.accrues (h : p'.Idles p.world p.control.calls ps) (hidle : ∀ e, p.bytes e = 0) :
    p.Accrues p' := by
  refine .stays (by rw [Control.openings, h.calls, Control.openings])
    (fun e hne => absurd (hidle e) hne) fun e m' hm' => ?_
  obtain ⟨m, hm, hfrugal⟩ := h.world.origin hm'
  exact ⟨m, hm, by rw [hidle, saturatingAdd_zero, hfrugal.allocated]⟩

theorem Embarks.accrues (h : p'.Embarks p.world p.control.calls ps) (hidle : ∀ e, p.bytes e = 0) :
    p.Accrues p' := by
  cases h with
  | idles idles => exact idles.accrues hidle
  | calls program handler world machine calls =>
    obtain ⟨m, hm, hfrugal⟩ := world.origin machine
    refine .begins hm ?_ hidle fun e m' hm' => ?_
    · rw [Control.openings_cons calls, hfrugal.allocated]
      rfl
    · obtain ⟨m, hm, hfrugal⟩ := world.origin hm'
      exact ⟨m, hm, hfrugal.allocated⟩

/-- A call that has come to its end has given back what it was charged. -/
theorem Works.accrues (h : p'.Works p.world e call k) (hcalls : p.control.calls = (e, call) :: k.calls)
    (hdepth : p'.control.depth = k.depth) : p.Accrues p' := by
  have hends : p.world.Discharges e call.mark p'.world → p'.control.calls = k.calls →
      p.Accrues p' := fun world calls => by
    have hopenings : p.control.openings = (e, call.mark) :: p'.control.openings := by
      rw [Control.openings_cons hcalls, Control.openings, calls]
    refine .ends hopenings fun e' m' hm' => ?_
    obtain ⟨m, hm, _, hallocated⟩ := world.origin hm'
    exact ⟨m, hm, hallocated⟩
  cases h with
  | goes own mark frames world upon calls =>
    exact absurd upon.depth_le (by rw [hdepth]; exact Nat.not_succ_le_self _)
  | returns world result control => exact hends world (by rw [control]; rfl)
  | unwinds world payload control => exact hends world (by rw [control]; rfl)

end Process

namespace Activation

theorem executes?_eq_none {f : Activation a b} (hf : f.call? = none) (w : World) :
    f.executes? w = none := by
  cases f with
  | machine | counted | host => cases hf
  | _ => rfl

/-- A call that goes on has charged its machine with what the instruction asked for, if there was
one. -/
theorem Advances.allocated {f : Activation a .call} (h : f.Advances w k P)
    (hdeep : k.depth < P.control.depth) (hp : p.executes? = f.executes? w)
    (hm' : P.world.machine? e = some m') :
    ∃ m, w.machine? e = some m ∧ m'.allocated = saturatingAdd m.allocated (p.bytes e) := by
  have hsame : p.bytes e = 0 → w.Frugal P.world →
      ∃ m, w.machine? e = some m ∧ m'.allocated = saturatingAdd m.allocated (p.bytes e) := by
    intro hzero hworld
    obtain ⟨m, hm, hfrugal⟩ := hworld.origin hm'
    exact ⟨m, hm, by rw [hzero, saturatingAdd_zero, hfrugal.allocated]⟩
  cases h with
  | ends => exact absurd hdeep (Nat.lt_irrefl _)
  | hook due _ world =>
    exact hsame (Process.bytes_eq_zero (hp.trans due) e)
      (world.frugal.trans (World.frugal_of_eq (World.machine?_fireHook _ _ _ _ _)))
  | returned => exact hsame (Process.bytes_host hp e) (.refl w)
  | failed => exact absurd hdeep (Nat.lt_irrefl _)
  | @performs _ f w₁ e' call op P executes next world log outcome =>
    rw [executes] at hp
    cases outcome with
    | @next m₁ m₂ frames machine effect =>
      rw [Process.bytes_eq hp]
      by_cases he : e' = e
      · subst he
        rw [World.deliver, World.machine?_setMachine machine] at hm'
        cases hm'
        obtain ⟨m, hm, hfrugal⟩ := world.frugal.origin machine
        refine ⟨m, hm, ?_⟩
        rw [if_pos rfl, Machine.allocated_of_execute effect, hfrugal.allocated]
      · rw [World.deliver, World.setMachine, World.machine?_modifyEngine fun E =>
          E.machine?_setMachine m₂, if_neg he] at hm'
        obtain ⟨m, hm, hfrugal⟩ := world.frugal.origin hm'
        exact ⟨m, hm, by rw [if_neg he, saturatingAdd_zero, hfrugal.allocated]⟩
    | enters host machines =>
      subst host
      rw [World.world_callBack] at hsame hm'
      exact hsame (Process.bytes_host hp e) (world.frugal.trans (World.frugal_of_eq machines))
    | passes host =>
      subst host
      exact hsame (Process.bytes_host hp e) (world.frugal.trans (World.frugal_logged _ _))
    | stop | unknown =>
      rw [World.depth_failMachine] at hdeep
      exact absurd hdeep (Nat.lt_irrefl _)
    | absent => exact absurd hdeep (Nat.lt_irrefl _)

end Activation

namespace Process

theorem engine_of_bytes {f : Activation a b} {e' : Nat} (own : f.call? = some (e, call))
    (hp : p.executes? = f.executes? w) (hne : p.bytes e' ≠ 0) : e' = e := by
  cases hf : f.executes? w with
  | none => exact absurd (bytes_eq_zero (hp.trans hf) e') hne
  | some executed =>
    obtain ⟨e₁, call₁, op₁⟩ := executed
    rw [bytes_eq (hp.trans hf)] at hne
    by_cases he : e₁ = e'
    · rw [← he]
      exact (Activation.call_of_executes? own hf).1
    · exact absurd (if_neg he) hne

theorem accrues_resume {f : Activation a .call} (own : f.call? = some (e, call)) (result : a.Result)
    (w : World) (k : Pending .call) :
    Accrues ⟨w, .deliver result (.cons f k)⟩ (f.resume result w k) := by
  have hcalls : (Control.deliver result (.cons f k)).calls = (e, call) :: k.calls := by
    rw [Control.calls, Pending.calls, own]
    rfl
  have hexecutes := executes?_deliver w result f k
  have hworks := f.works_resume own result w k
  cases hworks with
  | returns world result' control =>
    exact (Works.returns world result' control).accrues hcalls (by rw [control]; rfl)
  | unwinds world payload control =>
    exact (Works.unwinds world payload control).accrues hcalls (by rw [control]; rfl)
  | goes own' mark frames world upon calls =>
    refine .stays ?_ (fun e' hne => ?_) fun e' m' hm' => ?_
    · rw [Control.openings_cons calls, Control.openings_cons hcalls, mark]
    · rw [Control.openings_cons hcalls, engine_of_bytes own hexecutes hne]
      rfl
    · exact (f.advances_resume own result w k).allocated
        (Nat.lt_of_lt_of_le (Nat.lt_succ_self _) upon.depth_le) hexecutes hm'

theorem accrues_deliver (w : World) (f : Activation a b) (result : a.Result) (k : Pending b) :
    Accrues ⟨w, .deliver result (.cons f k)⟩ (f.resume result w k) := by
  cases hf : f.call? with
  | none =>
    have hexecutes := (executes?_deliver w result f k).trans (f.executes?_eq_none hf w)
    have hembarks := f.embarks_resume hf result w k
    rw [← Pending.calls_cons hf] at hembarks
    exact hembarks.accrues (bytes_eq_zero hexecutes)
  | some own =>
    cases f with
    | machine | counted | host => exact accrues_resume rfl result w k
    | _ => cases hf

theorem accrues_unwind (w : World) (f : Activation a b) (payload : Payload) (k : Pending b) :
    Accrues ⟨w, .unwind payload (.cons f k)⟩ (f.unwind payload w k) := by
  cases hf : f.call? with
  | none =>
    obtain hidles | haborted := f.idles_unwind hf payload w k
    · rw [← Pending.calls_cons hf] at hidles
      exact hidles.accrues (bytes_eq_zero rfl)
    · exact .aborts (by rw [haborted])
  | some own =>
    cases f with
    | machine | counted | host => exact (Activation.works_unwind rfl payload w k).accrues rfl rfl
    | _ => cases hf

theorem accrues_step (p : Process) : p.Accrues p.step := by
  have hsame : p.executes? = none → p.step.world = p.world →
      p.step.control.calls = p.control.calls → p.Accrues p.step := fun hnone hworld hcalls =>
    Idles.accrues ⟨by rw [hworld]; exact .refl _, hcalls, .of_eq rfl⟩ (bytes_eq_zero hnone)
  obtain ⟨w, control⟩ := p
  cases control with
  | perform action k => exact (w.embarks_perform action k).accrues (bytes_eq_zero rfl)
  | deliver result k =>
    cases k with
    | outermost => exact hsame rfl rfl rfl
    | cons f k =>
      rw [step_deliver]
      exact accrues_deliver w f result k
  | unwind payload k =>
    cases k with
    | outermost => exact hsame rfl rfl rfl
    | cons f k =>
      rw [step_unwind]
      exact accrues_unwind w f payload k
  | answered | escaped | aborted => exact hsame rfl rfl rfl

theorem accrues_begin (hended : p.control.ended = true) (command : Command) :
    p.Accrues (p.world.begin command) := by
  have hbefore : p.control.calls = [] ∧ p.executes? = none := by
    obtain ⟨w, control⟩ := p
    cases control with
    | answered | escaped => exact ⟨rfl, rfl⟩
    | perform | deliver | unwind | aborted => cases hended
  refine Idles.accrues ⟨World.frugal_of_eq (p.world.machine?_begin command), ?_, .of_eq rfl⟩
    (bytes_eq_zero hbefore.2)
  rw [World.calls_begin, hbefore.1]

end Process

namespace Course

variable {s : Course}

theorem accrues (s : Course) (i : Nat) : (s i).Accrues (s (i + 1)) := by
  obtain hstep | ⟨hended, command, hbegin⟩ := s.step_or_begin i
  · rw [hstep]
    exact (s i).accrues_step
  · rw [hbegin]
    exact Process.accrues_begin hended command

def height (s : Course) (i : Nat) : Nat := (s i).control.openings.length

def Lasts (s : Course) (j i : Nat) : Prop := ∀ l ≤ i, j ≤ l → s.height j ≤ s.height l

instance (s : Course) (j i : Nat) : Decidable (s.Lasts j i) :=
  inferInstanceAs (Decidable (∀ l ≤ i, j ≤ l → s.height j ≤ s.height l))

/-- The sum of what has been asked of a machine in the protected calls that are still in progress, as far
as these were so many at that time. -/
def reservedWithin (s : Course) (i e t : Nat) : Nat :=
  (((List.range i).filter fun j => s.Lasts j i ∧ s.height j ≤ t).map fun j => ((s j).bytes e).toNat).sum

def reserved (s : Course) (i e : Nat) : Nat :=
  (((List.range i).filter fun j => s.Lasts j i).map fun j => ((s j).bytes e).toNat).sum

theorem Lasts.height_le (h : s.Lasts j i) (hji : j ≤ i) : s.height j ≤ s.height i :=
  h i (Nat.le_refl i) hji

theorem lasts_succ (hji : j ≤ i) : s.Lasts j (i + 1) ↔ s.Lasts j i ∧ s.height j ≤ s.height (i + 1) := by
  constructor
  · intro h
    exact ⟨fun l hl => h l (Nat.le_succ_of_le hl), h.height_le (Nat.le_succ_of_le hji)⟩
  · rintro ⟨h, hlast⟩ l hl hjl
    obtain rfl | hlt := Nat.eq_or_lt_of_le hl
    · exact hlast
    · exact h l (Nat.le_of_lt_succ hlt) hjl

theorem lasts_self (s : Course) (i : Nat) : s.Lasts i i := by
  intro l hl hil
  rw [Nat.le_antisymm hl hil]

/-- What has been asked for in calls that are no longer in progress does not count any more. -/
theorem reservedWithin_succ (s : Course) (i e t : Nat) :
    s.reservedWithin (i + 1) e t = s.reservedWithin i e (min t (s.height (i + 1))) +
      if s.height i ≤ min t (s.height (i + 1)) then ((s i).bytes e).toNat else 0 := by
  have hfilter : (List.range i).filter (fun j => s.Lasts j (i + 1) ∧ s.height j ≤ t) =
      (List.range i).filter fun j => s.Lasts j i ∧ s.height j ≤ min t (s.height (i + 1)) := by
    refine List.filter_congr fun j hj => ?_
    have hji := List.mem_range.1 hj
    simp only [lasts_succ (Nat.le_of_lt hji), Nat.le_min, decide_eq_decide]
    tauto
  have hlast : (s.Lasts i (i + 1) ∧ s.height i ≤ t) ↔ s.height i ≤ min t (s.height (i + 1)) := by
    rw [lasts_succ (Nat.le_refl i), Nat.le_min]
    exact ⟨fun h => ⟨h.2, h.1.2⟩, fun h => ⟨⟨s.lasts_self i, h.2⟩, h.1⟩⟩
  rw [reservedWithin, List.range_succ, List.filter_append, hfilter, List.map_append, List.sum_append,
    reservedWithin]
  congr 1
  simp only [List.filter_cons, List.filter_nil, hlast]
  split <;> simp_all

theorem reserved_eq (h : s.height i ≤ t) : s.reservedWithin i e t = s.reserved i e := by
  rw [reservedWithin, reserved]
  congr 2
  refine List.filter_congr fun j hj => ?_
  have hji := Nat.le_of_lt (List.mem_range.1 hj)
  simp only [decide_eq_decide, and_iff_left_iff_imp]
  exact fun hlasts => Nat.le_trans (hlasts.height_le hji) h

/-- Each protected call has marked what was reserved in the calls around it, and what is asked for in it
is asked of its own machine. `R` says how much is reserved of a machine within so many calls. -/
def Tallied (R : Nat → Nat → Nat) : List (Nat × UInt64) → Prop
  | [] => True
  | (e, mark) :: rest => mark.toNat = min (R e rest.length) maxWord.toNat ∧
      (∀ e', e' ≠ e → R e' (rest.length + 1) = R e' rest.length) ∧ Tallied R rest

theorem Tallied.congr {R R' : Nat → Nat → Nat} {openings : List (Nat × UInt64)}
    (h : Tallied R openings) (hR : ∀ e t, t ≤ openings.length → R' e t = R e t) :
    Tallied R' openings := by
  induction openings with
  | nil => trivial
  | cons opening rest ih =>
    obtain ⟨e, mark⟩ := opening
    obtain ⟨hmark, hothers, hrest⟩ := h
    have hlength : ((e, mark) :: rest).length = rest.length + 1 := rfl
    refine ⟨?_, fun e' he' => ?_, ih hrest fun e' t ht => hR e' t (by omega)⟩
    · rw [hR e _ (by omega), hmark]
    · rw [hR e' _ (by omega), hR e' _ (by omega), hothers e' he']

structure Exact (s : Course) (i : Nat) : Prop where
  allocated : ∀ e m, (s i).world.machine? e = some m →
    m.allocated.toNat = min (s.reservedWithin i e (s.height i)) maxWord.toNat
  tallied : Tallied (s.reservedWithin i) (s i).control.openings

theorem Exact.stays (h : s.Exact i) (openings : (s (i + 1)).control.openings = (s i).control.openings)
    (innermost : ∀ e, (s i).bytes e ≠ 0 → (s i).control.openings.head?.map Prod.fst = some e)
    (allocated : ∀ e m', (s (i + 1)).world.machine? e = some m' → ∃ m,
      (s i).world.machine? e = some m ∧ m'.allocated = saturatingAdd m.allocated ((s i).bytes e)) :
    s.Exact (i + 1) := by
  have hheight : s.height (i + 1) = s.height i := by rw [height, openings, height]
  have hsum : ∀ e t, t ≤ s.height i → s.reservedWithin (i + 1) e t = s.reservedWithin i e t +
      if t = s.height i then ((s i).bytes e).toNat else 0 := fun e t ht => by
    rw [reservedWithin_succ, hheight, Nat.min_eq_left ht]
    congr 1
    exact if_congr ⟨fun h => Nat.le_antisymm ht h, fun h => h ▸ Nat.le_refl _⟩ rfl rfl
  refine ⟨fun e m' hm' => ?_, ?_⟩
  · obtain ⟨m, hm, hallocated⟩ := allocated e m' hm'
    have hbefore := h.allocated e m hm
    rw [hallocated, saturatingAdd_toNat, hbefore, hheight, hsum e _ (Nat.le_refl _), if_pos rfl]
    omega
  · have htallied := h.tallied
    rw [openings]
    have hlength : (s i).control.openings.length = s.height i := rfl
    generalize (s i).control.openings = list at innermost htallied hlength ⊢
    cases list with
    | nil => trivial
    | cons opening rest =>
      obtain ⟨e, mark⟩ := opening
      obtain ⟨hmark, hothers, hrest⟩ := htallied
      have hbelow : ∀ e' t, t ≤ rest.length →
          s.reservedWithin (i + 1) e' t = s.reservedWithin i e' t := fun e' t ht => by
        have hlt : t < s.height i := by rw [← hlength]; exact Nat.lt_succ_of_le ht
        rw [hsum e' t (Nat.le_of_lt hlt), if_neg (Nat.ne_of_lt hlt), Nat.add_zero]
      refine ⟨?_, fun e' he' => ?_, hrest.congr hbelow⟩
      · rw [hbelow e _ (Nat.le_refl _)]
        exact hmark
      · have hzero : (s i).bytes e' = 0 := by
          by_contra hne
          exact he' (Option.some.inj (innermost e' hne)).symm
        have htop := hsum e' (rest.length + 1) (Nat.le_of_eq hlength)
        rw [hzero] at htop
        rw [htop, hbelow e' _ (Nat.le_refl _), ← hothers e' he']
        split <;> rfl

theorem Exact.begins (h : s.Exact i) {e : Nat} {m : Machine} (hm : (s i).world.machine? e = some m)
    (openings : (s (i + 1)).control.openings = (e, m.allocated) :: (s i).control.openings)
    (idle : ∀ e, (s i).bytes e = 0)
    (allocated : ∀ e m', (s (i + 1)).world.machine? e = some m' → ∃ m,
      (s i).world.machine? e = some m ∧ m'.allocated = m.allocated) : s.Exact (i + 1) := by
  have hheight : s.height (i + 1) = s.height i + 1 := by rw [height, openings, height]; rfl
  have hsum : ∀ e t, t ≤ s.height i + 1 →
      s.reservedWithin (i + 1) e t = s.reservedWithin i e t := fun e t ht => by
    rw [reservedWithin_succ, hheight, Nat.min_eq_left ht, idle e]
    split <;> rfl
  have htop : ∀ e, s.reservedWithin i e (s.height i + 1) = s.reservedWithin i e (s.height i) :=
    fun e => (reserved_eq (Nat.le_succ _)).trans (reserved_eq (Nat.le_refl _)).symm
  refine ⟨fun e' m' hm' => ?_, ?_⟩
  · obtain ⟨m₁, hm₁, hallocated⟩ := allocated e' m' hm'
    rw [hallocated, h.allocated e' m₁ hm₁, hheight, hsum e' _ (Nat.le_refl _), htop]
  · rw [openings]
    refine ⟨?_, fun e' _ => ?_, h.tallied.congr fun e' t ht => hsum e' t (Nat.le_succ_of_le ht)⟩
    · exact (h.allocated e m hm).trans (congrArg (min · _) (hsum e _ (Nat.le_succ _)).symm)
    · exact (hsum e' _ (Nat.le_refl _)).trans ((htop e').trans (hsum e' _ (Nat.le_succ _)).symm)

theorem Exact.ends (h : s.Exact i) {e : Nat} {mark : UInt64}
    (openings : (s i).control.openings = (e, mark) :: (s (i + 1)).control.openings)
    (allocated : ∀ e' m', (s (i + 1)).world.machine? e' = some m' → ∃ m,
      (s i).world.machine? e' = some m ∧ m'.allocated = if e' = e then mark else m.allocated) :
    s.Exact (i + 1) := by
  have hheight : s.height i = s.height (i + 1) + 1 := by rw [height, openings]; rfl
  have hsum : ∀ e t, t ≤ s.height (i + 1) →
      s.reservedWithin (i + 1) e t = s.reservedWithin i e t := fun e t ht => by
    rw [reservedWithin_succ, Nat.min_eq_left ht, if_neg (by omega), Nat.add_zero]
  have htallied := h.tallied
  rw [openings] at htallied
  obtain ⟨hmark, hothers, hrest⟩ := htallied
  refine ⟨fun e' m' hm' => ?_, hrest.congr hsum⟩
  obtain ⟨m, hm, hallocated⟩ := allocated e' m' hm'
  rw [hallocated, hsum e' _ (Nat.le_refl _)]
  split
  · next he =>
    rw [he]
    exact hmark
  · next he =>
    rw [h.allocated e' m hm, hheight]
    exact congrArg (min · _) (hothers e' he)

/-- At every moment of a session the numbers are what the sums say, unless everything is over. -/
theorem exact (s : Course) (i : Nat) (hlive : (s i).control ≠ .aborted) : s.Exact i := by
  induction i with
  | zero =>
    obtain ⟨start, queues, engines, hfresh⟩ := s.starts
    have hzero : s 0 = Process.fresh start queues engines := hfresh
    refine ⟨fun e m hm => ?_, ?_⟩
    · rw [hzero] at hm
      obtain ⟨limits, rfl⟩ := World.machine?_make hm
      rfl
    · rw [hzero]
      trivial
  | succ i ih =>
    have hbefore : s.Exact i := ih fun haborted => hlive (by
      rw [succ_eq_step (by rw [haborted]; rfl),
        Process.step_of_isOver (by rw [Process.isOver, haborted]), haborted])
    cases s.accrues i with
    | stays openings innermost allocated => exact hbefore.stays openings innermost allocated
    | begins machine openings idle allocated => exact hbefore.begins machine openings idle allocated
    | ends openings allocated => exact hbefore.ends openings allocated
    | aborts aborted => exact absurd aborted hlive

end Course

theorem Process.exists_of_executes? (h : p.executes? = some (e, call, op)) :
    ∃ (a : Hole) (f : Activation a .call) (result : a.Result) (k : Pending .call) (found : MachineCall),
      p = p.world.deliver (.cons f k) result ∧ f.call? = some (e, found) ∧
      f.executes? p.world = some (e, call, op) := by
  obtain ⟨w, control⟩ := p
  cases control with
  | deliver result k =>
    cases k with
    | outermost => cases h
    | cons f k =>
      rw [executes?_deliver] at h
      cases f with
      | machine e' found =>
        obtain ⟨rfl, _⟩ := Activation.call_of_executes? (f := .machine e' found) rfl h
        exact ⟨_, _, result, k, found, rfl, rfl, h⟩
      | counted e' found op' =>
        cases h
        exact ⟨_, _, result, k, _, rfl, rfl, rfl⟩
      | host e' found name turn =>
        cases h
        exact ⟨_, _, result, k, _, rfl, rfl, rfl⟩
      | _ => cases h
  | _ => cases h

/-- An instruction that reserves memory ends the call, or the call goes on behind it. -/
theorem Activation.Advances.alloc {f : Activation a .call} {n : UInt64} (h : f.Advances w k P)
    (hexecutes : f.executes? w = some (e, call, .alloc n)) (hm : w.machine? e = some m) :
    (m.limits.memory < saturatingAdd m.allocated n ∧
      ∃ w' : World, P = w'.deliver k (.error .memory)) ∨
    (¬ m.limits.memory < saturatingAdd m.allocated n ∧
      ∃ w' : World, P = w'.deliver (.cons (.machine e call) k) ()) := by
  cases h with
  | ends ended =>
    rw [executes?, ended] at hexecutes
    split at hexecutes <;> cases hexecutes
  | hook due => cases due.symm.trans hexecutes
  | returned => cases hexecutes
  | failed => cases hexecutes
  | performs executes next world log outcome =>
    cases executes.symm.trans hexecutes
    have hrel := world.frugal e
    rw [hm] at hrel
    cases outcome with
    | next machine effect =>
      rw [machine] at hrel
      cases hrel with
      | some hfrugal =>
        rw [Machine.execute, Machine.charge, hfrugal.limits, hfrugal.allocated] at effect
        split at effect
        · cases effect
        · next hroom =>
          cases effect
          exact .inr ⟨hroom, _, rfl⟩
    | stop machine effect =>
      rw [machine] at hrel
      cases hrel with
      | some hfrugal =>
        rw [Machine.execute, Machine.charge, hfrugal.limits, hfrugal.allocated] at effect
        split at effect
        · next hfull =>
          cases effect
          exact .inl ⟨hfull, _, rfl⟩
        · cases effect
    | enters host => cases host
    | passes host => cases host
    | unknown host => cases host
    | absent machine =>
      rw [machine] at hrel
      cases hrel

namespace Course

variable {s : Course}

/-- An instruction that asks for memory ends its protected call with an error if and only if what it asks
for, together with all that has been asked of the machine before in this call and in those around it,
exceeds the limit of memory, and that is not the largest word. Otherwise the call goes on. The sums are
exact, however large they are. -/
theorem alloc_exceeds_iff (s : Course) {m₀ : Machine} {n : UInt64}
    (hm₀ : (s 0).world.machine? e = some m₀) (hexecutes : (s i).executes? = some (e, call, .alloc n)) :
    ∃ k : Pending .call, (s i).control.Upon k ∧ (s i).control.depth = k.depth + 1 ∧
      ((∃ w : World, s (i + 1) = w.deliver k (.error .memory)) ↔
        m₀.limits.memory.toNat < n.toNat + s.reserved i e ∧ m₀.limits.memory ≠ maxWord) ∧
      ((¬ ∃ w : World, s (i + 1) = w.deliver k (.error .memory)) →
        ∃ w : World, s (i + 1) = w.deliver (.cons (.machine e call) k) ()) := by
  obtain ⟨a, f, result, k, found, hp, own, hf⟩ := Process.exists_of_executes? hexecutes
  have hcontrol : (s i).control = .deliver result (.cons f k) := by rw [hp]; rfl
  have hlimits := (s.budgeted i).limits e
  rw [hm₀] at hlimits
  obtain ⟨m, hm, hsame : m.limits = m₀.limits⟩ := Option.map_eq_some_iff.1 hlimits
  have hallocated := (s.exact i (by rw [hcontrol]; exact Control.noConfusion)).allocated e m hm
  rw [reserved_eq (Nat.le_refl _)] at hallocated
  -- the number of the machine stops at the largest word, and so does its sum with what is asked for
  have hexceeds : m.limits.memory < saturatingAdd m.allocated n ↔
      m₀.limits.memory.toNat < n.toNat + s.reserved i e ∧ m₀.limits.memory ≠ maxWord := by
    have hle : m₀.limits.memory.toNat ≤ maxWord.toNat := by
      have hlt := m₀.limits.memory.toNat_lt
      have hmax : maxWord.toNat = 2 ^ 64 - 1 := rfl
      omega
    rw [hsame, UInt64.lt_iff_toNat_lt, saturatingAdd_toNat, hallocated, ne_eq, ← UInt64.toNat_inj]
    omega
  have hstep : s (i + 1) = f.resume result (s i).world k := by
    rw [succ_eq_step (by rw [hcontrol]; rfl), hp, World.deliver, Process.step_deliver]
  have hadvances := f.advances_resume own result (s i).world k
  rw [← hstep] at hadvances
  refine ⟨k, ?_, ?_, ?_⟩
  · rw [hcontrol]
    exact .cons f .refl
  · rw [hcontrol]
    rfl
  · rw [← hexceeds]
    obtain ⟨hfull, hends⟩ | ⟨hroom, hgoes⟩ := hadvances.alloc hf hm
    · exact ⟨⟨fun _ => hfull, fun _ => hends⟩, fun hnot => absurd hends hnot⟩
    · refine ⟨⟨fun hends => ?_, fun hfull => absurd hfull hroom⟩, fun _ => hgoes⟩
      obtain ⟨w, hends⟩ := hends
      obtain ⟨w', hgoes⟩ := hgoes
      cases hends.symm.trans hgoes

/-- A machine with a limit one below the largest word. A program reserves all of it and calls a host
function, which calls another program. That one asks for as much as a word can say and fails; the first one
goes on and asks for nothing more. -/
def crowded : Course :=
  .ofCommands [] [.machine { memory := maxWord - 1 }] [
    .act (.engine 0 (.host "h" [⟨[.engine 0 (.call 1 .traceback)], none, false⟩])),
    .act (.engine 0 (.load "a" "alloc 18446744073709551614\nhost h\nalloc 0".toUTF8.data.toList)),
    .act (.engine 0 .reference),
    .act (.engine 0 (.load "b" "alloc 18446744073709551615".toUTF8.data.toList)),
    .act (.engine 0 .reference), .act (.engine 0 (.call 0 .traceback))]

theorem alloc_exceeds_iff_crowded :
    ((crowded 20).executes?.map fun (e, _, op) => (e, op)) = some (0, .alloc maxWord) ∧
    crowded.reserved 20 0 = 18446744073709551614 ∧
    (∃ (w : World) (k : Pending .call), (crowded 20).control.Upon k ∧
      crowded 21 = w.deliver k (.error .memory)) ∧
    ((crowded 24).executes?.map fun (e, _, op) => (e, op)) = some (0, .alloc 0) ∧
    crowded.reserved 24 0 = 18446744073709551614 ∧
    ∃ (w : World) (k : Pending .call) (call : MachineCall),
      crowded 25 = w.deliver (.cons (.machine 0 call) k) () := by
  have hm₀ : (crowded 0).world.machine? 0 = some { limits := { memory := maxWord - 1 } } := rfl
  have hinner : ((crowded 20).executes?.map fun (e, _, op) => (e, op)) = some (0, .alloc maxWord) := by
    decide +kernel
  have houter : ((crowded 24).executes?.map fun (e, _, op) => (e, op)) = some (0, .alloc 0) := by
    decide +kernel
  have hreserved : crowded.reserved 20 0 = 18446744073709551614 := by decide +kernel
  have hkept : crowded.reserved 24 0 = 18446744073709551614 := by decide +kernel
  obtain ⟨⟨e, call, op⟩, hexecutes, heq⟩ := Option.map_eq_some_iff.1 hinner
  cases heq
  obtain ⟨⟨e', call', op'⟩, hexecutes', heq'⟩ := Option.map_eq_some_iff.1 houter
  cases heq'
  obtain ⟨k, hupon, _, hends, _⟩ := alloc_exceeds_iff crowded hm₀ hexecutes
  obtain ⟨k', _, _, hends', hgoes'⟩ := alloc_exceeds_iff crowded hm₀ hexecutes'
  rw [hreserved] at hends
  rw [hkept] at hends'
  obtain ⟨w, hnext⟩ := hends.2 (by decide)
  obtain ⟨w', hnext'⟩ := hgoes' fun h => absurd (hends'.1 h) (by decide)
  exact ⟨hinner, hreserved, ⟨w, k, hupon, hnext⟩, houter, hkept, w', k', call', hnext'⟩

def unlimited : Course :=
  .ofCommands [] [.machine { memory := maxWord }] [
    .act (.engine 0 (.load "a" "alloc 18446744073709551615\nalloc 1".toUTF8.data.toList)),
    .act (.engine 0 .reference), .act (.engine 0 (.call 0 .traceback))]

/-- No number of a machine exceeds the largest word, so that such a limit is none. -/
theorem alloc_exceeds_unlimited :
    ((unlimited 0).world.machine? 0).map (·.limits.memory) = some maxWord ∧
    ((unlimited 9).executes?.map fun (e, _, op) => (e, op)) = some (0, .alloc 1) ∧
    maxWord.toNat < (1 : UInt64).toNat + unlimited.reserved 9 0 ∧
    ∀ (w : World) (k : Pending .call), unlimited 10 ≠ w.deliver k (.error .memory) := by
  refine ⟨rfl, by decide +kernel, by decide +kernel, fun w k hends => ?_⟩
  have hstatus : (unlimited 10).control.status? = none := by decide +kernel
  rw [hends] at hstatus
  cases hstatus

end Course

end TaskLoop
