import Mathlib
import TaskLoop.Proofs.Budgets
import TaskLoop.Proofs.CallChain
import TaskLoop.Proofs.StopRequests

namespace TaskLoop

variable {a : Hole} {w w₁ : World} {e key n depth : Nat} {k : Pending .call} {call : MachineCall}
  {op : Op} {p : Program} {handler : Handler} {P : Process} {frames fs : List CallFrame}

def Op.target? : Op → Option Nat
  | .jump target | .jumpz target => some target
  | _ => none

namespace Program

def Forward (p : Program) : Prop :=
  ∀ code ∈ p.functions.toList, ∀ i < code.code.size, ∀ target ∈ code.code[i]? >>= Op.target?, i < target

instance (p : Program) : Decidable p.Forward :=
  inferInstanceAs (Decidable (∀ code ∈ p.functions.toList, ∀ i < code.code.size, _))

theorem Forward.lt (h : p.Forward) {function i target : Nat} (hop : p.op? function i = some op)
    (htarget : op.target? = some target) : i < target := by
  obtain ⟨code, hcode, hget⟩ := op?_eq_some.1 hop
  refine h code (Array.mem_toList_iff.2 (Array.mem_of_getElem? hcode)) i
    (Array.getElem?_eq_some_iff.1 hget).1 target ?_
  rw [hget]
  exact htarget

def size (p : Program) : Nat := (p.functions.toList.map (·.code.size)).sum

def left (p : Program) (f : CallFrame) : Nat :=
  (p.functions[f.function]?.map (·.code.size)).getD 0 - f.pc

/-- What is left in the frames of a call, if so many calls may be nested. -/
def weight (p : Program) (depth : Nat) : List CallFrame → Nat
  | [] => 0
  | f :: fs => p.left f * (p.size + 1) ^ (depth - (fs.length + 1)) + p.weight depth fs

def burden (p : Program) (depth : Nat) (frames : List CallFrame) : Nat :=
  p.weight depth frames + (p.size + 1) ^ (depth - frames.length)

theorem left_le_size (p : Program) (f : CallFrame) : p.left f ≤ p.size := by
  unfold left
  cases hcode : p.functions[f.function]? with
  | none => simp
  | some code =>
    have hmem : code.code.size ∈ p.functions.toList.map (·.code.size) :=
      List.mem_map_of_mem (Array.mem_toList_iff.2 (Array.mem_of_getElem? hcode))
    exact Nat.le_trans (Nat.sub_le ..) (List.le_sum_of_mem hmem)

theorem left_of_op? {function i : Nat} (hop : p.op? function i = some op) :
    p.left ⟨function, i⟩ = p.left ⟨function, i + 1⟩ + 1 := by
  obtain ⟨code, hcode, hget⟩ := op?_eq_some.1 hop
  have hlt := (Array.getElem?_eq_some_iff.1 hget).1
  simp only [left, hcode, Option.map_some, Option.getD_some]
  omega

theorem left_mono (p : Program) {function i j : Nat} (h : i ≤ j) :
    p.left ⟨function, j⟩ ≤ p.left ⟨function, i⟩ := Nat.sub_le_sub_left h _

theorem pow_pos (p : Program) (i : Nat) : 0 < (p.size + 1) ^ i := Nat.pow_pos (Nat.succ_pos _)

/-- The instruction that is reached next is taken off what is left. -/
theorem burden_fetch (depth : Nat) (h : p.fetch frames = some (op, fs)) :
    p.burden depth fs ≤ p.weight depth frames := by
  induction frames with
  | nil => cases h
  | cons f rest ih =>
    rw [Program.fetch] at h
    split at h
    · next op' hop =>
      cases h
      have hleft : p.left f = p.left ⟨f.function, f.pc + 1⟩ + 1 := left_of_op? hop
      rw [burden, weight, weight, hleft, List.length_cons, Nat.add_mul]
      omega
    · rw [weight]
      exact Nat.le_trans (ih h) (Nat.le_add_left ..)

theorem weight_lt_burden (p : Program) (depth : Nat) (frames : List CallFrame) :
    p.weight depth frames < p.burden depth frames :=
  Nat.lt_add_of_pos_right (p.pow_pos _)

/-- A jump forward leaves no more than there was. -/
theorem Chain.weight_jumpTo (h : p.Chain op frames) (hforward : p.Forward) {target : Nat}
    (hop : op = .jump target ∨ op = .jumpz target) :
    p.weight depth (TaskLoop.jumpTo target frames) ≤ p.weight depth frames := by
  obtain ⟨function, i, fs, rfl, hget⟩ := h.innermost
  have hlt : i < target := hforward.lt hget (by
    obtain rfl | rfl := hop
    · rfl
    · rfl)
  exact Nat.add_le_add_right (Nat.mul_le_mul_right _ (p.left_mono hlt)) _

/-- What a called function brings in weighs less than the call. -/
theorem weight_call (p : Program) {function : Nat} (hroom : frames.length < depth) :
    p.weight depth (⟨function, 0⟩ :: frames) < p.burden depth frames := by
  have hpow : (p.size + 1) ^ (depth - frames.length) =
      (p.size + 1) * (p.size + 1) ^ (depth - (frames.length + 1)) := by
    rw [← pow_succ']
    congr 1
    omega
  have hlt : p.left ⟨function, 0⟩ * (p.size + 1) ^ (depth - (frames.length + 1)) <
      (p.size + 1) * (p.size + 1) ^ (depth - (frames.length + 1)) :=
    Nat.mul_lt_mul_of_pos_right (Nat.lt_succ_of_le (p.left_le_size _)) (p.pow_pos _)
  rw [weight, burden, hpow]
  omega

theorem weight_tail (p : Program) (depth : Nat) (frames : List CallFrame) :
    p.weight depth frames.tail ≤ p.weight depth frames := by
  cases frames with
  | nil => exact Nat.le_refl _
  | cons f fs => exact Nat.le_add_left ..

/-- An instruction leaves less than there was while it was executed. -/
theorem Chain.weight_execute {m m' : Machine} (h : p.Chain op frames) (hforward : p.Forward)
    (hdepth : m.limits.callDepth.toNat = depth) (hnext : m.execute op frames = .next m' fs) :
    p.weight depth fs < p.burden depth frames := by
  have hlength := Machine.length_execute hnext
  obtain rfl | ⟨target, hop, rfl⟩ | ⟨function, rfl, rfl⟩ | ⟨_, rfl⟩ := Machine.frames_of_execute hnext
  · exact p.weight_lt_burden depth _
  · exact Nat.lt_of_le_of_lt (h.weight_jumpTo hforward hop) (p.weight_lt_burden depth _)
  · refine p.weight_call ?_
    rw [List.length_cons, hdepth] at hlength
    omega
  · exact Nat.lt_of_le_of_lt (p.weight_tail depth _) (p.weight_lt_burden depth _)

end Program

namespace Activation

/-- The measure of a call in progress. Three activations of it may come one after the other at one
instruction: before the hook, after it, and in a host function. -/
def rank (p : Program) (depth : Nat) : Activation a .call → Nat
  | .machine _ call => 3 * p.weight depth call.frames + 2
  | .counted _ call _ => 3 * p.burden depth call.frames + 1
  | .host _ call _ _ => 3 * p.burden depth call.frames
  | _ => 0

variable {f : Activation a .call}

theorem Serves.burden_lt (h : f.Serves e p handler) (hexecutes : f.executes? w = some (e, call, op))
    (hnext : f.op? = some op) (depth : Nat) : 3 * p.burden depth call.frames < f.rank p depth := by
  cases h with
  | @machine call holds =>
    rw [executes?] at hexecutes
    split at hexecutes
    · cases hexecutes
    · obtain ⟨⟨op, frames⟩, hfetch, heq⟩ := Option.map_eq_some_iff.1 hexecutes
      cases heq
      rw [holds.1.program] at hfetch
      have hle := Program.burden_fetch depth hfetch
      change 3 * p.burden depth frames < 3 * p.weight depth call.frames + 2
      omega
  | counted =>
    cases hexecutes
    exact Nat.lt_succ_self _
  | host => cases hnext

/-- When a call goes on it comes to its end, or its measure is less. -/
theorem Advances.descends (h : f.Advances w k P) (hserves : f.Serves e p handler)
    (hforward : p.Forward) (hdepth : ∀ m, w.machine? e = some m → m.limits.callDepth.toNat = depth) :
    (∃ (w' : World) (result : Except CallError Unit), P = w'.deliver k result) ∨
      ∃ (b : Hole) (g : Activation b .call), g.Serves e p handler ∧ P.control.Upon (.cons g k) ∧
        g.rank p depth < f.rank p depth := by
  have hfails : ∀ (w : World) (call : MachineCall) (fault : Fault),
      ∃ (w' : World) (result : Except CallError Unit), w.failMachine e call fault k =
        w'.deliver k result := fun w call fault => by
    cases fault with
    | memory => exact ⟨_, _, rfl⟩
    | runtime fault => exact ⟨_, _, rfl⟩
  cases h with
  | ends => exact .inl ⟨_, _, rfl⟩
  | @hook e call op frames _ _ _ due fetched =>
    cases hserves with
    | machine holds =>
      have hexecuting := (p.chain_invariant handler).fetch holds fetched
      rw [holds.1.program] at fetched
      have hle := Program.burden_fetch depth fetched
      refine .inr ⟨_, _, .counted hexecuting, World.upon_fireHook .., ?_⟩
      change 3 * p.burden depth frames + 1 < 3 * p.weight depth call.frames + 2
      omega
  | @performs _ f w₁ e' call op P executes next world log outcome =>
    obtain ⟨rfl, same, chain⟩ := hserves.executes (p.chain_invariant handler) executes
    have hlt := hserves.burden_lt executes next depth
    cases outcome with
    | @next m m' frames machine effect =>
      obtain ⟨m₀, hm₀, hfrugal⟩ := world.frugal.origin machine
      have hless := chain.weight_execute hforward (hfrugal.limits ▸ hdepth m₀ hm₀) effect
      refine .inr ⟨_, _, .machine ⟨same.withFrames _, chain.execute effect⟩, .refl, ?_⟩
      change 3 * p.weight depth frames + 2 < f.rank p depth
      omega
    | enters host => exact .inr ⟨_, _, .host ⟨same, host ▸ chain⟩, World.upon_callBack .., hlt⟩
    | passes host =>
      have hless := p.weight_lt_burden depth call.frames
      refine .inr ⟨_, _, .machine ⟨same, chain.linked⟩, .refl, ?_⟩
      change 3 * p.weight depth call.frames + 2 < f.rank p depth
      omega
    | stop | unknown => exact .inl (hfails _ _ _)
    | absent => exact .inl ⟨_, _, rfl⟩
  | @returned e call name turn =>
    cases hserves with
    | host holds =>
      have hless := p.weight_lt_burden depth call.frames
      refine .inr ⟨_, _, .machine ⟨holds.1, holds.2.linked⟩, .refl, ?_⟩
      change 3 * p.weight depth call.frames + 2 < 3 * p.burden depth call.frames
      omega
  | failed => exact .inl ⟨_, _, rfl⟩

end Activation

namespace Process

theorem limits_step (P : Process) (e : Nat) :
    (P.step.world.machine? e).map (·.limits) = (P.world.machine? e).map (·.limits) := by
  cases P.traffic with
  | embarks embarks =>
    cases embarks with
    | idles idles => exact idles.world.limits_eq (fun _ _ _ h => h.toSober) e
    | calls program handler world => exact world.limits_eq (fun _ _ _ h => h.toSober) e
  | works before works =>
    cases works with
    | goes own mark frames world => exact world.limits_eq (fun _ _ _ h => h.1.toSober) e
    | returns world => exact world.limits_eq (fun _ _ _ h => h.1) e
    | unwinds world => exact world.limits_eq (fun _ _ _ h => h.1) e
  | aborts world => rw [world]

theorem limits_run (P : Process) (e n : Nat) :
    ((P.run n).world.machine? e).map (·.limits) = (P.world.machine? e).map (·.limits) := by
  induction n with
  | zero => rfl
  | succ n ih => rw [run_succ_step, limits_step, ih]

/-- What a call starts over itself, a hook or a host function, comes back to it in the end: it returns
or lets a payload out. -/
def CallbacksEnd (k : Pending .call) (P : Process) : Prop :=
  ∀ (n : Nat) (a : Hole) (f : Activation a .call), (∀ l ≤ n, k.depth < (P.run l).control.depth) →
    (P.run n).control.Upon (.cons f k) → ∃ m, ((P.run n).run m).Back (Pending.cons f k)

/-- The call comes to its end: it gives its caller a result, or it passes on a payload that has come
out of a hook or a host function. -/
def Concludes (k : Pending .call) (P : Process) : Prop :=
  ∃ n, (∀ l < n, k.depth < (P.run l).control.depth) ∧
    ((∃ w result, P.run n = World.deliver w k result) ∨
      ∃ w payload, P.run n = World.unwind w payload k ∧ ∃ l < n, ∃ (a : Hole) (f : Activation a .call),
        (P.run l).control = .unwind payload (.cons f k))

/-- A payload that comes to an activation of the call leaves the call. -/
theorem concludes_of_unwind {f : Activation a .call} {payload : Payload}
    (hserves : f.Serves e p handler) (hinside : ∀ l ≤ n, k.depth < (P.run l).control.depth)
    (hunwind : (P.run n).control = .unwind payload (.cons f k)) : P.Concludes k := by
  refine ⟨n + 1, fun l hl => hinside l (Nat.le_of_lt_succ hl), .inr ?_⟩
  have hstep : (P.run n).step = f.unwind payload (P.run n).world k := by simp only [step, hunwind]
  rw [run_succ_step, hstep]
  cases hserves with
  | machine | counted | host => exact ⟨_, payload, rfl, n, Nat.lt_succ_self n, _, _, hunwind⟩

/-- A call that has started something over an activation of it comes to its end, if it does so from
where it goes on with that activation. -/
theorem concludes_of_upon {f : Activation a .call} (hends : P.CallbacksEnd k)
    (hserves : f.Serves e p handler) (hinside : ∀ l ≤ n, k.depth < (P.run l).control.depth)
    (hupon : (P.run n).control.Upon (.cons f k))
    (hthen : ∀ m result, (∀ l ≤ m, k.depth < (P.run l).control.depth) →
      (P.run m).control = .deliver result (.cons f k) → P.Concludes k) : P.Concludes k := by
  obtain ⟨_, hback⟩ := hends n a f hinside hupon
  obtain ⟨_, own, _⟩ := hserves.exists_call (p.chain_invariant handler)
  obtain ⟨m, _, hback, hbefore⟩ := hback.first (Activation.ne_reply_of_call? own) hupon
  have hdepth : (P.run (n + m)).control.depth = k.depth + 1 := by
    rw [run_add]
    obtain ⟨result, hcontrol⟩ | ⟨payload, hcontrol⟩ := hback
    · rw [hcontrol]
      rfl
    · rw [hcontrol]
      rfl
  have hinside' : ∀ l ≤ n + m, k.depth < (P.run l).control.depth := fun l hl => by
    obtain hle | hgt := Nat.le_total l n
    · exact hinside l hle
    · obtain ⟨i, rfl⟩ := Nat.exists_eq_add_of_le hgt
      obtain rfl | hlt := Nat.eq_or_lt_of_le (Nat.le_of_add_le_add_left hl)
      · omega
      · rw [run_add]
        exact Nat.lt_trans (Nat.lt_succ_self _) (hbefore i hlt)
  rw [← run_add] at hback
  obtain ⟨result, hcontrol⟩ | ⟨payload, hcontrol⟩ := hback
  · exact hthen (n + m) result hinside' hcontrol
  · exact concludes_of_unwind hserves hinside' hcontrol

/-- A call of a program without backward jumps that goes on comes to its end. -/
theorem concludes_of_serves (hforward : p.Forward) (hends : P.CallbacksEnd k)
    (hdepth : ∀ n m, (P.run n).world.machine? e = some m → m.limits.callDepth.toNat = depth)
    {f : Activation a .call} {result : a.Result} (hserves : f.Serves e p handler)
    (hinside : ∀ l ≤ n, k.depth < (P.run l).control.depth)
    (hcontrol : (P.run n).control = .deliver result (.cons f k)) : P.Concludes k := by
  -- by induction on the measure of the call, which each transition of its own makes smaller
  induction hrank : f.rank p depth using Nat.strong_induction_on generalizing a f n with
  | _ N ih =>
    obtain ⟨call, own, _⟩ := hserves.exists_call (p.chain_invariant handler)
    have hstep : P.run (n + 1) = f.resume result (P.run n).world k := by
      simp only [run_succ_step, step, hcontrol]
    have hadvances := f.advances_resume own result (P.run n).world k
    rw [← hstep] at hadvances
    obtain ⟨w', result', hreturns⟩ | ⟨b, g, hserves', hupon, hlt⟩ :=
      hadvances.descends hserves hforward (hdepth n)
    · exact ⟨n + 1, fun l hl => hinside l (Nat.le_of_lt_succ hl), .inl ⟨w', result', hreturns⟩⟩
    · have hinside' : ∀ l ≤ n + 1, k.depth < (P.run l).control.depth := fun l hl => by
        obtain rfl | hlt := Nat.eq_or_lt_of_le hl
        · exact Nat.lt_of_lt_of_le (Nat.lt_succ_self _) hupon.depth_le
        · exact hinside l (Nat.le_of_lt_succ hlt)
      exact concludes_of_upon hends hserves' hinside' hupon fun m result' hm hcontrol' =>
        ih _ (hrank ▸ hlt) hserves' hm hcontrol' rfl

/-- Only backward jumps can keep a script going. A call of a program whose jumps all lead forward comes
to its end, whatever the limits of the machine and the values on its stack are and however the functions
call each other. The hooks and the host functions that the call runs into have to come to their ends. -/
theorem call_concludes_of_forward (hforward : p.Forward) (hkey : w.kept? e key = some (.callable p))
    (hP : w.callProtected e key handler k = P) (hends : P.CallbacksEnd k) : P.Concludes k := by
  obtain ⟨m, hm, hget⟩ := Option.bind_eq_some_iff.1 hkey
  have hstart := World.callProtected_eq hm hget handler k
  have hlimits : ∀ n m', (P.run n).world.machine? e = some m' →
      m'.limits.callDepth.toNat = m.limits.callDepth.toNat := fun n m' hm' => by
    have hsame := limits_run P e n
    rw [hm', ← hP, hstart, World.deliver, hm] at hsame
    exact congrArg (·.callDepth.toNat) (Option.some.inj hsame)
  refine concludes_of_serves (n := 0) (f := .machine e _) hforward hends hlimits
    (.machine ⟨⟨rfl, rfl⟩, p.linked_start⟩) (fun l hl => ?_) (hP ▸ congrArg Process.control hstart)
  obtain rfl := Nat.le_zero.1 hl
  rw [run_zero, ← hP, hstart]
  exact Nat.lt_succ_self _

/-- If a call comes to its end, so does what it has started over itself. -/
theorem Concludes.callbacksEnd (h : P.Concludes k) : P.CallbacksEnd k := by
  obtain ⟨n, _, hended⟩ := h
  have hlast : (P.run n).control.depth = k.depth ∧ (P.run n).control ≠ .aborted := by
    obtain ⟨w, result, hP⟩ | ⟨w, payload, hP, _⟩ := hended
    · rw [hP]
      exact ⟨rfl, Control.noConfusion⟩
    · rw [hP]
      exact ⟨rfl, Control.noConfusion⟩
  intro m a f hinside hupon
  have hlt : m < n := Nat.lt_of_not_le fun hle => Nat.lt_irrefl _ (hlast.1 ▸ hinside n hle)
  have ha : a ≠ .reply := by
    rintro rfl
    cases f
  have hrun : (P.run m).run (n - m) = P.run n := by
    rw [← run_add, Nat.add_sub_cancel' (Nat.le_of_lt hlt)]
  obtain ⟨i, _, hback, _⟩ := exists_back (n := n - m) ha hupon
    (by rw [hrun, hlast.1]; exact Nat.lt_succ_self _) (by rw [hrun]; exact hlast.2)
  exact ⟨i, hback⟩

def recursive : List Char :=
  ("call f\nfn f\npush 0\njumpz skip\nadd\nskip:\nhost h\ncall g\nend\n" ++
    "fn g\ncall f\nend").toList

def recursiveProgram : Program :=
  ⟨"c", #[⟨"", #[.call 1], #[1]⟩,
    ⟨"f", #[.push 0, .jumpz 3, .add, .host "h", .call 2], #[3, 4, 5, 7, 8]⟩, ⟨"g", #[.call 1], #[11]⟩]⟩

/-- A machine that keeps the program and nests three calls at most. Its host function moves the clock,
and its hook fires at every second instruction. -/
def recursiveWorld : World :=
  { engines := #[.machine {
      machine := { limits := ⟨1000, 3, 4⟩, registry := ⟨#[some (.callable recursiveProgram)], []⟩ }
      probe := some ⟨.user "t" [[.advance 1]], 2, 2⟩
      hosts := [("h", [⟨[.advance 5], none, false⟩])] }] }

def recursiveCall : Process :=
  recursiveWorld.callProtected 0 0 .recording (.cons .callReply .outermost)

theorem call_concludes_of_forward_recursive :
    Source.compile "c" recursive = .ok recursiveProgram ∧ recursiveProgram.Forward ∧
    recursiveCall.CallbacksEnd (.cons .callReply .outermost) ∧
    recursiveCall.Concludes (.cons .callReply .outermost) := by
  have hcompile : Source.compile "c" recursive = .ok recursiveProgram := by cbv
  have hforward : recursiveProgram.Forward := by decide
  have hkept : recursiveWorld.kept? 0 0 = some (.callable recursiveProgram) := rfl
  have hinside : ∀ l < 17, 1 < (recursiveCall.run l).control.depth := by decide +kernel
  have hcontrol : (recursiveCall.run 17).control =
      .deliver (.error (.runtime "handled") : Except CallError Unit) (.cons .callReply .outermost) := rfl
  have hends : recursiveCall.CallbacksEnd (.cons .callReply .outermost) :=
    Concludes.callbacksEnd ⟨17, hinside, .inl ⟨_, _, eq_deliver hcontrol⟩⟩
  exact ⟨hcompile, hforward, hends, call_concludes_of_forward hforward hkept rfl hends⟩

end Process

end TaskLoop
