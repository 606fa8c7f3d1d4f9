import TaskLoop.Proofs.Bounds
import TaskLoop.Proofs.Charges

namespace TaskLoop

variable {a b : Hole} {w w₁ : World} {e : Nat} {k : Pending .call} {call : MachineCall} {op : Op}

namespace Program

variable {p : Program} {f : CallFrame} {fs frames : List CallFrame}

/-- The frames of a call while the innermost executes an instruction. The outermost is that of the main
chunk, and each other one was called by the frame below it, which is still at that instruction. -/
inductive Chain (p : Program) : Op → List CallFrame → Prop
  | main {op : Op} {i : Nat} (executes : p.op? 0 i = some op) : Chain p op [⟨0, i + 1⟩]
  | call {op : Op} {function i : Nat} {fs : List CallFrame} (executes : p.op? function i = some op)
      (caller : Chain p (.call function) fs) : Chain p op (⟨function, i + 1⟩ :: fs)

def Linked (p : Program) : List CallFrame → Prop
  | [] => True
  | f :: fs => (f.function = 0 ∧ fs = []) ∨ p.Chain (.call f.function) fs

theorem linked_start (p : Program) : p.Linked start := .inl ⟨rfl, rfl⟩

theorem Chain.linked (h : p.Chain op frames) : p.Linked frames := by
  cases h with
  | main => exact .inl ⟨rfl, rfl⟩
  | call _ caller => exact .inr caller

theorem Chain.innermost (h : p.Chain op frames) :
    ∃ function i fs, frames = ⟨function, i + 1⟩ :: fs ∧ p.op? function i = some op := by
  cases h with
  | main executes => exact ⟨0, _, [], rfl, executes⟩
  | call executes => exact ⟨_, _, _, rfl, executes⟩

theorem Linked.chain (h : p.Linked (f :: fs)) (hop : p.op? f.function f.pc = some op) :
    p.Chain op (⟨f.function, f.pc + 1⟩ :: fs) := by
  obtain ⟨hmain, rfl⟩ | hcaller := h
  · rw [hmain] at hop ⊢
    exact .main hop
  · exact .call hop hcaller

/-- Frames that have come to their end are dropped, and the next one executes its instruction. -/
theorem Linked.fetch (h : p.Linked frames) (hfetch : p.fetch frames = some (op, fs)) :
    p.Chain op fs := by
  induction frames with
  | nil => cases hfetch
  | cons f rest ih =>
    rw [Program.fetch] at hfetch
    split at hfetch
    · next op' hop =>
      cases hfetch
      exact h.chain hop
    · obtain ⟨_, rfl⟩ | hcaller := h
      · cases hfetch
      · exact ih hcaller.linked hfetch

theorem Chain.jumpTo (h : p.Chain op frames) (target : Nat) : p.Linked (jumpTo target frames) := by
  cases h with
  | main => exact .inl ⟨rfl, rfl⟩
  | call _ caller => exact .inr caller

theorem Chain.tail (h : p.Chain op frames) : p.Linked frames.tail := by
  cases h with
  | main => trivial
  | call _ caller => exact caller.linked

theorem Chain.execute {m m' : Machine} (h : p.Chain op frames)
    (hnext : m.execute op frames = .next m' fs) : p.Linked fs := by
  obtain rfl | ⟨target, _, rfl⟩ | ⟨function, rfl, rfl⟩ | ⟨_, rfl⟩ := Machine.frames_of_execute hnext
  · exact h.linked
  · exact h.jumpTo target
  · exact .inr h
  · exact h.tail

end Program

variable {p : Program} {handler : Handler} {P : Process} {n : Nat}

structure MachineCall.Of (p : Program) (handler : Handler) (call : MachineCall) : Prop where
  program : call.program = p
  handler : call.handler = handler

theorem MachineCall.Of.withFrames (h : call.Of p handler) (frames : List CallFrame) :
    { call with frames }.Of p handler := ⟨h.program, h.handler⟩

/-- The activation belongs to a call of the program, whose frames form a chain. -/
def Activation.Serves (e : Nat) (p : Program) (handler : Handler) (f : Activation a .call) : Prop :=
  f.Obeys e (fun call => call.Of p handler ∧ p.Linked call.frames)
    (fun op call => call.Of p handler ∧ p.Chain op call.frames)

theorem Program.chain_invariant (p : Program) (handler : Handler) :
    MachineCall.Invariant (fun call => call.Of p handler ∧ p.Linked call.frames)
      (fun op call => call.Of p handler ∧ p.Chain op call.frames) where
  fetch := by
    rintro call op frames ⟨same, linked⟩ hfetch
    rw [same.program] at hfetch
    exact ⟨same.withFrames frames, linked.fetch hfetch⟩
  next := by
    rintro call op frames m m' ⟨same, chain⟩ hnext
    exact ⟨same.withFrames frames, chain.execute hnext⟩
  done := by
    rintro call op ⟨same, chain⟩
    exact ⟨same, chain.linked⟩

end TaskLoop
