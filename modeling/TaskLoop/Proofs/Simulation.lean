import Mathlib
import TaskLoop.Proofs.Bounds
import TaskLoop.Proofs.Interpreter
import TaskLoop.Proofs.Uniform

namespace TaskLoop.Source

variable {chunk : String} {source : List Char} {p : Program} {ls : List Line} {l : Line} {b : Body}
  {i : Nat}

theorem getElem?_countP (h : ls.Pairwise (·.number < ·.number)) (n : Nat) :
    ls[ls.countP (·.number ≤ n)]? = ls.find? fun l => decide (n < l.number) := by
  induction ls with
  | nil => rfl
  | cons l ls ih =>
    obtain ⟨hlt, hsorted⟩ := List.pairwise_cons.1 h
    by_cases hle : l.number ≤ n
    · rw [List.countP_cons_of_pos (by simpa using hle), List.getElem?_cons_succ, ih hsorted,
        List.find?_cons_of_neg (by simpa using hle)]
    · have hzero : ls.countP (·.number ≤ n) = 0 := List.countP_eq_zero.2 fun l' hl' => by
        have hl := hlt l' hl'
        simp only [decide_eq_true_eq]
        omega
      rw [List.countP_cons_of_neg (by simpa using hle), hzero, List.getElem?_cons_zero,
        List.find?_cons_of_pos (by simpa using hle)]

theorem countP_of_getElem? (h : ls.Pairwise (·.number < ·.number)) (hl : ls[i]? = some l) :
    ls.countP (·.number ≤ l.number) = i + 1 := by
  induction ls generalizing i with
  | nil => cases hl
  | cons l' ls ih =>
    obtain ⟨hlt, hsorted⟩ := List.pairwise_cons.1 h
    cases i with
    | zero =>
      cases hl
      have hzero : ls.countP (·.number ≤ l.number) = 0 := List.countP_eq_zero.2 fun l' hl' => by
        simpa using hlt l' hl'
      rw [List.countP_cons_of_pos (by simp), hzero]
    | succ i =>
      rw [List.getElem?_cons_succ] at hl
      have hle := (hlt l (List.mem_of_getElem? hl)).le
      rw [List.countP_cons_of_pos (by simpa using hle), ih hsorted hl]

theorem home_lt_number {s : Site} (h : s ∈ sites source) : s.home < s.line.number := by
  obtain ⟨done, rest, hls, hhome⟩ := mem_sitesFrom.1 h
  have hpos := (mem_lines (line_mem_of_mem_sitesFrom h)).1
  by_cases hzero : s.home = 0
  · omega
  · rw [← hhome] at hzero ⊢
    obtain ⟨l, hl, _, hnumber⟩ := mem_of_homeOf_ne_zero hzero
    have hsorted := pairwise_lines source
    rw [hls] at hsorted
    have hlt := (List.pairwise_append.1 hsorted).2.2 l hl s.line List.mem_cons_self
    omega

theorem nextLine?_eq (source : List Char) (pos : Position) :
    nextLine? source pos =
      (codeOf (plainLines (sites source) pos.home)).find? fun l => decide (pos.line < l.number) := by
  rw [codeOf, plainLines, List.find?_filter, List.find?_map, List.find?_filter, nextLine?]
  congr 2
  funext s
  rw [Bool.eq_iff_iff]
  simp [Line.instructs, and_assoc]

theorem labelSite?_eq (source : List Char) (home : Nat) (label : String) :
    labelSite? source home label = labelLine? (plainLines (sites source) home) label := by
  rw [labelLine?, plainLines, List.find?_map, List.find?_filter, labelSite?]
  congr 2
  funext s
  rw [Bool.eq_iff_iff]
  simp [and_assoc]

theorem sorted_codeOf (hb : b ∈ bodiesOf source) :
    (codeOf b.lines.toList).Pairwise (·.number < ·.number) := by
  rw [lines_of_mem_bodiesOf hb]
  exact ((pairwise_lines source).sublist (plainLines_sublist source _)).sublist List.filter_sublist

theorem headerLine?_eq (h : ∀ s ∈ sites source, s.Placed) (name : String) :
    headerLine? source name = (headers (lines source)).find? (·.functionName == name) := by
  rw [headerLine?, headers, List.find?_filter]
  refine List.find?_congr fun l hl => ?_
  rw [Bool.eq_iff_iff, beq_iff_eq, decide_eq_true_eq, beq_iff_eq]
  constructor
  · intro hwords
    exact ⟨by simp [Line.opens, hwords], by simp [Line.functionName, hwords]⟩
  · rintro ⟨hopens, rfl⟩
    exact (words_of_placed h hl hopens).1

/-- The function that a name leads to has the body of that header. -/
theorem headerLine?_of_indexOf? (hplaced : ∀ s ∈ sites source, s.Placed) {name : String}
    (h : indexOf? source name = some i) :
    ∃ l, headerLine? source name = some l ∧ (bodiesOf source)[i]? = some (bodyOf (sites source) l) := by
  obtain ⟨j, hj, rfl⟩ := Option.map_eq_some_iff.1 h
  rw [bodiesOf, List.tail_cons, List.findIdx?_map] at hj
  obtain ⟨hlt, _⟩ := List.findIdx?_eq_some_iff_getElem.1 hj
  have hget := List.getElem?_eq_getElem hlt
  refine ⟨(headers (lines source))[j], ?_, ?_⟩
  · rw [headerLine?_eq hplaced, List.find?_eq_bind_findIdx?_getElem?]
    exact (congrArg (Option.bind · _) hj).trans hget
  · rw [bodiesOf, List.getElem?_cons_succ, List.getElem?_map, hget]
    rfl

theorem nameAt_header (hb : b ∈ bodiesOf source) : nameAt source b.header = b.name := by
  rw [bodiesOf, List.mem_cons, List.mem_map] at hb
  obtain rfl | ⟨l, hl, rfl⟩ := hb
  · have hnone : ((lines source).find? fun l => l.opens && l.number == 0) = none := by
      refine List.find?_eq_none.2 fun l hl => ?_
      have hpos := (mem_lines hl).1
      simp only [Bool.and_eq_true, beq_iff_eq]
      omega
    rw [nameAt, hnone]
    rfl
  · obtain ⟨hmem, hopens⟩ := List.mem_filter.1 hl
    have hsome : ((lines source).find? fun l' => l'.opens && l'.number == l.number) = some l := by
      have hfound : ((lines source).find? fun l' => l'.opens && l'.number == l.number).isSome = true :=
        List.find?_isSome.2 ⟨l, hmem, by simp [hopens]⟩
      obtain ⟨l', hl'⟩ := Option.isSome_iff_exists.1 hfound
      have hmatch := List.find?_some hl'
      simp only [Bool.and_eq_true, beq_iff_eq] at hmatch
      rw [hl', eq_of_number_eq (List.mem_of_find?_eq_some hl') hmem hmatch.2]
    rw [nameAt, bodyOf, hsome]
    rfl

/-- The frame has so many instructions behind it as stand in the body up to the line. -/
def At (source : List Char) (f : CallFrame) (pos : Position) : Prop :=
  ∃ b, (bodiesOf source)[f.function]? = some b ∧ b.header = pos.home ∧
    f.pc = (codeOf b.lines.toList).countP (·.number ≤ pos.line)

def On (source : List Char) (f : CallFrame) (pos : Position) : Prop :=
  ∃ b l, (bodiesOf source)[f.function]? = some b ∧ b.header = pos.home ∧ 1 ≤ f.pc ∧
    (codeOf b.lines.toList)[f.pc - 1]? = some l ∧ l.number = pos.line

def Follow (source : List Char) : List CallFrame → List Position → Prop
  | [], [] => True
  | f :: fs, pos :: ps => At source f pos ∧ List.Forall₂ (On source) fs ps
  | _, _ => False

structure Performs (source : List Char) (op : Op) (l : Line) (frames : List CallFrame)
    (ps : List Position) : Prop where
  on : List.Forall₂ (On source) frames ps
  resolved : ∃ f ∈ frames.head?, ∃ b, (bodiesOf source)[f.function]? = some b ∧
    Resolved (b.scope (indexOf? source)) l op

variable {f : CallFrame} {pos : Position} {frames : List CallFrame} {ps : List Position} {op : Op}

theorem On.at (h : On source f pos) : At source f pos := by
  obtain ⟨b, l, hb, hheader, hpos, hl, hnumber⟩ := h
  refine ⟨b, hb, hheader, ?_⟩
  rw [← hnumber, countP_of_getElem? (sorted_codeOf (List.mem_of_getElem? hb)) hl]
  omega

theorem follow_of_on (h : List.Forall₂ (On source) frames ps) : Follow source frames ps := by
  cases h with
  | nil => trivial
  | cons hon rest => exact ⟨hon.at, rest⟩

/-- The next instruction of a frame is on the next line of its position. -/
theorem nextLine?_of_at (h : At source f pos) : ∃ b, (bodiesOf source)[f.function]? = some b ∧
    b.header = pos.home ∧ nextLine? source pos = (codeOf b.lines.toList)[f.pc]? := by
  obtain ⟨b, hb, hheader, hpc⟩ := h
  have hmem := List.mem_of_getElem? hb
  refine ⟨b, hb, hheader, ?_⟩
  rw [nextLine?_eq, ← hheader, ← lines_of_mem_bodiesOf hmem, hpc, getElem?_countP (sorted_codeOf hmem)]

/-- What the machine fetches is what the interpreter reads. -/
theorem fetch_of_follow (hcompiled : Compiled chunk source p) (h : Follow source frames ps) :
    (p.fetch frames = none ∧ nextSite? source ps = none) ∨
    ∃ op l frames' ps', p.fetch frames = some (op, frames') ∧
      nextSite? source ps = some (l, ps') ∧ Performs source op l frames' ps' := by
  induction frames generalizing ps with
  | nil =>
    cases ps with
    | nil => exact .inl ⟨rfl, rfl⟩
    | cons => exact h.elim
  | cons f fs ih =>
    cases ps with
    | nil => exact h.elim
    | cons pos rest =>
      obtain ⟨hat, hon⟩ := h
      obtain ⟨b, hb, hheader, hnext⟩ := nextLine?_of_at hat
      obtain ⟨code, hcode, hbody⟩ := hcompiled.exists_code hb
      have hops := rel_getElem?_of_forall₂ hbody.code f.pc
      have hop? : p.op? f.function f.pc = code.code.toList[f.pc]? := by
        rw [Program.op?, hcode, Array.getElem?_toList]
        rfl
      rw [← hop?, ← hnext] at hops
      rw [Program.fetch, nextSite?]
      generalize hline : nextLine? source pos = line? at hops hnext ⊢
      generalize p.op? f.function f.pc = op? at hops ⊢
      cases hops with
      | none => exact ih (follow_of_on hon)
      | @some l op hresolved =>
        refine .inr ⟨op, l, _, _, rfl, rfl, ?_, ⟨f.function, f.pc + 1⟩, rfl, b, hb, hresolved⟩
        exact .cons ⟨b, l, hb, hheader, Nat.le_add_left .., hnext.symm, rfl⟩ hon

inductive Tallies (source : List Char) : Effect → Move → Prop
  | next (m : Machine) {frames : List CallFrame} {ps : List Position}
      (follow : Follow source frames ps) : Tallies source (.next m frames) (.next m ps)
  | stop (m : Machine) (fault : TaskLoop.Fault) : Tallies source (.stop m fault) (.stop m fault)
  | host (name : String) : Tallies source (.host name) (.host name)

variable {m : Machine} {v : Value} {vs : List Value}

theorem pop?_of_nil (h : m.stack.items = []) : m.pop? = none := by
  rw [Machine.pop?, ValueStack.top?, h]
  rfl

theorem pop?_of_cons (h : m.stack.items = v :: vs) : m.pop? = some (v, withValues m vs) := by
  have hstack : m.stack.pop = (withValues m vs).stack := ValueStack.ext (by simp [withValues, h])
  rw [Machine.pop?, ValueStack.top?, h, hstack]
  rfl

theorem tallies_place (h : Follow source frames ps) (m : Machine) (v : Value) :
    Tallies source (m.pushing v frames) (place m v ps) := by
  have hstack : m.stack.push v = (withValues m (v :: m.stack.items)).stack := ValueStack.ext rfl
  rw [Machine.pushing, Machine.push?, place, ← m.stack.height_eq]
  by_cases hroom : m.stack.height < m.limits.stack.toNat
  · rw [if_pos hroom, if_pos hroom, hstack]
    exact .next _ h
  · rw [if_neg hroom, if_neg hroom]
    exact .stop _ _

theorem tallies_compute {g : Int64 → Int64 → Int64} {g' : Int → Int → Int}
    (hg : ∀ a b : Int64, g a b = wrap (g' a.toInt b.toInt)) (h : Follow source frames ps) (m : Machine) :
    Tallies source (m.arithmetic g frames) (compute m g' ps) := by
  unfold Machine.arithmetic compute
  cases hitems : m.stack.items with
  | nil =>
    rw [pop?_of_nil hitems]
    exact .stop _ _
  | cons rhs rest =>
    rw [pop?_of_cons hitems]
    dsimp only
    cases rest with
    | nil =>
      rw [pop?_of_nil (m := withValues m []) rfl]
      exact .stop _ _
    | cons lhs rest =>
      rw [pop?_of_cons (m := withValues m (lhs :: rest)) rfl]
      dsimp only
      cases lhs with
      | int a =>
        cases rhs with
        | int b =>
          dsimp only
          rw [hg]
          exact tallies_place h _ _
        | callable => exact .stop _ _
      | callable =>
        cases rhs with
        | int b => exact .stop _ _
        | callable => exact .stop _ _

theorem tallies_goTo {label : String} {target : Nat} (h : List.Forall₂ (On source) frames ps)
    (hlabel : ∃ f ∈ frames.head?, ∃ b, (bodiesOf source)[f.function]? = some b ∧
      position? b.lines.toList label = some target) (m : Machine) :
    Tallies source (.next m (jumpTo target frames)) (goTo source m label ps) := by
  obtain ⟨f, hf, b, hb, hposition⟩ := hlabel
  cases h with
  | nil => cases hf
  | @cons f' pos fs rest hon hrest =>
    cases hf
    obtain ⟨b', _, hb', hheader, _⟩ := hon
    obtain rfl := Option.some.inj (hb'.symm.trans hb)
    obtain ⟨l, hl, rfl⟩ := Option.map_eq_some_iff.1 hposition
    have hmem := List.mem_of_getElem? hb
    obtain ⟨hl', htext⟩ := mem_of_labelLine? hl
    have hlines := lines_of_mem_bodiesOf hmem
    have hsub : ∀ l' ∈ b'.lines.toList, l' ∈ lines source := fun l' hl' => by
      rw [hlines] at hl'
      exact (plainLines_sublist source _).subset hl'
    rw [goTo, labelSite?_eq, ← hheader, ← hlines, hl]
    refine .next m ⟨⟨b', hb, rfl, ?_⟩, hrest⟩
    -- the line of the label is no instruction, so it does not count
    refine List.countP_congr fun l' hcode => ?_
    obtain ⟨hbody, hmarks⟩ := List.mem_filter.1 hcode
    have hne : l'.number ≠ l.number := fun heq => by
      obtain rfl := eq_of_number_eq (hsub l' hbody) (hsub l hl') heq
      rw [marks_of_text_eq htext] at hmarks
      cases hmarks
    simp only [decide_eq_true_eq]
    omega

theorem at_entry (hb : (bodiesOf source)[i]? = some b) : At source ⟨i, 0⟩ ⟨b.header, b.header⟩ := by
  refine ⟨b, hb, rfl, (List.countP_eq_zero.2 fun l hl => ?_).symm⟩
  have hbody := List.mem_of_mem_filter hl
  rw [lines_of_mem_bodiesOf (List.mem_of_getElem? hb)] at hbody
  have hlt : b.header < l.number := home_lt_number (mem_plainLines.1 hbody).1
  simp only [decide_eq_true_eq]
  omega

theorem tallies_enter (hplaced : ∀ s ∈ sites source, s.Placed) {name : String}
    (hname : indexOf? source name = some i) (h : List.Forall₂ (On source) frames ps) (m : Machine) :
    Tallies source (m.execute (.call i) frames) (enter source m name ps) := by
  obtain ⟨l, hl, hb⟩ := headerLine?_of_indexOf? hplaced hname
  rw [Machine.execute, enter, ← h.length_eq, hl]
  by_cases hdeep : m.limits.callDepth.toNat ≤ frames.length
  · rw [if_pos hdeep, if_pos hdeep]
    exact .stop _ _
  · rw [if_neg hdeep, if_neg hdeep]
    exact .next m ⟨at_entry hb, h⟩

theorem tallies_execute (hplaced : ∀ s ∈ sites source, s.Placed) (h : Performs source op l frames ps)
    {i : Instruction} (hread : Instruction.read? l.text = some i) (m : Machine) :
    Tallies source (m.execute op frames) (perform source m ps i) := by
  have hfollow := follow_of_on h.on
  obtain ⟨f, hf, b, hb, i', hread', hop⟩ := h.resolved
  obtain rfl := Option.some.inj (hread'.symm.trans hread)
  cases i' with
  | push n =>
    cases hop
    exact tallies_place hfollow m _
  | pop =>
    cases hop
    rw [Machine.execute, perform]
    cases hitems : m.stack.items with
    | nil =>
      rw [pop?_of_nil hitems]
      exact .stop _ _
    | cons v rest =>
      rw [pop?_of_cons hitems]
      exact .next _ hfollow
  | dup =>
    cases hop
    rw [Machine.execute, perform, ValueStack.top?]
    cases m.stack.items with
    | nil => exact .stop _ _
    | cons v rest => exact tallies_place hfollow m v
  | add =>
    cases hop
    refine tallies_compute (fun a b => ?_) hfollow m
    rw [wrap, ← Int64.toInt_add, Int64.ofInt_toInt]
  | sub =>
    cases hop
    refine tallies_compute (fun a b => ?_) hfollow m
    rw [wrap, ← Int64.toInt_sub, Int64.ofInt_toInt]
  | jump label =>
    obtain ⟨target, htarget, rfl⟩ := Option.map_eq_some_iff.1 hop
    exact tallies_goTo h.on ⟨f, hf, b, hb, htarget⟩ m
  | jumpz label =>
    obtain ⟨target, htarget, rfl⟩ := Option.map_eq_some_iff.1 hop
    have hgo := tallies_goTo h.on ⟨f, hf, b, hb, htarget⟩
    rw [Machine.execute, perform]
    cases hitems : m.stack.items with
    | nil =>
      rw [pop?_of_nil hitems]
      exact .stop _ _
    | cons v rest =>
      rw [pop?_of_cons hitems]
      dsimp only
      by_cases hzero : v = .int 0
      · rw [if_pos hzero, if_pos hzero]
        exact hgo _
      · rw [if_neg hzero, if_neg hzero]
        exact .next _ hfollow
  | call name =>
    obtain ⟨function, hfunction, rfl⟩ := Option.map_eq_some_iff.1 hop
    exact tallies_enter hplaced hfunction h.on m
  | ret =>
    cases hop
    refine .next m (follow_of_on ?_)
    cases h.on with
    | nil => exact .nil
    | cons _ rest => exact rest
  | raise message =>
    cases hop
    exact .stop _ _
  | host name =>
    cases hop
    exact .host name
  | alloc bytes =>
    cases hop
    rw [Machine.execute, Machine.charge, perform]
    split
    · exact .stop _ _
    · exact .next _ hfollow

def Reading.call (r : Reading) (p : Program) (frames : List CallFrame) : MachineCall :=
  ⟨p, frames, r.mark, r.base, r.handler⟩

/-- The interpretation is at the same point as the call of the program, which runs on the stack. -/
inductive Simulates (r : Reading) (p : Program) (k : Pending .call) : Interpretation → Process → Prop
  | ready (w : World) {frames : List CallFrame} {ps : List Position}
      (follow : Follow r.source frames ps) :
      Simulates r p k (.ready w ps) (w.deliver (.cons (.machine r.engine (r.call p frames)) k) ())
  | hook {P P' : Process} {frames : List CallFrame} {ps : List Position} {op : Op} {l : Line}
      {i : Instruction} (performs : Performs r.source op l frames ps)
      (read : Instruction.read? l.text = some i)
      (alike : P.Alike hookBase (.cons (.counted r.engine (r.call p frames) op) k) P')
      (alive : P.control ≠ .aborted) : Simulates r p k (.hook P ps i) P'
  | host {P P' : Process} {frames : List CallFrame} {ps : List Position} {name : String}
      {turn : HostCall Action} (on : List.Forall₂ (On r.source) frames ps)
      (alike : P.Alike hostBase (.cons (.host r.engine (r.call p frames) name turn) k) P')
      (alive : P.control ≠ .aborted) : Simulates r p k (.host P ps name turn) P'
  | ended (w : World) (result : Except CallError Unit) :
      Simulates r p k (.ended w result) (w.deliver k result)
  | left (w : World) (payload : Payload) : Simulates r p k (.left w payload) (w.unwind payload k)
  | aborted (w : World) : Simulates r p k (.aborted w) ⟨w, .aborted⟩

variable {r : Reading} {k : Pending .call}

theorem simulates_unlessAborted {P P' : Process} {i : Interpretation} {c : Hole} {base base' : Pending c}
    (h : P.Alike base base' P') (hi : P.control ≠ .aborted → Simulates r p k i P') :
    Simulates r p k (.unlessAborted P i) P' := by
  unfold Interpretation.unlessAborted
  split
  · next haborted =>
    rw [h.eq_aborted haborted]
    exact .aborted _
  · next halive => exact hi halive

theorem stepHook_of_depth {P : Process} (h : hookBase.depth < P.control.depth) (ps : List Position)
    (i : Instruction) : r.stepHook P ps i = .unlessAborted P.step (.hook P.step ps i) := by
  unfold Reading.stepHook
  split
  · next hcontrol =>
    rw [hcontrol] at h
    exact absurd h (Nat.lt_irrefl _)
  · next hcontrol =>
    rw [hcontrol] at h
    exact absurd h (Nat.lt_irrefl _)
  · rfl

theorem stepHost_of_depth {P : Process} (h : hostBase.depth < P.control.depth) (ps : List Position)
    (name : String) (turn : HostCall Action) :
    r.stepHost P ps name turn = .unlessAborted P.step (.host P.step ps name turn) := by
  unfold Reading.stepHost
  split
  · next hcontrol =>
    rw [hcontrol] at h
    exact absurd h (Nat.lt_irrefl _)
  · next hcontrol =>
    rw [hcontrol] at h
    exact absurd h (Nat.lt_irrefl _)
  · rfl

section

variable (hcompiled : Compiled r.chunk r.source p)

include hcompiled

/-- The interpreter sees the same calls in progress as the machine. -/
theorem trace_eq (h : List.Forall₂ (On r.source) frames ps) : p.trace frames = r.trace ps := by
  rw [Program.trace, Reading.trace, List.map_reverse, List.map_reverse, List.reverse_inj,
    ← List.forall₂_eq_eq_eq, List.forall₂_map_left_iff, List.forall₂_map_right_iff]
  refine h.imp fun f pos hon => ?_
  obtain ⟨b, l, hb, hheader, _, hl, hnumber⟩ := hon
  obtain ⟨code, hcode, hbody⟩ := hcompiled.exists_code hb
  have hline : code.lines[f.pc - 1]? = some pos.line := by
    rw [← Array.getElem?_toList, hbody.lines, List.getElem?_map, hl, ← hnumber]
    rfl
  rw [Program.line, hcode, hcompiled.chunk, ← hheader, nameAt_header (List.mem_of_getElem? hb),
    ← hbody.name]
  exact congrArg (TraceFrame.mk r.chunk code.name) (congrArg (Option.getD · 0) hline)

theorem simulates_fail (h : List.Forall₂ (On r.source) frames ps) (w : World) (fault : TaskLoop.Fault) :
    Simulates r p k (r.fail w ps fault) (w.failMachine r.engine (r.call p frames) fault k) := by
  cases fault with
  | memory => exact .ended _ _
  | runtime fault =>
    rw [Reading.fail, ← trace_eq hcompiled h]
    exact .ended _ _

theorem simulates_callHost (h : List.Forall₂ (On r.source) frames ps) (w : World) (name : String) :
    Simulates r p k (r.callHost w ps name) (w.callHost r.engine (r.call p frames) name k) := by
  unfold Reading.callHost World.callHost
  cases w.host? r.engine name with
  | none => exact simulates_fail hcompiled h w _
  | some turns =>
    dsimp only
    cases nextTurn turns with
    | none => exact .ready _ (follow_of_on h)
    | some next =>
      exact .host h (World.alike_callBack .base _ _) (World.upon_callBack _ _ _).ne_aborted

theorem simulates_execute (hplaced : ∀ s ∈ sites r.source, s.Placed) {i : Instruction}
    (h : Performs r.source op l frames ps) (hread : Instruction.read? l.text = some i) (w : World) :
    Simulates r p k (r.execute w ps i) (w.executeOp r.engine (r.call p frames) op k) := by
  unfold Reading.execute World.executeOp
  cases w.machine? r.engine with
  | none => exact .ended w _
  | some m =>
    have htallies : Tallies r.source (m.execute op (r.call p frames).frames)
        (perform r.source m ps i) := tallies_execute hplaced h hread m
    dsimp only
    generalize m.execute op (r.call p frames).frames = effect at htallies ⊢
    generalize perform r.source m ps i = move at htallies ⊢
    cases htallies with
    | next m follow => exact .ready _ follow
    | stop m fault => exact simulates_fail hcompiled h.on _ fault
    | host name => exact simulates_callHost hcompiled h.on w name

theorem simulates_proceed (hplaced : ∀ s ∈ sites r.source, s.Placed) (h : Follow r.source frames ps)
    (w : World) :
    Simulates r p k (r.proceed w ps) (w.runMachine r.engine (r.call p frames) k) := by
  unfold Reading.proceed World.runMachine
  obtain ⟨hfetch, hnext⟩ | ⟨op, l, frames', ps', hfetch, hnext, hperforms⟩ :=
    fetch_of_follow hcompiled h
  · rw [hnext, show (r.call p frames).program.fetch (r.call p frames).frames = none from hfetch]
    exact .ended _ _
  · rw [hnext, show (r.call p frames).program.fetch (r.call p frames).frames = some (op, frames')
      from hfetch]
    obtain ⟨f, _, b, _, i, hread, _⟩ := hperforms.resolved
    dsimp only
    rw [hread]
    dsimp only
    generalize (w.countInstruction r.engine).tickHook r.engine = ticked
    obtain ⟨hook?, w₁⟩ := ticked
    cases hook? with
    | none => exact simulates_execute hcompiled hplaced hperforms hread w₁
    | some hook =>
      dsimp only
      rw [hperforms.on.length_eq]
      exact .hook hperforms hread (World.alike_fireHook .base _ _ _ _)
        (World.upon_fireHook _ _ _ _ _).ne_aborted

theorem simulates_hostReturned (h : List.Forall₂ (On r.source) frames ps) (w : World) (name : String)
    (turn : HostCall Action) (complaint : Option String) :
    Simulates r p k (r.hostReturned w ps name turn complaint)
      (w.hostReturned r.engine (r.call p frames) name turn complaint k) := by
  unfold Reading.hostReturned World.hostReturned
  cases turn.failure <|> (if turn.strict then complaint else none) with
  | none => exact .ready w (follow_of_on h)
  | some reason => exact simulates_fail hcompiled h w _

/-- One transition of the call is one of the interpretation. -/
theorem Simulates.step {i : Interpretation} {P : Process} (hplaced : ∀ s ∈ sites r.source, s.Placed)
    (h : Simulates r p k i P) (hrunning : i.isRunning = true) :
    Simulates r p k (r.step i) P.step := by
  cases h with
  | ready w follow =>
    rw [World.deliver, Process.step_deliver]
    exact simulates_proceed hcompiled hplaced follow w
  | @hook P P' frames ps op l i performs read alike alive =>
    cases alike.abreast Hole.noConfusion with
    | above deeper next =>
      rw [Reading.step, stepHook_of_depth deeper]
      exact simulates_unlessAborted next fun halive => .hook performs read next halive
    | result w result => exact simulates_execute hcompiled hplaced performs read w
    | payload w payload => exact .left _ payload
    | aborted => exact absurd rfl alive
  | @host P P' frames ps name turn on alike alive =>
    cases alike.abreast Hole.noConfusion with
    | above deeper next =>
      rw [Reading.step, stepHost_of_depth deeper]
      exact simulates_unlessAborted next fun halive => .host on next halive
    | result w complaint => exact simulates_hostReturned hcompiled on w name turn complaint
    | payload w payload => exact .left _ payload
    | aborted => exact absurd rfl alive
  | ended | left | aborted => cases hrunning

end

variable {w : World} {e key : Nat} {m : Machine} {handler : Handler} {i : Interpretation} {P : Process}

/-- A call of the program begins where the interpretation begins. -/
theorem simulates_start (hm : w.machine? e = some m) (hkey : m.registry.get? key = some (.callable p)) :
    Simulates (.of chunk source e m handler) p k (.ready w startPositions)
      (w.callProtected e key handler k) := by
  rw [World.callProtected_eq hm hkey]
  exact .ready w ⟨at_entry (b := ⟨"", 0, _⟩) rfl, .nil⟩

/-- The call goes as the interpretation does. While they run they are in the same world; they end with
the same result, by the same payload or in the middle of it. No line is ever stuck. -/
inductive Interpretation.Agrees (k : Pending .call) : Interpretation → Process → Prop
  | running {i : Interpretation} {P : Process} (running : i.isRunning = true)
      (world : P.world = i.world) (upon : P.control.Upon k) (deeper : k.depth < P.control.depth) :
      Agrees k i P
  | ended (w : World) (result : Except CallError Unit) : Agrees k (.ended w result) (w.deliver k result)
  | left (w : World) (payload : Payload) : Agrees k (.left w payload) (w.unwind payload k)
  | aborted (w : World) : Agrees k (.aborted w) ⟨w, .aborted⟩

/-- What runs on the stack of the call is above its caller. -/
theorem Interpretation.Agrees.of_upon {c : Hole} {f : Activation c .call} (hrunning : i.isRunning = true)
    (hworld : P.world = i.world) (h : P.control.Upon (.cons f k)) : i.Agrees k P :=
  .running hrunning hworld (h.trans (.cons f .refl)) h.depth_le

theorem Simulates.agrees (h : Simulates r p k i P) : i.Agrees k P := by
  cases h with
  | ready w follow => exact .of_upon rfl rfl (.refl : (Pending.cons _ k).Upon _)
  | hook performs read alike alive => exact .of_upon rfl alike.world.symm (alike.upon alive)
  | host on alike alive => exact .of_upon rfl alike.world.symm (alike.upon alive)
  | ended w result => exact .ended w result
  | left w payload => exact .left w payload
  | aborted w => exact .aborted w

theorem Interpretation.Agrees.isRunning_iff (h : i.Agrees k P) :
    i.isRunning = true ↔ k.depth < P.control.depth := by
  cases h with
  | running hrunning _ _ deeper => exact iff_of_true hrunning deeper
  | ended | left => exact iff_of_false Bool.noConfusion (Nat.lt_irrefl _)
  | aborted => exact iff_of_false Bool.noConfusion (Nat.not_lt_zero _)

theorem simulates_run (hcompile : compile chunk source = .ok p) (hm : w.machine? e = some m)
    (hkey : m.registry.get? key = some (.callable p)) {n : Nat}
    (hrunning : ∀ l < n, ((Reading.of chunk source e m handler).run w l).isRunning = true) :
    Simulates (.of chunk source e m handler) p k ((Reading.of chunk source e m handler).run w n)
      ((w.callProtected e key handler k).run n) := by
  obtain ⟨hgrammatical, hcompiled⟩ := compile_eq_ok hcompile
  induction n with
  | zero => exact simulates_start hm hkey
  | succ n ih =>
    rw [Process.run_succ_step]
    exact (ih fun l hl => hrunning l (by omega)).step hcompiled hgrammatical.placed
      (hrunning n (Nat.lt_succ_self n))

/-- Compilation keeps the meaning of a source. A call of the program and the interpretation of the
source run equally long, for ever if one of them does, and after each transition they agree: on the
world, with all stacks, counts and calls of host functions, and in the end on how they have ended. -/
theorem compiled_as_interpreted (hcompile : compile chunk source = .ok p) (hm : w.machine? e = some m)
    (hkey : m.registry.get? key = some (.callable p)) (handler : Handler) (k : Pending .call) (n : Nat) :
    ((∀ l < n, ((Reading.of chunk source e m handler).run w l).isRunning = true) ↔
      ∀ l < n, k.depth < ((w.callProtected e key handler k).run l).control.depth) ∧
    ((∀ l < n, ((Reading.of chunk source e m handler).run w l).isRunning = true) →
      ((Reading.of chunk source e m handler).run w n).Agrees k
        ((w.callProtected e key handler k).run n)) := by
  have hagrees : ∀ {l : Nat},
      (∀ l' < l, ((Reading.of chunk source e m handler).run w l').isRunning = true) →
      ((Reading.of chunk source e m handler).run w l).Agrees k
        ((w.callProtected e key handler k).run l) :=
    fun hrunning => (simulates_run hcompile hm hkey hrunning).agrees
  refine ⟨⟨fun hrunning l hl => ?_, fun hdeeper l hl => ?_⟩, hagrees⟩
  · exact (hagrees fun l' hl' => hrunning l' (by omega)).isRunning_iff.1 (hrunning l hl)
  · -- the call has not ended before, so the interpretation has not
    induction l using Nat.strong_induction_on with
    | _ l ih => exact (hagrees fun l' hl' => ih l' hl' (by omega)).isRunning_iff.2 (hdeeper l hl)

def counting : List Char :=
  ("push 2\nround:\n # once more\n call less\n dup\n jumpz over\n jump round\nover:\n" ++
    "fn less\n push -1\n add\nend").toList

/-- The program of that source. One of its labels is past the last instruction. -/
def countingProgram : Program :=
  ⟨"c", #[⟨"", #[.push 2, .call 1, .dup, .jumpz 5, .jump 1], #[1, 4, 5, 6, 7]⟩,
    ⟨"less", #[.push (-1), .add], #[10, 11]⟩]⟩

def countingMachine : Machine := { registry := ⟨#[some (.callable countingProgram)], []⟩ }

def countingLines (n : Nat) : Interpretation :=
  (Reading.of "c" counting 0 countingMachine .recording).run (Process.keeping countingProgram) n

def countingCall (n : Nat) : Process :=
  ((Process.keeping countingProgram).callProtected 0 0 .recording (.cons .callReply .outermost)).run n

theorem compiled_as_interpreted_counting :
    compile "c" counting = .ok countingProgram ∧
    (∀ l < 13, (countingLines l).isRunning = true) ∧ (countingLines 13).isRunning = false ∧
    (∀ l < 13, 1 < (countingCall l).control.depth) ∧
    (countingLines 13).Agrees (.cons .callReply .outermost) (countingCall 13) := by
  have hcompile : compile "c" counting = .ok countingProgram := by cbv
  have hrunning : (∀ l < 13, (countingLines l).isRunning = true) ∧
      (countingLines 13).isRunning = false := by decide +kernel
  have hm : (Process.keeping countingProgram).machine? 0 = some countingMachine := rfl
  have hkey : countingMachine.registry.get? 0 = some (.callable countingProgram) := rfl
  obtain ⟨hdepth, hagrees⟩ :=
    compiled_as_interpreted hcompile hm hkey .recording (.cons .callReply .outermost) 13
  exact ⟨hcompile, hrunning.1, hrunning.2, hdepth.1 hrunning.1, hagrees hrunning.1⟩

end TaskLoop.Source
