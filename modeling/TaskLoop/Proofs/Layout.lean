import TaskLoop.Proofs.Listing
import TaskLoop.Proofs.Instruction

namespace TaskLoop.Source

variable {ls done : List Line} {l : Line} {label : String} {s : Layout}

def codeOf (ls : List Line) : List Line := ls.filter (!·.marks)

def labelLine? (ls : List Line) (label : String) : Option Line :=
  ls.find? (·.text == label.toList ++ [':'])

def rank (ls : List Line) (number : Nat) : Nat := (codeOf ls).countP (·.number < number)

def position? (ls : List Line) (label : String) : Option Nat :=
  (labelLine? ls label).map fun l => rank ls l.number

/-- A line that defines a label is an identifier with a colon behind it, and no line before it
defines the same. -/
def NewLabel (done : List Line) (l : Line) : Prop :=
  l.marks = true → (∃ label : String, Text.isIdentifier label.toList = true ∧
    l.text = label.toList ++ [':']) ∧ ∀ l' ∈ done, l'.text ≠ l.text

theorem label?_eq_some : label? l.text = some label ↔ l.text = label.toList ++ [':'] := by
  unfold label?
  by_cases h : l.text.getLast? = some ':'
  · obtain ⟨before, hbefore⟩ := List.getLast?_eq_some_iff.1 h
    rw [if_pos h, hbefore, List.dropLast_concat, Option.some.injEq]
    constructor
    · rintro rfl
      rw [String.toList_ofList]
    · intro heq
      rw [List.append_left_inj] at heq
      rw [heq, String.ofList_toList]
  · rw [if_neg h]
    refine ⟨fun hnone => absurd hnone.symm (Option.some_ne_none label), fun heq => ?_⟩
    exact absurd (by rw [heq, List.getLast?_concat]) h

theorem marks_of_text_eq (h : l.text = label.toList ++ [':']) : l.marks = true := by
  rw [Line.marks, h, List.getLast?_concat, beq_self_eq_true]

theorem text_append_colon_inj {label' : String} :
    label.toList ++ [':'] = label'.toList ++ [':'] ↔ label = label' := by
  rw [List.append_left_inj, String.toList_inj]

theorem mem_of_labelLine? (h : labelLine? ls label = some l) :
    l ∈ ls ∧ l.text = label.toList ++ [':'] :=
  ⟨List.mem_of_find?_eq_some h, by simpa using List.find?_some h⟩

theorem labelLine?_isSome :
    (labelLine? ls label).isSome = true ↔ ∃ l ∈ ls, l.text = label.toList ++ [':'] := by
  simp [labelLine?, List.find?_isSome]

theorem codeOf_append (done : List Line) (l : Line) :
    codeOf (done ++ [l]) = codeOf done ++ if l.marks = true then [] else [l] := by
  rw [codeOf, List.filter_append, ← codeOf]
  by_cases h : l.marks = true <;> simp [h]

theorem rank_le (ls : List Line) (number : Nat) : rank ls number ≤ (codeOf ls).length :=
  List.countP_le_length

/-- The lines before a line do not see it. -/
theorem rank_append {number : Nat} (h : number ≤ l.number) :
    rank (done ++ [l]) number = rank done number := by
  rw [rank, codeOf_append, List.countP_append, ← rank]
  by_cases hmarks : l.marks = true
  · simp [hmarks]
  · simp [hmarks, h]

theorem rank_of_forall_lt {number : Nat} (h : ∀ l ∈ done, l.number < number) :
    rank done number = (codeOf done).length :=
  List.countP_eq_length.2 fun l hl => by simpa using h l (List.mem_of_mem_filter hl)

structure Layout.Reads (done : List Line) (s : Layout) : Prop where
  code : s.code.toList = codeOf done
  position : ∀ label, s.position? label = Source.position? done label
  identifier : ∀ label, (s.position? label).isSome = true → Text.isIdentifier label.toList = true

theorem Layout.reads_empty : Layout.Reads [] {} := ⟨rfl, fun _ => rfl, fun _ h => by cases h⟩

theorem position?_append_of_ne (h : l.text ≠ label.toList ++ [':'])
    (hlt : ∀ l' ∈ done, l'.number < l.number) : position? (done ++ [l]) label = position? done label := by
  have hline : labelLine? (done ++ [l]) label = labelLine? done label := by
    simp [labelLine?, List.find?_append, beq_false_of_ne h]
  rw [position?, hline, position?]
  cases hfound : labelLine? done label with
  | none => rfl
  | some l' =>
    have hle := (hlt l' (mem_of_labelLine? hfound).1).le
    rw [Option.map_some, Option.map_some, rank_append hle]

theorem position?_append_self (h : l.text = label.toList ++ [':'])
    (hlt : ∀ l' ∈ done, l'.number < l.number) (hnew : labelLine? done label = none) :
    position? (done ++ [l]) label = some (codeOf done).length := by
  have hline : labelLine? (done ++ [l]) label = some l := by
    rw [labelLine?, List.find?_append, ← labelLine?, hnew]
    simp [h]
  rw [position?, hline, Option.map_some, rank_append le_rfl, rank_of_forall_lt hlt]

theorem Layout.Reads.push (h : s.Reads done) (hlt : ∀ l' ∈ done, l'.number < l.number)
    (hmarks : l.marks = false) : ({ s with code := s.code.push l } : Layout).Reads (done ++ [l]) := by
  refine ⟨?_, fun label => ?_, h.identifier⟩
  · rw [Array.toList_push, h.code, codeOf_append, hmarks]
    rfl
  · refine (h.position label).trans (position?_append_of_ne (fun heq => ?_) hlt).symm
    rw [marks_of_text_eq heq] at hmarks
    cases hmarks

theorem Layout.Reads.define (h : s.Reads done) (hlt : ∀ l' ∈ done, l'.number < l.number)
    (htext : l.text = label.toList ++ [':']) (hidentifier : Text.isIdentifier label.toList = true)
    (hnew : labelLine? done label = none) :
    ({ s with labels := (label, s.code.size) :: s.labels } : Layout).Reads (done ++ [l]) := by
  have hothers : ∀ {label' : String}, label' ≠ label →
      ({ s with labels := (label, s.code.size) :: s.labels } : Layout).position? label' =
        s.position? label' := fun hne => by
    rw [Layout.position?, List.lookup_cons, beq_false_of_ne hne]
    rfl
  refine ⟨?_, fun label' => ?_, fun label' hsome => ?_⟩
  · rw [codeOf_append, if_pos (marks_of_text_eq htext), List.append_nil]
    exact h.code
  · by_cases heq : label' = label
    · rw [heq, position?_append_self htext hlt hnew, Layout.position?, List.lookup_cons_self, ← h.code,
        Array.length_toList]
    · have hne : l.text ≠ label'.toList ++ [':'] := by
        rw [htext, Ne, text_append_colon_inj]
        exact Ne.symm heq
      rw [position?_append_of_ne hne hlt, hothers heq]
      exact h.position label'
  · by_cases heq : label' = label
    · rw [heq]
      exact hidentifier
    · rw [hothers heq] at hsome
      exact h.identifier label' hsome

theorem Layout.Reads.checks_add (h : s.Reads done) (hlt : ∀ l' ∈ done, l'.number < l.number) :
    Checks [l] (NewLabel done l) (Layout.Reads (done ++ [l])) (s.add l) := by
  unfold Layout.add
  cases hlabel : label? l.text with
  | none =>
    have hmarks : l.marks = false := by
      by_contra hmarks
      rw [Bool.not_eq_false, Line.marks, beq_iff_eq] at hmarks
      simp [label?, hmarks] at hlabel
    refine .ok (fun hmarks' => ?_) (h.push hlt hmarks)
    rw [hmarks] at hmarks'
    cases hmarks'
  | some label =>
    have htext := label?_eq_some.1 hlabel
    have hmarks := marks_of_text_eq htext
    dsimp only
    split
    · next hidentifier =>
      split
      · next hdefined =>
        refine .error (fun hnew => ?_) ⟨l, by simp, rfl⟩
        rw [h.position, Source.position?, Option.isSome_map, labelLine?_isSome] at hdefined
        obtain ⟨l', hl', htext'⟩ := hdefined
        exact (hnew hmarks).2 l' hl' (htext'.trans htext.symm)
      · next hundefined =>
        rw [h.position, Option.not_isSome_iff_eq_none, Source.position?,
          Option.map_eq_none_iff] at hundefined
        refine .ok (fun _ => ⟨⟨label, hidentifier, htext⟩, fun l' hl' heq => ?_⟩)
          (h.define hlt htext hidentifier hundefined)
        have hsome := labelLine?_isSome.2 ⟨l', hl', heq.trans htext⟩
        rw [hundefined] at hsome
        cases hsome
    · next hidentifier =>
      refine .error (fun hnew => ?_) ⟨l, by simp, rfl⟩
      obtain ⟨⟨label', hidentifier', htext'⟩, _⟩ := hnew hmarks
      obtain rfl := text_append_colon_inj.1 (htext.symm.trans htext')
      exact hidentifier hidentifier'

/-- The lines of a body are laid out if its labels are new. -/
theorem checks_layout (body : Body) (hsorted : body.lines.toList.Pairwise (·.number < ·.number)) :
    Checks body.lines.toList
      (∀ done l rest, body.lines.toList = done ++ l :: rest → NewLabel done l)
      (Layout.Reads body.lines.toList) (layout body) := by
  refine Checks.foldlM Layout.reads_empty fun done l rest hls s hs => ?_
  refine (hs.checks_add fun l' hl' => ?_).imp ?_ Iff.rfl fun _ _ h => h
  · rw [hls] at hsorted
    exact (List.pairwise_append.1 hsorted).2.2 l' hl' l (by simp)
  · simp [hls]

theorem rel_getElem?_of_forall₂ {α β : Type} {R : α → β → Prop} {as : List α} {bs : List β}
    (h : List.Forall₂ R as bs) (i : Nat) : Option.Rel R as[i]? bs[i]? := by
  induction h generalizing i with
  | nil => exact .none
  | cons hab _ ih =>
    cases i with
    | zero => exact .some hab
    | succ i => exact ih i

def Resolved (scope : Scope) (l : Line) (op : Op) : Prop :=
  ∃ i, Instruction.read? l.text = some i ∧ i.resolve? scope = some op

structure Body.Compiled (scope : Scope) (body : Body) (f : FunctionCode) : Prop where
  name : f.name = body.name
  lines : f.lines.toList = (codeOf body.lines.toList).map (·.number)
  code : List.Forall₂ (Resolved scope) (codeOf body.lines.toList) f.code.toList

structure Body.Good (scope : Scope) (body : Body) : Prop where
  labels : ∀ done l rest, body.lines.toList = done ++ l :: rest → NewLabel done l
  instructions : ∀ l ∈ codeOf body.lines.toList, ∃ op, Resolved scope l op

def Body.scope (function? : String → Option Nat) (body : Body) : Scope :=
  ⟨Source.position? body.lines.toList, function?⟩

theorem checks_compileLine {scope : Scope} (h : Text.Trimmed l.text) (hscope : scope.Proper) :
    Checks [l] (∃ op, Resolved scope l op) (Resolved scope l) (compileLine scope l) := by
  unfold compileLine
  cases hop : compileOp scope l.text with
  | ok op =>
    have hresolved : Resolved scope l op := (compileOp_eq_ok h hscope).1 hop
    exact .ok ⟨op, hresolved⟩ hresolved
  | error fault =>
    refine .error (fun hex => ?_) ⟨l, by simp, rfl⟩
    obtain ⟨op, hresolved⟩ := hex
    cases hop.symm.trans ((compileOp_eq_ok h hscope).2 hresolved)

/-- A body is compiled if it is good. -/
theorem Body.checks_compile {function? : String → Option Nat} {body : Body}
    (hfunction : ∀ name, (function? name).isSome = true → Text.Solid name.toList)
    (hsorted : body.lines.toList.Pairwise (·.number < ·.number))
    (htrimmed : ∀ l ∈ body.lines.toList, Text.Trimmed l.text) :
    Checks body.lines.toList (body.Good (body.scope function?)) (body.Compiled (body.scope function?))
      (compileBody function? body) := by
  unfold compileBody
  refine ((checks_layout body hsorted).bind fun s _ hs => ?_).imp (fun _ hl => hl)
    ⟨fun h => ⟨h.1, h.2⟩, fun h => ⟨h.labels, h.instructions⟩⟩ fun _ _ h => h
  have hscope : (⟨s.position?, function?⟩ : Scope) = body.scope function? := by
    rw [Body.scope, funext hs.position]
  have hproper : (body.scope function?).Proper := by
    refine ⟨fun name hname => ?_, hfunction⟩
    rw [← hscope] at hname
    exact Text.solid_of_isIdentifier (hs.identifier name hname)
  rw [hscope, Array.mapM_eq_mapM_toList, map_eq_pure_bind, bind_assoc, hs.code]
  simp only [pure_bind]
  have hcode : ∀ l ∈ codeOf body.lines.toList, Checks body.lines.toList
      (∃ op, Resolved (body.scope function?) l op) (Resolved (body.scope function?) l)
      (compileLine (body.scope function?) l) := fun l hl => by
    have hl' := List.mem_of_mem_filter hl
    exact (checks_compileLine (htrimmed l hl') hproper).imp (by simpa using hl') Iff.rfl
      fun _ _ h => h
  refine (Checks.mapM hcode).map fun code hops => ⟨rfl, ?_, hops⟩
  rw [Array.toList_map, hs.code]

theorem duplicate?_eq_none {seen : List String} {bodies : List Body} :
    duplicate? seen bodies = none ↔
      (bodies.map (·.name)).Nodup ∧ ∀ b ∈ bodies, b.name ∉ seen := by
  induction bodies generalizing seen with
  | nil => simp [duplicate?]
  | cons b bodies ih =>
    rw [duplicate?]
    by_cases hseen : b.name ∈ seen
    · rw [if_pos (by simpa using hseen)]
      simp [hseen]
    · rw [if_neg (by simpa using hseen), ih]
      rw [List.map_cons, List.nodup_cons, List.forall_mem_cons]
      simp only [List.mem_map, List.mem_cons, not_or]
      constructor
      · rintro ⟨hnodup, hall⟩
        refine ⟨⟨?_, hnodup⟩, hseen, fun b' hb' => (hall b' hb').2⟩
        rintro ⟨b', hb', heq⟩
        exact (hall b' hb').1 heq
      · rintro ⟨⟨hnew, hnodup⟩, _, hall⟩
        exact ⟨hnodup, fun b' hb' => ⟨fun heq => hnew ⟨b', hb', heq⟩, hall b' hb'⟩⟩

theorem mem_of_duplicate? {seen : List String} {bodies : List Body} {b : Body}
    (h : duplicate? seen bodies = some b) : b ∈ bodies := by
  induction bodies generalizing seen with
  | nil => cases h
  | cons b' bodies ih =>
    rw [duplicate?] at h
    split at h
    · cases h
      exact List.mem_cons_self
    · exact List.mem_cons_of_mem _ (ih h)

def functionNames (source : List Char) : List String := (headers (lines source)).map (·.functionName)

def indexOf? (source : List Char) : String → Option Nat := functionIndex? (bodiesOf source).tail

structure Compiled (chunk : String) (source : List Char) (p : Program) : Prop where
  chunk : p.chunk = chunk
  functions : List.Forall₂ (fun b f => b.Compiled (b.scope (indexOf? source)) f) (bodiesOf source)
    p.functions.toList

theorem plainLines_sublist (source : List Char) (home : Nat) :
    (plainLines (sites source) home).Sublist (lines source) := by
  have hsublist := (List.filter_sublist (l := sites source)
    (p := fun s => s.home == home && s.line.plain)).map (·.line)
  rwa [sites, map_line_sitesFrom] at hsublist

theorem lines_of_mem_bodiesOf {source : List Char} {b : Body} (h : b ∈ bodiesOf source) :
    b.lines.toList = plainLines (sites source) b.header := by
  rw [bodiesOf, List.mem_cons, List.mem_map] at h
  obtain rfl | ⟨l, _, rfl⟩ := h <;> rfl

theorem map_name_bodiesOf (source : List Char) :
    (bodiesOf source).tail.map (·.name) = functionNames source := by
  rw [bodiesOf, List.tail_cons, List.map_map]
  rfl

theorem indexOf?_isSome {source : List Char} {name : String} :
    (indexOf? source name).isSome = true ↔ name ∈ functionNames source := by
  rw [indexOf?, functionIndex?, Option.isSome_map, List.findIdx?_isSome, ← map_name_bodiesOf,
    List.any_eq_true, List.mem_map]
  simp only [beq_iff_eq]

/-- A header that is placed well holds one word besides `fn`, an identifier. -/
theorem words_of_placed {source : List Char} (h : ∀ s ∈ sites source, s.Placed)
    (hl : l ∈ lines source) (hopens : l.opens = true) :
    l.words = ["fn", l.functionName] ∧ Text.isIdentifier l.functionName.toList = true := by
  rw [← map_line_sitesFrom 0 (lines source)] at hl
  obtain ⟨s, hs, rfl⟩ := List.mem_map.1 hl
  obtain ⟨_, name, hwords, hidentifier⟩ := (h s hs).header hopens
  rw [show s.line.functionName = name by simp [Line.functionName, hwords]]
  exact ⟨hwords, hidentifier⟩

theorem isIdentifier_of_mem_functionNames {source : List Char} (h : ∀ s ∈ sites source, s.Placed)
    {name : String} (hname : name ∈ functionNames source) : Text.isIdentifier name.toList = true := by
  obtain ⟨l, hl, rfl⟩ := List.mem_map.1 hname
  obtain ⟨hmem, hopens⟩ := List.mem_filter.1 hl
  exact (words_of_placed h hmem hopens).2

/-- A source compiles if its headers and ends are placed well, its functions have different names,
and its bodies are good. -/
theorem checks_compile (chunk : String) (source : List Char) :
    Checks (lines source)
      (((∀ s ∈ sites source, s.Placed) ∧ homeOf (lines source) = 0) ∧ (functionNames source).Nodup ∧
        ∀ b ∈ bodiesOf source, b.Good (b.scope (indexOf? source)))
      (Compiled chunk source) (compile chunk source) := by
  refine (checks_bodies source).bind fun bodies hplaced hbodies => ?_
  subst hbodies
  unfold compileBodies
  split
  · next b hb =>
    refine .error (fun hgood => ?_) ?_
    · rw [← map_name_bodiesOf] at hgood
      cases hb.symm.trans (duplicate?_eq_none.2 ⟨hgood.1, by simp⟩)
    · obtain ⟨l, hl, rfl⟩ := List.mem_map.1 (mem_of_duplicate? hb)
      exact ⟨l, List.mem_of_mem_filter hl, rfl⟩
  · next hnone =>
    have hnodup := (duplicate?_eq_none.1 hnone).1
    rw [map_name_bodiesOf] at hnodup
    have hfunction : ∀ name, (indexOf? source name).isSome = true → Text.Solid name.toList :=
      fun name hname => Text.solid_of_isIdentifier
        (isIdentifier_of_mem_functionNames hplaced.1 (indexOf?_isSome.1 hname))
    have hcompile : ∀ b ∈ bodiesOf source, Checks (lines source) (b.Good (b.scope (indexOf? source)))
        (b.Compiled (b.scope (indexOf? source))) (compileBody (indexOf? source) b) := fun b hb => by
      have hsublist : b.lines.toList.Sublist (lines source) :=
        lines_of_mem_bodiesOf hb ▸ plainLines_sublist source b.header
      refine (b.checks_compile hfunction ((pairwise_lines source).sublist hsublist) fun l hl => ?_).imp
        hsublist.subset Iff.rfl fun _ _ h => h
      exact (mem_lines (hsublist.subset hl)).2.2.1
    refine ((Checks.mapM hcompile).map fun fs hfs => ⟨rfl, hfs⟩).imp (fun _ hl => hl)
      ⟨fun h => ⟨hnodup, h⟩, fun h => h.2⟩ fun _ _ h => h

end TaskLoop.Source
