import TaskLoop.Machine.Basic
import TaskLoop.Proofs.Layout

namespace TaskLoop.Source

open Text (Numeral isIdentifier signed?_eq_some unsigned?_eq_some)

variable {source : List Char} {ss : List Site} {home : Nat} {ls : List Line} {l : Line}

def HasLabel (ss : List Site) (home : Nat) (label : String) : Prop :=
  ∃ s ∈ ss, s.home = home ∧ s.line.plain = true ∧ s.line.text = label.toList ++ [':']

def HasFunction (ss : List Site) (name : String) : Prop := ∃ s ∈ ss, s.line.words = ["fn", name]

inductive Legal (ss : List Site) (home : Nat) : List String → Prop
  | bare {mnemonic : String} (known : mnemonic ∈ ["pop", "dup", "add", "sub", "ret"]) :
      Legal ss home [mnemonic]
  | push {literal : String} {z : Int} (numeral : Numeral literal.toList z) (low : -2 ^ 63 ≤ z)
      (high : z < 2 ^ 63) : Legal ss home ["push", literal]
  | alloc {literal : String} {n : Nat} (numeral : Numeral literal.toList n)
      (unsigned : literal.toList.head? ≠ some '-') (high : n < 2 ^ 64) :
      Legal ss home ["alloc", literal]
  | jump {mnemonic label : String} (known : mnemonic ∈ ["jump", "jumpz"])
      (defined : HasLabel ss home label) : Legal ss home [mnemonic, label]
  | call {name : String} (defined : HasFunction ss name) : Legal ss home ["call", name]
  | host {name : String} (identifier : isIdentifier name.toList = true) :
      Legal ss home ["host", name]
  | raise {word : String} {rest : List String} : Legal ss home ("raise" :: word :: rest)

structure Grammatical (source : List Char) : Prop where
  /-- Headers and ends are well formed and alternate. -/
  placed : ∀ s ∈ sites source, s.Placed
  /-- No function is left open. -/
  closed : homeOf (lines source) = 0
  /-- Functions have different names. -/
  functions : (functionNames source).Nodup
  /-- Of the other lines, those that end with a colon hold an identifier in front of it. -/
  labels : ∀ s ∈ sites source, s.line.plain = true → s.line.marks = true →
    ∃ label : String, isIdentifier label.toList = true ∧ s.line.text = label.toList ++ [':']
  /-- No label is defined twice in a body. -/
  labels_once : ∀ s ∈ sites source, ∀ s' ∈ sites source, s.line.plain = true →
    s.line.marks = true → s'.home = s.home → s'.line.text = s.line.text → s' = s
  /-- The remaining lines are instructions. -/
  instructions : ∀ s ∈ sites source, s.line.instructs = true →
    Legal (sites source) s.home s.line.words

theorem mem_plainLines : l ∈ plainLines ss home ↔ Site.mk home l ∈ ss ∧ l.plain = true := by
  rw [plainLines, List.mem_map]
  constructor
  · rintro ⟨s, hs, rfl⟩
    obtain ⟨hmem, hmatch⟩ := List.mem_filter.1 hs
    simp only [Bool.and_eq_true, beq_iff_eq] at hmatch
    obtain ⟨rfl, hplain⟩ := hmatch
    exact ⟨hmem, hplain⟩
  · rintro ⟨hmem, hplain⟩
    exact ⟨_, List.mem_filter.2 ⟨hmem, by simp [hplain]⟩, rfl⟩

/-- Each line stands in one of the bodies. -/
theorem exists_mem_bodiesOf {s : Site} (h : s ∈ sites source) : ∃ b ∈ bodiesOf source, b.header = s.home := by
  by_cases hzero : s.home = 0
  · exact ⟨_, List.mem_cons_self, hzero.symm⟩
  · obtain ⟨done, rest, hls, hhome⟩ := mem_sitesFrom.1 h
    rw [← hhome] at hzero ⊢
    obtain ⟨l, hl, hopens, hnumber⟩ := mem_of_homeOf_ne_zero hzero
    refine ⟨bodyOf (sites source) l, List.mem_cons_of_mem _ (List.mem_map_of_mem ?_), hnumber⟩
    exact List.mem_filter.2 ⟨by simp [hls, hl], hopens⟩

/-- A statement about the lines of all bodies is one about the sites of plain lines. -/
theorem forall_bodiesOf_iff {P : Nat → Line → Prop} :
    (∀ b ∈ bodiesOf source, ∀ l ∈ b.lines.toList, P b.header l) ↔
      ∀ s ∈ sites source, s.line.plain = true → P s.home s.line := by
  constructor
  · intro h s hs hplain
    obtain ⟨b, hb, hheader⟩ := exists_mem_bodiesOf hs
    rw [← hheader]
    refine h b hb s.line ?_
    rw [lines_of_mem_bodiesOf hb, hheader]
    exact mem_plainLines.2 ⟨hs, hplain⟩
  · intro h b hb l hl
    rw [lines_of_mem_bodiesOf hb] at hl
    obtain ⟨hmem, hplain⟩ := mem_plainLines.1 hl
    exact h _ hmem hplain

theorem forall_newLabel_iff (h : ls.Nodup) :
    (∀ done l rest, ls = done ++ l :: rest → NewLabel done l) ↔
      ∀ l ∈ ls, l.marks = true →
        (∃ label : String, isIdentifier label.toList = true ∧ l.text = label.toList ++ [':']) ∧
        ∀ l' ∈ ls, l'.text = l.text → l' = l := by
  constructor
  · intro hnew l hl hmarks
    obtain ⟨done, rest, rfl⟩ := List.append_of_mem hl
    obtain ⟨hlabel, hdone⟩ := hnew done l rest rfl hmarks
    refine ⟨hlabel, fun l' hl' htext => ?_⟩
    rw [List.mem_append, List.mem_cons] at hl'
    obtain hl' | rfl | hl' := hl'
    · exact absurd htext (hdone l' hl')
    · rfl
    · -- the other line comes later, and the first is then the one that was seen before
      obtain ⟨before, after, rfl⟩ := List.append_of_mem hl'
      have hmarks' : l'.marks = true := by
        rw [Line.marks, htext]
        exact hmarks
      exact absurd htext.symm
        ((hnew (done ++ l :: before) l' after (by simp) hmarks').2 l (by simp))
  · rintro hall done l rest rfl hmarks
    obtain ⟨hlabel, hunique⟩ := hall l (by simp) hmarks
    refine ⟨hlabel, fun l' hl' htext => ?_⟩
    obtain rfl := hunique l' (by simp [hl']) htext
    exact (List.nodup_append.1 h).2.2 l' hl' l' (by simp) rfl

structure Scope.Fits (ss : List Site) (home : Nat) (scope : Scope) : Prop where
  label : ∀ label, HasLabel ss home label ↔ (scope.label? label).isSome = true
  function : ∀ name, HasFunction ss name ↔ (scope.function? name).isSome = true

theorem Legal.exists_resolved {scope : Scope} (hfits : scope.Fits ss home)
    (h : Legal ss home l.words) : ∃ op, Resolved scope l op := by
  suffices hread : ∃ i, Instruction.read? l.text = some i ∧ ∃ op, i.resolve? scope = some op by
    obtain ⟨i, hi, op, hop⟩ := hread
    exact ⟨op, i, hi, hop⟩
  unfold Instruction.read?
  change Legal ss home (wordsOf l.text) at h
  generalize wordsOf l.text = words at h ⊢
  cases h with
  | bare known =>
    simp only [List.mem_cons, List.not_mem_nil, or_false] at known
    obtain rfl | rfl | rfl | rfl | rfl := known
    all_goals exact ⟨_, rfl, _, rfl⟩
  | @push literal z numeral low high =>
    have hvalue := signed?_eq_some.2 ⟨numeral, low, high⟩
    exact ⟨.push (Int64.ofInt z), by simp only [hvalue, Option.map_some], _, rfl⟩
  | @alloc literal n numeral unsigned high =>
    have hvalue := unsigned?_eq_some.2 ⟨numeral, unsigned, high⟩
    exact ⟨.alloc (UInt64.ofNat n), by simp only [hvalue, Option.map_some], _, rfl⟩
  | jump known defined =>
    obtain ⟨target, ht⟩ := Option.isSome_iff_exists.1 ((hfits.label _).1 defined)
    simp only [List.mem_cons, List.not_mem_nil, or_false] at known
    obtain rfl | rfl := known
    all_goals exact ⟨_, rfl, _, by rw [Instruction.resolve?, ht, Option.map_some]⟩
  | call defined =>
    obtain ⟨function, hf⟩ := Option.isSome_iff_exists.1 ((hfits.function _).1 defined)
    exact ⟨_, rfl, _, by rw [Instruction.resolve?, hf, Option.map_some]⟩
  | @host name identifier => exact ⟨.host name, by simp only [identifier, if_true], _, rfl⟩
  | raise => exact ⟨_, rfl, _, rfl⟩

theorem Resolved.legal {scope : Scope} {op : Op} (hfits : scope.Fits ss home)
    (h : Resolved scope l op) : Legal ss home l.words := by
  obtain ⟨i, hread, hop⟩ := h
  change Legal ss home (wordsOf l.text)
  unfold Instruction.read? at hread
  generalize wordsOf l.text = words at hread ⊢
  split at hread
  case h_1 =>
    obtain ⟨z, hz, _⟩ := Option.map_eq_some_iff.1 hread
    obtain ⟨numeral, low, high⟩ := signed?_eq_some.1 hz
    exact .push numeral low high
  case h_2 | h_3 | h_4 | h_5 | h_9 => exact .bare (by simp)
  case h_6 | h_7 =>
    cases hread
    obtain ⟨target, ht, _⟩ := Option.map_eq_some_iff.1 hop
    exact .jump (by simp) ((hfits.label _).2 (Option.isSome_of_eq_some ht))
  case h_8 =>
    cases hread
    obtain ⟨function, hf, _⟩ := Option.map_eq_some_iff.1 hop
    exact .call ((hfits.function _).2 (Option.isSome_of_eq_some hf))
  case h_10 => exact .raise
  case h_11 => exact .host (Option.ite_none_right_eq_some.1 hread).1
  case h_12 =>
    obtain ⟨n, hn, _⟩ := Option.map_eq_some_iff.1 hread
    obtain ⟨numeral, unsigned, high⟩ := unsigned?_eq_some.1 hn
    exact .alloc numeral unsigned high
  case h_13 => cases hread

theorem hasFunction_iff (h : ∀ s ∈ sites source, s.Placed) {name : String} :
    HasFunction (sites source) name ↔ name ∈ functionNames source := by
  rw [functionNames, List.mem_map]
  constructor
  · rintro ⟨s, hs, hwords⟩
    refine ⟨s.line, List.mem_filter.2 ⟨line_mem_of_mem_sitesFrom hs, ?_⟩, ?_⟩
    · simp [Line.opens, hwords]
    · simp [Line.functionName, hwords]
  · rintro ⟨l, hl, rfl⟩
    obtain ⟨hmem, hopens⟩ := List.mem_filter.1 hl
    have hwords := (words_of_placed h hmem hopens).1
    rw [← map_line_sitesFrom 0 (lines source)] at hmem
    obtain ⟨s, hs, rfl⟩ := List.mem_map.1 hmem
    exact ⟨s, hs, hwords⟩

theorem hasLabel_iff {label : String} :
    HasLabel ss home label ↔ (position? (plainLines ss home) label).isSome = true := by
  rw [position?, Option.isSome_map, labelLine?_isSome]
  constructor
  · rintro ⟨s, hs, rfl, hplain, htext⟩
    exact ⟨s.line, mem_plainLines.2 ⟨hs, hplain⟩, htext⟩
  · rintro ⟨l, hl, htext⟩
    obtain ⟨hmem, hplain⟩ := mem_plainLines.1 hl
    exact ⟨_, hmem, rfl, hplain, htext⟩

theorem fits_scope (h : ∀ s ∈ sites source, s.Placed) {b : Body} (hb : b ∈ bodiesOf source) :
    (b.scope (indexOf? source)).Fits (sites source) b.header := by
  refine ⟨fun label => ?_, fun name => ?_⟩
  · rw [hasLabel_iff, ← lines_of_mem_bodiesOf hb]
    rfl
  · rw [hasFunction_iff h, ← indexOf?_isSome]
    rfl

/-- The labels of all bodies are new if those of the source are. -/
theorem forall_labels_iff :
    (∀ b ∈ bodiesOf source, ∀ done l rest, b.lines.toList = done ++ l :: rest → NewLabel done l) ↔
      ∀ s ∈ sites source, s.line.plain = true → s.line.marks = true →
        (∃ label : String, isIdentifier label.toList = true ∧ s.line.text = label.toList ++ [':']) ∧
        ∀ l' ∈ plainLines (sites source) s.home, l'.text = s.line.text → l' = s.line := by
  rw [← forall_bodiesOf_iff (P := fun home l => l.marks = true →
    (∃ label : String, isIdentifier label.toList = true ∧ l.text = label.toList ++ [':']) ∧
    ∀ l' ∈ plainLines (sites source) home, l'.text = l.text → l' = l)]
  refine forall₂_congr fun b hb => ?_
  have hsorted := (pairwise_lines source).sublist (plainLines_sublist source b.header)
  rw [lines_of_mem_bodiesOf hb, forall_newLabel_iff (hsorted.imp fun hlt heq => ?_)]
  rw [heq] at hlt
  exact Nat.lt_irrefl _ hlt

/-- The instructions of all bodies are resolved if those of the source are legal. -/
theorem forall_instructions_iff (h : ∀ s ∈ sites source, s.Placed) :
    (∀ b ∈ bodiesOf source, ∀ l ∈ codeOf b.lines.toList,
      ∃ op, Resolved (b.scope (indexOf? source)) l op) ↔
      ∀ s ∈ sites source, s.line.instructs = true → Legal (sites source) s.home s.line.words := by
  have hsites : (∀ s ∈ sites source, s.line.instructs = true →
      Legal (sites source) s.home s.line.words) ↔ ∀ s ∈ sites source, s.line.plain = true →
        (s.line.marks = false → Legal (sites source) s.home s.line.words) := by
    simp [Line.instructs]
  rw [hsites, ← forall_bodiesOf_iff (P := fun home l => l.marks = false →
    Legal (sites source) home l.words)]
  refine forall₂_congr fun b hb => ?_
  simp only [codeOf, List.mem_filter, Bool.not_eq_true', and_imp]
  refine forall₃_congr fun l _ _ => ?_
  constructor
  · rintro ⟨op, hop⟩
    exact hop.legal (fits_scope h hb)
  · exact fun hlegal => hlegal.exists_resolved (fits_scope h hb)

theorem grammatical_iff : Grammatical source ↔
    ((∀ s ∈ sites source, s.Placed) ∧ homeOf (lines source) = 0) ∧ (functionNames source).Nodup ∧
      ∀ b ∈ bodiesOf source, b.Good (b.scope (indexOf? source)) := by
  constructor
  · intro h
    have hlabels := forall_labels_iff.2 fun s hs hplain hmarks =>
      ⟨h.labels s hs hplain hmarks, fun l' hl' htext => ?_⟩
    · have hinstructions := (forall_instructions_iff h.placed).2 h.instructions
      exact ⟨⟨h.placed, h.closed⟩, h.functions, fun b hb => ⟨hlabels b hb, hinstructions b hb⟩⟩
    · exact congrArg Site.line (h.labels_once s hs _ (mem_plainLines.1 hl').1 hplain hmarks rfl htext)
  · rintro ⟨⟨hplaced, hclosed⟩, hfunctions, hgood⟩
    have hlabels := forall_labels_iff.1 fun b hb => (hgood b hb).labels
    have hinstructions := (forall_instructions_iff hplaced).1 fun b hb => (hgood b hb).instructions
    refine ⟨hplaced, hclosed, hfunctions, fun s hs hplain hmarks => (hlabels s hs hplain hmarks).1,
      fun s hs s' hs' hplain hmarks hhome htext => ?_, hinstructions⟩
    have hwords : s'.line.words = s.line.words := by rw [Line.words, htext, Line.words]
    have hplain' : s'.line.plain = true := by
      rw [Line.plain, Line.opens, Line.closes, hwords]
      exact hplain
    have hmem : s'.line ∈ plainLines (sites source) s.home :=
      mem_plainLines.2 ⟨hhome ▸ hs', hplain'⟩
    have hline := (hlabels s hs hplain hmarks).2 s'.line hmem htext
    obtain ⟨home', line'⟩ := s'
    obtain ⟨home, line⟩ := s
    simp_all

/-- Compilation accepts exactly the grammatical sources. For any other it reports a fault with the
number of a line, and so does whoever reads the bytes of the source. -/
theorem compile_accepts_grammar (chunk : String) (source : List Char) :
    ((∃ p, compile chunk source = .ok p) ↔ Grammatical source) ∧
    ((∃ d rest, compile chunk source = .error d ∧ 1 ≤ d.line ∧
      d.line ≤ (Text.lines source).length ∧
      d.message chunk = s!"{chunk}:{d.line}: " ++ rest) ↔ ¬ Grammatical source) ∧
    ∀ bytes, Text.Utf8.decode bytes = .ok source →
      Machine.readSource chunk bytes =
        (compile chunk source).mapError fun d => .malformed (d.message chunk) := by
  have hchecks := (checks_compile chunk source).imp (fun _ hl => hl) grammatical_iff.symm
    fun _ _ h => h
  have hread : ∀ bytes, Text.Utf8.decode bytes = .ok source → Machine.readSource chunk bytes =
      (compile chunk source).mapError fun d => .malformed (d.message chunk) := fun bytes hbytes => by
    rw [Machine.readSource, hbytes]
    dsimp only
    cases compile chunk source <;> rfl
  cases hcompile : compile chunk source with
  | ok p =>
    rw [hcompile] at hchecks hread
    cases hchecks with
    | ok holds _ => exact ⟨⟨fun _ => holds, fun _ => ⟨p, rfl⟩⟩, by simp [holds], hread⟩
  | error d =>
    rw [hcompile] at hchecks hread
    cases hchecks with
    | error fails located =>
      obtain ⟨l, hl, hline⟩ := located
      obtain ⟨hpos, hbound, _⟩ := mem_lines hl
      rw [← hline] at hpos hbound
      refine ⟨by simp [fails], ⟨fun _ => fails, fun _ => ?_⟩, hread⟩
      exact ⟨d, d.fault.message, rfl, hpos, hbound, rfl⟩

end TaskLoop.Source
