import TaskLoop.Proofs.Bounds
import TaskLoop.Proofs.InstructionText

namespace TaskLoop

namespace Text

variable {s t : List Char} {c : Char} {sep : Char → Bool}

theorem addToPieces_ne_nil (sep : Char → Bool) (c : Char) (pieces : List (List Char)) :
    addToPieces sep c pieces ≠ [] := by
  unfold addToPieces
  split
  · exact List.cons_ne_nil _ _
  · split <;> exact List.cons_ne_nil _ _

theorem split_ne_nil (sep : Char → Bool) (h : s ≠ []) : split sep s ≠ [] := by
  obtain ⟨c, s, rfl⟩ := List.exists_cons_of_ne_nil h
  exact addToPieces_ne_nil sep c _

theorem split_append_cons (hc : sep c = true) (s t : List Char) :
    split sep (s ++ c :: t) = split sep (s ++ [c]) ++ split sep t := by
  induction s with
  | nil => simp [addToPieces, hc]
  | cons d s ih =>
    have hne : s ++ [c] ≠ [] := by simp
    obtain ⟨piece, pieces, hpieces⟩ := List.exists_cons_of_ne_nil (split_ne_nil sep hne)
    rw [List.cons_append, List.cons_append, split_cons, split_cons, ih, hpieces]
    by_cases hd : sep d = true
    · simp [addToPieces, hd]
    · simp [addToPieces, hd]

def Ended (s : List Char) : Prop := s = [] ∨ s.getLast? = some '\n'

def Ending (s : List Char) : Prop := s = [] ∨ s.head? = some '\n'

theorem Ended.lines_append (h : Ended s) (t : List Char) : lines (s ++ t) = lines s ++ lines t := by
  obtain rfl | hlast := h
  · rfl
  · obtain ⟨s, rfl⟩ := List.getLast?_eq_some_iff.1 hlast
    rw [List.append_assoc, List.singleton_append, lines, split_append_cons rfl]
    rfl

theorem Ended.length_lines (h : Ended s) : (lines s).length = s.count '\n' := by
  obtain rfl | hlast := h
  · rfl
  · obtain ⟨s, rfl⟩ := List.getLast?_eq_some_iff.1 hlast
    induction s with
    | nil => rfl
    | cons c s ih =>
      have ih := ih (by simp)
      have hne : s ++ ['\n'] ≠ [] := by simp
      obtain ⟨piece, pieces, hpieces⟩ := List.exists_cons_of_ne_nil (split_ne_nil (· == '\n') hne)
      rw [lines] at ih
      rw [List.cons_append, lines, split_cons, List.count_cons, ← ih, hpieces]
      by_cases hc : c = '\n'
      · simp [addToPieces, hc]
      · simp [addToPieces, hc]

theorem lines_of_not_mem (hne : s ≠ []) (h : '\n' ∉ s) : lines s = [s] := by
  induction s with
  | nil => exact absurd rfl hne
  | cons c s ih =>
    rw [List.mem_cons, not_or] at h
    have hc : (c == '\n') = false := beq_false_of_ne (Ne.symm h.1)
    by_cases hs : s = []
    · simp [hs, lines, addToPieces, hc]
    · rw [lines, split_cons, ← lines, ih hs h.2]
      simp [addToPieces, hc]

/-- What is written on a line does not matter to the lines below it. -/
theorem Ending.lines_append (h : Ending t) : ∃ below, ∀ raw : List Char, '\n' ∉ raw →
    lines (raw ++ t) = raw :: below ∨ raw = [] ∧ lines (raw ++ t) = [] ∧ below = [] := by
  obtain rfl | hhead := h
  · refine ⟨[], fun raw hraw => ?_⟩
    rw [List.append_nil]
    by_cases hne : raw = []
    · exact .inr ⟨hne, by rw [hne]; rfl, rfl⟩
    · exact .inl (lines_of_not_mem hne hraw)
  · obtain ⟨t, rfl⟩ := List.head?_eq_some_iff.1 hhead
    exact ⟨lines t, fun raw hraw => .inl (lines_append_newline hraw t)⟩

structure Gap (s : List Char) : Prop where
  blank : ∀ c ∈ s, isBlank c = true
  newline : '\n' ∉ s

theorem Gap.trim_append {indent tail : List Char} (hindent : Gap indent) (htail : Gap tail)
    (hs : s = [] ∨ Trimmed s) : trim (indent ++ (s ++ tail)) = s := by
  have hstart : trimStart (indent ++ (s ++ tail)) = trimStart (s ++ tail) := by
    rw [trimStart, List.dropWhile_append, List.dropWhile_eq_nil_iff.2 hindent.blank]
    rfl
  have hend : trimEnd (s ++ tail) = trimEnd s := by
    rw [trimEnd, List.reverse_append, List.dropWhile_append,
      List.dropWhile_eq_nil_iff.2 fun c hc => htail.blank c (List.mem_reverse.1 hc)]
    rfl
  obtain rfl | hs := hs
  · rw [trim, hstart, trimStart, List.nil_append, List.dropWhile_eq_nil_iff.2 htail.blank]
    rfl
  · have hfirst : trimStart (s ++ tail) = s ++ tail := by
      obtain ⟨c, s, rfl⟩ := List.exists_cons_of_ne_nil hs.ne_nil
      exact List.dropWhile_cons_of_neg (by simp [hs.first c rfl])
    rw [trim, hstart, hfirst, hend, trimEnd_of_last hs.last]

end Text

namespace Source

open Text

variable {source source' : List Char} {ls ls' : List Line} {l : Line}

def numbered (first : Nat) (raws : List (List Char)) : List Line :=
  (raws.zipIdx first).filterMap fun r =>
    if (significant r.1).isEmpty then none else some ⟨r.2, significant r.1⟩

theorem numbered_append (first : Nat) (raws raws' : List (List Char)) :
    numbered first (raws ++ raws') = numbered first raws ++ numbered (first + raws.length) raws' := by
  rw [numbered, List.zipIdx_append, List.filterMap_append, numbered, numbered]

theorem numbered_cons_blank {raw : List Char} (h : significant raw = []) (first : Nat)
    (raws : List (List Char)) : numbered first (raw :: raws) = numbered (first + 1) raws := by
  simp [numbered, List.zipIdx_cons, h]

theorem numbered_cons {raw text : List Char} (h : significant raw = text) (hne : text ≠ []) (first : Nat)
    (raws : List (List Char)) :
    numbered first (raw :: raws) = ⟨first, text⟩ :: numbered (first + 1) raws := by
  rw [numbered, List.zipIdx_cons, List.filterMap_cons]
  simp [h, hne, numbered]

theorem significant_gap {indent tail text : List Char} (hindent : Gap indent) (htail : Gap tail)
    (htext : text = [] ∨ Significant text) : significant (indent ++ (text ++ tail)) = text := by
  have hcomment : '#' ∉ indent ++ (text ++ tail) := by
    have hgap : ∀ {s : List Char}, Gap s → '#' ∉ s := fun hs hc => by
      have hblank := hs.blank '#' hc
      revert hblank
      decide
    have hword : '#' ∉ text := by
      obtain rfl | htext := htext
      · exact List.not_mem_nil
      · exact htext.comment
    simp [hgap hindent, hgap htail, hword]
  have hall : (indent ++ (text ++ tail)).takeWhile (· != '#') = indent ++ (text ++ tail) := by
    rw [List.takeWhile_eq_self_iff]
    exact fun c hc => bne_iff_ne.2 fun heq => hcomment (heq ▸ hc)
  rw [significant, hall, hindent.trim_append htail (htext.imp_right fun h => h.trimmed)]

def LineStart (s : List Char) : Prop := ∃ above indent, s = above ++ indent ∧ Ended above ∧ Gap indent

def LineEnd (s : List Char) : Prop := ∃ tail below, s = tail ++ below ∧ Gap tail ∧ Ending below

/-- What is written at a place is one more line of the source. -/
theorem exists_lines_insert {before after text : List Char} (hbefore : LineStart before)
    (hafter : LineEnd after) (htext : Significant text) :
    ∃ ls ls', lines (before ++ after) = ls ++ ls' ∧
      lines (before ++ (text ++ after)) = ls ++ ⟨before.count '\n' + 1, text⟩ :: ls' := by
  obtain ⟨above, indent, rfl, habove, hindent⟩ := hbefore
  obtain ⟨tail, rest, rfl, htail, hrest⟩ := hafter
  obtain ⟨below, hbelow⟩ := hrest.lines_append
  have hlines : ∀ text, Text.lines (above ++ indent ++ (text ++ (tail ++ rest))) =
      Text.lines above ++ Text.lines (indent ++ (text ++ tail) ++ rest) := fun text => by
    rw [List.append_assoc, habove.lines_append]
    simp only [List.append_assoc]
  have hnumber : 1 + (Text.lines above).length = (above ++ indent).count '\n' + 1 := by
    rw [habove.length_lines, List.count_append, List.count_eq_zero.2 hindent.newline, Nat.add_zero,
      Nat.add_comm]
  refine ⟨numbered 1 (Text.lines above), numbered ((above ++ indent).count '\n' + 1 + 1) below, ?_, ?_⟩
  · change numbered 1 (Text.lines (above ++ indent ++ ([] ++ (tail ++ rest)))) = _
    have hblank := significant_gap hindent htail (.inl rfl)
    rw [hlines, numbered_append, hnumber]
    obtain hcut | ⟨-, hnil, rfl⟩ :=
      hbelow (indent ++ ([] ++ tail)) (by simp [hindent.newline, htail.newline])
    · rw [hcut, numbered_cons_blank hblank]
    · rw [hnil]
      rfl
  · change numbered 1 (Text.lines (above ++ indent ++ (text ++ (tail ++ rest)))) = _
    have hwritten := significant_gap hindent htail (.inr htext)
    rw [hlines, numbered_append, hnumber]
    obtain hcut | ⟨hnil, -⟩ := hbelow (indent ++ (text ++ tail))
      (by simp [hindent.newline, htail.newline, htext.newline])
    · rw [hcut, numbered_cons hwritten htext.trimmed.ne_nil]
    · simp [htext.trimmed.ne_nil] at hnil

theorem Legal.mono {ss ss' : List Site} {home : Nat} {words : List String} (h : Legal ss home words)
    (hss : ss ⊆ ss') : Legal ss' home words := by
  cases h with
  | bare known => exact .bare known
  | push numeral low high => exact .push numeral low high
  | alloc numeral unsigned high => exact .alloc numeral unsigned high
  | jump known defined =>
    obtain ⟨s, hs, hlabel⟩ := defined
    exact .jump known ⟨s, hss hs, hlabel⟩
  | call defined =>
    obtain ⟨s, hs, hwords⟩ := defined
    exact .call ⟨s, hss hs, hwords⟩
  | host identifier => exact .host identifier
  | raise => exact .raise

structure Inserts (ls : List Line) (l : Line) (ls' : List Line) (source source' : List Char) : Prop where
  lines : Source.lines source = ls ++ ls'
  lines' : Source.lines source' = ls ++ l :: ls'
  plain : l.plain = true

namespace Inserts

theorem mem_sites (h : Inserts ls l ls' source source') {s : Site} :
    s ∈ sites source' ↔ s = ⟨homeOf ls, l⟩ ∨ s ∈ sites source := by
  rw [sites, sites, h.lines, h.lines', sitesFrom_append, sitesFrom_append, sitesFrom,
    Line.homeAfter_of_plain h.plain]
  simp only [List.mem_append, List.mem_cons]
  exact or_left_comm

theorem homeOf_eq (h : Inserts ls l ls' source source') :
    homeOf (Source.lines source') = homeOf (Source.lines source) := by
  rw [homeOf, homeOf, h.lines, h.lines', List.foldl_append, List.foldl_append, List.foldl_cons,
    Line.homeAfter_of_plain h.plain]

theorem functionNames_eq (h : Inserts ls l ls' source source') :
    functionNames source' = functionNames source := by
  have hopens : l.opens = false := by
    have hplain := h.plain
    simp only [Line.plain, Bool.and_eq_true, Bool.not_eq_true'] at hplain
    exact hplain.1
  rw [functionNames, functionNames, headers, headers, h.lines, h.lines', List.filter_append,
    List.filter_append, List.filter_cons_of_neg (by simp [hopens])]

/-- An instruction of any source can stand in between. -/
theorem grammatical (h : Inserts ls l ls' source source') (hmarks : l.marks = false)
    (hlegal : ∀ ss home, Legal ss home l.words) (hsource : Grammatical source) :
    Grammatical source' := by
  refine ⟨fun s hs => ?_, h.homeOf_eq.trans hsource.closed, h.functionNames_eq ▸ hsource.functions,
    fun s hs hplain hmarked => ?_, fun s hs s' hs' hplain hmarked hhome htext => ?_,
    fun s hs hinstructs => ?_⟩
  · obtain rfl | hs := h.mem_sites.1 hs
    · have hplain := h.plain
      simp only [Line.plain, Bool.and_eq_true, Bool.not_eq_true'] at hplain
      exact ⟨fun hopens => absurd (hplain.1.symm.trans hopens) Bool.false_ne_true,
        fun hcloses => absurd (hplain.2.symm.trans hcloses) Bool.false_ne_true⟩
    · exact hsource.placed s hs
  · obtain rfl | hs := h.mem_sites.1 hs
    · exact absurd (hmarks.symm.trans hmarked) Bool.false_ne_true
    · exact hsource.labels s hs hplain hmarked
  · -- the new line is no label, and neither is a line with the same text
    have hold : ∀ s'' : Site, s'' ∈ sites source' → s''.line.text = s.line.text → s'' ∈ sites source :=
      fun s'' hs'' heq => (h.mem_sites.1 hs'').resolve_left fun hnew => by
        rw [Line.marks, ← heq, hnew, ← Line.marks, hmarks] at hmarked
        cases hmarked
    exact hsource.labels_once s (hold s hs rfl) s' (hold s' hs' htext) hplain hmarked hhome htext
  · obtain rfl | hs := h.mem_sites.1 hs
    · exact hlegal _ _
    · exact (hsource.instructions s hs hinstructs).mono fun s' hs' => h.mem_sites.2 (.inr hs')

end Inserts

/-- Each instruction line of a source is an instruction of the program, known by the number of the line. -/
theorem Compiled.exists_op {chunk : String} {p : Program} (h : Compiled chunk source p) {s : Site}
    (hs : s ∈ sites source) (hinstructs : s.line.instructs = true) :
    ∃ function pc op scope, p.line function pc = s.line.number ∧ p.op? function pc = some op ∧
      Resolved scope s.line op := by
  obtain ⟨hplain, hmarks⟩ : s.line.plain = true ∧ s.line.marks = false := by
    simpa [Line.instructs] using hinstructs
  obtain ⟨b, hb, hheader⟩ := exists_mem_bodiesOf hs
  have hmem : s.line ∈ codeOf b.lines.toList := by
    rw [lines_of_mem_bodiesOf hb, hheader]
    exact List.mem_filter.2 ⟨mem_plainLines.2 ⟨hs, hplain⟩, by simp [hmarks]⟩
  obtain ⟨function, hfunction⟩ := List.getElem?_of_mem hb
  obtain ⟨pc, hpc⟩ := List.getElem?_of_mem hmem
  obtain ⟨f, hf, hcompiled⟩ := h.exists_code hfunction
  have hop := rel_getElem?_of_forall₂ hcompiled.code pc
  rw [hpc, Array.getElem?_toList] at hop
  generalize hcode : f.code[pc]? = op at hop
  cases hop with
  | @some _ op hresolved =>
    have hline : f.lines[pc]? = some s.line.number := by
      rw [← Array.getElem?_toList, hcompiled.lines, List.getElem?_map, hpc, Option.map_some]
    exact ⟨function, pc, op, _, by simp [Program.line, hf, hline], by simp [Program.op?, hf, hcode],
      hresolved⟩

theorem exists_compile (chunk : String) (h : Grammatical source) : ∃ p, compile chunk source = .ok p := by
  have hchecks := checks_compile chunk source
  generalize compile chunk source = result at hchecks
  cases hchecks with
  | ok => exact ⟨_, rfl⟩
  | error fails => exact absurd (grammatical_iff.1 h) fails

def raiseLine (message : String) : List Char := "raise ".toList ++ message.toList

theorem raiseLine_eq (message : String) : raiseLine message = (Instruction.raise message).text := by
  rw [raiseLine, show "raise ".toList = "raise".toList ++ [' '] by decide, List.append_assoc]
  rfl

theorem significant_raiseLine {message : String} (h : Significant message.toList) :
    Significant (raiseLine message) := by
  rw [raiseLine_eq]
  exact h.behind (Instruction.raise message).clean_mnemonic

theorem getLast?_raiseLine {message : String} (h : Significant message.toList) :
    (raiseLine message).getLast? = message.toList.getLast? :=
  List.getLast?_append_of_ne_nil _ h.trimmed.ne_nil

theorem legal_raiseLine {message : String} (h : Significant message.toList)
    (hl : l.text = raiseLine message) (ss : List Site) (home : Nat) : Legal ss home l.words := by
  obtain ⟨word, rest, hwords⟩ := List.exists_cons_of_ne_nil (wordsOf_ne_nil h.trimmed)
  have hline : l.words = "raise" :: word :: rest := by
    change wordsOf l.text = _
    rw [hl, raiseLine_eq, Instruction.wordsOf_text (i := .raise message) rfl, hwords]
    rfl
  rw [hline]
  exact .raise

/-- The line is no label, even if it ends with a colon: there is a blank in it. -/
theorem not_grammatical_of_colon {message : String} {home : Nat} (hs : Site.mk home l ∈ sites source)
    (hl : l.text = raiseLine message) (hplain : l.plain = true) (hmarks : l.marks = true) :
    ¬ Grammatical source := by
  intro hgrammar
  obtain ⟨label, hidentifier, htext⟩ := hgrammar.labels _ hs hplain hmarks
  have hblank : ' ' ∈ label.toList ++ [':'] := by
    rw [← htext, show (Site.mk home l).line.text = raiseLine message from hl]
    simp [raiseLine]
  have hlabel : ' ' ∈ label.toList := by simpa using hblank
  exact (clean_of_isIdentifier hidentifier).not_mem rfl (by decide) hlabel

theorem Resolved.eq_raise {message : String} {scope : Scope} {op : Op} (h : Resolved scope l op)
    (hl : l.text = raiseLine message) (hmessage : Significant message.toList)
    (hcolon : message.toList.getLast? ≠ some ':') : op = .raise message := by
  obtain ⟨i, hread, hresolve⟩ := h
  rw [hl, raiseLine_eq, Instruction.read?_text (i := .raise message) ⟨hmessage, hcolon⟩] at hread
  cases hread
  exact (Option.some.inj hresolve).symm

/-- Any text that fills a line can be raised at any place of a source that compiles without that line,
unless the text ends with a colon: the line is compiled to the instruction with that text. A line whose
text ends with a colon is refused. -/
theorem compile_raiseLine (chunk message : String) (before after : List Char)
    (hmessage : Significant message.toList) (hbefore : LineStart before) (hafter : LineEnd after)
    (hrest : ∃ p, compile chunk (before ++ after) = .ok p) :
    (message.toList.getLast? ≠ some ':' → ∃ p function pc,
      compile chunk (before ++ (raiseLine message ++ after)) = .ok p ∧
      p.line function pc = before.count '\n' + 1 ∧ p.op? function pc = some (.raise message)) ∧
    (message.toList.getLast? = some ':' →
      ∃ d, compile chunk (before ++ (raiseLine message ++ after)) = .error d) := by
  obtain ⟨ls, ls', hold, hnew⟩ := exists_lines_insert hbefore hafter (significant_raiseLine hmessage)
  generalize hl : Line.mk (before.count '\n' + 1) (raiseLine message) = l at hnew
  have htext : l.text = raiseLine message := by rw [← hl]
  have hinserts : Inserts ls l ls' (before ++ after) (before ++ (raiseLine message ++ after)) :=
    ⟨hold, hnew, plain_of_instruction (htext.trans (raiseLine_eq message))⟩
  have hsite : Site.mk (homeOf ls) l ∈ sites (before ++ (raiseLine message ++ after)) :=
    hinserts.mem_sites.2 (.inl rfl)
  have hmarks : l.marks = (message.toList.getLast? == some ':') := by
    rw [Line.marks, htext, getLast?_raiseLine hmessage]
  constructor
  · intro hcolon
    rw [beq_false_of_ne hcolon] at hmarks
    obtain ⟨p₀, hp₀⟩ := hrest
    have hgrammar := hinserts.grammatical hmarks (legal_raiseLine hmessage htext) (compile_eq_ok hp₀).1
    obtain ⟨p, hp⟩ := exists_compile chunk hgrammar
    obtain ⟨function, pc, op, scope, hline, hop, hresolved⟩ := (compile_eq_ok hp).2.exists_op hsite
      (by simp [Line.instructs, hinserts.plain, hmarks])
    rw [hresolved.eq_raise htext hmessage hcolon] at hop
    exact ⟨p, function, pc, hp, by rw [hline, ← hl], hop⟩
  · intro hcolon
    rw [hcolon, beq_self_eq_true] at hmarks
    cases hp : compile chunk (before ++ (raiseLine message ++ after)) with
    | error d => exact ⟨d, rfl⟩
    | ok p =>
      have hgrammar := (compile_eq_ok hp).1
      exact absurd hgrammar (not_grammatical_of_colon hsite htext hinserts.plain hmarks)

/-- A text with keywords, a colon and a wide blank in it, raised on an indented line of a function. -/
theorem compile_raiseLine_keywords :
    Significant "end: fn\u2003raise".toList ∧
    (∃ p, compile "c" ("fn f\r\n  ".toList ++ " \r\nend\r\ncall f".toList) = .ok p) ∧
    ∃ p function pc, compile "c"
        ("fn f\r\n  ".toList ++ (raiseLine "end: fn\u2003raise" ++ " \r\nend\r\ncall f".toList)) = .ok p ∧
      p.line function pc = 2 ∧ p.op? function pc = some (.raise "end: fn\u2003raise") := by
  have hmessage : Significant "end: fn\u2003raise".toList :=
    significant_of_trim_eq (by decide) (by decide) (by decide) (by decide)
  have hbefore : LineStart "fn f\r\n  ".toList :=
    ⟨"fn f\r\n".toList, "  ".toList, by decide, .inr (by decide), List.all_eq_true.1 (by decide),
      by decide⟩
  have hafter : LineEnd " \r\nend\r\ncall f".toList :=
    ⟨" \r".toList, "\nend\r\ncall f".toList, by decide, ⟨List.all_eq_true.1 (by decide), by decide⟩,
      .inr (by decide)⟩
  have hrest : ∃ p, compile "c" ("fn f\r\n  ".toList ++ " \r\nend\r\ncall f".toList) = .ok p :=
    ⟨⟨"c", #[⟨"", #[.call 1], #[4]⟩, ⟨"f", #[], #[]⟩]⟩, by decide +kernel⟩
  exact ⟨hmessage, hrest,
    (compile_raiseLine "c" "end: fn\u2003raise" _ _ hmessage hbefore hafter hrest).1 (by decide)⟩

/-- A text that ends with a colon cannot be raised: its line is taken for a label. -/
theorem raised_colon_refused :
    Significant "no such key:".toList ∧ (∃ p, compile "c" [] = .ok p) ∧
    compile "c" (raiseLine "no such key:") = .error ⟨1, .invalidLabel "raise no such key"⟩ :=
  ⟨significant_of_trim_eq (by decide) (by decide) (by decide) (by decide),
    ⟨⟨"c", #[⟨"", #[], #[]⟩]⟩, by cbv⟩, by decide +kernel⟩

end Source

end TaskLoop
