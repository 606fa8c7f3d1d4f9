import TaskLoop.Proofs.Layout

namespace TaskLoop

namespace Text

variable {s t w : List Char} {c : Char}

structure Significant (s : List Char) : Prop where
  trimmed : Trimmed s
  newline : '\n' ∉ s
  comment : '#' ∉ s

structure Clean (s : List Char) : Prop where
  ne_nil : s ≠ []
  chars : ∀ c ∈ s, isIdentifierRest c = true ∨ c = '-'

theorem Solid.trimmed (h : Solid s) : Trimmed s :=
  ⟨h.ne_nil, fun c hc => h.solid c (List.mem_of_mem_head? hc),
    fun c hc => h.solid c (List.mem_of_mem_getLast? hc)⟩

theorem Trimmed.trim_eq (h : Trimmed s) : trim s = s := by
  have hstart : trimStart s = s := by
    cases s with
    | nil => rfl
    | cons c s => exact List.dropWhile_cons_of_neg (by simp [h.first c rfl])
  rw [trim, hstart, trimEnd_of_last h.last]

theorem significant_of_trim_eq (hne : s ≠ []) (htrim : trim s = s) (hnewline : '\n' ∉ s)
    (hcomment : '#' ∉ s) : Significant s := by
  refine ⟨?_, hnewline, hcomment⟩
  rw [← htrim]
  exact trimmed_trim (by rwa [htrim])

theorem Clean.solid (h : Clean s) : Solid s := by
  refine ⟨h.ne_nil, fun c hc => ?_⟩
  obtain hrest | rfl := h.chars c hc
  · exact isBlank_of_isIdentifierRest hrest
  · decide

theorem Clean.not_mem (h : Clean s) (hrest : isIdentifierRest c = false) (hminus : c ≠ '-') : c ∉ s := by
  intro hc
  obtain hrest' | hminus' := h.chars c hc
  · rw [hrest] at hrest'
    cases hrest'
  · exact hminus hminus'

theorem Clean.significant (h : Clean s) : Significant s :=
  ⟨h.solid.trimmed, h.not_mem rfl (by decide), h.not_mem rfl (by decide)⟩

theorem Clean.getLast?_ne (h : Clean s) : s.getLast? ≠ some ':' := fun hlast =>
  h.not_mem rfl (by decide) (List.mem_of_getLast? hlast)

theorem clean_of_isIdentifier (h : isIdentifier s = true) : Clean s := by
  cases s with
  | nil => cases h
  | cons c cs =>
    rw [isIdentifier, Bool.and_eq_true, List.all_eq_true] at h
    refine ⟨List.cons_ne_nil _ _, List.forall_mem_cons.2 ⟨.inl ?_, fun c hc => .inl (h.2 c hc)⟩⟩
    have hstart := h.1
    simp only [isIdentifierStart, isIdentifierRest, Char.isAlphanum, Bool.or_eq_true] at hstart ⊢
    exact hstart.imp_left .inl

theorem Significant.behind (ht : Significant t) (hw : Clean w) : Significant (w ++ ' ' :: t) := by
  have hne : ' ' :: t ≠ [] := List.cons_ne_nil _ _
  refine ⟨⟨List.append_ne_nil_of_right_ne_nil w hne, fun c hc => ?_, fun c hc => ?_⟩, ?_, ?_⟩
  · rw [List.head?_append_of_ne_nil _ hw.ne_nil] at hc
    exact hw.solid.trimmed.first c hc
  · rw [List.getLast?_append_of_ne_nil _ hne, List.getLast?_cons_of_ne_nil ht.trimmed.ne_nil] at hc
    exact ht.trimmed.last c hc
  · simp [ht.newline, hw.significant.newline]
  · simp [ht.comment, hw.significant.comment]

theorem Clean.solid_colon (h : Clean w) : Solid (w ++ [':']) := by
  refine ⟨by simp, fun c hc => ?_⟩
  obtain hc | hc := List.mem_append.1 hc
  · exact h.solid.solid c hc
  · obtain rfl := List.mem_singleton.1 hc
    decide

theorem Clean.significant_colon (h : Clean w) : Significant (w ++ [':']) :=
  ⟨h.solid_colon.trimmed, by simp [h.significant.newline], by simp [h.significant.comment]⟩

theorem ofDigits?_toDigits (n : Nat) : ofDigits? (Nat.toDigits 10 n) = some n := by
  have hdigits : (Nat.toDigits 10 n).all Char.isDigit = true :=
    List.all_eq_true.2 fun c hc => Nat.isDigit_of_mem_toDigits (by decide) (by decide) hc
  rw [ofDigits?, if_pos ⟨Nat.toDigits_ne_nil, hdigits⟩]
  exact congrArg some (Nat.ofDigitChars_toDigits (by decide) (by decide))

theorem numeral_natRepr (n : Nat) : Numeral n.repr.toList n := by
  obtain ⟨hdigits, hnumber⟩ := ofDigits?_eq_some.1 (ofDigits?_toDigits n)
  rw [Nat.toList_repr]
  conv_rhs => rw [← hnumber]
  exact .plain hdigits

theorem numeral_intRepr (z : Int) : Numeral z.repr.toList z := by
  cases z with
  | ofNat n => exact numeral_natRepr n
  | negSucc n =>
    obtain ⟨hdigits, hnumber⟩ := ofDigits?_eq_some.1 (ofDigits?_toDigits (n + 1))
    have hrepr : (Int.negSucc n).repr.toList = '-' :: Nat.toDigits 10 (n + 1) := by
      rw [← Nat.toList_repr]
      exact String.toList_append
    rw [hrepr, numeral_cons_minus]
    exact ⟨hdigits, by rw [hnumber]; rfl⟩

theorem Digits.clean (h : Digits s) : Clean s :=
  ⟨h.ne_nil, fun c hc => .inl (by simp [isIdentifierRest, Char.isAlphanum, h.digits c hc])⟩

theorem Numeral.clean {z : Int} (h : Numeral s z) (hplus : s.head? ≠ some '+') : Clean s := by
  cases h with
  | plain digits => exact digits.clean
  | plus digits => exact absurd rfl hplus
  | minus digits =>
    exact ⟨List.cons_ne_nil _ _, List.forall_mem_cons.2 ⟨.inr rfl, digits.clean.chars⟩⟩

def unlines (texts : List (List Char)) : List Char := texts.flatMap (· ++ ['\n'])

theorem lines_append_newline (h : '\n' ∉ t) (s : List Char) :
    lines (t ++ '\n' :: s) = t :: lines s := by
  induction t with
  | nil => rfl
  | cons c t ih =>
    rw [List.mem_cons, not_or] at h
    have hc : (c == '\n') = false := beq_false_of_ne (Ne.symm h.1)
    rw [lines, List.cons_append, split_cons, ← lines, ih h.2, addToPieces, hc]
    rfl

theorem lines_unlines {texts : List (List Char)} (h : ∀ t ∈ texts, '\n' ∉ t) :
    lines (unlines texts) = texts := by
  induction texts with
  | nil => rfl
  | cons t texts ih =>
    obtain ⟨ht, htexts⟩ := List.forall_mem_cons.1 h
    have hunlines : unlines (t :: texts) = t ++ '\n' :: unlines texts := by
      simp [unlines]
    rw [hunlines, lines_append_newline ht, ih htexts]

end Text

namespace Source

open Text

variable {l : Line} {j k : Nat}

theorem significant_eq {t : List Char} (h : Significant t) : significant t = t := by
  have hall : t.takeWhile (· != '#') = t := by
    rw [List.takeWhile_eq_self_iff]
    intro c hc
    exact bne_iff_ne.2 fun heq => h.comment (heq ▸ hc)
  rw [significant, hall, h.trimmed.trim_eq]

/-- A source written line by line says what is written. -/
theorem map_text_lines {texts : List (List Char)} (h : ∀ t ∈ texts, Significant t) :
    (lines (unlines texts)).map (·.text) = texts := by
  rw [lines, lines_unlines fun t ht => (h t ht).newline]
  generalize 1 = first
  induction texts generalizing first with
  | nil => rfl
  | cons t texts ih =>
    obtain ⟨ht, htexts⟩ := List.forall_mem_cons.1 h
    have hne : t.isEmpty = false := List.isEmpty_eq_false_iff.2 ht.trimmed.ne_nil
    rw [List.zipIdx_cons, List.filterMap_cons]
    simp only [significant_eq ht, hne, Bool.false_eq_true, if_false, List.map_cons]
    rw [ih htexts]

def labelName (j : Nat) : String := "L" ++ j.repr

def labelText (j : Nat) : List Char := (labelName j).toList ++ [':']

theorem toList_labelName (j : Nat) : (labelName j).toList = 'L' :: Nat.toDigits 10 j := by
  rw [labelName, String.toList_append, Nat.toList_repr]
  rfl

theorem labelName_inj : labelName j = labelName k ↔ j = k := by
  constructor
  · intro h
    have hdigits : Nat.toDigits 10 j = Nat.toDigits 10 k := by
      rw [← String.toList_inj, toList_labelName, toList_labelName] at h
      exact List.tail_eq_of_cons_eq h
    have hsome := ofDigits?_toDigits j
    rw [hdigits, ofDigits?_toDigits] at hsome
    exact (Option.some.inj hsome).symm
  · rintro rfl
    rfl

theorem isIdentifier_labelName (j : Nat) : isIdentifier (labelName j).toList = true := by
  have hdigits := (ofDigits?_eq_some.1 (ofDigits?_toDigits j)).1
  rw [toList_labelName, isIdentifier, Bool.and_eq_true, List.all_eq_true]
  refine ⟨by decide, fun c hc => ?_⟩
  simp [isIdentifierRest, Char.isAlphanum, hdigits.digits c hc]

namespace Instruction

variable {i : Instruction}

def mnemonic : Instruction → String
  | push _ => "push"
  | pop => "pop"
  | dup => "dup"
  | add => "add"
  | sub => "sub"
  | jump _ => "jump"
  | jumpz _ => "jumpz"
  | call _ => "call"
  | ret => "ret"
  | raise _ => "raise"
  | host _ => "host"
  | alloc _ => "alloc"

def operand? : Instruction → Option String
  | push n => some n.toInt.repr
  | jump label | jumpz label => some label
  | call name | host name => some name
  | raise message => some message
  | alloc bytes => some bytes.toNat.repr
  | pop | dup | add | sub | ret => none

def text (i : Instruction) : List Char :=
  match i.operand? with
  | none => i.mnemonic.toList
  | some operand => i.mnemonic.toList ++ ' ' :: operand.toList

/-- The name or the text in an instruction can stand on a line and does not make a label of it. -/
def Writable : Instruction → Prop
  | jump label | jumpz label => isIdentifier label.toList = true
  | call name | host name => isIdentifier name.toList = true
  | raise message => Significant message.toList ∧ message.toList.getLast? ≠ some ':'
  | push _ | pop | dup | add | sub | ret | alloc _ => True

theorem clean_mnemonic (i : Instruction) : Clean i.mnemonic.toList := by
  refine clean_of_isIdentifier ?_
  cases i <;> simp only [mnemonic] <;> decide

theorem head?_natRepr (n : Nat) : n.repr.toList.head? ≠ some '-' ∧ n.repr.toList.head? ≠ some '+' := by
  have hdigits := (ofDigits?_eq_some.1 (ofDigits?_toDigits n)).1
  rw [Nat.toList_repr]
  exact ⟨hdigits.head?_ne rfl, hdigits.head?_ne rfl⟩

theorem head?_intRepr (z : Int) : z.repr.toList.head? ≠ some '+' := by
  cases z with
  | ofNat n => exact (head?_natRepr n).2
  | negSucc n =>
    have hrepr : (Int.negSucc n).repr.toList = '-' :: (n + 1).repr.toList := String.toList_append
    rw [hrepr, List.head?_cons, Ne, Option.some.injEq]
    decide

theorem operand_cases (h : i.Writable) {operand : String} (ho : i.operand? = some operand) :
    Clean operand.toList ∨
      i = .raise operand ∧ Significant operand.toList ∧ operand.toList.getLast? ≠ some ':' := by
  cases i with
  | push n =>
    cases ho
    exact .inl ((numeral_intRepr _).clean (head?_intRepr _))
  | alloc bytes =>
    cases ho
    exact .inl ((numeral_natRepr _).clean (head?_natRepr _).2)
  | jump | jumpz | call | host =>
    cases ho
    exact .inl (clean_of_isIdentifier h)
  | raise message =>
    cases ho
    exact .inr ⟨rfl, h⟩
  | pop | dup | add | sub | ret => cases ho

theorem wordsOf_text_none (ho : i.operand? = none) : wordsOf i.text = [i.mnemonic] := by
  rw [text, ho]
  exact (wordsOf_of_solid i.clean_mnemonic.solid).trans (by rw [String.ofList_toList])

theorem wordsOf_text {operand : String} (ho : i.operand? = some operand) :
    wordsOf i.text = i.mnemonic :: wordsOf operand.toList := by
  have hblank : ∀ c ∈ (' ' :: operand.toList).head?, isBlank c = true := by
    intro c hc
    cases hc
    decide
  rw [text, ho, wordsOf]
  dsimp only
  rw [words_append i.clean_mnemonic.solid hblank, words_cons_blank (by decide), List.map_cons,
    String.ofList_toList, wordsOf]

theorem significant_text (h : i.Writable) : Significant i.text := by
  rw [text]
  cases ho : i.operand? with
  | none => exact i.clean_mnemonic.significant
  | some operand =>
    obtain hclean | ⟨_, hsignificant, _⟩ := operand_cases h ho
    · exact hclean.significant.behind i.clean_mnemonic
    · exact hsignificant.behind i.clean_mnemonic

theorem getLast?_text (h : i.Writable) : i.text.getLast? ≠ some ':' := by
  rw [text]
  cases ho : i.operand? with
  | none => exact i.clean_mnemonic.getLast?_ne
  | some operand =>
    have hlast : operand.toList ≠ [] ∧ operand.toList.getLast? ≠ some ':' := by
      obtain hclean | ⟨_, hsignificant, hlast⟩ := operand_cases h ho
      · exact ⟨hclean.ne_nil, hclean.getLast?_ne⟩
      · exact ⟨hsignificant.trimmed.ne_nil, hlast⟩
    dsimp only
    rw [List.getLast?_append_of_ne_nil _ (List.cons_ne_nil _ _), List.getLast?_cons_of_ne_nil hlast.1]
    exact hlast.2

/-- What is written is read back. -/
theorem read?_text (h : i.Writable) : read? i.text = some i := by
  have hword : ∀ {operand : String}, i.operand? = some operand → Clean operand.toList →
      wordsOf i.text = [i.mnemonic, operand] := fun {operand} ho hclean => by
    rw [wordsOf_text ho, wordsOf_of_solid hclean.solid, String.ofList_toList]
  unfold read?
  cases i with
  | push n =>
    have hsigned : signed? 64 n.toInt.repr.toList = some n.toInt :=
      signed?_eq_some.2 ⟨numeral_intRepr _, n.le_toInt, n.toInt_lt⟩
    rw [hword rfl ((numeral_intRepr _).clean (head?_intRepr _))]
    simp only [mnemonic, hsigned, Option.map_some, Int64.ofInt_toInt]
  | alloc bytes =>
    have hunsigned : unsigned? 64 bytes.toNat.repr.toList = some bytes.toNat :=
      unsigned?_eq_some.2 ⟨numeral_natRepr _, (head?_natRepr _).1, bytes.toNat_lt⟩
    rw [hword rfl ((numeral_natRepr _).clean (head?_natRepr _).2)]
    simp only [mnemonic, hunsigned, Option.map_some, UInt64.ofNat_toNat]
  | jump label | jumpz label | call label =>
    rw [hword rfl (clean_of_isIdentifier h)]
    rfl
  | host name =>
    have hidentifier : isIdentifier name.toList = true := h
    rw [hword rfl (clean_of_isIdentifier h)]
    simp only [mnemonic, hidentifier, if_true]
  | raise message =>
    have htrimmed : Trimmed message.toList := h.1.trimmed
    obtain ⟨word, rest, hwords⟩ := List.exists_cons_of_ne_nil (wordsOf_ne_nil htrimmed)
    have htrim : trim ((raise message).text.drop "raise".length) = message.toList := by
      have htext : (raise message).text = "raise".toList ++ ' ' :: message.toList := rfl
      rw [htext, ← String.length_toList, List.drop_left, trim, trimStart,
        List.dropWhile_cons_of_pos (by decide)]
      exact htrimmed.trim_eq
    rw [wordsOf_text (i := raise message) rfl, hwords]
    simp only [mnemonic, htrim, String.ofList_toList]
  | pop | dup | add | sub | ret =>
    rw [wordsOf_text_none rfl]
    rfl

end Instruction

theorem plain_of_words {word : String} {rest : List String} (h : l.words = word :: rest)
    (hfn : word ≠ "fn") (hend : word ≠ "end") : l.plain = true := by
  simp [Line.plain, Line.opens, Line.closes, h, hfn, hend]

theorem clean_labelName (j : Nat) : Clean (labelName j).toList :=
  clean_of_isIdentifier (isIdentifier_labelName j)

theorem significant_labelText (j : Nat) : Significant (labelText j) := (clean_labelName j).significant_colon

theorem plain_of_labelText (h : l.text = labelText j) : l.plain = true := by
  have hwords : l.words = [String.ofList (labelText j)] := by
    change wordsOf l.text = [String.ofList (labelText j)]
    rw [h]
    exact wordsOf_of_solid (clean_labelName j).solid_colon
  -- a keyword does not end with a colon
  refine plain_of_words hwords (fun heq => ?_) fun heq => ?_
  all_goals
    have hlast := congrArg (fun s : String => s.toList.getLast?) heq
    simp only [String.toList_ofList, labelText, List.getLast?_concat] at hlast
    revert hlast
    decide

theorem plain_of_instruction {i : Instruction} (h : l.text = i.text) : l.plain = true := by
  have hwords : ∃ rest, wordsOf l.text = i.mnemonic :: rest := by
    rw [h]
    cases ho : i.operand? with
    | none => exact ⟨[], Instruction.wordsOf_text_none ho⟩
    | some operand => exact ⟨_, Instruction.wordsOf_text ho⟩
  obtain ⟨rest, hwords⟩ := hwords
  refine plain_of_words hwords ?_ ?_
  all_goals
    cases i <;> simp only [Instruction.mnemonic] <;> decide

end Source

end TaskLoop
