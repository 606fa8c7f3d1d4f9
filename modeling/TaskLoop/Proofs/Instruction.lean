import TaskLoop.Proofs.Words

namespace TaskLoop.Text

variable {s : List Char} {c : Char} {n : Nat} {z : Int}

structure Digits (s : List Char) : Prop where
  ne_nil : s ≠ []
  digits : ∀ c ∈ s, c.isDigit = true

def number (s : List Char) : Nat := Nat.ofDigits 10 (s.reverse.map digitValue)

inductive Numeral : List Char → Int → Prop
  | plain {s : List Char} (digits : Digits s) : Numeral s (number s)
  | plus {s : List Char} (digits : Digits s) : Numeral ('+' :: s) (number s)
  | minus {s : List Char} (digits : Digits s) : Numeral ('-' :: s) (-(number s : Int))

theorem ofDigits?_eq_some : ofDigits? s = some n ↔ Digits s ∧ number s = n := by
  have hvalue : s.foldl (fun n c => 10 * n + digitValue c) 0 = number s := by
    rw [number, Nat.ofDigits_eq_foldr, List.foldr_map, List.foldr_reverse]
    simp only [Nat.cast_id, Nat.add_comm]
  have hdigits : (s ≠ [] ∧ s.all Char.isDigit = true) ↔ Digits s :=
    ⟨fun h => ⟨h.1, List.all_eq_true.1 h.2⟩, fun h => ⟨h.ne_nil, List.all_eq_true.2 h.digits⟩⟩
  rw [ofDigits?, hvalue]
  by_cases h : Digits s
  · rw [if_pos (hdigits.2 h), Option.some.injEq]
    exact ⟨fun hn => ⟨h, hn⟩, fun hn => hn.2⟩
  · rw [if_neg fun hall => h (hdigits.1 hall)]
    exact ⟨fun hn => absurd hn.symm (Option.some_ne_none n), fun hn => absurd hn.1 h⟩

theorem Digits.head?_ne (h : Digits s) (hc : c.isDigit = false) : s.head? ≠ some c := fun hhead => by
  rw [h.digits c (List.mem_of_mem_head? hhead)] at hc
  cases hc

theorem numeral_cons_plus : Numeral ('+' :: s) z ↔ Digits s ∧ (number s : Int) = z := by
  constructor
  · rintro (hdigits | hdigits | _)
    · exact absurd rfl (hdigits.head?_ne (c := '+') rfl)
    · exact ⟨hdigits, rfl⟩
  · rintro ⟨hdigits, rfl⟩
    exact .plus hdigits

theorem numeral_cons_minus : Numeral ('-' :: s) z ↔ Digits s ∧ -(number s : Int) = z := by
  constructor
  · rintro (hdigits | _ | hdigits)
    · exact absurd rfl (hdigits.head?_ne (c := '-') rfl)
    · exact ⟨hdigits, rfl⟩
  · rintro ⟨hdigits, rfl⟩
    exact .minus hdigits

theorem numeral_iff (hplus : s.head? ≠ some '+') (hminus : s.head? ≠ some '-') :
    Numeral s z ↔ Digits s ∧ (number s : Int) = z := by
  constructor
  · rintro (hdigits | _ | _)
    · exact ⟨hdigits, rfl⟩
    · exact absurd rfl hplus
    · exact absurd rfl hminus
  · rintro ⟨hdigits, rfl⟩
    exact .plain hdigits

theorem head?_ne_of_forall (h : ∀ rest, s = c :: rest → False) : s.head? ≠ some c := fun hhead => by
  obtain ⟨rest, hs⟩ := List.head?_eq_some_iff.1 hhead
  exact h rest hs

theorem filter_ofDigits? {p : Nat → Bool} :
    (ofDigits? s).filter p = some n ↔ Digits s ∧ number s = n ∧ p n = true := by
  rw [Option.filter_eq_some_iff, ofDigits?_eq_some, and_assoc]

theorem map_filter_ofDigits? : ((ofDigits? s).filter (· < 2 ^ 63)).map Int.ofNat = some z ↔
    (Digits s ∧ (number s : Int) = z) ∧ -2 ^ 63 ≤ z ∧ z < 2 ^ 63 := by
  simp only [Option.map_eq_some_iff, filter_ofDigits?, decide_eq_true_eq]
  constructor
  · rintro ⟨n, ⟨hdigits, rfl, hlt⟩, rfl⟩
    have hlt' : (number s : Int) < 2 ^ 63 := by exact_mod_cast hlt
    have hpos : (0 : Int) ≤ number s := Int.natCast_nonneg _
    exact ⟨⟨hdigits, rfl⟩, by rw [Int.ofNat_eq_natCast]; omega, hlt'⟩
  · rintro ⟨⟨hdigits, rfl⟩, _, hlt⟩
    exact ⟨number s, ⟨hdigits, rfl, by exact_mod_cast hlt⟩, rfl⟩

/-- The integers of 64 bits are read from the numerals that denote them. -/
theorem signed?_eq_some : signed? 64 s = some z ↔ Numeral s z ∧ -2 ^ 63 ≤ z ∧ z < 2 ^ 63 := by
  have hbound : 1 <<< (64 - 1) = 2 ^ 63 := rfl
  have hlift : ∀ o : Option Nat, (do let n ← o; pure (n : Int)) = o.map Int.ofNat := fun o => by
    cases o <;> rfl
  unfold signed?
  rw [hbound]
  split
  · next rest =>
    rw [numeral_cons_minus, hlift]
    simp only [Option.map_eq_some_iff, filter_ofDigits?, decide_eq_true_eq]
    constructor
    · rintro ⟨_, ⟨n, ⟨hdigits, rfl, hle⟩, rfl⟩, rfl⟩
      rw [Int.ofNat_eq_natCast]
      exact ⟨⟨hdigits, rfl⟩, by omega, by omega⟩
    · rintro ⟨⟨hdigits, rfl⟩, hlow, _⟩
      exact ⟨number rest, ⟨number rest, ⟨hdigits, rfl, by omega⟩, rfl⟩, rfl⟩
  · rw [numeral_cons_plus]
    exact map_filter_ofDigits?
  · next hminus hplus =>
    rw [numeral_iff (head?_ne_of_forall hplus) (head?_ne_of_forall hminus)]
    exact map_filter_ofDigits?

/-- The words of 64 bits are read from the numerals without a minus sign that denote them. -/
theorem unsigned?_eq_some :
    unsigned? 64 s = some n ↔ Numeral s n ∧ s.head? ≠ some '-' ∧ n < 2 ^ 64 := by
  have hbound : 1 <<< 64 = 2 ^ 64 := rfl
  unfold unsigned?
  rw [hbound]
  dsimp only
  rw [filter_ofDigits?, decide_eq_true_eq]
  split
  · next rest =>
    rw [numeral_cons_plus, Int.natCast_inj]
    simp [and_assoc]
  · next hplus =>
    by_cases hminus : s.head? = some '-'
    · refine iff_of_false (fun h => ?_) fun h => h.2.1 hminus
      exact h.1.head?_ne (c := '-') rfl hminus
    · rw [numeral_iff (head?_ne_of_forall hplus) hminus, Int.natCast_inj]
      simp [and_assoc, hminus]

theorem isBlank_eq_false (hlow : 33 ≤ c.toNat) (hhigh : c.toNat ≤ 126) : isBlank c = false := by
  unfold isBlank
  simp only [Bool.or_eq_false_iff, Bool.and_eq_false_iff, decide_eq_false_iff_not, beq_eq_false_iff_ne]
  omega

theorem isBlank_of_isDigit (h : c.isDigit = true) : isBlank c = false := by
  simp only [Char.isDigit, Bool.and_eq_true, decide_eq_true_eq, ge_iff_le,
    UInt32.le_iff_toNat_le] at h
  exact isBlank_eq_false (Nat.le_trans (by decide) h.1) (Nat.le_trans h.2 (by decide))

theorem isBlank_of_isAlpha (h : c.isAlpha = true) : isBlank c = false := by
  simp only [Char.isAlpha, Char.isUpper, Char.isLower, Bool.or_eq_true, Bool.and_eq_true,
    decide_eq_true_eq, ge_iff_le, UInt32.le_iff_toNat_le] at h
  rcases h with h | h
  · exact isBlank_eq_false (Nat.le_trans (by decide) h.1) (Nat.le_trans h.2 (by decide))
  · exact isBlank_eq_false (Nat.le_trans (by decide) h.1) (Nat.le_trans h.2 (by decide))

theorem isBlank_of_isIdentifierRest (h : isIdentifierRest c = true) : isBlank c = false := by
  simp only [isIdentifierRest, Char.isAlphanum, Bool.or_eq_true, beq_iff_eq] at h
  obtain (h | h) | rfl := h
  · exact isBlank_of_isAlpha h
  · exact isBlank_of_isDigit h
  · decide

theorem isBlank_of_isIdentifierStart (h : isIdentifierStart c = true) : isBlank c = false := by
  simp only [isIdentifierStart, Bool.or_eq_true, beq_iff_eq] at h
  obtain h | rfl := h
  · exact isBlank_of_isAlpha h
  · decide

theorem Numeral.solid (h : Numeral s z) : Solid s := by
  have hdigits : ∀ {s : List Char}, Digits s → ∀ c ∈ s, isBlank c = false :=
    fun h c hc => isBlank_of_isDigit (h.digits c hc)
  cases h with
  | plain digits => exact ⟨digits.ne_nil, hdigits digits⟩
  | plus digits => exact ⟨List.cons_ne_nil _ _, List.forall_mem_cons.2 ⟨by decide, hdigits digits⟩⟩
  | minus digits => exact ⟨List.cons_ne_nil _ _, List.forall_mem_cons.2 ⟨by decide, hdigits digits⟩⟩

theorem solid_of_isIdentifier (h : isIdentifier s = true) : Solid s := by
  cases s with
  | nil => cases h
  | cons c cs =>
    rw [isIdentifier, Bool.and_eq_true, List.all_eq_true] at h
    refine ⟨List.cons_ne_nil _ _, List.forall_mem_cons.2 ⟨?_, fun c hc => ?_⟩⟩
    · exact isBlank_of_isIdentifierStart h.1
    · exact isBlank_of_isIdentifierRest (h.2 c hc)

end TaskLoop.Text

namespace TaskLoop.Source

open Text

variable {text : List Char} {m o : String} {scope : Scope} {op : Op}

inductive Instruction where
  | push (n : Int64)
  | pop
  | dup
  | add
  | sub
  | jump (label : String)
  | jumpz (label : String)
  | call (name : String)
  | ret
  | raise (message : String)
  | host (name : String)
  | alloc (bytes : UInt64)
deriving DecidableEq, Repr

namespace Instruction

/-- Reads an instruction line from its words. The message of `raise` is all the text behind it. -/
def read? (text : List Char) : Option Instruction :=
  match wordsOf text with
  | ["push", literal] => (signed? 64 literal.toList).map fun n => push (Int64.ofInt n)
  | ["pop"] => some pop
  | ["dup"] => some dup
  | ["add"] => some add
  | ["sub"] => some sub
  | ["jump", label] => some (jump label)
  | ["jumpz", label] => some (jumpz label)
  | ["call", name] => some (call name)
  | ["ret"] => some ret
  | "raise" :: _ :: _ => some (raise (String.ofList (trim (text.drop "raise".length))))
  | ["host", name] => if isIdentifier name.toList then some (host name) else none
  | ["alloc", literal] => (unsigned? 64 literal.toList).map fun n => alloc (UInt64.ofNat n)
  | _ => none

def resolve? (scope : Scope) : Instruction → Option Op
  | push n => some (.push n)
  | pop => some .pop
  | dup => some .dup
  | add => some .add
  | sub => some .sub
  | jump label => (scope.label? label).map .jump
  | jumpz label => (scope.label? label).map .jumpz
  | call name => (scope.function? name).map .call
  | ret => some .ret
  | raise message => some (.raise message)
  | host name => some (.host name)
  | alloc bytes => some (.alloc bytes)

end Instruction

structure Scope.Proper (scope : Scope) : Prop where
  label : ∀ name, (scope.label? name).isSome = true → Solid name.toList
  function : ∀ name, (scope.function? name).isSome = true → Solid name.toList

theorem operand?_eq_trim_drop (ho : operand? text = some o) :
    o = String.ofList (trim (text.drop (mnemonic text).length)) := by
  have happend := List.takeWhile_append_dropWhile (p := (!isBlank ·)) (l := text)
  unfold operand? at ho
  split at ho
  · cases ho
  · next b rest hrest =>
    have hb := isBlank_of_dropWhile hrest
    have hdrop : text.drop (mnemonic text).length = b :: rest := by
      rw [mnemonic, String.length_ofList]
      nth_rewrite 2 [← happend]
      rw [List.drop_left, hrest]
    rw [hdrop, trim, trimStart, List.dropWhile_cons_of_pos hb]
    exact (Option.some.inj ho).symm

theorem bare_eq_ok {m : String} {op' : Op} (h : Trimmed text) (hm : mnemonic text = m) :
    bare m op' (operand? text) = .ok op ↔ wordsOf text = [m] ∧ op' = op := by
  rw [wordsOf_eq_one h]
  cases operand? text with
  | none => simp [bare, hm]
  | some o => simp [bare]

/-- An instruction reads an operand of one word, if it accepts no others. -/
theorem reading_eq_ok {m : String} {read : String → Except Fault Op} (h : Trimmed text)
    (hm : mnemonic text = m) (hsolid : ∀ o, read o = .ok op → Solid o.toList) :
    reading m read (operand? text) = .ok op ↔ ∃ o, wordsOf text = [m, o] ∧ read o = .ok op := by
  simp only [wordsOf_eq_two h]
  cases operand? text with
  | none => simp [reading]
  | some o =>
    rw [reading]
    constructor
    · intro hread
      exact ⟨o, ⟨hm, rfl, hsolid o hread⟩, hread⟩
    · rintro ⟨_, ⟨_, ⟨⟩, _⟩, hread⟩
      exact hread

theorem readPush_eq_ok : readPush o = .ok op ↔
    ∃ n, signed? 64 o.toList = some n ∧ .push (Int64.ofInt n) = op := by
  unfold readPush
  cases signed? 64 o.toList <;> simp

theorem readAlloc_eq_ok : readAlloc o = .ok op ↔
    ∃ n, unsigned? 64 o.toList = some n ∧ .alloc (UInt64.ofNat n) = op := by
  unfold readAlloc
  cases unsigned? 64 o.toList <;> simp

theorem readHost_eq_ok : readHost o = .ok op ↔ isIdentifier o.toList = true ∧ .host o = op := by
  unfold readHost
  by_cases h : isIdentifier o.toList = true <;> simp [h]

theorem readJump_eq_ok {f : Nat → Op} : readJump scope f o = .ok op ↔
    ∃ target, scope.label? o = some target ∧ f target = op := by
  unfold readJump
  cases scope.label? o <;> simp

theorem readCall_eq_ok : readCall scope o = .ok op ↔
    ∃ function, scope.function? o = some function ∧ .call function = op := by
  unfold readCall
  cases scope.function? o <;> simp

theorem solid_of_readPush (h : readPush o = .ok op) : Solid o.toList := by
  obtain ⟨n, hn, _⟩ := readPush_eq_ok.1 h
  exact (signed?_eq_some.1 hn).1.solid

theorem solid_of_readAlloc (h : readAlloc o = .ok op) : Solid o.toList := by
  obtain ⟨n, hn, _⟩ := readAlloc_eq_ok.1 h
  exact (unsigned?_eq_some.1 hn).1.solid

theorem solid_of_readHost (h : readHost o = .ok op) : Solid o.toList :=
  solid_of_isIdentifier (readHost_eq_ok.1 h).1

theorem Scope.Proper.solid_of_readJump (hscope : scope.Proper) {f : Nat → Op}
    (h : readJump scope f o = .ok op) : Solid o.toList := by
  obtain ⟨target, ht, _⟩ := readJump_eq_ok.1 h
  exact hscope.label o (by rw [ht]; rfl)

theorem Scope.Proper.solid_of_readCall (hscope : scope.Proper) (h : readCall scope o = .ok op) :
    Solid o.toList := by
  obtain ⟨function, hf, _⟩ := readCall_eq_ok.1 h
  exact hscope.function o (by rw [hf]; rfl)

theorem exists_read?_of_compileOp (h : Trimmed text) (hscope : scope.Proper)
    (hop : compileOp scope text = .ok op) :
    ∃ i, Instruction.read? text = some i ∧ i.resolve? scope = some op := by
  unfold compileOp at hop
  dsimp only at hop
  unfold Instruction.read?
  split at hop
  case h_1 hm =>
    obtain ⟨o, hwords, hread⟩ := (reading_eq_ok h hm fun _ => solid_of_readPush).1 hop
    obtain ⟨n, hn, hop'⟩ := readPush_eq_ok.1 hread
    simp [hwords, hn, Instruction.resolve?, hop']
  case h_2 hm | h_3 hm | h_4 hm | h_5 hm | h_6 hm =>
    obtain ⟨hwords, hop'⟩ := (bare_eq_ok h hm).1 hop
    simp [hwords, Instruction.resolve?, hop']
  case h_7 hm | h_8 hm =>
    obtain ⟨o, hwords, hread⟩ := (reading_eq_ok h hm fun _ => hscope.solid_of_readJump).1 hop
    obtain ⟨target, ht, hop'⟩ := readJump_eq_ok.1 hread
    simp [hwords, ht, Instruction.resolve?, hop']
  case h_9 hm =>
    obtain ⟨o, hwords, hread⟩ := (reading_eq_ok h hm fun _ => hscope.solid_of_readCall).1 hop
    obtain ⟨function, hf, hop'⟩ := readCall_eq_ok.1 hread
    simp [hwords, hf, Instruction.resolve?, hop']
  case h_10 hm =>
    cases ho : operand? text with
    | none => simp [ho, reading] at hop
    | some o =>
      obtain ⟨word, rest, hwords⟩ := (wordsOf_eq_cons_cons h).2 ⟨hm, o, ho⟩
      have hdrop := operand?_eq_trim_drop ho
      rw [hm] at hdrop
      rw [ho, reading, Except.ok.injEq] at hop
      simp [hwords, Instruction.resolve?, ← hdrop, hop]
  case h_11 hm =>
    obtain ⟨o, hwords, hread⟩ := (reading_eq_ok h hm fun _ => solid_of_readHost).1 hop
    obtain ⟨hidentifier, hop'⟩ := readHost_eq_ok.1 hread
    simp [hwords, hidentifier, Instruction.resolve?, hop']
  case h_12 hm =>
    obtain ⟨o, hwords, hread⟩ := (reading_eq_ok h hm fun _ => solid_of_readAlloc).1 hop
    obtain ⟨n, hn, hop'⟩ := readAlloc_eq_ok.1 hread
    simp [hwords, hn, Instruction.resolve?, hop']
  case h_13 => cases hop

theorem compileOp_of_read? (h : Trimmed text) {i : Instruction}
    (hread : Instruction.read? text = some i) (hop : i.resolve? scope = some op) :
    compileOp scope text = .ok op := by
  unfold Instruction.read? at hread
  unfold compileOp
  split at hread
  case h_1 literal hwords =>
    obtain ⟨hm, ho, _⟩ := (wordsOf_eq_two h).1 hwords
    obtain ⟨n, hn, rfl⟩ := Option.map_eq_some_iff.1 hread
    simp only [hm, ho, reading]
    exact readPush_eq_ok.2 ⟨n, hn, Option.some.inj hop⟩
  case h_2 hwords | h_3 hwords | h_4 hwords | h_5 hwords | h_9 hwords =>
    obtain ⟨hm, ho⟩ := (wordsOf_eq_one h).1 hwords
    cases hread
    cases hop
    simp only [hm, ho, bare]
  case h_6 label hwords | h_7 label hwords =>
    obtain ⟨hm, ho, _⟩ := (wordsOf_eq_two h).1 hwords
    cases hread
    simp only [hm, ho, reading]
    exact readJump_eq_ok.2 (Option.map_eq_some_iff.1 hop)
  case h_8 name hwords =>
    obtain ⟨hm, ho, _⟩ := (wordsOf_eq_two h).1 hwords
    cases hread
    simp only [hm, ho, reading]
    exact readCall_eq_ok.2 (Option.map_eq_some_iff.1 hop)
  case h_10 word rest hwords =>
    obtain ⟨hm, o, ho⟩ := (wordsOf_eq_cons_cons h).1 ⟨word, rest, hwords⟩
    have hdrop := operand?_eq_trim_drop ho
    rw [hm] at hdrop
    cases hread
    cases hop
    simp only [hm, ho, reading, ← hdrop]
  case h_11 name hwords =>
    obtain ⟨hm, ho, _⟩ := (wordsOf_eq_two h).1 hwords
    obtain ⟨hidentifier, hi⟩ := Option.ite_none_right_eq_some.1 hread
    cases hi
    simp only [hm, ho, reading]
    exact readHost_eq_ok.2 ⟨hidentifier, Option.some.inj hop⟩
  case h_12 literal hwords =>
    obtain ⟨hm, ho, _⟩ := (wordsOf_eq_two h).1 hwords
    obtain ⟨n, hn, rfl⟩ := Option.map_eq_some_iff.1 hread
    simp only [hm, ho, reading]
    exact readAlloc_eq_ok.2 ⟨n, hn, Option.some.inj hop⟩
  case h_13 => cases hread

/-- A line compiles if it says an instruction whose name, if it has one, leads somewhere. -/
theorem compileOp_eq_ok (h : Trimmed text) (hscope : scope.Proper) :
    compileOp scope text = .ok op ↔
      ∃ i, Instruction.read? text = some i ∧ i.resolve? scope = some op := by
  constructor
  · exact exists_read?_of_compileOp h hscope
  · rintro ⟨i, hread, hop⟩
    exact compileOp_of_read? h hread hop

end TaskLoop.Source
