import TaskLoop.Json.Value
import TaskLoop.Proofs.Instruction

namespace TaskLoop.Json

open Text (Digits number)

variable {s t : List Char} {c : Char} {ts ts' : List Token} {v : Value}

def blanks : List Char := [' ', '\t', '\n', '\r']

def Spaces (s : List Char) : Prop := ∀ c ∈ s, c ∈ blanks

structure WholeText (s : List Char) : Prop where
  digits : Digits s
  leading : s = ['0'] ∨ s.head? ≠ some '0'

def FractionText (s : List Char) : Prop := s = [] ∨ ∃ digits, s = '.' :: digits ∧ Digits digits

def ExponentText (s : List Char) : Prop :=
  s = [] ∨ ∃ mark sign digits, s = mark :: (sign ++ digits) ∧ mark ∈ ['e', 'E'] ∧
    sign ∈ [[], ['+'], ['-']] ∧ Digits digits

inductive NumberText : List Char → Number → Prop
  | mk (negative : Bool) {whole fraction exponent : List Char} (hwhole : WholeText whole)
      (hfraction : FractionText fraction) (hexponent : ExponentText exponent) :
      NumberText ((if negative then ['-'] else []) ++ (whole ++ (fraction ++ exponent)))
        ⟨negative, number whole, fraction.isEmpty && exponent.isEmpty⟩

def shortEscapes : List (Char × Char) :=
  [('"', '"'), ('\\', '\\'), ('/', '/'), ('b', '\x08'), ('f', '\x0c'), ('n', '\n'), ('r', '\r'),
    ('t', '\t')]

def HexText (c : Char) (n : Nat) : Prop :=
  "0123456789abcdef".toList[n]? = some c ∨ "0123456789ABCDEF".toList[n]? = some c

inductive UnitText : List Char → StringUnit → Prop
  | plain {c : Char} (control : 0x20 ≤ c.toNat) (quote : c ≠ '"') (escape : c ≠ '\\') :
      UnitText [c] (.char c)
  | short {letter c : Char} (mem : (letter, c) ∈ shortEscapes) : UnitText ['\\', letter] (.char c)
  | code {c₃ c₂ c₁ c₀ : Char} {d₃ d₂ d₁ d₀ : Nat} (h₃ : HexText c₃ d₃) (h₂ : HexText c₂ d₂)
      (h₁ : HexText c₁ d₁) (h₀ : HexText c₀ d₀) :
      UnitText ['\\', 'u', c₃, c₂, c₁, c₀] (.ofCode (16 * (16 * (16 * d₃ + d₂) + d₁) + d₀))

inductive UnitsText : List Char → List StringUnit → Prop
  | nil : UnitsText [] []
  | cons {s t : List Char} {u : StringUnit} {us : List StringUnit} (unit : UnitText s u)
      (rest : UnitsText t us) : UnitsText (s ++ t) (u :: us)

def StringText (s : List Char) (units : List StringUnit) : Prop :=
  ∃ inner, s = '"' :: (inner ++ ['"']) ∧ UnitsText inner units

structure Item where
  before : List Char
  text : List Char
  after : List Char
  value : Value

structure Member where
  before : List Char
  key : List Char
  after : List Char
  units : List StringUnit
  item : Item

def Item.padded (i : Item) : List Char := i.before ++ (i.text ++ i.after)

def Member.padded (m : Member) : List Char :=
  m.before ++ (m.key ++ (m.after ++ ':' :: m.item.padded))

def commas (texts : List (List Char)) : List Char := [','].intercalate texts

inductive ValueText : List Char → Value → Prop
  | null : ValueText "null".toList .null
  | bool (b : Bool) : ValueText (if b then "true".toList else "false".toList) (.bool b)
  | number {s : List Char} {n : Number} (text : NumberText s n) : ValueText s (.number n)
  | string {s : List Char} {units : List StringUnit} (text : StringText s units) :
      ValueText s (.string units)
  | noItems {s : List Char} (spaces : Spaces s) : ValueText ('[' :: (s ++ [']'])) (.array [])
  | array {items : List Item} (some : items ≠ [])
      (spaces : ∀ i ∈ items, Spaces i.before ∧ Spaces i.after)
      (values : ∀ i ∈ items, ValueText i.text i.value) :
      ValueText ('[' :: (commas (items.map (·.padded)) ++ [']'])) (.array (items.map (·.value)))
  | noMembers {s : List Char} (spaces : Spaces s) :
      ValueText ('\x7b' :: (s ++ ['\x7d'])) (.object [])
  | object {members : List Member} (some : members ≠ [])
      (spaces : ∀ m ∈ members, Spaces m.before ∧ Spaces m.after ∧ Spaces m.item.before ∧
        Spaces m.item.after)
      (keys : ∀ m ∈ members, StringText m.key m.units)
      (values : ∀ m ∈ members, ValueText m.item.text m.item.value) :
      ValueText ('\x7b' :: (commas (members.map (·.padded)) ++ ['\x7d']))
        (.object (members.map fun m => (m.units, m.item.value)))

def Spells (text : List Char) (v : Value) : Prop :=
  ∃ before s after, text = before ++ (s ++ after) ∧ Spaces before ∧ ValueText s v ∧ Spaces after

def delimiters : List Char := blanks ++ [',', ':', ']', '\x7d']

structure Scanner.Settled (ts : List Token) (s : Scanner) : Prop where
  finish : s.finish? = some ⟨ts, .between⟩
  feed : ∀ c ∈ delimiters, s.feed? c = Scanner.begin? ⟨ts, .between⟩ c

/-- The text adds the tokens, and the next one may begin. -/
def Opens (s : List Char) (ts : List Token) : Prop :=
  ∀ done, s.foldlM Scanner.feed? ⟨done, .between⟩ = some ⟨ts.reverse ++ done, .between⟩

def Scans (s : List Char) (ts : List Token) : Prop :=
  ∀ done, ∃ scanner, s.foldlM Scanner.feed? ⟨done, .between⟩ = some scanner ∧
    scanner.Settled (ts.reverse ++ done)

theorem Scanner.settled_between (ts : List Token) : Scanner.Settled ts ⟨ts, .between⟩ :=
  ⟨rfl, fun _ _ => rfl⟩

theorem opens_nil : Opens [] [] := fun _ => rfl

theorem Opens.scans (h : Opens s ts) : Scans s ts := fun done => ⟨_, h done, Scanner.settled_between _⟩

theorem Opens.append_scans (h : Opens s ts) (ht : Scans t ts') : Scans (s ++ t) (ts ++ ts') :=
  fun done => by
    rw [List.foldlM_append, h done, List.reverse_append, List.append_assoc]
    exact ht _

theorem Scans.mark {token : Token} (h : Scans s ts) (hc : c ∈ delimiters)
    (hmark : ∀ done, Scanner.begin? ⟨done, .between⟩ c = some ⟨token :: done, .between⟩) :
    Opens (s ++ [c]) (ts ++ [token]) := fun done => by
  obtain ⟨scanner, hscan, hsettled⟩ := h done
  rw [List.foldlM_append, hscan, Option.bind_eq_bind, Option.bind_some, List.foldlM_cons, hsettled.feed c hc,
    hmark, List.reverse_append]
  rfl

theorem begin?_space (hc : c ∈ blanks) (done : List Token) :
    Scanner.begin? ⟨done, .between⟩ c = some ⟨done, .between⟩ := by
  simp only [blanks, List.mem_cons, List.not_mem_nil, or_false] at hc
  obtain rfl | rfl | rfl | rfl := hc <;> rfl

theorem opens_spaces (h : Spaces s) : Opens s [] := by
  intro done
  induction s with
  | nil => rfl
  | cons c s ih =>
    obtain ⟨hc, hs⟩ := List.forall_mem_cons.1 h
    rw [List.foldlM_cons, Scanner.feed?, begin?_space hc]
    exact ih hs

theorem Scans.append_spaces (h : Scans s ts) (ht : Spaces t) : Scans (s ++ t) ts := by
  cases t with
  | nil => rwa [List.append_nil]
  | cons c t =>
    intro done
    obtain ⟨hc, ht⟩ := List.forall_mem_cons.1 ht
    obtain ⟨scanner, hscan, hsettled⟩ := h done
    rw [List.foldlM_append, hscan, Option.bind_eq_bind, Option.bind_some, List.foldlM_cons,
      hsettled.feed c (List.mem_append_left _ hc), begin?_space hc]
    exact (opens_spaces ht).scans _

theorem Scans.pad {before after : List Char} (h : Scans s ts) (hbefore : Spaces before)
    (hafter : Spaces after) : Scans (before ++ (s ++ after)) ts :=
  (opens_spaces hbefore).append_scans (h.append_spaces hafter)

def continues (c : Char) : Bool := isLetter c || c.isDigit || c ∈ ['.', 'E', '+', '-']

theorem not_continues (hc : c ∈ delimiters) : continues c = false := by
  have hall : delimiters.all (!continues ·) = true := rfl
  simpa using List.all_eq_true.1 hall c hc

/-- A word that stands for a token ends at a delimiter. -/
theorem settled_word {letters : List Char} {token : Token} (h : word? letters.reverse = some token)
    (done : List Token) : Scanner.Settled (token :: done) ⟨done, .word letters⟩ := by
  have hfinish : Scanner.finish? ⟨done, .word letters⟩ = some ⟨token :: done, .between⟩ := by
    simp [Scanner.finish?, h, Scanner.emit]
  refine ⟨hfinish, fun c hc => ?_⟩
  have hletter : isLetter c = false := by
    have hcontinues := not_continues hc
    simp only [continues, Bool.or_eq_false_iff] at hcontinues
    exact hcontinues.1.1
  simp only [Scanner.feed?, hletter, hfinish]
  rfl

theorem scans_null : Scans "null".toList [.null] := fun done => ⟨_, rfl, settled_word rfl done⟩

theorem scans_bool (b : Bool) : Scans (if b then "true".toList else "false".toList) [.bool b] := by
  cases b with
  | true => exact fun done => ⟨_, rfl, settled_word rfl done⟩
  | false => exact fun done => ⟨_, rfl, settled_word rfl done⟩

theorem hexDigit?_of_hexText {n : Nat} (h : HexText c n) : hexDigit? c = some n := by
  have hn : n < 16 := by
    obtain h | h := h
    all_goals
      obtain ⟨hlt, -⟩ := List.getElem?_eq_some_iff.1 h
      exact hlt
  unfold HexText at h
  interval_cases n
  all_goals
    obtain h | h := h <;> cases h <;> rfl

theorem foldlM_unit {u : StringUnit} (h : UnitText s u) (done : List Token) (units : List StringUnit) :
    s.foldlM Scanner.feed? ⟨done, .string units⟩ = some ⟨done, .string (u :: units)⟩ := by
  cases h with
  | plain control quote escape =>
    simp [Scanner.feed?, quote, escape, Nat.not_lt.2 control]
  | short mem =>
    simp only [shortEscapes, List.mem_cons, Prod.mk.injEq, List.not_mem_nil, or_false] at mem
    rcases mem with ⟨rfl, rfl⟩ | ⟨rfl, rfl⟩ | ⟨rfl, rfl⟩ | ⟨rfl, rfl⟩ | ⟨rfl, rfl⟩ | ⟨rfl, rfl⟩ |
      ⟨rfl, rfl⟩ | ⟨rfl, rfl⟩
    all_goals rfl
  | code h₃ h₂ h₁ h₀ =>
    simp [Scanner.feed?, hexDigit?_of_hexText h₃, hexDigit?_of_hexText h₂, hexDigit?_of_hexText h₁,
      hexDigit?_of_hexText h₀]

theorem foldlM_units {us : List StringUnit} (h : UnitsText s us) (done : List Token)
    (units : List StringUnit) :
    s.foldlM Scanner.feed? ⟨done, .string units⟩ = some ⟨done, .string (us.reverse ++ units)⟩ := by
  induction h generalizing units with
  | nil => rfl
  | cons unit rest ih =>
    rw [List.foldlM_append, foldlM_unit unit, Option.bind_eq_bind, Option.bind_some, ih]
    simp

theorem opens_string {units : List StringUnit} (h : StringText s units) : Opens s [.string units] := by
  obtain ⟨inner, rfl, hinner⟩ := h
  intro done
  rw [List.foldlM_cons]
  change (inner ++ ['"']).foldlM Scanner.feed? ⟨done, .string []⟩ = _
  rw [List.foldlM_append, foldlM_units hinner, List.append_nil]
  simp [Scanner.feed?, Scanner.emit]

/-- A complete number ends at a delimiter. -/
theorem settled_number {part : NumberPart} (h : part.complete = true) (n : Number) (done : List Token) :
    Scanner.Settled (.number n :: done) ⟨done, .number part n⟩ := by
  have hfinish : Scanner.finish? ⟨done, .number part n⟩ = some ⟨.number n :: done, .between⟩ := by
    simp [Scanner.finish?, h, Scanner.emit]
  refine ⟨hfinish, fun c hc => ?_⟩
  have hextend : extend? part n c = none := by
    have hcontinues := not_continues hc
    simp only [continues, Bool.or_eq_false_iff, decide_eq_false_iff_not, List.mem_cons, List.not_mem_nil,
      or_false, not_or] at hcontinues
    obtain ⟨⟨hletter, hdigit⟩, hpoint, hmark, hplus, hminus⟩ := hcontinues
    have hmark' : c ≠ 'e' := by
      rintro rfl
      cases hletter
    simp [extend?, hdigit, hpoint, hmark, hmark', hplus, hminus]
  simp only [Scanner.feed?, hextend, hfinish]
  rfl

def Extends (part : NumberPart) (n : Number) (s : List Char) (part' : NumberPart) (n' : Number) : Prop :=
  ∀ done, s.foldlM Scanner.feed? ⟨done, .number part n⟩ = some ⟨done, .number part' n'⟩

theorem Extends.append {part part' part'' : NumberPart} {n n' n'' : Number} (h : Extends part n s part' n')
    (ht : Extends part' n' t part'' n'') : Extends part n (s ++ t) part'' n'' := fun done => by
  rw [List.foldlM_append, h done]
  exact ht done

theorem extends_cons {part part' part'' : NumberPart} {n n' n'' : Number}
    (h : extend? part n c = some (part', n')) (ht : Extends part' n' s part'' n'') :
    Extends part n (c :: s) part'' n'' := fun done => by
  rw [List.foldlM_cons]
  simp only [Scanner.feed?, h]
  exact ht done

theorem extends_nil (part : NumberPart) (n : Number) : Extends part n [] part n := fun _ => rfl

theorem Extends.digits {part part' : NumberPart} {n : Number} (h : Digits s)
    (hfirst : ∀ c, c.isDigit = true → extend? part n c = some (part', n))
    (hrest : ∀ c, c.isDigit = true → extend? part' n c = some (part', n)) : Extends part n s part' n := by
  obtain ⟨c, s, rfl⟩ := List.exists_cons_of_ne_nil h.ne_nil
  obtain ⟨hc, hs⟩ := List.forall_mem_cons.1 h.digits
  refine extends_cons (hfirst c hc) ?_
  clear h hc
  induction s with
  | nil => exact extends_nil part' n
  | cons c s ih =>
    obtain ⟨hc, hs⟩ := List.forall_mem_cons.1 hs
    exact extends_cons (hrest c hc) (ih hs)

theorem extends_whole {n : Number} (h : ∀ c ∈ s, c.isDigit = true) :
    Extends .whole n s .whole { n with whole := s.foldl (fun m c => 10 * m + digit c) n.whole } := by
  induction s generalizing n with
  | nil => exact extends_nil _ n
  | cons c s ih =>
    obtain ⟨hc, hs⟩ := List.forall_mem_cons.1 h
    have hextend : extend? .whole n c = some (.whole, { n with whole := 10 * n.whole + digit c }) := by
      simp [extend?, hc]
    exact extends_cons hextend (ih hs)

/-- The parts of a number behind which a fraction or an exponent may come. -/
theorem WholeText.extends (h : WholeText s) (negative : Bool) :
    ∃ part, (part = .zero ∨ part = .whole) ∧
      Extends .sign { negative } s part { negative, whole := number s } := by
  obtain ⟨hdigits, hleading⟩ := h
  obtain rfl | hhead := hleading
  · exact ⟨.zero, .inl rfl, extends_cons rfl (extends_nil _ _)⟩
  · have hvalue : s.foldl (fun m c => 10 * m + digit c) 0 = number s := by
      have hsome := (Text.ofDigits?_eq_some (s := s)).2 ⟨hdigits, rfl⟩
      rw [Text.ofDigits?, if_pos ⟨hdigits.ne_nil, List.all_eq_true.2 hdigits.digits⟩] at hsome
      exact Option.some.inj hsome
    refine ⟨.whole, .inr rfl, ?_⟩
    obtain ⟨c, s, rfl⟩ := List.exists_cons_of_ne_nil hdigits.ne_nil
    obtain ⟨hc, hs⟩ := List.forall_mem_cons.1 hdigits.digits
    have hzero : c ≠ '0' := fun heq => hhead (by rw [heq]; rfl)
    have hextend : extend? .sign { negative } c = some (.whole, { negative, whole := digit c }) := by
      simp [extend?, hc, hzero]
    rw [← hvalue, List.foldl_cons, Nat.mul_zero, Nat.zero_add]
    exact extends_cons hextend (extends_whole hs)

theorem FractionText.extends (h : FractionText s) {part : NumberPart} (hpart : part = .zero ∨ part = .whole)
    (n : Number) : ∃ part', (part' = .zero ∨ part' = .whole ∨ part' = .fraction) ∧
      Extends part n s part' { n with integral := n.integral && s.isEmpty } := by
  obtain rfl | ⟨digits, rfl, hdigits⟩ := h
  · refine ⟨part, hpart.imp_right .inl, ?_⟩
    rw [List.isEmpty_nil, Bool.and_true]
    exact extends_nil part n
  · refine ⟨.fraction, .inr (.inr rfl), ?_⟩
    rw [List.isEmpty_cons, Bool.and_false]
    have hpoint : extend? part n '.' = some (.point, { n with integral := false }) := by
      obtain rfl | rfl := hpart <;> rfl
    exact extends_cons hpoint (.digits hdigits (by simp +contextual [extend?])
      (by simp +contextual [extend?]))

theorem ExponentText.extends (h : ExponentText s) {part : NumberPart}
    (hpart : part = .zero ∨ part = .whole ∨ part = .fraction) (n : Number) :
    ∃ part', part'.complete = true ∧
      Extends part n s part' { n with integral := n.integral && s.isEmpty } := by
  obtain rfl | ⟨mark, sign, digits, rfl, hmark, hsign, hdigits⟩ := h
  · refine ⟨part, by obtain rfl | rfl | rfl := hpart <;> rfl, ?_⟩
    rw [List.isEmpty_nil, Bool.and_true]
    exact extends_nil part n
  · refine ⟨.exponent, rfl, ?_⟩
    rw [List.isEmpty_cons, Bool.and_false]
    simp only [List.mem_cons, List.not_mem_nil, or_false] at hmark hsign
    have hbegin : extend? part n mark = some (.mark, { n with integral := false }) := by
      obtain rfl | rfl | rfl := hpart <;> obtain rfl | rfl := hmark <;> rfl
    have hexponent : ∀ part, part = .mark ∨ part = .exponentSign →
        Extends part { n with integral := false } digits .exponent { n with integral := false } := by
      rintro part (rfl | rfl)
      all_goals exact .digits hdigits (by simp +contextual [extend?]) (by simp +contextual [extend?])
    refine extends_cons hbegin ?_
    obtain rfl | rfl | rfl := hsign
    · exact hexponent .mark (.inl rfl)
    · exact extends_cons rfl (hexponent .exponentSign (.inr rfl))
    · exact extends_cons rfl (hexponent .exponentSign (.inr rfl))

theorem feed?_digit (hc : c.isDigit = true) (done : List Token) :
    Scanner.feed? ⟨done, .between⟩ c = Scanner.feed? ⟨done, .number .sign {}⟩ c := by
  obtain ⟨hlow, hhigh⟩ : 48 ≤ c.toNat ∧ c.toNat ≤ 57 := Char.isDigit_iff_toNat.1 hc
  rw [← Char.ofNat_toNat c]
  generalize c.toNat = n at hlow hhigh
  interval_cases n <;> rfl

theorem scans_number {n : Number} (h : NumberText s n) : Scans s [.number n] := by
  obtain @⟨negative, whole, fraction, exponent, hwhole, hfraction, hexponent⟩ := h
  obtain ⟨part₁, hpart₁, hextends₁⟩ := hwhole.extends negative
  obtain ⟨part₂, hpart₂, hextends₂⟩ := hfraction.extends hpart₁ { negative, whole := number whole }
  obtain ⟨part₃, hcomplete, hextends₃⟩ := hexponent.extends hpart₂
    { negative, whole := number whole, integral := fraction.isEmpty }
  have hextends : Extends .sign { negative } (whole ++ (fraction ++ exponent)) part₃
      ⟨negative, number whole, fraction.isEmpty && exponent.isEmpty⟩ :=
    hextends₁.append (hextends₂.append hextends₃)
  intro done
  refine ⟨⟨done, .number part₃ _⟩, ?_, settled_number hcomplete _ done⟩
  cases negative with
  | true => exact hextends done
  | false =>
    -- the first digit begins the number as if a sign had been read
    obtain ⟨c, rest, rfl⟩ := List.exists_cons_of_ne_nil hwhole.digits.ne_nil
    have hc := hwhole.digits.digits c List.mem_cons_self
    change (c :: (rest ++ (fraction ++ exponent))).foldlM Scanner.feed? ⟨done, .between⟩ = _
    rw [List.foldlM_cons, feed?_digit hc]
    exact hextends done

/-- Texts with commas between them are scanned one after the other. -/
theorem scans_commas {α : Type} {items : List α} {text : α → List Char} {tokens : α → List Token}
    (h : ∀ i ∈ items, Scans (text i) (tokens i)) :
    Scans (commas (items.map text)) ([.comma].intercalate (items.map tokens)) := by
  induction items with
  | nil => exact opens_nil.scans
  | cons i items ih =>
    obtain ⟨hi, hitems⟩ := List.forall_mem_cons.1 h
    cases items with
    | nil => simpa [commas] using hi
    | cons j items =>
      rw [commas, List.map_cons, List.map_cons, List.intercalate_cons_cons, List.map_cons, List.map_cons,
        List.intercalate_cons_cons]
      have hcomma : Opens (text i ++ [',']) (tokens i ++ [.comma]) := hi.mark (by decide) fun _ => rfl
      exact hcomma.append_scans (ih hitems)

/-- The tokens are read as the value, wherever a value may come. -/
def Reads (ts : List Token) (v : Value) : Prop :=
  ∀ containers, ts.foldlM Reader.feed? ⟨containers, .value⟩ = some (.complete containers v)

/-- A row with commas in it is read if each item is, both the first one and those that come later. -/
theorem foldlM_row {α β : Type} (first : Reader) (next after : List β → Reader) (tokens : α → List Token)
    (value : α → β) (hcomma : ∀ done, (after done).feed? .comma = some (next done)) {items : List α}
    (hne : items ≠ [])
    (hfirst : ∀ i ∈ items, (tokens i).foldlM Reader.feed? first = some (after [value i]))
    (hnext : ∀ i ∈ items, ∀ done,
      (tokens i).foldlM Reader.feed? (next done) = some (after (value i :: done))) :
    ([.comma].intercalate (items.map tokens)).foldlM Reader.feed? first =
      some (after (items.map value).reverse) := by
  have hrow : ∀ (start : Reader) (i : α) (rest : List α) (done : List β),
      (tokens i).foldlM Reader.feed? start = some (after (value i :: done)) →
      (∀ j ∈ rest, ∀ done, (tokens j).foldlM Reader.feed? (next done) = some (after (value j :: done))) →
      ([.comma].intercalate ((i :: rest).map tokens)).foldlM Reader.feed? start =
        some (after (((i :: rest).map value).reverse ++ done)) := by
    intro start i rest
    induction rest generalizing start i with
    | nil =>
      intro done hi _
      simpa using hi
    | cons j rest ih =>
      intro done hi hrest
      obtain ⟨hj, hrest⟩ := List.forall_mem_cons.1 hrest
      have htail := ih (next (value i :: done)) j (value i :: done) (hj _) hrest
      rw [List.map_cons] at htail
      rw [List.map_cons, List.map_cons, List.intercalate_cons_cons, List.append_assoc,
        List.foldlM_append, hi]
      change ((after (value i :: done)).feed? .comma >>= _) = _
      rw [hcomma]
      refine htail.trans ?_
      simp
  obtain ⟨i, items, rfl⟩ := List.exists_cons_of_ne_nil hne
  have hall := hrow first i items [] (hfirst i List.mem_cons_self) fun j hj =>
    hnext j (List.mem_cons_of_mem _ hj)
  rwa [List.append_nil] at hall

/-- A value that comes first in an array is read like any other. -/
theorem Reads.first (h : Reads ts v) (containers : List Container) :
    ts.foldlM Reader.feed? ⟨containers, .firstItem⟩ = some ⟨containers, .afterItem [v]⟩ := by
  cases ts with
  | nil => cases h []
  | cons token ts =>
    have hread := h (.array [] :: containers)
    rw [List.foldlM_cons] at hread ⊢
    cases token with
    | rightBracket => cases hread
    | leftBrace | leftBracket | null | bool | number | string => exact hread
    | rightBrace | comma | colon => cases hread

def Parses (s : List Char) (v : Value) : Prop := ∃ ts, Scans s ts ∧ Reads ts v

theorem Scans.enclose {opener closer : Char} {left right : Token} (h : Scans s ts)
    (hopener : Opens [opener] [left]) (hmem : closer ∈ delimiters)
    (hcloser : ∀ done, Scanner.begin? ⟨done, .between⟩ closer = some ⟨right :: done, .between⟩) :
    Scans (opener :: (s ++ [closer])) (left :: (ts ++ [right])) :=
  hopener.append_scans (h.mark hmem hcloser).scans

theorem parses_array {items : List Item} (hne : items ≠ [])
    (hspaces : ∀ i ∈ items, Spaces i.before ∧ Spaces i.after)
    (hvalues : ∀ i ∈ items, Parses i.text i.value) :
    Parses ('[' :: (commas (items.map (·.padded)) ++ [']'])) (.array (items.map (·.value))) := by
  choose! tokens htokens using hvalues
  have hscans := scans_commas fun i hi => (htokens i hi).1.pad (hspaces i hi).1 (hspaces i hi).2
  refine ⟨_, hscans.enclose (fun _ => rfl) (by decide) fun _ => rfl, fun containers => ?_⟩
  have hrow := foldlM_row ⟨containers, .firstItem⟩ (fun done => ⟨.array done :: containers, .value⟩)
    (fun done => ⟨containers, .afterItem done⟩) tokens Item.value (fun _ => rfl) hne
    (fun i hi => (htokens i hi).2.first containers) fun i hi done => (htokens i hi).2 _
  rw [List.foldlM_cons]
  change ([Token.comma].intercalate (items.map tokens) ++ [Token.rightBracket]).foldlM Reader.feed?
    ⟨containers, .firstItem⟩ = _
  rw [List.foldlM_append, hrow, Option.bind_eq_bind, Option.bind_some, List.foldlM_cons]
  simp [Reader.feed?]

def memberTokens (tokens : Member → List Token) (m : Member) : List Token :=
  .string m.units :: .colon :: tokens m

theorem parses_object {members : List Member} (hne : members ≠ [])
    (hspaces : ∀ m ∈ members, Spaces m.before ∧ Spaces m.after ∧ Spaces m.item.before ∧
      Spaces m.item.after)
    (hkeys : ∀ m ∈ members, StringText m.key m.units)
    (hvalues : ∀ m ∈ members, Parses m.item.text m.item.value) :
    Parses ('\x7b' :: (commas (members.map (·.padded)) ++ ['\x7d']))
      (.object (members.map fun m => (m.units, m.item.value))) := by
  choose! tokens htokens using hvalues
  have hscans : Scans (commas (members.map (·.padded)))
      ([.comma].intercalate (members.map (memberTokens tokens))) := by
    refine scans_commas fun m hm => ?_
    obtain ⟨hbefore, hafter, hbefore', hafter'⟩ := hspaces m hm
    have hkey : Opens (m.before ++ (m.key ++ m.after) ++ [':']) ([.string m.units] ++ [.colon]) :=
      ((opens_string (hkeys m hm)).scans.pad hbefore hafter).mark (by decide) fun _ => rfl
    have hmember := hkey.append_scans ((htokens m hm).1.pad hbefore' hafter')
    simpa only [Member.padded, Item.padded, memberTokens, List.append_assoc, List.cons_append,
      List.nil_append] using hmember
  refine ⟨_, hscans.enclose (fun _ => rfl) (by decide) fun _ => rfl, fun containers => ?_⟩
  have hrow := foldlM_row ⟨containers, .firstKey⟩ (fun done => ⟨containers, .key done⟩)
    (fun done => ⟨containers, .afterField done⟩) (memberTokens tokens) (fun m => (m.units, m.item.value))
    (fun _ => rfl) hne (fun m hm => (htokens m hm).2 (.object [] m.units :: containers))
    fun m hm done => (htokens m hm).2 (.object done m.units :: containers)
  rw [List.foldlM_cons]
  change ([Token.comma].intercalate (members.map (memberTokens tokens)) ++ [Token.rightBrace]).foldlM
    Reader.feed? ⟨containers, .firstKey⟩ = _
  rw [List.foldlM_append, hrow, Option.bind_eq_bind, Option.bind_some, List.foldlM_cons]
  simp [Reader.feed?]

theorem ValueText.parses (h : ValueText s v) : Parses s v := by
  induction h with
  | null => exact ⟨_, scans_null, fun _ => rfl⟩
  | bool b => exact ⟨_, scans_bool b, fun _ => rfl⟩
  | number text => exact ⟨_, scans_number text, fun _ => rfl⟩
  | string text => exact ⟨_, (opens_string text).scans, fun _ => rfl⟩
  | noItems spaces =>
    exact ⟨_, (opens_spaces spaces).scans.enclose (fun _ => rfl) (by decide) fun _ => rfl, fun _ => rfl⟩
  | array some spaces _ ih => exact parses_array some spaces ih
  | noMembers spaces =>
    exact ⟨_, (opens_spaces spaces).scans.enclose (fun _ => rfl) (by decide) fun _ => rfl, fun _ => rfl⟩
  | object some spaces keys _ ih => exact parses_object some spaces keys ih

/-- A text that spells a value is read as that value. -/
theorem Spells.parse?_eq (h : Spells s v) : parse? s = some v := by
  obtain ⟨before, text, after, rfl, hbefore, htext, hafter⟩ := h
  obtain ⟨ts, hscans, hreads⟩ := htext.parses
  obtain ⟨scanner, hscan, hsettled⟩ := hscans.pad hbefore hafter []
  have htokens : tokens? (before ++ (text ++ after)) = some ts := by
    rw [tokens?, hscan]
    simp [hsettled.finish]
  rw [parse?, htokens, Option.bind_eq_bind, Option.bind_some, ofTokens?, hreads []]
  rfl

end TaskLoop.Json
