import Mathlib
import TaskLoop.Source.Compile

namespace TaskLoop.Text

variable {s t w rest : List Char} {c : Char} {sep : Char → Bool}

structure Solid (s : List Char) : Prop where
  ne_nil : s ≠ []
  solid : ∀ c ∈ s, isBlank c = false

structure Trimmed (s : List Char) : Prop where
  ne_nil : s ≠ []
  first : ∀ c ∈ s.head?, isBlank c = false
  last : ∀ c ∈ s.getLast?, isBlank c = false

theorem trimEnd_of_last (h : ∀ c ∈ s.getLast?, isBlank c = false) : trimEnd s = s := by
  cases hs : s.reverse with
  | nil => rw [trimEnd, hs, List.dropWhile_nil, ← hs, List.reverse_reverse]
  | cons c r =>
    have hc : isBlank c = false := h c (by rw [← List.head?_reverse, hs]; rfl)
    rw [trimEnd, hs, List.dropWhile_cons_of_neg (by simp [hc]), ← hs, List.reverse_reverse]

theorem getLast?_dropWhile (h : s.dropWhile isBlank ≠ []) :
    (s.dropWhile isBlank).getLast? = s.getLast? := by
  conv_rhs => rw [← List.takeWhile_append_dropWhile (p := isBlank) (l := s)]
  rw [List.getLast?_append_of_ne_nil _ h]

theorem head?_dropWhile (hc : c ∈ (s.dropWhile sep).head?) : sep c = false := by
  have h := List.head?_dropWhile_not sep s
  rw [Option.mem_def.1 hc] at h
  exact h

theorem isBlank_of_dropWhile (h : s.dropWhile (!isBlank ·) = c :: rest) : isBlank c = true := by
  have hc : (!isBlank c) = false := head?_dropWhile (by rw [h]; rfl)
  simpa using hc

/-- Trimming leaves nothing, or a text with no blank at its ends. -/
theorem trimmed_trim (h : trim s ≠ []) : Trimmed (trim s) := by
  have hlast : ∀ {s : List Char} {c : Char}, c ∈ (trimEnd s).getLast? → isBlank c = false :=
    fun {s c} hc => by
      rw [trimEnd, List.getLast?_reverse] at hc
      exact head?_dropWhile hc
  refine ⟨h, fun c hc => ?_, fun c hc => hlast hc⟩
  have hprefix : trim s <+: s.dropWhile isBlank := by
    have hsuffix := List.dropWhile_suffix isBlank (l := (trimStart s).reverse)
    have hrev := List.reverse_prefix.2 hsuffix
    rwa [List.reverse_reverse] at hrev
  obtain ⟨r, hr⟩ := hprefix
  refine head?_dropWhile (s := s) ?_
  rw [← hr, List.head?_append, Option.mem_def.1 hc]
  rfl

@[simp] theorem words_nil : words [] = [] := rfl

theorem words_cons_blank (h : isBlank c = true) (s : List Char) : words (c :: s) = words s := by
  simp [words, addToPieces, h]

theorem split_append (hw : ∀ c ∈ w, sep c = false) (hne : w ≠ [])
    (hrest : ∀ c ∈ rest.head?, sep c = true) :
    ∃ pieces, split sep (w ++ rest) = w :: pieces ∧
      pieces.filter (!·.isEmpty) = (split sep rest).filter (!·.isEmpty) := by
  induction w with
  | nil => exact absurd rfl hne
  | cons c w ih =>
    have hc : sep c = false := hw c List.mem_cons_self
    by_cases hnil : w = []
    · subst hnil
      cases rest with
      | nil => exact ⟨[], by simp [addToPieces, hc], rfl⟩
      | cons b t =>
        have hb : sep b = true := hrest b rfl
        exact ⟨split sep t, by simp [addToPieces, hc, hb], by simp [addToPieces, hb]⟩
    · obtain ⟨pieces, hsplit, hfilter⟩ := ih (fun c hm => hw c (List.mem_cons_of_mem _ hm)) hnil
      refine ⟨pieces, ?_, hfilter⟩
      rw [List.cons_append, split_cons, hsplit]
      simp [addToPieces, hc]

theorem words_append (hw : Solid w) (hrest : ∀ c ∈ rest.head?, isBlank c = true) :
    words (w ++ rest) = w :: words rest := by
  obtain ⟨pieces, hsplit, hfilter⟩ := split_append hw.solid hw.ne_nil hrest
  rw [words, hsplit, List.filter_cons_of_pos (by simp [hw.ne_nil]), hfilter, words]

theorem Solid.words_eq (h : Solid s) : words s = [s] := by
  have happend : words (s ++ []) = s :: words [] := words_append h (by simp)
  rwa [List.append_nil, words_nil] at happend

theorem words_dropWhile (s : List Char) : words (s.dropWhile isBlank) = words s := by
  induction s with
  | nil => rfl
  | cons c s ih =>
    by_cases hc : isBlank c = true
    · rw [List.dropWhile_cons_of_pos hc, ih, words_cons_blank hc]
    · rw [List.dropWhile_cons_of_neg hc]

theorem solid_takeWhile (hne : s ≠ []) (hfirst : ∀ c ∈ s.head?, isBlank c = false) :
    Solid (s.takeWhile (!isBlank ·)) := by
  refine ⟨?_, fun c hc => by simpa using List.mem_takeWhile_imp hc⟩
  cases s with
  | nil => exact absurd rfl hne
  | cons c s => simp [hfirst c rfl]

theorem words_eq_cons (hne : s ≠ []) (hfirst : ∀ c ∈ s.head?, isBlank c = false) :
    words s = s.takeWhile (!isBlank ·) :: words (s.dropWhile (!isBlank ·)) := by
  conv_lhs => rw [← List.takeWhile_append_dropWhile (p := (!isBlank ·)) (l := s)]
  refine words_append (solid_takeWhile hne hfirst) fun c hc => ?_
  simpa using head?_dropWhile hc

end TaskLoop.Text

namespace TaskLoop.Source

open Text

variable {text : List Char} {m o : String}

/-- A trimmed text is one word, or a word with an operand behind it. -/
theorem words_cases (h : Trimmed text) :
    (operand? text = none ∧ mnemonic text = String.ofList text ∧ Solid text) ∨
    ∃ o, operand? text = some o ∧ Trimmed o.toList ∧
      words text = (mnemonic text).toList :: words o.toList := by
  have hwords := words_eq_cons h.ne_nil h.first
  have hsolid := solid_takeWhile h.ne_nil h.first
  have happend := List.takeWhile_append_dropWhile (p := (!isBlank ·)) (l := text)
  rw [mnemonic, operand?, String.toList_ofList]
  cases hrest : text.dropWhile (!isBlank ·) with
  | nil =>
    rw [hrest, List.append_nil] at happend
    rw [happend] at hsolid ⊢
    exact .inl ⟨rfl, rfl, hsolid⟩
  | cons b rest =>
    have hb := isBlank_of_dropWhile hrest
    -- the text does not end with a blank, so neither does the part behind the first one
    have hlast : ∀ c ∈ (b :: rest).getLast?, isBlank c = false := fun c hc => h.last c (by
      rw [← happend, hrest, List.getLast?_append_of_ne_nil _ (List.cons_ne_nil b rest)]
      exact hc)
    have hne : rest.dropWhile isBlank ≠ [] := fun hnil => by
      have hblank : ∀ c ∈ b :: rest, isBlank c = true := List.forall_mem_cons.2
        ⟨hb, List.dropWhile_eq_nil_iff.1 hnil⟩
      have hend := hlast _ (List.getLast?_eq_some_getLast (List.cons_ne_nil b rest))
      rw [hblank _ (List.getLast_mem _)] at hend
      cases hend
    have hlast' : ∀ c ∈ (rest.dropWhile isBlank).getLast?, isBlank c = false := fun c hc => by
      rw [getLast?_dropWhile hne] at hc
      refine hlast c ?_
      rw [List.getLast?_cons, Option.mem_def.1 hc]
      rfl
    have htrim : trim rest = rest.dropWhile isBlank := trimEnd_of_last hlast'
    refine .inr ⟨_, rfl, ?_, ?_⟩
    · rw [String.toList_ofList, htrim]
      exact ⟨hne, fun c hc => head?_dropWhile hc, hlast'⟩
    · rw [String.toList_ofList, htrim, words_dropWhile, hwords, hrest, words_cons_blank hb]

def wordsOf (text : List Char) : List String := (words text).map String.ofList

theorem wordsOf_of_solid (h : Solid text) : wordsOf text = [String.ofList text] := by
  rw [wordsOf, h.words_eq, List.map_singleton]

/-- The mnemonic is the first word, and the words behind it are those of the operand. -/
theorem wordsOf_eq (h : Trimmed text) :
    wordsOf text = mnemonic text :: ((operand? text).map fun o => wordsOf o.toList).getD [] := by
  obtain ⟨hnone, hm, hsolid⟩ | ⟨o, hsome, _, hwords⟩ := words_cases h
  · rw [hnone, wordsOf_of_solid hsolid, hm]
    rfl
  · rw [hsome, wordsOf, hwords, List.map_cons, String.ofList_toList]
    rfl

theorem wordsOf_ne_nil (h : Trimmed text) : wordsOf text ≠ [] := by
  rw [wordsOf_eq h]
  exact List.cons_ne_nil _ _

theorem wordsOf_eq_singleton (h : Trimmed o.toList) : wordsOf o.toList = [m] ↔ o = m ∧ Solid o.toList := by
  constructor
  · intro hone
    obtain ⟨_, _, hsolid⟩ | ⟨o', hsome, htrimmed, _⟩ := words_cases h
    · rw [wordsOf_of_solid hsolid, String.ofList_toList] at hone
      exact ⟨List.head_eq_of_cons_eq hone, hsolid⟩
    · rw [wordsOf_eq h, hsome] at hone
      exact absurd (List.tail_eq_of_cons_eq hone) (wordsOf_ne_nil htrimmed)
  · rintro ⟨rfl, hsolid⟩
    rw [wordsOf_of_solid hsolid, String.ofList_toList]

theorem operand?_trimmed (h : Trimmed text) (ho : operand? text = some o) : Trimmed o.toList := by
  obtain ⟨hnone, _⟩ | ⟨o', hsome, htrimmed, _⟩ := words_cases h
  · cases hnone.symm.trans ho
  · obtain rfl := Option.some.inj (hsome.symm.trans ho)
    exact htrimmed

theorem wordsOf_eq_one (h : Trimmed text) :
    wordsOf text = [m] ↔ mnemonic text = m ∧ operand? text = none := by
  rw [wordsOf_eq h]
  cases ho : operand? text with
  | none => simp
  | some o => simp [wordsOf_ne_nil (operand?_trimmed h ho)]

theorem wordsOf_eq_two (h : Trimmed text) :
    wordsOf text = [m, o] ↔ mnemonic text = m ∧ operand? text = some o ∧ Solid o.toList := by
  rw [wordsOf_eq h]
  cases ho : operand? text with
  | none => simp
  | some o' =>
    have htrimmed := operand?_trimmed h ho
    rw [Option.map_some, Option.getD_some, List.cons.injEq, wordsOf_eq_singleton htrimmed,
      Option.some.injEq]
    constructor
    · rintro ⟨hm, rfl, hsolid⟩
      exact ⟨hm, rfl, hsolid⟩
    · rintro ⟨hm, rfl, hsolid⟩
      exact ⟨hm, rfl, hsolid⟩

theorem wordsOf_eq_cons_cons (h : Trimmed text) :
    (∃ word rest, wordsOf text = m :: word :: rest) ↔
      mnemonic text = m ∧ ∃ o, operand? text = some o := by
  rw [wordsOf_eq h]
  cases ho : operand? text with
  | none => simp
  | some o =>
    obtain ⟨word, rest, hwords⟩ := List.exists_cons_of_ne_nil
      (wordsOf_ne_nil (operand?_trimmed h ho))
    simp [hwords]

end TaskLoop.Source
