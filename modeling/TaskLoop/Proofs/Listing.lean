import TaskLoop.Proofs.Words

namespace TaskLoop.Source

variable {α β : Type} {source : List Char} {l : Line} {ls done rest : List Line} {home : Nat}
  {o : Outline}

theorem pairwise_lines (source : List Char) : (lines source).Pairwise (·.number < ·.number) := by
  refine List.Pairwise.filterMap _ (R := fun a b => a.2 < b.2) ?_ ?_
  · intro a b hlt l hl l' hl'
    dsimp only at hl hl'
    split at hl
    · cases hl
    · split at hl'
      · cases hl'
      · cases hl
        cases hl'
        exact hlt
  · have hrange : (List.range' 1 (Text.lines source).length).Pairwise (· < ·) :=
      List.pairwise_lt_range'
    rw [← List.zipIdx_map_snd, List.pairwise_map] at hrange
    exact hrange

theorem mem_lines (h : l ∈ lines source) : 1 ≤ l.number ∧ l.number ≤ (Text.lines source).length ∧
    Text.Trimmed l.text ∧
    ∃ raw, (Text.lines source)[l.number - 1]? = some raw ∧ significant raw = l.text := by
  obtain ⟨⟨raw, number⟩, hmem, hl⟩ := List.mem_filterMap.1 h
  dsimp only at hl
  split at hl
  · cases hl
  · next hne =>
    cases hl
    obtain ⟨hle, hget⟩ := List.mk_mem_zipIdx_iff_le_and_getElem?_sub.1 hmem
    have hlt := (List.getElem?_eq_some_iff.1 hget).1
    have hbound : number ≤ (Text.lines source).length := by omega
    have htext : significant raw ≠ [] := by simpa using hne
    exact ⟨hle, hbound, Text.trimmed_trim htext, raw, hget, rfl⟩

theorem eq_of_number_eq {l' : Line} (h : l ∈ lines source) (h' : l' ∈ lines source)
    (heq : l.number = l'.number) : l = l' := by
  have hnodup : ((lines source).map (·.number)).Nodup :=
    List.pairwise_map.2 ((pairwise_lines source).imp Nat.ne_of_lt)
  exact List.inj_on_of_nodup_map hnodup h h' heq

namespace Line

def opens (l : Line) : Bool := l.words.head? == some "fn"

def closes (l : Line) : Bool := l.words.head? == some "end"

def plain (l : Line) : Bool := !l.opens && !l.closes

def marks (l : Line) : Bool := l.text.getLast? == some ':'

def instructs (l : Line) : Bool := l.plain && !l.marks

def functionName (l : Line) : String := (l.words[1]?).getD ""

def homeAfter (home : Nat) (l : Line) : Nat :=
  if l.opens then l.number else if l.closes then 0 else home

theorem words_of_opens (h : l.opens = true) : ∃ rest, l.words = "fn" :: rest :=
  List.head?_eq_some_iff.1 (by simpa [opens] using h)

theorem words_of_closes (h : l.closes = true) : ∃ rest, l.words = "end" :: rest :=
  List.head?_eq_some_iff.1 (by simpa [closes] using h)

theorem homeAfter_of_plain (h : l.plain = true) (home : Nat) : homeAfter home l = home := by
  simp only [plain, Bool.and_eq_true, Bool.not_eq_true'] at h
  simp [homeAfter, h.1, h.2]

theorem opens_eq_false_of_closes (h : l.closes = true) : l.opens = false := by
  obtain ⟨rest, hwords⟩ := words_of_closes h
  simp [opens, hwords]

end Line

/-- A line, and the header of the function that it stands in; the header is zero in the main chunk. -/
structure Site where
  home : Nat
  line : Line
deriving DecidableEq

def sitesFrom (home : Nat) : List Line → List Site
  | [] => []
  | l :: ls => ⟨home, l⟩ :: sitesFrom (l.homeAfter home) ls

def homeOf (ls : List Line) : Nat := ls.foldl Line.homeAfter 0

def sites (source : List Char) : List Site := sitesFrom 0 (lines source)

structure Site.Placed (s : Site) : Prop where
  header : s.line.opens = true → s.home = 0 ∧
    ∃ name, s.line.words = ["fn", name] ∧ Text.isIdentifier name.toList = true
  closer : s.line.closes = true → s.home ≠ 0

theorem sitesFrom_append (home : Nat) (ls ls' : List Line) :
    sitesFrom home (ls ++ ls') = sitesFrom home ls ++ sitesFrom (ls.foldl Line.homeAfter home) ls' := by
  induction ls generalizing home with
  | nil => rfl
  | cons l ls ih => rw [List.cons_append, sitesFrom, ih, sitesFrom, List.cons_append, List.foldl_cons]

theorem map_line_sitesFrom (home : Nat) (ls : List Line) : (sitesFrom home ls).map (·.line) = ls := by
  induction ls generalizing home with
  | nil => rfl
  | cons l ls ih => rw [sitesFrom, List.map_cons, ih]

theorem mem_sitesFrom {s : Site} :
    s ∈ sitesFrom 0 ls ↔ ∃ done rest, ls = done ++ s.line :: rest ∧ homeOf done = s.home := by
  constructor
  · intro hs
    obtain ⟨before, after, hsplit⟩ := List.append_of_mem hs
    have hlines := map_line_sitesFrom 0 ls
    rw [hsplit, List.map_append, List.map_cons] at hlines
    refine ⟨before.map (·.line), after.map (·.line), hlines.symm, ?_⟩
    rw [← hlines, sitesFrom_append, sitesFrom] at hsplit
    have hlength : (sitesFrom 0 (before.map (·.line))).length = before.length := by
      have hmap := congrArg List.length (map_line_sitesFrom 0 (before.map (·.line)))
      rwa [List.length_map, List.length_map] at hmap
    have hmid := (List.append_inj hsplit hlength).2
    exact congrArg Site.home (List.head_eq_of_cons_eq hmid)
  · rintro ⟨done, rest, rfl, hhome⟩
    rw [sitesFrom_append, sitesFrom, show done.foldl Line.homeAfter 0 = s.home from hhome]
    simp

theorem line_mem_of_mem_sitesFrom {s : Site} (h : s ∈ sitesFrom home ls) : s.line ∈ ls :=
  map_line_sitesFrom home ls ▸ List.mem_map_of_mem h

theorem mem_of_homeOf_ne_zero (h : homeOf ls ≠ 0) : ∃ l ∈ ls, l.opens = true ∧ l.number = homeOf ls := by
  induction ls using List.reverseRecOn with
  | nil => exact absurd rfl h
  | append_singleton ls l ih =>
    have heq : homeOf (ls ++ [l]) = l.homeAfter (homeOf ls) := List.foldl_concat ..
    rw [heq] at h ⊢
    by_cases hopens : l.opens = true
    · exact ⟨l, by simp, hopens, by simp [Line.homeAfter, hopens]⟩
    · by_cases hcloses : l.closes = true
      · simp [Line.homeAfter, hopens, hcloses] at h
      · have hsame : l.homeAfter (homeOf ls) = homeOf ls := by
          simp [Line.homeAfter, hopens, hcloses]
        rw [hsame] at h ⊢
        obtain ⟨l', hl', hopens', hnumber⟩ := ih h
        exact ⟨l', by simp [hl'], hopens', hnumber⟩

/-- A check of lines gives a value of the kind if the condition holds, and otherwise a diagnostic for
one of the lines. -/
inductive Checks (ls : List Line) (good : Prop) (kind : α → Prop) : Except Diagnostic α → Prop
  | ok {a : α} (holds : good) (value : kind a) : Checks ls good kind (.ok a)
  | error {d : Diagnostic} (fails : ¬ good) (located : ∃ l ∈ ls, d.line = l.number) :
      Checks ls good kind (.error d)

namespace Checks

variable {good good' : Prop} {kind kind' : α → Prop} {x : Except Diagnostic α}

theorem imp {ls' : List Line} (h : Checks ls good kind x) (hls : ls ⊆ ls') (hgood : good ↔ good')
    (hkind : ∀ a, good → kind a → kind' a) : Checks ls' good' kind' x := by
  cases h with
  | ok holds value => exact .ok (hgood.1 holds) (hkind _ holds value)
  | error fails located =>
    obtain ⟨l, hl, hline⟩ := located
    exact .error (fun h => fails (hgood.2 h)) ⟨l, hls hl, hline⟩

theorem bind {kind' : β → Prop} {f : α → Except Diagnostic β} (h : Checks ls good kind x)
    (hf : ∀ a, good → kind a → Checks ls good' kind' (f a)) :
    Checks ls (good ∧ good') kind' (x >>= f) := by
  cases h with
  | ok holds value =>
    exact (hf _ holds value).imp (fun _ hl => hl) ⟨fun h => ⟨holds, h⟩, fun h => h.2⟩ fun _ _ hb => hb
  | error fails located => exact .error (fun h => fails h.1) located

theorem map {kind' : β → Prop} {g : α → β} (h : Checks ls good kind x)
    (hg : ∀ a, kind a → kind' (g a)) : Checks ls good kind' (x >>= fun a => pure (g a)) := by
  cases h with
  | ok holds value => exact .ok holds (hg _ value)
  | error fails located => exact .error fails located

theorem mapM {as : List α} {good : α → Prop} {kind : α → β → Prop} {f : α → Except Diagnostic β}
    (hf : ∀ a ∈ as, Checks ls (good a) (kind a) (f a)) :
    Checks ls (∀ a ∈ as, good a) (List.Forall₂ kind as) (as.mapM f) := by
  induction as with
  | nil => exact .ok (by simp) .nil
  | cons a as ih =>
    rw [List.mapM_cons]
    have hrest := ih fun b hb => hf b (List.mem_cons_of_mem a hb)
    have hcons : ∀ b, good a → kind a b → Checks ls (∀ a ∈ as, good a) (List.Forall₂ kind (a :: as))
        (as.mapM f >>= fun bs => pure (b :: bs)) := fun b _ hb =>
      hrest.map fun bs hbs => .cons hb hbs
    refine ((hf a List.mem_cons_self).bind hcons).imp (fun _ hl => hl) ?_ fun _ _ h => h
    exact List.forall_mem_cons.symm

/-- A fold checks what each of its steps checks, if what has been read is known at each of them. -/
theorem foldlM {as : List α} {good : List α → α → Prop} {inv : List α → β → Prop}
    {f : β → α → Except Diagnostic β} {b : β} (hb : inv [] b)
    (hf : ∀ done a rest, as = done ++ a :: rest → ∀ b, inv done b →
      Checks ls (good done a) (inv (done ++ [a])) (f b a)) :
    Checks ls (∀ done a rest, as = done ++ a :: rest → good done a) (inv as) (as.foldlM f b) := by
  suffices h : ∀ (rest done : List α) (b : β), as = done ++ rest → inv done b →
      Checks ls (∀ read a left, rest = read ++ a :: left → good (done ++ read) a) (inv as)
        (rest.foldlM f b) from h as [] b rfl hb
  intro rest
  induction rest with
  | nil =>
    intro done b has hinv
    rw [List.append_nil] at has
    exact .ok (by simp) (has ▸ hinv)
  | cons a rest ih =>
    intro done b has hinv
    rw [List.foldlM_cons]
    refine ((hf done a rest has b hinv).bind fun b' _ hb' =>
      ih (done ++ [a]) b' (by simp [has]) hb').imp (fun _ hl => hl) ⟨?_, ?_⟩ fun _ _ h => h
    · rintro ⟨ha, hall⟩ read a' left heq
      cases read with
      | nil =>
        obtain ⟨rfl, _⟩ := List.cons.inj heq
        simpa using ha
      | cons a'' read =>
        obtain ⟨rfl, hrest⟩ := List.cons.inj heq
        simpa using hall read a' left hrest
    · intro hall
      refine ⟨by simpa using hall [] a rest rfl, fun read a' left heq => ?_⟩
      have hgood := hall (a :: read) a' left (by rw [heq, List.cons_append])
      simpa using hgood

end Checks

def plainLines (ss : List Site) (home : Nat) : List Line :=
  (ss.filter fun s => s.home == home && s.line.plain).map (·.line)

def headers (ls : List Line) : List Line := ls.filter (·.opens)

def bodyOf (ss : List Site) (l : Line) : Body :=
  ⟨l.functionName, l.number, (plainLines ss l.number).toArray⟩

structure Outline.Reads (done : List Line) (o : Outline) : Prop where
  main : o.main.toList = plainLines (sitesFrom 0 done) 0
  functions : o.functions.toList ++ o.opened.toList = (headers done).map (bodyOf (sitesFrom 0 done))
  home : (o.opened.map (·.header)).getD 0 = homeOf done
  opened : ∀ body ∈ o.opened, body.header ≠ 0

theorem plainLines_append (ls : List Line) (l : Line) (home : Nat) :
    plainLines (sitesFrom 0 (ls ++ [l])) home = plainLines (sitesFrom 0 ls) home ++
      if homeOf ls = home ∧ l.plain = true then [l] else [] := by
  rw [sitesFrom_append, plainLines, List.filter_append, List.map_append, ← plainLines]
  congr 1
  change List.map _ (List.filter _ [Site.mk (homeOf ls) l]) = _
  by_cases h : homeOf ls = home ∧ l.plain = true
  · simp [h.1, h.2]
  · rw [if_neg h, List.filter_cons_of_neg (by simpa using h)]
    rfl

theorem homeOf_append (ls : List Line) (l : Line) : homeOf (ls ++ [l]) = l.homeAfter (homeOf ls) :=
  List.foldl_concat ..

theorem headers_append (ls : List Line) (l : Line) :
    headers (ls ++ [l]) = headers ls ++ if l.opens = true then [l] else [] := by
  rw [headers, List.filter_append, ← headers]
  congr 1
  by_cases h : l.opens = true
  · simp [h]
  · simp [h]

theorem headers_append_of_plain (h : l.plain = true) (ls : List Line) :
    headers (ls ++ [l]) = headers ls := by
  have hopens : l.opens = false := by
    simp only [Line.plain, Bool.and_eq_true, Bool.not_eq_true'] at h
    exact h.1
  simp [headers_append, hopens]

/-- A line that belongs to no body leaves the bodies as they are. -/
theorem bodyOf_append_of_not_plain (h : l.plain = false) (ls : List Line) :
    bodyOf (sitesFrom 0 (ls ++ [l])) = bodyOf (sitesFrom 0 ls) := by
  funext l'
  simp [bodyOf, plainLines_append, h]

theorem bodyOf_append_of_ne {l' : Line} (h : l'.number ≠ homeOf ls) (l : Line) :
    bodyOf (sitesFrom 0 (ls ++ [l])) l' = bodyOf (sitesFrom 0 ls) l' := by
  simp [bodyOf, plainLines_append, Ne.symm h]

theorem functionName_eq_ok {words : List String} {name : String} :
    functionName words = .ok name ↔ words = [name] ∧ Text.isIdentifier name.toList = true := by
  unfold functionName
  split
  · simp
  · next first rest =>
    by_cases hidentifier : Text.isIdentifier first.toList = true
    · cases rest with
      | nil =>
        simp only [hidentifier, if_true, Except.ok.injEq, List.cons.injEq, and_true]
        constructor
        · rintro rfl
          exact ⟨rfl, hidentifier⟩
        · exact fun h => h.1
      | cons word rest => simp [hidentifier]
    · simp only [hidentifier, List.cons.injEq]
      constructor
      · intro h
        cases h
      · rintro ⟨⟨rfl, _⟩, h⟩
        exact absurd h hidentifier

namespace Outline

theorem Reads.append_opens (h : o.Reads done) (hopens : l.opens = true) (hhome : homeOf done = 0)
    (hpos : l.number ≠ 0) (hnew : plainLines (sitesFrom 0 done) l.number = []) :
    ({ o with opened := some ⟨l.functionName, l.number, #[]⟩ } : Outline).Reads (done ++ [l]) := by
  have hplain : l.plain = false := by simp [Line.plain, hopens]
  have hnone : o.opened = none := by
    cases hopened : o.opened with
    | none => rfl
    | some body =>
      have hheader := h.home
      rw [hopened, hhome] at hheader
      exact absurd hheader (h.opened body hopened)
  refine ⟨?_, ?_, ?_, ?_⟩
  · rw [plainLines_append, h.main]
    simp [hplain]
  · have hfunctions := h.functions
    rw [hnone, Option.toList_none, List.append_nil] at hfunctions
    rw [headers_append, if_pos hopens, List.map_append, bodyOf_append_of_not_plain hplain,
      ← hfunctions, List.map_singleton, bodyOf, hnew]
    rfl
  · rw [homeOf_append, Line.homeAfter, if_pos hopens]
    rfl
  · rintro body ⟨⟩
    exact hpos

theorem Reads.append_closes (h : o.Reads done) (hcloses : l.closes = true) {body : Body}
    (hopened : o.opened = some body) :
    ({ o with functions := o.functions.push body, opened := none } : Outline).Reads (done ++ [l]) := by
  have hopens := Line.opens_eq_false_of_closes hcloses
  have hplain : l.plain = false := by simp [Line.plain, hcloses]
  refine ⟨?_, ?_, ?_, ?_⟩
  · rw [plainLines_append, h.main]
    simp [hplain]
  · have hfunctions := h.functions
    rw [hopened] at hfunctions
    rw [headers_append, bodyOf_append_of_not_plain hplain]
    simpa [hopens] using hfunctions
  · rw [homeOf_append, Line.homeAfter, hopens]
    simp [hcloses]
  · simp

theorem Reads.append_main (h : o.Reads done) (hplain : l.plain = true) (hopened : o.opened = none)
    (hpos : ∀ l ∈ done, l.number ≠ 0) :
    ({ o with main := o.main.push l } : Outline).Reads (done ++ [l]) := by
  have hzero := h.home
  have hfunctions := h.functions
  rw [hopened] at hzero hfunctions
  refine ⟨?_, ?_, ?_, h.opened⟩
  · rw [plainLines_append, if_pos ⟨hzero.symm, hplain⟩, ← h.main]
    exact Array.toList_push ..
  · rw [headers_append_of_plain hplain, hopened]
    refine hfunctions.trans (List.map_congr_left fun l' hl' => (bodyOf_append_of_ne ?_ l).symm)
    rw [← hzero]
    exact hpos l' (List.mem_of_mem_filter hl')
  · rw [homeOf_append, Line.homeAfter_of_plain hplain]
    exact h.home

theorem Reads.append_body (h : o.Reads done) (hplain : l.plain = true) {body : Body}
    (hopened : o.opened = some body) (hsorted : done.Pairwise (·.number < ·.number)) :
    ({ o with opened := some { body with lines := body.lines.push l } } : Outline).Reads
      (done ++ [l]) := by
  have hheader := h.home
  have hfunctions := h.functions
  rw [hopened] at hheader hfunctions
  have hne := h.opened body hopened
  -- the open body is that of the last header
  obtain ⟨hs, last, hsplit, hclosed, hlast⟩ := List.map_eq_append_iff.1 hfunctions.symm
  obtain ⟨l₀, rfl, hbody⟩ := List.map_eq_singleton_iff.1 hlast
  have hnumber : l₀.number = homeOf done := by
    rw [← hheader, ← hbody]
    rfl
  refine ⟨?_, ?_, ?_, ?_⟩
  · rw [plainLines_append, if_neg fun hand => hne (hheader.trans hand.1), List.append_nil]
    exact h.main
  · rw [headers_append_of_plain hplain, hsplit, List.map_append, List.map_singleton]
    congr 1
    · rw [← hclosed]
      refine List.map_congr_left fun l' hl' => (bodyOf_append_of_ne ?_ l).symm
      have hpairwise := hsorted.sublist (List.filter_sublist (p := Line.opens))
      rw [show done.filter Line.opens = _ from hsplit] at hpairwise
      have hlt := (List.pairwise_append.1 hpairwise).2.2 l' hl' l₀ (by simp)
      omega
    · rw [← hbody, bodyOf, bodyOf, plainLines_append, if_pos ⟨hnumber.symm, hplain⟩]
      simp
  · rw [homeOf_append, Line.homeAfter_of_plain hplain, ← hheader]
    rfl
  · rintro _ ⟨⟩
    exact hne

theorem Reads.append_plain (h : o.Reads done) (hplain : l.plain = true)
    (hsorted : done.Pairwise (·.number < ·.number)) (hpos : ∀ l ∈ done, l.number ≠ 0) :
    (o.addLine l).Reads (done ++ [l]) := by
  unfold addLine
  cases hopened : o.opened with
  | none =>
    have hreads := h.append_main hplain hopened hpos
    rw [hopened] at hreads
    exact hreads
  | some body => exact h.append_body hplain hopened hsorted

theorem Reads.opened_eq_none_iff (h : o.Reads done) : o.opened = none ↔ homeOf done = 0 := by
  have hhome := h.home
  cases hopened : o.opened with
  | none =>
    rw [hopened] at hhome
    exact ⟨fun _ => hhome.symm, fun _ => rfl⟩
  | some body =>
    rw [hopened] at hhome
    refine ⟨fun hnone => absurd hnone (Option.some_ne_none _), fun hzero => ?_⟩
    exact absurd (hhome.trans hzero) (h.opened body hopened)

theorem Reads.checks_openFunction (h : o.Reads done) (hopens : l.opens = true) {words : List String}
    (hwords : l.words = "fn" :: words) (hpos : l.number ≠ 0)
    (hnew : plainLines (sitesFrom 0 done) l.number = []) :
    Checks [l] (Site.mk (homeOf done) l).Placed (Reads (done ++ [l]))
      ((o.openFunction l.number words).mapError (⟨l.number, ·⟩)) := by
  have hname : (Site.mk (homeOf done) l).Placed → ∃ name, functionName words = .ok name :=
    fun hplaced => by
      obtain ⟨_, name, hname, hidentifier⟩ := hplaced.header hopens
      rw [hwords] at hname
      exact ⟨name, functionName_eq_ok.2 ⟨List.tail_eq_of_cons_eq hname, hidentifier⟩⟩
  have hcloses : l.closes = true → homeOf done ≠ 0 := fun hcloses => by
    rw [Line.opens_eq_false_of_closes hcloses] at hopens
    cases hopens
  unfold openFunction
  cases hopened : o.opened with
  | some body =>
    refine .error (fun hplaced => ?_) ⟨l, by simp, rfl⟩
    have hnone := h.opened_eq_none_iff.2 (hplaced.header hopens).1
    cases hopened.symm.trans hnone
  | none =>
    have hhome := h.opened_eq_none_iff.1 hopened
    cases hfunction : functionName words with
    | error fault =>
      refine .error (fun hplaced => ?_) ⟨l, by simp, rfl⟩
      obtain ⟨name, hok⟩ := hname hplaced
      cases hfunction.symm.trans hok
    | ok name =>
      obtain ⟨rfl, hidentifier⟩ := functionName_eq_ok.1 hfunction
      refine .ok ⟨fun _ => ⟨hhome, name, hwords, hidentifier⟩, hcloses⟩ ?_
      have hreads := h.append_opens hopens hhome hpos hnew
      rwa [show l.functionName = name by simp [Line.functionName, hwords]] at hreads

theorem Reads.checks_add (h : o.Reads done)
    (hsorted : (done ++ [l]).Pairwise (·.number < ·.number))
    (hpos : ∀ l' ∈ done ++ [l], l'.number ≠ 0) :
    Checks [l] (Site.mk (homeOf done) l).Placed (Reads (done ++ [l])) (o.add l) := by
  have hsorted' := List.pairwise_append.1 hsorted
  have hpos' : ∀ l' ∈ done, l'.number ≠ 0 := fun l' hl' => hpos l' (by simp [hl'])
  by_cases hopens : l.opens = true
  · obtain ⟨words, hwords⟩ := Line.words_of_opens hopens
    have hadd : o.add l = (o.openFunction l.number words).mapError (⟨l.number, ·⟩) := by
      simp [add, hwords]
    rw [hadd]
    refine h.checks_openFunction hopens hwords (hpos l (by simp)) ?_
    -- a line that was read before stands under an earlier header
    rw [plainLines, List.map_eq_nil_iff, List.filter_eq_nil_iff]
    intro s hs hmatch
    obtain ⟨before, after, hdone, hhome⟩ := mem_sitesFrom.1 hs
    have hnumber : homeOf before = l.number := by
      rw [hhome]
      simp only [Bool.and_eq_true, beq_iff_eq] at hmatch
      exact hmatch.1
    obtain ⟨l', hl', _, hnumber'⟩ := mem_of_homeOf_ne_zero (hnumber ▸ hpos l (by simp))
    have hlt := hsorted'.2.2 l' (by simp [hdone, hl']) l (by simp)
    omega
  · by_cases hcloses : l.closes = true
    · obtain ⟨words, hwords⟩ := Line.words_of_closes hcloses
      have hadd : o.add l = o.closeFunction.mapError (⟨l.number, ·⟩) := by simp [add, hwords]
      rw [hadd, closeFunction]
      cases hopened : o.opened with
      | none =>
        refine .error (fun hplaced => ?_) ⟨l, by simp, rfl⟩
        exact hplaced.closer hcloses (h.opened_eq_none_iff.1 hopened)
      | some body =>
        refine .ok ⟨fun hopens' => absurd hopens' hopens, fun _ hzero => ?_⟩
          (h.append_closes hcloses hopened)
        cases hopened.symm.trans (h.opened_eq_none_iff.2 hzero)
    · have hplain : l.plain = true := by simp [Line.plain, hopens, hcloses]
      have hadd : o.add l = .ok (o.addLine l) := by
        unfold add
        split
        · next hwords => simp [Line.opens, hwords] at hopens
        · next hwords => simp [Line.closes, hwords] at hcloses
        · rfl
      rw [hadd]
      exact .ok ⟨fun hopens' => absurd hopens' hopens, fun hcloses' => absurd hcloses' hcloses⟩
        (h.append_plain hplain hsorted'.1 hpos')

end Outline

theorem Outline.reads_empty : Outline.Reads [] {} := ⟨rfl, rfl, rfl, by simp⟩

theorem forall_placed_iff :
    (∀ s ∈ sitesFrom 0 ls, s.Placed) ↔
      ∀ done l rest, ls = done ++ l :: rest → (Site.mk (homeOf done) l).Placed := by
  constructor
  · intro h done l rest hls
    exact h _ (mem_sitesFrom.2 ⟨done, rest, hls, rfl⟩)
  · intro h s hs
    obtain ⟨done, rest, hls, hhome⟩ := mem_sitesFrom.1 hs
    have hplaced := h done s.line rest hls
    rwa [hhome] at hplaced

def bodiesOf (source : List Char) : List Body :=
  ⟨"", 0, (plainLines (sites source) 0).toArray⟩ :: (headers (lines source)).map (bodyOf (sites source))

/-- A source is cut into its bodies if its headers and ends are placed well and no function is left
open. -/
theorem checks_bodies (source : List Char) :
    Checks (lines source) ((∀ s ∈ sites source, s.Placed) ∧ homeOf (lines source) = 0)
      (· = bodiesOf source) (bodies source) := by
  have hpos : ∀ l ∈ lines source, l.number ≠ 0 := fun l hl => by
    have h := (mem_lines hl).1
    omega
  have hread : Checks (lines source) (∀ s ∈ sites source, s.Placed) (Outline.Reads (lines source))
      ((lines source).foldlM Outline.add {}) := by
    rw [sites, forall_placed_iff]
    refine Checks.foldlM Outline.reads_empty fun done l rest hls o ho => ?_
    have hsub : done ++ [l] <+: lines source := ⟨rest, by simp [hls]⟩
    refine (ho.checks_add ((pairwise_lines source).sublist hsub.sublist) fun l' hl' =>
      hpos l' (hsub.subset hl')).imp ?_ Iff.rfl fun _ _ h => h
    simp [hls]
  refine hread.bind fun o _ ho => ?_
  unfold Outline.bodies
  cases hopened : o.opened with
  | some body =>
    have hhome := ho.home
    rw [hopened] at hhome
    have hne : homeOf (lines source) ≠ 0 := hhome ▸ ho.opened body hopened
    obtain ⟨l, hl, _, hnumber⟩ := mem_of_homeOf_ne_zero hne
    exact .error hne ⟨l, hl, hhome.trans hnumber.symm⟩
  | none =>
    refine .ok (ho.opened_eq_none_iff.1 hopened) ?_
    have hfunctions := ho.functions
    rw [hopened, Option.toList_none, List.append_nil] at hfunctions
    rw [hfunctions, bodiesOf, sites, ← ho.main, Array.toArray_toList]

end TaskLoop.Source
