import TaskLoop.Proofs.InstructionText

namespace TaskLoop

def Program.nameOf (p : Program) (function : Nat) : String :=
  (p.functions[function]?.map (·.name)).getD ""

open Source in
def Op.instruction (p : Program) : Op → Instruction
  | .push n => .push n
  | .pop => .pop
  | .dup => .dup
  | .add => .add
  | .sub => .sub
  | .jump target => .jump (labelName target)
  | .jumpz target => .jumpz (labelName target)
  | .call function => .call (p.nameOf function)
  | .ret => .ret
  | .raise message => .raise message
  | .host name => .host name
  | .alloc bytes => .alloc bytes

/-- The instruction leads to a position or to a function that there is, and what it names or says can
stand on a line and be told from a label. -/
def Op.Writable (p : Program) (size : Nat) : Op → Prop
  | .jump target | .jumpz target => target ≤ size
  | .call function => 0 < function ∧ function < p.functions.size
  | .raise message => message.toList ≠ [] ∧ Text.trim message.toList = message.toList ∧
      '\n' ∉ message.toList ∧ '#' ∉ message.toList ∧ message.toList.getLast? ≠ some ':'
  | .host name => Text.isIdentifier name.toList = true
  | .push _ | .pop | .dup | .add | .sub | .ret | .alloc _ => True

instance (p : Program) (size : Nat) : (op : Op) → Decidable (op.Writable p size)
  | .jump target | .jumpz target => inferInstanceAs (Decidable (target ≤ size))
  | .call function => inferInstanceAs (Decidable (0 < function ∧ function < p.functions.size))
  | .raise message => inferInstanceAs (Decidable (message.toList ≠ [] ∧
      Text.trim message.toList = message.toList ∧ '\n' ∉ message.toList ∧ '#' ∉ message.toList ∧
      message.toList.getLast? ≠ some ':'))
  | .host name => inferInstanceAs (Decidable (Text.isIdentifier name.toList = true))
  | .push _ | .pop | .dup | .add | .sub | .ret | .alloc _ => inferInstanceAs (Decidable True)

namespace Program

variable {p : Program}

def bodyFrom (p : Program) (j : Nat) : List Op → List (List Char)
  | [] => [Source.labelText j]
  | op :: ops => Source.labelText j :: (op.instruction p).text :: p.bodyFrom (j + 1) ops

def functionTexts (p : Program) (f : FunctionCode) : List (List Char) :=
  ("fn".toList ++ ' ' :: f.name.toList) :: (p.bodyFrom 0 f.code.toList ++ ["end".toList])

def texts (p : Program) : List (List Char) :=
  match p.functions.toList with
  | [] => []
  | main :: functions => p.bodyFrom 0 main.code.toList ++ functions.flatMap p.functionTexts

def render (p : Program) : List Char := Text.unlines p.texts

structure Writable (p : Program) : Prop where
  main : p.functions[0]?.map (·.name) = some ""
  identifiers : ∀ f ∈ p.functions.toList.tail, Text.isIdentifier f.name.toList = true
  distinct : (p.functions.toList.tail.map (·.name)).Nodup
  code : ∀ f ∈ p.functions.toList, ∀ op ∈ f.code.toList, op.Writable p f.code.size

theorem Writable.functions (h : p.Writable) :
    ∃ main functions, p.functions.toList = main :: functions ∧ main.name = "" := by
  obtain ⟨main, hmain, hname⟩ := Option.map_eq_some_iff.1 h.main
  rw [← Array.getElem?_toList] at hmain
  cases hlist : p.functions.toList with
  | nil =>
    rw [hlist] at hmain
    cases hmain
  | cons first functions =>
    rw [hlist] at hmain
    obtain rfl := Option.some.inj hmain
    exact ⟨first, functions, rfl, hname⟩

theorem Writable.isIdentifier_nameOf (h : p.Writable) {i : Nat} (hpos : 0 < i)
    (hi : i < p.functions.size) : Text.isIdentifier (p.nameOf i).toList = true := by
  obtain ⟨main, functions, hlist, _⟩ := h.functions
  obtain ⟨i, rfl⟩ := Nat.exists_eq_succ_of_ne_zero (Nat.ne_of_gt hpos)
  have hidentifiers := h.identifiers
  rw [← Array.length_toList, hlist, List.length_cons] at hi
  rw [hlist, List.tail_cons] at hidentifiers
  rw [nameOf, ← Array.getElem?_toList, hlist, List.getElem?_cons_succ,
    List.getElem?_eq_getElem (Nat.lt_of_succ_lt_succ hi)]
  exact hidentifiers _ (List.getElem_mem _)

end Program

namespace Source

open Text

variable {ls : List Line} {l : Line} {o : Outline} {s : Layout} {j k size : Nat} {p : Program} {op : Op}
  {f : FunctionCode} {b : Body}

theorem writable_instruction (hp : p.Writable) (h : op.Writable p size) : (op.instruction p).Writable := by
  cases op with
  | jump | jumpz => exact isIdentifier_labelName _
  | call function => exact hp.isIdentifier_nameOf h.1 h.2
  | raise message =>
    obtain ⟨hne, htrim, hnewline, hcomment, hlast⟩ := h
    exact ⟨significant_of_trim_eq hne htrim hnewline hcomment, hlast⟩
  | host name => exact h
  | push | pop | dup | add | sub | ret | alloc => trivial

/-- A name that is written leads back to what it was written for. -/
theorem resolve?_instruction {scope : Scope} (h : op.Writable p size)
    (hlabel : ∀ i ≤ size, scope.label? (labelName i) = some i)
    (hfunction : ∀ i, 0 < i → i < p.functions.size → scope.function? (p.nameOf i) = some i) :
    (op.instruction p).resolve? scope = some op := by
  cases op with
  | jump target | jumpz target => rw [Op.instruction, Instruction.resolve?, hlabel target h, Option.map_some]
  | call function =>
    rw [Op.instruction, Instruction.resolve?, hfunction function h.1 h.2, Option.map_some]
  | push | pop | dup | add | sub | ret | raise | host | alloc => rfl

theorem mem_bodyFrom {ops : List Op} {t : List Char} (h : t ∈ p.bodyFrom j ops) :
    (∃ i, t = labelText i) ∨ ∃ op ∈ ops, t = (op.instruction p).text := by
  induction ops generalizing j with
  | nil => exact .inl ⟨j, List.mem_singleton.1 h⟩
  | cons op ops ih =>
    rw [Program.bodyFrom, List.mem_cons, List.mem_cons] at h
    obtain rfl | rfl | h := h
    · exact .inl ⟨j, rfl⟩
    · exact .inr ⟨op, List.mem_cons_self, rfl⟩
    · exact (ih h).imp_right fun ⟨op, hop, ht⟩ => ⟨op, List.mem_cons_of_mem _ hop, ht⟩

/-- The lines of a body are not mistaken for headers or ends. -/
theorem plain_of_bodyFrom {ops : List Op} (h : ls.map (·.text) = p.bodyFrom j ops) :
    ∀ l ∈ ls, l.plain = true := by
  intro l hl
  obtain ⟨i, htext⟩ | ⟨op, _, htext⟩ := mem_bodyFrom (h ▸ List.mem_map_of_mem hl)
  · exact plain_of_labelText htext
  · exact plain_of_instruction htext

theorem significant_bodyFrom (hp : p.Writable) (hf : f ∈ p.functions.toList) {t : List Char}
    (h : t ∈ p.bodyFrom j f.code.toList) : Significant t := by
  obtain ⟨i, rfl⟩ | ⟨op, hop, rfl⟩ := mem_bodyFrom h
  · exact significant_labelText i
  · exact Instruction.significant_text (writable_instruction hp (hp.code f hf op hop))

theorem clean_fn : Clean "fn".toList := clean_of_isIdentifier (by decide)

theorem clean_end : Clean "end".toList := clean_of_isIdentifier (by decide)

theorem words_of_header (h : isIdentifier f.name.toList = true)
    (htext : l.text = "fn".toList ++ ' ' :: f.name.toList) : l.words = ["fn", f.name] := by
  have hblank : ∀ c ∈ (' ' :: f.name.toList).head?, isBlank c = true := by
    intro c hc
    cases hc
    decide
  rw [Line.words, htext, words_append clean_fn.solid hblank, words_cons_blank (by decide),
    (solid_of_isIdentifier h).words_eq]
  simp only [List.map_cons, List.map_nil, String.ofList_toList]

theorem words_of_end (htext : l.text = "end".toList) : l.words = ["end"] := by
  rw [Line.words, htext, clean_end.solid.words_eq, List.map_singleton, String.ofList_toList]

theorem significant_texts (hp : p.Writable) {t : List Char} (ht : t ∈ p.texts) : Significant t := by
  obtain ⟨main, functions, hlist, _⟩ := hp.functions
  have hidentifiers := hp.identifiers
  rw [hlist] at hidentifiers
  rw [Program.texts, hlist, List.mem_append, List.mem_flatMap] at ht
  obtain h | ⟨f, hf, h⟩ := ht
  · exact significant_bodyFrom hp (by simp [hlist]) h
  · rw [Program.functionTexts, List.mem_cons, List.mem_append, List.mem_singleton] at h
    obtain rfl | h | rfl := h
    · exact (clean_of_isIdentifier (hidentifiers f hf)).significant.behind clean_fn
    · exact significant_bodyFrom hp (by simp [hlist, hf]) h
    · exact clean_end.significant

structure Body.Writes (p : Program) (f : FunctionCode) (b : Body) : Prop where
  name : b.name = f.name
  texts : b.lines.toList.map (·.text) = p.bodyFrom 0 f.code.toList

namespace Outline

theorem add_of_plain (h : l.plain = true) (o : Outline) : o.add l = .ok (o.addLine l) := by
  unfold add
  split
  · next rest hwords => simp [Line.plain, Line.opens, hwords] at h
  · next rest hwords => simp [Line.plain, Line.closes, hwords] at h
  · rfl

theorem foldlM_add_main (hplain : ∀ l ∈ ls, l.plain = true) (h : o.opened = none) :
    ls.foldlM add o = .ok { o with main := o.main ++ ls.toArray } := by
  induction ls generalizing o with
  | nil => simp [pure, Except.pure]
  | cons l ls ih =>
    obtain ⟨hl, hls⟩ := List.forall_mem_cons.1 hplain
    have hadd : o.addLine l = { o with main := o.main.push l } := by rw [addLine, h]
    rw [List.foldlM_cons, add_of_plain hl, hadd]
    refine (ih (o := { o with main := o.main.push l }) hls h).trans ?_
    simp

theorem foldlM_add_opened (hplain : ∀ l ∈ ls, l.plain = true) (h : o.opened = some b) :
    ls.foldlM add o = .ok { o with opened := some { b with lines := b.lines ++ ls.toArray } } := by
  induction ls generalizing o b with
  | nil => simp [pure, Except.pure, ← h]
  | cons l ls ih =>
    obtain ⟨hl, hls⟩ := List.forall_mem_cons.1 hplain
    have hadd : o.addLine l = { o with opened := some { b with lines := b.lines.push l } } := by
      rw [addLine, h]
    rw [List.foldlM_cons, add_of_plain hl, hadd]
    refine (ih hls rfl).trans ?_
    simp

theorem foldlM_add_function {header final : Line} {name : String} (hheader : header.words = ["fn", name])
    (hname : isIdentifier name.toList = true) (hplain : ∀ l ∈ ls, l.plain = true)
    (hfinal : final.words = ["end"]) (h : o.opened = none) :
    (header :: (ls ++ [final])).foldlM add o =
      .ok { o with functions := o.functions.push ⟨name, header.number, ls.toArray⟩ } := by
  have hopen : o.add header = .ok { o with opened := some ⟨name, header.number, #[]⟩ } := by
    simp [add, hheader, openFunction, h, functionName, hname, Except.mapError, bind, Except.bind, pure,
      Except.pure]
  have hclose : ∀ b, ({ o with opened := some b } : Outline).add final =
      .ok { o with functions := o.functions.push b } := fun b => by
    simp [add, hfinal, closeFunction, Except.mapError, ← h]
  rw [List.foldlM_cons, hopen]
  change List.foldlM add { o with opened := some ⟨name, header.number, #[]⟩ } (ls ++ [final]) = _
  rw [List.foldlM_append, foldlM_add_opened hplain rfl]
  change List.foldlM add { o with opened := some _ } [final] = _
  rw [List.foldlM_cons, hclose]
  simp [pure, Except.pure, bind, Except.bind]

theorem foldlM_add_functions (hp : p.Writable) {functions : List FunctionCode}
    (hsub : ∀ f ∈ functions, f ∈ p.functions.toList.tail)
    (htexts : ls.map (·.text) = functions.flatMap p.functionTexts) (h : o.opened = none) :
    ∃ bodies, ls.foldlM add o = .ok { o with functions := o.functions ++ bodies.toArray } ∧
      List.Forall₂ (Body.Writes p) functions bodies := by
  induction functions generalizing ls o with
  | nil =>
    obtain rfl := List.map_eq_nil_iff.1 htexts
    exact ⟨[], by simp [pure, Except.pure], .nil⟩
  | cons f functions ih =>
    obtain ⟨hf, hfunctions⟩ := List.forall_mem_cons.1 hsub
    -- the lines are cut into the header, the body, the end and what is left
    rw [List.flatMap_cons, List.map_eq_append_iff] at htexts
    obtain ⟨own, rest, rfl, hown, hrest⟩ := htexts
    rw [Program.functionTexts, List.map_eq_cons_iff] at hown
    obtain ⟨header, inner, rfl, hheader, hinner⟩ := hown
    obtain ⟨body, last, rfl, hbody, hlast⟩ := List.map_eq_append_iff.1 hinner
    obtain ⟨final, _, rfl, hfinal, hnil⟩ := List.map_eq_cons_iff.1 hlast
    obtain rfl := List.map_eq_nil_iff.1 hnil
    have hname := hp.identifiers f hf
    have hadd := foldlM_add_function (words_of_header hname hheader) hname (plain_of_bodyFrom hbody)
      (words_of_end hfinal) h
    obtain ⟨bodies, hbodies, hwrites⟩ := ih
      (o := { o with functions := o.functions.push ⟨f.name, header.number, body.toArray⟩ })
      hfunctions hrest h
    refine ⟨⟨f.name, header.number, body.toArray⟩ :: bodies, ?_, .cons ⟨rfl, hbody⟩ hwrites⟩
    rw [List.foldlM_append, hadd]
    refine hbodies.trans ?_
    simp

end Outline

/-- The bodies of a written program are those of its functions. -/
theorem bodies_render (hp : p.Writable) :
    ∃ bs, bodies p.render = .ok bs ∧ List.Forall₂ (Body.Writes p) p.functions.toList bs := by
  obtain ⟨main, functions, hlist, hname⟩ := hp.functions
  have htexts : p.texts = p.bodyFrom 0 main.code.toList ++ functions.flatMap p.functionTexts := by
    rw [Program.texts, hlist]
  obtain ⟨own, rest, hlines, hown, hrest⟩ := List.map_eq_append_iff.1
    ((map_text_lines fun t => significant_texts hp (t := t)).trans htexts)
  obtain ⟨bodies, hbodies, hwrites⟩ := Outline.foldlM_add_functions hp (by simp [hlist]) hrest
    (o := { main := own.toArray }) rfl
  refine ⟨⟨"", 0, own.toArray⟩ :: bodies, ?_, hlist ▸ .cons ⟨hname.symm, hown⟩ hwrites⟩
  have hmain : own.foldlM Outline.add {} = .ok { main := own.toArray } := by
    rw [Outline.foldlM_add_main (plain_of_bodyFrom hown) rfl]
    simp
  rw [Source.bodies, Program.render, hlines, List.foldlM_append, hmain]
  simp only [bind, Except.bind, hbodies]
  simp [Outline.bodies]

structure Layout.Known (s : Layout) (size known : Nat) : Prop where
  size : s.code.size = size
  position : ∀ i, s.position? (labelName i) = if i < known then some i else none

theorem Layout.add_label (h : s.Known j j) (htext : l.text = labelText j) :
    ∃ s', s.add l = .ok s' ∧ s'.code = s.code ∧ s'.Known j (j + 1) := by
  have hlabel : label? l.text = some (labelName j) := label?_eq_some.2 htext
  have hnew : s.position? (labelName j) = none := by rw [h.position, if_neg (Nat.lt_irrefl j)]
  refine ⟨{ s with labels := (labelName j, s.code.size) :: s.labels }, ?_, rfl, h.size, fun i => ?_⟩
  · simp [Layout.add, hlabel, isIdentifier_labelName, hnew]
  · by_cases heq : i = j
    · rw [heq, Layout.position?, List.lookup_cons_self, h.size, if_pos (Nat.lt_succ_self j)]
    · have hposition := h.position i
      rw [Layout.position?] at hposition ⊢
      rw [List.lookup_cons, beq_false_of_ne fun hname => heq (labelName_inj.1 hname)]
      refine hposition.trans (if_congr ?_ rfl rfl)
      omega

theorem Layout.add_instruction {i : Instruction} (h : s.Known j (j + 1)) (hi : i.Writable)
    (htext : l.text = i.text) :
    s.add l = .ok { s with code := s.code.push l } ∧
      ({ s with code := s.code.push l } : Layout).Known (j + 1) (j + 1) := by
  have hlabel : label? l.text = none := by
    rw [label?, htext, if_neg (Instruction.getLast?_text hi)]
  refine ⟨by rw [Layout.add, hlabel], ?_, h.position⟩
  rw [Array.size_push, h.size]

theorem Layout.foldlM_add {ops : List Op} (hops : ∀ op ∈ ops, (op.instruction p).Writable) (h : s.Known j j)
    (htexts : ls.map (·.text) = p.bodyFrom j ops) :
    ∃ s', ls.foldlM Layout.add s = .ok s' ∧ s'.Known (j + ops.length) (j + ops.length + 1) ∧
      ∃ code, s'.code = s.code ++ code.toArray ∧
        List.Forall₂ (fun op l => l.text = (op.instruction p).text) ops code := by
  induction ops generalizing j s ls with
  | nil =>
    obtain ⟨l, _, rfl, htext, hnil⟩ := List.map_eq_cons_iff.1 htexts
    obtain rfl := List.map_eq_nil_iff.1 hnil
    obtain ⟨s', hadd, hcode, hknown⟩ := Layout.add_label h htext
    exact ⟨s', by simp [hadd, bind, Except.bind, pure, Except.pure], hknown, [], by simp [hcode], .nil⟩
  | cons op ops ih =>
    obtain ⟨hop, hops⟩ := List.forall_mem_cons.1 hops
    obtain ⟨l, _, rfl, htext, htail⟩ := List.map_eq_cons_iff.1 htexts
    obtain ⟨l', rest, rfl, htext', hrest⟩ := List.map_eq_cons_iff.1 htail
    obtain ⟨s₁, hadd, hcode, hknown⟩ := Layout.add_label h htext
    obtain ⟨hadd', hknown'⟩ := Layout.add_instruction hknown hop htext'
    obtain ⟨s', hfold, hknown'', code, hcode', hforall⟩ := ih hops hknown' hrest
    refine ⟨s', ?_, ?_, l' :: code, ?_, .cons htext' hforall⟩
    · simp only [List.foldlM_cons, hadd, bind, Except.bind, hadd']
      exact hfold
    · have hlength : j + (op :: ops).length = j + 1 + ops.length := by rw [List.length_cons]; omega
      rw [hlength]
      exact hknown''
    · rw [hcode', hcode]
      simp

theorem exists_mapM {α β γ ε : Type} {R : γ → α → Prop} {S : γ → β → Prop} {g : α → Except ε β}
    {cs : List γ} {as : List α} (h : List.Forall₂ R cs as)
    (hg : ∀ c ∈ cs, ∀ a, R c a → ∃ b, g a = .ok b ∧ S c b) :
    ∃ bs, as.mapM g = .ok bs ∧ List.Forall₂ S cs bs := by
  induction h with
  | nil => exact ⟨[], rfl, .nil⟩
  | cons hca _ ih =>
    obtain ⟨hc, hcs⟩ := List.forall_mem_cons.1 hg
    obtain ⟨b, hb, hS⟩ := hc _ hca
    obtain ⟨bs, hbs, hforall⟩ := ih hcs
    refine ⟨b :: bs, ?_, .cons hS hforall⟩
    simp [List.mapM_cons, hb, hbs, bind, Except.bind, pure, Except.pure]

/-- The body of a function compiles to its code. -/
theorem compileBody_of_writes (hp : p.Writable) (hf : f ∈ p.functions.toList) (h : Body.Writes p f b)
    {function? : String → Option Nat}
    (hfunction : ∀ i, 0 < i → i < p.functions.size → function? (p.nameOf i) = some i) :
    ∃ g, compileBody function? b = .ok g ∧ g.name = f.name ∧ g.code = f.code := by
  have hops : ∀ op ∈ f.code.toList, (op.instruction p).Writable := fun op hop =>
    writable_instruction hp (hp.code f hf op hop)
  obtain ⟨s, hlayout, hknown, code, hcode, hforall⟩ :=
    Layout.foldlM_add (s := {}) hops ⟨rfl, fun i => rfl⟩ h.texts
  have hlabel : ∀ i ≤ f.code.size, s.position? (labelName i) = some i := fun i hi => by
    rw [hknown.position, if_pos]
    rw [Array.length_toList]
    omega
  obtain ⟨ops, hmap, heq⟩ := exists_mapM (g := compileLine ⟨s.position?, function?⟩) (S := Eq) hforall
    fun op hop l htext => by
      have hresolve : (op.instruction p).resolve? ⟨s.position?, function?⟩ = some op :=
        resolve?_instruction (hp.code f hf op hop) hlabel hfunction
      have hread := Instruction.read?_text (hops op hop)
      have htrimmed := (Instruction.significant_text (hops op hop)).trimmed
      rw [← htext] at hread htrimmed
      exact ⟨op, by rw [compileLine, compileOp_of_read? htrimmed hread hresolve]; rfl, rfl⟩
  rw [List.forall₂_eq_eq_eq] at heq
  have hlayout' : layout b = .ok s := hlayout
  have hmapM : s.code.mapM (compileLine ⟨s.position?, function?⟩) = .ok f.code := by
    have hlist : s.code.toList = code := by simp [hcode]
    rw [Array.mapM_eq_mapM_toList, hlist, hmap, ← heq]
    rfl
  refine ⟨⟨b.name, f.code, s.code.map (·.number)⟩, ?_, h.name, rfl⟩
  rw [compileBody, hlayout']
  change (do let code ← s.code.mapM (compileLine ⟨s.position?, function?⟩); _) = _
  rw [hmapM]
  rfl

theorem map_eq_of_forall₂ {α β γ : Type} {R : α → β → Prop} {φ : α → γ} {ψ : β → γ} {as : List α}
    {bs : List β} (h : List.Forall₂ R as bs) (hR : ∀ a b, R a b → ψ b = φ a) : bs.map ψ = as.map φ := by
  induction h with
  | nil => rfl
  | cons hab _ ih => rw [List.map_cons, List.map_cons, hR _ _ hab, ih]

theorem functionIndex?_nameOf (hp : p.Writable) {bs : List Body}
    (hnames : bs.map (·.name) = p.functions.toList.map (·.name)) {i : Nat} (hpos : 0 < i)
    (hi : i < p.functions.size) : functionIndex? bs.tail (p.nameOf i) = some i := by
  obtain ⟨main, functions, hlist, _⟩ := hp.functions
  obtain ⟨i, rfl⟩ := Nat.exists_eq_succ_of_ne_zero (Nat.ne_of_gt hpos)
  have hdistinct := hp.distinct
  rw [hlist, List.tail_cons] at hdistinct
  have htail : bs.tail.map (·.name) = functions.map (·.name) := by
    rw [List.map_tail, hnames, hlist]
    rfl
  have hlt : i < (functions.map (·.name)).length := by
    rw [← Array.length_toList, hlist, List.length_cons] at hi
    rw [List.length_map]
    exact Nat.lt_of_succ_lt_succ hi
  have hname : p.nameOf (i + 1) = (functions.map (·.name))[i] := by
    rw [Program.nameOf, ← Array.getElem?_toList, hlist, List.getElem?_cons_succ, ← List.getElem?_map,
      List.getElem?_eq_getElem hlt]
    rfl
  have hfind : (functions.map (·.name)).findIdx? (· == p.nameOf (i + 1)) = some i := by
    rw [List.findIdx?_eq_some_iff_getElem]
    refine ⟨hlt, by rw [hname, beq_self_eq_true], fun j hj heq => ?_⟩
    rw [hname, beq_iff_eq, hdistinct.getElem_inj_iff] at heq
    exact absurd heq (Nat.ne_of_lt hj)
  rw [← htail, List.findIdx?_map] at hfind
  rw [functionIndex?, show bs.tail.findIdx? (·.name == p.nameOf (i + 1)) = some i from hfind,
    Option.map_some]

/-- Every program that can be written compiles back to functions of the same names, in the same order,
with the same code. -/
theorem compile_render (chunk : String) (p : Program) (hp : p.Writable) :
    ∃ p', compile chunk p.render = .ok p' ∧ p'.chunk = chunk ∧
      p'.functions.map (·.name) = p.functions.map (·.name) ∧
      p'.functions.map (·.code) = p.functions.map (·.code) := by
  obtain ⟨bs, hbodies, hwrites⟩ := bodies_render hp
  have hnames : bs.map (·.name) = p.functions.toList.map (·.name) :=
    map_eq_of_forall₂ hwrites fun _ _ h => h.name
  have hdistinct : duplicate? [] bs.tail = none := by
    rw [duplicate?_eq_none, List.map_tail, hnames, ← List.map_tail]
    exact ⟨hp.distinct, fun _ _ h => List.not_mem_nil h⟩
  obtain ⟨gs, hgs, hsame⟩ := exists_mapM (g := compileBody (functionIndex? bs.tail)) hwrites
    fun f hf b hb => compileBody_of_writes hp hf hb fun i => functionIndex?_nameOf hp hnames
  refine ⟨⟨chunk, gs.toArray⟩, ?_, rfl, ?_, ?_⟩
  · rw [compile, hbodies]
    change compileBodies chunk bs = _
    rw [compileBodies, hdistinct]
    dsimp only
    rw [hgs]
    rfl
  · rw [← Array.toList_inj, Array.toList_map, Array.toList_map]
    exact map_eq_of_forall₂ hsame fun _ _ h => h.1
  · rw [← Array.toList_inj, Array.toList_map, Array.toList_map]
    exact map_eq_of_forall₂ hsame fun _ _ h => h.2

/-- A program whose functions have the names of other things, with the least integer, the largest word, a
jump behind the last instruction and a text with a wide blank in it. -/
def keywords : Program :=
  ⟨"a", #[⟨"", #[.push Int64.minValue, .jumpz 4, .call 2, .jump 0], #[1, 2, 3, 4]⟩,
    ⟨"fn", #[.raise "no\u2003such: key", .ret], #[6, 7]⟩,
    ⟨"end", #[.alloc 18446744073709551615, .host "push", .call 3], #[9, 10, 11]⟩, ⟨"push", #[], #[]⟩]⟩

theorem compile_render_keywords :
    keywords.Writable ∧
    keywords.texts = (["L0:", "push -9223372036854775808", "L1:", "jumpz L4", "L2:", "call end", "L3:",
      "jump L0", "L4:", "fn fn", "L0:", "raise no\u2003such: key", "L1:", "ret", "L2:", "end", "fn end",
      "L0:", "alloc 18446744073709551615", "L1:", "host push", "L2:", "call push", "L3:", "end",
      "fn push", "L0:", "end"].map String.toList) ∧
    ∃ p', compile "c" keywords.render = .ok p' ∧ p'.chunk = "c" ∧
      p'.functions.map (·.name) = #["", "fn", "end", "push"] ∧
      p'.functions.map (·.code) = keywords.functions.map (·.code) := by
  have hwritable : keywords.Writable := ⟨rfl, by decide, by decide, by decide⟩
  obtain ⟨p', hcompile, hchunk, hnames, hcode⟩ := compile_render "c" keywords hwritable
  exact ⟨hwritable, by decide +kernel, p', hcompile, hchunk, hnames.trans (by simp [keywords]), hcode⟩

end Source

end TaskLoop
