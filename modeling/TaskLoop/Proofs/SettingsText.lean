import TaskLoop.Settings
import TaskLoop.Proofs.JsonText

namespace TaskLoop

namespace Json

variable {v w : Value} {s : String}

/-- The units of a text: a character is a unit, or two surrogates if it lies beyond 16 bits. -/
inductive Encodes : List StringUnit → List Char → Prop
  | nil : Encodes [] []
  | char (c : Char) {units : List StringUnit} {cs : List Char} (rest : Encodes units cs) :
      Encodes (.char c :: units) (c :: cs)
  | pair {c : Char} (beyond : 0x10000 ≤ c.toNat) {units : List StringUnit} {cs : List Char}
      (rest : Encodes units cs) :
      Encodes (.surrogate (0xd800 + (c.toNat - 0x10000) / 0x400) ::
        .surrogate (0xdc00 + (c.toNat - 0x10000) % 0x400) :: units) (c :: cs)

theorem Encodes.text?_eq {units : List StringUnit} {cs : List Char} (h : Encodes units cs) :
    text? units = some cs := by
  induction h with
  | nil => rfl
  | char c rest ih => rw [text?, ih, Option.map_some]
  | @pair c beyond units cs rest ih =>
    have hbound : c.toNat < 0x110000 := by
      obtain h | h := c.valid
      · exact h.trans (by decide)
      · exact h.2
    have hcode : 0x10000 + (0xd800 + (c.toNat - 0x10000) / 0x400 - 0xd800) * 0x400 +
        (0xdc00 + (c.toNat - 0x10000) % 0x400 - 0xdc00) = c.toNat := by omega
    rw [text?, if_pos (by omega), ih, Option.map_some, hcode, Char.ofNat_toNat]

abbrev Members := List (List StringUnit × Value)

structure RecordField where
  name : String
  value : Option (Value → Prop)

def RecordField.Finds (part : RecordField) (o : Option Value) : Prop :=
  Option.Rel (fun P v => P v) part.value o

inductive Entries : List RecordField → Members → Prop
  | nil : Entries [] []
  | absent {part : RecordField} {parts : List RecordField} {entries : Members}
      (absent : part.value = none) (rest : Entries parts entries) : Entries (part :: parts) entries
  | given {part : RecordField} {P : Value → Prop} {units : List StringUnit} {v : Value}
      {parts : List RecordField} {entries : Members} (given : part.value = some P)
      (key : Encodes units part.name.toList) (value : P v) (rest : Entries parts entries) :
      Entries (part :: parts) ((units, v) :: entries)

/-- A record as it is written. An object has its keys in any order, and any others among them; an array
has the values of the first fields. -/
inductive RecordText (parts : List RecordField) : Value → Prop
  | object {fields known others : Members} (entries : Entries parts known)
      (unknown : ∀ f ∈ others, ∃ key : String, Encodes f.1 key.toList ∧ key ∉ parts.map (·.name))
      (perm : fields.Perm (known ++ others)) : RecordText parts (.object fields)
  | array {first rest : List RecordField} {items : List Value} (split : parts = first ++ rest)
      (given : List.Forall₂ (fun part v => ∃ P, part.value = some P ∧ P v) first items)
      (absent : ∀ part ∈ rest, part.value = none) : RecordText parts (.array items)

def found (name : String) (fields : Members) : List Value :=
  valuesAt name (fields.map fun f => (text? f.1, f.2))

theorem found_append (fields fields' : Members) :
    found s (fields ++ fields') = found s fields ++ found s fields' := by
  simp [found, valuesAt]

theorem found_perm (s : String) {fields fields' : Members} (h : fields.Perm fields') :
    (found s fields).Perm (found s fields') :=
  ((h.map _).filter _).map _

theorem found_sublist (s : String) {fields fields' : Members} (h : fields.Sublist fields') :
    (found s fields).Sublist (found s fields') :=
  ((h.map _).filter _).map _

theorem found_cons_self {key : List StringUnit} (h : Encodes key s.toList) (fields : Members) :
    found s ((key, v) :: fields) = v :: found s fields := by
  simp [found, valuesAt, h.text?_eq]

theorem found_cons_of_ne {key : List StringUnit} {other : String} (h : Encodes key other.toList)
    (hne : other ≠ s) (fields : Members) : found s ((key, v) :: fields) = found s fields := by
  simp [found, valuesAt, h.text?_eq, String.toList_inj, hne]

theorem found_of_unknown {fields : Members}
    (h : ∀ f ∈ fields, ∃ key : String, Encodes f.1 key.toList ∧ key ≠ s) : found s fields = [] := by
  induction fields with
  | nil => rfl
  | cons f fields ih =>
    obtain ⟨⟨key, hkey, hne⟩, hfields⟩ := List.forall_mem_cons.1 h
    exact (found_cons_of_ne hkey hne fields).trans (ih hfields)

namespace Entries

variable {parts : List RecordField} {entries : Members}

theorem exists_key (h : Entries parts entries) :
    ∀ f ∈ entries, ∃ key ∈ parts.map (·.name), Encodes f.1 key.toList := by
  induction h with
  | nil => exact fun f hf => absurd hf List.not_mem_nil
  | absent absent rest ih =>
    intro f hf
    obtain ⟨key, hmem, hkey⟩ := ih f hf
    exact ⟨key, List.mem_cons_of_mem _ hmem, hkey⟩
  | given given key value rest ih =>
    refine List.forall_mem_cons.2 ⟨⟨_, List.mem_cons_self, key⟩, fun f hf => ?_⟩
    obtain ⟨key, hmem, hkey⟩ := ih f hf
    exact ⟨key, List.mem_cons_of_mem _ hmem, hkey⟩

theorem found_of_not_mem (h : Entries parts entries) (hs : s ∉ parts.map (·.name)) :
    found s entries = [] := by
  refine found_of_unknown fun f hf => ?_
  obtain ⟨key, hmem, hkey⟩ := h.exists_key f hf
  exact ⟨key, hkey, fun heq => hs (heq ▸ hmem)⟩

theorem exists_found (h : Entries parts entries) (hnodup : (parts.map (·.name)).Nodup) :
    ∀ part ∈ parts, ∃ o, part.Finds o ∧ found part.name entries = o.toList := by
  induction h with
  | nil => exact fun part hpart => absurd hpart List.not_mem_nil
  | @absent part parts entries absent rest ih =>
    rw [List.map_cons, List.nodup_cons] at hnodup
    refine List.forall_mem_cons.2 ⟨⟨none, ?_, rest.found_of_not_mem hnodup.1⟩, ih hnodup.2⟩
    rw [RecordField.Finds, absent]
    exact .none
  | @given part P units v parts entries given key value rest ih =>
    rw [List.map_cons, List.nodup_cons] at hnodup
    refine List.forall_mem_cons.2 ⟨⟨some v, ?_, ?_⟩, fun other hother => ?_⟩
    · rw [RecordField.Finds, given]
      exact .some value
    · rw [found_cons_self key, rest.found_of_not_mem hnodup.1]
      rfl
    · have hne : part.name ≠ other.name := fun heq => hnodup.1 (heq ▸ List.mem_map_of_mem hother)
      rw [found_cons_of_ne key hne]
      exact ih hnodup.2 other hother

end Entries

theorem exists_mapM_eq_some {α β γ : Type} {R : α → γ → Prop} {f : α → β} {g : β → Option γ} {as : List α}
    (h : ∀ a ∈ as, ∃ c, R a c ∧ g (f a) = some c) :
    ∃ cs, (as.map f).mapM g = some cs ∧ List.Forall₂ R as cs := by
  induction as with
  | nil => exact ⟨[], rfl, .nil⟩
  | cons a as ih =>
    obtain ⟨⟨c, hR, hc⟩, has⟩ := List.forall_mem_cons.1 h
    obtain ⟨cs, hcs, hforall⟩ := ih has
    exact ⟨c :: cs, by simp [List.mapM_cons, hc, hcs], .cons hR hforall⟩

/-- The fields of a record are found where they are given. -/
theorem RecordText.exists_record? {parts : List RecordField} (h : RecordText parts v)
    (hnodup : (parts.map (·.name)).Nodup) :
    ∃ os, record? (parts.map (·.name)) v = some os ∧ List.Forall₂ RecordField.Finds parts os := by
  cases h with
  | @object fields known others entries unknown perm =>
    have hkeys : (fields.map fun f => (text? f.1, f.2)).all (·.1.isSome) = true := by
      rw [List.all_map, List.all_eq_true]
      intro f hf
      obtain ⟨key, hkey⟩ : ∃ key, Encodes f.1 key := by
        obtain hf | hf := List.mem_append.1 (perm.mem_iff.1 hf)
        · exact (entries.exists_key f hf).imp' _ fun _ h => h.2
        · exact (unknown f hf).imp' _ fun _ h => h.1
      exact Option.isSome_iff_exists.2 ⟨key, hkey.text?_eq⟩
    have hfound : ∀ part ∈ parts, ∃ o, part.Finds o ∧ found part.name fields = o.toList := by
      intro part hpart
      obtain ⟨o, ho, hentries⟩ := entries.exists_found hnodup part hpart
      have hothers : found part.name others = [] := found_of_unknown fun f hf =>
        (unknown f hf).imp fun key h => ⟨h.1, fun heq => h.2 (heq ▸ List.mem_map_of_mem hpart)⟩
      have hperm := found_perm part.name perm
      rw [found_append, hothers, hentries, List.append_nil] at hperm
      refine ⟨o, ho, ?_⟩
      cases o with
      | none => exact hperm.eq_nil
      | some v => exact hperm.eq_singleton
    rw [record?, if_pos hkeys]
    refine exists_mapM_eq_some fun part hpart => ?_
    obtain ⟨o, ho, heq⟩ := hfound part hpart
    refine ⟨o, ho, ?_⟩
    rw [found] at heq
    cases o <;> simp only [heq, Option.toList_none, Option.toList_some]
  | @array first rest items split given absent =>
    have hlength : items.length = first.length := given.length_eq.symm
    subst split
    refine ⟨_, if_pos (by simp [hlength]), List.rel_append ?_ ?_⟩
    · refine List.forall₂_map_right_iff.2 (given.imp fun part v h => ?_)
      obtain ⟨P, hP, hv⟩ := h
      rw [RecordField.Finds, hP]
      exact .some hv
    · have hcount : ((first ++ rest).map (·.name)).length - items.length = rest.length := by
        simp [hlength]
      rw [hcount, ← List.map_const', List.forall₂_map_right_iff, List.forall₂_same]
      intro part hpart
      rw [RecordField.Finds, absent part hpart]
      exact .none

theorem RecordField.Finds.fieldOr_eq {α : Type} {given : Prop} [Decidable given] {P : Value → Prop}
    {o : Option Value} {read : Value → Option α} {d x : α}
    (h : RecordField.Finds ⟨s, if given then some P else none⟩ o)
    (hread : ∀ v, P v → read v = some x) : fieldOr d read o = some (if given then x else d) := by
  by_cases hgiven : given
  · rw [RecordField.Finds, if_pos hgiven] at h
    cases h with
    | some hv => rw [fieldOr, hread _ hv, if_pos hgiven]
  · rw [RecordField.Finds, if_neg hgiven] at h
    cases h with
    | none => rw [fieldOr, if_neg hgiven]

structure RecordSlot where
  name : String
  width : Option Nat

/-- The record gives the field the value: under its key, or in its place. -/
inductive Gives (slots : List RecordSlot) (slot : RecordSlot) (w : Value) : Value → Prop
  | object {units : List StringUnit} {fields : Members} (known : slot ∈ slots)
      (key : Encodes units slot.name.toList) (mem : (units, w) ∈ fields) :
      Gives slots slot w (.object fields)
  | array {items : List Value} {i : Nat} (known : slots[i]? = some slot) (item : items[i]? = some w) :
      Gives slots slot w (.array items)

/-- A known key is given twice, or it is given null or an integer that does not fit. -/
inductive Mistaken (slots : List RecordSlot) : Value → Prop
  | twice {slot : RecordSlot} {units units' : List StringUnit} {w w' : Value}
      {fields : Members} (known : slot ∈ slots)
      (key : Encodes units slot.name.toList) (key' : Encodes units' slot.name.toList)
      (both : [(units, w), (units', w')].Sublist fields) : Mistaken slots (.object fields)
  | null {slot : RecordSlot} {v : Value} (gives : Gives slots slot .null v) : Mistaken slots v
  | integer {slot : RecordSlot} {width : Nat} {n : Number} {v : Value} (integer : slot.width = some width)
      (gives : Gives slots slot (.number n) v) (integral : n.integral = true)
      (outside : n.negative = true ∨ 2 ^ width ≤ n.whole) : Mistaken slots v

def RecordSlot.Refuses (slot : RecordSlot) (w : Value) : Prop :=
  w = .null ∨ ∃ width, slot.width = some width ∧ unsigned? width w = none

theorem RecordSlot.Refuses.unsigned?_eq {width : Nat} (h : RecordSlot.Refuses ⟨s, some width⟩ w) :
    unsigned? width w = none := by
  obtain rfl | ⟨_, ⟨⟩, h⟩ := h
  · rfl
  · exact h

theorem RecordSlot.Refuses.eq_null (h : RecordSlot.Refuses ⟨s, none⟩ w) : w = .null := by
  obtain hnull | ⟨_, hwidth, _⟩ := h
  · exact hnull
  · cases hwidth

theorem unsigned?_eq_none {width : Nat} {n : Number} (h : n.negative = true ∨ 2 ^ width ≤ n.whole) :
    unsigned? width (.number n) = none := by
  rw [unsigned?, Nat.one_shiftLeft, if_neg]
  rintro ⟨-, hnegative, hwhole⟩
  exact h.elim hnegative hwhole.not_ge

/-- What is picked for a field is the one value under its name, if there is one. -/
theorem exists_pick {slots : List RecordSlot} {fields : Members} {os : List (Option Value)}
    (h : record? (slots.map (·.name)) (.object fields) = some os) :
    ∀ slot ∈ slots, ∃ o, (slot, o) ∈ slots.zip os ∧ found slot.name fields = o.toList := by
  rw [record?, Option.ite_none_right_eq_some] at h
  replace h := h.2
  induction slots generalizing os with
  | nil => exact fun slot hslot => absurd hslot List.not_mem_nil
  | cons slot slots ih =>
    obtain ⟨o, ho, h⟩ := Option.bind_eq_some_iff.1 ((List.mapM_cons ..).symm.trans h)
    obtain ⟨os, hos, h⟩ := Option.bind_eq_some_iff.1 h
    cases h
    refine List.forall_mem_cons.2 ⟨⟨o, List.mem_cons_self, ?_⟩, fun other hother => ?_⟩
    · split at ho <;> grind [found]
    · obtain ⟨o', hmem, hfound⟩ := ih hos other hother
      exact ⟨o', List.mem_cons_of_mem _ hmem, hfound⟩

/-- A field that a record gives is the one that is found. -/
theorem Gives.mem_zip {slots : List RecordSlot} {slot : RecordSlot} {os : List (Option Value)}
    (h : Gives slots slot w v) (hos : record? (slots.map (·.name)) v = some os) :
    (slot, some w) ∈ slots.zip os := by
  cases h with
  | @object units fields known key mem =>
    obtain ⟨o, hmem, hfound⟩ := exists_pick hos slot known
    have hw : [w].Sublist o.toList := by
      rw [← hfound]
      simpa [found_cons_self key, found_of_unknown] using
        found_sublist slot.name (List.singleton_sublist.2 mem)
    rwa [Option.mem_toList.1 (List.singleton_sublist.1 hw)] at hmem
  | @array items i known item =>
    rw [record?, Option.ite_none_right_eq_some, Option.some.injEq] at hos
    obtain ⟨-, rfl⟩ := hos
    refine List.mem_of_getElem? (i := i) (List.getElem?_zip_eq_some.2 ⟨known, ?_⟩)
    grind

theorem Mistaken.exists_refuses {slots : List RecordSlot} {os : List (Option Value)} (h : Mistaken slots v)
    (hos : record? (slots.map (·.name)) v = some os) :
    ∃ slot w, (slot, some w) ∈ slots.zip os ∧ slot.Refuses w := by
  cases h with
  | @twice slot units units' w w' fields known key key' both =>
    -- at most one value is picked under a name
    obtain ⟨o, hmem, hfound⟩ := exists_pick hos slot known
    have hlength := (found_sublist slot.name both).length_le
    rw [found_cons_self key, found_cons_self key', hfound] at hlength
    cases o <;> simp at hlength
  | @null slot v gives => exact ⟨slot, .null, gives.mem_zip hos, .inl rfl⟩
  | @integer slot width n v integer gives integral outside =>
    exact ⟨slot, .number n, gives.mem_zip hos, .inr ⟨width, integer, unsigned?_eq_none outside⟩⟩

def IsInteger (n : Nat) (v : Value) : Prop := v = .number { whole := n }

def IsText (text : String) (v : Value) : Prop := ∃ units, v = .string units ∧ Encodes units text.toList

theorem IsText.string?_eq {text : String} (h : IsText text v) : string? v = some text := by
  obtain ⟨units, rfl, hunits⟩ := h
  rw [string?, hunits.text?_eq, Option.map_some, String.ofList_toList]

theorem unsigned?_of_isInteger {n width : Nat} (hn : n < 2 ^ width) (h : IsInteger n v) :
    unsigned? width v = some n := by
  rw [h, unsigned?, Nat.one_shiftLeft, if_pos ⟨rfl, Bool.false_ne_true, hn⟩]

end Json

open Json

variable {v : Json.Value}

theorem uint32?_eq_some {n : UInt32} (h : IsInteger n.toNat v) : uint32? v = some n := by
  rw [uint32?, unsigned?_of_isInteger n.toNat_lt h, Option.map_some, UInt32.ofNat_toNat]

theorem uint64?_eq_some {n : UInt64} (h : IsInteger n.toNat v) : uint64? v = some n := by
  rw [uint64?, unsigned?_of_isInteger n.toNat_lt h, Option.map_some, UInt64.ofNat_toNat]

namespace RepeatPolicy

def name : RepeatPolicy → String
  | fromDeadline => "from_deadline"
  | fromNow => "from_now"

inductive Written (p : RepeatPolicy) : Json.Value → Prop
  | text {v : Json.Value} (text : IsText p.name v) : Written p v
  | object {units : List StringUnit} (key : Encodes units p.name.toList) :
      Written p (.object [(units, .null)])

theorem Written.ofJson?_eq {p : RepeatPolicy} (h : p.Written v) : ofJson? v = some p := by
  have hname : ofName? p.name = some p := by cases p <;> rfl
  cases h with
  | text text =>
    obtain ⟨units, rfl, hunits⟩ := text
    rw [ofJson?, IsText.string?_eq ⟨units, rfl, hunits⟩]
    exact hname
  | @object units key =>
    rw [ofJson?, IsText.string?_eq ⟨units, rfl, key⟩]
    exact hname

end RepeatPolicy

namespace Settings

inductive Field
  | hookInterval
  | repeatPolicy
  | chunkName
  | memory
  | callDepth
  | stack
deriving DecidableEq

def Field.ofQueue : Field → Bool
  | hookInterval | repeatPolicy | chunkName => true
  | memory | callDepth | stack => false

def queueParts (c : QueueConfig) (given : Finset Field) : List RecordField :=
  [⟨"hook_interval", if .hookInterval ∈ given then some (IsInteger c.hookInterval.toNat) else none⟩,
    ⟨"repeat_policy", if .repeatPolicy ∈ given then some c.repeatPolicy.Written else none⟩,
    ⟨"chunk_name", if .chunkName ∈ given then some (IsText c.chunkName) else none⟩]

def machineParts (l : Limits) (given : Finset Field) : List RecordField :=
  [⟨"memory_limit", if .memory ∈ given then some (IsInteger l.memory.toNat) else none⟩,
    ⟨"max_call_depth", if .callDepth ∈ given then some (IsInteger l.callDepth.toNat) else none⟩,
    ⟨"max_stack", if .stack ∈ given then some (IsInteger l.stack.toNat) else none⟩]

/-- The value gives these fields of the settings. A record of which no field is given may be left out. -/
def Renders (s : Settings) (given : Finset Field) (v : Json.Value) : Prop :=
  ∃ queue machine : Bool,
    RecordText [⟨"scheduler", if queue then some (RecordText (queueParts s.queue given)) else none⟩,
      ⟨"vm", if machine then some (RecordText (machineParts s.machine given)) else none⟩] v ∧
    (∀ f ∈ given, if f.ofQueue then queue else machine)

def keep (s : Settings) (given : Finset Field) : Settings where
  queue :=
    { hookInterval := if .hookInterval ∈ given then s.queue.hookInterval else 1
      repeatPolicy := if .repeatPolicy ∈ given then s.queue.repeatPolicy else .fromDeadline
      chunkName := if .chunkName ∈ given then s.queue.chunkName else "usercode" }
  machine :=
    { memory := if .memory ∈ given then s.machine.memory else 65536
      callDepth := if .callDepth ∈ given then s.machine.callDepth else 200
      stack := if .stack ∈ given then s.machine.stack else 1024 }

variable {s : Settings} {given : Finset Field}

theorem queue_ofJson?_eq (h : RecordText (queueParts s.queue given) v) :
    QueueConfig.ofJson? v = some (s.keep given).queue := by
  obtain ⟨os, hos, hforall⟩ := h.exists_record?
    (show List.Nodup ["hook_interval", "repeat_policy", "chunk_name"] by decide)
  cases hforall with | cons hinterval hforall
  cases hforall with | cons hpolicy hforall
  cases hforall with | cons hname hforall
  cases hforall
  change record? ["hook_interval", "repeat_policy", "chunk_name"] v = _ at hos
  rw [QueueConfig.ofJson?, hos]
  simp only [Option.bind_eq_bind, Option.bind_some, hinterval.fieldOr_eq fun _ => uint32?_eq_some,
    hpolicy.fieldOr_eq fun _ => RepeatPolicy.Written.ofJson?_eq,
    hname.fieldOr_eq fun _ => IsText.string?_eq]
  rfl

theorem machine_ofJson?_eq (h : RecordText (machineParts s.machine given) v) :
    Limits.ofJson? v = some (s.keep given).machine := by
  obtain ⟨os, hos, hforall⟩ := h.exists_record?
    (show List.Nodup ["memory_limit", "max_call_depth", "max_stack"] by decide)
  cases hforall with | cons hmemory hforall
  cases hforall with | cons hdepth hforall
  cases hforall with | cons hstack hforall
  cases hforall
  change record? ["memory_limit", "max_call_depth", "max_stack"] v = _ at hos
  rw [Limits.ofJson?, hos]
  simp only [Option.bind_eq_bind, Option.bind_some, hmemory.fieldOr_eq fun _ => uint64?_eq_some,
    hdepth.fieldOr_eq fun _ => uint64?_eq_some, hstack.fieldOr_eq fun _ => uint64?_eq_some]
  rfl

theorem keep_queue_eq (h : ∀ f ∈ given, f.ofQueue = false) : (s.keep given).queue = {} := by
  have habsent : ∀ f : Field, f.ofQueue = true → f ∉ given := fun f hf hmem => by
    rw [h f hmem] at hf
    contradiction
  simp only [keep, if_neg (habsent .hookInterval rfl), if_neg (habsent .repeatPolicy rfl),
    if_neg (habsent .chunkName rfl)]

theorem keep_machine_eq (h : ∀ f ∈ given, f.ofQueue = true) : (s.keep given).machine = {} := by
  have habsent : ∀ f : Field, f.ofQueue = false → f ∉ given := fun f hf hmem => by
    rw [h f hmem] at hf
    contradiction
  simp only [keep, if_neg (habsent .memory rfl), if_neg (habsent .callDepth rfl),
    if_neg (habsent .stack rfl)]

theorem Renders.ofJson?_eq (h : s.Renders given v) : ofJson? v = some (s.keep given) := by
  obtain ⟨queue, machine, hrecord, hgiven⟩ := h
  obtain ⟨os, hos, hforall⟩ := hrecord.exists_record? (show List.Nodup ["scheduler", "vm"] by decide)
  cases hforall with | cons hqueue hforall
  cases hforall with | cons hmachine hforall
  cases hforall
  -- a record may be left out only if none of its fields is given, and then its defaults are meant
  have hkeep : (if queue then (s.keep given).queue else {}) = (s.keep given).queue := by
    cases queue with
    | true => rfl
    | false =>
      refine (keep_queue_eq fun f hf => by_contra fun hne => ?_).symm
      simpa [hne] using hgiven f hf
  have hkeep' : (if machine then (s.keep given).machine else {}) = (s.keep given).machine := by
    cases machine with
    | true => rfl
    | false =>
      refine (keep_machine_eq fun f hf => by_contra fun hne => ?_).symm
      simpa [hne] using hgiven f hf
  change record? ["scheduler", "vm"] v = _ at hos
  rw [ofJson?, hos]
  simp [hqueue.fieldOr_eq fun _ => queue_ofJson?_eq, hkeep,
    hmachine.fieldOr_eq fun _ => machine_ofJson?_eq, hkeep']

def slots : List RecordSlot := [⟨"scheduler", none⟩, ⟨"vm", none⟩]

def queueSlots : List RecordSlot :=
  [⟨"hook_interval", some 32⟩, ⟨"repeat_policy", none⟩, ⟨"chunk_name", none⟩]

def machineSlots : List RecordSlot :=
  [⟨"memory_limit", some 64⟩, ⟨"max_call_depth", some 64⟩, ⟨"max_stack", some 64⟩]

inductive Mistake (v : Json.Value) : Prop
  | here (mistaken : Mistaken slots v)
  | queue {w : Json.Value} (gives : Gives slots ⟨"scheduler", none⟩ w v) (mistaken : Mistaken queueSlots w)
  | machine {w : Json.Value} (gives : Gives slots ⟨"vm", none⟩ w v) (mistaken : Mistaken machineSlots w)

theorem queue_ofJson?_eq_none (h : Mistaken queueSlots v) : QueueConfig.ofJson? v = none := by
  refine Option.eq_none_iff_forall_ne_some.2 fun c hc => ?_
  obtain ⟨os, hos, hc⟩ := Option.bind_eq_some_iff.1 hc
  obtain ⟨slot, w, hmem, hrefuses⟩ := h.exists_refuses hos
  split at hc
  · obtain ⟨_, hinterval, hc⟩ := Option.bind_eq_some_iff.1 hc
    obtain ⟨_, hpolicy, hc⟩ := Option.bind_eq_some_iff.1 hc
    obtain ⟨_, hname, -⟩ := Option.bind_eq_some_iff.1 hc
    simp only [queueSlots, List.zip_cons_cons, List.zip_nil_right, List.mem_cons, List.not_mem_nil,
      or_false, Prod.mk.injEq] at hmem
    obtain ⟨rfl, rfl⟩ | ⟨rfl, rfl⟩ | ⟨rfl, rfl⟩ := hmem
    · simp [fieldOr, uint32?, hrefuses.unsigned?_eq] at hinterval
    · simp [fieldOr, hrefuses.eq_null, RepeatPolicy.ofJson?] at hpolicy
    · simp [fieldOr, hrefuses.eq_null, string?] at hname
  · cases hc

theorem machine_ofJson?_eq_none (h : Mistaken machineSlots v) : Limits.ofJson? v = none := by
  refine Option.eq_none_iff_forall_ne_some.2 fun c hc => ?_
  obtain ⟨os, hos, hc⟩ := Option.bind_eq_some_iff.1 hc
  obtain ⟨slot, w, hmem, hrefuses⟩ := h.exists_refuses hos
  split at hc
  · obtain ⟨_, hmemory, hc⟩ := Option.bind_eq_some_iff.1 hc
    obtain ⟨_, hdepth, hc⟩ := Option.bind_eq_some_iff.1 hc
    obtain ⟨_, hstack, -⟩ := Option.bind_eq_some_iff.1 hc
    simp only [machineSlots, List.zip_cons_cons, List.zip_nil_right, List.mem_cons, List.not_mem_nil,
      or_false, Prod.mk.injEq] at hmem
    obtain ⟨rfl, rfl⟩ | ⟨rfl, rfl⟩ | ⟨rfl, rfl⟩ := hmem
    · simp [fieldOr, uint64?, hrefuses.unsigned?_eq] at hmemory
    · simp [fieldOr, uint64?, hrefuses.unsigned?_eq] at hdepth
    · simp [fieldOr, uint64?, hrefuses.unsigned?_eq] at hstack
  · cases hc

theorem Mistake.ofJson?_eq_none (h : Mistake v) : ofJson? v = none := by
  refine Option.eq_none_iff_forall_ne_some.2 fun c hc => ?_
  obtain ⟨os, hos, hc⟩ := Option.bind_eq_some_iff.1 hc
  split at hc
  · obtain ⟨_, hqueue, hc⟩ := Option.bind_eq_some_iff.1 hc
    obtain ⟨_, hmachine, -⟩ := Option.bind_eq_some_iff.1 hc
    cases h with
    | here mistaken =>
      obtain ⟨slot, w, hmem, hrefuses⟩ := mistaken.exists_refuses hos
      simp only [slots, List.zip_cons_cons, List.zip_nil_right, List.mem_cons, List.not_mem_nil, or_false,
        Prod.mk.injEq] at hmem
      obtain ⟨rfl, rfl⟩ | ⟨rfl, rfl⟩ := hmem
      · rw [hrefuses.eq_null] at hqueue
        cases hqueue
      · rw [hrefuses.eq_null] at hmachine
        cases hmachine
    | queue gives mistaken =>
      have hmem := gives.mem_zip hos
      simp [slots] at hmem
      subst hmem
      cases (queue_ofJson?_eq_none mistaken).symm.trans hqueue
    | machine gives mistaken =>
      have hmem := gives.mem_zip hos
      simp [slots] at hmem
      subst hmem
      cases (machine_ofJson?_eq_none mistaken).symm.trans hmachine
  · cases hc

/-- A field is what the command line sets, or else what the text gives, or else its default, whichever way
the text gives it. A text with a mistake in it is an error. -/
theorem exists_parse?_apply (s : Settings) (given : Finset Field) :
    (∃ t : Settings,
      (∀ text v, Spells text v → s.Renders given v → parse? text = some t) ∧
      ∀ o : Overrides,
        (t.apply o).queue.hookInterval =
          o.hookInterval.getD (if .hookInterval ∈ given then s.queue.hookInterval else 1) ∧
        (t.apply o).queue.repeatPolicy =
          (if .repeatPolicy ∈ given then s.queue.repeatPolicy else .fromDeadline) ∧
        (t.apply o).queue.chunkName =
          o.chunkName.getD (if .chunkName ∈ given then s.queue.chunkName else "usercode") ∧
        (t.apply o).machine.memory = o.memory.getD (if .memory ∈ given then s.machine.memory else 65536) ∧
        (t.apply o).machine.callDepth = (if .callDepth ∈ given then s.machine.callDepth else 200) ∧
        (t.apply o).machine.stack = (if .stack ∈ given then s.machine.stack else 1024)) ∧
    ∀ text v, Spells text v → Mistake v → parse? text = none := by
  refine ⟨⟨s.keep given, fun text v hspells hrenders => ?_, fun o => ⟨rfl, rfl, rfl, rfl, rfl, rfl⟩⟩,
    fun text v hspells hmistake => ?_⟩
  · rw [parse?, hspells.parse?_eq]
    exact hrenders.ofJson?_eq
  · rw [parse?, hspells.parse?_eq]
    exact hmistake.ofJson?_eq_none

theorem exists_parse?_apply_memory :
    (∃ t, parse? "\x7b\"x\":[],\"\\u0076m\":[7]\x7d".toList = some t ∧
      (t.apply { hookInterval := some 3 }).queue.hookInterval = 3 ∧
      (t.apply { hookInterval := some 3 }).machine.memory = 7 ∧
      (t.apply { hookInterval := some 3 }).machine.stack = 1024) ∧
    parse? "\x7b\"vm\":null\x7d".toList = none := by
  have hplain : ∀ c ∈ ['x', 'v', 'm'], UnitText [c] (.char c) := by
    simp only [List.forall_mem_cons, List.not_mem_nil, false_imp_iff, implies_true, and_true]
    exact ⟨.plain (by decide) (by decide) (by decide), .plain (by decide) (by decide) (by decide),
      .plain (by decide) (by decide) (by decide)⟩
  have hx := hplain 'x' (by simp)
  have hv := hplain 'v' (by simp)
  have hm := hplain 'm' (by simp)
  have hcode : UnitText ['\\', 'u', '0', '0', '7', '6'] (.char 'v') :=
    @UnitText.code '0' '0' '7' '6' 0 0 7 6 (.inl rfl) (.inl rfl) (.inl rfl) (.inl rfl)
  have hseven : NumberText ['7'] { whole := 7 } :=
    @NumberText.mk false ['7'] [] [] ⟨⟨by simp, by simp⟩, .inr (by simp)⟩ (.inl rfl) (.inl rfl)
  have hitems : ValueText ['[', '7', ']'] (.array [.number { whole := 7 }]) :=
    @ValueText.array [⟨[], ['7'], [], .number { whole := 7 }⟩] (by simp) (by simp [Spaces])
      (by simpa using .number hseven)
  have hgiven : ValueText "\x7b\"x\":[],\"\\u0076m\":[7]\x7d".toList
      (.object [([.char 'x'], .array []), ([.char 'v', .char 'm'], .array [.number { whole := 7 }])]) :=
    @ValueText.object [⟨[], ['"', 'x', '"'], [], [.char 'x'], ⟨[], ['[', ']'], [], .array []⟩⟩,
      ⟨[], "\"\\u0076m\"".toList, [], [.char 'v', .char 'm'],
        ⟨[], ['[', '7', ']'], [], .array [.number { whole := 7 }]⟩⟩] (by simp) (by simp [Spaces])
      (by simpa using ⟨⟨_, rfl, .cons hx .nil⟩, _, rfl, .cons hcode (.cons hm .nil)⟩)
      (by simpa using ⟨@ValueText.noItems [] (by simp [Spaces]), hitems⟩)
  have hnull : ValueText "\x7b\"vm\":null\x7d".toList (.object [([.char 'v', .char 'm'], .null)]) :=
    @ValueText.object [⟨[], "\"vm\"".toList, [], [.char 'v', .char 'm'], ⟨[], "null".toList, [], .null⟩⟩]
      (by simp) (by simp [Spaces]) (by simpa using ⟨_, rfl, .cons hv (.cons hm .nil)⟩)
      (by simpa using .null)
  have hkey : Encodes [.char 'v', .char 'm'] "vm".toList := .char 'v' (.char 'm' .nil)
  have hrenders : Renders { machine := { memory := 7 } } {.memory}
      (.object [([.char 'x'], .array []), ([.char 'v', .char 'm'], .array [.number { whole := 7 }])]) := by
    refine ⟨false, true, @RecordText.object _ _ [_] [_] (.absent rfl (.given rfl hkey ?_ .nil)) ?_
      (.swap _ _ _), by decide⟩
    · exact @RecordText.array _ [_] [_, _] _ rfl (.cons ⟨_, rfl, rfl⟩ .nil) (by simp)
    · simpa using ⟨"x", .char 'x' .nil, by decide⟩
  have hmistake : Mistake (.object [([.char 'v', .char 'm'], .null)]) :=
    .here (.null (@Gives.object _ ⟨"vm", none⟩ _ _ _ (by simp [slots]) hkey (by simp)))
  have hspells : ∀ {s v}, ValueText s v → Spells s v := fun h =>
    ⟨[], _, [], by simp, by simp [Spaces], h, by simp [Spaces]⟩
  obtain ⟨⟨t, ht, hfields⟩, herror⟩ := exists_parse?_apply { machine := { memory := 7 } } {.memory}
  obtain ⟨hinterval, -, -, hmemory, -, hstack⟩ := hfields { hookInterval := some 3 }
  exact ⟨⟨t, ht _ _ (hspells hgiven) hrenders, hinterval, hmemory, hstack⟩,
    herror _ _ (hspells hnull) hmistake⟩

end Settings

end TaskLoop
