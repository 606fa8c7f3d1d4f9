import TaskLoop.Proofs.Submission
import TaskLoop.Proofs.RunEnds

namespace TaskLoop

namespace Source

theorem compile_eq_map (chunk chunk' : String) (source : List Char) :
    compile chunk source = (compile chunk' source).map fun p => ⟨chunk, p.functions⟩ := by
  unfold compile
  cases bodies source with
  | error d => rfl
  | ok bodies =>
    change compileBodies chunk bodies = (compileBodies chunk' bodies).map _
    unfold compileBodies
    split
    · rfl
    · cases bodies.mapM (compileBody (functionIndex? bodies.tail)) <;> rfl

/-- A source is a program or not, whatever its chunk is called. -/
theorem compile_cases (source : List Char) :
    (∃ functions, ∀ chunk, compile chunk source = .ok ⟨chunk, functions⟩) ∨
      ∃ d, ∀ chunk, compile chunk source = .error d := by
  cases h : compile "" source with
  | ok p => exact .inl ⟨p.functions, fun chunk => by rw [compile_eq_map chunk "", h]; rfl⟩
  | error d => exact .inr ⟨d, fun chunk => by rw [compile_eq_map chunk "", h]; rfl⟩

end Source

structure Machine.Idle (limits : Limits) (m : Machine) : Prop where
  limits : m.limits = limits
  stack : m.stack.height = 0
  registry : m.registry.WellFormed

namespace Machine.Idle

variable {limits : Limits} {m : Machine} {chunk : String} {bytes : List UInt8} {text : List Char}

theorem load_ok {program : Program} (h : m.Idle limits) (hstack : 1 ≤ limits.stack.toNat)
    (htext : Text.Utf8.decode bytes = .ok text) (hsize : bytes.length ≤ limits.memory.toNat)
    (hcompile : Source.compile chunk text = .ok program) :
    m.load chunk bytes = .ok { m with stack := m.stack.push (.callable program) } := by
  rw [← h.limits] at hstack hsize
  have hroom : m.stack.height < m.limits.stack.toNat := by rw [h.stack]; exact hstack
  rw [load, if_neg hsize.not_gt, readSource, htext]
  simp only [hcompile, push?, if_pos hroom]

theorem load_error {d : Source.Diagnostic} (h : m.Idle limits)
    (htext : Text.Utf8.decode bytes = .ok text) (hsize : bytes.length ≤ limits.memory.toNat)
    (hcompile : Source.compile chunk text = .error d) :
    m.load chunk bytes = .error (.malformed (d.message chunk)) := by
  rw [← h.limits] at hsize
  rw [load, if_neg hsize.not_gt, readSource, htext]
  simp only [hcompile]

end Machine.Idle

structure World.Prepared (settings : Settings) (w : World) : Prop where
  loaded : w.Loaded settings.queue
  idle : ∃ E, w.engine? 0 = some (.machine E) ∧ E.machine.Idle settings.machine

theorem World.Prepared.parseAndStart {w : World} {settings : Settings} (h : w.Prepared settings)
    (source : List UInt8) : (w.parseAndStart 0 0 source).2.Prepared settings := by
  obtain ⟨E, hE, hidle⟩ := h.idle
  obtain ⟨Q, hQ, -⟩ := h.loaded.queue
  refine ⟨h.loaded.parseAndStart source, ?_⟩
  obtain ⟨error, -, hload⟩ | ⟨program, -, hload⟩ := E.machine.load_cases Q.config.chunkName source
  · rw [parseAndStart_of_error hE hQ hload]
    exact ⟨E, hE, hidle⟩
  · rw [World.parseAndStart, loadScript_of_ok hE hQ hload]
    exact ⟨_, (engine?_push ..).trans (engine?_setEngine hE _), hidle.limits, hidle.stack,
      hidle.registry.insert⟩

namespace CommandLine

variable {read : Reading} {settings : Settings} {w : World} {files : List String}

/-- What a check says of a script and what a run answers when it is started: the script is accepted by
both, with the same functions, or both refuse it for the same reason, each under its name of the chunk. -/
inductive Agree (path chunk : String) (text : List Char) :
    Except String String → Except LoadError TaskId × World → Prop
  | accept {functions : Array FunctionCode} {id : TaskId} {w : World} {key : Nat} {E : MachineEngine}
      (compiled : Source.compile path text = .ok ⟨path, functions⟩)
      (task : w.task? 0 id = some (.script { engine := 0, key, release := true }))
      (engine : w.engine? 0 = some (.machine E))
      (kept : E.machine.registry.get? key = some (.callable ⟨chunk, functions⟩)) :
      Agree path chunk text (.ok s!"ok {path} ({functions.size - 1} functions)") (.ok id, w)
  | refuse {line : Nat} {fault : String} {w : World} : Agree path chunk text
      (.error s!"error {path}:{line}: {fault}") (.error (.malformed s!"{chunk}:{line}: {fault}"), w)

theorem Agree.of_prepared (h : w.Prepared settings) (hstack : 1 ≤ settings.machine.stack.toNat)
    {path : String} {bytes : List UInt8} {text : List Char} (htext : Text.Utf8.decode bytes = .ok text)
    (hsize : bytes.length ≤ settings.machine.memory.toNat) :
    Agree path settings.queue.chunkName text (verdictOn path text) (w.parseAndStart 0 0 bytes) := by
  obtain ⟨E, hE, hidle⟩ := h.idle
  obtain ⟨Q, hQ, hloaded⟩ := h.loaded.queue
  obtain ⟨functions, hcompile⟩ | ⟨d, hcompile⟩ := Source.compile_cases text
  · have hverdict : verdictOn path text = .ok s!"ok {path} ({functions.size - 1} functions)" := by
      rw [verdictOn, hcompile]
    obtain ⟨id, w', hparse, hadmitted⟩ := World.admitted_parseAndStart hE hQ
      (h.loaded.ready.queues 0 Q hQ) hidle.registry (hidle.load_ok hstack htext hsize (hcompile _))
    obtain ⟨key, registry, hengine, -, hkept, -, -, htask⟩ := hadmitted.kept
    rw [hloaded.config] at hkept
    rw [hverdict, hparse]
    exact .accept (hcompile path) htask hengine hkept
  · have hverdict : verdictOn path text = .error s!"error {path}:{d.line}: {d.fault.message}" := by
      rw [verdictOn, hcompile]
      simp only [Source.Diagnostic.message, String.append_assoc]
      rfl
    rw [hverdict, World.parseAndStart_of_error hE hQ (hidle.load_error htext hsize (hcompile _)),
      hloaded.config]
    exact .refuse

def Judges (read : Reading) (path line : String) : Prop :=
  ∃ text, readText? read path = some text ∧
    (verdictOn path text = .ok line ∨ verdictOn path text = .error line)

def Fails (read : Reading) (path : String) : Prop :=
  ∃ text line, readText? read path = some text ∧ verdictOn path text = .error line

theorem exists_checkFiles (h : ∀ path ∈ files, (readText? read path).isSome) :
    ∃ lines failed, checkFiles read files = (lines, .ok failed) ∧
      List.Forall₂ (Judges read) files lines ∧ (0 < failed ↔ ∃ path ∈ files, Fails read path) := by
  induction files with
  | nil => exact ⟨[], 0, rfl, .nil, by simp⟩
  | cons path files ih =>
    obtain ⟨hpath, hfiles⟩ := List.forall_mem_cons.1 h
    obtain ⟨text, htext⟩ := Option.isSome_iff_exists.1 hpath
    obtain ⟨lines, failed, hcheck, hlines, hfailed⟩ := ih hfiles
    rw [checkFiles, htext, hcheck]
    cases hverdict : verdictOn path text with
    | ok line =>
      have hpasses : ¬ Fails read path := by
        rintro ⟨text', line', htext', hfails⟩
        cases htext.symm.trans htext'
        cases hverdict.symm.trans hfails
      exact ⟨line :: lines, failed, by simp only [hverdict], .cons ⟨text, htext, .inl hverdict⟩ hlines,
        by simp [hpasses, hfailed]⟩
    | error line =>
      have hfails : Fails read path := ⟨text, line, htext, hverdict⟩
      exact ⟨line :: lines, failed + 1, by simp only [hverdict, Except.map],
        .cons ⟨text, htext, .inr hverdict⟩ hlines, by simp [hfails]⟩

theorem status_check (h : ∀ path ∈ files, (readText? read path).isSome) :
    List.Forall₂ (Judges read) files (check read files).lines ∧
      ((check read files).status ≠ 0 ↔ ∃ path ∈ files, Fails read path) := by
  obtain ⟨lines, failed, hcheck, hlines, hfailed⟩ := exists_checkFiles h
  rw [← hfailed, check, hcheck]
  cases failed with
  | zero => exact ⟨hlines, by simp [Report.status]⟩
  | succ failed => exact ⟨hlines, by simp [Report.status]⟩

inductive Rejects (read : Reading) : World → List String → Prop
  | here {w : World} {path : String} {files : List String} {bytes : List UInt8} {error : LoadError}
      (content : read path = some bytes) (refused : (w.parseAndStart 0 0 bytes).1 = .error error) :
      Rejects read w (path :: files)
  | later {w : World} {path : String} {files : List String} {bytes : List UInt8}
      (content : read path = some bytes) (rejects : Rejects read (w.parseAndStart 0 0 bytes).2 files) :
      Rejects read w (path :: files)

theorem exists_startFiles (h : ∀ path ∈ files, (read path).isSome) (w : World) (rejected : Nat) :
    ∃ w' n, startFiles read w rejected files = (w', .ok n) ∧ rejected ≤ n ∧
      (rejected < n ↔ Rejects read w files) := by
  induction files generalizing w rejected with
  | nil =>
    refine ⟨w, rejected, rfl, le_rfl, iff_of_false (lt_irrefl _) fun hr => ?_⟩
    cases hr
  | cons path files ih =>
    obtain ⟨hpath, hfiles⟩ := List.forall_mem_cons.1 h
    obtain ⟨bytes, hbytes⟩ := Option.isSome_iff_exists.1 hpath
    rw [startFiles, hbytes]
    cases hparse : w.parseAndStart 0 0 bytes with
    | mk answer w₁ =>
      have hw₁ : (w.parseAndStart 0 0 bytes).2 = w₁ := by rw [hparse]
      cases answer with
      | ok id =>
        obtain ⟨w', n, hstart, hle, hiff⟩ := ih hfiles w₁ rejected
        refine ⟨w', n, by simpa only [hparse] using hstart, hle,
          hiff.trans ⟨fun hr => .later hbytes (hw₁ ▸ hr), fun hr => ?_⟩⟩
        cases hr with
        | here content refused =>
          cases hbytes.symm.trans content
          rw [hparse] at refused
          cases refused
        | later content rejects =>
          cases hbytes.symm.trans content
          exact hw₁ ▸ rejects
      | error error =>
        -- this file has been counted, whatever becomes of the others
        obtain ⟨w', n, hstart, hle, -⟩ := ih hfiles w₁ (rejected + 1)
        exact ⟨w', n, by simpa only [hparse] using hstart, Nat.le_of_succ_le hle,
          fun _ => .here hbytes (by rw [hparse]), fun _ => hle⟩

theorem prepared_world (settings : Settings) (now : UInt64) : (world settings now).Prepared settings :=
  ⟨loaded_world settings now, _, rfl, rfl, rfl, List.nodup_nil, by simp⟩

section Running

variable {r : RunRequest} (clock : Clock) (hsettings : resolve read r = .ok settings)
  (hfiles : ∀ path ∈ r.files, (read path).isSome)

include hsettings hfiles

theorem exists_launch : ∃ lines l, launch read (clock 0) r = (lines, .ok l) ∧
    (0 < l.rejected ↔ Rejects read (world settings (clock 0)) r.files) := by
  obtain ⟨w, n, hstart, -, hrejects⟩ := exists_startFiles hfiles (world settings (clock 0)) 0
  exact ⟨_, ⟨_, n⟩, by rw [launch, hsettings]; simp only [hstart]; rfl, hrejects⟩

/-- A run of readable files comes to its end if the steps of its scripts do, and fails if a file is
refused. -/
theorem status_run : ∃ lines l, launch read (clock 0) r = (lines, .ok l) ∧
    (l.StepsEnd clock ↔ ∃ fuel report, run? fuel read clock r = some report) ∧
    ∀ fuel report, run? fuel read clock r = some report →
      (∃ reply, (l.after clock fuel).control = .answered reply) ∧
      (report.status ≠ 0 ↔ Rejects read (world settings (clock 0)) r.files) := by
  obtain ⟨lines, l, hlaunch, hrejects⟩ := exists_launch clock hsettings hfiles
  obtain ⟨Q, hled, -⟩ := exists_led_launch hsettings hlaunch
  have hrun : ∀ fuel report, run? fuel read clock r = some report ↔
      (l.after clock fuel).isOver = true ∧
        ⟨lines ++ printedLines (l.after clock fuel).world ++ closing r (l.after clock fuel).world,
          l.failure? r⟩ = report := fun fuel report => by
    rw [run?, hlaunch]
    exact Option.ite_none_right_eq_some.trans (and_congr_right fun _ => Option.some_inj)
  refine ⟨lines, l, hlaunch, ?_, fun fuel report hreport => ?_⟩
  · rw [← Launch.exists_isOver_iff hled clock]
    simp only [hrun, exists_and_left, exists_eq', and_true]
  · obtain ⟨hover, rfl⟩ := (hrun fuel report).1 hreport
    obtain ⟨Q', f, hafter⟩ := Launch.exists_led hled clock fuel
    refine ⟨(hafter.stage.answered hover).2, ?_⟩
    rw [← hrejects]
    by_cases hrejected : 0 < l.rejected <;> simp [Report.status, Launch.failure?, hrejected]

end Running

/-- Checks and runs agree. After any files that were started, a check says of a script what a run makes
of it. A check prints one line for each of its files and fails if one of them does. A run comes to its end
if the steps of its scripts do, and fails if one of its files is refused. -/
theorem check_agrees_with_run (read : Reading) (settings : Settings) :
    (1 ≤ settings.machine.stack.toNat → ∀ now before n w path bytes text,
      startFiles read (world settings now) 0 before = (w, .ok n) →
      Text.Utf8.decode bytes = .ok text → bytes.length ≤ settings.machine.memory.toNat →
      Agree path settings.queue.chunkName text (verdictOn path text) (w.parseAndStart 0 0 bytes)) ∧
    (∀ files, (∀ path ∈ files, (readText? read path).isSome) →
      List.Forall₂ (Judges read) files (check read files).lines ∧
      ((check read files).status ≠ 0 ↔ ∃ path ∈ files, Fails read path)) ∧
    ∀ r clock, resolve read r = .ok settings → (∀ path ∈ r.files, (read path).isSome) →
      ∃ lines l, launch read (clock 0) r = (lines, .ok l) ∧
        (l.StepsEnd clock ↔ ∃ fuel report, run? fuel read clock r = some report) ∧
        ∀ fuel report, run? fuel read clock r = some report →
          (∃ reply, (l.after clock fuel).control = .answered reply) ∧
          (report.status ≠ 0 ↔ Rejects read (world settings (clock 0)) r.files) := by
  refine ⟨fun hstack now before n w path bytes text hstart htext hsize => ?_, fun files => status_check,
    fun r clock => status_run clock⟩
  have hprepared : w.Prepared settings :=
    startFiles_keeps (fun _ source h => h.parseAndStart source) (prepared_world settings now) hstart
  exact Agree.of_prepared hprepared hstack htext hsize

def mixedFiles : Reading := fun path =>
  some (if path = "a" then "push 1" else "x").toUTF8.data.toList

/-- Started after the first file, the same source is accepted again and the other one is refused. The run
of both ends, with a watchdog behind them, and fails. -/
theorem check_agrees_with_run_mixed :
    let w := (startFiles mixedFiles (world {} 0) 0 ["a"]).1
    Agree "c" "usercode" "push 1".toList (.ok "ok c (0 functions)")
        (w.parseAndStart 0 0 "push 1".toUTF8.data.toList) ∧
      Agree "b" "usercode" "x".toList (.error "error b:1: unknown instruction 'x'")
        (w.parseAndStart 0 0 "x".toUTF8.data.toList) ∧
      (∃ path ∈ ["a", "b"], Fails mixedFiles path) ∧
      (∃ l, launched? mixedFiles 0 { files := ["a", "b"], timeout := some 0 } = some l ∧
        l.StepsEnd (Clock.still 0)) ∧
      Rejects mixedFiles (world {} 0) ["a", "b"] := by
  obtain ⟨hagree, hcheck, hrun⟩ := check_agrees_with_run mixedFiles {}
  obtain ⟨lines, l, hlaunch, hends, hstatus⟩ :=
    hrun { files := ["a", "b"], timeout := some 0 } (Clock.still 0) rfl (by decide +kernel)
  have hreport : (run? 100 mixedFiles (Clock.still 0)
      { files := ["a", "b"], timeout := some 0 }).map (·.status) = some 1 := by decide +kernel
  obtain ⟨report, hreport, hone⟩ := Option.map_eq_some_iff.1 hreport
  have hstart : startFiles mixedFiles (world {} 0) 0 ["a"] =
      ((startFiles mixedFiles (world {} 0) 0 ["a"]).1, .ok 0) := Prod.ext rfl (by decide +kernel)
  refine ⟨?_, ?_, ?_, ⟨l, ?_, hends.2 ⟨100, report, hreport⟩⟩, ?_⟩
  · have hverdict : verdictOn "c" "push 1".toList = .ok "ok c (0 functions)" := by decide +kernel
    rw [← hverdict]
    exact hagree (by decide) 0 ["a"] 0 _ "c" _ _ hstart (by decide +kernel) (by decide)
  · have hverdict : verdictOn "b" "x".toList = .error "error b:1: unknown instruction 'x'" := by
      decide +kernel
    rw [← hverdict]
    exact hagree (by decide) 0 ["a"] 0 _ "b" _ _ hstart (by decide +kernel) (by decide)
  · exact (hcheck ["a", "b"] (by decide +kernel)).2.1 (by decide +kernel)
  · rw [launched?, show launch mixedFiles 0 _ = (lines, .ok l) from hlaunch]
    rfl
  · exact (hstatus 100 report hreport).2.1 (by rw [hone]; decide)

end CommandLine

end TaskLoop
