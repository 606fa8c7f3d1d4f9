import Mathlib
import TaskLoop.Proofs.Evaluation
import TaskLoop.Proofs.Keys
import TaskLoop.Proofs.Ledger
import TaskLoop.Proofs.Quiescence

namespace TaskLoop

structure Job where
  id : TaskId
  key : Nat
  program : Program

def Job.task (j : Job) : ScriptTask := { engine := 0, key := j.key, release := true }

variable {jobs : List Job} {j : Job} {config : QueueConfig} {limits : Limits} {messages : List Message}
  {Q : Queue} {r : Registry Value} {w : World} {n : Nat}

structure Queue.Lined (config : QueueConfig) (jobs : List Job) (messages : List Message) (Q : Queue) :
    Prop where
  config : Q.config = config
  wellFormed : Q.WellFormed
  order : Q.order = jobs.map (·.id)
  idle : Q.current = none
  stopping : Q.stopping = false
  records : ∀ j ∈ jobs, Q.get? j.id = some (.script j.task)
  messages : Q.messages = messages

structure Registry.Lined (jobs : List Job) (r : Registry Value) : Prop where
  wellFormed : r.WellFormed
  kept : ∀ j ∈ jobs, r.get? j.key = some (.callable j.program)
  distinct : (jobs.map (·.key)).Nodup
  occupied : ∀ key, (r.get? key).isSome → key ∈ jobs.map (·.key)

/-- A queue and a machine with these scripts. But for its registry, and for how many instructions it
has executed, the machine is fresh. -/
def World.Lined (config : QueueConfig) (limits : Limits) (jobs : List Job) (messages : List Message)
    (n : Nat) (w : World) : Prop :=
  ∃ Q r, w.queue? 0 = some Q ∧ Q.Lined config jobs messages ∧
    w.Quiet 0 (Machine.amid r n { limits }) ∧ r.Lined jobs

namespace Queue.Lined

theorem record (h : Q.Lined config jobs messages) (new : List Message) :
    ({ Q with messages := Q.messages ++ new } : Queue).Lined config jobs (messages ++ new) :=
  { h with
    wellFormed := (Edit.note (I := fun _ => True) ..).wellFormed h.wellFormed
    messages := congrArg (· ++ new) h.messages }

theorem push (h : Q.Lined config jobs messages) {id : TaskId} {key : Nat} {left : Queue}
    (hpush : Q.push (.script { engine := 0, key, release := true }) = (id, left)) (program : Program) :
    left.Lined config (jobs ++ [⟨id, key, program⟩]) messages := by
  obtain ⟨rfl, rfl⟩ := Prod.mk.inj hpush
  refine ⟨h.config, h.wellFormed.push _, ?_, h.idle, h.stopping, fun j hj => ?_, h.messages⟩
  · rw [List.map_append, ← h.order]
    rfl
  · obtain hj | hj := List.mem_append.1 hj
    · exact Arena.get?_insert_of_get? h.wellFormed.tasks (h.records j hj) _
    · obtain rfl := List.mem_singleton.1 hj
      exact Arena.get?_insert_self h.wellFormed.tasks _

end Queue.Lined

theorem Registry.Lined.insert (h : r.Lined jobs) (id : TaskId) (program : Program) :
    (r.insert (.callable program)).2.Lined
      (jobs ++ [⟨id, (r.insert (.callable program)).1, program⟩]) := by
  have hempty := Registry.get?_insert_fst (a := .callable program) h.wellFormed
  have hnew : (r.insert (.callable program)).1 ∉ jobs.map (·.key) := fun hm => by
    obtain ⟨j, hj, hkey⟩ := List.mem_map.1 hm
    rw [← hkey, h.kept j hj] at hempty
    cases hempty
  refine ⟨h.wellFormed.insert, fun j hj => ?_, ?_, fun key hkey => ?_⟩
  · rw [Registry.get?_insert h.wellFormed]
    obtain hj | hj := List.mem_append.1 hj
    · have hne : j.key ≠ (r.insert (.callable program)).1 := fun heq =>
        hnew (heq ▸ List.mem_map_of_mem hj)
      rw [if_neg hne]
      exact h.kept j hj
    · obtain rfl := List.mem_singleton.1 hj
      exact if_pos rfl
  · rw [List.map_append]
    exact h.distinct.append (List.nodup_singleton _) (by simpa using hnew)
  · rw [Registry.get?_insert h.wellFormed] at hkey
    rw [List.map_append, List.mem_append]
    split at hkey
    · next heq => exact .inr (List.mem_singleton.2 heq)
    · exact .inl (h.occupied key hkey)

namespace Limits

def program? (limits : Limits) (chunk : String) (source : List UInt8) : Option Program :=
  match ({ limits } : Machine).load chunk source with
  | .error _ => none
  | .ok _ => (Machine.readSource chunk source).toOption

def loading (limits : Limits) (chunk : String) (source : List UInt8) : List Message :=
  match ({ limits } : Machine).load chunk source with
  | .error error => [⟨.notice, error.notice⟩]
  | .ok _ => [⟨.notice, "Running script..."⟩, ⟨.state, "1"⟩]

theorem exists_load {chunk : String} {source : List UInt8} {program : Program}
    (h : limits.program? chunk source = some program) :
    ∃ m, ({ limits } : Machine).load chunk source = .ok m := by
  unfold program? at h
  split at h
  · cases h
  · next m hm => exact ⟨m, hm⟩

end Limits

namespace World.Lined

theorem notify (h : w.Lined config limits jobs messages n) (tag : Tag) (text : String) :
    (w.notify 0 tag text).Lined config limits jobs (messages ++ [⟨tag, text⟩]) n := by
  obtain ⟨Q, r, hQ, hlined, hquiet, hregistry⟩ := h
  exact ⟨_, r, queue?_notify hQ tag text, hlined.record [⟨tag, text⟩], hquiet, hregistry⟩

theorem parseAndStart (h : w.Lined config limits jobs messages n) (source : List UInt8) :
    ∃ new, new.map (·.program) = (limits.program? config.chunkName source).toList ∧
      (w.parseAndStart 0 0 source).2.Lined config limits (jobs ++ new)
        (messages ++ limits.loading config.chunkName source) n := by
  obtain ⟨Q, r, hQ, hlined, hquiet, hregistry⟩ := h
  have hload := Machine.load_amid r n { limits } config.chunkName source
  unfold Limits.program? Limits.loading World.parseAndStart loadScript
  rw [hQ, show w.engine? 0 = _ from hquiet]
  dsimp only [Option.map_some, Option.getD_some, Engine.load]
  rw [hlined.config, hload]
  cases hbase : ({ limits } : Machine).load config.chunkName source with
  | error error =>
    refine ⟨[], rfl, ?_⟩
    rw [List.append_nil]
    exact notify ⟨Q, r, hQ, hlined, hquiet, hregistry⟩ .notice error.notice
  | ok m =>
    obtain ⟨program, hread, _, rfl⟩ := Machine.load_eq_ok hbase
    have hloaded := hquiet.setEngine (Machine.amid (r.insert (.callable program)).2 n { limits })
    have hnoted := (hlined.record [⟨.notice, "Running script..."⟩]).record [⟨.state, "1"⟩]
    rw [List.append_assoc] at hnoted
    rw [hread]
    refine ⟨[⟨_, _, program⟩], rfl, _, _, queue?_push ?_ _, hnoted.push rfl program, ?_,
      hregistry.insert _ program⟩
    · exact queue?_notify (queue?_notify hQ .notice _) .state _
    · exact (engine?_push ..).trans hloaded

end World.Lined

namespace Process

def submit (source : List UInt8) : Command := .act (.queue 0 (.parseAndStart "" 0 source))

def submitted (now : UInt64) (config : QueueConfig) (limits : Limits) (sources : List (List UInt8)) :
    Process :=
  (fresh now [config] [.machine limits]).after 2 (sources.map submit)

theorem run_submit (hQ : w.queue? 0 = some Q) (source : List UInt8) :
    ∃ reply, (w.begin (submit source)).run 2 =
      ⟨(({ w with log := [] } : World).parseAndStart 0 0 source).2, .answered reply⟩ := by
  have hperform : (w.begin (submit source)).step =
      ({ w with log := [] } : World).performOnQueue 0 Q (.parseAndStart "" 0 source) .outermost := by
    change World.perform { w with log := [] } (.queue 0 (.parseAndStart "" 0 source)) .outermost = _
    rw [World.perform, show World.queue? { w with log := [] } 0 = some Q from hQ]
  rw [run_succ, run_succ, run_zero, hperform, World.performOnQueue]
  cases ({ w with log := [] } : World).parseAndStart 0 0 source with
  | mk answer w₁ =>
    cases answer with
    | error error => exact ⟨_, rfl⟩
    | ok id => exact ⟨_, rfl⟩

theorem lined_fresh (now : UInt64) (config : QueueConfig) (limits : Limits) :
    (fresh now [config] [.machine limits]).world.Lined config limits [] [] 0 := by
  refine ⟨{ config }, {}, rfl, ?_, rfl, ?_⟩
  · exact ⟨rfl, Queue.wellFormed_new config, rfl, rfl, rfl, nofun, rfl⟩
  · refine ⟨⟨List.nodup_nil, nofun⟩, nofun, List.nodup_nil, fun key hkey => ?_⟩
    cases hkey

theorem lined_after {p : Process} (hended : p.control.ended = true)
    (h : p.world.Lined config limits jobs messages n) (sources : List (List UInt8)) :
    p.inTurn 2 (sources.map submit) = true ∧ (p.after 2 (sources.map submit)).control.ended = true ∧
    ∃ new, new.map (·.program) = sources.filterMap (limits.program? config.chunkName) ∧
      (p.after 2 (sources.map submit)).world.Lined config limits (jobs ++ new)
        (messages ++ sources.flatMap (limits.loading config.chunkName)) n := by
  induction sources generalizing p jobs messages with
  | nil => exact ⟨rfl, hended, [], rfl, by simpa [after] using h⟩
  | cons source sources ih =>
    have hbegin : ({ p.world with log := [] } : World).Lined config limits jobs messages n := h
    obtain ⟨Q, _, hQ, _⟩ := h
    obtain ⟨reply, hrun⟩ := run_submit hQ source
    obtain ⟨new, hnew, hlined⟩ := hbegin.parseAndStart source
    obtain ⟨hturn, hended', new', hnew', hlined'⟩ := ih (p := (p.world.begin (submit source)).run 2)
      (by rw [hrun]; rfl) (by rw [hrun]; exact hlined)
    refine ⟨?_, hended', new ++ new', ?_, ?_⟩
    · rw [List.map_cons, inTurn, hended, hturn]
      rfl
    · rw [List.map_append, hnew, hnew', List.filterMap_cons]
      cases limits.program? config.chunkName source with
      | none | some => rfl
    · rw [List.append_assoc, List.append_assoc] at hlined'
      exact hlined'

end Process

def Job.running (j : Job) : ScriptTask := { j.task with ran := true }

structure Queue.Stepping (config : QueueConfig) (j : Job) (jobs : List Job) (messages : List Message)
    (Q : Queue) : Prop where
  config : Q.config = config
  wellFormed : Q.WellFormed
  order : Q.order = j.id :: jobs.map (·.id)
  stopping : Q.stopping = false
  record : Q.get? j.id = some (.script j.running)
  records : ∀ j' ∈ jobs, Q.get? j'.id = some (.script j'.task)
  messages : Q.messages = messages

namespace Queue

theorem Lined.enter (h : Q.Lined config (j :: jobs) messages) :
    ((Q.enter j.id).modify j.id fun _ => .script j.running).Stepping config j jobs messages := by
  have hg := h.records j List.mem_cons_self
  have hentered : (Q.enter j.id).WellFormed :=
    (Move.enter (I := fun _ => True) hg h.idle).wellFormed h.wellFormed
  have hnodup : (j.id :: jobs.map (·.id)).Nodup := by
    rw [← List.map_cons, ← h.order]
    exact h.wellFormed.nodup
  refine ⟨h.config, hentered.modify _ _, h.order, h.stopping, ?_, fun j' hj' => ?_, h.messages⟩
  · rw [get?_modify, if_pos rfl, show (Q.enter j.id).get? j.id = _ from hg]
    rfl
  · have hne : j'.id ≠ j.id := fun heq =>
      (List.nodup_cons.1 hnodup).1 (List.mem_map.2 ⟨j', hj', heq⟩)
    rw [get?_modify, if_neg hne]
    exact h.records j' (List.mem_cons_of_mem j hj')

theorem Stepping.note (h : Q.Stepping config j jobs messages) (new : List Message) :
    ({ Q with messages := Q.messages ++ new } : Queue).Stepping config j jobs (messages ++ new) :=
  { h with
    wellFormed := (Edit.note (I := fun _ => True) ..).wellFormed h.wellFormed
    messages := congrArg (· ++ new) h.messages }

theorem Stepping.leave (h : Q.Stepping config j jobs messages) :
    ∃ left, Q.leave.unlink? j.id = some (.script j.running, left) ∧
      left.Lined config jobs messages := by
  obtain ⟨tasks, taken, hothers⟩ := unlink?_of_get? (Q := Q.leave) h.record
  have hleft : Q.leave.WellFormed := (Move.leave (I := fun _ => True)).wellFormed h.wellFormed
  have horder := filter_order h.wellFormed.nodup
    (show Q.order = [] ++ j.id :: jobs.map (·.id) from h.order)
  have hnodup : j.id ∉ jobs.map (·.id) := (List.nodup_cons.1 (h.order ▸ h.wellFormed.nodup)).1
  refine ⟨_, taken, h.config, (Edit.unlink (I := fun _ => True) taken nofun).wellFormed hleft, horder,
    rfl, h.stopping, fun j' hj' => ?_, h.messages⟩
  have hne : j'.id ≠ j.id := fun heq => hnodup (List.mem_map.2 ⟨j', hj', heq⟩)
  exact (hothers j'.id hne).trans (h.records j' hj')

end Queue

theorem Registry.Lined.erase (h : r.Lined (j :: jobs)) : (r.erase j.key).Lined jobs := by
  obtain ⟨hnot, hdistinct⟩ := List.nodup_cons.1 h.distinct
  refine ⟨h.wellFormed.erase, fun j' hj' => ?_, hdistinct, fun key hkey => ?_⟩
  · have hne : j'.key ≠ j.key := fun heq => hnot (List.mem_map.2 ⟨j', hj', heq⟩)
    rw [Registry.get?_erase, if_neg hne]
    exact h.kept j' (List.mem_cons_of_mem j hj')
  · rw [Registry.get?_erase] at hkey
    split at hkey
    · cases hkey
    · next hne =>
      have hm := h.occupied key hkey
      rw [List.map_cons, List.mem_cons] at hm
      exact hm.resolve_left hne

theorem Registry.Lined.size_eq_zero (h : r.Lined []) : r.size = 0 := by
  refine Array.countP_eq_zero.2 fun entry hentry hsome => ?_
  obtain ⟨key, hkey⟩ := Array.mem_iff_getElem?.1 hentry
  refine absurd (h.occupied key ?_) List.not_mem_nil
  rw [Registry.get?, hkey]
  exact hsome

def noticeOf : Except CallError Unit → Option Message
  | .ok _ => none
  | .error error => some ⟨.notice, error.notice⟩

namespace World

def Stepping (config : QueueConfig) (j : Job) (jobs : List Job) (messages : List Message) (m : Machine)
    (w : World) : Prop :=
  ∃ Q, w.queue? 0 = some Q ∧ Q.Stepping config j jobs messages ∧ w.Quiet 0 m

variable {m m₁ : Machine} {result : Except CallError Unit}

/-- The step of the first script begins with the call of its program. -/
theorem Lined.walkOn (h : w.Lined config limits (j :: jobs) messages n) (walk : Walk)
    (k : Pending .pass) : ∃ (w₁ : World) (walk₁ : Walk) (r : Registry Value),
      w.walkOn 0 (some j.id) walk k =
        w₁.deliver (.cons (.machine 0 ⟨j.program, Program.start, 0, 0, .traceback⟩)
          (.cons (.script 0 j.id j.running 0) (.cons (.turn 0 j.id walk₁) k))) () ∧
      w₁.Stepping config j jobs messages (Machine.amid r n { limits }) ∧ r.Lined (j :: jobs) := by
  obtain ⟨Q, r, hQ, hlined, hquiet, hregistry⟩ := h
  have hg := hlined.records j List.mem_cons_self
  have hkept := hregistry.kept j List.mem_cons_self
  have htop : ((w.engine? 0).map (·.top)).getD 0 = 0 := by
    rw [show w.engine? 0 = _ from hquiet]
    rfl
  have hentered : ((w.modifyQueue 0 (·.enter j.id)).modifyQueue 0
      (·.modify j.id fun _ => .script j.running)).Quiet 0 (Machine.amid r n { limits }) := hquiet
  refine ⟨_, { walk with visited := j.id :: walk.visited }, r, ?_, ⟨_, ?_, hlined.enter, hentered⟩,
    hregistry⟩
  · rw [World.walkOn, hQ]
    dsimp only [Option.bind_eq_bind, Option.bind_some]
    rw [hg]
    dsimp only [stepTask, stepScript, Job.task, engine?_modifyQueue]
    rw [htop, if_neg Bool.false_ne_true]
    exact callProtected_eq hentered.machine? hkept ..
  · rw [queue?_modifyQueue, queue?_modifyQueue, hQ]
    rfl

theorem Stepping.called (h : w.Stepping config j jobs messages m) {w₁ : World}
    (hcalled : w.Called 0 m₁ w₁) : w₁.Stepping config j jobs messages m₁ := by
  obtain ⟨Q, hQ, hstepping, _⟩ := h
  refine ⟨Q, ?_, hstepping, hcalled.machine⟩
  rw [queue?, hcalled.queues]
  exact hQ

theorem Stepping.notify (h : w.Stepping config j jobs messages m) (tag : Tag) (text : String) :
    (w.notify 0 tag text).Stepping config j jobs (messages ++ [⟨tag, text⟩]) m := by
  obtain ⟨Q, hQ, hstepping, hquiet⟩ := h
  exact ⟨_, queue?_notify hQ tag text, hstepping.note [⟨tag, text⟩], hquiet⟩

theorem Stepping.modifyEngine {f : Engine → Engine} (h : w.Stepping config j jobs messages m)
    (hf : f (.machine { machine := m }) = .machine { machine := m₁ }) :
    (w.modifyEngine 0 f).Stepping config j jobs messages m₁ := by
  obtain ⟨Q, hQ, hstepping, hquiet⟩ := h
  exact ⟨Q, hQ, hstepping, hquiet.modifyEngine hf⟩

theorem Stepping.scriptArmed (h : w.Stepping config j jobs messages m) :
    w.scriptArmed 0 j.id = false := by
  obtain ⟨Q, hQ, hstepping, _⟩ := h
  rw [World.scriptArmed, hQ]
  change ((Q.record? j.id).map Task.armed).getD false = false
  rw [Queue.record?, hstepping.record]
  rfl

theorem Stepping.scriptReturned_ok (h : w.Stepping config j jobs messages m) (k : Pending .verdict) :
    ∃ w₁ : World, w.scriptReturned 0 j.id j.running 0 (.ok ()) k = w₁.deliver k .done ∧
      w₁.Stepping config j jobs messages ((m.truncate 0).unreference j.key) := by
  have htop := h.modifyEngine (f := (·.setTop 0)) rfl
  refine ⟨_, ?_, htop.modifyEngine (f := (·.unreference j.key)) rfl⟩
  dsimp only [World.scriptReturned, Job.running, Job.task]
  rw [htop.scriptArmed, if_neg Bool.false_ne_true, if_pos rfl]

theorem Stepping.scriptReturned (h : w.Stepping config j jobs messages m)
    (result : Except CallError Unit) (k : Pending .verdict) :
    ∃ w₁ : World, w.scriptReturned 0 j.id j.running 0 result k = w₁.deliver k .done ∧
      w₁.Stepping config j jobs (messages ++ (noticeOf result).toList)
        ((m.truncate 0).unreference j.key) := by
  cases result with
  | ok =>
    rw [noticeOf, Option.toList_none, List.append_nil]
    exact h.scriptReturned_ok k
  | error error => exact (h.notify .notice error.notice).scriptReturned_ok k

theorem Stepping.endTurn (h : w.Stepping config j jobs messages (Machine.amid r n { limits }))
    (hregistry : r.Lined jobs) (walk : Walk) (k : Pending .pass) :
    ∃ (w₁ : World) (walk₁ : Walk), w.endTurn 0 j.id walk .done k =
        w₁.deliver (.cons (.walk 0 (jobs.head?.map (·.id)) walk₁) k) () ∧
      w₁.Lined config limits jobs messages n := by
  obtain ⟨Q, hQ, hstepping, hquiet⟩ := h
  obtain ⟨left, taken, hlined⟩ := hstepping.leave
  have hcontains : Q.contains j.id = true := by
    rw [Queue.contains, Arena.contains, show Q.tasks.get? j.id = _ from hstepping.record]
    rfl
  have hnext : Q.nextAfter? j.id = jobs.head?.map (·.id) := by
    rw [Queue.nextAfter?_eq hstepping.wellFormed.nodup
      (show Q.order = [] ++ j.id :: jobs.map (·.id) from hstepping.order), List.head?_map]
  refine ⟨w.setQueue 0 left,
    { walk with stepped := walk.stepped + 1, completed := walk.completed + 1 }, ?_,
    left, r, queue?_setQueue_self hQ left, hlined, hquiet, hregistry⟩
  simp only [World.endTurn, hQ, chooseNext, hcontains, if_true, hnext, taken]
  rfl

theorem amid_ended (hlimits : m₁.limits = limits) (r : Registry Value) (n key : Nat) :
    (((m₁.amid r n).leave 0 0).truncate 0).unreference key =
      Machine.amid (r.erase key) (n + m₁.executed) { limits } := by
  subst hlimits
  have hstack : ((m₁.stack.truncate 0).truncate 0) = .empty := ValueStack.ext (by
    rw [ValueStack.items_truncate, Nat.sub_zero, List.drop_length]
    rfl)
  simp only [Machine.unreference, Machine.truncate, Machine.leave, Machine.amid, hstack,
    Nat.add_comm n, Nat.zero_add]

end World

/-- What is seen of a script that runs alone: the notice if it fails, and how many instructions it
executes. -/
structure ScriptReport where
  notice : Option Message := none
  executed : Nat := 0
deriving Inhabited

def Limits.Yields (limits : Limits) (program : Program) (report : ScriptReport) : Prop :=
  ∃ m result, ({ limits } : Machine).Evaluates program Program.start m result ∧
    report = ⟨noticeOf result, m.executed⟩

namespace World.Lined

open Process

variable {report : Program → ScriptReport}

/-- The first script has its turn, and it comes to what it comes to alone. -/
theorem leads_turn (h : w.Lined config limits (j :: jobs) messages n)
    (hyields : limits.Yields j.program (report j.program)) (walk : Walk) (k : Pending .pass) :
    ∃ (w₁ : World) (walk₁ : Walk), (w.walkOn 0 (some j.id) walk k).Leads (fun _ => True)
        (w₁.walkOn 0 (jobs.head?.map (·.id)) walk₁ k) ∧
      w₁.Lined config limits jobs (messages ++ (report j.program).notice.toList)
        (n + (report j.program).executed) := by
  obtain ⟨m, result, hevaluates, hreport⟩ := hyields
  rw [hreport]
  obtain ⟨w₁, walk₁, r, hbegin, hstepping, hregistry⟩ := h.walkOn walk k
  obtain ⟨Q, hQ, hqueue, hquiet⟩ := hstepping
  -- the other scripts are no more to the call than a registry and a count of instructions
  obtain ⟨w₂, hcall, hcalled⟩ := hquiet.leads (hevaluates.amid r n) 0 0
    (.cons (.script 0 j.id j.running 0) (.cons (.turn 0 j.id walk₁) k))
  obtain ⟨w₃, hreturned, hstepping₃⟩ := (Stepping.called ⟨Q, hQ, hqueue, hquiet⟩ hcalled).scriptReturned
    result (.cons (.turn 0 j.id walk₁) k)
  rw [amid_ended hevaluates.limits] at hstepping₃
  obtain ⟨w₄, walk₄, hend, hlined⟩ := hstepping₃.endTurn hregistry.erase walk₁ k
  refine ⟨w₄, walk₄, ?_, hlined⟩
  have hscript : (w₂.deliver (.cons (.script 0 j.id j.running 0) (.cons (.turn 0 j.id walk₁) k))
      result).step = w₃.deliver (.cons (.turn 0 j.id walk₁) k) .done :=
    (step_deliver ..).trans hreturned
  have hturn : (w₃.deliver (.cons (.turn 0 j.id walk₁) k) .done).step =
      w₄.deliver (.cons (.walk 0 (jobs.head?.map (·.id)) walk₄) k) () := (step_deliver ..).trans hend
  have hwalk : (w₄.deliver (.cons (.walk 0 (jobs.head?.map (·.id)) walk₄) k) ()).step =
      w₄.walkOn 0 (jobs.head?.map (·.id)) walk₄ k := step_deliver ..
  rw [hbegin]
  exact hcall.trans ((hscript ▸ Leads.step trivial).trans
    ((hturn ▸ Leads.step trivial).trans (hwalk ▸ Leads.step trivial)))

theorem countPass (h : w.Lined config limits jobs messages n) (steps completed : Nat) :
    (w.modifyQueue 0 (·.countPass steps completed)).Lined config limits jobs messages n := by
  obtain ⟨Q, r, hQ, hlined, hquiet, hregistry⟩ := h
  refine ⟨Q.countPass steps completed, r, ?_, ?_, hquiet, hregistry⟩
  · rw [queue?_modifyQueue, hQ]
    rfl
  · exact { hlined with
      wellFormed := (Queue.Edit.note (I := fun _ => True) ..).wellFormed hlined.wellFormed }

/-- A pass gives each script its turn, and none is left. -/
theorem leads_pass (h : w.Lined config limits jobs messages n)
    (hyields : ∀ j ∈ jobs, limits.Yields j.program (report j.program)) (walk : Walk)
    (k : Pending .pass) :
    ∃ (w₁ : World) (steps : Nat), (w.walkOn 0 (jobs.head?.map (·.id)) walk k).Leads (fun _ => True)
        (w₁.deliver k steps) ∧
      w₁.Lined config limits [] (messages ++ jobs.flatMap fun j => (report j.program).notice.toList)
        (n + (jobs.map fun j => (report j.program).executed).sum) := by
  induction jobs generalizing w messages n walk with
  | nil =>
    refine ⟨_, _, Leads.refl _, ?_⟩
    rw [List.flatMap_nil, List.append_nil]
    exact h.countPass walk.stepped walk.completed
  | cons j jobs ih =>
    obtain ⟨w₁, walk₁, hturn, hlined⟩ := h.leads_turn (hyields j List.mem_cons_self) walk k
    obtain ⟨w₂, steps, hpass, hlined'⟩ := ih hlined
      (fun j' hj' => hyields j' (List.mem_cons_of_mem j hj')) walk₁
    rw [List.append_assoc, Nat.add_assoc] at hlined'
    exact ⟨w₂, steps, hturn.trans hpass, hlined'⟩

theorem draining (h : w.Lined config limits jobs messages n) :
    (w.begin (.act (.queue 0 .runOnce))).Draining 0 (.cons .runReply .outermost) := by
  obtain ⟨Q, _, hQ, hlined, _⟩ := h
  exact draining_perform rfl hQ hlined.idle

theorem step_runOnce (h : w.Lined config limits (j :: jobs) messages n) :
    ∃ walk, (w.begin (.act (.queue 0 .runOnce))).step =
      ({ w with log := [] } : World).walkOn 0 (some j.id) walk
        (.cons (.drain 0) (.cons .runReply .outermost)) := by
  have hdraining := h.draining
  obtain ⟨Q, _, hQ, hlined, _⟩ := h
  obtain ⟨walk, hstep⟩ := (hdraining.walking hQ hlined.idle hlined.stopping
    (by rw [hlined.order]; exact List.cons_ne_nil _ _)).step
  refine ⟨walk, hstep.trans ?_⟩
  rw [hlined.order]
  rfl

theorem leads_drained {k : Pending .run} {p : Process} (h : p.world.Lined config limits [] messages n)
    (hdraining : p.Draining 0 k) : p.Leads (fun _ => True) (p.world.deliver k .drained) := by
  obtain ⟨Q, _, hQ, hlined, _⟩ := h
  exact hdraining.step_eq hQ hlined.stopping hlined.order ▸ .step trivial

/-- A run of the queue drains it, and each script comes to what it comes to alone. -/
theorem leads_runOnce (h : w.Lined config limits jobs messages n)
    (hyields : ∀ j ∈ jobs, limits.Yields j.program (report j.program)) :
    ∃ w₁ : World, (w.begin (.act (.queue 0 .runOnce))).Leads (fun _ => True)
        ⟨w₁, .answered (.outcome .drained)⟩ ∧
      w₁.Lined config limits [] (messages ++ jobs.flatMap fun j => (report j.program).notice.toList)
        (n + (jobs.map fun j => (report j.program).executed).sum) := by
  have hanswer : ∀ w₁ : World, (w₁.deliver (.cons .runReply .outermost) .drained).Leads (fun _ => True)
      ⟨w₁, .answered (.outcome .drained)⟩ := fun w₁ => ⟨2, rfl, fun _ _ => trivial⟩
  cases jobs with
  | nil =>
    refine ⟨{ w with log := [] }, (leads_drained h h.draining).trans (hanswer _), ?_⟩
    rw [List.flatMap_nil, List.append_nil]
    exact h
  | cons j jobs =>
    obtain ⟨walk, hstep⟩ := h.step_runOnce
    obtain ⟨w₁, steps, hpass, hlined⟩ := leads_pass (w := { w with log := [] }) h hyields walk
      (.cons (.drain 0) (.cons .runReply .outermost))
    refine ⟨w₁, (hstep ▸ Leads.step trivial).trans (hpass.trans ?_), hlined⟩
    exact (leads_drained (p := w₁.deliver _ steps) hlined (draining_deliver ..)).trans (hanswer w₁)

/-- A script that has a fresh machine for itself comes to something if the run comes to its end. -/
theorem exists_yields (h : w.Lined config limits (j :: jobs) messages 0)
    (hover : ((w.begin (.act (.queue 0 .runOnce))).run n).isOver = true) :
    ∃ report, limits.Yields j.program report := by
  obtain ⟨walk, hstep⟩ := h.step_runOnce
  obtain ⟨w₁, walk₁, r, hbegin, ⟨_, _, _, hquiet⟩, _⟩ := walkOn (w := { w with log := [] }) h walk
    (.cons (.drain 0) (.cons .runReply .outermost))
  have hcall : ((w.begin (.act (.queue 0 .runOnce))).step.run n).isOver = true := by
    rw [← run_succ, run_of_le hover (Nat.le_succ n)]
    exact hover
  rw [hstep, hbegin] at hcall
  obtain ⟨m, result, hevaluates⟩ := hquiet.evaluates hcall
  exact ⟨_, _, result, hevaluates.amid {} 0, rfl⟩

end World.Lined

def World.seen (w : World) (q : Nat) : List Message := ((w.queue? q).map (·.messages)).getD []

theorem World.Lined.seen (h : w.Lined config limits jobs messages n) :
    w.seen 0 = messages := by
  obtain ⟨Q, _, hQ, hlined, _⟩ := h
  rw [World.seen, hQ]
  exact hlined.messages

/-- When no script is left the machine is as it was at first, but for the number of instructions. -/
theorem World.Lined.machine (h : w.Lined config limits [] messages n) :
    ∃ m, w.engine? 0 = some (.machine { machine := m }) ∧ m.stack.items = [] ∧ m.registry.size = 0 ∧
      m.allocated = 0 ∧ m.executed = n := by
  obtain ⟨_, r, _, _, hquiet, hregistry⟩ := h
  exact ⟨_, hquiet, rfl, hregistry.size_eq_zero, rfl, Nat.zero_add n⟩

namespace Process

variable {now : UInt64} {sources : List (List UInt8)} {report : Program → ScriptReport}

def runAll (now : UInt64) (config : QueueConfig) (limits : Limits) (sources : List (List UInt8))
    (n : Nat) : Process :=
  ((submitted now config limits sources).world.begin (.act (.queue 0 .runOnce))).run n

theorem exists_lined (now : UInt64) (config : QueueConfig) (limits : Limits)
    (sources : List (List UInt8)) :
    ∃ jobs : List Job, jobs.map (·.program) = sources.filterMap (limits.program? config.chunkName) ∧
      (submitted now config limits sources).world.Lined config limits jobs
        (sources.flatMap (limits.loading config.chunkName)) 0 :=
  (lined_after rfl (lined_fresh now config limits) sources).2.2

/-- The run comes to its end if each program does alone, and nothing comes of it but what comes of them
alone. -/
theorem exists_runAll (now : UInt64)
    (hyields : ∀ program ∈ sources.filterMap (limits.program? config.chunkName),
      limits.Yields program (report program)) :
    ∃ n w, runAll now config limits sources n = ⟨w, .answered (.outcome .drained)⟩ ∧
      w.Lined config limits [] (sources.flatMap (limits.loading config.chunkName) ++
          (sources.filterMap (limits.program? config.chunkName)).flatMap fun program =>
            (report program).notice.toList)
        ((sources.filterMap (limits.program? config.chunkName)).map fun program =>
          (report program).executed).sum := by
  obtain ⟨jobs, hjobs, hlined⟩ := exists_lined now config limits sources
  rw [← hjobs] at hyields ⊢
  have hall : ∀ j ∈ jobs, limits.Yields j.program (report j.program) := fun j hj =>
    hyields j.program (List.mem_map_of_mem hj)
  obtain ⟨w, ⟨n, hrun, _⟩, hdrained⟩ := hlined.leads_runOnce hall
  refine ⟨n, w, hrun, ?_⟩
  rw [List.flatMap_map, List.map_map]
  rwa [Nat.zero_add] at hdrained

theorem exists_yields {source : List UInt8} {program : Program}
    (hprogram : limits.program? config.chunkName source = some program)
    (hover : (runAll now config limits [source] n).isOver = true) :
    ∃ report, limits.Yields program report := by
  obtain ⟨jobs, hjobs, hlined⟩ := exists_lined now config limits [source]
  rw [List.filterMap_cons, hprogram, List.filterMap_nil] at hjobs
  obtain ⟨j, rest, rfl, rfl, _⟩ := List.map_eq_cons_iff.1 hjobs
  exact hlined.exists_yields hover

structure Alone (now : UInt64) (config : QueueConfig) (limits : Limits) (source : List UInt8)
    (report : ScriptReport) : Prop where
  ends : ∃ n w, runAll now config limits [source] n = ⟨w, .answered (.outcome .drained)⟩ ∧
    w.seen 0 = limits.loading config.chunkName source ++ report.notice.toList ∧
    w.executed 0 = report.executed
  refused : ∀ error, ({ limits } : Machine).load config.chunkName source = .error error → report = {}
  notice : ∀ message ∈ report.notice, ∃ error : CallError, message = ⟨.notice, error.notice⟩

def reportOf (report : Program → ScriptReport) (config : QueueConfig) (limits : Limits)
    (source : List UInt8) : ScriptReport :=
  ((limits.program? config.chunkName source).map report).getD {}

theorem flatMap_reportOf (sources : List (List UInt8)) :
    ((sources.filterMap (limits.program? config.chunkName)).flatMap fun program =>
      (report program).notice.toList) =
    sources.flatMap fun source => (reportOf report config limits source).notice.toList := by
  induction sources with
  | nil => rfl
  | cons source sources ih =>
    rw [List.flatMap_cons, ← ih, reportOf, List.filterMap_cons]
    cases limits.program? config.chunkName source with
    | none | some => rfl

theorem sum_reportOf (sources : List (List UInt8)) :
    ((sources.filterMap (limits.program? config.chunkName)).map fun program =>
      (report program).executed).sum =
    (sources.map fun source => (reportOf report config limits source).executed).sum := by
  induction sources with
  | nil => rfl
  | cons source sources ih =>
    rw [List.map_cons, List.sum_cons, ← ih, reportOf, List.filterMap_cons]
    cases limits.program? config.chunkName source with
    | none => exact (Nat.zero_add _).symm
    | some => rfl

theorem alone_reportOf {source : List UInt8}
    (hyields : ∀ program, limits.program? config.chunkName source = some program →
      limits.Yields program (report program)) :
    Alone now config limits source (reportOf report config limits source) := by
  refine ⟨?_, fun error herror => ?_, fun message hmessage => ?_⟩
  · have hall : ∀ program ∈ [source].filterMap (limits.program? config.chunkName),
        limits.Yields program (report program) := fun program hm => by
      obtain ⟨source', hsource, hprogram⟩ := List.mem_filterMap.1 hm
      rw [List.mem_singleton.1 hsource] at hprogram
      exact hyields program hprogram
    obtain ⟨n, w, hrun, hlined⟩ := exists_runAll now hall
    rw [flatMap_reportOf, sum_reportOf, List.flatMap_singleton, List.flatMap_singleton,
      List.map_singleton, List.sum_singleton] at hlined
    obtain ⟨m, hm, _, _, _, hexecuted⟩ := hlined.machine
    refine ⟨n, w, hrun, hlined.seen, ?_⟩
    rw [World.executed, hm]
    exact hexecuted
  · rw [reportOf, Limits.program?, herror]
    rfl
  · rw [reportOf] at hmessage
    cases hprogram : limits.program? config.chunkName source with
    | none =>
      rw [hprogram] at hmessage
      cases hmessage
    | some program =>
      obtain ⟨_, result, _, hreport⟩ := hyields program hprogram
      rw [hprogram, Option.map_some, Option.getD_some, hreport] at hmessage
      cases result with
      | ok => cases hmessage
      | error error =>
        cases hmessage
        exact ⟨error, rfl⟩

/-- Scripts are isolated from each other. Sources are submitted to a fresh queue one after another, and
each that is accepted comes to an end when it is run alone. Then a run drains the queue. The observer
has seen how the sources were loaded, and after that the error notices of the scripts, each as it is when
the script is run alone. The machine is left with nothing on its stack and in its registry, nothing
allocated, no hook, and as many instructions as the scripts execute alone. -/
theorem scripts_isolated (now : UInt64) (config : QueueConfig) (limits : Limits)
    (sources : List (List UInt8))
    (hends : ∀ source ∈ sources, ∀ m, ({ limits } : Machine).load config.chunkName source = .ok m →
      ∃ n, (runAll now config limits [source] n).isOver = true) :
    (fresh now [config] [.machine limits]).inTurn 2 (sources.map submit) = true ∧
    (submitted now config limits sources).control.ended = true ∧
    (submitted now config limits sources).world.seen 0 =
      sources.flatMap (limits.loading config.chunkName) ∧
    ∃ report : List UInt8 → ScriptReport,
      (∀ source ∈ sources, Alone now config limits source (report source)) ∧
      ∃ n w m, runAll now config limits sources n = ⟨w, .answered (.outcome .drained)⟩ ∧
        w.seen 0 = sources.flatMap (limits.loading config.chunkName) ++
          sources.flatMap (fun source => (report source).notice.toList) ∧
        w.engine? 0 = some (.machine { machine := m }) ∧
        m.stack.items = [] ∧ m.registry.size = 0 ∧ m.allocated = 0 ∧
        m.executed = (sources.map fun source => (report source).executed).sum := by
  obtain ⟨hturn, hended, jobs, _, hlined⟩ := lined_after rfl (lined_fresh now config limits) sources
  have hexists : ∀ program ∈ sources.filterMap (limits.program? config.chunkName),
      ∃ report, limits.Yields program report := fun program hprogram => by
    obtain ⟨source, hsource, hprogram⟩ := List.mem_filterMap.1 hprogram
    obtain ⟨m, hm⟩ := Limits.exists_load hprogram
    obtain ⟨n, hover⟩ := hends source hsource m hm
    exact exists_yields hprogram hover
  choose! report hyields using hexists
  refine ⟨hturn, hended, hlined.seen, reportOf report config limits, fun source hsource => ?_, ?_⟩
  · exact alone_reportOf fun program hprogram =>
      hyields program (List.mem_filterMap.2 ⟨source, hsource, hprogram⟩)
  · obtain ⟨n, w, hrun, hdrained⟩ := exists_runAll now hyields
    rw [flatMap_reportOf, sum_reportOf] at hdrained
    obtain ⟨m, hm⟩ := hdrained.machine
    exact ⟨n, w, m, hrun, hdrained.seen, hm⟩

/-- A source that leaves a value on the stack, one that is refused, one that finds the stack empty, and
one that allocates too much. -/
def mixed : List (List UInt8) :=
  ["push 1", "?", "pop", "alloc 65537"].map (·.toUTF8.data.toList)

theorem scripts_isolated_mixed :
    (∀ source ∈ mixed, (runAll 0 {} {} [source] 20).isOver = true) ∧
    ∃ report : List UInt8 → ScriptReport, (∀ source ∈ mixed, Alone 0 {} {} source (report source)) ∧
      ∃ n w m, runAll 0 {} {} mixed n = ⟨w, .answered (.outcome .drained)⟩ ∧
        w.seen 0 = mixed.flatMap (({} : Limits).loading "usercode") ++
          mixed.flatMap (fun source => (report source).notice.toList) ∧
        w.engine? 0 = some (.machine { machine := m }) ∧
        m.stack.items = [] ∧ m.registry.size = 0 ∧ m.allocated = 0 ∧
        m.executed = (mixed.map fun source => (report source).executed).sum := by
  have hover : ∀ source ∈ mixed, (runAll 0 {} {} [source] 20).isOver = true := by decide +kernel
  obtain ⟨_, _, _, hisolated⟩ := scripts_isolated 0 {} {} mixed fun source hsource _ _ =>
    ⟨20, hover source hsource⟩
  exact ⟨hover, hisolated⟩

end Process

end TaskLoop
