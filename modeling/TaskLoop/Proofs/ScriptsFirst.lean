import TaskLoop.Proofs.CommandRun

namespace TaskLoop

open CommandLine

variable {w : World} {Q Q' : Queue} {id : TaskId} {p : Process} {f f' : Front}

/-- While scripts are queued the run is at the first task of the queue. -/
def CommandLine.Front.Leads (Q : Queue) : Front → Prop
  | .rest | .ending _ => True
  | .next chosen => Q.Scripted → chosen = Q.order.head?
  | .call id => (Q.flag? id).isSome ∧ Q.order.head? = some id
  | .ring id _ | .turn id => id ∈ Q.order ∧ (Q.Scripted → Q.order.head? = some id)
  | .waits id => id ∈ Q.order ∧ ¬ Q.Scripted

namespace CommandLine.Front

theorem Leads.mem_order (h : f.Leads Q) (hid : f.task? = some id) : id ∈ Q.order := by
  cases f with
  | rest | ending | next => cases hid
  | call =>
    cases hid
    exact List.mem_of_head? h.2
  | ring | turn | waits =>
    cases hid
    exact h.1

theorem Step.leads (h : f.Step Q f') (hf : f.Leads Q) : f'.Leads Q := by
  cases h with
  | ends | closes | ended | rests => trivial
  | calls | rings | rang => exact hf
  | returns => exact ⟨hf.mem_order rfl, fun _ => hf.2⟩
  | passes => exact fun hs => absurd hs hf.2

end CommandLine.Front

namespace Queue

theorem WellFormed.mem_order_of_flag? (hQ : Q.WellFormed) (h : (Q.flag? id).isSome) :
    id ∈ Q.order := by
  cases hg : Q.get? id with
  | none =>
    rw [flag?, hg] at h
    cases h
  | some task => exact (hQ.order id).2 ⟨task, hg⟩

theorem WellFormed.exists_badge (hQ : Q.WellFormed) (hm : id ∈ Q.order) :
    ∃ badge, Q.badge? id = some badge := by
  obtain ⟨task, hg⟩ := (hQ.order id).1 hm
  exact ⟨task.badge, by rw [badge?, hg]; rfl⟩

theorem Same.scripted_iff (h : Q.Same Q') : Q'.Scripted ↔ Q.Scripted := by
  simp only [Scripted, h.flags]

theorem Loses.scripted (h : Q.Loses id Q') (hs : Q'.Scripted) : Q.Scripted := by
  obtain ⟨id', hid'⟩ := hs
  rw [h.flags] at hid'
  split at hid'
  · cases hid'
  · exact ⟨id', hid'⟩

def Before (Q : Queue) (a b : TaskId) : Prop :=
  ∃ badge badge', Q.badge? a = some badge ∧ Q.badge? b = some badge' ∧ badge.Before badge'

theorem Before.isSome {a b : TaskId} (h : Q.Before a b) (hb : (Q.flag? b).isSome) :
    (Q.flag? a).isSome := by
  obtain ⟨x, y, hx, hy, hxy⟩ := h
  rw [flag?_eq, hy] at hb
  rw [flag?_eq, hx]
  exact hxy.isSome_flag? hb

/-- A watchdog that waits for the others is behind a script. -/
theorem Watched.exists_script (h : Q.Watched id) (hsorted : Q.order.Pairwise Q.Before)
    (hm : id ∈ Q.order) :
    ∃ first, Q.order.head? = some first ∧ first ≠ id ∧ (Q.flag? first).isSome := by
  obtain ⟨hbadge, hlength⟩ := h
  cases horder : Q.order with
  | nil =>
    rw [horder] at hm
    cases hm
  | cons first rest =>
    rw [horder] at hm hsorted hlength
    obtain rfl | hm := List.mem_cons.1 hm
    · cases rest with
      | nil => exact absurd rfl hlength
      | cons second rest =>
        obtain ⟨x, y, hx, _, hxy⟩ := (List.pairwise_cons.1 hsorted).1 second (List.mem_cons_self ..)
        obtain rfl := Option.some.inj (hbadge.symm.trans hx)
        cases hxy.1
    · obtain ⟨x, y, hx, hy, hxy⟩ := (List.pairwise_cons.1 hsorted).1 id hm
      obtain rfl := Option.some.inj (hbadge.symm.trans hy)
      cases x with
      | script armed =>
        refine ⟨first, rfl, ?_, by rw [flag?_eq, hx]; rfl⟩
        rintro rfl
        rw [hbadge] at hx
        cases hx
      | watchdog => cases hxy.2
      | watcher => cases hxy

/-- A watcher that waits for a task of another kind is behind one. -/
theorem Outwaited.head?_ne (h : Q.Outwaited id) (hsorted : Q.order.Pairwise Q.Before) :
    Q.order.head? ≠ some id := by
  obtain ⟨hbadge, other, hm, hother⟩ := h
  intro hhead
  obtain ⟨rest, horder⟩ := List.head?_eq_some_iff.1 hhead
  rw [horder] at hm hsorted
  obtain rfl | hm := List.mem_cons.1 hm
  · exact hother hbadge
  · obtain ⟨x, y, hx, hy, hxy⟩ := (List.pairwise_cons.1 hsorted).1 other hm
    obtain rfl := Option.some.inj (hbadge.symm.trans hx)
    obtain rfl : y = .watcher := hxy
    exact hother hy

structure Orderly (Q : Queue) (f : Front) : Prop where
  sorted : Q.order.Pairwise Q.Before
  front : f.Leads Q

namespace Orderly

theorem isSome_of_head? (h : Q.Orderly f) (hQ : Q.WellFormed) (hs : Q.Scripted)
    (hhead : Q.order.head? = some id) : (Q.flag? id).isSome := by
  obtain ⟨id', hid'⟩ := hs
  obtain ⟨rest, horder⟩ := List.head?_eq_some_iff.1 hhead
  have hm := hQ.mem_order_of_flag? hid'
  have hsorted := h.sorted
  rw [horder] at hm hsorted
  obtain rfl | hm := List.mem_cons.1 hm
  · exact hid'
  · exact ((List.pairwise_cons.1 hsorted).1 id' hm).isSome hid'

/-- While scripts are queued a turn begins with the first of them. -/
theorem head?_of_front (h : Q.Orderly f) (hs : Q.Scripted)
    (hfront : f = .next (some id) ∨ f = .rest ∧ Q.order.head? = some id) :
    Q.order.head? = some id := by
  obtain rfl | ⟨_, hhead⟩ := hfront
  · exact (h.front hs).symm
  · exact hhead

theorem isSome_of_front (h : Q.Orderly f) (hQ : Q.WellFormed) (hs : Q.Scripted)
    (hfront : f = .next (some id) ∨ f = .rest ∧ Q.order.head? = some id) : (Q.flag? id).isSome :=
  h.isSome_of_head? hQ hs (h.head?_of_front hs hfront)

/-- A watchdog has its turn only after the scripts, and then it is the last task. -/
theorem not_watched (h : Q.Orderly f) (hmem : id ∈ Q.order)
    (hfront : f = .next (some id) ∨ f = .rest ∧ Q.order.head? = some id) : ¬ Q.Watched id := by
  intro hwatched
  obtain ⟨first, hhead, hne, hscript⟩ := hwatched.exists_script h.sorted hmem
  rw [h.head?_of_front ⟨first, hscript⟩ hfront] at hhead
  exact hne (Option.some.inj hhead).symm

theorem move (h : Q.Orderly f) (f' : Front) (hfront : f'.Leads Q) : Q.Orderly f' :=
  ⟨h.sorted, hfront⟩

theorem same (h : Q.Orderly f) (hsame : Q.Same Q') : Q'.Orderly f := by
  refine ⟨?_, ?_⟩
  · have hbefore : Q'.Before = Q.Before := by
      funext a b
      simp only [Before, hsame.badges]
    rw [hsame.order, hbefore]
    exact h.sorted
  · have hfront := h.front
    cases f with
    | rest | ending => trivial
    | next | call | ring | turn | waits =>
      simpa only [Front.Leads, hsame.order, hsame.flags, hsame.scripted_iff] using hfront

theorem alarms (h : Q.Orderly (.call id)) (hQ : Q.WellFormed) (halarms : Q.Alarms Q') :
    Q'.Orderly (.call id) := by
  obtain ⟨new, horder, hnew, hbadges⟩ := halarms.grows
  have hold : ∀ {a badge}, Q.badge? a = some badge → Q'.badge? a = some badge.told :=
    fun {a badge} ha => by
      rw [hbadges, if_neg, ha, Option.map_some]
      rintro rfl
      rw [hnew] at ha
      cases ha
  refine ⟨?_, ?_, ?_⟩
  · rw [horder, List.pairwise_append]
    refine ⟨h.sorted.imp fun {a b} hab => ?_, List.pairwise_singleton _ _, fun a ha b hb => ?_⟩
    · obtain ⟨x, y, hx, hy, hxy⟩ := hab
      exact ⟨x.told, y.told, hold hx, hold hy, hxy.told⟩
    · obtain rfl := List.mem_singleton.1 hb
      obtain ⟨x, hx⟩ := hQ.exists_badge ha
      exact ⟨x.told, .watcher, hold hx, by rw [hbadges, if_pos rfl], x.told_before_watcher⟩
  · rw [halarms.flags, Option.isSome_map]
    exact h.front.1
  · rw [horder, List.head?_append, h.front.2]
    rfl

theorem loses (h : Q.Orderly (.turn id)) (hQ : Q.WellFormed) (hloses : Q.Loses id Q') :
    Q'.Orderly (.next (Q.nextAfter? id)) := by
  refine ⟨?_, fun hs => ?_⟩
  · rw [hloses.order]
    refine (h.sorted.filter _).imp_of_mem fun {a b} ha hb hab => ?_
    rw [List.mem_filter, bne_iff_ne] at ha hb
    rw [Before, hloses.badges, hloses.badges, if_neg ha.2, if_neg hb.2]
    exact hab
  · obtain ⟨rest, horder⟩ := List.head?_eq_some_iff.1 (h.front.2 (hloses.scripted hs))
    have hsplit : Q.order = [] ++ id :: rest := horder
    rw [hloses.order, nextAfter?_eq hQ.nodup hsplit, filter_order hQ.nodup hsplit]
    rfl

section Entering

variable (h : Q.Orderly f) (hmem : id ∈ Q.order)
  (hfront : f = .next (some id) ∨ f = .rest ∧ Q.order.head? = some id)
  (hentered : Q.Entered id Q' f')

include h hmem hfront hentered

/-- A turn begins with the queue as it was: the watchdog never finds a script that it could stop. -/
theorem same_of_entered : Q.Same Q' := by
  cases hentered with
  | calls same | rings same | goes same | waits same => exact same
  | bites _ watched => exact absurd watched (h.not_watched hmem hfront)

theorem leads_of_entered : f'.Leads Q := by
  have hhead : Q.Scripted → Q.order.head? = some id := fun hs => h.head?_of_front hs hfront
  cases hentered with
  | calls _ script => exact ⟨script, hhead ⟨id, script⟩⟩
  | rings | goes | bites => exact ⟨hmem, hhead⟩
  | waits _ waiting =>
    refine ⟨hmem, fun hs => ?_⟩
    obtain watched | outwaited := waiting
    · exact h.not_watched hmem hfront watched
    · exact outwaited.head?_ne h.sorted (hhead hs)

theorem entered : Q'.Orderly f' :=
  (h.move f' (h.leads_of_entered hmem hfront hentered)).same
    (h.same_of_entered hmem hfront hentered)

end Entering

/-- Whatever a transition does, scripts stay in front. -/
theorem outcome (h : Q.Orderly f) (hQ : Q.WellFormed) (houtcome : Q.Outcome f Q' f') :
    Q'.Orderly f' := by
  cases houtcome with
  | steps step same => exact (h.move f' (step.leads h.front)).same same
  | enters mem front entered => exact h.entered mem front entered
  | leaves front loses =>
    subst front
    exact h.loses hQ loses

theorem same_or_loses (h : Q.Orderly f) (houtcome : Q.Outcome f Q' f') :
    Q.Same Q' ∨ ∃ id, Q.Loses id Q' := by
  cases houtcome with
  | steps _ same => exact .inl same
  | enters mem front entered => exact .inl (h.same_of_entered mem front entered)
  | leaves _ loses => exact .inr ⟨_, loses⟩

theorem members (h : Q.Orderly f) (houtcome : Q.Outcome f Q' f') (hm : Q.Members) : Q'.Members := by
  obtain same | ⟨_, loses⟩ := h.same_or_loses houtcome
  · exact same.members hm
  · exact loses.members hm

end Orderly

end Queue

inductive Queue.Proceeds (action : Option Action) (Q : Queue) (f : Front) (Q' : Queue) :
    Front → Prop
  | alarms {id : TaskId} (loud : action = some interruption) (front : f = .call id)
      (alarms : Q.Alarms Q') : Proceeds action Q f Q' (.call id)
  | other {f' : Front} (quiet : action ≠ some interruption) (outcome : Q.Outcome f Q' f') :
      Proceeds action Q f Q' f'

theorem Control.Ready.follows {I : Nat → TaskId → Prop} {T : Nat → Prop} {w' : World}
    {control : Control} (h : control.Ready w) (hw : w.Follows I T w') : control.Ready w' := by
  cases control with
  | perform | deliver | unwind | answered | escaped => exact Pending.Ready.follows h hw
  | aborted => exact hw.moves.wellFormed h

namespace Process

theorem Sound.atTime (h : p.Sound) (now : UInt64) : (p.atTime now).Sound := by
  have haside : p.world.Aside (fun _ => True) (p.world.setClock now) :=
    World.aside_setClock p.world now
  refine ⟨h.ready.follows (haside.follows (I := fun _ _ => True)), fun id hid => ?_⟩
  obtain ⟨q, hm, Q, hQ, harmed⟩ := h.flight id hid
  exact ⟨q, hm, Q, (haside.queue? q).trans hQ, harmed⟩

structure Led (Q : Queue) (f : Front) (p : Process) : Prop where
  sound : p.Sound
  serves : p.world.Serves
  queue : p.world.queue? 0 = some Q
  members : Q.Members
  stage : p.control.Stage f
  orderly : Q.Orderly f

namespace Led

theorem wellFormed (h : p.Led Q f) : Q.WellFormed := h.sound.queues 0 Q h.queue

theorem atTime (h : p.Led Q f) (now : UInt64) : (p.atTime now).Led Q f :=
  ⟨h.sound.atTime now, (h.serves.attended.atTime now).serves, h.queue, h.members, h.stage,
    h.orderly⟩

theorem step (h : p.Led Q f) :
    ∃ Q' f', p.step.Led Q' f' ∧ Q.Proceeds p.control.action? f Q' f' := by
  have hsound := h.sound.step.2
  have hmem : ∀ id, f.task? = some id → id ∈ Q.order := fun _ => h.orderly.front.mem_order
  obtain ⟨haction, id, rfl, hserves, Q', _, hQ', hstage, rfl, halarms⟩ |
    ⟨haction, hserves, Q', f', hQ', hstage, houtcome⟩ :=
      h.sound.comes_step h.serves h.queue h.members h.stage hmem
  · exact ⟨Q', .call id, ⟨hsound, hserves, hQ', halarms.members h.members, hstage,
      h.orderly.alarms h.wellFormed halarms⟩, .alarms haction rfl halarms⟩
  · exact ⟨Q', f', ⟨hsound, hserves, hQ', h.orderly.members houtcome h.members, hstage,
      h.orderly.outcome h.wellFormed houtcome⟩, .other haction houtcome⟩

/-- While scripts are queued, a turn that begins is that of a script. -/
theorem isSome_of_begins (h : p.Led Q f) (hbegins : p.Begins 0 id) (hs : Q.Scripted) :
    (Q.flag? id).isSome := by
  obtain ⟨Q', f', hled, hproceeds⟩ := h.step
  rw [Begins, hled.stage.turns, h.stage.turns] at hbegins
  cases hproceeds with
  | alarms _ front =>
    subst front
    cases hbegins
  | other _ outcome =>
    cases outcome with
    | steps step =>
      cases step <;> cases hbegins
    | leaves => cases hbegins
    | @enters id' f' mem front entered =>
      have hfree : f.task? = none := by obtain rfl | ⟨rfl, _⟩ := front <;> rfl
      have hid : id' = id := by
        rw [hfree] at hbegins
        cases entered <;> cases hbegins <;> rfl
      subst hid
      exact h.orderly.isSome_of_front h.wellFormed hs front

end Led

theorem runUnder_succ (clock : Clock) (made fuel : Nat) (p : Process) :
    p.runUnder clock made (fuel + 1) = if (p.runUnder clock made fuel).isOver then
      p.runUnder clock made fuel
    else ((p.runUnder clock made fuel).atTime (clock (made + fuel))).step := by
  induction fuel generalizing made p with
  | zero => rfl
  | succ fuel ih =>
    rw [runUnder]
    split
    · next hover => rw [runUnder_of_isOver clock made hover, if_pos hover]
    · next hover =>
      rw [ih, show p.runUnder clock made (fuel + 1) =
        runUnder clock (made + 1) fuel (p.atTime (clock made)).step by rw [runUnder, if_neg hover],
        Nat.add_right_comm, Nat.add_assoc]

end Process

theorem Engine.Serves.load {E E' : Engine} {chunk : String} {source : List UInt8} (h : E.Serves)
    (hload : E.load chunk source = .ok E') : E'.Serves := by
  cases E with
  | machine E =>
    obtain ⟨m, _, rfl⟩ := Engine.load_machine hload
    exact h
  | pacer | inert => exact h.elim

theorem Engine.Serves.reference? {E E' : Engine} {key : Nat} (h : E.Serves)
    (href : E.reference? = some (key, E')) : E'.Serves := by
  cases E with
  | machine E =>
    obtain ⟨⟨key', m⟩, _, heq⟩ := Option.map_eq_some_iff.1 href
    cases heq
    exact h
  | pacer | inert => exact h.elim

namespace Queue

theorem get?_push (hQ : Q.WellFormed) (task : Task) (id : TaskId) :
    (Q.push task).2.get? id = if id = (Q.push task).1 then some task else Q.get? id := by
  split
  · next hid =>
    rw [hid]
    exact Arena.get?_insert_self hQ.tasks task
  · next hne =>
    cases hg : Q.get? id with
    | some old => exact Arena.get?_insert_of_get? hQ.tasks hg task
    | none =>
      cases hg' : (Q.push task).2.get? id with
      | none => rfl
      | some new =>
        obtain ⟨hid, _⟩ | hold := Arena.get?_insert hQ.tasks task hg'
        · exact absurd hid hne
        · rw [show Q.get? id = some new from hold] at hg
          cases hg

theorem badge?_push (hQ : Q.WellFormed) (task : Task) (id : TaskId) :
    (Q.push task).2.badge? id = if id = (Q.push task).1 then some task.badge else Q.badge? id := by
  rw [badge?, get?_push hQ]
  split <;> rfl

theorem Members.push (hm : Q.Members) (hQ : Q.WellFormed) {task : Task} (h : task.Member) :
    (Q.push task).2.Members := by
  intro id task' hg
  rw [get?_push hQ] at hg
  split at hg
  · cases hg
    exact h
  · exact hm id task' hg

structure Loaded (config : QueueConfig) (Q : Queue) : Prop where
  config : Q.config = config
  members : Q.Members
  scripts : ∀ id ∈ Q.order, Q.badge? id = some (.script false)

structure Poised (config : QueueConfig) (Q : Queue) : Prop where
  config : Q.config = config
  members : Q.Members
  orderly : Q.Orderly .rest
  flags : ∀ id flag, Q.flag? id = some flag → flag = false

theorem Loaded.flags {config : QueueConfig} {flag : Bool} (h : Q.Loaded config) (hQ : Q.WellFormed)
    (hflag : Q.flag? id = some flag) : flag = false := by
  have hm := hQ.mem_order_of_flag? (by rw [hflag]; rfl)
  rw [flag?_eq, h.scripts id hm] at hflag
  exact (Option.some.inj hflag).symm

theorem pairwise_before {ids : List TaskId} (h : ∀ id ∈ ids, Q.badge? id = some (.script false)) :
    ids.Pairwise Q.Before :=
  List.pairwise_of_forall_mem_list fun a ha b hb => ⟨_, _, h a ha, h b hb, trivial⟩

theorem Loaded.poised {config : QueueConfig} (h : Q.Loaded config) (hQ : Q.WellFormed) :
    Q.Poised config :=
  ⟨h.config, h.members, ⟨pairwise_before h.scripts, trivial⟩, fun _ _ => h.flags hQ⟩

section Pushing

variable {config : QueueConfig} (h : Q.Loaded config) (hQ : Q.WellFormed) {task : Task}

include h hQ

theorem Loaded.script_push (hm : id ∈ Q.order) :
    (Q.push task).2.badge? id = some (.script false) := by
  obtain ⟨old, hg⟩ := (hQ.order id).1 hm
  rw [badge?_push hQ, if_neg, h.scripts id hm]
  exact (Arena.fst_insert_ne hQ.tasks (.inl ⟨old, hg⟩) task).symm

theorem Loaded.push (key : Nat) (release : Bool) :
    (Q.push (.script { engine := 0, key, release })).2.Loaded config := by
  refine ⟨h.config, h.members.push hQ (.script rfl), fun id hm => ?_⟩
  obtain hm | hm := List.mem_append.1 hm
  · exact h.script_push hQ hm
  · rw [badge?_push hQ]
    exact if_pos (List.mem_singleton.1 hm)

/-- A task behind the scripts. -/
theorem Loaded.push_plain (hmember : task.Member) (hplain : task.flag? = none) :
    (Q.push task).2.Poised config := by
  refine ⟨h.config, h.members.push hQ hmember, ⟨?_, trivial⟩, fun id flag hflag => ?_⟩
  · change (Q.order ++ [(Q.push task).1]).Pairwise _
    rw [List.pairwise_append]
    refine ⟨pairwise_before fun _ hm => h.script_push hQ hm, List.pairwise_singleton _ _,
      fun a ha b hb => ?_⟩
    exact ⟨_, task.badge, h.script_push hQ ha,
      by rw [badge?_push hQ, if_pos (List.mem_singleton.1 hb)], trivial⟩
  · rw [flag?_eq, badge?_push hQ] at hflag
    split at hflag
    · rw [Option.bind_some, ← task.flag?_eq, hplain] at hflag
      cases hflag
    · exact h.flags hQ (flag?_eq .. ▸ hflag)

end Pushing

end Queue

structure World.Loaded (config : QueueConfig) (w : World) : Prop where
  ready : Pending.outermost.Ready w
  serves : w.Serves
  queue : ∃ Q, w.queue? 0 = some Q ∧ Q.Loaded config

namespace World

variable {config : QueueConfig}

theorem engine?_setEngine {e : Nat} {E : Engine} (hE : w.engine? e = some E) (E' : Engine) :
    (w.setEngine e E').engine? e = some E' := by
  have he := (Array.getElem?_eq_some_iff.1 hE).1
  simp [engine?, setEngine, he]

theorem Serves.loadScript {key : Nat} {source : List UInt8} {w₁ : World} (h : w.Serves)
    (hload : w.loadScript 0 0 source = .ok (key, w₁)) : w₁.Serves := by
  obtain ⟨E, hE, hserves⟩ := h
  obtain ⟨E₀, E₁, E₂, hE₀, hE₁, hE₂, rfl⟩ := loadScript_eq_ok hload
  obtain rfl : E = E₀ := Option.some.inj (hE.symm.trans hE₀)
  exact ⟨E₂, engine?_setEngine hE E₂, (hserves.load hE₁).reference? hE₂⟩

theorem Loaded.notify (h : w.Loaded config) (tag : Tag) (text : String) :
    (w.notify 0 tag text).Loaded config := by
  obtain ⟨Q, hQ, hloaded⟩ := h.queue
  exact ⟨h.ready.follows (I := fun _ _ => True) (T := fun _ => True) (follows_notify w 0 tag text),
    h.serves.notify 0 tag text, _, queue?_notify hQ tag text,
    hloaded.config, hloaded.members, hloaded.scripts⟩

theorem Loaded.parseAndStart (h : w.Loaded config) (source : List UInt8) :
    (w.parseAndStart 0 0 source).2.Loaded config := by
  unfold World.parseAndStart
  split
  · exact h.notify _ _
  · next key w₁ hload =>
    have hw₁ : w₁.Loaded config := by
      have haside := aside_loadScript (T := fun _ => True) hload
      obtain ⟨Q, hQ, hloaded⟩ := h.queue
      exact ⟨h.ready.follows (I := fun _ _ => True) haside.follows, h.serves.loadScript hload, Q,
        (haside.queue? 0).trans hQ, hloaded⟩
    have hnotified := (hw₁.notify .notice "Running script...").notify .state "1"
    obtain ⟨Q, hQ, hloaded⟩ := hnotified.queue
    exact ⟨hnotified.ready.follows (I := fun _ _ => True) (T := fun _ => True)
        (follows_push _ 0 rfl), hnotified.serves.push _, _, queue?_push hQ _,
      hloaded.push (hnotified.ready.queues 0 Q hQ) key true⟩

end World

namespace CommandLine

variable {read : Reading} {now : UInt64} {r : RunRequest} {lines : List String} {l : Launch}
  {settings : Settings}

theorem loaded_world (settings : Settings) (now : UInt64) :
    (world settings now).Loaded settings.queue := by
  have hqueue : ∀ q Q, (world settings now).queue? q = some Q →
      Q = { config := settings.queue } := fun q Q hQ => by
    cases q with
    | zero => exact (Option.some.inj hQ).symm
    | succ q => simp [World.queue?, world] at hQ
  refine ⟨⟨fun q Q hQ => ?_, trivial, fun q Q id hQ hc => ?_⟩, ⟨_, rfl, fun _ => rfl, ?_⟩, _, rfl,
    rfl, fun id task hg => ?_, fun id hm => ?_⟩
  · rw [hqueue q Q hQ]
    exact Queue.wellFormed_new _
  · rw [hqueue q Q hQ] at hc
    cases hc
  · intro probe hprobe
    cases hprobe
  · rw [Queue.get?, Arena.get?_empty] at hg
    cases hg
  · cases hm

theorem startFiles_keeps {P : World → Prop} (hkeeps : ∀ w source, P w → P (w.parseAndStart 0 0 source).2)
    {w w' : World} {files : List String} {rejected rejected' : Nat} (h : P w)
    (hstart : startFiles read w rejected files = (w', .ok rejected')) : P w' := by
  induction files generalizing w rejected with
  | nil =>
    cases hstart
    exact h
  | cons path rest ih =>
    rw [startFiles] at hstart
    split at hstart
    · cases hstart
    · next source _ =>
      have hnext := hkeeps w source h
      split at hstart
      · next heq =>
        rw [heq] at hnext
        exact ih hnext hstart
      · next heq =>
        rw [heq] at hnext
        exact ih hnext hstart

/-- A run begins with its scripts in front, none of them interrupted. -/
theorem exists_led_launch (hsettings : resolve read r = .ok settings)
    (hlaunch : launch read now r = (lines, .ok l)) :
    ∃ Q, l.process.Led Q .rest ∧ Q.Poised settings.queue := by
  rw [launch, hsettings] at hlaunch
  dsimp only at hlaunch
  split at hlaunch
  · cases hlaunch
  · next w rejected hstart =>
    have hw : w.Loaded settings.queue :=
      startFiles_keeps (fun _ source h => h.parseAndStart source) (loaded_world settings now) hstart
    obtain ⟨Q, hQ, hloaded⟩ := hw.queue
    have hwf := hw.ready.queues 0 Q hQ
    cases hlaunch
    cases r.timeout with
    | none =>
      have hpoised := hloaded.poised hwf
      dsimp only
      exact ⟨Q, ⟨World.sound_begin hw.ready _, hw.serves, hQ, hpoised.members, .opens,
        hpoised.orderly⟩, hpoised⟩
    | some timeout =>
      dsimp only
      rw [World.startWatchdog]
      have hpoised := hloaded.push_plain hwf (.watchdog (saturatingAdd w.now timeout) true) rfl
      exact ⟨_, ⟨World.sound_begin (hw.ready.follows (I := fun _ _ => True) (T := fun _ => True)
        (World.follows_push w 0 rfl)) _, hw.serves.push _, World.queue?_push hQ _, hpoised.members,
        .opens, hpoised.orderly⟩, hpoised⟩

end CommandLine

end TaskLoop
