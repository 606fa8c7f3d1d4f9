import TaskLoop.Session.Callback

namespace TaskLoop.World

def countInstruction (w : World) (e : Nat) : World := w.modifyEngine e (·.count)

def executed (w : World) (e : Nat) : Nat := ((w.engine? e).map (·.executed)).getD 0

/-- Counts an instruction toward the hook of an engine, and gives the hook if it is due. The user's
next actions are taken off it then. -/
def tickHook (w : World) (e : Nat) : Option Hook × World :=
  match w.engine? e >>= (·.probe?) with
  | none => (none, w)
  | some probe =>
    let (due, probe) := probe.tick
    if due then
      (some probe.hook, w.modifyEngine e (·.setProbe (some { probe with hook := probe.hook.rest })))
    else (none, w.modifyEngine e (·.setProbe (some probe)))

/-- Runs a hook at an instruction, which is known by its number and the depth of the call. The hook
of a queue cancels the running task if that has been interrupted. -/
def fireHook (w : World) (hook : Hook) (instruction depth : Nat) (k : Pending .done) : Process :=
  match hook with
  | .cancel q =>
    match w.queue? q >>= (·.cancelled?) with
    | none => w.deliver k ()
    | some id => w.unwind (.cancelled id) k
  | .user label fires =>
    (w.logged (.hook label instruction depth)).callBack (fires.headD []) (.cons .unheeded k)

def leaveMachine (w : World) (e : Nat) (call : MachineCall) (result : Except CallError Unit)
    (k : Pending .call) : Process :=
  (w.modifyMachine e (·.leave call.base call.mark)).deliver k result

def failMachine (w : World) (e : Nat) (call : MachineCall) (fault : Fault) (k : Pending .call) :
    Process :=
  match fault with
  | .memory => w.leaveMachine e call (.error .memory) k
  | .runtime fault =>
    let (text, w) := w.handle call.handler fault.message (call.program.trace call.frames)
    w.leaveMachine e call (.error (.runtime text)) k

def callHost (w : World) (e : Nat) (call : MachineCall) (name : String) (k : Pending .call) :
    Process :=
  match w.host? e name with
  | none => w.failMachine e call (.runtime (.unknownHost name)) k
  | some turns =>
    let w := w.logged (.host name)
    match nextTurn turns with
    | none => w.deliver (.cons (.machine e call) k) ()
    | some (turn, rest) =>
      (w.modifyEngine e (·.setHost name rest)).callBack turn.actions
        (.cons (.host e call name turn) k)

def executeOp (w : World) (e : Nat) (call : MachineCall) (op : Op) (k : Pending .call) : Process :=
  match w.machine? e with
  | none => w.deliver k (.ok ())
  | some m =>
    match m.execute op call.frames with
    | .next m frames =>
      (w.setMachine e m).deliver (.cons (.machine e { call with frames }) k) ()
    | .stop m fault => (w.setMachine e m).failMachine e call fault k
    | .host name => w.callHost e call name k

def runMachine (w : World) (e : Nat) (call : MachineCall) (k : Pending .call) : Process :=
  match call.program.fetch call.frames with
  | none => w.leaveMachine e call (.ok ()) k
  | some (op, frames) =>
    let call := { call with frames }
    match (w.countInstruction e).tickHook e with
    | (none, w) => w.executeOp e call op k
    | (some hook, w) => w.fireHook hook (w.executed e) frames.length (.cons (.counted e call op) k)

/-- A host function has performed its actions; a strict one passes on the first complaint. -/
def hostReturned (w : World) (e : Nat) (call : MachineCall) (name : String)
    (turn : HostCall Action) (complaint : Option String) (k : Pending .call) : Process :=
  match turn.failure <|> (if turn.strict then complaint else none) with
  | none => w.deliver (.cons (.machine e call) k) ()
  | some reason => w.failMachine e call (.runtime (.hostFailed name reason)) k

def leavePacer (w : World) (e : Nat) (result : Except CallError Unit) (k : Pending .call) :
    Process :=
  (w.modifyEngine e (·.popChunk)).deliver k result

def tickPacer (w : World) (e instruction depth : Nat) (call : PacerCall) (k : Pending .call) :
    Process :=
  match w.tickHook e with
  | (none, w) => w.deliver (.cons (.pacer e call) k) ()
  | (some hook, w) => w.fireHook hook instruction depth (.cons (.pacer e call) k)

def runPacer (w : World) (e : Nat) (call : PacerCall) (k : Pending .call) : Process :=
  match Pacer.next call.depth call.rest with
  | .finished result => w.leavePacer e result k
  | .raising message =>
    let (text, w) := w.handle call.handler message (Pacer.trace call.depth)
    w.leavePacer e (.error (.runtime text)) k
  | .tick rest depth =>
    let w := w.countInstruction e
    let after : PacerCall := { call with rest, depth }
    match w.engine? e >>= (·.trigger?) with
    | none => w.tickPacer e (w.executed e) call.depth after k
    | some actions =>
      (w.modifyEngine e (·.setTrigger none)).callBack actions
        (.cons .unheeded (.cons (.triggered e (w.executed e) call.depth after) k))

def callProtected (w : World) (e key : Nat) (handler : Handler) (k : Pending .call) : Process :=
  match w.engine? e with
  | none => w.deliver k (.error (.other (-1)))
  | some .inert => w.deliver k (.error (.other key))
  | some (.machine engine) =>
    match engine.machine.registry.get? key with
    | some (.callable program) =>
      let call : MachineCall :=
        { program, handler
          frames := Program.start
          mark := engine.machine.allocated
          base := engine.machine.stack.height }
      w.deliver (.cons (.machine e call) k) ()
    | _ =>
      let (text, w) := w.handle handler RuntimeFault.notCallable.message []
      w.deliver k (.error (.runtime text))
  | some (.pacer engine) =>
    match engine.pacer.get? key with
    | none => w.deliver k (.error (.other (-1)))
    | some chunk =>
      let call : PacerCall := ⟨.chunk chunk, 1, handler⟩
      (w.modifyEngine e (·.pushChunk chunk)).deliver (.cons (.pacer e call) k) ()

end TaskLoop.World
