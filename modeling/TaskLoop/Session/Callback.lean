import TaskLoop.Session.Activation

namespace TaskLoop.World

def deliver {hole : Hole} (w : World) (k : Pending hole) (result : hole.Result) : Process :=
  ⟨w, .deliver result k⟩

def unwind {hole : Hole} (w : World) (payload : Payload) (k : Pending hole) : Process :=
  ⟨w, .unwind payload k⟩

def performAll (w : World) (actions : List Action) (complaint : Option String)
    (k : Pending .routine) : Process :=
  match actions with
  | [] => w.deliver k complaint
  | a :: rest => ⟨w, .perform a (.cons (.routine a rest complaint) k)⟩

def callBack (w : World) (actions : List Action) (k : Pending .routine) : Process :=
  w.performAll actions none k

def destroyCallback (w : World) (name : String) (onDrop : Option (List Action))
    (k : Pending .done) : Process :=
  match onDrop with
  | none => w.deliver k ()
  | some actions => (w.logged (.drop name)).callBack actions (.cons .unheeded k)

/-- Gives back what a script holds that never ran: its hook if it was interrupted, and its key. -/
def releaseScript (w : World) (t : ScriptTask) : World :=
  let w := if t.armed then w.modifyEngine t.engine (·.clearHook) else w
  if t.release then w.modifyEngine t.engine (·.unreference t.key) else w

def destroy (w : World) (task : Task) (k : Pending .done) : Process :=
  match task with
  | .idle t => w.destroyCallback t.name t.onDrop k
  | .timer t => w.destroyCallback t.name t.onDrop k
  | .script t => (if t.ran then w else w.releaseScript t).deliver k ()
  | .watcher t =>
    match t.callback with
    | none => w.deliver k ()
    | some callback => w.destroyCallback t.name callback.onDrop k

end TaskLoop.World
