import SpaceWire.Exceptions

namespace SpaceWire

/-- Where the receive coroutine of a monitor stands: not run yet, waiting for a transition, or
ended by a disconnect error. -/
inductive MonitorTask
  | created | receiving | failed
  deriving DecidableEq

/-- The attributes of a monitor whose callbacks are named by `κ`. -/
structure SpaceWireMonitor (κ : Type) where
  raiseOnDisconnect : Bool := false
  queue : List Bool := []
  task : Option MonitorTask := none
  disconnected : Bool := false
  callbacks : List κ := []
  bitAvailable : Bool := false

namespace SpaceWireMonitor

variable {κ : Type}

def start (m : SpaceWireMonitor κ) : Except Exn (SpaceWireMonitor κ) :=
  if m.task.isSome then .error (.runtimeError "SpaceWireMonitor is already started")
  else .ok { m with task := some .created }

def stop (m : SpaceWireMonitor κ) : SpaceWireMonitor κ := { m with task := none }

def recvBit (m : SpaceWireMonitor κ) : SpaceWireMonitor κ × Option Bool :=
  match m.queue with
  | [] => ({ m with bitAvailable := false }, none)
  | bit :: rest => ({ m with queue := rest }, some bit)

def onBit (m : SpaceWireMonitor κ) (cb : κ) : SpaceWireMonitor κ :=
  { m with callbacks := m.callbacks ++ [cb] }

def resume (m : SpaceWireMonitor κ) : SpaceWireMonitor κ :=
  if m.task = some .created then { m with task := some .receiving } else m

/-- A transition on `di` or `si` wakes the receive coroutine, which samples `di`; an undefined
level is no bit. The callbacks that are invoked, in order, come with the bit. -/
def edge (m : SpaceWireMonitor κ) (di : Option Bool) : SpaceWireMonitor κ × List (κ × Bool) :=
  if m.task = some .receiving then
    let m := { m with disconnected := false }
    match di with
    | none => (m, [])
    | some bit =>
      ({ m with queue := m.queue ++ [bit], bitAvailable := true },
        m.callbacks.map fun cb => (cb, bit))
  else (m, [])

def timeout (m : SpaceWireMonitor κ) : SpaceWireMonitor κ :=
  if m.task = some .receiving then
    { m with disconnected := true
             task := some (if m.raiseOnDisconnect then .failed else .receiving) }
  else m

end SpaceWireMonitor

end SpaceWire
