import Pingkv.Server.Store

/-! A server that is killed now and then and started again on its data files: what was
run in one of its lives is there in the next. -/

namespace Pingkv

open Simulation

/-- What happens to a server, or the end of one of its lives and the start of the next. -/
inductive LifeEvent (fileCount : Int) (workers : Nat) where
  | serves (event : Service.Event fileCount workers)
  | restart

namespace LifeEvent

variable {fileCount : Int} {workers : Nat}

def served : LifeEvent fileCount workers → Option (Service.Event fileCount workers)
  | .serves event => some event
  | .restart => none

end LifeEvent

namespace Store

variable {fileCount : Int} {workers : Nat} {before later : Store fileCount workers}
  {event : LifeEvent fileCount workers} {events : List (LifeEvent fileCount workers)}

/-- With a server its connections go, and the requests under way on them; the values stay. -/
inductive Lives (before : Store fileCount workers) : LifeEvent fileCount workers → Store fileCount workers → Prop where
  | serves {event : Service.Event fileCount workers} {after : Store fileCount workers} (step : Step before event after) :
      Lives before (.serves event) after
  | restart : Lives before .restart { before with pending := fun _ => none }

theorem Lives.writes (step : Lives before event later) (key : List UInt8) :
    later.values key = (event.served.bind (Store.writes key)).getD (before.values key) := by
  cases step with
  | serves step => exact step.writes key
  | restart => rfl

/-- A request that was run stays so until its client hears, or the server is killed. -/
theorem Lives.stays {fd : Int} {request : Request fileCount workers} {bytes : List UInt8}
    (ran : before.pending fd = some (request, some bytes))
    (quiet : event ≠ .restart ∧ ∀ heard, event ≠ .serves (.hear fd heard)) (step : Lives before event later) :
    later.pending fd = some (request, some bytes) := by
  cases step with
  | serves step => exact step.stays ran fun heard same => quiet.2 heard (congrArg LifeEvent.serves same)
  | restart => exact absurd rfl quiet.1

end Store

namespace Service

variable {fileCount : Int} {workers : Nat}

/-- A step of a server, or its end at any moment at which no worker is inside a call on its
index: the next server opens all the data files again, for clients that connect anew. -/
inductive Lives (before : Service fileCount workers Cache.KvIndex) :
    LifeEvent fileCount workers → Service fileCount workers Cache.KvIndex → Prop where
  | serves {event : Event fileCount workers} {after : Service fileCount workers Cache.KvIndex} (step : StoreStep before event after) :
      Lives before (.serves event) after
  | restart {index : Fin workers → Cache.KvIndex} (behind : Mem)
      (opens : ∀ number, Cache.KvIndex.Happens (before.pool.cells number).run.index .reopen (index number)) :
      Lives before .restart (start (fun _ => Cache.KvIndex.respond) index behind)

end Service

end Pingkv
