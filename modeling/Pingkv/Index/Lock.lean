import Pingkv.DataFile.Flush
import Pingkv.DataFile.RowId
import Pingkv.Index.Open
import Pingkv.Lib.Simulation

/-! The process in the head of a data file as a lock: how the servers on one machine
keep their data files apart. -/

namespace Pingkv

open Exec Simulation

namespace DataFileTool

end DataFileTool

namespace DataFile

variable {pid : Int} {pidExists : Int → Bool}

end DataFile

namespace World

open DataFile

variable {world : World} {path : Text} {pidExists : Int → Bool}

/-- The head of a file is another one's only where no process stood in it that exists. -/
def Passes (pidExists : Int → Bool) (before after : File) : Prop :=
  after.info.currPid = before.info.currPid ∨ pidExists before.info.currPid = false

/-- What an opening may do to the files of a machine. -/
structure Locks (path : Text) (before after : World) : Prop where
  away : ∀ other, other ≠ path → after.file other = before.file other
  passes : ∀ file, before.file path = some file →
    ∃ left, after.file path = some left ∧ Passes before.pidExists file left

end World

/-- The processes and the data files of a machine. -/
structure Machine where
  /-- `/proc` lists the process. -/
  living : Int → Bool
  /-- `open_index` of the path returned 0 to the process. -/
  holds : Int → Text → Prop
  file : Text → Option File

namespace Machine

open DataFile

/-- What a process does. -/
inductive Event where
  | start (pid : Int)
  | exit (pid : Int)
  | opens (world : World) (path : Text)
  | works (path : Text)

/-- A step of a machine. An opening sees every living process in `/proc`; what `errno`
and the system answer is any. A method of an object runs on its file whether or not
the process holds it: a worker goes on when `open_index` has failed. -/
inductive Step (before : Machine) : Event → Machine → Prop where
  | start {pid : Int} (fresh : before.living pid = false) :
      Step before (.start pid) { before with living := Function.update before.living pid true }
  | exit (pid : Int) : Step before (.exit pid) { before with
      living := Function.update before.living pid false
      holds := fun other path => other ≠ pid ∧ before.holds other path }
  | opens {world after : World} {path dbName : Text} {fileId : Int} {create : Bool} {outcome : Except Stop Unit}
      (files : world.file = before.file) (alive : before.living world.pid = true)
      (sees : ∀ pid, before.living pid = true → world.pidExists pid = true)
      (ran : World.openIndex path dbName fileId create world = (outcome, after)) : Step before (.opens world path) { before with
        file := after.file
        holds := fun pid other => before.holds pid other ∨ outcome = .ok () ∧ pid = world.pid ∧ other = path }
  | works {path : Text} {dbf after : DataFile} {method : Method} {outcome : Except Stop Unit}
      (there : before.file path = some dbf.toFile) (typed : method.Typed) (ran : method.run dbf = (outcome, after)) :
      Step before (.works path) { before with file := Function.update before.file path (some after.toFile) }

/-- `errno` does not hold `ENOENT` where a file that is there is opened. -/
def Event.Clear : Event → Prop
  | .opens world path => world.Clear path
  | _ => True

variable {machine before after final : Machine} {event : Event} {events : List Event} {pid other fileId otherId : Int}
  {baseDir dbName : Text}

/-- A machine without processes and files. -/
def empty : Machine := ⟨fun _ => false, fun _ _ => False, fun _ => none⟩

end Machine

end Pingkv
