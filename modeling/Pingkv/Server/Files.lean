import Pingkv.Route

/-! The files and request queues the constructor of `kv_server` sets up, and
where a routed request ends up among them. -/

namespace Pingkv

/-- One worker thread: the file it serves and its place in `_req_queue`. -/
structure KvWorker where
  fileId : Int
  requestBuf : Nat
  deriving DecidableEq, Repr

structure KvServer where
  localFileCount : Int
  filenoLow : Int
  /-- `_req_queue.size()`. -/
  queues : Nat
  workers : List KvWorker

namespace KvServer

/-- The loop that rounds `_local_file_count` up, given at least as many turns as it takes. -/
def roundUp (fileCount serverCount : Int) : Nat → Int → Int
  | 0, count => count
  | fuel + 1, count =>
    if count * serverCount < fileCount then roundUp fileCount serverCount fuel (count + 1) else count

/-- `_local_file_count` before the last server gives back what is too much. -/
def sharedCount (fileCount serverCount : Int) : Int :=
  roundUp fileCount serverCount fileCount.toNat (fileCount.tdiv serverCount)

/-- `kv_server::kv_server`: worker `i` serves file `_fileno_low + i` and takes
its work from queue `i`. -/
def new (fileCount serverCount serverId : Int) : KvServer :=
  let shared := sharedCount fileCount serverCount
  let low := serverId * shared
  let count := if serverId = serverCount - 1 then shared - (shared * serverCount - fileCount) else shared
  { localFileCount := count, filenoLow := low, queues := count.toNat,
    workers := (List.range count.toNat).map fun (place : Nat) => { fileId := low + place, requestBuf := place } }

/-- Enough turns end the loop at a count that covers all files. -/
theorem roundUp_covers {fileCount serverCount : Int} (servers : 1 ≤ serverCount) {fuel : Nat} {count : Int}
    (enough : fileCount ≤ count * serverCount + fuel) :
    fileCount ≤ roundUp fileCount serverCount fuel count * serverCount := by
  induction fuel generalizing count with
  | zero => simpa only [roundUp, Int.natCast_zero, Int.add_zero] using enough
  | succ fuel ih =>
    rw [roundUp]
    split
    · apply ih
      rw [Int.add_mul]
      omega
    · omega

/-- A count that covers all files is kept. -/
theorem roundUp_of_covers {fileCount serverCount count : Int} (covers : fileCount ≤ count * serverCount)
    (fuel : Nat) : roundUp fileCount serverCount fuel count = count := by
  cases fuel with
  | zero => rfl
  | succ fuel => rw [roundUp, if_neg (by omega)]

theorem sharedCount_of_dvd {fileCount serverCount : Int} (divides : serverCount ∣ fileCount) :
    sharedCount fileCount serverCount = fileCount.tdiv serverCount :=
  roundUp_of_covers (by rw [Int.tdiv_mul_cancel divides]) _

theorem new_of_dvd {fileCount serverCount : Int} (divides : serverCount ∣ fileCount) (serverId : Int) :
    new fileCount serverCount serverId =
      { localFileCount := fileCount.tdiv serverCount, filenoLow := serverId * fileCount.tdiv serverCount,
        queues := (fileCount.tdiv serverCount).toNat,
        workers := (List.range (fileCount.tdiv serverCount).toNat).map fun (place : Nat) =>
          { fileId := serverId * fileCount.tdiv serverCount + place, requestBuf := place } } := by
  simp only [new, sharedCount_of_dvd divides, Int.tdiv_mul_cancel divides, Int.sub_self, Int.sub_zero,
    ite_self]

end KvServer

/-- The server a key is routed to owns the file of the key, and the queue the
request goes to there belongs to the worker of that file. -/
def RoutedHome (serverCount fileCount : Int) (key : List UInt8) : Prop :=
  let serverNo := getServerNo serverCount (some key)
  let server := KvServer.new fileCount serverCount serverNo
  let file := (hashData key).tmod fileCount
  (0 ≤ serverNo ∧ serverNo < serverCount) ∧
  (server.filenoLow ≤ file ∧ file < server.filenoLow + server.localFileCount) ∧
  requestQueue fileCount key < server.queues ∧
  ∃ worker ∈ server.workers, worker.requestBuf = requestQueue fileCount key ∧ worker.fileId = file

instance (serverCount fileCount : Int) (key : List UInt8) :
    Decidable (RoutedHome serverCount fileCount key) := inferInstanceAs (Decidable (_ ∧ _))

/-- Only keys of the first server reach the worker of their file: the ranges of
files are consecutive while servers are chosen by a remainder, and the queue is
taken by the number of the file and not by its place on the server. -/
theorem routedHome_iff {serverCount fileCount : Int} {key : List UInt8}
    (servers : 1 ≤ serverCount ∧ serverCount < 2 ^ 31) (divides : serverCount ∣ fileCount)
    (nonneg : 0 ≤ hashData key) :
    RoutedHome serverCount fileCount key ↔
      serverCount ∣ hashData key ∧ hashData key % fileCount < fileCount / serverCount := by
  have lower : 0 ≤ hashData key % fileCount := by
    rw [← Int.tmod_eq_emod_of_nonneg nonneg]
    exact Int.tmod_nonneg _ nonneg
  have inside := (tmod_inside servers.1).mpr (.inl nonneg)
  simp only [RoutedHome, getServerNo_eq servers.1 servers.2, KvServer.new_of_dvd divides, requestQueue,
    Int.tmod_eq_emod_of_nonneg nonneg, Int.tdiv_eq_ediv_of_dvd divides] at inside ⊢
  constructor
  · rintro ⟨_, _, _, worker, member, queue, file⟩
    obtain ⟨place, below, rfl⟩ := List.mem_map.mp member
    have below := List.mem_range.mp below
    have first : hashData key % serverCount * (fileCount / serverCount) = 0 := by
      simp only at queue file
      omega
    constructor
    · rcases Int.mul_eq_zero.mp first with zero | zero
      · exact Int.dvd_of_emod_eq_zero zero
      · omega
    · simp only at queue
      omega
  · rintro ⟨even, below⟩
    have first := Int.emod_eq_zero_of_dvd even
    refine ⟨inside, ?_, by omega, ⟨0 + hashData key % fileCount, (hashData key % fileCount).toNat⟩, ?_, ?_, ?_⟩
    · rw [first]
      omega
    · apply List.mem_map.mpr
      refine ⟨(hashData key % fileCount).toNat, List.mem_range.mpr (by omega), ?_⟩
      rw [first, Int.zero_mul, Int.toNat_of_nonneg lower]
    · exact Int.toNat_of_nonneg lower
    · exact Int.zero_add _

theorem routedHome_first : RoutedHome 2 4 [51] :=
  (routedHome_iff (by decide) (by decide) (by decide +kernel)).mpr (by decide +kernel)

/-- Of two servers with a file each the second is chosen for the key `2`, whose
file is its only one; the request goes to queue 1, and there is one queue. -/
theorem second_server_lacks_queue : getServerNo 2 (some [50]) = 1 ∧ requestQueue 2 [50] = 1 ∧
    (KvServer.new 2 2 1).queues = 1 ∧ ¬ RoutedHome 2 2 [50] := by
  decide +kernel

end Pingkv
