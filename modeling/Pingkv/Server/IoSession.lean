import Pingkv.Server.IoBuf

/-! A `kv_io_buf` in use: its bytes come out in the order they went in. -/

namespace Pingkv

open Exec

/-- A buffer in use: what was put into it and what was taken from it so far. -/
structure IoSession where
  buf : KvIoBuf
  written : List UInt8
  taken : List UInt8

namespace IoSession

inductive Op where
  | write (bytes : List UInt8)
  | take (count : Nat)
  | rPtr
  | rLen
  | wPtr
  | wLen

def new (blockSize : Int) (junk : Nat → Mem) : IoSession :=
  { buf := KvIoBuf.new blockSize junk, written := [], taken := [] }

def call {α : Type} (step : Exec KvIoBuf α) : Exec IoSession α :=
  within IoSession.buf (fun buf session => { session with buf := buf }) step

/-- A writer puts no more than `w_len` bytes at `w_ptr`, a reader takes no more
than `r_len` bytes from `r_ptr`; both then move the offset. -/
def perform : Op → Exec IoSession Unit
  | .write bytes => do
    let room ← call KvIoBuf.wLen
    let place ← call KvIoBuf.wPtr
    if bytes.length ≤ room then
      call (KvIoBuf.putBytes place bytes >>= fun _ => KvIoBuf.addWOffset bytes.length)
      update fun session => { session with written := session.written ++ bytes }
  | .take count => do
    let stored ← call KvIoBuf.rLen
    let place ← call KvIoBuf.rPtr
    if count ≤ stored then
      let bytes ← call do
        let bytes ← KvIoBuf.getBytes place count
        KvIoBuf.addROffset count
        pure bytes
      update fun session => { session with taken := session.taken ++ bytes }
  | .rPtr => do let _ ← call KvIoBuf.rPtr
  | .rLen => do let _ ← call KvIoBuf.rLen
  | .wPtr => do let _ ← call KvIoBuf.wPtr
  | .wLen => do let _ ← call KvIoBuf.wLen

def run : List Op → Exec IoSession Unit
  | [] => pure ()
  | op :: rest => do
    perform op
    run rest

/-- What was written is what was taken and then what the buffer holds. -/
structure Inv (session : IoSession) : Prop where
  buf : session.buf.Inv
  split : session.written = session.taken ++ session.buf.contents

theorem new_inv {blockSize : Int} (sized : 1 ≤ blockSize ∧ blockSize ≤ 32767) (junk : Nat → Mem) :
    (new blockSize junk).Inv := ⟨KvIoBuf.new_inv sized junk, rfl⟩

theorem call_run {α : Type} {session : IoSession} {step : Exec KvIoBuf α} {value : α} {after : KvIoBuf}
    (returned : step session.buf = (.ok value, after)) :
    call step session = (.ok value, { session with buf := after }) := by
  simp only [call, within, returned]

/-- An accessor keeps the invariant of a session. -/
theorem Inv.accessor {α : Type} {session : IoSession} (inv : session.Inv) {step : Exec KvIoBuf α} {value : α}
    {after : KvIoBuf} (returned : step session.buf = (.ok value, after)) (kept : session.buf.Kept after) :
    call step session = (.ok value, { session with buf := after }) ∧
      { session with buf := after : IoSession }.Inv := by
  refine ⟨call_run returned, kept.inv, ?_⟩
  rw [inv.split, kept.contents]

/-- Once `w_len` was asked the bytes go behind the last block if they fit there. -/
theorem write_run {session : IoSession} {after : KvIoBuf} {earlier : List KvIoBuf.Block} {last : KvIoBuf.Block}
    (asked : KvIoBuf.wLen session.buf = (.ok (after.blockSize - last.wOffset), after)) (inv : after.Inv)
    (roomy : after.Roomy earlier last) {bytes : List UInt8}
    (fits : bytes.length ≤ after.blockSize - last.wOffset) :
    perform (.write bytes) session = (.ok (), { session with
      buf := { after with blocks := earlier ++ [last.extend bytes] }, written := session.written ++ bytes }) := by
  have place : call KvIoBuf.wPtr { session with buf := after } =
      (.ok ⟨last.number, last.wOffset⟩, { session with buf := after }) := call_run roomy.wPtr_run
  have stored := @call_run _ { session with buf := after } _ _ _ (roomy.write_run inv fits)
  rw [perform, bind_ok (call_run asked), bind_ok place, if_pos fits, bind_ok stored]
  rfl

/-- Every use of the buffer succeeds and keeps its bytes in order. -/
theorem Inv.perform {session : IoSession} (inv : session.Inv) (op : Op) :
    wp (perform op) (fun _ after => after.Inv) (fun _ _ => False) session := by
  cases op with
  | write bytes =>
    obtain ⟨after, earlier, last, asked, kept, roomy⟩ := inv.buf.wLen_run
    by_cases fits : bytes.length ≤ after.blockSize - last.wOffset
    · apply wp_of_ok (write_run asked kept.inv roomy fits)
      have extended := roomy.extend_inv kept.inv fits
      refine ⟨extended.1, ?_⟩
      rw [extended.2, inv.split, kept.contents, List.append_assoc]
    · have place : call KvIoBuf.wPtr { session with buf := after } =
          (.ok ⟨last.number, last.wOffset⟩, { session with buf := after }) := call_run roomy.wPtr_run
      have accessed := inv.accessor asked kept
      have run : IoSession.perform (.write bytes) session = (.ok (), { session with buf := after }) := by
        rw [IoSession.perform, bind_ok accessed.1, bind_ok place, if_neg fits]
        rfl
      exact wp_of_ok run accessed.2
  | take count =>
    obtain ⟨after, first, rest, asked, kept, starts⟩ := inv.buf.rLen_run
    have accessed := inv.accessor asked kept
    have place : call KvIoBuf.rPtr { session with buf := after } =
        (.ok ⟨first.number, first.rOffset⟩, { session with buf := after }) := call_run (KvIoBuf.rPtr_run starts)
    by_cases within : count ≤ first.wOffset - first.rOffset
    · have got := @call_run _ { session with buf := after } _ _ _ (kept.inv.read_run starts within)
      have advanced := kept.inv.advanced_inv starts within
      have run : IoSession.perform (.take count) session = (.ok (), { session with
          buf := { after with blocks := KvIoBuf.advanced after.blockSize first rest count },
          taken := session.taken ++ first.data.slice first.rOffset.toNat count }) := by
        rw [IoSession.perform, bind_ok accessed.1, bind_ok place, if_pos within, bind_ok got]
        rfl
      apply wp_of_ok run
      refine ⟨advanced.1, ?_⟩
      rw [inv.split, ← kept.contents, advanced.2, List.append_assoc]
    · have run : IoSession.perform (.take count) session = (.ok (), { session with buf := after }) := by
        rw [IoSession.perform, bind_ok accessed.1, bind_ok place, if_neg within]
        rfl
      exact wp_of_ok run accessed.2
  | rPtr =>
    obtain ⟨place, after, asked, kept⟩ := inv.buf.rPtr_run
    have accessed := inv.accessor asked kept
    exact wp_of_ok (bind_ok accessed.1) accessed.2
  | rLen =>
    obtain ⟨after, first, rest, asked, kept, _⟩ := inv.buf.rLen_run
    have accessed := inv.accessor asked kept
    exact wp_of_ok (bind_ok accessed.1) accessed.2
  | wPtr =>
    obtain ⟨place, after, asked, kept⟩ := inv.buf.wPtr_run
    have accessed := inv.accessor asked kept
    exact wp_of_ok (bind_ok accessed.1) accessed.2
  | wLen =>
    obtain ⟨after, earlier, last, asked, kept, _⟩ := inv.buf.wLen_run
    have accessed := inv.accessor asked kept
    exact wp_of_ok (bind_ok accessed.1) accessed.2

theorem Inv.run {session : IoSession} (inv : session.Inv) (ops : List Op) :
    wp (run ops) (fun _ after => after.Inv) (fun _ _ => False) session := by
  induction ops generalizing session with
  | nil => exact wp_pure inv
  | cons op rest ih => exact wp_bind (inv.perform op) fun _ _ inv => ih inv

/-- The buffer as its users see it: what comes out went in, in the same order,
there is always room, and something to read whenever there is something in it. -/
structure Faithful (session : IoSession) : Prop where
  in_order : session.taken <+: session.written
  size : session.buf.size = wrap 32 (session.written.length - session.taken.length)
  room : ∃ room, (KvIoBuf.wLen session.buf).1 = .ok room ∧ 0 < room
  stored : 0 < session.buf.size → ∃ stored, (KvIoBuf.rLen session.buf).1 = .ok stored ∧ 0 < stored

theorem Inv.faithful {session : IoSession} (inv : session.Inv) : session.Faithful := by
  have total : (session.written.length : Int) - session.taken.length = session.buf.contents.length := by
    rw [inv.split, List.length_append]
    omega
  constructor
  · exact ⟨session.buf.contents, inv.split.symm⟩
  · rw [inv.buf.size_eq, total]
  · obtain ⟨after, earlier, last, asked, _, roomy⟩ := inv.buf.wLen_run
    have room := roomy.room
    exact ⟨_, congrArg Prod.fst asked, by omega⟩
  · intro filled
    obtain ⟨after, first, rest, asked, kept, starts⟩ := inv.buf.rLen_run
    have begun := kept.inv.begun first (by simp [starts])
    refine ⟨_, congrArg Prod.fst asked, ?_⟩
    cases rest with
    | cons next rest =>
      have whole := kept.inv.full first (by simp [starts])
      omega
    | nil =>
      have some_ : session.buf.contents ≠ [] := by
        intro empty
        rw [inv.buf.size_eq, empty] at filled
        exact absurd filled (by decide)
      rw [← kept.contents, KvIoBuf.contents, starts, List.flatMap_singleton] at some_
      have positive := List.length_pos_iff.mpr some_
      rw [KvIoBuf.Block.unread, Mem.slice_length] at positive
      omega

/-- From a fresh buffer every sequence of writes and reads, with the accessors
called at any time, succeeds and ends in a faithful buffer. -/
theorem run_faithful (blockSize : Int) (sized : 1 ≤ blockSize ∧ blockSize ≤ 32767) (junk : Nat → Mem)
    (ops : List Op) :
    wp (run ops) (fun _ after => after.Faithful) (fun _ _ => False) (new blockSize junk) :=
  ((new_inv sized junk).run ops).mono (fun _ _ inv => inv.faithful) fun _ _ never => never

/-- With blocks of two bytes, four bytes are written and three of them taken. -/
theorem run_faithful_across : ∃ after,
    run [.write [1, 2], .write [3], .take 2, .write [4], .take 1] (new 2 fun _ _ => 0) = (.ok (), after) ∧
      after.written = [1, 2, 3, 4] ∧ after.taken = [1, 2, 3] ∧ after.Faithful := by
  have ended : (run [.write [1, 2], .write [3], .take 2, .write [4], .take 1] (new 2 fun _ _ => 0)).1 = .ok () := by
    decide +kernel
  have bytes : (run [.write [1, 2], .write [3], .take 2, .write [4], .take 1] (new 2 fun _ _ => 0)).2.written = [1, 2, 3, 4] ∧
      (run [.write [1, 2], .write [3], .take 2, .write [4], .take 1] (new 2 fun _ _ => 0)).2.taken = [1, 2, 3] := by
    decide +kernel
  have faithful := (run_faithful 2 (by decide) (fun _ _ => 0) _).ok (run_of_fst ended)
  exact ⟨_, run_of_fst ended, bytes.1, bytes.2, faithful⟩

/-- Writing whole blocks: each write starts a new block and fills it. -/
private theorem fill_run {blockSize : Int} {bytes : List UInt8} (whole : bytes.length = blockSize) (count : Nat)
    {session : IoSession} (inv : session.Inv) (same : session.buf.blockSize = blockSize)
    (full : ∀ block ∈ session.buf.blocks, block.wOffset = session.buf.blockSize) :
    ∃ after, run (List.replicate count (.write bytes)) session = (.ok (), after) ∧
      after.written.length = session.written.length + count * bytes.length ∧ after.taken = session.taken := by
  induction count generalizing session with
  | zero => exact ⟨session, rfl, by omega, rfl⟩
  | succ count ih =>
    have kept := KvIoBuf.pushed_kept inv.buf full
    have roomy := KvIoBuf.pushed_roomy inv.buf
    have asked := (KvIoBuf.wLen_full full inv.buf).trans roomy.wLen_run
    have fits : (bytes.length : Int) ≤ session.buf.pushed.blockSize - 0 := by
      rw [kept.blockSize, same]
      omega
    have written := write_run asked kept.inv roomy fits
    have extended := roomy.extend_inv kept.inv fits
    have later : Inv { session with
        buf := { session.buf.pushed with blocks := session.buf.blocks ++ [KvIoBuf.Block.extend _ bytes] },
        written := session.written ++ bytes } :=
      ⟨extended.1, by rw [extended.2, inv.split, kept.contents, List.append_assoc]⟩
    obtain ⟨after, rest, length, taken⟩ := ih later same (by
      intro block member
      rcases List.mem_append.mp member with old | back
      · exact full block old
      · obtain rfl := List.mem_singleton.mp back
        simp only [KvIoBuf.Block.extend, Int.zero_add]
        exact whole.trans same.symm)
    refine ⟨after, ?_, ?_, taken⟩
    · rw [List.replicate_succ, run, bind_ok written]
      exact rest
    · rw [length, List.length_append, Nat.succ_mul]
      omega

/-- 65539 blocks of 32767 bytes are more than an `int` counts. -/
theorem two_gigabytes_wrap : ∃ session,
    run (List.replicate 65539 (.write (List.replicate 32767 7))) (new 32767 fun _ _ => 0) = (.ok (), session) ∧
      session.written.length = 2147516413 ∧ session.taken.length = 0 ∧ session.buf.size = -2147450883 ∧
      session.buf.size ≠ session.written.length - session.taken.length := by
  have start := @new_inv 32767 (by decide) fun _ _ => 0
  have whole : (List.replicate 32767 (7 : UInt8)).length = 32767 := List.length_replicate
  have size : ((List.replicate 32767 (7 : UInt8)).length : Int) = 32767 := by
    rw [whole]
    rfl
  obtain ⟨session, ran, written, taken⟩ := fill_run size 65539 start rfl
    (by simp [new, KvIoBuf.new])
  rw [whole] at written
  have size := ((start.run _).ok ran).faithful.size
  have none_ : session.taken.length = 0 := by rw [taken]; rfl
  refine ⟨session, ran, written, none_, ?_, ?_⟩
  · rw [size, written, none_]
    decide
  · rw [size, written, none_]
    decide

end IoSession

end Pingkv
