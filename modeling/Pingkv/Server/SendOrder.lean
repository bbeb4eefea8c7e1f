import Pingkv.Server.Sender

/-! Whether every result that is put is sent to its end or dropped at a failed
send, one after the other on each connection. -/

namespace Pingkv

namespace Sender

/-- How the sending of a result has ended: with its last byte, or with a failed
send behind some bytes. -/
inductive Fate where
  | whole
  | dropped (sent : List UInt8)

namespace Fate

def bytes (work : KvWork) : Fate → List UInt8
  | .whole => work.bytes
  | .dropped sent => sent

def isDropped : Fate → Bool
  | .whole => false
  | .dropped _ => true

end Fate

/-- What was sent for results that have ended. -/
def sentFor (ended : List (KvWork × Fate)) : List UInt8 := ended.flatMap fun entry => entry.2.bytes entry.1

/-- The account of one connection: the results put for it have ended in turn,
but for one that is held with some of its bytes sent and those still queued. -/
structure Account (ended : List (KvWork × Fate)) (puts queued : List KvWork) (held : Option (Option KvWork))
    (wire : List UInt8) (failures : Nat) : Prop where
  starts : ∀ entry ∈ ended, entry.2.bytes entry.1 <+: entry.1.bytes
  dropped : (ended.filter fun entry => entry.2.isDropped).length = failures
  rest : match held with
    | none => puts = ended.map Prod.fst ++ queued ∧ wire = sentFor ended
    | some none => False
    | some (some work) => ∃ result, KvWork.Progress result work ∧ puts = ended.map Prod.fst ++ result :: queued ∧
        wire = sentFor ended ++ work.sent

namespace Account

variable {ended : List (KvWork × Fate)} {puts queued : List KvWork} {held : Option (Option KvWork)}
  {wire : List UInt8} {failures : Nat} {work : KvWork}

theorem start : Account [] [] [] none [] 0 := ⟨List.forall_mem_nil _, rfl, rfl, rfl⟩

theorem put (account : Account ended puts queued held wire failures) (work : KvWork) :
    Account ended (puts ++ [work]) (queued ++ [work]) held wire failures := by
  refine ⟨account.starts, account.dropped, ?_⟩
  have rest := account.rest
  match held with
  | none => exact ⟨by rw [rest.1, List.append_assoc], rest.2⟩
  | some none => exact rest
  | some (some _) =>
    obtain ⟨result, progress, total, sent⟩ := rest
    exact ⟨result, progress, by rw [total, List.append_assoc]; rfl, sent⟩

/-- A result is taken where none is held. -/
theorem take (account : Account ended puts (work :: queued) none wire failures)
    (unsent : work.Unsent) :
    Account ended puts queued (some (some work)) wire failures := by
  obtain ⟨total, sent⟩ := account.rest
  obtain ⟨unsent, unsent1, unsent2⟩ := unsent
  refine ⟨account.starts, account.dropped, work, ⟨rfl, rfl, rfl, ?_, ?_, ?_, ?_, ?_⟩, total, ?_⟩
  · rw [unsent]
    exact Nat.zero_le _
  · rw [unsent1]
    exact UInt16.zero_le
  · rw [unsent2]
    exact UInt16.zero_le
  · exact fun started => absurd unsent1 started
  · exact fun started => absurd unsent2 started
  · rw [sent, KvWork.sent, unsent, unsent1, unsent2, KvWork.fieldBytes_zero, KvWork.fieldBytes_zero]
    simp

/-- More of the held result is sent. -/
theorem send (account : Account ended puts queued (some (some work)) wire failures) {behind : Mem}
    {outcome : SendOutcome} (careful : work.HeadUnderWay → ∀ count, outcome ≠ .accepted count) {sent : Sent}
    (ran : work.doSend behind outcome = some sent) :
    Account ended puts queued (some (some sent.work)) (wire ++ sent.bytes) failures ∧
      (sent.done = true → sent.work.Complete) := by
  obtain ⟨result, progress, total, written⟩ := account.rest
  have right : work.HeadRight behind outcome := fun count accepted underWay =>
    absurd accepted (careful underWay count)
  obtain ⟨later, appended, complete⟩ := progress.doSend right ran
  exact ⟨⟨account.starts, account.dropped, result, later, total, by rw [written, appended, List.append_assoc]⟩, complete⟩

/-- The sending of the held result has ended, with what was sent of it. -/
theorem close (account : Account ended puts queued (some (some work)) wire failures) (fate : Fate)
    (all : ∀ result, KvWork.Progress result work → fate.bytes result = work.sent) :
    ∃ ended, Account ended puts queued none wire (failures + if fate.isDropped then 1 else 0) := by
  obtain ⟨result, progress, total, written⟩ := account.rest
  have bytes := all result progress
  refine ⟨ended ++ [(result, fate)], ?_, ?_, ?_, ?_⟩
  · intro entry member
    rcases List.mem_append.mp member with old | last
    · exact account.starts entry old
    · obtain rfl := List.mem_singleton.mp last
      rw [bytes]
      exact progress.sent_prefix
  · rw [List.filter_append, List.length_append, account.dropped]
    cases fate <;> rfl
  · rw [total, List.map_append, List.append_assoc]
    rfl
  · rw [written, sentFor, sentFor, List.flatMap_append, List.flatMap_singleton, bytes]

/-- The held result has been sent to its end. -/
theorem finish (account : Account ended puts queued (some (some work)) wire failures) (complete : work.Complete) :
    ∃ ended, Account ended puts queued none wire failures :=
  account.close .whole fun _ progress => (progress.complete_sent complete).symm

/-- The held result is dropped at a failed send. -/
theorem drop (account : Account ended puts queued (some (some work)) wire failures) :
    ∃ ended, Account ended puts queued none wire (failures + 1) :=
  account.close (.dropped work.sent) fun _ _ => rfl

end Account

/-- The account of a connection stands. -/
def Accounted (sender : Sender) (fd : Int) : Prop :=
  ∃ ended, Account ended (worksOf fd sender.puts) (worksOf fd sender.queue) (sender.bufs.lookup fd) (sender.wire fd)
    (sender.failures.count fd)

/-- The sender is there, and every result put so far was sent whole before the next
one of its connection, or dropped at a failed send, or is still there to be sent. -/
def InOrder (sender : Sender) : Prop := sender.place.alive ∧ ∀ fd, sender.Accounted fd

/-- A step takes a result from a queue that has one, for a connection with none under
way, and does not send of a head that was sent in part. -/
def orderly (act : Act) (sender : Sender) : Bool :=
  match act, sender.place with
  | .sender _ _, .getting =>
    match sender.queue with
    | [] => false
    | entry :: _ => (sender.bufs.lookup entry.1).isNone
  | .sender outcome _, .visiting fd =>
    match sender.bufs.lookup fd, outcome with
    | some (some work), .accepted _ => decide (¬ work.HeadUnderWay)
    | _, _ => true
  | _, _ => true

/-- A step that the process survives: no peer has closed the connection it sends on, and
`it++` leads on from an erased entry. -/
def survives (act : Act) (sender : Sender) : Bool :=
  match act, sender.place with
  | .sender outcome next, .visiting fd =>
    outcome ≠ .pipe && next.all fun other => other ≠ fd && (sender.bufs.lookup other).isSome
  | _, _ => true

/-- A step that goes right. -/
def careful (act : Act) (sender : Sender) : Bool := orderly act sender && survives act sender

/-- What each step keeps: the results of the queue are whole, and the sender
stands at an entry that is there. -/
structure Inv (sender : Sender) : Prop where
  alive : sender.place ≠ .crashed
  visits : ∀ fd, sender.place = .visiting fd → (sender.bufs.lookup fd).isSome
  queued : ∀ entry ∈ sender.queue, entry.1 ≠ -1 ∧ entry.2.Unsent
  accounts : ∀ fd, sender.Accounted fd

theorem worksOf_append (fd : Int) (first second : List (Int × KvWork)) :
    worksOf fd (first ++ second) = worksOf fd first ++ worksOf fd second := by
  simp only [worksOf, List.filter_append, List.map_append]

theorem worksOf_own (entry : Int × KvWork) (rest : List (Int × KvWork)) :
    worksOf entry.1 (entry :: rest) = entry.2 :: worksOf entry.1 rest := by
  simp only [worksOf, decide_true, List.filter_cons_of_pos, List.map_cons]

theorem worksOf_other {fd : Int} {entry : Int × KvWork} (different : entry.1 ≠ fd) (rest : List (Int × KvWork)) :
    worksOf fd (entry :: rest) = worksOf fd rest := by
  simp only [worksOf, different, decide_false, Bool.false_eq_true, not_false_eq_true, List.filter_cons_of_neg]

theorem start_inv (behind : Mem) : (start behind).Inv :=
  ⟨Place.noConfusion, fun _ visiting => (nomatch visiting), List.forall_mem_nil _, fun _ => ⟨[], Account.start⟩⟩

variable {sender after : Sender}

/-- The loop goes on at an entry that is there. -/
theorem visit_inv {next : Option Int} (there : ∀ fd, next = some fd → (sender.bufs.lookup fd).isSome)
    (queued : ∀ entry ∈ sender.queue, entry.1 ≠ -1 ∧ entry.2.Unsent) (accounts : ∀ fd, sender.Accounted fd) :
    (sender.visit next).Inv := by
  cases next with
  | none => exact ⟨Place.noConfusion, fun _ visiting => (nomatch visiting), queued, accounts⟩
  | some fd =>
    refine ⟨Place.noConfusion, ?_, queued, accounts⟩
    rintro _ ⟨⟩
    exact there fd rfl

/-- Wherever `it++` leads from an erased entry, no null pointer is followed. -/
theorem follow_inv (next : Option Int) (queued : ∀ entry ∈ sender.queue, entry.1 ≠ -1 ∧ entry.2.Unsent)
    (accounts : ∀ fd, sender.Accounted fd) : (sender.follow next).Inv := by
  cases next with
  | none => exact ⟨Place.noConfusion, fun _ visiting => (nomatch visiting), queued, accounts⟩
  | some fd =>
    cases there : (sender.bufs.lookup fd).isSome with
    | true =>
      rw [follow, there, if_pos rfl]
      refine ⟨Place.noConfusion, ?_, queued, accounts⟩
      rintro _ ⟨⟩
      exact there
    | false =>
      rw [follow, there, if_neg Bool.false_ne_true]
      exact ⟨Place.noConfusion, fun _ visiting => (nomatch visiting), queued, accounts⟩

/-- A worker puts its result at the end of the queue. -/
theorem Inv.put (inv : sender.Inv) (result : Result) (owner : Option Owner) :
    { sender with
      queue := sender.queue ++ [(result.fd, result.work)], puts := sender.puts ++ [(result.fd, result.work)]
      owner := owner : Sender }.Inv := by
  refine ⟨inv.alive, inv.visits, ?_, fun fd => ?_⟩
  · intro entry member
    rcases List.mem_append.mp member with old | last
    · exact inv.queued entry old
    · obtain rfl := List.mem_singleton.mp last
      have connected := result.connected
      exact ⟨by omega, result.unsent⟩
  · obtain ⟨ended, account⟩ := inv.accounts fd
    simp only [Accounted, worksOf_append]
    by_cases own : result.fd = fd
    · subst own
      rw [worksOf_own (result.fd, result.work)]
      exact ⟨ended, account.put result.work⟩
    · have apart : (result.fd, result.work).1 ≠ fd := own
      rw [worksOf_other apart]
      simp only [worksOf, List.filter_nil, List.map_nil, List.append_nil]
      exact ⟨ended, account⟩

/-- One turn of the loop over `_res_bufs`. -/
theorem visitStep_inv (inv : sender.Inv) {fd : Int} (here : (sender.bufs.lookup fd).isSome) {outcome : SendOutcome}
    {next : Option Int} (careful : ∀ work, sender.bufs.lookup fd = some (some work) → work.HeadUnderWay →
      ∀ count, outcome ≠ .accepted count) : (sender.visitStep fd outcome next).Inv := by
  obtain ⟨ended, account⟩ := inv.accounts fd
  unfold visitStep
  split
  · rename_i work held
    rw [held] at account
    split
    · split
      · exact ⟨Place.noConfusion, fun _ visiting => (nomatch visiting), inv.queued, inv.accounts⟩
      · -- The result is dropped with its connection.
        refine ⟨Place.noConfusion, fun _ visiting => (nomatch visiting), inv.queued, fun other => ?_⟩
        by_cases own : other = fd
        · subst own
          simp only [Accounted, OrderedMap.lookup_erase_self, List.count_append, List.count_singleton_self]
          exact account.drop
        · simp only [Accounted, OrderedMap.lookup_erase_other own, List.count_append,
            List.count_singleton, beq_iff_eq, Ne.symm own, if_false]
          exact inv.accounts other
    · rename_i sent ran
      obtain ⟨later, complete⟩ := account.send (careful work held) ran
      simp only
      split
      · rename_i done
        apply follow_inv
        · exact inv.queued
        · intro other
          by_cases own : other = fd
          · subst own
            simp only [Accounted, OrderedMap.lookup_erase_self, Function.update_self]
            exact later.finish (complete done)
          · simp only [Accounted, OrderedMap.lookup_erase_other own, Function.update_of_ne own]
            exact inv.accounts other
      · apply visit_inv
        · exact fun place chosen => OrderedMap.lookup_next chosen
        · exact inv.queued
        · intro other
          by_cases own : other = fd
          · subst own
            simp only [Accounted, OrderedMap.lookup_assign_self, Function.update_self]
            exact ⟨ended, later⟩
          · simp only [Accounted, OrderedMap.lookup_assign_other own, Function.update_of_ne own]
            exact inv.accounts other
  · rename_i missing
    cases held : sender.bufs.lookup fd with
    | none => simp [held] at here
    | some entry =>
      cases entry with
      | none =>
        rw [held] at account
        exact account.rest.elim
      | some work => exact (missing work held).elim

/-- A result is taken from the queue for a connection with none under way. -/
theorem take_inv (inv : sender.Inv) {entry : Int × KvWork} {rest : List (Int × KvWork)}
    (queue : sender.queue = entry :: rest) (free : sender.bufs.lookup entry.1 = none) :
    { sender with queue := rest, bufs := sender.bufs.assign entry.1 (some entry.2), place := .unlocking : Sender }.Inv := by
  refine ⟨Place.noConfusion, fun _ visiting => (nomatch visiting), ?_, fun fd => ?_⟩
  · intro other member
    exact inv.queued other (queue ▸ List.mem_cons_of_mem _ member)
  · obtain ⟨ended, account⟩ := inv.accounts fd
    rw [queue] at account
    by_cases own : entry.1 = fd
    · subst own
      rw [worksOf_own, free] at account
      simp only [Accounted, OrderedMap.lookup_assign_self]
      exact ⟨ended, account.take (inv.queued entry (queue ▸ List.mem_cons_self)).2⟩
    · rw [worksOf_other own] at account
      simp only [Accounted, OrderedMap.lookup_assign_other (Ne.symm own)]
      exact ⟨ended, account⟩

/-- Where nothing but a mutex and the place in the code changes. -/
theorem Inv.moveOn (inv : sender.Inv) (owner : Option Owner) {place : Place} (alive : place ≠ .crashed)
    (outside : ∀ fd, place ≠ .visiting fd) : { sender with owner := owner, place := place : Sender }.Inv :=
  ⟨alive, fun fd visiting => absurd visiting (outside fd), inv.queued, inv.accounts⟩

theorem step_inv {act : Act} (inv : sender.Inv) (good : orderly act sender) (stepped : step act sender = some after) :
    after.Inv := by
  cases step_cases stepped with
  | put => exact ⟨inv.alive, inv.visits, inv.queued, inv.accounts⟩
  | @enqueue result => exact inv.put result (some .signalling)
  | signal =>
    by_cases asleep : sender.place = .asleep
    · rw [if_pos asleep]
      exact inv.moveOn _ nofun nofun
    · rw [if_neg asleep]
      exact ⟨inv.alive, inv.visits, inv.queued, inv.accounts⟩
  | leave => exact ⟨inv.alive, inv.visits, inv.queued, inv.accounts⟩
  | wake => exact inv.moveOn _ nofun nofun
  | @visit fd _ _ place =>
    apply visitStep_inv inv (inv.visits fd place)
    rintro work held underWay count rfl
    simp only [orderly, place, held, decide_eq_true_eq] at good
    exact good underWay
  | lock => exact inv.moveOn _ nofun nofun
  | sleep => exact inv.moveOn _ nofun nofun
  | pass => exact inv.moveOn _ nofun nofun
  | find => exact inv.moveOn _ nofun nofun
  | relock => exact inv.moveOn _ nofun nofun
  | crash place closed =>
    cases queue : sender.queue with
    | nil =>
      rw [queue] at closed
      cases closed
    | cons entry rest =>
      rw [queue] at closed
      exact absurd closed (inv.queued entry (queue ▸ List.mem_cons_self)).1
  | take place connected =>
    cases queue : sender.queue with
    | nil =>
      simp only [orderly, place, queue] at good
      cases good
    | cons entry rest =>
      simp only [orderly, place, queue, Option.isNone_iff_eq_none] at good
      exact take_inv inv queue good
  | unlock => exact visit_inv (fun fd first => OrderedMap.lookup_first first) inv.queued inv.accounts

/-- Where the loop over `_res_bufs` goes on, the process is there. -/
theorem visit_alive (next : Option Int) : (sender.visit next).place.alive := by cases next <;> rfl

/-- What the sender goes through of the loop over `_res_bufs` in a step that it survives. -/
theorem visitStep_alive (inv : sender.Inv) {fd : Int} (here : (sender.bufs.lookup fd).isSome) {outcome : SendOutcome}
    {next : Option Int} (unbroken : outcome ≠ .pipe)
    (leads : ∀ other, next = some other → other ≠ fd ∧ (sender.bufs.lookup other).isSome) :
    (sender.visitStep fd outcome next).place.alive := by
  unfold visitStep
  split
  · split
    · rw [if_neg unbroken]
      rfl
    · simp only
      split
      · cases next with
        | none => rfl
        | some other =>
          obtain ⟨apart, there⟩ := leads other rfl
          simp only [follow, OrderedMap.lookup_erase_other apart, there, if_true]
          rfl
      · exact visit_alive _
  · rename_i missing
    obtain ⟨entry, held⟩ := Option.isSome_iff_exists.mp here
    obtain ⟨_, account⟩ := inv.accounts fd
    cases entry with
    | none =>
      rw [held] at account
      exact account.rest.elim
    | some work => exact absurd held (missing work)

/-- What each step that goes right keeps. -/
structure Going (sender : Sender) : Prop where
  inv : sender.Inv
  alive : sender.place.alive

/-- A step that goes right is not the last one of the process. -/
theorem step_going {act : Act} (going : sender.Going) (good : careful act sender) (stepped : step act sender = some after) :
    after.Going := by
  obtain ⟨inv, alive⟩ := going
  obtain ⟨orderly, survives⟩ := Bool.and_eq_true_iff.mp good
  have inv' := step_inv inv orderly stepped
  refine ⟨inv', ?_⟩
  cases step_cases stepped with
  | put | enqueue | leave => exact alive
  | signal =>
    simp only
    split
    · rfl
    · exact alive
  | wake | lock | sleep | pass | find | relock | take => rfl
  | @visit fd outcome next place =>
    simp only [Sender.survives, place, Bool.and_eq_true, decide_eq_true_eq] at survives
    refine visitStep_alive inv (inv.visits fd place) survives.1 fun other leads => ?_
    rw [leads] at survives
    simpa using survives.2
  | crash => exact absurd rfl inv'.alive
  | unlock => exact visit_alive _

/-- The results of each connection are sent one after the other in every state
that careful steps reach. -/
theorem inOrder_of_careful (behind : Mem) (acts : List Act) (final : Sender)
    (ran : Transition.run step acts (start behind) = some final)
    (good : Transition.Throughout step (fun act sender => careful act sender) acts (start behind)) : final.InOrder := by
  have going : final.Going := Transition.run_throughout (fun _ _ _ going good stepped => step_going going good stepped)
    ⟨start_inv behind, rfl⟩ good ran
  exact ⟨going.alive, going.inv.accounts⟩

/-- A value of one byte on its way to a connection. -/
def oneByte (fd : Int) (connected : 0 < fd) (byte : UInt8) : Result where
  fd := fd
  work := { newKvWork with head := ⟨WorkFlag.suc, 1, 0⟩, field1 := some (Buf.ofList [byte]) }
  connected := connected
  unsent := ⟨rfl, rfl, rfl⟩

/-- A worker puts a result, from the lock to the unlock. -/
def putting (result : Result) : List Act := [.put result, .worker, .worker, .worker]

/-- The sender takes a result for a connection and sends its head. -/
def sendingHead : List Act := [.sender .again none, .sender .again none, .sender .again none, .sender .again none,
  .sender (.accepted 6) none]

/-- The sender takes what it finds on the queue. -/
def taking : List Act := [.sender .again none, .sender .again none, .sender .again none]

/-- One result is put and sent in two parts. -/
def alone : List Act :=
  putting (oneByte 5 (by decide) 7) ++ sendingHead ++ taking ++ [.sender (.accepted 1) none]

theorem sent_alone : ∃ final ∈ Transition.run step alone (start fun _ => 0),
    final.wire 5 = [0, 32, 1, 0, 0, 0, 7] ∧ final.InOrder := by
  obtain ⟨final, ran⟩ := Option.isSome_iff_exists.mp
    (show (Transition.run step alone (start fun _ => 0)).isSome by decide)
  have wire : (Transition.run step alone (start fun _ => 0)).map (fun sender => sender.wire 5) =
      some [0, 32, 1, 0, 0, 0, 7] := by decide
  rw [ran] at wire
  exact ⟨final, ran, Option.some.inj wire, inOrder_of_careful _ alone final ran (by decide)⟩

/-- A second result for a connection is put while the first is under way. -/
def replacing : List Act :=
  putting (oneByte 5 (by decide) 7) ++ sendingHead ++ putting (oneByte 5 (by decide) 8) ++ taking

/-- The second result takes the place of the first, of which only the head was sent. -/
theorem second_result_replaces : ∃ final ∈ Transition.run step replacing (start fun _ => 0),
    final.wire 5 = [0, 32, 1, 0, 0, 0] ∧ ¬ final.InOrder := by
  obtain ⟨final, ran⟩ := Option.isSome_iff_exists.mp
    (show (Transition.run step replacing (start fun _ => 0)).isSome by decide)
  have shows {α : Type} (view : Sender → α) (value : α)
      (seen : (Transition.run step replacing (start fun _ => 0)).map view = some value) : view final = value := by
    rw [ran] at seen
    exact Option.some.inj seen
  have wire := shows (fun sender => sender.wire 5) [0, 32, 1, 0, 0, 0] (by decide)
  have failures := shows (fun sender => sender.failures.count 5) 0 (by decide)
  have puts := shows (fun sender => (worksOf 5 sender.puts).map KvWork.bytes)
    [[0, 32, 1, 0, 0, 0, 7], [0, 32, 1, 0, 0, 0, 8]] (by decide)
  have queued := shows (fun sender => (worksOf 5 sender.queue).length) 0 (by decide)
  have held := shows (fun sender => (sender.bufs.lookup 5).map (Option.map KvWork.sent)) (some (some []))
    (by decide)
  refine ⟨final, ran, wire, fun inOrder => ?_⟩
  obtain ⟨ended, account⟩ := inOrder.2 5
  obtain ⟨entry, there, held⟩ := Option.map_eq_some_iff.mp held
  obtain ⟨work, rfl, unsent⟩ := Option.map_eq_some_iff.mp held
  rw [there, wire, failures] at account
  obtain ⟨result, _, total, written⟩ := account.rest
  rw [total, List.length_eq_zero_iff.mp queued] at puts
  -- One result has ended, and it did not fail.
  match ended, account.dropped, puts, written with
  | [], _, puts, _ => simp at puts
  | [(first, .whole)], _, puts, written =>
    have text : first.bytes = [0, 32, 1, 0, 0, 0, 7] := by simpa using congrArg List.head? puts
    simp [sentFor, Fate.bytes, text, unsent] at written
  | [(_, .dropped _)], dropped, _, _ => simp [Fate.isDropped] at dropped
  | _ :: _ :: _, _, puts, _ => simp at puts

end Sender

end Pingkv
