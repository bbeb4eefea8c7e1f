import Pingkv.Server.Linearizable

/-! Whether a client can be left without the result of its request: what holds
where nobody can go on. -/

namespace Pingkv

namespace Service

open Simulation

variable {fileCount : Int} {workers : Nat} {σ : Type} {answer : Fin workers → IndexCall → σ → IndexAnswer × σ}
  {service : Service fileCount workers σ} {atomic : AtomicService fileCount workers σ}
  {loc : Int → Loc fileCount workers} {requests : List (Request fileCount workers)}

/-- Nothing can happen but that a client asks, or that a worker wakes up without a signal or an index drifts. -/
def Rests (service : Service fileCount workers σ) : Prop :=
  ∀ event after, Step (fun _ _ => False) service event after → event = .wake ∨ ∃ request, event = .ask request

/-- Where all wait, nothing else can happen. -/
theorem rests_of_asleep (idle : ∀ fd, (service.clients fd).place = .idle) (poller : service.pool.pollerStep = none)
    (asleep : ∀ number, (service.pool.cells number).place = .asleep) (sender : service.sender.place = .asleep) :
    service.Rests := by
  intro event after step
  have busy {number : Fin workers} {place : Pool.WorkerPlace} (here : (service.pool.cells number).place = place) :
      place = .asleep := here.symm.trans (asleep number)
  cases step with
  | ask => exact .inr ⟨_, rfl⟩
  | wake => exact .inl rfl
  | arrive _ sends => cases sends.symm.trans (idle _)
  | hear waits => cases waits.symm.trans (idle _)
  | poller _ stepped => cases stepped.symm.trans poller
  | @worker number _ _ _ stepped =>
    rw [Pool.workerStep, asleep number] at stepped
    cases stepped
  | run _ place => cases busy place
  | lock place => cases busy place
  | @pass number _ _ place =>
    rw [asleep number] at place
    exact place.elim
  | sender _ stepped | die _ stepped =>
    simp only [Sender.step, Sender.senderStep, sender, Sender.Place.alive, if_true] at stepped
    cases stepped
  | drift _ drifts => exact drifts.elim

private theorem Rests.not_silent (rests : service.Rests) {after : Service fileCount workers σ} :
    ¬ Step (fun _ _ => False) service .silent after := by
  intro step
  rcases rests _ _ step with wake | ⟨request, ask⟩
  · cases wake
  · cases ask

/-- A worker that holds the queue of results can go on. -/
private theorem Rests.unheld (placed : Placed answer service atomic loc) (inv : Pool.Inv requests service.pool)
    (running : service.sender.place.alive) (rests : service.Rests) : service.pool.resHolder = none := by
  have shared := placed.shared
  have passes {number : Fin workers} {pool : Pool fileCount workers σ} {sender : Sender}
      (holder : service.pool.resHolder = some number) (stepped : service.pool.workerStep number = some pool)
      (passed : service.sender.workerStep = some sender) : False :=
    rests.not_silent (.pass ((inv.locks number).byResults.mp holder) stepped ((if_pos running).trans passed))
  cases owner : service.sender.owner with
  | none =>
    rw [owner] at shared
    exact shared
  | some who =>
    rw [owner] at shared
    cases who with
    | sender => exact shared
    | putting result =>
      obtain ⟨number, holder, place⟩ := shared
      exact (passes holder (by rw [Pool.workerStep, place]) (by rw [Sender.workerStep, owner])).elim
    | signalling =>
      obtain ⟨number, holder, place⟩ := shared
      exact (passes holder (by rw [Pool.workerStep, place]) (by rw [Sender.workerStep, owner])).elim
    | leaving =>
      obtain ⟨number, holder, place⟩ := shared
      exact (passes holder (by rw [Pool.workerStep, place]) (by rw [Sender.workerStep, owner])).elim

/-- The sender waits, and nobody holds its queue. -/
private theorem Rests.sender (placed : Placed answer service atomic loc) (inv : Pool.Inv requests service.pool)
    (running : service.sender.place.alive) (rests : service.Rests) :
    service.sender.owner = none ∧ service.sender.place = .asleep := by
  have stuck : service.sender.senderStep .again none = none := by
    cases stepped : service.sender.senderStep .again none with
    | none => rfl
    | some after =>
      have taken : Sender.step (.sender .again none) service.sender = some after := (if_pos running).trans stepped
      by_cases ends : after.place = .killed
      · rcases rests _ _ (.die service.sender.wholeHead_again taken ends) with wake | ⟨request, ask⟩
        · cases wake
        · cases ask
      · exact (rests.not_silent (.sender service.sender.wholeHead_again taken ends)).elim
  have unheld := rests.unheld placed inv running
  have unowned : service.sender.owner = none := by
    have shared := placed.shared
    cases owner : service.sender.owner with
    | none => rfl
    | some who =>
      rw [owner, unheld] at shared
      cases who with
      | putting | signalling | leaving =>
        obtain ⟨_, held, _⟩ := shared
        cases held
      | sender =>
        -- A sender that holds the lock can go on.
        rcases placed.turns.holds.mp owner with place | place | place <;> simp only [Sender.senderStep, place] at stuck
        · split at stuck
          · split at stuck <;> cases stuck
          · cases stuck
        · split at stuck <;> cases stuck
        · cases stuck
  refine ⟨unowned, ?_⟩
  cases place : service.sender.place with
  | asleep => rfl
  | visiting | unlocking =>
    rw [Sender.senderStep, place] at stuck
    cases stuck
  | locking | woken =>
    rw [Sender.senderStep, place, unowned] at stuck
    cases stuck
  | testing | getting =>
    have held := placed.turns.holds.mpr (by simp [place])
    rw [unowned] at held
    cases held
  | crashed | killed =>
    rw [place] at running
    cases running

/-- No worker can go on. -/
private theorem Rests.stuck (placed : Placed answer service atomic loc) (inv : Pool.Inv requests service.pool)
    (running : service.sender.place.alive) (rests : service.Rests) (number : Fin workers) :
    service.pool.workerStep number = none := by
  obtain ⟨unowned, _⟩ := rests.sender placed inv running
  cases stepped : service.pool.workerStep number with
  | none => rfl
  | some pool =>
    have holds (held : (service.pool.cells number).place.HoldsResults) : False := by
      have holder := (inv.locks number).byResults.mpr held
      rw [rests.unheld placed inv running] at holder
      cases holder
    have apart (apart : Apart (service.pool.cells number).place) : False := rests.not_silent (.worker running apart stepped)
    cases place : (service.pool.cells number).place with
    | operating fd req => rcases rests _ _ (.run running place stepped) with wake | ⟨request, ask⟩ <;> contradiction
    | answering fd res =>
      -- The worker could lock the queue of results.
      obtain ⟨requests, job, cellar⟩ := placed.cells number
      have does := cellar.does
      rw [place] at does
      cases job with
      | free | taken => cases does
      | owed request result =>
        obtain ⟨rfl, rfl⟩ := does
        have here := cellar.owed.here.2
        have valid := placed.valid request.fd
        rw [here] at valid
        have locked : Sender.step (.put ⟨request.fd, res, request.connected, valid.2⟩) service.sender =
            some { service.sender with owner := some (.putting ⟨request.fd, res, request.connected, valid.2⟩) } := by
          rw [Sender.step, if_pos running, unowned]
          rfl
        exact (rests.not_silent (.lock place stepped locked)).elim
    | putting | signalling | leaving => exact (holds (by rw [place]; trivial)).elim
    | locking | testing | asleep | woken | unlocking | aborted => exact (apart (by rw [place]; trivial)).elim

/-- Every request is answered, but for those on connections that a send has failed on. -/
private theorem Rests.idle (placed : Placed answer service atomic loc) (inv : Pool.Inv requests service.pool)
    (running : service.sender.place.alive) (rests : service.Rests) (fd : Int) :
    (service.clients fd).place = .idle ∨ fd ∈ service.sender.failures := by
  obtain ⟨unowned, asleep⟩ := rests.sender placed inv running
  have pollerStuck : service.pool.pollerStep = none := by
    cases stepped : service.pool.pollerStep with
    | none => rfl
    | some pool => exact (rests.not_silent (.poller running stepped)).elim
  obtain ⟨reading, ahead, cells⟩ := inv.quiet ⟨pollerStuck, rests.stuck placed inv running⟩
  obtain ⟨bufs, noSignal⟩ := placed.turns.asleep asleep
  have queue : service.sender.queue = [] := by
    by_contra some
    rw [unowned] at noSignal
    cases noSignal some
  -- No worker has anything of any connection.
  have free (number : Fin workers) : ∃ job, Cellar loc number (service.pool.cells number) [] job ∧ job = .free := by
    obtain ⟨requests, job, cellar⟩ := placed.cells number
    have does := cellar.does
    have same := cellar.queue
    rw [(cells number).1] at does
    rw [(cells number).2] at same
    obtain rfl := List.map_eq_nil_iff.mp same.symm
    refine ⟨job, cellar, ?_⟩
    cases job <;> first | rfl | cases does
  have client := placed.clients fd
  have line := placed.lines fd
  have valid := placed.valid fd
  cases here : loc fd with
  | idle => exact .inl (by rw [client, here]; rfl)
  | lost request result =>
    rw [here] at line
    exact .inr line.2.1
  | sending request =>
    rw [here] at client
    exact (rests.not_silent (.arrive running client)).elim
  | whole request result =>
    rw [here] at line client
    obtain ⟨_, wire, all⟩ := line
    have there : firstResult ((service.sender.wire fd).drop (service.clients fd).heard.length) = some result.bytes := by
      rw [wire, List.drop_left, all]
    rcases rests _ _ (.hear client there) with wake | ⟨request, ask⟩ <;> contradiction
  | held request result =>
    rw [here] at line
    obtain ⟨work, entry, _⟩ := line
    simp [OrderedMap.lookup, bufs] at entry
  | ahead request =>
    rw [here] at valid
    obtain rfl : request.fd = fd := valid
    have member := (placed.front.coming.mem request).mpr here
    rw [ahead] at member
    cases member
  | polled request =>
    rw [here] at valid
    obtain rfl : request.fd = fd := valid
    have member := (placed.front.polled.mem request).mpr here
    rw [reading] at member
    cases member
  | put request result =>
    rw [here] at valid
    obtain ⟨rfl, _⟩ := valid
    have member := (Listed.mem placed.results (request.fd, result)).mpr ⟨request, here⟩
    rw [queue] at member
    cases member
  | queued request =>
    rw [here] at valid
    obtain rfl : request.fd = fd := valid
    obtain ⟨_, cellar, rfl⟩ := free request.queue
    cases (cellar.queued.mem request).mpr ⟨rfl, here⟩
  | taken request =>
    rw [here] at valid
    obtain rfl : request.fd = fd := valid
    obtain ⟨_, cellar, rfl⟩ := free request.queue
    cases (cellar.taken.mem request).mpr ⟨rfl, here⟩
  | owed request result =>
    rw [here] at valid
    obtain ⟨rfl, _⟩ := valid
    obtain ⟨_, cellar, rfl⟩ := free request.queue
    cases (cellar.owed.mem (request, result)).mpr ⟨rfl, here⟩

/-- Where a run comes to rest and the process is there, no client waits for a result, but on
connections that a send has failed on. -/
theorem answered (answer : Fin workers → IndexCall → σ → IndexAnswer × σ) (drift : σ → σ → Prop)
    (index : Fin workers → σ) (behind : Mem) {events : List (Event fileCount workers)} {final : Service fileCount workers σ}
    (trace : Trace (Step drift) (start answer index behind) events final) (rests : final.Rests) (fd : Int) :
    final.sender.place = .killed ∨ (final.clients fd).place = .idle ∨ fd ∈ final.sender.failures := by
  obtain ⟨_, _, ⟨_, placed⟩, ⟨_, inv⟩, sends⟩ := simulates.trace (start_stands answer index behind) trace
  by_cases ended : final.sender.place = .killed
  · exact .inl ended
  · have running : final.sender.place.alive := by
      have aborts := sends.alive
      revert ended aborts
      cases final.sender.place <;> simp [Sender.Place.alive]
    exact .inr (rests.idle placed inv running fd)

theorem one_get_answered : ∃ final, Trace (Step fun _ _ => False) (start missing (fun _ => ()) fun _ => 0) oneGetEvents final ∧
    final.Rests ∧ (final.sender.place = .killed ∨ (final.clients 6).place = .idle ∨ 6 ∈ final.sender.failures) := by
  obtain ⟨final, trace, idle, poller, worker, sender⟩ := @oneGet_trace _ (fun _ _ => False) missing (fun _ => ()) (fun _ => 0) _
    rfl (fun _ step => step) fun _ step => step
  have asleep (number : Fin 1) : (final.pool.cells number).place = .asleep := by rwa [Fin.fin_one_eq_zero number]
  have rests : final.Rests := rests_of_asleep idle poller asleep sender
  exact ⟨final, trace, rests, answered missing _ _ _ trace rests 6⟩

end Service

end Pingkv
