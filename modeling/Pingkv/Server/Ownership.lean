import Mathlib.Data.List.Forall2
import Pingkv.Server.Poller

/-! What the thread of the poller does with its memory, in every run: which `poller_arg`s
it frees, and whose the works are. -/

namespace Pingkv

open Exec

namespace KvPoller

/-- Each work of a connection is its own until it goes to a queue, once. -/
structure Owns (poller : KvPoller) : Prop where
  known : ∀ fd work, poller.workBufs fd = some work → work < poller.nextWork
  own : ∀ fd other work, poller.workBufs fd = some work → poller.workBufs other = some work → fd = other
  unqueued : ∀ fd work, poller.workBufs fd = some work → work ∉ poller.queued.map Prod.snd
  old : ∀ work ∈ poller.queued.map Prod.snd, work < poller.nextWork
  once : (poller.queued.map Prod.snd).Nodup

/-- The pointer leads to the `poller_arg` of the descriptor, whose callback finds what it needs. -/
def Points (poller : KvPoller) (arg : Nat) (fd : Int) : Prop :=
  ∃ cb, poller.args arg = some ⟨fd, epollIn ||| epollEt, some cb, none⟩ ∧
    (cb = .cbReadSock → (poller.workBufs fd).isSome)

/-- What holds between two calls. -/
structure Inv (poller : KvPoller) : Prop extends Owns poller where
  allocated : ∀ {arg}, (poller.args arg).isSome → arg < poller.nextArg
  used : ∀ {fd arg}, poller.watched fd = some arg → poller.isOpen fd = true
  mapped : ∀ {fd arg}, poller.watched fd = some arg → poller.emap fd = some (some arg)
  points : ∀ {fd arg}, poller.watched fd = some arg → poller.Points arg fd

/-- Of the `poller_arg`s none was ever freed. -/
def Unfreed (poller : KvPoller) : Prop := ∀ arg < poller.nextArg, (poller.args arg).isSome

/-- Nothing is freed, and no connection loses its work. -/
structure Extends (before after : KvPoller) : Prop where
  args : ∀ {arg content}, before.args arg = some content → after.args arg = some content
  bufs : ∀ {fd}, (before.workBufs fd).isSome → (after.workBufs fd).isSome
  unfreed : before.Unfreed → after.Unfreed
  schedule : after.schedule = before.schedule

/-- The tables stay, and the kernel watches no more than before. -/
structure Fewer (before after : KvPoller) : Prop where
  args : after.args = before.args
  nextArg : after.nextArg = before.nextArg
  emap : after.emap = before.emap
  workBufs : after.workBufs = before.workBufs
  nextWork : after.nextWork = before.nextWork
  queued : after.queued = before.queued
  schedule : after.schedule = before.schedule
  watched : ∀ {fd arg}, after.watched fd = some arg → before.watched fd = some arg
  isOpen : ∀ {fd arg}, after.watched fd = some arg → before.isOpen fd = true → after.isOpen fd = true

variable {poller before mid after : KvPoller} {fd other cfd : Int} {arg : Nat} {content : PollerArg} {cb : PollerCb}

theorem Extends.refl (poller : KvPoller) : Extends poller poller := ⟨id, id, id, rfl⟩

theorem Extends.trans (first : Extends before mid) (second : Extends mid after) : Extends before after :=
  ⟨fun there => second.args (first.args there), fun there => second.bufs (first.bufs there),
    fun unfreed => second.unfreed (first.unfreed unfreed), second.schedule.trans first.schedule⟩

theorem Points.extends (points : before.Points arg fd) (extends_ : Extends before after) : after.Points arg fd := by
  obtain ⟨cb, there, works⟩ := points
  exact ⟨cb, extends_.args there, fun reads => extends_.bufs (works reads)⟩

theorem Fewer.trans (first : Fewer before mid) (second : Fewer mid after) : Fewer before after where
  args := second.args.trans first.args
  nextArg := second.nextArg.trans first.nextArg
  emap := second.emap.trans first.emap
  workBufs := second.workBufs.trans first.workBufs
  nextWork := second.nextWork.trans first.nextWork
  queued := second.queued.trans first.queued
  schedule := second.schedule.trans first.schedule
  watched still := first.watched (second.watched still)
  isOpen still used := second.isOpen still (first.isOpen (second.watched still) used)

theorem Fewer.extends (fewer : Fewer before after) : Extends before after :=
  ⟨fun there => fewer.args ▸ there, fun there => fewer.workBufs ▸ there,
    fun unfreed arg bound => fewer.args ▸ unfreed arg (fewer.nextArg ▸ bound), fewer.schedule⟩

theorem Fewer.owns (fewer : Fewer before after) (owns : before.Owns) : after.Owns := by
  obtain ⟨_, _, _, works, next, queued, _⟩ := fewer
  constructor
  · simpa only [works, next] using owns.known
  · simpa only [works] using owns.own
  · simpa only [works, queued] using owns.unqueued
  · simpa only [queued, next] using owns.old
  · simpa only [queued] using owns.once

theorem Fewer.inv (fewer : Fewer before after) (inv : before.Inv) : after.Inv where
  toOwns := fewer.owns inv.toOwns
  allocated there := fewer.nextArg ▸ inv.allocated (fewer.args ▸ there)
  used still := fewer.isOpen still (inv.used (fewer.watched still))
  mapped still := fewer.emap ▸ inv.mapped (fewer.watched still)
  points still := (inv.points (fewer.watched still)).extends fewer.extends

theorem closed_watched (fd other : Int) (poller : KvPoller) :
    (closed fd poller).watched other = if other = fd then none else poller.watched other :=
  Function.update_apply ..

theorem closed_isOpen (fd other : Int) (poller : KvPoller) :
    (closed fd poller).isOpen other = if other = fd then false else poller.isOpen other :=
  Function.update_apply ..

theorem closed_fewer (fd : Int) (poller : KvPoller) : Fewer poller (closed fd poller) := by
  have away {other : Int} {arg : Nat} (still : (closed fd poller).watched other = some arg) : other ≠ fd := by
    rintro rfl
    rw [closed_watched, if_pos rfl] at still
    cases still
  refine ⟨rfl, rfl, rfl, rfl, rfl, rfl, rfl, fun still => ?_, fun still used => ?_⟩
  · have apart := away still
    rwa [closed_watched, if_neg apart] at still
  · rwa [closed_isOpen, if_neg (away still)]

theorem entered_fewer (poller : KvPoller) : Fewer poller poller.entered := by
  have same (poller : KvPoller) : Fewer poller poller := ⟨rfl, rfl, rfl, rfl, rfl, rfl, rfl, id, fun _ used => used⟩
  have folded (closes : List Int) : Fewer poller (closes.foldr closed poller) := by
    induction closes with
    | nil => exact same poller
    | cons fd rest ih => exact ih.trans (closed_fewer fd _)
  exact (folded _).trans ⟨rfl, rfl, rfl, rfl, rfl, rfl, rfl, id, fun _ used => used⟩

theorem enter_run (poller : KvPoller) : enter poller = (.ok (poller.schedule poller.turns), poller.entered) := rfl

theorem watching_watched (fd other : Int) (watched : Option Nat) (poller : KvPoller) :
    (watching fd watched poller).watched other = if other = fd then watched else poller.watched other :=
  Function.update_apply ..

theorem withArg_args (content : PollerArg) (arg : Nat) (poller : KvPoller) :
    (withArg content poller).args arg = if arg = poller.nextArg then some content else poller.args arg :=
  Function.update_apply ..

theorem withWork_workBufs (fd other : Int) (poller : KvPoller) :
    (withWork fd poller).workBufs other = if other = fd then some poller.nextWork else poller.workBufs other :=
  Function.update_apply ..

theorem unwatched_fewer (fd : Int) (poller : KvPoller) : Fewer poller (watching fd none poller) where
  args := rfl
  nextArg := rfl
  emap := rfl
  workBufs := rfl
  nextWork := rfl
  queued := rfl
  schedule := rfl
  watched {other arg} still := by
    rw [watching_watched] at still
    split at still
    · cases still
    · exact still
  isOpen _ used := used

/-- A descriptor is watched from now on. -/
theorem Inv.watch (inv : poller.Inv) (used : poller.isOpen fd = true) (mapped : poller.emap fd = some (some arg))
    (points : poller.Points arg fd) : (watching fd (some arg) poller).Inv := by
  have split {other : Int} {found : Nat} (watched : (watching fd (some arg) poller).watched other = some found) :
      other = fd ∧ found = arg ∨ poller.watched other = some found := by
    rw [watching_watched] at watched
    split at watched
    · exact .inl ⟨‹_›, (Option.some.inj watched).symm⟩
    · exact .inr watched
  have owns : (watching fd (some arg) poller).Owns := ⟨inv.known, inv.own, inv.unqueued, inv.old, inv.once⟩
  refine ⟨owns, inv.allocated, fun watched => ?_, fun watched => ?_, fun watched => ?_⟩ <;>
    rcases split watched with ⟨rfl, rfl⟩ | watched
  · exact used
  · exact inv.used watched
  · exact mapped
  · exact inv.mapped watched
  · exact points
  · exact inv.points watched

theorem withArg_extends (inv : poller.Inv) (content : PollerArg) : Extends poller (withArg content poller) where
  args {arg there} present := by
    have allocated := inv.allocated (by simp [present] : (poller.args arg).isSome)
    exact (Function.update_of_ne (Nat.ne_of_lt allocated) ..).trans present
  bufs present := present
  unfreed unfreed arg bound := by
    rw [withArg_args]
    split
    · rfl
    · exact unfreed arg (Nat.lt_of_le_of_ne (Nat.lt_succ_iff.mp bound) ‹_›)
  schedule := rfl

/-- A `poller_arg` is allocated for a descriptor that is not watched. -/
theorem Inv.withArg (inv : poller.Inv) (unwatched : poller.watched content.fd = none) : (withArg content poller).Inv where
  toOwns := ⟨inv.known, inv.own, inv.unqueued, inv.old, inv.once⟩
  allocated {arg} there := by
    rw [withArg_args] at there
    split at there
    · exact Nat.lt_succ_of_le (Nat.le_of_eq ‹_›)
    · exact Nat.lt_succ_of_lt (inv.allocated there)
  used := inv.used
  mapped {fd arg} watched := by
    have apart : fd ≠ content.fd := by
      rintro rfl
      cases unwatched.symm.trans watched
    exact (Function.update_of_ne apart ..).trans (inv.mapped watched)
  points watched := (inv.points watched).extends (withArg_extends inv content)

theorem withWork_extends (fd : Int) (poller : KvPoller) : Extends poller (withWork fd poller) where
  args present := present
  bufs {other} present := by
    rw [withWork_workBufs]
    split
    · rfl
    · exact present
  unfreed unfreed := unfreed
  schedule := rfl

/-- A connection gets a new work. -/
theorem Owns.withWork (owns : poller.Owns) (fd : Int) : (withWork fd poller).Owns := by
  have split {other : Int} {work : Nat} (there : (KvPoller.withWork fd poller).workBufs other = some work) :
      other = fd ∧ work = poller.nextWork ∨ poller.workBufs other = some work := by
    rw [withWork_workBufs] at there
    split at there
    · exact .inl ⟨‹_›, (Option.some.inj there).symm⟩
    · exact .inr there
  constructor
  case known =>
    intro other work there
    rcases split there with ⟨_, rfl⟩ | held
    · exact Nat.lt_succ_self _
    · exact Nat.lt_succ_of_lt (owns.known _ _ held)
  case own =>
    intro first second work there there'
    rcases split there with ⟨rfl, rfl⟩ | held <;> rcases split there' with ⟨rfl, same⟩ | held'
    · rfl
    · exact absurd (owns.known _ _ held') (Nat.lt_irrefl _)
    · exact absurd (same ▸ owns.known _ _ held) (Nat.lt_irrefl _)
    · exact owns.own _ _ _ held held'
  case unqueued =>
    intro other work there member
    rcases split there with ⟨_, rfl⟩ | held
    · exact absurd (owns.old _ member) (Nat.lt_irrefl _)
    · exact owns.unqueued _ _ held member
  case old => exact fun work member => Nat.lt_succ_of_lt (owns.old work member)
  case once => exact owns.once

theorem Inv.withWork (inv : poller.Inv) (fd : Int) : (withWork fd poller).Inv where
  toOwns := inv.toOwns.withWork fd
  allocated := inv.allocated
  used := inv.used
  mapped := inv.mapped
  points watched := (inv.points watched).extends (withWork_extends fd poller)

/-- A work goes to a queue, and its connection gets another. -/
theorem Owns.queue {work : Nat} (owns : poller.Owns) (held : poller.workBufs fd = some work) :
    (KvPoller.withWork fd { poller with queued := poller.queued ++ [(fd, work)] }).Owns := by
  have others {other : Int} {found : Nat}
      (there : (KvPoller.withWork fd { poller with queued := poller.queued ++ [(fd, work)] }).workBufs other = some found) :
      other = fd ∧ found = poller.nextWork ∨ other ≠ fd ∧ poller.workBufs other = some found := by
    rw [withWork_workBufs] at there
    split at there
    · exact .inl ⟨‹_›, (Option.some.inj there).symm⟩
    · exact .inr ⟨‹_›, there⟩
  have fresh := owns.withWork fd
  refine ⟨fresh.known, fresh.own, fun other found there member => ?_, fun found member => ?_, ?_⟩
  · rw [KvPoller.withWork, List.map_append, List.mem_append] at member
    rcases others there with ⟨_, rfl⟩ | ⟨apart, held'⟩ <;> rcases member with member | member
    · exact absurd (owns.old _ member) (Nat.lt_irrefl _)
    · exact absurd (List.mem_singleton.mp member ▸ owns.known _ _ held) (Nat.lt_irrefl _)
    · exact owns.unqueued _ _ held' member
    · obtain rfl := List.mem_singleton.mp member
      exact apart (owns.own _ _ _ held' held)
  · rw [KvPoller.withWork, List.map_append, List.mem_append] at member
    rcases member with member | member
    · exact fresh.old _ member
    · exact List.mem_singleton.mp member ▸ Nat.lt_succ_of_lt (owns.known _ _ held)
  · rw [KvPoller.withWork, List.map_append]
    exact List.concat_eq_append ▸ owns.once.concat (owns.unqueued _ _ held)

theorem queue_extends (work : Nat) (fd : Int) (poller : KvPoller) :
    Extends poller (withWork fd { poller with queued := poller.queued ++ [(fd, work)] }) :=
  ⟨(withWork_extends fd poller).args, (withWork_extends fd poller).bufs, id, rfl⟩

theorem Inv.queue {work : Nat} (inv : poller.Inv) (held : poller.workBufs fd = some work) :
    (KvPoller.withWork fd { poller with queued := poller.queued ++ [(fd, work)] }).Inv where
  toOwns := inv.toOwns.queue held
  allocated := inv.allocated
  used := inv.used
  mapped := inv.mapped
  points watched := (inv.points watched).extends (queue_extends work fd poller)

/-- An entry of the map for a descriptor that is not watched. -/
theorem Inv.entry (inv : poller.Inv) (unwatched : poller.watched fd = none) (entry : Option (Option Nat)) :
    { poller with emap := Function.update poller.emap fd entry : KvPoller }.Inv where
  toOwns := ⟨inv.known, inv.own, inv.unqueued, inv.old, inv.once⟩
  allocated := inv.allocated
  used := inv.used
  mapped {other arg} watched := by
    have apart : other ≠ fd := by
      rintro rfl
      cases unwatched.symm.trans watched
    exact (Function.update_of_ne apart ..).trans (inv.mapped watched)
  points := inv.points

/-- What stays once the `poller_arg` of a descriptor is deleted. -/
theorem Points.spared {found : Nat} (points : poller.Points found other) (there : poller.args arg = some content)
    (apart : other ≠ content.fd) : { poller with args := Function.update poller.args arg none : KvPoller }.Points found other := by
  obtain ⟨cb, present, works⟩ := points
  have different : found ≠ arg := by
    rintro rfl
    obtain rfl := Option.some.inj (present.symm.trans there)
    exact apart rfl
  exact ⟨cb, (Function.update_of_ne different ..).trans present, works⟩

theorem Inv.freed (inv : poller.Inv) (there : poller.args arg = some content) (unwatched : poller.watched content.fd = none) :
    { poller with args := Function.update poller.args arg none : KvPoller }.Inv where
  toOwns := ⟨inv.known, inv.own, inv.unqueued, inv.old, inv.once⟩
  allocated {found} present := by
    dsimp only at present
    rw [Function.update_apply] at present
    split at present
    · cases present
    · exact inv.allocated present
  used := inv.used
  mapped := inv.mapped
  points {other found} watched := by
    refine (inv.points watched).spared there ?_
    rintro rfl
    cases unwatched.symm.trans watched

/-- Calls that never stop, and what they leave. -/
def Returns {α : Type} (call : Exec KvPoller α) (post : α → KvPoller → Prop) (poller : KvPoller) : Prop :=
  wp call post (fun _ _ => False) poller

theorem accept_returns (inv : poller.Inv) : Returns accept
    (fun cfd after => after.Inv ∧ Extends poller after ∧ (0 ≤ cfd → after.watched cfd = none)) poller := by
  have fewer := entered_fewer poller
  refine wp_bind_ok (enter_run poller) (wp_bind_ok (read_run _ _) ?_)
  split
  · rename_i fine
    have extends_ := fewer.extends
    refine wp_bind_ok (update_run _ _) (wp_pure ⟨?_, ⟨extends_.args, extends_.bufs, extends_.unfreed, extends_.schedule⟩, fun _ => ?_⟩)
    · have entered := fewer.inv inv
      refine ⟨⟨entered.known, entered.own, entered.unqueued, entered.old, entered.once⟩, entered.allocated, fun watched => ?_,
        entered.mapped, entered.points⟩
      dsimp only
      rw [Function.update_apply]
      split
      · rfl
      · exact entered.used watched
    · cases watched : poller.entered.watched (poller.schedule poller.turns).fd with
      | none => rfl
      | some arg => exact absurd ((fewer.inv inv).used watched) (by simp [fine.2.2])
  · exact wp_pure ⟨fewer.inv inv, fewer.extends, fun impossible => absurd impossible (by decide)⟩

theorem close_returns (fd : Int) (poller : KvPoller) :
    Returns (close fd) (fun _ after => Fewer poller after ∧ after.watched fd = none) poller := by
  refine wp_bind_ok (enter_run poller) (wp_of_ok (update_run _ _) ⟨(entered_fewer poller).trans (closed_fewer fd _), ?_⟩)
  rw [closed_watched, if_pos rfl]

theorem epollCtlDel_returns (fd : Int) (poller : KvPoller) : Returns (epollCtlDel fd)
    (fun served after => Fewer poller after ∧ (served → after.watched fd = none ∧ ∃ arg, poller.watched fd = some arg)) poller := by
  have fewer := entered_fewer poller
  refine wp_bind_ok (enter_run poller) (wp_bind_ok (read_run _ _) ?_)
  split
  · rename_i fine
    obtain ⟨arg, watched⟩ := Option.ne_none_iff_exists'.mp fine.2
    refine wp_bind_ok (update_run _ _) (wp_pure ⟨fewer.trans (unwatched_fewer fd _), fun _ => ⟨?_, arg, fewer.watched watched⟩⟩)
    rw [watching_watched, if_pos rfl]
  · exact wp_pure ⟨fewer, fun impossible => by cases impossible⟩

theorem emapAt_there {entry : Option Nat} (there : poller.emap fd = some entry) :
    emapAt fd poller = (.ok entry, poller) := by
  rw [emapAt, read_bind_run, there]
  rfl

theorem emapAt_returns (inv : poller.Inv) : Returns (emapAt fd) (fun _ after => after.Inv ∧ Extends poller after ∧
    after.watched = poller.watched ∧ ∀ arg, poller.watched fd = some arg → after = poller) poller := by
  cases there : poller.emap fd with
  | some entry => exact wp_of_ok (emapAt_there there) ⟨inv, .refl poller, rfl, fun _ _ => rfl⟩
  | none =>
    have unwatched : poller.watched fd = none := by
      cases watched : poller.watched fd with
      | none => rfl
      | some arg => cases there.symm.trans (inv.mapped watched)
    have ran : emapAt fd poller = (.ok none, { poller with emap := Function.update poller.emap fd (some none) }) := by
      rw [emapAt, read_bind_run, there]
      rfl
    refine wp_of_ok ran ⟨inv.entry unwatched (some none), ⟨id, id, id, rfl⟩, rfl, fun arg watched => ?_⟩
    cases unwatched.symm.trans watched

/-- What is gone once a descriptor is not to be watched any more is its own `poller_arg`,
and that only if it was watched. -/
structure Spares (fd : Int) (before after : KvPoller) : Prop where
  others : ∀ arg other, other ≠ fd → before.Points arg other → after.Points arg other
  unwatched : before.watched fd = none → Extends before after

theorem Extends.spares (extends_ : Extends before after) (fd : Int) : Spares fd before after :=
  ⟨fun _ _ _ points => points.extends extends_, fun _ => extends_⟩

theorem unregist_returns (inv : poller.Inv) :
    Returns (attempt (unregist fd)) (fun _ after => after.Inv ∧ Spares fd poller after) poller := by
  have ends : wp (unregist fd) (fun _ after => after.Inv ∧ Spares fd poller after)
      (fun reason after => reason = .failed ∧ after.Inv ∧ Spares fd poller after) poller := by
    refine wp_bind ((emapAt_returns inv).mono (fun _ _ entry => entry) fun _ _ never => never.elim) ?_
    rintro _ mapped ⟨inv', extends_, watched, same⟩
    refine wp_bind ((epollCtlDel_returns fd mapped).mono (fun _ _ del => del) fun _ _ never => never.elim) ?_
    rintro served deleted ⟨fewer, found⟩
    cases served with
    | false => exact wp_of_error rfl ⟨rfl, fewer.inv inv', (extends_.trans fewer.extends).spares fd⟩
    | true =>
      obtain ⟨unwatched, arg, was⟩ := found rfl
      rw [watched] at was
      obtain rfl := same arg was
      obtain ⟨cb, there, _⟩ := inv.points was
      have there' := fewer.extends.args there
      have entry : deleted.emap fd = some (some arg) := fewer.emap ▸ inv.mapped was
      have freed : deleteArg (some arg) deleted =
          (.ok (), { deleted with args := Function.update deleted.args arg none }) := by
        rw [deleteArg, argAt, bind_assoc, read_bind_run, there']
        rfl
      refine wp_bind_ok (emapAt_there entry) (wp_bind_ok freed (wp_of_ok (update_run _ _) ⟨?_, fun found other apart points => ?_, ?_⟩))
      · exact ((fewer.inv inv).freed there' unwatched).entry unwatched none
      · exact (points.extends fewer.extends).spared there' apart
      · intro none_
        cases none_.symm.trans was
  exact wp_attempt_failed ends (fun _ _ done => done) fun _ done => done

/-- A connection that is closed before it is unregistered frees nothing. -/
theorem drop_returns (inv : poller.Inv) (fd : Int) :
    Returns (drop fd) (fun _ after => after.Inv ∧ Extends poller after) poller := by
  refine wp_bind ((close_returns fd poller).mono (fun _ _ closed => closed) fun _ _ never => never.elim) ?_
  rintro _ closed ⟨fewer, unwatched⟩
  refine wp_bind ((unregist_returns (fewer.inv inv)).mono (fun _ _ done => done) fun _ _ never => never.elim) ?_
  rintro _ after ⟨inv', spares⟩
  exact wp_pure ⟨inv', fewer.extends.trans (spares.unwatched unwatched)⟩

/-- The descriptor is watched from now on, with a `poller_arg` of its own. -/
def Registered (before after : KvPoller) (fd : Int) (cb : PollerCb) : Prop :=
  ∃ base arg, after = watching fd (some arg) base ∧ base.Inv ∧ Extends before base ∧ base.isOpen fd = true ∧
    base.emap fd = some (some arg) ∧ base.args arg = some ⟨fd, epollIn ||| epollEt, some cb, none⟩

theorem registR_returns (inv : poller.Inv) (unwatched : poller.watched fd = none) (cb : PollerCb) :
    wp (registR fd cb) (fun _ after => Registered poller after fd cb)
      (fun reason after => reason = .failed ∧ after.Inv ∧ Extends poller after) poller := by
  let made := withArg ⟨fd, epollIn ||| epollEt, some cb, none⟩ poller
  have inv' : made.Inv := inv.withArg unwatched
  have extends_ : Extends poller made := withArg_extends inv _
  have fewer := entered_fewer made
  refine wp_bind_ok (read_run _ _) (wp_bind_ok (update_run _ _) ?_)
  have added : epollCtlAdd fd poller.nextArg made = (.ok true, watching fd (some poller.nextArg) made.entered) ∧
      made.entered.isOpen fd = true ∨ epollCtlAdd fd poller.nextArg made = (.ok false, made.entered) := by
    unfold epollCtlAdd
    rw [bind_ok (enter_run made), read_bind_run]
    split
    · exact .inl ⟨rfl, ‹_ ∧ _ ∧ _›.2.1⟩
    · exact .inr rfl
  rcases added with ⟨ran, used⟩ | ran
  · refine wp_bind_ok ran (wp_pure ⟨made.entered, _, rfl, fewer.inv inv', extends_.trans fewer.extends, used, ?_, ?_⟩)
    · rw [fewer.emap]
      exact Function.update_self ..
    · rw [fewer.args]
      exact Function.update_self ..
  · exact wp_bind_ok ran (wp_of_error rfl ⟨rfl, fewer.inv inv', extends_.trans fewer.extends⟩)

theorem registered_returns (inv : poller.Inv) (unwatched : 0 ≤ cfd → poller.watched cfd = none) :
    Returns (registered cfd) (fun made after => made ∧ Registered poller after cfd .cbReadSock ∨
      made = false ∧ after.Inv ∧ Extends poller after) poller := by
  unfold registered
  split
  · exact wp_pure (.inr ⟨rfl, inv, .refl poller⟩)
  · have apart := unwatched (Int.not_lt.mp ‹_›)
    have tried : Returns (attempt (registR cfd .cbReadSock)) (fun made after =>
        made.isSome ∧ Registered poller after cfd .cbReadSock ∨ made.isSome = false ∧ after.Inv ∧ Extends poller after) poller :=
      wp_attempt_failed (registR_returns inv apart .cbReadSock) (fun _ _ made => .inl ⟨rfl, made⟩) fun _ left => .inr ⟨rfl, left⟩
    exact wp_bind tried fun _ _ made => wp_pure made

theorem cbAccept_returns (inv : poller.Inv) (fd : Int) :
    Returns (cbAccept fd) (fun _ after => after.Inv ∧ Extends poller after) poller := by
  refine wp_bind ((accept_returns inv).mono (fun _ _ accepted => accepted) fun _ _ never => never.elim) ?_
  rintro cfd accepted ⟨inv', extends_, unwatched⟩
  refine wp_bind ((registered_returns inv' unwatched).mono (fun _ _ made => made) fun _ _ never => never.elim) ?_
  rintro _ after (⟨made, base, arg, rfl, inv'', extends', used, mapped, there⟩ | ⟨rfl, inv'', extends'⟩)
  · rw [if_pos made]
    have with_ := withWork_extends cfd base
    refine wp_of_ok (update_run _ _) ⟨(inv''.withWork cfd).watch used mapped ⟨_, there, fun _ => ?_⟩, ?_⟩
    · rw [withWork_workBufs, if_pos rfl]
      rfl
    · exact extends_.trans (extends'.trans ⟨with_.args, with_.bufs, with_.unfreed, rfl⟩)
  · rw [if_neg (by simp)]
    split
    · exact (drop_returns inv'' cfd).mono (fun _ _ done => ⟨done.1, extends_.trans (extends'.trans done.2)⟩) fun _ _ never => never
    · exact wp_pure ⟨inv'', extends_.trans extends'⟩

theorem cbReadSock_returns (inv : poller.Inv) (works : (poller.workBufs fd).isSome) :
    Returns (cbReadSock fd) (fun _ after => after.Inv ∧ Extends poller after) poller := by
  obtain ⟨work, held⟩ := Option.isSome_iff_exists.mp works
  have fewer := entered_fewer poller
  have held' : poller.entered.workBufs fd = some work := fewer.workBufs ▸ held
  refine wp_bind_ok (read_run _ _) ?_
  rw [held]
  refine wp_bind_ok (enter_run poller) ?_
  cases (poller.schedule poller.turns).outcome with
  | failed =>
    exact (drop_returns (fewer.inv inv) fd).mono (fun _ _ done => ⟨done.1, fewer.extends.trans done.2⟩) fun _ _ never => never
  | request =>
    exact wp_bind_ok (update_run _ _) (wp_of_ok (update_run _ _)
      ⟨(fewer.inv inv).queue held', fewer.extends.trans (queue_extends work fd _)⟩)
  | other => exact wp_pure ⟨fewer.inv inv, fewer.extends⟩

/-- Neither an error nor a hang-up is reported. -/
def Calm (events : UInt32) : Prop := ¬ (hasEvent events epollErr ∨ hasEvent events epollHup)

instance (events : UInt32) : Decidable (Calm events) := inferInstanceAs (Decidable (¬ _))

theorem argAt_there (there : poller.args arg = some content) : argAt arg poller = (.ok content, poller) := by
  rw [argAt, read_bind_run, there]
  rfl

/-- A callback runs through a `poller_arg` that is there, also afterwards. -/
theorem handle_calm {event : Nat × UInt32} (inv : poller.Inv) (points : poller.Points event.1 fd) (calm : Calm event.2) :
    Returns (handle event) (fun _ after => after.Inv ∧ Extends poller after) poller := by
  obtain ⟨cb, there, works⟩ := points
  have ran : Returns (runCb (some cb) fd) (fun _ after => after.Inv ∧ Extends poller after) poller := by
    cases cb with
    | cbAccept => exact cbAccept_returns inv fd
    | cbReadSock => exact cbReadSock_returns inv (works rfl)
  have reads : hasEvent (epollIn ||| epollEt) epollIn = true := by decide
  have unwritten : hasEvent (epollIn ||| epollEt) epollOut = false := by decide
  refine wp_bind_ok (argAt_there there) ?_
  rw [if_neg calm, if_pos reads]
  refine wp_bind (ran.mono (fun _ _ done => done) fun _ _ never => never.elim) ?_
  rintro _ after ⟨inv', extends_⟩
  refine wp_bind_ok (argAt_there (extends_.args there)) ?_
  rw [if_neg (by simp [unwritten])]
  exact wp_pure ⟨inv', extends_⟩

/-- What one event frees is not what the others of its batch point to. -/
theorem handle_returns {event : Nat × UInt32} (inv : poller.Inv) (points : poller.Points event.1 fd) :
    Returns (handle event) (fun _ after => after.Inv ∧
      ∀ arg other, other ≠ fd → poller.Points arg other → after.Points arg other) poller := by
  by_cases calm : Calm event.2
  · exact (handle_calm inv points calm).mono (fun _ _ done => ⟨done.1, fun _ _ _ points => points.extends done.2⟩)
      fun _ _ never => never
  · obtain ⟨cb, there, _⟩ := points
    refine wp_bind_ok (argAt_there there) ?_
    rw [if_pos (not_not.mp calm)]
    exact wp_bind ((unregist_returns inv).mono (fun _ _ done => done) fun _ _ never => never.elim) fun _ _ done =>
      wp_pure ⟨done.1, done.2.others⟩

/-- The pointers of a batch of events are those of as many descriptors. -/
theorem evs_points {good : Nat → Int → Prop} {watched : Int → Option Nat} (points : ∀ fd arg, watched fd = some arg → good arg fd)
    (ready : List (Int × UInt32)) :
    ∃ fds, fds.Nodup ∧ List.Forall₂ (fun event fd => good event.1 fd) (evs ready watched) fds := by
  have all : ∀ events : List (Int × UInt32), events.Pairwise (fun event other => event.1 ≠ other.1) →
      ∃ fds, fds.Nodup ∧ (∀ fd ∈ fds, ∃ event ∈ events, event.1 = fd) ∧ List.Forall₂ (fun event fd => good event.1 fd)
        (events.filterMap fun event => (watched event.1).map fun arg => (arg, event.2)) fds := by
    intro events apart
    induction apart with
    | nil => exact ⟨[], .nil, by simp, .nil⟩
    | @cons event rest different _ ih =>
      obtain ⟨fds, nodup, among, matched⟩ := ih
      have among' : ∀ fd ∈ fds, ∃ other ∈ event :: rest, other.1 = fd := fun fd member =>
        (among fd member).imp fun _ found => ⟨List.mem_cons_of_mem _ found.1, found.2⟩
      cases held : watched event.1 with
      | none => exact ⟨fds, nodup, among', by rwa [List.filterMap_cons_none (by rw [held]; rfl)]⟩
      | some arg =>
        have own : ∃ other ∈ event :: rest, other.1 = event.1 := ⟨event, List.mem_cons_self, rfl⟩
        refine ⟨event.1 :: fds, nodup.cons fun member => ?_, List.forall_mem_cons.mpr ⟨own, among'⟩, ?_⟩
        · obtain ⟨other, there, same⟩ := among _ member
          exact different other there same.symm
        · rw [List.filterMap_cons_some (by rw [held]; rfl)]
          exact .cons (points _ _ held) matched
  obtain ⟨fds, nodup, _, matched⟩ := all _ (List.pairwise_pwFilter ready)
  exact ⟨fds.take evsLen, nodup.sublist (List.take_sublist ..), List.forall₂_take evsLen matched⟩

/-- What is reported was ready. -/
theorem evs_ready {ready : List (Int × UInt32)} {watched : Int → Option Nat} {event : Nat × UInt32}
    (member : event ∈ evs ready watched) : ∃ fd, (fd, event.2) ∈ ready := by
  obtain ⟨found, there, same⟩ := List.mem_filterMap.mp (List.mem_of_mem_take member)
  obtain ⟨arg, _, rfl⟩ := Option.map_eq_some_iff.mp same
  exact ⟨found.1, List.pwFilter_subset ready there⟩

theorem epollWait_returns (inv : poller.Inv) : wp epollWait
    (fun events after => after.Inv ∧ Extends poller after ∧
      (∀ event ∈ events, ∃ fd, (fd, event.2) ∈ (poller.schedule poller.turns).ready) ∧
      ∃ fds, fds.Nodup ∧ List.Forall₂ (fun event fd => after.Points event.1 fd) events fds)
    (fun reason after => reason = .failed ∧ after.Inv ∧ Extends poller after) poller := by
  have fewer := entered_fewer poller
  have inv' := fewer.inv inv
  refine wp_bind_ok (enter_run poller) ?_
  split
  · have points (fd : Int) (arg : Nat) (watched : poller.entered.watched fd = some arg) := inv'.points watched
    exact wp_bind_ok (read_run _ _) (wp_pure ⟨inv', fewer.extends, fun _ => evs_ready, evs_points points _⟩)
  · exact wp_of_error rfl ⟨rfl, inv', fewer.extends⟩

theorem batch_returns {events : List (Nat × UInt32)} {fds : List Int} (nodup : fds.Nodup) (inv : poller.Inv)
    (points : List.Forall₂ (fun event fd => poller.Points event.1 fd) events fds) :
    Returns (events.forM handle) (fun _ => Inv) poller := by
  induction events generalizing poller fds with
  | nil => exact wp_pure inv
  | cons event rest ih =>
    cases points with
    | cons first others =>
      obtain ⟨absent, nodup'⟩ := List.nodup_cons.mp nodup
      refine wp_bind ((handle_returns inv first).mono (fun _ _ done => done) fun _ _ never => never.elim) ?_
      rintro _ after ⟨inv', spared⟩
      refine ih nodup' inv' (List.forall₂_iff_zip.mpr ⟨others.length_eq, fun member => ?_⟩)
      have apart := List.of_mem_zip member
      exact spared _ _ (fun same => absent (same ▸ apart.2)) ((List.forall₂_iff_zip.mp others).2 member)

theorem batch_calm {events : List (Nat × UInt32)} {fds : List Int} (calm : ∀ event ∈ events, Calm event.2) (inv : poller.Inv)
    (points : List.Forall₂ (fun event fd => poller.Points event.1 fd) events fds) :
    Returns (events.forM handle) (fun _ after => after.Inv ∧ Extends poller after) poller := by
  induction events generalizing poller fds with
  | nil => exact wp_pure ⟨inv, .refl poller⟩
  | cons event rest ih =>
    cases points with
    | cons first others =>
      obtain ⟨here, later⟩ := List.forall_mem_cons.mp calm
      refine wp_bind ((handle_calm inv first here).mono (fun _ _ done => done) fun _ _ never => never.elim) ?_
      rintro _ after ⟨inv', extends_⟩
      have still := others.imp fun _ _ points => points.extends extends_
      exact (ih later inv' still).mono (fun _ _ done => ⟨done.1, extends_.trans done.2⟩) fun _ _ never => never

/-- Rounds of the loop. -/
theorem loop_returns (rounds : Nat) (inv : poller.Inv) :
    wp (loop rounds) (fun _ => Inv) (fun reason after => reason = .failed ∧ after.Inv) poller := by
  induction rounds generalizing poller with
  | zero => exact wp_pure inv
  | succ rounds ih =>
    refine wp_bind ((epollWait_returns inv).mono (fun _ _ waited => waited) fun _ _ left => ⟨left.1, left.2.1⟩) ?_
    rintro events after ⟨inv', _, _, fds, nodup, points⟩
    exact wp_bind ((batch_returns nodup inv' points).mono (fun _ _ kept => kept) fun _ _ never => never.elim) fun _ _ kept => ih kept

theorem loop_calm (rounds : Nat) (calm : ∀ n, ∀ event ∈ (poller.schedule n).ready, Calm event.2) (inv : poller.Inv) :
    wp (loop rounds) (fun _ after => after.Inv ∧ Extends poller after)
      (fun reason after => reason = .failed ∧ after.Inv ∧ Extends poller after) poller := by
  induction rounds generalizing poller with
  | zero => exact wp_pure ⟨inv, .refl poller⟩
  | succ rounds ih =>
    refine wp_bind (epollWait_returns inv) ?_
    rintro events waited ⟨inv', extends_, ready, fds, _, points⟩
    have here (event) (member : event ∈ events) : Calm event.2 := by
      obtain ⟨fd, there⟩ := ready event member
      exact calm _ _ there
    refine wp_bind ((batch_calm here inv' points).mono (fun _ _ done => done) fun _ _ never => never.elim) ?_
    rintro _ after ⟨inv'', extends'⟩
    have all := extends_.trans extends'
    refine (ih (all.schedule ▸ calm) inv'').mono ?_ ?_
    · exact fun _ _ done => ⟨done.1, all.trans done.2⟩
    · exact fun _ _ left => ⟨left.1, left.2.1, all.trans left.2.2⟩

theorem start_inv (schedule : Nat → KernelTurn) (isOpen : Int → Bool) : (start schedule isOpen).Inv := by
  constructor
  case toOwns => constructor <;> simp [start]
  all_goals
    intros
    simp_all [start]

/-- The poller once it has its listening socket, or has failed to get it. -/
theorem serv_begins (schedule : Nat → KernelTurn) (isOpen : Int → Bool) (listenSock : Int) :
    wp (registR listenSock .cbAccept)
      (fun _ after => after.Inv ∧ Extends (start schedule isOpen) after)
      (fun reason after => reason = .failed ∧ after.Inv ∧ Extends (start schedule isOpen) after) (start schedule isOpen) := by
  refine (registR_returns (start_inv schedule isOpen) rfl .cbAccept).mono ?_ fun _ _ left => left
  rintro _ _ ⟨base, arg, rfl, inv', extends_, used, mapped, there⟩
  exact ⟨inv'.watch used mapped ⟨_, there, fun reads => by cases reads⟩,
    extends_.args, extends_.bufs, extends_.unfreed, extends_.schedule⟩

/-- However events arrive, connections come, fail, and are closed by the sender, the poller never
touches a `poller_arg` that is freed, frees none twice, calls no callback that is not set,
and shares no work with a worker. -/
theorem serv_safe (schedule : Nat → KernelTurn) (isOpen : Int → Bool) (listenSock : Int) (rounds : Nat) :
    (serv listenSock rounds (start schedule isOpen)).1 ≠ .error .fault ∧
      (serv listenSock rounds (start schedule isOpen)).2.Owns := by
  have ends : wp (serv listenSock rounds) (fun _ => Inv) (fun reason after => reason = .failed ∧ after.Inv)
      (start schedule isOpen) :=
    wp_bind ((serv_begins schedule isOpen listenSock).mono (fun _ _ begun => begun) fun _ _ left => ⟨left.1, left.2.1⟩)
      fun _ _ begun => loop_returns rounds begun.1
  rcases ends.cases with ⟨_, _, ran, inv'⟩ | ⟨_, _, ran, rfl, inv'⟩
  · exact ⟨by simp [ran], ran ▸ inv'.toOwns⟩
  · exact ⟨by simp [ran], ran ▸ inv'.toOwns⟩

/-- Where nobody hangs up the poller frees nothing: the connections it closes itself keep their
`poller_arg`s, since they are unregistered only after they were closed. -/
theorem serv_unfreed (schedule : Nat → KernelTurn) (isOpen : Int → Bool) (listenSock : Int) (rounds : Nat)
    (calm : ∀ n, ∀ event ∈ (schedule n).ready, Calm event.2) :
    (serv listenSock rounds (start schedule isOpen)).2.Unfreed := by
  have none_ : (start schedule isOpen).Unfreed := fun _ bound => absurd bound (Nat.not_lt_zero _)
  have ends : wp (serv listenSock rounds) (fun _ after => Extends (start schedule isOpen) after)
      (fun _ after => Extends (start schedule isOpen) after) (start schedule isOpen) := by
    refine wp_bind ((serv_begins schedule isOpen listenSock).mono (fun _ _ begun => begun) fun _ _ left => left.2.2) ?_
    rintro _ begun ⟨inv, extends_⟩
    have calm' : ∀ n, ∀ event ∈ (begun.schedule n).ready, Calm event.2 := extends_.schedule ▸ calm
    exact (loop_calm rounds calm' inv).mono (fun _ _ done => extends_.trans done.2) fun _ _ left => extends_.trans left.2.2
  exact ends.left.unfreed none_

/-- A connection comes, and its first read fails. -/
private def failingRead : Nat → KernelTurn
  | 1 => ⟨[], true, 0, .other, [(3, epollIn)]⟩
  | 2 => ⟨[], true, 5, .other, []⟩
  | 4 => ⟨[], true, 0, .other, [(5, epollIn)]⟩
  | 5 => ⟨[], true, 0, .failed, []⟩
  | _ => ⟨[], true, 0, .other, []⟩

theorem closed_unfreed : ∃ final, serv 3 2 (start failingRead (· == 3)) = (.ok (), final) ∧ final.isOpen 5 = false ∧
    (final.args 1).isSome := by
  have calm : ∀ n, ∀ event ∈ (failingRead n).ready, Calm event.2 := by
    intro n
    unfold failingRead
    split <;> simp only [List.forall_mem_singleton, List.not_mem_nil, false_implies, implies_true] <;> decide
  have ran : (serv 3 2 (start failingRead (· == 3))).1 = .ok () := by decide
  have second : 1 < (serv 3 2 (start failingRead (· == 3))).2.nextArg := by decide
  exact ⟨_, run_of_fst ran, by decide, serv_unfreed failingRead _ 3 2 calm 1 second⟩

end KvPoller

end Pingkv
