import BtcIndexer.AggregatorRuns

/-! The task of the aggregator: a loop that prefers the channel to the shutdown notification,
and a drain after the notification. Both consume one queue. An error ends the first; the second
ignores it, so a task can return although a message was lost. -/
namespace BtcIndexer
open Stateful Outbox Rows

namespace Aggregator

def IsPanic (e : AggregatorError) : Prop := e.ignorable = false

/-- The ticks of the database calls decide what becomes of the computation. -/
abbrev Booked {α : Type} (env : LedgerEnv) (x : LedgerM α) : Prop :=
  Accounts World.clock env.sqlFails IsPanic x

section Accounts

variable {env : LedgerEnv}

theorem statement_accounts (f : Ledger → Ledger) (db : Ledger) :
    Booked env (sql env.faults (fun l => .ok (f l)) db) := query_accounts (F := env.faults) f db

theorem bookEvent_accounts (event : BtcP2trEvent) (db : Ledger) :
    Booked env (bookEvent env event db) := by
  have hbalance : ∀ db, Booked env (updateTotalBalance env event db) := fun db w =>
    statement_accounts (fun l => l.incrementBtcBalance _ _ _) db w
  have hstatistic : ∀ db, Booked env (updateStatisticBalanceChange env event db) := fun db w =>
    statement_accounts (fun l => l.incrementStaticBalances _ _ _ _) db w
  exact Accounts.bind (statement_accounts (fun l => l.createP2trEvent event) db) fun db₁ =>
    Accounts.bind (hbalance db₁) hstatistic

theorem bookEvents_accounts (events : List BtcP2trEvent) (db : Ledger) :
    Booked env (bookEvents env events db) := by
  induction events generalizing db with
  | nil => exact Accounts.pure db
  | cons event rest ih => exact Accounts.bind (bookEvent_accounts event db) ih

theorem recordEvent_accounts (event : BtcP2trEvent) (db : Ledger) :
    Booked env (recordEvent env event db) := by
  unfold recordEvent
  split
  · exact statement_accounts (fun l => l.createPendingP2trEvent event) db
  · exact bookEvent_accounts event db

theorem storeEvent_accounts (event : BtcP2trEvent) : Booked env (storeEvent env event) :=
  Accounts.bind (begin_accounts (F := env.faults)) fun db =>
    Accounts.bind (recordEvent_accounts event db) commit_accounts

theorem sweep_accounts (blockNum : Nat) : Booked env (sweep env blockNum) := by
  refine Accounts.bind (fun w => execute_accounts (F := env.faults) _ w) fun events => ?_
  split
  · exact Accounts.pure ()
  · exact Accounts.bind (begin_accounts (F := env.faults)) fun db =>
      Accounts.bind (bookEvents_accounts events db) commit_accounts

theorem storeReorg_accounts (blockNumber : Nat) : Booked env (storeReorg env blockNumber) := by
  refine Accounts.bind (begin_accounts (F := env.faults)) fun db => ?_
  refine Accounts.bind (fun w => query_accounts (F := env.faults) _ db w) fun rows => ?_
  cases rows.getLast? with
  | none => exact Accounts.throw rfl
  | some last =>
      refine Accounts.bind (bookEvents_accounts _ db) fun db₁ => ?_
      refine Accounts.bind (fun w => query_accounts (F := env.faults) _ db₁ w) fun pull => ?_
      exact Accounts.bind (commit_accounts pull.2) fun _ => Accounts.pure _

abbrev Told {α : Type} (env : LedgerEnv) (x : AggregatorM α) : Prop :=
  Accounts (fun agg : Aggregator => agg.world.clock) env.sqlFails IsPanic x

theorem lift_accounts {α : Type} {x : LedgerM α} (hx : Booked env x) : Told env (lift x) := by
  intro agg
  simp only [lift]
  cases h : x agg.world with
  | ok a w => exact hx.of_ok h
  | error e w => exact hx.of_error h

theorem handle_accounts (msg : AggregatorMsg) : Told env (handle env msg) := by
  cases msg with
  | reorg blockNumber =>
      exact Accounts.bind (lift_accounts (storeReorg_accounts blockNumber)) fun _ =>
        Accounts.modify fun _ => rfl
  | event event =>
      refine Accounts.bind (lift_accounts (storeEvent_accounts event)) fun _ => ?_
      refine Accounts.bind (Accounts.modify fun _ => rfl) fun _ => ?_
      refine Accounts.bind Accounts.get fun agg => ?_
      split
      · refine Accounts.bind (Accounts.modify fun _ => rfl) fun _ => ?_
        refine Accounts.bind Accounts.get fun agg' => ?_
        split
        · exact Accounts.pure ()
        · exact lift_accounts (sweep_accounts _)
      · exact Accounts.pure ()

end Accounts

end Aggregator

namespace Shutdown

inductive Mode where
  | receiving
  | draining
  | returned
  | failed (e : AggregatorError)
  deriving DecidableEq, Repr

/-- `closed` says that no sender is left. The last three fields are for statements about runs:
what was put on the channel, what was handled without an error, in their order, and the clock
at the start of the drain; nothing reads them. -/
structure Task where
  aggregator : Aggregator
  queue : List AggregatorMsg
  closed : Bool
  notified : Bool
  mode : Mode
  sent : List AggregatorMsg
  applied : List AggregatorMsg
  since : Option Nat

def Task.new (agg : Aggregator) : Task := ⟨agg, [], false, false, .receiving, [], [], none⟩

inductive Step where
  | send (msg : AggregatorMsg)
  | close
  | notify
  /-- One turn of the task, in whichever of its loops it stands. -/
  | turn
  deriving DecidableEq, Repr

/-- The channel is looked at first; the notification counts only where the queue is empty. -/
def receive (env : LedgerEnv) (task : Task) : Task :=
  match task.queue with
  | msg :: rest =>
      match Aggregator.handle env msg task.aggregator with
      | .ok _ agg =>
          { task with aggregator := agg, queue := rest, applied := task.applied ++ [msg] }
      | .error e agg => { task with aggregator := agg, queue := rest, mode := .failed e }
  | [] =>
      if task.closed then { task with mode := .returned }
      else if task.notified then
        { task with
          notified := false, mode := .draining, since := some task.aggregator.world.clock }
      else task

def drain (env : LedgerEnv) (task : Task) : Task :=
  match task.queue with
  | msg :: rest =>
      match Aggregator.handle env msg task.aggregator with
      | .ok _ agg =>
          { task with aggregator := agg, queue := rest, applied := task.applied ++ [msg] }
      | .error e agg =>
          if e.ignorable then { task with aggregator := agg, queue := rest }
          else { task with aggregator := agg, queue := rest, mode := .failed e }
  | [] => if task.closed then { task with mode := .returned } else task

def step (env : LedgerEnv) (task : Task) : Step → Task
  | .send msg =>
      if task.closed then task
      else { task with queue := task.queue ++ [msg], sent := task.sent ++ [msg] }
  | .close => { task with closed := true }
  | .notify => { task with notified := true }
  | .turn =>
      match task.mode with
      | .receiving => receive env task
      | .draining => drain env task
      | .returned | .failed _ => task

def run (env : LedgerEnv) (steps : List Step) (task : Task) : Task := steps.foldl (step env) task

def Clean (env : LedgerEnv) (since now : Nat) : Prop :=
  ∀ t, since ≤ t → t < now → env.sqlFails t = false

section Turns

variable {env : LedgerEnv} {task : Task} {msg : AggregatorMsg} {rest : List AggregatorMsg}
variable {agg : Aggregator}

theorem receive_ok (hqueue : task.queue = msg :: rest)
    (h : Aggregator.handle env msg task.aggregator = .ok () agg) :
    receive env task =
      { task with aggregator := agg, queue := rest, applied := task.applied ++ [msg] } := by
  simp only [receive, hqueue, h]

theorem receive_error {e : AggregatorError} (hqueue : task.queue = msg :: rest)
    (h : Aggregator.handle env msg task.aggregator = .error e agg) :
    receive env task = { task with aggregator := agg, queue := rest, mode := .failed e } := by
  simp only [receive, hqueue, h]

theorem receive_nil (hqueue : task.queue = []) :
    receive env task = if task.closed then { task with mode := .returned }
      else if task.notified then
        { task with
          notified := false, mode := .draining, since := some task.aggregator.world.clock }
      else task := by
  simp only [receive, hqueue]

theorem drain_ok (hqueue : task.queue = msg :: rest)
    (h : Aggregator.handle env msg task.aggregator = .ok () agg) :
    drain env task =
      { task with aggregator := agg, queue := rest, applied := task.applied ++ [msg] } := by
  simp only [drain, hqueue, h]

theorem drain_error {e : AggregatorError} (hqueue : task.queue = msg :: rest)
    (h : Aggregator.handle env msg task.aggregator = .error e agg) :
    drain env task = if e.ignorable then { task with aggregator := agg, queue := rest }
      else { task with aggregator := agg, queue := rest, mode := .failed e } := by
  simp only [drain, hqueue, h]

theorem drain_nil (hqueue : task.queue = []) :
    drain env task = if task.closed then { task with mode := .returned } else task := by
  simp only [drain, hqueue]

end Turns

/-- The invariant of a task that has not failed: it has run its two loops over what it took
from the queue, and a message was lost exactly if a call of the drain has failed. -/
structure Sound (env : LedgerEnv) (agg : Aggregator) (task : Task) : Prop where
  receiving : task.mode = .receiving → task.since = none
  draining : task.mode = .draining → task.since ≠ none
  returned : task.mode = .returned → task.closed = true ∧ task.queue = []
  loop : task.since = none → task.applied ++ task.queue = task.sent ∧
    Aggregator.start env task.applied agg = .ok () task.aggregator
  drain : ∀ since, task.since = some since → ∃ before during mid,
    task.sent = before ++ during ++ task.queue ∧
    Aggregator.start env before agg = .ok () mid ∧ mid.world.clock = since ∧
    Aggregator.cleanup env during mid = .ok () task.aggregator ∧
    since ≤ task.aggregator.world.clock ∧
    (Clean env since task.aggregator.world.clock → task.applied = before ++ during) ∧
    (¬ Clean env since task.aggregator.world.clock →
      task.applied.length < before.length + during.length)

theorem sound_new (env : LedgerEnv) (agg : Aggregator) : Sound env agg (Task.new agg) where
  receiving := fun _ => rfl
  draining := nofun
  returned := nofun
  loop := fun _ => ⟨rfl, rfl⟩
  drain := fun _ => nofun

section Steps

variable {env : LedgerEnv} {agg : Aggregator} {task : Task}

theorem Clean.split {since mid now : Nat} (hlow : since ≤ mid) (hhigh : mid ≤ now) :
    Clean env since now ↔ Clean env since mid ∧ Clean env mid now := by
  constructor
  · intro h
    exact ⟨fun t hs hm => h t hs (Nat.lt_of_lt_of_le hm hhigh),
      fun t hm hn => h t (Nat.le_trans hlow hm) hn⟩
  · rintro ⟨hfirst, hsecond⟩ t hs hn
    by_cases ht : t < mid
    · exact hfirst t hs ht
    · exact hsecond t (Nat.le_of_not_lt ht) hn

theorem Sound.send (h : Sound env agg task) (msg : AggregatorMsg) :
    Sound env agg (step env task (.send msg)) := by
  simp only [step]
  split
  · exact h
  · next hopen =>
      refine ⟨h.receiving, h.draining, fun hmode => ?_, fun hsince => ?_, fun since hsince => ?_⟩
      · exact absurd (h.returned hmode).1 hopen
      · obtain ⟨hall, hrun⟩ := h.loop hsince
        refine ⟨?_, hrun⟩
        change task.applied ++ (task.queue ++ [msg]) = task.sent ++ [msg]
        rw [← hall, List.append_assoc]
      · obtain ⟨before, during, mid, hall, hrest⟩ := h.drain since hsince
        refine ⟨before, during, mid, ?_, hrest⟩
        change task.sent ++ [msg] = before ++ during ++ (task.queue ++ [msg])
        rw [hall, List.append_assoc _ task.queue]

theorem Sound.receive (h : Sound env agg task) (hmode : task.mode = .receiving) :
    (∃ e, (receive env task).mode = .failed e) ∨ Sound env agg (receive env task) := by
  have hsince := h.receiving hmode
  obtain ⟨hall, hrun⟩ := h.loop hsince
  cases hqueue : task.queue with
  | cons msg rest =>
      rw [hqueue] at hall
      have hsnoc := Aggregator.start_snoc hrun msg
      cases hhandle : Aggregator.handle env msg task.aggregator with
      | error e agg' => exact .inl ⟨e, by rw [receive_error hqueue hhandle]⟩
      | ok a agg' =>
          rw [hhandle] at hsnoc
          rw [receive_ok hqueue hhandle]
          refine .inr ⟨fun _ => hsince, fun hdrain => ?_, fun hend => ?_, fun _ => ?_,
            fun since hother => ?_⟩
          · rw [hmode] at hdrain
            cases hdrain
          · rw [hmode] at hend
            cases hend
          · exact ⟨by rw [← hall, List.append_assoc]; rfl, hsnoc⟩
          · rw [hsince] at hother
            cases hother
  | nil =>
      rw [hqueue, List.append_nil] at hall
      rw [receive_nil hqueue]
      split
      · next hclosed =>
          refine .inr ⟨nofun, nofun, fun _ => ⟨hclosed, hqueue⟩,
            fun _ => ⟨by rw [hqueue, List.append_nil, hall], hrun⟩, fun since hother => ?_⟩
          rw [hsince] at hother
          cases hother
      · split
        · refine .inr ⟨nofun, fun _ => nofun, nofun,
            nofun, fun since hnow => ?_⟩
          cases hnow
          refine ⟨task.applied, [], task.aggregator, ?_, hrun, rfl, rfl, Nat.le_refl _,
            fun _ => ?_, fun hnot => ?_⟩
          · rw [hqueue, List.append_nil, List.append_nil, hall]
          · rw [List.append_nil]
          · exact absurd (fun t hlow hhigh => absurd hhigh (Nat.not_lt.mpr hlow)) hnot
        · exact .inr h

theorem Sound.drained (h : Sound env agg task) (hmode : task.mode = .draining) :
    (∃ e, (Shutdown.drain env task).mode = .failed e) ∨
      Sound env agg (Shutdown.drain env task) := by
  obtain ⟨since, hsince⟩ := Option.ne_none_iff_exists'.mp (h.draining hmode)
  obtain ⟨before, during, mid, hall, hstart, hclock, hrun, hle, hclean, hlost⟩ :=
    h.drain since hsince
  cases hqueue : task.queue with
  | nil =>
      rw [drain_nil hqueue]
      split
      · next hclosed =>
          exact .inr ⟨nofun, nofun, fun _ => ⟨hclosed, hqueue⟩,
            (fun hnone => by rw [hsince] at hnone; cases hnone), h.drain⟩
      · exact .inr h
  | cons msg rest =>
      have hsnoc := Aggregator.cleanup_snoc hrun msg
      have htaken : task.sent = before ++ (during ++ [msg]) ++ rest := by
        rw [hall, hqueue]
        simp only [List.append_assoc, List.singleton_append]
      have hnever : task.since = none → False := fun hnone => by
        rw [hsince] at hnone
        cases hnone
      cases hhandle : Aggregator.handle env msg task.aggregator with
      | ok a agg' =>
          obtain ⟨hle', hquiet⟩ := (Aggregator.handle_accounts msg).of_ok hhandle
          have hsplit := @Clean.split env _ _ _ hle hle'
          simp only [retrying, hhandle] at hsnoc
          rw [drain_ok hqueue hhandle]
          refine .inr ⟨fun hm => absurd (hmode.symm.trans hm) nofun, fun _ => h.draining hmode,
            fun hm => absurd (hmode.symm.trans hm) nofun, fun hnone => (hnever hnone).elim,
            fun since' hsame => ?_⟩
          cases hsince.symm.trans hsame
          refine ⟨before, during ++ [msg], mid, htaken, hstart, hclock, hsnoc,
            Nat.le_trans hle hle', fun hall' => ?_, fun hnot => ?_⟩
          · change task.applied ++ [msg] = _
            rw [hclean (hsplit.mp hall').1, List.append_assoc]
          · have hbefore := hlost fun hfirst => hnot (hsplit.mpr ⟨hfirst, hquiet⟩)
            change (task.applied ++ [msg]).length < _
            simp only [List.length_append, List.length_singleton]
            omega
      | error e agg' =>
          obtain ⟨hle', hfault⟩ := (Aggregator.handle_accounts msg).of_error hhandle
          have hsplit := @Clean.split env _ _ _ hle hle'
          rw [drain_error hqueue hhandle]
          split
          · next hignored =>
              rcases hfault with hpanic | ⟨t, hlow, hhigh, hfails⟩
              · rw [Aggregator.IsPanic, hignored] at hpanic
                cases hpanic
              · simp only [retrying, hhandle, hignored, if_true] at hsnoc
                refine .inr ⟨fun hm => absurd (hmode.symm.trans hm) nofun,
                  fun _ => h.draining hmode, fun hm => absurd (hmode.symm.trans hm) nofun,
                  fun hnone => (hnever hnone).elim, fun since' hsame => ?_⟩
                cases hsince.symm.trans hsame
                refine ⟨before, during ++ [msg], mid, htaken, hstart, hclock, hsnoc,
                  Nat.le_trans hle hle', fun hall' => ?_, fun _ => ?_⟩
                · rw [(hsplit.mp hall').2 t hlow hhigh] at hfails
                  cases hfails
                · change task.applied.length < _
                  simp only [List.length_append, List.length_singleton]
                  by_cases hfirst : Clean env since task.aggregator.world.clock
                  · rw [hclean hfirst, List.length_append]
                    omega
                  · have hbefore := hlost hfirst
                    omega
          · exact .inl ⟨e, rfl⟩

/-- A failed task stays failed, any other keeps the invariant. -/
theorem Sound.step (h : Sound env agg task) (move : Step) :
    (∃ e, (step env task move).mode = .failed e) ∨ Sound env agg (step env task move) := by
  cases move with
  | send msg => exact .inr (h.send msg)
  | close =>
      exact .inr ⟨h.receiving, h.draining, fun hmode => ⟨rfl, (h.returned hmode).2⟩, h.loop,
        h.drain⟩
  | notify => exact .inr ⟨h.receiving, h.draining, h.returned, h.loop, h.drain⟩
  | turn =>
      simp only [Shutdown.step]
      cases hmode : task.mode with
      | receiving => exact h.receive hmode
      | draining => exact h.drained hmode
      | returned => exact .inr h
      | failed e => exact .inr h

theorem step_failed {e : AggregatorError} (h : task.mode = .failed e) (move : Step) :
    (step env task move).mode = .failed e := by
  cases move with
  | send msg =>
      simp only [step]
      split <;> exact h
  | close => exact h
  | notify => exact h
  | turn =>
      simp only [step, h]

theorem run_sound (steps : List Step) (h : (∃ e, task.mode = .failed e) ∨ Sound env agg task) :
    (∃ e, (run env steps task).mode = .failed e) ∨ Sound env agg (run env steps task) := by
  induction steps generalizing task with
  | nil => exact h
  | cons move rest ih =>
      rcases h with ⟨e, hfailed⟩ | hsound
      · exact ih (.inl ⟨e, step_failed hfailed move⟩)
      · exact ih (hsound.step move)

end Steps

/-- Whatever the order of the sends, the notification and the closing: when the task returns,
every message was handled without an error, once and in the order of the sends, if and only if
no call to the database has failed since the drain began. -/
theorem applied_iff (env : LedgerEnv) (agg : Aggregator) (steps : List Step)
    (hreturned : (run env steps (Task.new agg)).mode = .returned) :
    (run env steps (Task.new agg)).applied = (run env steps (Task.new agg)).sent ↔
      ∀ since, (run env steps (Task.new agg)).since = some since →
        Clean env since (run env steps (Task.new agg)).aggregator.world.clock := by
  rcases run_sound steps (.inr (sound_new env agg)) with ⟨e, hfailed⟩ | hsound
  · rw [hreturned] at hfailed
    cases hfailed
  · obtain ⟨_, hqueue⟩ := hsound.returned hreturned
    cases hsince : (run env steps (Task.new agg)).since with
    | none =>
        have hall := (hsound.loop hsince).1
        rw [hqueue, List.append_nil] at hall
        exact ⟨fun _ since hnone => (by cases hnone), fun _ => hall⟩
    | some since =>
        obtain ⟨before, during, mid, hall, _, _, _, _, hclean, hlost⟩ := hsound.drain since hsince
        rw [hqueue, List.append_nil] at hall
        constructor
        · intro hsame since' hsince'
          cases hsince'
          by_contra hnot
          have hshort := hlost hnot
          rw [hsame, hall, List.length_append] at hshort
          omega
        · intro hquiet
          rw [hclean (hquiet since rfl), hall]

/-- A message that arrives between the notification and the closing of the channel. -/
def lateSend : List Step :=
  [.notify, .turn, .send (.event ⟨7, ⟨1⟩, ⟨9⟩, 50, .receive, false⟩), .close, .turn, .turn]

theorem lateSend_applied :
    (run LedgerEnv.calm lateSend (Task.new (.new ⟨Ledger.empty, [], 0⟩))).applied =
      [.event ⟨7, ⟨1⟩, ⟨9⟩, 50, .receive, false⟩] :=
  (applied_iff LedgerEnv.calm (.new ⟨Ledger.empty, [], 0⟩) lateSend (by decide)).mpr
    fun _ _ _ _ _ => rfl

/-- With the database gone at the first tick of the drain the message is lost, and the task
returns all the same. -/
theorem lateSend_lost : ∃ env agg steps, (run env steps (Task.new agg)).mode = .returned ∧
    (run env steps (Task.new agg)).sent = [.event ⟨7, ⟨1⟩, ⟨9⟩, 50, .receive, false⟩] ∧
    (run env steps (Task.new agg)).applied = [] := by
  refine ⟨{ LedgerEnv.calm with sqlFails := fun t => t = 0 }, .new ⟨Ledger.empty, [], 0⟩, lateSend,
    ?_, ?_, ?_⟩
  · decide
  · decide
  · decide

end Shutdown

end BtcIndexer
