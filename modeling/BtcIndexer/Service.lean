import BtcIndexer.Handoff
import BtcIndexer.Machines
import BtcIndexer.Shutdown

/-! The whole process: the harvester's calls, forks included, and the aggregator's task, with
every failure on either side, dropped calls, a graceful stop and new starts. The database lives
through a start; the channel and the aggregator's height do not. Each awaited call of one party
may fall between any two of the other. -/
namespace BtcIndexer
open Stateful Outbox Rows Machines

/-- A call of the harvester that is not over: its working copy and the calls left. What was on
the channel before it is for statements about runs. -/
structure OpenCall where
  db : Store
  ops : List ProcessorOp
  since : Nat

/-- The aggregator's task: in its loop, in the drain after a shutdown, or over. -/
inductive Stage where
  | serving
  | draining
  | stopped
  deriving DecidableEq, Repr

/-- The aggregator has received the first messages of the channel. The last two fields are for
statements about runs: what calls have sent that did not commit, and the messages for which no
handler has returned. Nothing reads them. -/
structure Service where
  world : World Store AggregatorMsg
  harvesting : Bool
  writing : Option OpenCall
  received : Nat
  aggregator : Aggregator
  stage : Stage
  stray : List AggregatorMsg
  unreturned : List AggregatorMsg

namespace Service

inductive Turn where
  /-- A transaction of the harvester is opened. -/
  | call (job : Job)
  /-- One awaited call of the open transaction. -/
  | advance
  | commit
  /-- Between two calls the harvester awaits something else, up to the given tick. -/
  | elapse (clock : Nat)
  /-- The future of the open call is dropped. -/
  | drop
  /-- The harvester's task ends, with the call that is open. -/
  | terminate
  /-- The aggregator handles the next message. -/
  | deliver
  /-- The shutdown notification reaches the aggregator. -/
  | notify
  /-- The channel is empty and closed. -/
  | finish
  /-- A new process on the tables left behind, wherever the old one stood. -/
  | restart
  deriving DecidableEq, Repr

/-- Empty tables, and both tasks just started. -/
def new : Service where
  world := ⟨Store.empty, [], 0⟩
  harvesting := true
  writing := none
  received := 0
  aggregator := Aggregator.new ⟨Ledger.empty, [], 0⟩
  stage := .serving
  stray := []
  unreturned := []

def mark (sys : Service) : Nat := (sys.writing.map OpenCall.since).getD sys.world.channel.length

def inFlight (sys : Service) : List AggregatorMsg := sys.world.channel.drop sys.received

def sentByCall (sys : Service) : List AggregatorMsg := sys.world.channel.drop sys.mark

/-- The open call is rolled back. Its messages stay on the channel. -/
def abandon (sys : Service) : Service :=
  { sys with writing := none, stray := sys.stray ++ sys.sentByCall }

/-- The receiver is gone once the aggregator's task is over. -/
def faults (env : DbEnv) (sys : Service) : Faults ProcessorError :=
  { env.faults with closed := fun _ => decide (sys.stage = .stopped) }

section Step

variable (P : Processor) (env : DbEnv) (ledgerEnv : LedgerEnv)

def call (job : Job) (sys : Service) : Option Service :=
  if sys.harvesting && sys.writing.isNone then
    match begin env.faults sys.world with
    | .ok db w => some { sys with
        world := w
        writing := some ⟨db, job.ops P env sys.world, sys.world.channel.length⟩ }
    | .error _ w => some { sys with world := w }
  else none

def advance (sys : Service) : Option Service :=
  match sys.writing with
  | some ⟨db, op :: rest, since⟩ =>
      match op.run (faults env sys) db sys.world with
      | .ok db w => some { sys with world := w, writing := some ⟨db, rest, since⟩ }
      | .error _ w => some { sys with world := w }.abandon
  | _ => none

def commit (sys : Service) : Option Service :=
  match sys.writing with
  | some ⟨db, [], _⟩ =>
      match Outbox.commit (faults env sys) db sys.world with
      | .ok () w => some { sys with world := w, writing := none }
      | .error _ w => some { sys with world := w }.abandon
  | _ => none

def elapse (clock : Nat) (sys : Service) : Option Service :=
  if sys.harvesting && sys.writing.isNone then
    some { sys with world := { sys.world with clock := clock } }
  else none

/-- An error ends the loop. The drain passes it over, unless it is a panic. -/
def deliver (sys : Service) : Option Service :=
  match sys.inFlight with
  | [] => none
  | msg :: _ =>
      if sys.stage = .stopped then none
      else match Aggregator.handle ledgerEnv msg sys.aggregator with
        | .ok () agg => some { sys with received := sys.received + 1, aggregator := agg }
        | .error e agg => some { sys with
            received := sys.received + 1
            aggregator := agg
            stage := if sys.stage = .draining && e.ignorable then .draining else .stopped
            unreturned := sys.unreturned ++ [msg] }

/-- The notification counts only where the channel is empty. -/
def notify (sys : Service) : Option Service :=
  if sys.stage = .serving ∧ sys.inFlight = [] then some { sys with stage := .draining } else none

def finish (sys : Service) : Option Service :=
  if sys.stage ≠ .stopped ∧ sys.inFlight = [] ∧ sys.harvesting = false
  then some { sys with stage := .stopped } else none

/-- What is on the channel is lost with the process. -/
def restart (sys : Service) : Service :=
  { sys.abandon with
    harvesting := true
    received := sys.world.channel.length
    aggregator := { sys.aggregator with lastBlockNumber := 0 }
    stage := .serving
    unreturned := sys.unreturned ++ sys.inFlight }

/-- A turn that cannot be taken has no result. -/
def step (sys : Service) : Turn → Option Service
  | .call job => sys.call P env job
  | .advance => sys.advance env
  | .commit => sys.commit env
  | .elapse clock => sys.elapse clock
  | .drop => if sys.writing.isSome then some sys.abandon else none
  | .terminate => if sys.harvesting then some { sys.abandon with harvesting := false } else none
  | .deliver => sys.deliver ledgerEnv
  | .notify => sys.notify
  | .finish => sys.finish
  | .restart => some sys.restart

end Step

/-- A turn of the harvester leaves the aggregator's side alone, but for what it sends. -/
structure Beside (sys sys' : Service) : Prop where
  received : sys'.received = sys.received
  aggregator : sys'.aggregator = sys.aggregator
  stage : sys'.stage = sys.stage
  unreturned : sys'.unreturned = sys.unreturned

/-- A turn of the aggregator leaves the harvester's side alone. -/
structure Across (sys sys' : Service) : Prop where
  world : sys'.world = sys.world
  harvesting : sys'.harvesting = sys.harvesting
  writing : sys'.writing = sys.writing
  stray : sys'.stray = sys.stray

/-- The effects of a turn. A call that is rolled back may have its task ended with it. -/
inductive Effect (P : Processor) (env : DbEnv) (ledgerEnv : LedgerEnv) (sys : Service) :
    Turn → Service → Prop
  /-- Time passes for the harvester. -/
  | pause {turn : Turn} {sys' : Service} (beside : Beside sys sys')
      (store : sys'.world.store = sys.world.store)
      (channel : sys'.world.channel = sys.world.channel) (writing : sys'.writing = sys.writing)
      (stray : sys'.stray = sys.stray) : Effect P env ledgerEnv sys turn sys'
  | opened {job : Job} {sys' : Service} (beside : Beside sys sys')
      (idle : sys.writing = none) (store : sys'.world.store = sys.world.store)
      (channel : sys'.world.channel = sys.world.channel)
      (writing : sys'.writing =
        some ⟨sys.world.store, job.ops P env sys.world, sys.world.channel.length⟩)
      (stray : sys'.stray = sys.stray) : Effect P env ledgerEnv sys (.call job) sys'
  | advanced {turn : Turn} {sys' : Service} {db db' : Store} {op : ProcessorOp}
      {rest : List ProcessorOp} {since : Nat} (beside : Beside sys sys')
      (before : sys.writing = some ⟨db, op :: rest, since⟩) (apply : op.apply db = .ok db')
      (store : sys'.world.store = sys.world.store)
      (channel : sys'.world.channel = sys.world.channel ++ op.message.toList)
      (writing : sys'.writing = some ⟨db', rest, since⟩)
      (stray : sys'.stray = sys.stray) : Effect P env ledgerEnv sys turn sys'
  | committed {turn : Turn} {sys' : Service} {db : Store} {since : Nat}
      (beside : Beside sys sys') (before : sys.writing = some ⟨db, [], since⟩)
      (store : sys'.world.store = db) (channel : sys'.world.channel = sys.world.channel)
      (writing : sys'.writing = none) (stray : sys'.stray = sys.stray) :
      Effect P env ledgerEnv sys turn sys'
  | abandoned {turn : Turn} {sys' : Service} (beside : Beside sys sys')
      (store : sys'.world.store = sys.world.store)
      (channel : sys'.world.channel = sys.world.channel) (writing : sys'.writing = none)
      (stray : sys'.stray = sys.stray ++ sys.sentByCall) : Effect P env ledgerEnv sys turn sys'
  | handled {sys' : Service} {msg : AggregatorMsg} {rest : List AggregatorMsg}
      (across : Across sys sys') (next : sys.inFlight = msg :: rest)
      (handle : Aggregator.handle ledgerEnv msg sys.aggregator = .ok () sys'.aggregator)
      (received : sys'.received = sys.received + 1) (stage : sys'.stage = sys.stage)
      (unreturned : sys'.unreturned = sys.unreturned) :
      Effect P env ledgerEnv sys .deliver sys'
  | failed {sys' : Service} {msg : AggregatorMsg} {rest : List AggregatorMsg}
      {e : AggregatorError} (across : Across sys sys') (next : sys.inFlight = msg :: rest)
      (handle : Aggregator.handle ledgerEnv msg sys.aggregator = .error e sys'.aggregator)
      (received : sys'.received = sys.received + 1)
      (unreturned : sys'.unreturned = sys.unreturned ++ [msg]) :
      Effect P env ledgerEnv sys .deliver sys'
  | turned {turn : Turn} {sys' : Service} (across : Across sys sys')
      (received : sys'.received = sys.received) (aggregator : sys'.aggregator = sys.aggregator)
      (unreturned : sys'.unreturned = sys.unreturned) (empty : sys.inFlight = []) :
      Effect P env ledgerEnv sys turn sys'
  | restarted : Effect P env ledgerEnv sys .restart sys.restart

section Effects

variable {P : Processor} {env : DbEnv} {ledgerEnv : LedgerEnv} {sys sys' : Service}

theorem sentByCall_of_channel {w : World Store AggregatorMsg}
    (h : w.channel = sys.world.channel) : ({ sys with world := w } : Service).sentByCall =
      sys.sentByCall := by
  simp only [sentByCall, mark, h]

theorem effect_call {job : Job} (h : sys.call P env job = some sys') :
    Effect P env ledgerEnv sys (.call job) sys' := by
  unfold Service.call at h
  split at h
  · next hfree =>
      have hidle : sys.writing = none := by
        rw [Bool.and_eq_true, Option.isNone_iff_eq_none] at hfree
        exact hfree.2
      split at h
      · next db w hbegin =>
          cases h
          obtain ⟨rfl, rfl⟩ := begin_ok hbegin
          exact .opened ⟨rfl, rfl, rfl, rfl⟩ hidle rfl rfl rfl rfl
      · next e w hbegin =>
          cases h
          have hop : (Op.sql .ok : ProcessorOp).run env.faults sys.world.store sys.world =
              .error e w := hbegin
          obtain ⟨hstore, hchannel⟩ := Op.run_error hop
          exact .pause ⟨rfl, rfl, rfl, rfl⟩ hstore hchannel rfl rfl
  · cases h

theorem effect_rolledBack {w : World Store AggregatorMsg} {turn : Turn}
    (hstore : w.store = sys.world.store) (hchannel : w.channel = sys.world.channel) :
    Effect P env ledgerEnv sys turn ({ sys with world := w } : Service).abandon := by
  refine .abandoned ⟨rfl, rfl, rfl, rfl⟩ hstore hchannel rfl ?_
  change sys.stray ++ _ = _
  rw [sentByCall_of_channel hchannel]

theorem effect_advance (h : sys.advance env = some sys') :
    Effect P env ledgerEnv sys .advance sys' := by
  unfold Service.advance at h
  split at h
  · next db op rest since hopen =>
      split at h
      · next db' w hop =>
          cases h
          obtain ⟨happly, hstore, hchannel⟩ := Op.run_ok hop
          exact .advanced ⟨rfl, rfl, rfl, rfl⟩ hopen happly hstore hchannel rfl rfl
      · next e w hop =>
          cases h
          obtain ⟨hstore, hchannel⟩ := Op.run_error hop
          exact effect_rolledBack hstore hchannel
  · cases h

theorem effect_commit (h : sys.commit env = some sys') :
    Effect P env ledgerEnv sys .commit sys' := by
  unfold Service.commit at h
  split at h
  · next db since hopen =>
      split at h
      · next w hcommit =>
          cases h
          obtain ⟨hstore, hchannel⟩ := commit_ok hcommit
          exact .committed ⟨rfl, rfl, rfl, rfl⟩ hopen hstore hchannel rfl rfl
      · next e w hcommit =>
          cases h
          rcases bind_eq_error.mp hcommit with hsql | ⟨_, _, _, hpublish⟩
          · have hop : (Op.sql .ok : ProcessorOp).run (faults env sys) db sys.world =
                .error e w := hsql
            obtain ⟨hstore, hchannel⟩ := Op.run_error hop
            exact effect_rolledBack hstore hchannel
          · cases hpublish
  · cases h

theorem effect_deliver (h : sys.deliver ledgerEnv = some sys') :
    Effect P env ledgerEnv sys .deliver sys' := by
  unfold Service.deliver at h
  split at h
  · cases h
  · next msg rest hnext =>
      split at h
      · cases h
      · split at h
        · next agg hhandle =>
            cases h
            exact .handled ⟨rfl, rfl, rfl, rfl⟩ hnext hhandle rfl rfl rfl
        · next e agg hhandle =>
            cases h
            exact .failed ⟨rfl, rfl, rfl, rfl⟩ hnext hhandle rfl rfl

/-- Every turn has one of the effects. -/
theorem step_effect {turn : Turn} (h : sys.step P env ledgerEnv turn = some sys') :
    Effect P env ledgerEnv sys turn sys' := by
  cases turn with
  | call job => exact effect_call h
  | advance => exact effect_advance h
  | commit => exact effect_commit h
  | elapse clock =>
      simp only [step, Service.elapse] at h
      split at h
      · cases h
        exact .pause ⟨rfl, rfl, rfl, rfl⟩ rfl rfl rfl rfl
      · cases h
  | deliver => exact effect_deliver h
  | drop =>
      simp only [step] at h
      split at h
      · cases h
        exact .abandoned ⟨rfl, rfl, rfl, rfl⟩ rfl rfl rfl rfl
      · cases h
  | terminate =>
      simp only [step] at h
      split at h
      · cases h
        exact .abandoned ⟨rfl, rfl, rfl, rfl⟩ rfl rfl rfl rfl
      · cases h
  | notify =>
      simp only [step, notify] at h
      split at h
      · next hidle =>
          cases h
          exact .turned ⟨rfl, rfl, rfl, rfl⟩ rfl rfl rfl hidle.2
      · cases h
  | finish =>
      simp only [step, finish] at h
      split at h
      · next hidle =>
          cases h
          exact .turned ⟨rfl, rfl, rfl, rfl⟩ rfl rfl rfl hidle.2.1
      · cases h
  | restart =>
      cases h
      exact .restarted

theorem deliver_stage (hstep : sys.deliver ledgerEnv = some sys') : sys.stage ≠ .stopped ∧
    Across sys sys' ∧ ∃ msg rest, sys.inFlight = msg :: rest ∧ sys'.inFlight = rest ∧
      (sys'.stage = sys.stage ∨ sys'.stage = .stopped ∧
        sys'.unreturned = sys.unreturned ++ [msg]) := by
  unfold Service.deliver at hstep
  split at hstep
  · cases hstep
  · next msg rest hnext =>
      have hdrop : sys.world.channel.drop sys.received = msg :: rest := hnext
      have hrest : sys.world.channel.drop (sys.received + 1) = rest := by
        rw [← List.drop_drop, hdrop]
        rfl
      split at hstep
      · cases hstep
      · next hstage =>
          split at hstep
          · cases hstep
            exact ⟨hstage, ⟨rfl, rfl, rfl, rfl⟩, msg, rest, hnext, hrest, .inl rfl⟩
          · cases hstep
            refine ⟨hstage, ⟨rfl, rfl, rfl, rfl⟩, msg, rest, hnext, hrest, ?_⟩
            split
            · next hdrain =>
                rw [Bool.and_eq_true, decide_eq_true_eq] at hdrain
                exact .inl hdrain.1.symm
            · exact .inr ⟨rfl, rfl⟩

end Effects

end Service

/-- The call has run the first part of its script on its copy of the tables and has sent the
messages of that part. `A` says what is known of the calls of the run. -/
structure OpenCall.Follows (P : Processor) (env : DbEnv) (A : Job → Store → Prop)
    (c : OpenCall) (store : Store) (channel : List AggregatorMsg) : Prop where
  since : c.since ≤ channel.length
  script : ∃ job pre, ∃ w : World Store AggregatorMsg, w.store = store ∧ A job store ∧
    job.ops P env w = pre ++ c.ops ∧ apply pre store = .ok c.db ∧
    channel.drop c.since = messages pre

section Follows

variable {P : Processor} {env : DbEnv} {A : Job → Store → Prop}

theorem OpenCall.Follows.advanced {db db' : Store} {op : ProcessorOp} {rest : List ProcessorOp}
    {since : Nat} {store : Store} {channel : List AggregatorMsg}
    (h : OpenCall.Follows P env A ⟨db, op :: rest, since⟩ store channel)
    (happly : op.apply db = .ok db') :
    OpenCall.Follows P env A ⟨db', rest, since⟩ store (channel ++ op.message.toList) := by
  obtain ⟨job, pre, w, hw, hA, hops, hpre, hsent⟩ := h.script
  refine ⟨?_, job, pre ++ [op], w, hw, hA, by rw [hops, List.append_assoc]; rfl, ?_, ?_⟩
  · rw [List.length_append]
    exact Nat.le_trans h.since (Nat.le_add_right _ _)
  · rw [apply_append, hpre]
    exact apply_cons_ok.mpr ⟨db', happly, rfl⟩
  · rw [List.drop_append_of_le_length h.since, hsent, messages_append, messages_cons, messages_nil,
      List.append_nil]

/-- A call whose script is done has the effect and has sent the messages of the whole of it. -/
theorem OpenCall.Follows.done {db : Store} {since : Nat} {store : Store}
    {channel : List AggregatorMsg} (h : OpenCall.Follows P env A ⟨db, [], since⟩ store channel) :
    ∃ job, ∃ w : World Store AggregatorMsg, w.store = store ∧ A job store ∧
      apply (job.ops P env w) w.store = .ok db ∧
      channel.drop since = messages (job.ops P env w) := by
  obtain ⟨job, pre, w, hw, hA, hops, hpre, hsent⟩ := h.script
  have hwhole : job.ops P env w = pre := hops.trans (List.append_nil pre)
  exact ⟨job, w, hw, hA, by rw [hwhole, hw]; exact hpre, by rw [hwhole]; exact hsent⟩

end Follows

namespace Service

structure Underway (P : Processor) (env : DbEnv) (A : Job → Store → Prop) (sys : Service) :
    Prop where
  received : sys.received ≤ sys.world.channel.length
  call : ∀ c, sys.writing = some c → c.Follows P env A sys.world.store sys.world.channel

section Underway

variable {P : Processor} {env : DbEnv} {ledgerEnv : LedgerEnv} {A : Job → Store → Prop}
variable {sys sys' : Service} {turn : Turn}

theorem mark_of_idle (h : sys.writing = none) : sys.mark = sys.world.channel.length := by
  rw [mark, h]
  rfl

theorem mark_of_open {c : OpenCall} (h : sys.writing = some c) : sys.mark = c.since := by
  rw [mark, h]
  rfl

theorem sentByCall_of_idle (h : sys.writing = none) : sys.sentByCall = [] := by
  rw [sentByCall, mark_of_idle h]
  exact List.drop_length

theorem Underway.effect (h : Underway P env A sys) (heffect : Effect P env ledgerEnv sys turn sys')
    (hcall : ∀ job, turn = .call job → A job sys.world.store) : Underway P env A sys' := by
  cases heffect with
  | pause beside store channel writing stray =>
      refine ⟨?_, ?_⟩
      · rw [beside.received, channel]
        exact h.received
      · rw [writing, store, channel]
        exact h.call
  | @opened job _ beside idle store channel writing stray =>
      refine ⟨?_, ?_⟩
      · rw [beside.received, channel]
        exact h.received
      · intro c hc
        rw [writing] at hc
        cases hc
        rw [store, channel]
        exact ⟨Nat.le_refl _, job, [], sys.world, rfl, hcall job rfl, rfl, rfl,
          List.drop_length⟩
  | advanced beside before happly store channel writing stray =>
      refine ⟨?_, ?_⟩
      · rw [beside.received, channel, List.length_append]
        exact Nat.le_trans h.received (Nat.le_add_right _ _)
      · intro c hc
        rw [writing] at hc
        cases hc
        rw [store, channel]
        exact (h.call _ before).advanced happly
  | committed beside before store channel writing stray =>
      refine ⟨?_, ?_⟩
      · rw [beside.received, channel]
        exact h.received
      · rw [writing]
        exact nofun
  | abandoned beside store channel writing stray =>
      refine ⟨?_, ?_⟩
      · rw [beside.received, channel]
        exact h.received
      · rw [writing]
        exact nofun
  | handled across next handle received stage unreturned =>
      have hlt : sys.received < sys.world.channel.length := by
        have hne : sys.inFlight ≠ [] := by rw [next]; exact List.cons_ne_nil _ _
        rwa [inFlight, Ne, List.drop_eq_nil_iff, Nat.not_le] at hne
      exact ⟨by rw [received, across.world]; exact hlt, by
        rw [across.writing, across.world]; exact h.call⟩
  | failed across next handle received unreturned =>
      have hlt : sys.received < sys.world.channel.length := by
        have hne : sys.inFlight ≠ [] := by rw [next]; exact List.cons_ne_nil _ _
        rwa [inFlight, Ne, List.drop_eq_nil_iff, Nat.not_le] at hne
      exact ⟨by rw [received, across.world]; exact hlt, by
        rw [across.writing, across.world]; exact h.call⟩
  | turned across received aggregator unreturned empty =>
      exact ⟨by rw [received, across.world]; exact h.received, by
        rw [across.writing, across.world]; exact h.call⟩
  | restarted => exact ⟨Nat.le_refl _, nofun⟩

theorem underway_new (P : Processor) (env : DbEnv) (A : Job → Store → Prop) :
    Underway P env A new := ⟨Nat.le_refl 0, nofun⟩

end Underway

end Service

end BtcIndexer
