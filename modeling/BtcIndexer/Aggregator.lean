import BtcIndexer.Outbox
import BtcIndexer.Ledger

/-! The aggregator: it books the events of the channel one by one, withholds coinbase events
until they are 100 blocks old, and books inverse entries when it is told of a reorganisation. -/
namespace BtcIndexer
open Stateful Outbox Rows

inductive AggregatorError where
  | sqlx (e : SqlxError)
  | panic (text : String)
  deriving DecidableEq, Repr

/-- An `Err` that a caller may ignore, which a panic is not. -/
def AggregatorError.ignorable : AggregatorError → Bool
  | .sqlx _ => true
  | .panic _ => false

/-- What surrounds the aggregator: the calls that fail, the time (in nanoseconds) at each
tick, and the orders in which the database returns rows that nobody asked to be sorted. -/
structure LedgerEnv where
  sqlFails : Nat → Bool
  now : Nat → Nat
  sinceOrder : Nat → ScanOrder P2trEventRow
  pullOrder : Nat → ScanOrder BtcP2trEvent

/-- The aggregator sends on no channel. -/
def LedgerEnv.faults (env : LedgerEnv) : Faults AggregatorError where
  sql := env.sqlFails
  closed := fun _ => false
  fault := fun _ => .sqlx .io
  gone := .panic "no channel"

def LedgerEnv.calm : LedgerEnv where
  sqlFails := fun _ => false
  now := fun t => t
  sinceOrder := fun _ => ScanOrder.asStored _
  pullOrder := fun _ => ScanOrder.asStored _

/-- Minutes, seconds and nanoseconds set to zero. -/
def currentHour (now : Nat) : Nat := now - now % (3600 * 1000000000)

abbrev LedgerM (α : Type) := Session Ledger AggregatorError Empty α

/-- `handled` lists the events whose own transaction has committed, for statements about
runs; nothing reads it. -/
structure Aggregator where
  world : World Ledger Empty
  lastBlockNumber : Nat
  handled : List BtcP2trEvent

abbrev AggregatorM (α : Type) := EStateM AggregatorError Aggregator α

namespace Aggregator

def new (world : World Ledger Empty) : Aggregator := ⟨world, 0, []⟩

abbrev ledger (agg : Aggregator) : Ledger := agg.world.store

def lift {α : Type} (x : LedgerM α) : AggregatorM α := fun agg =>
  match x agg.world with
  | .ok a w => .ok a { agg with world := w }
  | .error e w => .error e { agg with world := w }

def setLastBlockNumber (blockNumber : Nat) : AggregatorM Unit :=
  modify (fun agg => { agg with lastBlockNumber := blockNumber })

section Statements

variable (env : LedgerEnv)

def insertPendingEvent (event : BtcP2trEvent) (db : Ledger) : LedgerM Ledger :=
  sql env.faults (fun l => .ok (l.createPendingP2trEvent event)) db

def insertEvent (event : BtcP2trEvent) (db : Ledger) : LedgerM Ledger :=
  sql env.faults (fun l => .ok (l.createP2trEvent event)) db

def updateTotalBalance (event : BtcP2trEvent) (db : Ledger) : LedgerM Ledger := fun w =>
  sql env.faults
    (fun l => .ok (l.incrementBtcBalance event.address event.amount (env.now w.clock))) db w

def updateStatisticBalanceChange (event : BtcP2trEvent) (db : Ledger) : LedgerM Ledger := fun w =>
  sql env.faults
    (fun l => .ok (l.incrementStaticBalances event.address event.amount
      (currentHour (env.now w.clock)) (env.now w.clock))) db w

def bookEvent (event : BtcP2trEvent) (db : Ledger) : LedgerM Ledger := do
  let db ← insertEvent env event db
  let db ← updateTotalBalance env event db
  updateStatisticBalanceChange env event db

def bookEvents : List BtcP2trEvent → Ledger → LedgerM Ledger
  | [], db => pure db
  | event :: rest, db => do
      let db ← bookEvent env event db
      bookEvents rest db

/-- `pull_pending_p2tr_events`: the rows at or below a height, deleted and returned. -/
def pulled (clock blockNum : Nat) (l : Ledger) : List BtcP2trEvent × Ledger :=
  ((env.pullOrder clock).order (l.matured blockNum), l.withhold blockNum)

/-- A coinbase event is withheld, any other is booked. -/
def recordEvent (event : BtcP2trEvent) (db : Ledger) : LedgerM Ledger :=
  if event.isCoinbase then insertPendingEvent env event db else bookEvent env event db

def storeEvent (event : BtcP2trEvent) : LedgerM Unit := do
  let db ← begin env.faults
  let db ← recordEvent env event db
  commit env.faults db

def bookPulled (events : List BtcP2trEvent) : LedgerM Unit := do
  let db ← begin env.faults
  let db ← bookEvents env events db
  commit env.faults db

/-- The rows are pulled on the pool, outside the transaction that books them. -/
def sweep (blockNum : Nat) : LedgerM Unit := do
  let events ← fun w => execute env.faults (pulled env w.clock blockNum) w
  if events.isEmpty then pure () else bookPulled env events

/-- The transaction of a reorganisation, with the new last block number. -/
def storeReorg (blockNumber : Nat) : LedgerM Nat := do
  let db ← begin env.faults
  let rows ← fun w => query env.faults
    (fun l => .ok ((env.sinceOrder w.clock).order (l.p2trEventsSinceBlock blockNumber))) db w
  match rows.getLast? with
  | none => throw (.panic "called `Option::unwrap()` on a `None` value")
  | some last => do
      let db ← bookEvents env (rows.map (fun r => r.toEvent.reorg)) db
      let pull ← fun w => query env.faults
        (fun l => .ok (pulled env w.clock last.blockNumber l)) db w
      commit env.faults pull.2
      pure last.blockNumber

end Statements

def commitPendingEvents (env : LedgerEnv) : AggregatorM Unit := do
  let agg ← get
  if agg.lastBlockNumber < 100 then pure ()
  else lift (sweep env (agg.lastBlockNumber - 100))

def handleEvent (env : LedgerEnv) (event : BtcP2trEvent) : AggregatorM Unit := do
  lift (storeEvent env event)
  modify (fun agg => { agg with handled := agg.handled ++ [event] })
  let agg ← get
  if agg.lastBlockNumber < event.blockNumber then do
    setLastBlockNumber event.blockNumber
    commitPendingEvents env
  else pure ()

def handleReorg (env : LedgerEnv) (blockNumber : Nat) : AggregatorM Unit := do
  let lastBlockNumber ← lift (storeReorg env blockNumber)
  setLastBlockNumber lastBlockNumber

def handle (env : LedgerEnv) : AggregatorMsg → AggregatorM Unit
  | .event event => handleEvent env event
  | .reorg blockNumber => handleReorg env blockNumber

/-- The loop over the channel. The first error ends it. -/
def start (env : LedgerEnv) : List AggregatorMsg → AggregatorM Unit
  | [] => pure ()
  | msg :: rest => do
      handle env msg
      start env rest

/-- The drain after a shutdown. Errors are passed over. -/
def cleanup (env : LedgerEnv) : List AggregatorMsg → AggregatorM Unit
  | [] => pure ()
  | msg :: rest => do
      retrying AggregatorError.ignorable (handle env msg)
      cleanup env rest

end Aggregator

end BtcIndexer
