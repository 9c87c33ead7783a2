import BtcIndexer.Outbox
import BtcIndexer.Store
import Mathlib.Data.List.AList

/-! The block processor: one database transaction for a block or for a whole fork, with the
events of each transaction sent to the aggregator while the database transaction is open. -/
namespace BtcIndexer
open Stateful Outbox Rows

inductive ProcessorError where
  | rpc (e : RpcError)
  | sqlx (e : SqlxError)
  | addressFromScript
  | anyhow (text : String)
  | panic (text : String)
  /-- No error of the source: the future was dropped while it was awaited. -/
  | interrupted
  deriving DecidableEq, Repr

/-- The library calls the processor relies on, at its own network. -/
structure Processor where
  isP2tr : Script → Bool
  fromScript : Script → Option Address
  timestampOpt : Nat → Option Nat

/-- A taproot script is `OP_1` and a push of the 32 bytes of the output key. -/
def taprootKey (script : Script) : Option (BitVec 256) :=
  match script.bytes with
  | 0x51#8 :: 0x20#8 :: key =>
      if key.length = 32 then some (key.foldl (fun k byte => k <<< 8 ||| byte.setWidth 256) 0)
      else none
  | _ => none

/-- The calls as the libraries answer them. -/
def Processor.mainnet : Processor where
  isP2tr := fun script => (taprootKey script).isSome
  fromScript := fun script => (taprootKey script).map Address.mk
  timestampOpt := some

/-- What surrounds the harvester's work: which database calls fail, at which awaits the
harvester is interrupted, when the aggregator's receiver is gone, and in which order a hash
map is walked. The order is that of the map of one transaction (third index) of one block
(second index) of the call that starts at a tick. -/
structure DbEnv where
  sqlFails : Nat → Bool
  interrupted : Nat → Bool
  receiverGone : Nat → Bool
  hashOrder : Nat → Nat → Nat → ScanOrder (Address × Int)

def DbEnv.faults (env : DbEnv) : Faults ProcessorError where
  sql := fun t => env.interrupted t || env.sqlFails t
  closed := env.receiverGone
  fault := fun t => if env.interrupted t then .interrupted else .sqlx .io
  gone := .panic "send on a closed channel"

def DbEnv.calm : DbEnv where
  sqlFails := fun _ => false
  interrupted := fun _ => false
  receiverGone := fun _ => false
  hashOrder := fun _ _ _ => ScanOrder.asStored _

abbrev ProcessorM (α : Type) := Session Store ProcessorError AggregatorMsg α

/-- A statement that may be refused by a constraint. -/
def refused {α : Type} : Except SqlxError α → Except ProcessorError α := Except.mapError .sqlx

theorem refused_eq_ok {α : Type} {x : Except SqlxError α} {a : α} :
    refused x = .ok a ↔ x = .ok a := by
  cases x <;> simp [refused, Except.mapError]

abbrev BalanceUpdates := AList (fun _ : Address => Int)

def BalanceUpdates.get (updates : BalanceUpdates) (address : Address) : Int :=
  (updates.lookup address).getD 0

def BalanceUpdates.pairs (updates : BalanceUpdates) : List (Address × Int) :=
  updates.entries.map (fun e => (e.1, e.2))

/-- `relevant_utxos` is keyed by the primary key of its rows, so the list of its values
serves as the map. -/
abbrev RelevantUtxos := List BtcUtxoInfo

def RelevantUtxos.get (relevant : RelevantUtxos) (outPoint : OutPoint) : Option BtcUtxoInfo :=
  relevant.find? (fun info => info.getOutPoint = outPoint)

def RelevantUtxos.remove (relevant : RelevantUtxos) (outPoint : OutPoint) : RelevantUtxos :=
  relevant.filter (fun info => info.getOutPoint ≠ outPoint)

namespace Processor

def blockRow (header : Header) (timestamp : Nat) : BlockRow :=
  ⟨header.hash, header.height, header.previousBlockHash, timestamp, header.nonce, header.version⟩

def transactionRow (blockHash : BlockHash) (idx : Nat) (tx : Transaction) : TransactionRow :=
  ⟨tx.txid, blockHash, idx, tx.lockTime, tx.isCoinbase, tx.version⟩

def utxoRow (blockNum : Nat) (txid : Txid) (idx : Nat) (address : Address) (txout : TxOut) :
    UtxoRow := ⟨address, txid, idx, txout.value, blockNum, none⟩

/-- First pass over the transactions of a block. -/
def upsertTransactions (F : Faults ProcessorError) (blockHash : BlockHash) :
    Nat → List Transaction → Store → ProcessorM Store
  | _, [], db => pure db
  | idx, tx :: rest, db => do
      let db ← sql F (fun s => refused (s.upsertTransaction (transactionRow blockHash idx tx))) db
      upsertTransactions F blockHash (idx + 1) rest db

/-- An input whose outpoint is not among the candidates is skipped. -/
def spendInputs (F : Faults ProcessorError) (blockNum : Nat) :
    List TxIn → RelevantUtxos → BalanceUpdates → Store →
      ProcessorM (RelevantUtxos × BalanceUpdates × Store)
  | [], relevant, updates, db => pure (relevant, updates, db)
  | txin :: rest, relevant, updates, db =>
      match relevant.get txin.previousOutput with
      | none => spendInputs F blockNum rest relevant updates db
      | some utxo => do
          let db ← sql F (fun s => refused (s.spendUtxo utxo.txid utxo.vout blockNum)) db
          spendInputs F blockNum rest (relevant.remove txin.previousOutput)
            (updates.insert utxo.owner (-utxo.amount + updates.get utxo.owner)) db

def createOutputs (P : Processor) (F : Faults ProcessorError) (blockNum : Nat) (txid : Txid) :
    Nat → List TxOut → BalanceUpdates → Store → ProcessorM (BalanceUpdates × Store)
  | _, [], updates, db => pure (updates, db)
  | idx, txout :: rest, updates, db =>
      if P.isP2tr txout.scriptPubkey then
        match P.fromScript txout.scriptPubkey with
        | none => throw .addressFromScript
        | some address => do
            let db ← sql F
              (fun s => refused (s.createUtxo (utxoRow blockNum txid idx address txout))) db
            createOutputs P F blockNum txid (idx + 1) rest
              (updates.insert address (updates.get address + txout.value)) db
      else createOutputs P F blockNum txid (idx + 1) rest updates db

def eventOf (blockNum : Nat) (tx : Transaction) (address : Address) (value : Int) :
    BtcP2trEvent :=
  ⟨blockNum, tx.txid, address, value, if value > 0 then .receive else .send, tx.isCoinbase⟩

/-- A zero net change sends nothing. -/
def sendEvents (F : Faults ProcessorError) (blockNum : Nat) (tx : Transaction) :
    List (Address × Int) → ProcessorM Unit
  | [] => pure ()
  | (address, value) :: rest =>
      if value = 0 then sendEvents F blockNum tx rest
      else do
        send F (.event (eventOf blockNum tx address value))
        sendEvents F blockNum tx rest

/-- Second pass: spends, creations and events of one transaction after the other, with the
map of candidates shrinking along the way. -/
def processTxs (P : Processor) (F : Faults ProcessorError)
    (order : Nat → ScanOrder (Address × Int)) (blockNum : Nat) :
    Nat → List Transaction → RelevantUtxos → Store → ProcessorM Store
  | _, [], _, db => pure db
  | i, tx :: rest, relevant, db => do
      let (relevant, updates, db) ← spendInputs F blockNum tx.input relevant ∅ db
      let (updates, db) ← createOutputs P F blockNum tx.txid 0 tx.output updates db
      sendEvents F blockNum tx ((order i).order updates.pairs)
      processTxs P F order blockNum (i + 1) rest relevant db

def processBlock (P : Processor) (F : Faults ProcessorError)
    (order : Nat → ScanOrder (Address × Int)) (block : BlockInfo) (db : Store) :
    ProcessorM Store :=
  match P.timestampOpt block.header.time with
  | none => throw (.anyhow "Invalid timestamp")
  | some timestamp => do
      let db ← sql F (fun s => .ok (s.upsertBlock (blockRow block.header timestamp))) db
      let db ← upsertTransactions F block.header.hash 0 block.txdata db
      let relevant ← query F (fun s => .ok (s.getRelevantUtxos block.outpoints)) db
      processTxs P F order block.header.height 0 block.txdata relevant db

def process (P : Processor) (env : DbEnv) (block : BlockInfo) : ProcessorM Unit := do
  let w ← get
  let db ← begin env.faults
  let db ← processBlock P env.faults (env.hashOrder w.clock 0) block db
  commit env.faults db

def processBlocks (P : Processor) (F : Faults ProcessorError)
    (order : Nat → Nat → ScanOrder (Address × Int)) :
    Nat → List BlockInfo → Store → ProcessorM Store
  | _, [], db => pure db
  | i, block :: rest, db => do
      let db ← processBlock P F (order i) block db
      processBlocks P F order (i + 1) rest db

/-- The list comes from the fork walk with the head first, and is replayed as it comes. -/
def processFork (P : Processor) (env : DbEnv) (forkBlocksReversed : List BlockInfo) :
    ProcessorM Unit := do
  let w ← get
  let db ← begin env.faults
  match forkBlocksReversed.getLast? with
  | none => throw (.panic "checked not empty")
  | some origin => do
      let beginBlockNum := origin.header.height
      let db ← sql env.faults (fun s => .ok (s.deleteBlocksSince beginBlockNum)) db
      let db ← sql env.faults (fun s => .ok (s.unspendUtxosSpentSinceBlock beginBlockNum)) db
      send env.faults (.reorg beginBlockNum)
      let db ← processBlocks P env.faults (env.hashOrder w.clock) 0 forkBlocksReversed db
      commit env.faults db

end Processor

end BtcIndexer
