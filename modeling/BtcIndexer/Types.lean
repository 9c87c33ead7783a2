/-! Domain types of the indexer: the parts of a block that the service reads, the rows it
hands out and the messages between harvester and aggregator. -/
namespace BtcIndexer

structure BlockHash where
  bytes : BitVec 256
  deriving DecidableEq, Repr

structure Txid where
  bytes : BitVec 256
  deriving DecidableEq, Repr

structure Script where
  bytes : List (BitVec 8)
  deriving DecidableEq, Repr

/-- An address of the service's network. Only taproot addresses are ever built, and the
network being fixed, such an address is its output key. -/
structure Address where
  outputKey : BitVec 256
  deriving DecidableEq, Repr

structure OutPoint where
  txid : Txid
  vout : Nat
  deriving DecidableEq, Repr

structure TxIn where
  previousOutput : OutPoint
  deriving DecidableEq, Repr

structure TxOut where
  scriptPubkey : Script
  value : Nat
  deriving DecidableEq, Repr

/-- `txid` and `isCoinbase` are the answers of `compute_txid` and `is_coinbase`. -/
structure Transaction where
  txid : Txid
  isCoinbase : Bool
  version : Int
  lockTime : Nat
  input : List TxIn
  output : List TxOut
  deriving DecidableEq, Repr

/-- The fields of `GetBlockHeaderResult` that the service reads. -/
structure Header where
  hash : BlockHash
  height : Nat
  previousBlockHash : Option BlockHash
  time : Nat
  nonce : Nat
  version : Int
  deriving DecidableEq, Repr

structure BlockInfo where
  header : Header
  txdata : List Transaction
  deriving DecidableEq, Repr

structure BtcUtxoInfo where
  owner : Address
  txid : Txid
  vout : Nat
  amount : Int
  blockNumber : Nat
  spentBlock : Option Nat
  deriving DecidableEq, Repr

def BtcUtxoInfo.getOutPoint (info : BtcUtxoInfo) : OutPoint := ⟨info.txid, info.vout⟩

inductive Action where
  | send
  | receive
  | reorg
  deriving DecidableEq, Repr

structure BtcP2trEvent where
  blockNumber : Nat
  txid : Txid
  address : Address
  amount : Int
  action : Action
  isCoinbase : Bool
  deriving DecidableEq, Repr

/-- The inverse entry that a reorganisation books against an event. -/
def BtcP2trEvent.reorg (event : BtcP2trEvent) : BtcP2trEvent :=
  { event with action := .reorg, amount := event.amount * -1 }

inductive AggregatorMsg where
  | event (event : BtcP2trEvent)
  /-- From the given block number on. -/
  | reorg (blockNumber : Nat)
  deriving DecidableEq, Repr

/-- How a call to the node fails. The service looks at nothing inside. -/
inductive RpcError where
  | reqwest
  | rpcError
  | anyhow
  deriving DecidableEq, Repr

inductive SqlxError where
  | io
  | rowNotFound
  | uniqueViolation
  | foreignKeyViolation
  deriving DecidableEq, Repr

inductive Command where
  | terminate
  | pause
  | scanBlock (first last : Nat)
  | autoScan
  deriving DecidableEq, Repr

/-- The block-wide list of spent outpoints, in the order of the first pass of
`process_block`. -/
def BlockInfo.outpoints (block : BlockInfo) : List OutPoint :=
  block.txdata.flatMap (fun tx => tx.input.map (·.previousOutput))

end BtcIndexer
