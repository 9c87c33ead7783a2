import BtcIndexer.Types
import BtcIndexer.Rows

/-! The tables that the harvester writes, with the keys and references of the schema as
fields, and the statements on them. A hash is stored as its value: the hexadecimal texts of
the columns, and the `id` column (the text `txid:vout` of its own row), name the same thing. -/
namespace BtcIndexer
open Rows

structure BlockRow where
  hash : BlockHash
  number : Nat
  previousHash : Option BlockHash
  timestamp : Nat
  nonce : Nat
  version : Int
  deriving DecidableEq, Repr

structure TransactionRow where
  txid : Txid
  blockHash : BlockHash
  transactionIndex : Nat
  lockTime : Nat
  isCoinbase : Bool
  version : Int
  deriving DecidableEq, Repr

structure UtxoRow where
  address : Address
  txid : Txid
  vout : Nat
  amount : Int
  blockNumber : Nat
  spentBlock : Option Nat
  deriving DecidableEq, Repr

def UtxoRow.outPoint (row : UtxoRow) : OutPoint := ⟨row.txid, row.vout⟩

def UtxoRow.toInfo (row : UtxoRow) : BtcUtxoInfo :=
  ⟨row.address, row.txid, row.vout, row.amount, row.blockNumber, row.spentBlock⟩

@[simp] theorem UtxoRow.getOutPoint_toInfo (row : UtxoRow) :
    row.toInfo.getOutPoint = row.outPoint := rfl

/-- The three tables together with what the schema enforces on them. -/
@[ext] structure Store where
  blocks : List BlockRow
  transactions : List TransactionRow
  utxos : List UtxoRow
  hashKey : Keyed BlockRow.hash blocks
  numberKey : Keyed BlockRow.number blocks
  txidKey : Keyed TransactionRow.txid transactions
  outPointKey : Keyed UtxoRow.outPoint utxos
  blockRef : ∀ t ∈ transactions, t.blockHash ∈ blocks.map BlockRow.hash
  txidRef : ∀ u ∈ utxos, u.txid ∈ transactions.map TransactionRow.txid

namespace Store

def empty : Store where
  blocks := []
  transactions := []
  utxos := []
  hashKey := Keyed.nil _
  numberKey := Keyed.nil _
  txidKey := Keyed.nil _
  outPointKey := Keyed.nil _
  blockRef := by simp
  txidRef := by simp

structure Same (s s' : Store) : Prop where
  blocks : s.blocks.Perm s'.blocks
  transactions : s.transactions.Perm s'.transactions
  utxos : s.utxos.Perm s'.utxos

def getLatestBlockNum (s : Store) : Option Nat := (s.blocks.map BlockRow.number).max?

def hasBlock (s : Store) (hash : BlockHash) : Bool := decide (hash ∈ s.blocks.map BlockRow.hash)

/-- `spent_block IS NULL AND id = ANY($1)`. -/
def relevantRows (s : Store) (utxos : List OutPoint) : List UtxoRow :=
  s.utxos.filter (fun u => u.spentBlock.isNone && decide (u.outPoint ∈ utxos))

def getRelevantUtxos (s : Store) (utxos : List OutPoint) : List BtcUtxoInfo :=
  (s.relevantRows utxos).map UtxoRow.toInfo

/-- `ON CONFLICT DO NOTHING` covers both unique columns, the hash and the number. -/
def upsertBlock (s : Store) (row : BlockRow) : Store :=
  if h : row.hash ∈ s.blocks.map BlockRow.hash ∨ row.number ∈ s.blocks.map BlockRow.number then s
  else
    { s with
      blocks := s.blocks ++ [row]
      hashKey := s.hashKey.snoc fun hc => h (.inl hc)
      numberKey := s.numberKey.snoc fun hc => h (.inr hc)
      blockRef := fun t ht => by
        rw [List.map_append]
        exact List.mem_append_left _ (s.blockRef t ht) }

/-- The conflict branch sets `block_hash` and keeps every other column of the old row. -/
def repoint (txid : Txid) (hash : BlockHash) (t : TransactionRow) : TransactionRow :=
  if t.txid = txid then { t with blockHash := hash } else t

@[simp] theorem repoint_txid (txid : Txid) (hash : BlockHash) (t : TransactionRow) :
    (repoint txid hash t).txid = t.txid := by
  unfold repoint
  split <;> rfl

theorem map_repoint_txid (txid : Txid) (hash : BlockHash) (ts : List TransactionRow) :
    (ts.map (repoint txid hash)).map TransactionRow.txid = ts.map TransactionRow.txid := by
  simp only [List.map_map, Function.comp_def, repoint_txid]

theorem upsertBlock_utxos (s : Store) (row : BlockRow) : (s.upsertBlock row).utxos = s.utxos := by
  unfold upsertBlock
  split <;> rfl

theorem upsertBlock_transactions (s : Store) (row : BlockRow) :
    (s.upsertBlock row).transactions = s.transactions := by
  unfold upsertBlock
  split <;> rfl

theorem upsertBlock_of_fresh {s : Store} (row : BlockRow)
    (hh : row.hash ∉ s.blocks.map BlockRow.hash) (hn : row.number ∉ s.blocks.map BlockRow.number) :
    (s.upsertBlock row).blocks = s.blocks ++ [row] := by
  unfold upsertBlock
  rw [dif_neg (by rintro (h | h); exacts [hh h, hn h])]

theorem upsertBlock_of_mem {s : Store} (row : BlockRow)
    (h : row.hash ∈ s.blocks.map BlockRow.hash) : s.upsertBlock row = s := by
  unfold upsertBlock
  rw [dif_pos (.inl h)]

def upsertTransaction (s : Store) (row : TransactionRow) : Except SqlxError Store :=
  if hb : row.blockHash ∈ s.blocks.map BlockRow.hash then
    if h : row.txid ∈ s.transactions.map TransactionRow.txid then
      .ok { s with
        transactions := s.transactions.map (repoint row.txid row.blockHash)
        txidKey := s.txidKey.update (repoint_txid _ _)
        blockRef := fun t ht => by
          obtain ⟨old, hold, rfl⟩ := List.mem_map.mp ht
          unfold repoint
          split
          · exact hb
          · exact s.blockRef old hold
        txidRef := fun u hu => by
          rw [map_repoint_txid]
          exact s.txidRef u hu }
    else
      .ok { s with
        transactions := s.transactions ++ [row]
        txidKey := s.txidKey.snoc h
        blockRef := fun t ht => by
          rcases List.mem_append.mp ht with ht | ht
          · exact s.blockRef t ht
          · rw [List.mem_singleton.mp ht]; exact hb
        txidRef := fun u hu => by
          rw [List.map_append]
          exact List.mem_append_left _ (s.txidRef u hu) }
  else .error .foreignKeyViolation

def createUtxo (s : Store) (row : UtxoRow) : Except SqlxError Store :=
  if hk : row.outPoint ∈ s.utxos.map UtxoRow.outPoint then .error .uniqueViolation
  else if ht : row.txid ∈ s.transactions.map TransactionRow.txid then
    .ok { s with
      utxos := s.utxos ++ [row]
      outPointKey := s.outPointKey.snoc hk
      txidRef := fun u hu => by
        rcases List.mem_append.mp hu with hu | hu
        · exact s.txidRef u hu
        · rw [List.mem_singleton.mp hu]; exact ht }
  else .error .foreignKeyViolation

theorem upsertTransaction_ok {s s' : Store} {row : TransactionRow}
    (h : s.upsertTransaction row = .ok s') :
    s'.blocks = s.blocks ∧ s'.utxos = s.utxos ∧
      s'.transactions = if row.txid ∈ s.transactions.map TransactionRow.txid
        then s.transactions.map (repoint row.txid row.blockHash) else s.transactions ++ [row] := by
  unfold upsertTransaction at h
  split at h
  · split at h
    · next hin => cases h; exact ⟨rfl, rfl, by rw [if_pos hin]⟩
    · next hin => cases h; exact ⟨rfl, rfl, by rw [if_neg hin]⟩
  · cases h

theorem upsertTransaction_of_ref {s : Store} (row : TransactionRow)
    (h : row.blockHash ∈ s.blocks.map BlockRow.hash) : ∃ s', s.upsertTransaction row = .ok s' := by
  unfold upsertTransaction
  rw [dif_pos h]
  split <;> exact ⟨_, rfl⟩

theorem createUtxo_ok {s s' : Store} {row : UtxoRow} (h : s.createUtxo row = .ok s') :
    row.outPoint ∉ s.utxos.map UtxoRow.outPoint ∧ s'.blocks = s.blocks ∧
      s'.transactions = s.transactions ∧ s'.utxos = s.utxos ++ [row] := by
  unfold createUtxo at h
  split at h
  · cases h
  · next hk =>
      split at h
      · cases h; exact ⟨hk, rfl, rfl, rfl⟩
      · cases h

theorem createUtxo_of_fresh {s : Store} {row : UtxoRow}
    (hk : row.outPoint ∉ s.utxos.map UtxoRow.outPoint)
    (ht : row.txid ∈ s.transactions.map TransactionRow.txid) :
    ∃ s', s.createUtxo row = .ok s' := by
  unfold createUtxo
  rw [dif_neg hk, dif_pos ht]
  exact ⟨_, rfl⟩

def remark (s : Store) (mark : UtxoRow → Option Nat) : Store :=
  { s with
    utxos := s.utxos.map (fun u => { u with spentBlock := mark u })
    outPointKey := s.outPointKey.update fun _ => rfl
    txidRef := fun u hu => by
      obtain ⟨old, hold, rfl⟩ := List.mem_map.mp hu
      exact s.txidRef old hold }

def spendUtxo (s : Store) (txid : Txid) (vout : Nat) (blockNum : Nat) : Except SqlxError Store :=
  if (⟨txid, vout⟩ : OutPoint) ∈ s.utxos.map UtxoRow.outPoint then
    .ok (s.remark fun u => if u.txid = txid ∧ u.vout = vout then some blockNum else u.spentBlock)
  else .error .rowNotFound

def markSpent (outPoint : OutPoint) (blockNum : Nat) (u : UtxoRow) : UtxoRow :=
  if u.outPoint = outPoint then { u with spentBlock := some blockNum } else u

theorem spendUtxo_ok {s s' : Store} {txid : Txid} {vout blockNum : Nat}
    (h : s.spendUtxo txid vout blockNum = .ok s') :
    s'.blocks = s.blocks ∧ s'.transactions = s.transactions ∧
      s'.utxos = s.utxos.map (markSpent ⟨txid, vout⟩ blockNum) := by
  unfold spendUtxo at h
  split at h
  · cases h
    refine ⟨rfl, rfl, List.map_congr_left fun u _ => ?_⟩
    simp only [markSpent, UtxoRow.outPoint, OutPoint.mk.injEq]
    split <;> rfl
  · cases h

theorem spendUtxo_of_mem {s : Store} {txid : Txid} {vout : Nat} (blockNum : Nat)
    (h : (⟨txid, vout⟩ : OutPoint) ∈ s.utxos.map UtxoRow.outPoint) :
    ∃ s', s.spendUtxo txid vout blockNum = .ok s' := by
  unfold spendUtxo
  rw [if_pos h]
  exact ⟨_, rfl⟩

def clearSince (blockNum : Nat) (mark : Option Nat) : Option Nat :=
  mark.filter (fun spent => decide (spent < blockNum))

def unspendUtxosSpentSinceBlock (s : Store) (blockNum : Nat) : Store :=
  s.remark fun u => clearSince blockNum u.spentBlock

/-- The rows below are removed with the rows they reference: `ON DELETE CASCADE` from blocks
to transactions and from transactions to utxos. -/
def deleteBlocksSince (s : Store) (blockNum : Nat) : Store :=
  let kept := s.blocks.filter (fun b => decide (b.number < blockNum))
  let transactions := s.transactions.filter
    (fun t => decide (t.blockHash ∈ kept.map BlockRow.hash))
  let utxos := s.utxos.filter
    (fun u => decide (u.txid ∈ transactions.map TransactionRow.txid))
  { blocks := kept
    transactions := transactions
    utxos := utxos
    hashKey := s.hashKey.filter _
    numberKey := s.numberKey.filter _
    txidKey := s.txidKey.filter _
    outPointKey := s.outPointKey.filter _
    blockRef := fun _ ht => of_decide_eq_true (List.mem_filter.mp ht).2
    txidRef := fun _ hu => of_decide_eq_true (List.mem_filter.mp hu).2 }

end Store

end BtcIndexer
