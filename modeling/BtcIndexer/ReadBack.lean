import BtcIndexer.RowCodec
import BtcIndexer.Positions
import BtcIndexer.TableDeltas

/-! Reading back what a block has written. The tables are held as cells; the queries pick rows
as before and decode the cells of what they pick. -/
namespace BtcIndexer
open Stateful Outbox Rows Columns

/-- The tables as the database holds them: numbers are machine numbers, texts fit their columns. -/
structure StoreImage (T : TextForms) (s : Store) where
  blocks : Image (fun (row : BlockRow) cells => ∃ difficulty, row.cells T difficulty = some cells)
    s.blocks
  transactions : Image (fun (row : TransactionRow) cells => row.cells T = some cells) s.transactions
  utxos : Image (fun (row : UtxoRow) cells => row.cells T = some cells) s.utxos

structure LedgerImage (T : TextForms) (l : Ledger) where
  events : Image (fun (row : P2trEventRow) cells => ∃ number, row.cells T number = some cells)
    l.events
  pending : Image (fun (event : BtcP2trEvent) cells => event.pendingCells T = some cells) l.pending

/-- The database can hold the rows of a store. -/
def Store.Storable (T : TextForms) (s : Store) : Prop :=
  (∀ row ∈ s.blocks, (row.cells T 1).isSome) ∧ (∀ row ∈ s.transactions, (row.cells T).isSome) ∧
    ∀ row ∈ s.utxos, (row.cells T).isSome

instance (T : TextForms) (s : Store) : Decidable (s.Storable T) :=
  inferInstanceAs (Decidable (_ ∧ _))

def Store.Storable.image {T : TextForms} {s : Store} (h : s.Storable T) : StoreImage T s where
  blocks := .ofWrites _ (fun row => row.cells T 1) h.1 fun _ _ hcells => ⟨1, hcells⟩
  transactions := .ofWrites _ (fun row => row.cells T) h.2.1 fun _ _ hcells => hcells
  utxos := .ofWrites _ (fun row => row.cells T) h.2.2 fun _ _ hcells => hcells

namespace StoreImage

variable {T : TextForms} {s : Store} (image : StoreImage T s)

def getBlock (hash : BlockHash) : Except ReadError BtcBlock :=
  image.blocks.fetchOne (fun b => b.hash = hash) (BtcBlock.tryFrom T)

def getTransaction (txid : Txid) : Except ReadError BtcTransaction :=
  image.transactions.fetchOne (fun t => t.txid = txid) (BtcTransaction.tryFrom T)

def getUnspentUtxosByOwner (owner : Address) : Except ReadError (List BtcUtxoInfo) :=
  image.utxos.fetchAll (fun u => u.address = owner ∧ u.spentBlock = none)
    fun cells => BtcUtxoInfo.tryFrom T (selectUtxo cells)

def getRelevantUtxos (utxos : List OutPoint) : Except ReadError (List BtcUtxoInfo) :=
  image.utxos.fetchAll (fun u => u.spentBlock.isNone && decide (u.outPoint ∈ utxos))
    fun cells => BtcUtxoInfo.tryFrom T (selectUtxo cells)

/-- A block with a previous hash reads as what its row says, and any other panics. -/
theorem getBlock_eq {row : BlockRow} (h : row ∈ s.blocks) :
    ∃ difficulty, image.getBlock row.hash = match row.previousHash with
      | none => .error (.panic 2)
      | some previous => .ok ⟨row.hash, row.number, previous, row.timestamp, row.nonce,
          row.version, difficulty⟩ := by
  obtain ⟨cells, ⟨difficulty, hcells⟩, hfetch⟩ :=
    image.blocks.fetchOne_eq (s.hashKey.find?_eq_some_iff.mpr ⟨h, rfl⟩)
  exact ⟨difficulty, (hfetch _).trans (BtcBlock.tryFrom_cells hcells)⟩

theorem getTransaction_eq {row : TransactionRow} (h : row ∈ s.transactions) :
    image.getTransaction row.txid = .ok ⟨row.txid, row.blockHash,
      asUnsigned 64 (asSigned 32 row.transactionIndex), row.lockTime, row.version⟩ := by
  obtain ⟨cells, hcells, hfetch⟩ :=
    image.transactions.fetchOne_eq (s.txidKey.find?_eq_some_iff.mpr ⟨h, rfl⟩)
  exact (hfetch _).trans (BtcTransaction.tryFrom_cells hcells)

theorem fetchUtxos_eq (picks : UtxoRow → Bool) :
    image.utxos.fetchAll picks (fun cells => BtcUtxoInfo.tryFrom T (selectUtxo cells)) =
      .ok ((s.utxos.filter picks).map UtxoRow.toInfo) := by
  obtain ⟨infos, hinfos, hview⟩ := image.utxos.fetchAll_ok picks fun row cells hcells =>
    ⟨row.toInfo, BtcUtxoInfo.tryFrom_cells hcells, id_eq _⟩
  rw [hinfos, ← hview, List.map_id]

theorem getRelevantUtxos_eq (utxos : List OutPoint) :
    image.getRelevantUtxos utxos = .ok (s.getRelevantUtxos utxos) := image.fetchUtxos_eq _

end StoreImage

namespace LedgerImage

variable {T : TextForms} {l : Ledger} (image : LedgerImage T l)

def getP2trEventsSinceBlock (blockNum : Nat) : Except ReadError (List SequencedEvent) :=
  image.events.fetchAll (fun e => blockNum ≤ e.blockNumber)
    fun cells => SequencedEvent.tryFrom T (selectEvent cells)

def pullPendingP2trEvents (blockNum : Nat) : Except ReadError (List SequencedEvent) :=
  image.pending.fetchAll (fun e => e.blockNumber ≤ blockNum)
    fun cells => SequencedEvent.tryFrom T (returningPending cells)

theorem getP2trEventsSinceBlock_eq (blockNum : Nat) :
    ∃ read, image.getP2trEventsSinceBlock blockNum = .ok read ∧
      read.map SequencedEvent.event = (l.p2trEventsSinceBlock blockNum).map P2trEventRow.toEvent :=
  image.events.fetchAll_ok _ fun row _ ⟨sequenceId, hcells⟩ =>
    ⟨⟨sequenceId, row.toEvent⟩, SequencedEvent.tryFrom_cells hcells, rfl⟩

theorem pullPendingP2trEvents_eq (blockNum : Nat) :
    ∃ read, image.pullPendingP2trEvents blockNum = .ok read ∧
      read.map SequencedEvent.event = (l.matured blockNum).map id :=
  image.pending.fetchAll_ok _ fun event _ hcells =>
    ⟨⟨0, event⟩, SequencedEvent.tryFrom_pendingCells hcells, rfl⟩

end LedgerImage

/-- The upsert of the transaction at this index takes its insert branch. -/
def BlockInfo.Inserts (block : BlockInfo) (rows : List TransactionRow) (idx : Nat)
    (tx : Transaction) : Prop :=
  tx.txid ∉ rows.map TransactionRow.txid ∧
    tx.txid ∉ (block.txdata.take idx).map Transaction.txid

/-- An index that `as i32` and `as usize` bring back. -/
def KeptAsI32 (idx : Nat) : Prop := idx < 2 ^ 31 ∨ 2 ^ 64 - 2 ^ 31 ≤ idx ∧ idx < 2 ^ 64

theorem keptAsI32_iff {idx : Nat} : asUnsigned 64 (asSigned 32 idx) = idx ↔ KeptAsI32 idx := by
  unfold asUnsigned asSigned KeptAsI32
  rw [Int.bmod_def]
  split <;> omega

namespace Processor

theorem repoint_self (txid : Txid) (t : TransactionRow) : Store.repoint txid t.blockHash t = t := by
  unfold Store.repoint
  split <;> rfl

theorem indexTransactions_self {blockHash : BlockHash} {idx : Nat} {txs : List Transaction}
    {rows : List TransactionRow} {t : TransactionRow} (ht : t ∈ rows)
    (hhash : t.blockHash = blockHash) : t ∈ indexTransactions blockHash idx txs rows := by
  induction txs generalizing idx rows with
  | nil => exact ht
  | cons tx rest ih =>
      apply ih
      split
      · exact List.mem_map.mpr ⟨t, ht, hhash ▸ repoint_self tx.txid t⟩
      · exact List.mem_append_left _ ht

/-- A transaction met for the first time gets the row that its statement binds. -/
theorem indexTransactions_inserted {blockHash : BlockHash} {idx i : Nat} {txs : List Transaction}
    {rows : List TransactionRow} {tx : Transaction} (hat : txs[i]? = some tx)
    (hnew : tx.txid ∉ rows.map TransactionRow.txid)
    (hfirst : tx.txid ∉ (txs.take i).map Transaction.txid) :
    transactionRow blockHash (idx + i) tx ∈ indexTransactions blockHash idx txs rows := by
  induction txs generalizing idx i rows with
  | nil => cases hat
  | cons first rest ih =>
      rw [indexTransactions]
      cases i with
      | zero =>
          cases hat
          rw [if_neg hnew]
          exact indexTransactions_self (List.mem_append_right _ (List.mem_singleton.mpr rfl)) rfl
      | succ i =>
          rw [List.take_succ_cons, List.map_cons, List.mem_cons, not_or] at hfirst
          rw [show idx + (i + 1) = idx + 1 + i by omega]
          refine ih hat ?_ hfirst.2
          split
          · rw [Store.map_repoint_txid]
            exact hnew
          · rw [List.map_append, List.mem_append, not_or]
            exact ⟨hnew, fun hmem => hfirst.1 (List.mem_singleton.mp hmem)⟩

/-- The row of the block reads as what was bound to it. -/
def ReadsHeader {T : TextForms} {s : Store} (image : StoreImage T s) (header : Header)
    (timestamp : Nat) : Prop :=
  ∃ b, image.getBlock header.hash = .ok b ∧ b.hash = header.hash ∧ b.number = header.height ∧
    some b.previousHash = header.previousBlockHash ∧ b.timestamp = timestamp ∧
      b.nonce = header.nonce ∧ b.version = header.version

/-- The row of a transaction: the hash is written in any case, the rest if it is inserted. -/
def ReadsTransaction {T : TextForms} {s : Store} (image : StoreImage T s) (block : BlockInfo)
    (rows : List TransactionRow) (idx : Nat) (tx : Transaction) : Prop :=
  ∃ t, image.getTransaction tx.txid = .ok t ∧ t.txid = tx.txid ∧
    t.blockHash = block.header.hash ∧ (block.Inserts rows idx tx →
      t.transactionIndex = idx ∧ t.lockTime = tx.lockTime ∧ t.version = tx.version)

/-- Both queries for unspent outputs have the new one. -/
def ReadsOutput {T : TextForms} {s : Store} (image : StoreImage T s) (u : UtxoRow) : Prop :=
  (∃ infos, image.getUnspentUtxosByOwner u.address = .ok infos ∧ u.toInfo ∈ infos) ∧
    ∀ utxos, u.outPoint ∈ utxos →
      ∃ infos, image.getRelevantUtxos utxos = .ok infos ∧ u.toInfo ∈ infos

/-- The cells of a spent row show the block that has spent it, and neither query has it. -/
def ReadsSpend {T : TextForms} {s : Store} (image : StoreImage T s) (u : UtxoRow)
    (blockNum : Nat) : Prop :=
  (∃ row cells, (row, cells) ∈ image.utxos.held ∧ row.outPoint = u.outPoint ∧
    BtcUtxoInfo.tryFrom T (selectUtxo cells) =
      .ok { u.toInfo with spentBlock := some blockNum }) ∧
    (∃ infos, image.getUnspentUtxosByOwner u.address = .ok infos ∧
      u.outPoint ∉ infos.map BtcUtxoInfo.getOutPoint) ∧
    ∀ utxos, ∃ infos, image.getRelevantUtxos utxos = .ok infos ∧
      u.outPoint ∉ infos.map BtcUtxoInfo.getOutPoint

/-- An event reads as itself from either table into which it is put. The events that have been
booked have no column for the flag, which matters only before. -/
def ReadsEvent (T : TextForms) (e : BtcP2trEvent) : Prop :=
  (∀ l (image : LedgerImage T (Ledger.createPendingP2trEvent l e)) (blockNum : Nat),
    e.blockNumber ≤ blockNum → ∃ read, image.pullPendingP2trEvents blockNum = .ok read ∧
      e ∈ read.map SequencedEvent.event) ∧
    ∀ l (image : LedgerImage T (Ledger.createP2trEvent l e)) (blockNum : Nat),
      blockNum ≤ e.blockNumber → ∃ read, image.getP2trEventsSinceBlock blockNum = .ok read ∧
        { e with isCoinbase := false } ∈ read.map SequencedEvent.event

/-- Everything that a block has written reads back as it was written. -/
structure ReadsBack (T : TextForms) (P : Processor) (block : BlockInfo) (timestamp : Nat)
    (db : Store) (sent : List AggregatorMsg) {db' : Store} (image : StoreImage T db') : Prop where
  header : ReadsHeader image block.header timestamp
  transactions : ∀ idx tx, block.txdata[idx]? = some tx →
    ReadsTransaction image block db.transactions idx tx
  outputs : ∀ u ∈ P.created block, ReadsOutput image u
  spends : ∀ u ∈ db.utxos, u.spentBlock = none → u.outPoint ∈ block.outpoints →
    ReadsSpend image u block.header.height
  events : ∀ e, .event e ∈ sent → ReadsEvent T e

section Reads

variable {T : TextForms} {P : Processor} {block : BlockInfo} {db db' : Store}

/-- The row of a transaction after the block: its hash column, and all of it if it is new. -/
theorem Indexed.transaction_row (h : P.Indexed block db db') {idx : Nat} {tx : Transaction}
    (hat : block.txdata[idx]? = some tx) :
    ∃ row ∈ db'.transactions, row.txid = tx.txid ∧ row.blockHash = block.header.hash ∧
      (block.Inserts db.transactions idx tx → row = transactionRow block.header.hash idx tx) := by
  have hmem : tx.txid ∈ block.txdata.map Transaction.txid :=
    List.mem_map_of_mem (List.mem_of_getElem? hat)
  have hrow : tx.txid ∈ db'.transactions.map TransactionRow.txid := by
    rw [h.transactions]
    exact mem_indexTransactions.mpr (.inr hmem)
  obtain ⟨row, hrow, hid⟩ := List.mem_map.mp hrow
  refine ⟨row, hrow, hid, ?_, fun hinserts => ?_⟩
  · rw [h.transactions] at hrow
    exact indexTransactions_named hmem row hrow hid
  · have hnew : transactionRow block.header.hash (0 + idx) tx ∈
        indexTransactions block.header.hash 0 block.txdata db.transactions :=
      indexTransactions_inserted hat hinserts.1 hinserts.2
    rw [Nat.zero_add, ← h.transactions] at hnew
    exact db'.txidKey.eq_of_key hrow hnew hid

theorem Indexed.created_mem (h : P.Indexed block db db') {u : UtxoRow}
    (hu : u ∈ P.created block) : u ∈ db'.utxos ∧ u.spentBlock = none := by
  refine ⟨?_, (mem_created hu).2.2.1⟩
  rw [h.utxos]
  exact List.mem_append_right _ hu

theorem Indexed.spent_mem (h : P.Indexed block db db') {u : UtxoRow} (hu : u ∈ db.utxos)
    (hnone : u.spentBlock = none) (hnamed : u.outPoint ∈ block.outpoints) :
    ({ u with spentBlock := some block.header.height } : UtxoRow) ∈ db'.utxos := by
  rw [← spendRow_of_mem hnone hnamed, h.utxos]
  exact List.mem_append_left _ (List.mem_map_of_mem hu)

theorem notMem_unspent {s : Store} {row : UtxoRow} (hrow : row ∈ s.utxos)
    (hspent : row.spentBlock ≠ none) {picks : UtxoRow → Bool}
    (hpicks : ∀ u, picks u = true → u.spentBlock = none) :
    row.outPoint ∉ ((s.utxos.filter picks).map UtxoRow.toInfo).map BtcUtxoInfo.getOutPoint := by
  rw [List.map_map]
  intro hmem
  obtain ⟨u, hu, hsame⟩ := List.mem_map.mp hmem
  obtain ⟨hu, hp⟩ := List.mem_filter.mp hu
  have hrowEq : u = row := s.outPointKey.eq_of_key hu hrow hsame
  rw [hrowEq] at hp
  exact hspent (hpicks row hp)

/-- A null in the column of the previous hash is what a block must not have. -/
theorem readsHeader_iff (image : StoreImage T db') {header : Header} {timestamp : Nat}
    (hstored : blockRow header timestamp ∈ db'.blocks) :
    ReadsHeader image header timestamp ↔ header.previousBlockHash ≠ none := by
  obtain ⟨difficulty, hblock⟩ := image.getBlock_eq hstored
  have hhash : image.getBlock header.hash = image.getBlock (blockRow header timestamp).hash := rfl
  constructor
  · rintro ⟨b, _, _, _, hprevious, _⟩ hnone
    rw [hnone] at hprevious
    cases hprevious
  · intro hprevious
    obtain ⟨previous, hsome⟩ := Option.ne_none_iff_exists'.mp hprevious
    have hrow : (blockRow header timestamp).previousHash = some previous := hsome
    rw [ReadsHeader, hhash, hblock, hrow]
    exact ⟨_, rfl, rfl, rfl, hsome.symm, rfl, rfl, rfl⟩

/-- Every column of a transaction is wide enough but that of its index. -/
theorem Indexed.readsTransaction_iff (h : P.Indexed block db db') (image : StoreImage T db')
    {idx : Nat} {tx : Transaction} (hat : block.txdata[idx]? = some tx) :
    ReadsTransaction image block db.transactions idx tx ↔
      (block.Inserts db.transactions idx tx → KeptAsI32 idx) := by
  obtain ⟨row, hrow, hid, hnamed, hnew⟩ := h.transaction_row hat
  have hdecoded := image.getTransaction_eq hrow
  rw [hid] at hdecoded
  have hindex : block.Inserts db.transactions idx tx → row.transactionIndex = idx := by
    intro hinserts
    rw [hnew hinserts]
    rfl
  constructor
  · rintro ⟨t, hread, _, _, hwritten⟩ hinserts
    rw [hread, Except.ok.injEq] at hdecoded
    have hkept : asUnsigned 64 (asSigned 32 row.transactionIndex) = idx := by
      rw [← (hwritten hinserts).1, hdecoded]
    rw [hindex hinserts] at hkept
    exact keptAsI32_iff.mp hkept
  · intro hkept
    have hwritten : block.Inserts db.transactions idx tx →
        asUnsigned 64 (asSigned 32 row.transactionIndex) = idx ∧ row.lockTime = tx.lockTime ∧
          row.version = tx.version := by
      intro hinserts
      rw [hnew hinserts]
      exact ⟨keptAsI32_iff.mpr (hkept hinserts), rfl, rfl⟩
    generalize asUnsigned 64 (asSigned 32 row.transactionIndex) = index at hdecoded hwritten
    exact ⟨_, hdecoded, rfl, hnamed, hwritten⟩

theorem Indexed.outputs_read (h : P.Indexed block db db') (image : StoreImage T db') {u : UtxoRow}
    (hu : u ∈ P.created block) : ReadsOutput image u := by
  obtain ⟨hmem, hnone⟩ := h.created_mem hu
  refine ⟨⟨_, image.fetchUtxos_eq _, ?_⟩, fun utxos hin => ⟨_, image.fetchUtxos_eq _, ?_⟩⟩
  · exact List.mem_map_of_mem (List.mem_filter.mpr ⟨hmem, by simp [hnone]⟩)
  · exact List.mem_map_of_mem (List.mem_filter.mpr ⟨hmem, by simp [hnone, hin]⟩)

theorem Indexed.spends_read (h : P.Indexed block db db') (image : StoreImage T db') {u : UtxoRow}
    (hu : u ∈ db.utxos) (hnone : u.spentBlock = none) (hnamed : u.outPoint ∈ block.outpoints) :
    ReadsSpend image u block.header.height := by
  have hspent := h.spent_mem hu hnone hnamed
  obtain ⟨cells, hheld, hcells⟩ := image.utxos.mem hspent
  refine ⟨⟨_, cells, hheld, rfl, BtcUtxoInfo.tryFrom_cells hcells⟩,
    ⟨_, image.fetchUtxos_eq _, ?_⟩, fun utxos => ⟨_, image.fetchUtxos_eq _, ?_⟩⟩
  · refine notMem_unspent hspent (Option.some_ne_none _) fun v hv => ?_
    exact (of_decide_eq_true hv).2
  · refine notMem_unspent hspent (Option.some_ne_none _) fun v hv => ?_
    rw [Bool.and_eq_true, Option.isNone_iff_eq_none] at hv
    exact hv.1

end Reads

theorem event_read (T : TextForms) (e : BtcP2trEvent) : ReadsEvent T e := by
  constructor
  · intro l held blockNum hle
    obtain ⟨read, hread, hevents⟩ := held.pullPendingP2trEvents_eq blockNum
    refine ⟨read, hread, ?_⟩
    rw [hevents, List.map_id]
    exact List.mem_filter.mpr ⟨by simp, decide_eq_true hle⟩
  · intro l held blockNum hle
    obtain ⟨read, hread, hevents⟩ := held.getP2trEventsSinceBlock_eq blockNum
    refine ⟨read, hread, ?_⟩
    rw [hevents]
    have hrow : e.toRow ∈ (l.createP2trEvent e).p2trEventsSinceBlock blockNum :=
      List.mem_filter.mpr ⟨by simp [Ledger.createP2trEvent], decide_eq_true hle⟩
    exact List.mem_map_of_mem (f := P2trEventRow.toEvent) hrow

/-- A stored block reads back exactly if it has a previous hash and the transactions that it
inserts have indices that an `i32` keeps: the column of the previous hash may be null and is
written so for the first block, but it is read as a text. -/
theorem readsBack_iff (T : TextForms) (P : Processor) (F : Faults ProcessorError)
    (order : Nat → ScanOrder (Address × Int)) (block : BlockInfo) (timestamp : Nat)
    (db db' : Store) (w w' : World Store AggregatorMsg)
    (h : processBlock P F order block db w = .ok db' w')
    (hstored : blockRow block.header timestamp ∈ db'.blocks) (image : StoreImage T db') :
    ReadsBack T P block timestamp db (w'.channel.drop w.channel.length) image ↔
      block.header.previousBlockHash ≠ none ∧ ∀ idx tx, block.txdata[idx]? = some tx →
        block.Inserts db.transactions idx tx → KeptAsI32 idx := by
  rw [processBlock_eq] at h
  have hindexed := blockOps_ok (run_ok h).1
  constructor
  · intro hback
    exact ⟨(readsHeader_iff image hstored).mp hback.header, fun idx tx hat =>
      (hindexed.readsTransaction_iff image hat).mp (hback.transactions idx tx hat)⟩
  · rintro ⟨hprevious, hkept⟩
    constructor
    · exact (readsHeader_iff image hstored).mpr hprevious
    · exact fun idx tx hat => (hindexed.readsTransaction_iff image hat).mpr (hkept idx tx hat)
    · exact fun u hu => hindexed.outputs_read image hu
    · exact fun u hu hnone hnamed => hindexed.spends_read image hu hnone hnamed
    · exact fun e _ => event_read T e

def paymentBlock : BlockInfo :=
  blockAt 101 1 100 [coinbaseTx 1 [payTaproot 7 50], spendingTx 2 1 [payTaproot 8 40]]

theorem payment_reads_back : ∃ db' w', ∃ image : StoreImage TextForms.mainnet db',
    processBlock mainnet DbEnv.calm.faults (fun _ => ScanOrder.asStored _) paymentBlock
      Store.empty ⟨Store.empty, [], 0⟩ = .ok db' w' ∧
    blockRow paymentBlock.header 0 ∈ db'.blocks ∧ db'.utxos.length = 2 ∧
    ReadsBack TextForms.mainnet mainnet paymentBlock 0 Store.empty w'.channel image := by
  obtain ⟨db', hrun, hdb⟩ := eq_ok_of_answered (p := fun db' =>
      decide (db'.Storable TextForms.mainnet ∧ blockRow paymentBlock.header 0 ∈ db'.blocks ∧
        db'.utxos.length = 2))
    (r := processBlock mainnet DbEnv.calm.faults (fun _ => ScanOrder.asStored _) paymentBlock
      Store.empty ⟨Store.empty, [], 0⟩) (by decide +kernel)
  obtain ⟨hstorable, hstored, hutxos⟩ := of_decide_eq_true hdb
  refine ⟨db', _, hstorable.image, hrun, hstored, hutxos, ?_⟩
  refine (readsBack_iff TextForms.mainnet mainnet DbEnv.calm.faults
    (fun _ => ScanOrder.asStored _) paymentBlock 0 Store.empty db' ⟨Store.empty, [], 0⟩ _ hrun
    hstored hstorable.image).mpr ⟨by decide, fun idx tx hat _ => .inl ?_⟩
  have hlt : idx < 2 := (List.getElem?_eq_some_iff.mp hat).1
  omega

/-- The first block of the chain is stored, and reading it panics at the third column. -/
theorem genesis_panics : ∃ db' w', ∃ image : StoreImage TextForms.mainnet db',
    processBlock mainnet DbEnv.calm.faults (fun _ => ScanOrder.asStored _) genesisBlock
      Store.empty ⟨Store.empty, [], 0⟩ = .ok db' w' ∧
    blockRow genesisBlock.header 0 ∈ db'.blocks ∧
    image.getBlock genesisBlock.header.hash = .error (.panic 2) ∧
    ¬ ReadsBack TextForms.mainnet mainnet genesisBlock 0 Store.empty w'.channel image := by
  obtain ⟨db', hrun, hdb⟩ := eq_ok_of_answered (p := fun db' =>
      decide (db'.Storable TextForms.mainnet ∧ blockRow genesisBlock.header 0 ∈ db'.blocks))
    (r := processBlock mainnet DbEnv.calm.faults (fun _ => ScanOrder.asStored _) genesisBlock
      Store.empty ⟨Store.empty, [], 0⟩) (by decide +kernel)
  obtain ⟨hstorable, hstored⟩ := of_decide_eq_true hdb
  obtain ⟨difficulty, hblock⟩ := hstorable.image.getBlock_eq hstored
  refine ⟨db', _, hstorable.image, hrun, hstored, hblock, fun hback => ?_⟩
  obtain ⟨b, hread, _⟩ := hback.header
  cases hread.symm.trans hblock

end Processor

end BtcIndexer
