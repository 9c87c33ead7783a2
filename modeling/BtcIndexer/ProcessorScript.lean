import BtcIndexer.Processor

/-! The processor as scripts. What `process_block` awaits and sends is settled once the
candidate utxos are read: the script of a block is a plain function of the block, of the
store it starts from and of the orders in which its hash maps are walked. -/
namespace BtcIndexer
open Stateful Outbox Rows

abbrev ProcessorOp := Op Store ProcessorError AggregatorMsg

namespace Processor

def upsertOps (blockHash : BlockHash) : Nat → List Transaction → List ProcessorOp
  | _, [] => []
  | idx, tx :: rest =>
      .sql (fun s => refused (s.upsertTransaction (transactionRow blockHash idx tx))) ::
        upsertOps blockHash (idx + 1) rest

def spendOps (blockNum : Nat) : List TxIn → RelevantUtxos → List ProcessorOp
  | [], _ => []
  | txin :: rest, relevant =>
      match relevant.get txin.previousOutput with
      | none => spendOps blockNum rest relevant
      | some utxo =>
          .sql (fun s => refused (s.spendUtxo utxo.txid utxo.vout blockNum)) ::
            spendOps blockNum rest (relevant.remove txin.previousOutput)

/-- The candidates left and the net changes after the inputs of a transaction. -/
def debit : List TxIn → RelevantUtxos → BalanceUpdates → RelevantUtxos × BalanceUpdates
  | [], relevant, updates => (relevant, updates)
  | txin :: rest, relevant, updates =>
      match relevant.get txin.previousOutput with
      | none => debit rest relevant updates
      | some utxo => debit rest (relevant.remove txin.previousOutput)
          (updates.insert utxo.owner (-utxo.amount + updates.get utxo.owner))

def createOps (P : Processor) (blockNum : Nat) (txid : Txid) :
    Nat → List TxOut → List ProcessorOp
  | _, [] => []
  | idx, txout :: rest =>
      if P.isP2tr txout.scriptPubkey then
        match P.fromScript txout.scriptPubkey with
        | none => [.raise .addressFromScript]
        | some address =>
            .sql (fun s => refused (s.createUtxo (utxoRow blockNum txid idx address txout))) ::
              createOps P blockNum txid (idx + 1) rest
      else createOps P blockNum txid (idx + 1) rest

/-- The net changes after the outputs of a transaction. -/
def credit (P : Processor) : List TxOut → BalanceUpdates → BalanceUpdates
  | [], updates => updates
  | txout :: rest, updates =>
      if P.isP2tr txout.scriptPubkey then
        match P.fromScript txout.scriptPubkey with
        | none => updates
        | some address => credit P rest (updates.insert address (updates.get address + txout.value))
      else credit P rest updates

def netUpdates (P : Processor) (tx : Transaction) (relevant : RelevantUtxos) : BalanceUpdates :=
  credit P tx.output (debit tx.input relevant ∅).2

def sendOps (blockNum : Nat) (tx : Transaction) : List (Address × Int) → List ProcessorOp
  | [] => []
  | (address, value) :: rest =>
      if value = 0 then sendOps blockNum tx rest
      else .send (.event (eventOf blockNum tx address value)) :: sendOps blockNum tx rest

def txsOps (P : Processor) (order : Nat → ScanOrder (Address × Int)) (blockNum : Nat) :
    Nat → List Transaction → RelevantUtxos → List ProcessorOp
  | _, [], _ => []
  | i, tx :: rest, relevant =>
      spendOps blockNum tx.input relevant ++ (createOps P blockNum tx.txid 0 tx.output ++
        (sendOps blockNum tx ((order i).order (netUpdates P tx relevant).pairs) ++
          txsOps P order blockNum (i + 1) rest (debit tx.input relevant ∅).1))

def blockOps (P : Processor) (order : Nat → ScanOrder (Address × Int)) (block : BlockInfo)
    (s : Store) : List ProcessorOp :=
  match P.timestampOpt block.header.time with
  | none => [.raise (.anyhow "Invalid timestamp")]
  | some timestamp =>
      .sql (fun s => .ok (s.upsertBlock (blockRow block.header timestamp))) ::
        (upsertOps block.header.hash 0 block.txdata ++
          (.sql .ok :: txsOps P order block.header.height 0 block.txdata
            (s.getRelevantUtxos block.outpoints)))

/-- The script of the fork replay: each block meets the store its predecessors leave. -/
def blocksOps (P : Processor) (order : Nat → Nat → ScanOrder (Address × Int)) :
    Nat → List BlockInfo → Store → List ProcessorOp
  | _, [], _ => []
  | i, block :: rest, s =>
      blockOps P (order i) block s ++
        (match apply (blockOps P (order i) block s) s with
          | .ok s' => blocksOps P order (i + 1) rest s'
          | .error _ => [])

def forkOps (P : Processor) (order : Nat → Nat → ScanOrder (Address × Int))
    (forkBlocksReversed : List BlockInfo) (s : Store) : List ProcessorOp :=
  match forkBlocksReversed.getLast? with
  | none => [.raise (.panic "checked not empty")]
  | some origin =>
      .sql (fun s => .ok (s.deleteBlocksSince origin.header.height)) ::
        .sql (fun s => .ok (s.unspendUtxosSpentSinceBlock origin.header.height)) ::
          .send (.reorg origin.header.height) ::
            blocksOps P order 0 forkBlocksReversed
              ((s.deleteBlocksSince origin.header.height).unspendUtxosSpentSinceBlock
                origin.header.height)

theorem upsertTransactions_eq (F : Faults ProcessorError) (blockHash : BlockHash) (idx : Nat)
    (txs : List Transaction) (db : Store) :
    upsertTransactions F blockHash idx txs db = run F (upsertOps blockHash idx txs) db := by
  induction txs generalizing idx db with
  | nil => rfl
  | cons tx rest ih => simp only [upsertTransactions, upsertOps, run, Op.run, ih]

theorem spendInputs_eq (F : Faults ProcessorError) (blockNum : Nat) (ins : List TxIn)
    (relevant : RelevantUtxos) (updates : BalanceUpdates) (db : Store) :
    spendInputs F blockNum ins relevant updates db =
      (run F (spendOps blockNum ins relevant) db >>= fun db' =>
        pure ((debit ins relevant updates).1, (debit ins relevant updates).2, db')) := by
  induction ins generalizing relevant updates db with
  | nil => simp only [spendInputs, spendOps, debit, run, pure_bind]
  | cons txin rest ih =>
      cases hget : relevant.get txin.previousOutput with
      | none => simp only [spendInputs, spendOps, debit, hget, ih]
      | some utxo => simp only [spendInputs, spendOps, debit, hget, ih, run, Op.run, bind_assoc]

theorem createOutputs_eq (P : Processor) (F : Faults ProcessorError) (blockNum : Nat)
    (txid : Txid) (idx : Nat) (outs : List TxOut) (updates : BalanceUpdates) (db : Store) :
    createOutputs P F blockNum txid idx outs updates db =
      (run F (createOps P blockNum txid idx outs) db >>= fun db' =>
        pure (credit P outs updates, db')) := by
  induction outs generalizing idx updates db with
  | nil => simp only [createOutputs, createOps, credit, run, pure_bind]
  | cons txout rest ih =>
      cases hp : P.isP2tr txout.scriptPubkey with
      | false =>
          simp only [createOutputs, createOps, credit, hp, Bool.false_eq_true, if_false, ih]
      | true =>
          cases hs : P.fromScript txout.scriptPubkey with
          | none =>
              simp only [createOutputs, createOps, credit, hp, hs, if_true]
              rfl
          | some address =>
              simp only [createOutputs, createOps, credit, hp, hs, if_true, ih, run, Op.run,
                bind_assoc]

theorem sendEvents_eq (F : Faults ProcessorError) (blockNum : Nat) (tx : Transaction)
    (pairs : List (Address × Int)) (db : Store) :
    (sendEvents F blockNum tx pairs >>= fun _ => pure db) =
      run F (sendOps blockNum tx pairs) db := by
  induction pairs with
  | nil => rfl
  | cons pair rest ih =>
      obtain ⟨address, value⟩ := pair
      by_cases hv : value = 0
      · simp only [sendEvents, sendOps, hv, if_true, ih]
      · simp only [sendEvents, sendOps, hv, if_false, run, Op.run, bind_assoc, pure_bind, ih]

theorem processTxs_eq (P : Processor) (F : Faults ProcessorError)
    (order : Nat → ScanOrder (Address × Int)) (blockNum i : Nat) (txs : List Transaction)
    (relevant : RelevantUtxos) (db : Store) :
    processTxs P F order blockNum i txs relevant db =
      run F (txsOps P order blockNum i txs relevant) db := by
  induction txs generalizing i relevant db with
  | nil => rfl
  | cons tx rest ih =>
      simp only [processTxs, txsOps, run_append, spendInputs_eq, createOutputs_eq, bind_assoc,
        pure_bind, ih, ← sendEvents_eq, netUpdates]

theorem upsertOps_utxos {blockHash : BlockHash} {idx : Nat} {txs : List Transaction}
    {s s' : Store} (h : apply (upsertOps blockHash idx txs) s = .ok s') : s'.utxos = s.utxos := by
  induction txs generalizing idx s with
  | nil => cases h; rfl
  | cons tx rest ih =>
      obtain ⟨mid, hop, hrest⟩ := apply_cons_ok.mp h
      exact (ih hrest).trans (Store.upsertTransaction_ok (refused_eq_ok.mp hop)).2.1

theorem getRelevantUtxos_congr {s s' : Store} (h : s'.utxos = s.utxos) (utxos : List OutPoint) :
    s'.getRelevantUtxos utxos = s.getRelevantUtxos utxos := by
  unfold Store.getRelevantUtxos Store.relevantRows
  rw [h]

theorem processBlock_eq (P : Processor) (F : Faults ProcessorError)
    (order : Nat → ScanOrder (Address × Int)) (block : BlockInfo) (db : Store) :
    processBlock P F order block db = run F (blockOps P order block db) db := by
  unfold processBlock blockOps
  cases P.timestampOpt block.header.time with
  | none => rfl
  | some timestamp =>
      simp only [run, run_append, upsertTransactions_eq, processTxs_eq, Op.run]
      funext w
      apply bind_congr_of_ok
      intro db₁ w₁ h₁
      apply bind_congr_of_ok
      intro db₂ w₂ h₂
      have hu : db₂.utxos = db.utxos := by
        have hb := Op.run_sql_ok h₁
        cases hb
        rw [upsertOps_utxos (run_ok h₂).1, Store.upsertBlock_utxos]
      change (query F _ db₂ >>= _) w₂ = (query F _ db₂ >>= _) w₂
      simp only [← getRelevantUtxos_congr hu]
      simp only [Bind.bind, EStateM.bind, query]
      cases F.sql w₂.clock <;> rfl

theorem processBlocks_eq (P : Processor) (F : Faults ProcessorError)
    (order : Nat → Nat → ScanOrder (Address × Int)) (i : Nat) (blocks : List BlockInfo)
    (db : Store) :
    processBlocks P F order i blocks db = run F (blocksOps P order i blocks db) db := by
  induction blocks generalizing i db with
  | nil => rfl
  | cons block rest ih =>
      simp only [processBlocks, blocksOps, run_append, processBlock_eq, ih]
      funext w
      apply bind_congr_of_ok
      intro db₁ w₁ h
      simp only [(run_ok h).1]

theorem process_eq (P : Processor) (env : DbEnv) (block : BlockInfo)
    (w : World Store AggregatorMsg) : process P env block w =
      transact env.faults (blockOps P (env.hashOrder w.clock 0) block w.store) w := by
  change (begin env.faults >>= _) w = (begin env.faults >>= _) w
  apply bind_congr_of_ok
  intro db w₁ h
  obtain ⟨rfl, rfl⟩ := begin_ok h
  simp only [processBlock_eq]

theorem processFork_eq (P : Processor) (env : DbEnv) (fork : List BlockInfo)
    (w : World Store AggregatorMsg) :
    processFork P env fork w =
      transact env.faults (forkOps P (env.hashOrder w.clock) fork w.store) w := by
  change (begin env.faults >>= _) w = (begin env.faults >>= _) w
  apply bind_congr_of_ok
  intro db w₁ h
  obtain ⟨rfl, rfl⟩ := begin_ok h
  unfold forkOps
  cases fork.getLast? with
  | none => rfl
  | some origin =>
      simp only [run, Op.run, bind_assoc, pure_bind, processBlocks_eq]
      apply bind_congr_of_ok
      intro db₁ w₂ h₁
      cases Op.run_sql_ok h₁
      apply bind_congr_of_ok
      intro db₂ w₃ h₂
      cases Op.run_sql_ok h₂
      rfl

end Processor

end BtcIndexer
