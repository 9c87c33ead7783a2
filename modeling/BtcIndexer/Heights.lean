import BtcIndexer.ScanRange

/-! The heights in the utxo table. The schema ties a row to its transaction and a transaction
to its block; that the two height columns of a row name stored blocks is left to the calls. No
call breaks it: a transaction that has a row in the table is never moved to another block,
because the row would have to be created a second time. -/
namespace BtcIndexer
open Stateful Outbox Rows

/-- Tables reached from empty ones by calls that succeed, each in a world of its own. -/
inductive Processor.Reached (P : Processor) : List Job → Store → Prop
  | empty : Reached P [] Store.empty
  | call {jobs : List Job} {job : Job} {env : DbEnv} {w w' : World Store AggregatorMsg}
      (before : Reached P jobs w.store) (h : job.run P env w = .ok () w') :
      Reached P (jobs ++ [job]) w'.store

/-- A hash stands for one height and a transaction id for one list of outputs, and no block is
empty. -/
structure Described (blocks : List BlockInfo) : Prop where
  height : ∀ b ∈ blocks, ∀ c ∈ blocks, b.header.hash = c.header.hash →
    b.header.height = c.header.height
  txdata : ∀ b ∈ blocks, b.txdata ≠ []
  output : ∀ b ∈ blocks, ∀ tx ∈ b.txdata, ∀ c ∈ blocks, ∀ tx' ∈ c.txdata, tx.txid = tx'.txid →
    tx.output = tx'.output

namespace Store

/-- A row was created at the height of the block of its transaction, and its mark is the height
of a stored block. -/
structure HeightsAgree (s : Store) : Prop where
  created : ∀ u ∈ s.utxos, ∃ t ∈ s.transactions, t.txid = u.txid ∧
    ∃ row ∈ s.blocks, row.hash = t.blockHash ∧ row.number = u.blockNumber
  spent : ∀ u ∈ s.utxos, ∀ number, u.spentBlock = some number →
    number ∈ s.blocks.map BlockRow.number

end Store

/-- The rows are those of given blocks and of the outputs of their transactions. -/
structure Sourced (P : Processor) (given : List BlockInfo) (s : Store) : Prop where
  rows : ∀ row ∈ s.blocks, ∃ b ∈ given, row.hash = b.header.hash ∧ row.number = b.header.height
  outputs : ∀ u ∈ s.utxos, ∃ b ∈ given, ∃ tx ∈ b.txdata, tx.txid = u.txid ∧
    u.outPoint ∈ (P.createdBy b.header.height tx).map UtxoRow.outPoint

namespace Processor

theorem indexTransactions_other {blockHash : BlockHash} {idx : Nat} {txs : List Transaction}
    {rows : List TransactionRow} {t : TransactionRow} (ht : t ∈ rows)
    (hother : t.txid ∉ txs.map Transaction.txid) :
    t ∈ indexTransactions blockHash idx txs rows := by
  induction txs generalizing idx rows with
  | nil => exact ht
  | cons tx rest ih =>
      rw [List.map_cons, List.mem_cons, not_or] at hother
      refine ih ?_ hother.2
      split
      · refine List.mem_map.mpr ⟨t, ht, ?_⟩
        rw [Store.repoint, if_neg hother.1]
      · exact List.mem_append_left _ ht

theorem indexTransactions_settled {blockHash : BlockHash} {idx : Nat} {txs : List Transaction}
    {rows : List TransactionRow} {txid : Txid}
    (hrows : ∀ t ∈ rows, t.txid = txid → t.blockHash = blockHash) :
    ∀ t ∈ indexTransactions blockHash idx txs rows, t.txid = txid → t.blockHash = blockHash := by
  induction txs generalizing idx rows with
  | nil => exact hrows
  | cons tx rest ih =>
      apply ih
      intro t ht hid
      split at ht
      · obtain ⟨old, hold, rfl⟩ := List.mem_map.mp ht
        rw [Store.repoint_txid] at hid
        unfold Store.repoint
        split
        · rfl
        · exact hrows old hold hid
      · rcases List.mem_append.mp ht with hold | hnew
        · exact hrows t hold hid
        · rw [List.mem_singleton.mp hnew]
          rfl

theorem indexTransactions_named {blockHash : BlockHash} {idx : Nat} {txs : List Transaction}
    {rows : List TransactionRow} {txid : Txid} (hmem : txid ∈ txs.map Transaction.txid) :
    ∀ t ∈ indexTransactions blockHash idx txs rows, t.txid = txid → t.blockHash = blockHash := by
  induction txs generalizing idx rows with
  | nil => cases hmem
  | cons tx rest ih =>
      rcases List.mem_cons.mp hmem with rfl | hlater
      · unfold indexTransactions
        apply indexTransactions_settled
        intro t ht hid
        split at ht
        · obtain ⟨old, _, rfl⟩ := List.mem_map.mp ht
          rw [Store.repoint_txid] at hid
          rw [Store.repoint, if_pos hid]
        · next hfree =>
            rcases List.mem_append.mp ht with hold | hnew
            · exact absurd (List.mem_map.mpr ⟨t, hold, hid⟩) hfree
            · rw [List.mem_singleton.mp hnew]
              rfl
      · exact ih hlater

theorem createdBy_outPoint {P : Processor} {tx tx' : Transaction} (hid : tx.txid = tx'.txid)
    (hout : tx.output = tx'.output) (number number' : Nat) :
    (P.createdBy number tx).map UtxoRow.outPoint =
      (P.createdBy number' tx').map UtxoRow.outPoint := by
  simp only [createdBy, createdFrom, hid, hout, List.map_filterMap, Option.map_map]
  rfl

section Step

variable {P : Processor} {given : List BlockInfo} {block : BlockInfo} {s s' : Store}

theorem Indexed.hash_mem (h : P.Indexed block s s') (htxs : block.txdata ≠ []) :
    block.header.hash ∈ s'.blocks.map BlockRow.hash := by
  rcases h.stored htxs with ⟨hsame, hmem⟩ | ⟨_, timestamp, hnew⟩
  · rw [hsame]
    exact hmem
  · rw [hnew, List.map_append]
    exact List.mem_append_right _ List.mem_cons_self

theorem Indexed.sourced (h : P.Indexed block s s') (hblock : block ∈ given)
    (hs : Sourced P given s) : Sourced P given s' where
  rows := by
    intro row hrow
    rcases h.row_cases hrow with hold | ⟨hhash, hnumber, _⟩
    · exact hs.rows row hold
    · exact ⟨block, hblock, hhash, hnumber⟩
  outputs := by
    intro u hu
    rw [h.utxos] at hu
    rcases List.mem_append.mp hu with hold | hnew
    · obtain ⟨old, hin, rfl⟩ := List.mem_map.mp hold
      obtain ⟨b, hb, tx, htx, hid, hout⟩ := hs.outputs old hin
      have hkey := block.spendRow_outPoint old
      exact ⟨b, hb, tx, htx, hid.trans (congrArg OutPoint.txid hkey).symm, hkey.symm ▸ hout⟩
    · obtain ⟨tx, htx, hu⟩ := List.mem_flatMap.mp hnew
      exact ⟨block, hblock, tx, htx, (mem_createdFrom hu).1.symm, List.mem_map_of_mem hu⟩

theorem Indexed.own_row (h : P.Indexed block s s') (hgiven : Described given)
    (hblock : block ∈ given) (hs : Sourced P given s') :
    ∃ row ∈ s'.blocks, row.hash = block.header.hash ∧ row.number = block.header.height := by
  obtain ⟨row, hrow, hhash⟩ := List.mem_map.mp (h.hash_mem (hgiven.txdata block hblock))
  obtain ⟨b, hb, hsame, hnumber⟩ := hs.rows row hrow
  refine ⟨row, hrow, hhash, hnumber.trans ?_⟩
  exact hgiven.height b hb block hblock (hsame.symm.trans hhash)

theorem Indexed.row_apart (h : P.Indexed block s s') (hgiven : Described given)
    (hblock : block ∈ given) (hs : Sourced P given s) {u : UtxoRow} (hu : u ∈ s.utxos) :
    u.txid ∉ block.txdata.map Transaction.txid := by
  intro hmem
  obtain ⟨tx, htx, hid⟩ := List.mem_map.mp hmem
  obtain ⟨b, hb, tx', htx', hid', hout⟩ := hs.outputs u hu
  have hsame := hid'.trans hid.symm
  rw [createdBy_outPoint hsame (hgiven.output b hb tx' htx' block hblock tx htx hsame)
    b.header.height block.header.height] at hout
  obtain ⟨again, hagain, hkey⟩ := List.mem_map.mp hout
  have hnew : again ∈ P.created block := List.mem_flatMap.mpr ⟨tx, htx, hagain⟩
  have hkeyed : Keyed UtxoRow.outPoint (s.utxos.map block.spendRow ++ P.created block) :=
    h.utxos ▸ s'.outPointKey
  refine hkeyed.ne_of_append (List.mem_map_of_mem hu) hnew ?_
  rw [BlockInfo.spendRow_outPoint, hkey]

theorem Indexed.heightsAgree (h : P.Indexed block s s') (hgiven : Described given)
    (hblock : block ∈ given) (hs : Sourced P given s) (hagree : s.HeightsAgree) :
    s'.HeightsAgree := by
  obtain ⟨own, hown, hownHash, hownNumber⟩ := h.own_row hgiven hblock (h.sourced hblock hs)
  constructor
  · intro u hu
    rw [h.utxos] at hu
    rcases List.mem_append.mp hu with hold | hnew
    · obtain ⟨old, hin, rfl⟩ := List.mem_map.mp hold
      obtain ⟨t, ht, hid, row, hrow, hhash, hnumber⟩ := hagree.created old hin
      have hkeep : (block.spendRow old).txid = old.txid ∧
          (block.spendRow old).blockNumber = old.blockNumber := by
        unfold BlockInfo.spendRow
        split <;> exact ⟨rfl, rfl⟩
      rw [hkeep.1, hkeep.2, h.transactions]
      refine ⟨t, indexTransactions_other ht ?_, hid, row, h.row_mem hrow, hhash, hnumber⟩
      rw [hid]
      exact h.row_apart hgiven hblock hs hin
    · obtain ⟨hmem, hnumber, _⟩ := mem_created hnew
      rw [h.transactions]
      obtain ⟨t, ht, hid⟩ := List.mem_map.mp
        (mem_indexTransactions.mpr (.inr hmem) :
          u.txid ∈ (indexTransactions block.header.hash 0 block.txdata s.transactions).map
            TransactionRow.txid)
      have hhash := indexTransactions_named hmem t ht hid
      exact ⟨t, ht, hid, own, hown, hownHash.trans hhash.symm, hownNumber.trans hnumber.symm⟩
  · intro u hu number hmark
    rw [h.utxos] at hu
    rcases List.mem_append.mp hu with hold | hnew
    · obtain ⟨old, hin, rfl⟩ := List.mem_map.mp hold
      unfold BlockInfo.spendRow at hmark
      split at hmark
      · cases hmark
        exact List.mem_map.mpr ⟨own, hown, hownNumber⟩
      · obtain ⟨row, hrow, rfl⟩ := List.mem_map.mp (hagree.spent old hin number hmark)
        exact List.mem_map_of_mem (h.row_mem hrow)
    · rw [(mem_created hnew).2.2.1] at hmark
      cases hmark

theorem IndexedAll.heightsAgree {blocks : List BlockInfo} (h : P.IndexedAll blocks s s')
    (hgiven : Described given) (hblocks : ∀ b ∈ blocks, b ∈ given) (hs : Sourced P given s)
    (hagree : s.HeightsAgree) : Sourced P given s' ∧ s'.HeightsAgree := by
  induction h with
  | nil s => exact ⟨hs, hagree⟩
  | @cons block rest s s₁ s' first later ih =>
      have hblock := hblocks block List.mem_cons_self
      exact ih (fun b hb => hblocks b (List.mem_cons_of_mem block hb)) (first.sourced hblock hs)
        (first.heightsAgree hgiven hblock hs hagree)

end Step

end Processor

namespace Store

/-- The marks from the height on are cleared where the blocks from it on are deleted. -/
def rewind (s : Store) (number : Nat) : Store :=
  (s.deleteBlocksSince number).unspendUtxosSpentSinceBlock number

theorem mem_rewind {s : Store} {number : Nat} {u : UtxoRow} (hu : u ∈ (s.rewind number).utxos) :
    ∃ old ∈ s.utxos, u = { old with spentBlock := clearSince number old.spentBlock } ∧
      ∃ t ∈ (s.rewind number).transactions, t.txid = old.txid := by
  obtain ⟨old, hold, rfl⟩ := List.mem_map.mp hu
  obtain ⟨hin, hkept⟩ := List.mem_filter.mp hold
  obtain ⟨t, ht, hid⟩ := List.mem_map.mp (of_decide_eq_true hkept)
  exact ⟨old, hin, rfl, t, ht, hid⟩

theorem rewind_sourced {P : Processor} {given : List BlockInfo} {s : Store}
    (hs : Sourced P given s) (number : Nat) : Sourced P given (s.rewind number) where
  rows := fun row hrow => hs.rows row (List.mem_filter.mp hrow).1
  outputs := by
    intro u hu
    obtain ⟨old, hold, rfl, _⟩ := mem_rewind hu
    exact hs.outputs old hold

theorem rewind_heightsAgree {s : Store} (h : s.HeightsAgree) (number : Nat) :
    (s.rewind number).HeightsAgree where
  created := by
    intro u hu
    obtain ⟨old, hold, rfl, kept, hkept, hid⟩ := mem_rewind hu
    obtain ⟨hin, href⟩ := List.mem_filter.mp hkept
    obtain ⟨t, ht, hid', row, hrow, hhash, hnumber⟩ := h.created old hold
    cases s.txidKey.eq_of_key hin ht (hid.trans hid'.symm)
    obtain ⟨row', hrow', hhash'⟩ := List.mem_map.mp (of_decide_eq_true href)
    cases s.hashKey.eq_of_key (List.mem_filter.mp hrow').1 hrow (hhash'.trans hhash.symm)
    exact ⟨kept, hkept, hid, row, hrow', hhash, hnumber⟩
  spent := by
    intro u hu number' hmark
    obtain ⟨old, hold, rfl, _⟩ := mem_rewind hu
    obtain ⟨hspent, hlow⟩ := Option.filter_eq_some_iff.mp hmark
    obtain ⟨row, hrow, rfl⟩ := List.mem_map.mp (h.spent old hold number' hspent)
    exact List.mem_map_of_mem (List.mem_filter.mpr ⟨hrow, hlow⟩)

end Store

/-- The tables on which the blocks of a call are indexed. -/
def Job.base (s : Store) : Job → Store
  | .first _ | .next _ => s
  | .fork blocks =>
      match blocks.getLast? with
      | some origin => s.rewind origin.header.height
      | none => s

theorem Job.base_fork {blocks : List BlockInfo} {origin : BlockInfo}
    (hlast : blocks.getLast? = some origin) (s : Store) :
    (Job.fork blocks).base s = s.rewind origin.header.height := by
  simp only [Job.base, hlast]

theorem Job.base_cases (s : Store) (job : Job) :
    job.base s = s ∨ ∃ number, job.base s = s.rewind number := by
  cases job with
  | first block => exact .inl rfl
  | next block => exact .inl rfl
  | fork blocks =>
      cases hlast : blocks.getLast? with
      | some origin => exact .inr ⟨_, Job.base_fork hlast s⟩
      | none => exact .inl (by simp only [Job.base, hlast])

namespace Processor

/-- What a call leaves is its blocks, indexed on the tables from before or on what a fork keeps
of them. -/
theorem run_base {P : Processor} {env : DbEnv} {job : Job} {w w' : World Store AggregatorMsg}
    (h : job.run P env w = .ok () w') :
    P.IndexedAll job.blocks (job.base w.store) w'.store := by
  cases job with
  | first block => exact .cons (process_ok h) (.nil _)
  | next block => exact .cons (process_ok h) (.nil _)
  | fork blocks =>
      cases hlast : blocks.getLast? with
      | some origin =>
          rw [Job.base_fork hlast]
          exact processFork_indexed hlast h
      | none =>
          have hops := (transact_ok ((Job.run_eq P env _ w).symm.trans h)).1
          simp only [Job.ops, forkOps, hlast] at hops
          cases hops

theorem Reached.heightsAgree {P : Processor} {jobs : List Job} {s : Store}
    (h : P.Reached jobs s) {given : List BlockInfo} (hgiven : Described given)
    (hjobs : ∀ job ∈ jobs, ∀ b ∈ job.blocks, b ∈ given) :
    Sourced P given s ∧ s.HeightsAgree := by
  induction h with
  | empty =>
      refine ⟨⟨?_, ?_⟩, ⟨?_, ?_⟩⟩
      · intro row hrow
        cases hrow
      · intro u hu
        cases hu
      · intro u hu
        cases hu
      · intro u hu
        cases hu
  | @call jobs job env w w' before hrun ih =>
      obtain ⟨hs, hagree⟩ := ih fun j hj => hjobs j (List.mem_append_left _ hj)
      have hblocks := hjobs job (List.mem_append_right _ List.mem_cons_self)
      have hindexed := run_base hrun
      rcases Job.base_cases w.store job with hsame | ⟨number, hrewound⟩
      · rw [hsame] at hindexed
        exact hindexed.heightsAgree hgiven hblocks hs hagree
      · rw [hrewound] at hindexed
        exact hindexed.heightsAgree hgiven hblocks (Store.rewind_sourced hs number)
          (Store.rewind_heightsAgree hagree number)

/-- After any calls, in whatever order of heights, every row of the utxo table was created at
the height of the stored block of its transaction, and marked with that of a stored block. -/
theorem reached_heightsAgree (P : Processor) (jobs : List Job) (s : Store)
    (h : P.Reached jobs s) (hgiven : Described (jobs.flatMap Job.blocks)) : s.HeightsAgree :=
  (h.heightsAgree hgiven fun job hjob _ hb => List.mem_flatMap.mpr ⟨job, hjob, hb⟩).2

def afterCalls (jobs : List Job) : World Store AggregatorMsg :=
  jobs.foldl (fun w job => final (job.run mainnet DbEnv.calm w)) ⟨Store.empty, [], 0⟩

/-- Two blocks, of which a fork replaces the second. -/
theorem fork_heightsAgree :
    (afterCalls [.first sharedBlock, .next orphanBlock,
      .fork payingFork.reverse]).store.HeightsAgree := by
  have hfirst : (Job.first sharedBlock).run mainnet DbEnv.calm (afterCalls []) =
      .ok () (afterCalls [.first sharedBlock]) := eq_ok_of_returned (by decide +kernel)
  have hnext : (Job.next orphanBlock).run mainnet DbEnv.calm (afterCalls [.first sharedBlock]) =
      .ok () (afterCalls [.first sharedBlock, .next orphanBlock]) :=
    eq_ok_of_returned (by decide +kernel)
  have hfork : (Job.fork payingFork.reverse).run mainnet DbEnv.calm
      (afterCalls [.first sharedBlock, .next orphanBlock]) = .ok () (afterCalls
        [.first sharedBlock, .next orphanBlock, .fork payingFork.reverse]) :=
    eq_ok_of_returned (by decide +kernel)
  have hstart : Reached mainnet [] (afterCalls []).store := .empty
  refine reached_heightsAgree mainnet _ _ (((hstart.call hfirst).call hnext).call hfork) ?_
  constructor <;> decide

end Processor

end BtcIndexer
