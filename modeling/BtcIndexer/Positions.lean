import BtcIndexer.Heights
import BtcIndexer.LiveRules

/-! Where a transaction row points. A block that is indexed takes over the rows of its
transactions by their hash column and leaves their position as it was, so a row points at its
transaction only as long as the transaction has the same position in every block that takes it
over. -/
namespace BtcIndexer
open Stateful Outbox Rows

/-- The transaction with this id stands in the block at this position. -/
def BlockInfo.HasAt (block : BlockInfo) (idx : Nat) (txid : Txid) : Prop :=
  (block.txdata[idx]?).map Transaction.txid = some txid

instance (block : BlockInfo) (idx : Nat) (txid : Txid) : Decidable (block.HasAt idx txid) :=
  inferInstanceAs (Decidable (_ = _))

/-- Every row points at its transaction, whichever of the given blocks it names. -/
structure Store.Located (given : List BlockInfo) (s : Store) : Prop where
  named : ∀ t ∈ s.transactions, ∃ b ∈ given, b.header.hash = t.blockHash
  position : ∀ t ∈ s.transactions, ∀ b ∈ given, b.header.hash = t.blockHash →
    b.HasAt t.transactionIndex t.txid

def Store.getTransaction (s : Store) (txid : Txid) : Except SqlxError TransactionRow :=
  match s.transactions.find? (fun t => t.txid = txid) with
  | some t => .ok t
  | none => .error .rowNotFound

/-- The answer is a block and a position in it at which the transaction stands. -/
theorem Store.Located.getTransaction {given : List BlockInfo} {s : Store} (h : s.Located given)
    {txid : Txid} {t : TransactionRow} (hget : s.getTransaction txid = .ok t) :
    t.txid = txid ∧ ∃ b ∈ given, b.header.hash = t.blockHash ∧ b.HasAt t.transactionIndex txid := by
  unfold Store.getTransaction at hget
  cases hfind : s.transactions.find? (fun t => t.txid = txid) with
  | none => rw [hfind] at hget; cases hget
  | some row =>
      rw [hfind] at hget
      cases hget
      obtain ⟨ht, hid⟩ := find?_key_some hfind
      obtain ⟨b, hb, hhash⟩ := h.named t ht
      exact ⟨hid, b, hb, hhash, hid ▸ h.position t ht b hb hhash⟩

/-- The rows that a block takes over have the positions of their transactions in it. -/
def BlockInfo.KeepsPlaces (block : BlockInfo) (rows : List TransactionRow) : Prop :=
  ∀ t ∈ rows, t.txid ∈ block.txdata.map Transaction.txid →
    block.HasAt t.transactionIndex t.txid

instance (block : BlockInfo) (rows : List TransactionRow) : Decidable (block.KeepsPlaces rows) :=
  inferInstanceAs (Decidable (∀ t ∈ rows, _))

namespace Processor

def KeepPlaces : List BlockInfo → List TransactionRow → Prop
  | [], _ => True
  | block :: rest, rows => block.KeepsPlaces rows ∧
      KeepPlaces rest (indexTransactions block.header.hash 0 block.txdata rows)

instance KeepPlaces.decidable :
    (blocks : List BlockInfo) → (rows : List TransactionRow) → Decidable (KeepPlaces blocks rows)
  | [], _ => .isTrue trivial
  | block :: rest, rows =>
      have := KeepPlaces.decidable rest (indexTransactions block.header.hash 0 block.txdata rows)
      inferInstanceAs (Decidable (_ ∧ _))

/-- A row after the first pass of a block: the block has no transaction of it, or it names the
block, with the position from before if there was one. -/
theorem indexTransactions_cases {blockHash : BlockHash} {idx : Nat} {txs : List Transaction}
    {rows : List TransactionRow} {t : TransactionRow}
    (ht : t ∈ indexTransactions blockHash idx txs rows) :
    (t ∈ rows ∧ t.txid ∉ txs.map Transaction.txid) ∨
      t.blockHash = blockHash ∧ t.txid ∈ txs.map Transaction.txid ∧
        ((∃ old ∈ rows, old.txid = t.txid ∧ old.transactionIndex = t.transactionIndex) ∨
          t.txid ∉ rows.map TransactionRow.txid ∧ ∃ i, t.transactionIndex = idx + i ∧
            (txs[i]?).map Transaction.txid = some t.txid) := by
  induction txs generalizing idx rows with
  | nil => exact .inl ⟨ht, List.not_mem_nil⟩
  | cons tx rest ih =>
      rw [indexTransactions] at ht
      by_cases hin : tx.txid ∈ rows.map TransactionRow.txid
      · rw [if_pos hin] at ht
        -- the row of the first transaction is taken over
        have hrow : ∀ r ∈ rows.map (Store.repoint tx.txid blockHash), ∃ old ∈ rows,
            old.txid = r.txid ∧ old.transactionIndex = r.transactionIndex ∧
              (r = old ∧ r.txid ≠ tx.txid ∨ r.blockHash = blockHash ∧ r.txid = tx.txid) := by
          intro r hr
          obtain ⟨old, hold, rfl⟩ := List.mem_map.mp hr
          unfold Store.repoint
          split
          · next hid => exact ⟨old, hold, rfl, rfl, .inr ⟨rfl, hid⟩⟩
          · next hid => exact ⟨old, hold, rfl, rfl, .inl ⟨rfl, hid⟩⟩
        rcases ih ht with ⟨hmem, hnot⟩ | ⟨hhash, hmem, hplace⟩
        · obtain ⟨old, hold, hid, hidx, hcase⟩ := hrow t hmem
          rcases hcase with ⟨rfl, hne⟩ | ⟨hhash, hsame⟩
          · exact .inl ⟨hold, by simp [hne, hnot]⟩
          · exact .inr ⟨hhash, by simp [hsame], .inl ⟨old, hold, hid, hidx⟩⟩
        · refine .inr ⟨hhash, List.mem_cons_of_mem _ hmem, ?_⟩
          rcases hplace with ⟨r, hr, hid, hidx⟩ | ⟨hfree, i, hidx, hat⟩
          · obtain ⟨old, hold, hid', hidx', _⟩ := hrow r hr
            exact .inl ⟨old, hold, hid'.trans hid, hidx'.trans hidx⟩
          · rw [Store.map_repoint_txid] at hfree
            exact .inr ⟨hfree, i + 1, by omega, hat⟩
      · rw [if_neg hin] at ht
        -- the first transaction gets a row
        rcases ih ht with ⟨hmem, hnot⟩ | ⟨hhash, hmem, hplace⟩
        · rcases List.mem_append.mp hmem with hold | hnew
          · have hne : t.txid ≠ tx.txid := fun hid => hin (hid ▸ List.mem_map_of_mem hold)
            exact .inl ⟨hold, by simp [hne, hnot]⟩
          · rw [List.mem_singleton.mp hnew]
            exact .inr ⟨rfl, List.mem_cons_self, .inr ⟨hin, 0, rfl, rfl⟩⟩
        · refine .inr ⟨hhash, List.mem_cons_of_mem _ hmem, ?_⟩
          rcases hplace with ⟨r, hr, hid, hidx⟩ | ⟨hfree, i, hidx, hat⟩
          · rcases List.mem_append.mp hr with hold | hnew
            · exact .inl ⟨r, hold, hid, hidx⟩
            · rw [List.mem_singleton.mp hnew] at hid hidx
              exact .inr ⟨hid ▸ hin, 0, hidx.symm, congrArg some hid⟩
          · rw [List.map_append, List.mem_append, not_or] at hfree
            exact .inr ⟨hfree.1, i + 1, by omega, hat⟩

section Step

variable {P : Processor} {given : List BlockInfo} {block : BlockInfo} {s s' : Store}

/-- One block keeps the rows located exactly if it keeps the places of those it takes over. -/
theorem Indexed.located_iff (h : P.Indexed block s s')
    (hbodies : ∀ b ∈ given, ∀ c ∈ given, b.header.hash = c.header.hash → b.txdata = c.txdata)
    (hblock : block ∈ given) (hs : s.Located given) :
    s'.Located given ↔ block.KeepsPlaces s.transactions := by
  have hown : ∀ b ∈ given, b.header.hash = block.header.hash → ∀ idx txid,
      block.HasAt idx txid → b.HasAt idx txid := by
    intro b hb hsame idx txid hat
    unfold BlockInfo.HasAt
    rw [hbodies b hb block hblock hsame]
    exact hat
  constructor
  · intro hs' t ht hmem
    have hin : t.txid ∈ s'.transactions.map TransactionRow.txid := by
      rw [h.transactions, mem_indexTransactions]
      exact .inl (List.mem_map_of_mem ht)
    obtain ⟨t', ht', hid⟩ := List.mem_map.mp hin
    have hcases := ht'
    rw [h.transactions] at hcases
    rcases indexTransactions_cases hcases with ⟨_, hnot⟩ | ⟨hhash, _, hplace⟩
    · exact absurd (hid ▸ hmem) hnot
    · have hat := hs'.position t' ht' block hblock hhash.symm
      rcases hplace with ⟨old, hold, hido, hidx⟩ | ⟨hfree, _⟩
      · cases s.txidKey.eq_of_key hold ht (hido.trans hid)
        rw [hidx, ← hid]
        exact hat
      · exact absurd (List.mem_map_of_mem ht) (hid ▸ hfree)
  · intro hkeeps
    have hcases : ∀ t ∈ s'.transactions, t ∈ s.transactions ∨
        t.blockHash = block.header.hash ∧ block.HasAt t.transactionIndex t.txid := by
      intro t ht
      rw [h.transactions] at ht
      rcases indexTransactions_cases ht with ⟨hold, _⟩ | ⟨hhash, hmem, hplace⟩
      · exact .inl hold
      · refine .inr ⟨hhash, ?_⟩
        rcases hplace with ⟨old, hold, hid, hidx⟩ | ⟨_, i, hidx, hat⟩
        · rw [← hid, ← hidx]
          exact hkeeps old hold (hid ▸ hmem)
        · rw [Nat.zero_add] at hidx
          rw [hidx]
          exact hat
    constructor
    · intro t ht
      rcases hcases t ht with hold | ⟨hhash, _⟩
      · exact hs.named t hold
      · exact ⟨block, hblock, hhash.symm⟩
    · intro t ht b hb hname
      rcases hcases t ht with hold | ⟨hhash, hat⟩
      · exact hs.position t hold b hb hname
      · exact hown b hb (hname.trans hhash) _ _ hat

theorem IndexedAll.located {blocks : List BlockInfo} (h : P.IndexedAll blocks s s')
    (hbodies : ∀ b ∈ given, ∀ c ∈ given, b.header.hash = c.header.hash → b.txdata = c.txdata)
    (hblocks : ∀ b ∈ blocks, b ∈ given) (hs : s.Located given)
    (hplaces : KeepPlaces blocks s.transactions) : s'.Located given := by
  induction h with
  | nil s => exact hs
  | @cons block rest s s₁ s' first later ih =>
      obtain ⟨hfirst, hrest⟩ := hplaces
      rw [← first.transactions] at hrest
      refine ih (fun b hb => hblocks b (List.mem_cons_of_mem block hb)) ?_ hrest
      exact (first.located_iff hbodies (hblocks block List.mem_cons_self) hs).mpr hfirst

end Step

end Processor

theorem Store.Located.rewind {given : List BlockInfo} {s : Store} (h : s.Located given)
    (number : Nat) : (s.rewind number).Located given where
  named := fun t ht => h.named t (List.mem_filter.mp ht).1
  position := fun t ht => h.position t (List.mem_filter.mp ht).1

theorem Job.base_located {given : List BlockInfo} {s : Store} (h : s.Located given) (job : Job) :
    (job.base s).Located given := by
  rcases Job.base_cases s job with hsame | ⟨number, hrewound⟩
  · rw [hsame]
    exact h
  · rw [hrewound]
    exact h.rewind number

namespace Entry

/-- A committed call kept the places of the rows that its blocks took over. -/
def KeepsPlaces : Entry → Prop
  | .call job before _ true =>
      Processor.KeepPlaces job.blocks (job.base before.store).transactions
  | .call _ _ _ false | .scanFrom _ _ => True

instance (entry : Entry) : Decidable entry.KeepsPlaces :=
  match entry with
  | .call job before _ true => inferInstanceAs
      (Decidable (Processor.KeepPlaces job.blocks (job.base before.store).transactions))
  | .call _ _ _ false | .scanFrom _ _ => .isTrue trivial

def blocks : Entry → List BlockInfo
  | .call job _ _ _ => job.blocks
  | .scanFrom _ _ => []

end Entry

def handed (lives : List Harvester) : List BlockInfo :=
  lives.flatMap fun k => k.history.flatMap Entry.blocks

/-- If every call kept places, the rows are located. -/
def Pointing (given : List BlockInfo) (h : Harvester) : Prop :=
  (∀ e ∈ h.history, e.KeepsPlaces ∧ ∀ b ∈ e.blocks, b ∈ given) → h.world.store.Located given

section Lives

variable {P : Processor} {node : Node} {env : DbEnv} {given : List BlockInfo}

theorem pointing_call
    (hbodies : ∀ b ∈ given, ∀ c ∈ given, b.header.hash = c.header.hash → b.txdata = c.txdata)
    {env' : DbEnv} {job : Job} {before w : World Store AggregatorMsg}
    (hrun : job.run P env' before = .ok () w)
    (hentry : (Entry.call job before w true).KeepsPlaces ∧
      ∀ b ∈ (Entry.call job before w true).blocks, b ∈ given)
    (hbefore : before.store.Located given) : w.store.Located given := by
  exact (Processor.run_base hrun).located hbodies hentry.2 (Job.base_located hbefore job) hentry.1

theorem pointing_steady : Steady (Pointing given) := by
  intro h w hstore _ _ hpointing hall
  change w.store.Located given
  rw [hstore]
  exact hpointing hall

theorem pointing_lively
    (hbodies : ∀ b ∈ given, ∀ c ∈ given, b.header.hash = c.header.hash → b.txdata = c.txdata) :
    Lively (fun _ => True) P node env (Pointing given) := by
  have hcommitted : ∀ env' h job w, Pointing given h → job.run P env' h.world = .ok () w →
      Pointing given (h.record job w true) := by
    intro env' h job w hpointing hrun hall
    refine pointing_call hbodies hrun (hall _ (List.mem_append_right _ List.mem_cons_self)) ?_
    exact hpointing fun e he => hall e (List.mem_append_left _ he)
  have hrolledBack : ∀ h job w, Pointing given h → w.store = h.world.store →
      Pointing given (h.record job w false) := by
    intro h job w hpointing hstore hall
    change w.store.Located given
    rw [hstore]
    exact hpointing fun e he => hall e (List.mem_append_left _ he)
  constructor
  · intro env'
    constructor
    · exact pointing_steady
    · intro h desired block w committed hpointing _ _ _ hsound
      cases committed with
      | true => exact hcommitted env' (h.moveTo block) (.first block) w hpointing hsound.run_ok
      | false => exact hrolledBack (h.moveTo block) (.first block) w hpointing hsound.store_eq
    · intro h prevBlock block w hpointing _ _ _ hrun
      exact hcommitted env' h (.next block) w hpointing hrun
    · intro h prevBlock block blocks w hpointing _ _ _ _ _ hrun
      exact hcommitted env' h (.fork blocks) w hpointing hrun
    · intro h job e w hpointing _ _ hrun
      exact hrolledBack h job w hpointing (Job.run_error hrun)
  · intro h entries job before after w hpointing _ hhistory hstore _ hrun hall
    refine pointing_call hbodies hrun (hall _ (List.mem_append_right _ List.mem_cons_self)) ?_
    rw [← hstore]
    refine hpointing fun e he => ?_
    rw [hhistory] at he
    rcases List.mem_append.mp he with hold | hlast
    · exact hall e (List.mem_append_left _ hold)
    · rw [List.mem_singleton.mp hlast]
      exact ⟨trivial, (hall _ (List.mem_append_right _ List.mem_cons_self)).2⟩

theorem pointing_boundless : Boundless (Pointing given) := fun _ _ _ hpointing => hpointing

theorem pointing_obeyed (hnode : node.Consistent) (moment : Moment) :
    Obeyed node env (Pointing given) moment := by
  intro command _
  refine obey_command hnode pointing_steady pointing_boundless (fun _ _ => Nat.zero_le _) command ?_
  intro _ _ _ h block hpointing _ hall
  exact hpointing fun e he => hall e (List.mem_append_left _ he)

end Lives

/-- Over any lives of the service, with any commands, drops and failures and whatever becomes of
the node's chain, every transaction row points at its transaction if each committed call met the
transactions that it took over at the positions their rows had. -/
theorem rows_located (P : Processor) (node : Node) (env : DbEnv) (lives : List Life) (clock : Nat)
    (hnode : node.Consistent)
    (hbodies : ∀ b ∈ handed (ends P node env lives ⟨Store.empty, [], clock⟩),
      ∀ c ∈ handed (ends P node env lives ⟨Store.empty, [], clock⟩),
        b.header.hash = c.header.hash → b.txdata = c.txdata)
    (hplaces : ∀ k ∈ ends P node env lives ⟨Store.empty, [], clock⟩, ∀ e ∈ k.history,
      e.KeepsPlaces) :
    (survive P node env lives ⟨Store.empty, [], clock⟩).store.Located
      (handed (ends P node env lives ⟨Store.empty, [], clock⟩)) := by
  refine survive_keeps (J := fun w => w.store.Located _) (Q := fun k => ∀ e ∈ k.history,
    e.KeepsPlaces ∧ ∀ b ∈ e.blocks, b ∈ handed (ends P node env lives ⟨Store.empty, [], clock⟩))
    ?_ lives ?_ ?_
  · intro life world hlocated hkept
    have hlively : Lively (fun _ => True) P node env
        (Pointing (handed (ends P node env lives ⟨Store.empty, [], clock⟩))) :=
      pointing_lively hbodies
    exact hlively.life hnode life world (fun moment _ => pointing_obeyed hnode moment)
      (fun _ => hlocated) (landsOnly_of_all (fun _ => trivial) P node env life.moments _) hkept
  · exact ⟨nofun, nofun⟩
  · intro k hk e he
    refine ⟨hplaces k hk e he, fun b hb => ?_⟩
    exact List.mem_flatMap.mpr ⟨k, hk, List.mem_flatMap.mpr ⟨e, he, hb⟩⟩

def firstBranch : List BlockInfo :=
  [genesisBlock, blockAt 101 1 100 [coinbaseTx 1 [], spendingTx 9 8 []]]

def secondBranch (before : List Transaction) : List BlockInfo :=
  [genesisBlock, blockAt 201 1 100 [coinbaseTx 2 []],
    blockAt 202 2 201 (coinbaseTx 3 [] :: (before ++ [spendingTx 9 8 []]))]

/-- The service indexes the first branch, stops, and starts on the second one. -/
def twoLives : List Life := [⟨some 1, none, [.round 3]⟩, ⟨some 1, none, [.round 3]⟩]

theorem branchings_consistent :
    (Node.switching firstBranch (secondBranch []) 10).Consistent ∧
      (Node.switching firstBranch (secondBranch [spendingTx 4 7 []]) 10).Consistent :=
  ⟨Node.switching_consistent (by decide +kernel) 10,
    Node.switching_consistent (by decide +kernel) 10⟩

/-- The transaction is the second of its block on both branches. -/
theorem twoLives_located :
    (survive Processor.mainnet (Node.switching firstBranch (secondBranch []) 10) DbEnv.calm
      twoLives ⟨Store.empty, [], 0⟩).store.Located
        (handed (ends Processor.mainnet (Node.switching firstBranch (secondBranch []) 10)
          DbEnv.calm twoLives ⟨Store.empty, [], 0⟩)) :=
  rows_located Processor.mainnet _ DbEnv.calm twoLives 0 branchings_consistent.1
    (by decide +kernel) (by decide +kernel)

/-- It is the third on the second branch; its row names the new block and the old position, at
which that block has transaction 4. -/
theorem twoLives_misplaced :
    (Node.switching firstBranch (secondBranch [spendingTx 4 7 []]) 10).Consistent ∧
      ¬ (survive Processor.mainnet
        (Node.switching firstBranch (secondBranch [spendingTx 4 7 []]) 10) DbEnv.calm twoLives
        ⟨Store.empty, [], 0⟩).store.Located
          (handed (ends Processor.mainnet
            (Node.switching firstBranch (secondBranch [spendingTx 4 7 []]) 10) DbEnv.calm twoLives
            ⟨Store.empty, [], 0⟩)) := by
  refine ⟨branchings_consistent.2, fun h => ?_⟩
  have hat := h.position ⟨⟨9⟩, ⟨202⟩, 1, 0, false, 2⟩ (by decide +kernel)
    (blockAt 202 2 201 [coinbaseTx 3 [], spendingTx 4 7 [], spendingTx 9 8 []]) (by decide +kernel)
    rfl
  revert hat
  decide

end BtcIndexer
