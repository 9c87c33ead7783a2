import BtcIndexer.Settlement

/-! Which reorganisations the aggregator can take. It takes back booked rows and unwraps the
last of them, so it panics where the blocks from the fork point on have booked nothing: blocks
without a taproot change, or with changes by young coinbase transactions only. -/
namespace BtcIndexer
open Stateful Outbox Rows

def namedBy (txs : List Transaction) : List OutPoint :=
  txs.flatMap (fun tx => tx.input.map TxIn.previousOutput)

namespace Processor

/-- What a transaction changes for an address: its outputs, less the rows it consumes among
those unspent before its block that no earlier transaction of the block consumes. -/
def changeAt (P : Processor) (rows : List UtxoRow) (blockNum : Nat) (earlier : List Transaction)
    (tx : Transaction) (a : Address) : Int :=
  total (UtxoRow.amountFor a) (P.createdBy blockNum tx) -
    total (UtxoRow.amountFor a) (rows.filter (fun u => u.spentBlock = none ∧
      u.outPoint ∈ tx.input.map TxIn.previousOutput ∧ u.outPoint ∉ namedBy earlier))

/-- A transaction of the given kind, in a block of the given height, changes what some address
holds. The first list is of the blocks that come before the others. -/
def Changes (P : Processor) (before blocks : List BlockInfo) (height : Nat)
    (isCoinbase : Bool) : Prop :=
  ∃ pre block post earlier tx later a, blocks = pre ++ block :: post ∧
    block.header.height = height ∧ block.txdata = earlier ++ tx :: later ∧
    tx.isCoinbase = isCoinbase ∧
    P.changeAt (P.createdAll (before ++ pre)) height earlier tx a ≠ 0

theorem mem_txEvents {P : Processor} {tx : Transaction} {relevant : RelevantUtxos}
    (howned : P.Owned tx) (h : Keyed BtcUtxoInfo.getOutPoint relevant) (blockNum : Nat)
    (order : ScanOrder (Address × Int)) {e : BtcP2trEvent} :
    e ∈ txEvents blockNum tx (order.order (netUpdates P tx relevant).pairs) ↔
      ∃ a, P.netChange blockNum relevant tx a ≠ 0 ∧
        e = eventOf blockNum tx a (P.netChange blockNum relevant tx a) := by
  simp only [txEvents, List.mem_map, List.mem_filter, decide_eq_true_eq]
  constructor
  · rintro ⟨⟨a, v⟩, ⟨hpair, hv⟩, rfl⟩
    have hlookup := BalanceUpdates.mem_pairs.mp ((order.perm _).mem_iff.mp hpair)
    have hget : v = P.netChange blockNum relevant tx a := by
      rw [← netUpdates_get howned h blockNum, BalanceUpdates.get, hlookup]
      rfl
    exact ⟨a, hget ▸ hv, by rw [← hget]⟩
  · rintro ⟨a, hv, rfl⟩
    refine ⟨(a, P.netChange blockNum relevant tx a), ⟨?_, hv⟩, rfl⟩
    apply (order.perm _).mem_iff.mpr
    apply BalanceUpdates.mem_pairs.mpr
    rw [← netUpdates_get howned h blockNum] at hv ⊢
    unfold BalanceUpdates.get at hv ⊢
    cases hlookup : (netUpdates P tx relevant).lookup a with
    | none =>
        rw [hlookup] at hv
        exact absurd rfl hv
    | some v => rfl

theorem filter_namedBy (relevant : RelevantUtxos) (tx : Transaction) (earlier : List Transaction) :
    (relevant.filter (fun info => info.getOutPoint ∉ tx.input.map TxIn.previousOutput)).filter
        (fun info => info.getOutPoint ∉ namedBy earlier) =
      relevant.filter (fun info => info.getOutPoint ∉ namedBy (tx :: earlier)) := by
  rw [List.filter_filter]
  apply List.filter_congr
  intro info _
  have hcons : namedBy (tx :: earlier) =
      tx.input.map TxIn.previousOutput ++ namedBy earlier := List.flatMap_cons
  rw [hcons, ← Bool.decide_and]
  apply decide_eq_decide.mpr
  rw [List.mem_append, not_or, and_comm]

theorem mem_txsEvents {P : Processor} {txs : List Transaction} {relevant : RelevantUtxos}
    (howned : ∀ tx ∈ txs, P.Owned tx) (h : Keyed BtcUtxoInfo.getOutPoint relevant)
    (order : Nat → ScanOrder (Address × Int)) (blockNum i : Nat) {e : BtcP2trEvent} :
    e ∈ txsEvents P order blockNum i txs relevant ↔
      ∃ earlier tx later a, txs = earlier ++ tx :: later ∧
        P.netChange blockNum
          (relevant.filter (fun info => info.getOutPoint ∉ namedBy earlier)) tx a ≠ 0 ∧
        e = eventOf blockNum tx a (P.netChange blockNum
          (relevant.filter (fun info => info.getOutPoint ∉ namedBy earlier)) tx a) := by
  induction txs generalizing i relevant with
  | nil => simp [txsEvents]
  | cons tx rest ih =>
      have hnone : relevant.filter (fun info => info.getOutPoint ∉ namedBy []) = relevant :=
        List.filter_eq_self.mpr fun info _ => by simp [namedBy]
      rw [txsEvents, List.mem_append, mem_txEvents (howned tx List.mem_cons_self) h, debit_fst,
        ih (fun t ht => howned t (List.mem_cons_of_mem tx ht)) (h.filter _)]
      simp only [filter_namedBy]
      constructor
      · rintro (⟨a, hv, rfl⟩ | ⟨earlier, t, later, a, rfl, hv, rfl⟩)
        · exact ⟨[], tx, rest, a, rfl, by rwa [hnone], by rw [hnone]⟩
        · exact ⟨tx :: earlier, t, later, a, rfl, hv, rfl⟩
      · rintro ⟨earlier, t, later, a, htxs, hv, rfl⟩
        rcases List.cons_eq_append_iff.mp htxs with ⟨rfl, htail⟩ | ⟨earlier', rfl, rfl⟩
        · cases htail
          rw [hnone] at hv ⊢
          exact .inl ⟨a, hv, rfl⟩
        · exact .inr ⟨earlier', t, later, a, rfl, hv, rfl⟩

/-- The map of candidates and the table say the same about a transaction of the block. -/
theorem netChange_eq (P : Processor) (s : Store) {block : BlockInfo}
    {earlier later : List Transaction} {tx : Transaction}
    (htxs : block.txdata = earlier ++ tx :: later) (a : Address) :
    P.netChange block.header.height ((s.getRelevantUtxos block.outpoints).filter
        (fun info => info.getOutPoint ∉ namedBy earlier)) tx a =
      P.changeAt s.utxos block.header.height earlier tx a := by
  have hnamed : ∀ o ∈ tx.input.map TxIn.previousOutput, o ∈ block.outpoints := by
    intro o ho
    unfold BlockInfo.outpoints
    rw [htxs, List.flatMap_append, List.flatMap_cons]
    exact List.mem_append_right _ (List.mem_append_left _ ho)
  rw [netChange, changeAt, spentFor, Store.getRelevantUtxos, total_filter, total_map,
    Store.relevantRows, total_filter, total_filter]
  congr 1
  apply total_congr
  intro u _
  by_cases ho : u.outPoint ∈ tx.input.map TxIn.previousOutput
  · have hblock := hnamed _ ho
    cases hs : u.spentBlock <;> by_cases he : u.outPoint ∈ namedBy earlier <;>
      simp [he, ho, hblock]
  · cases hs : u.spentBlock <;> simp [ho]

theorem Emitted.changes_iff {P : Processor} {blocks : List BlockInfo} {s s' : Store}
    {events : List BtcP2trEvent} (h : P.Emitted blocks s s' events) (before : List BlockInfo)
    (hs : s.utxos = P.createdAll before) (height : Nat) (isCoinbase : Bool) :
    (∃ e ∈ events, e.blockNumber = height ∧ e.isCoinbase = isCoinbase) ↔
      P.Changes before blocks height isCoinbase := by
  induction h generalizing before with
  | nil s =>
      constructor
      · rintro ⟨e, he, _⟩
        cases he
      · rintro ⟨pre, block, post, _, _, _, _, hblocks, _⟩
        simp at hblocks
  | @cons block rest s s₁ s' events order first hlater ih =>
      have hs₁ : s₁.utxos = P.createdAll (before ++ [block]) := by
        have hlast : P.createdAll [block] = P.created block := by
          rw [createdAll, createdAll, List.append_nil]
          exact List.map_id _
        rw [first.utxos, hs, createdAll_append, hlast]
        rfl
      have hmem := fun e => mem_txsEvents (e := e) first.owners
        (keyed_relevant s block.outpoints) order block.header.height 0
      have hrest := ih (before ++ [block]) hs₁
      constructor
      · rintro ⟨e, he, hheight, hkind⟩
        rcases List.mem_append.mp he with he | he
        · obtain ⟨earlier, tx, later, a, htxs, hv, rfl⟩ := (hmem e).mp he
          rw [netChange_eq P s htxs, hs] at hv
          subst hheight
          exact ⟨[], block, rest, earlier, tx, later, a, rfl, rfl, htxs, hkind,
            by simpa [eventOf] using hv⟩
        · obtain ⟨pre, b, post, earlier, tx, later, a, rfl, hb, htxs, hcb, hv⟩ :=
            hrest.mp ⟨e, he, hheight, hkind⟩
          exact ⟨block :: pre, b, post, earlier, tx, later, a, rfl, hb, htxs, hcb,
            by rwa [List.append_cons]⟩
      · rintro ⟨pre, b, post, earlier, tx, later, a, hblocks, hb, htxs, hcb, hv⟩
        rcases List.cons_eq_append_iff.mp hblocks with ⟨rfl, htail⟩ | ⟨pre', rfl, rfl⟩
        · cases htail
          subst hb
          rw [List.append_nil, ← hs, ← netChange_eq P s htxs] at hv
          refine ⟨_, List.mem_append_left _ ((hmem _).mpr ⟨earlier, tx, later, a, htxs, hv, rfl⟩),
            rfl, hcb⟩
        · rw [List.append_cons] at hv
          obtain ⟨e, he, hheight, hkind⟩ :=
            hrest.mpr ⟨pre', b, post, earlier, tx, later, a, rfl, hb, htxs, hcb, hv⟩
          exact ⟨e, List.mem_append_right _ he, hheight, hkind⟩

end Processor

namespace System

theorem since_ne_nil_iff {events : List BtcP2trEvent} {agg : Aggregator}
    (h : Aggregator.Settled events agg) (n : Nat) :
    agg.ledger.p2trEventsSinceBlock n ≠ [] ↔
      ∃ e ∈ events, n ≤ e.blockNumber ∧ withheldAt agg.lastBlockNumber e = false := by
  unfold Ledger.p2trEventsSinceBlock
  constructor
  · intro hne
    obtain ⟨row, hrow⟩ := List.exists_mem_of_ne_nil _ hne
    obtain ⟨hmem, hn⟩ := List.mem_filter.mp hrow
    obtain ⟨e, he, rfl⟩ := List.mem_map.mp (h.events.mem_iff.mp hmem)
    obtain ⟨hin, hbooked⟩ := List.mem_filter.mp he
    exact ⟨e, hin, of_decide_eq_true hn, by simpa using hbooked⟩
  · rintro ⟨e, he, hn, hbooked⟩
    have hrow : e.toRow ∈ agg.ledger.events :=
      h.events.mem_iff.mpr (List.mem_map_of_mem (List.mem_filter.mpr ⟨he, by simp [hbooked]⟩))
    exact List.ne_nil_of_mem (List.mem_filter.mpr ⟨hrow, decide_eq_true hn⟩)

theorem withheld_false_iff {events : List BtcP2trEvent} {agg : Aggregator}
    (h : Aggregator.Settled events agg) (hasc : Ascending events) (e : BtcP2trEvent) :
    withheldAt agg.lastBlockNumber e = false ↔
      (e.isCoinbase = false ∨ ∃ f ∈ events, e.blockNumber + 100 ≤ f.blockNumber) := by
  have hlast := h.last
  unfold withheldAt
  rw [Bool.and_eq_false_iff, decide_eq_false_iff_not, Nat.not_lt, hlast]
  refine or_congr Iff.rfl ⟨fun hle => ?_, ?_⟩
  · have hne : events ≠ [] := by
      rintro rfl
      have hzero : e.blockNumber + 100 ≤ 0 := hle
      omega
    obtain ⟨f, hf, hnumber⟩ := lastBlock_mem hne
    exact ⟨f, hf, hnumber ▸ hle⟩
  · rintro ⟨f, hf, hle⟩
    exact Nat.le_trans hle (hasc.le_last hf)

/-- With all messages handled, a reorganisation is handled, if no statement fails, exactly when
the blocks from its height on have booked something: an ordinary transaction changes an
address, or a coinbase does and 100 blocks or more above it something changes. -/
theorem reorg_handled_iff (P : Processor) (env : DbEnv) (ledgerEnv : LedgerEnv)
    (moves : List Move) (sys : System) (hrun : run P env ledgerEnv moves new = some sys)
    (hidle : sys.writing = none) (hdrained : sys.received = sys.world.channel.length)
    (hasc : (indexedBlocks moves).Pairwise (fun a b => a.header.height < b.header.height))
    (hquiet : ∀ t, ledgerEnv.sqlFails t = false) (blockNumber : Nat) :
    (∃ agg', Aggregator.handleReorg ledgerEnv blockNumber sys.aggregator = .ok () agg') ↔
      ∃ height, blockNumber ≤ height ∧
        (P.Changes [] (indexedBlocks moves) height false ∨
          P.Changes [] (indexedBlocks moves) height true ∧ ∃ above isCoinbase,
            height + 100 ≤ above ∧ P.Changes [] (indexedBlocks moves) above isCoinbase) := by
  obtain ⟨events, hemitted, hsettled⟩ := settled hrun hidle hdrained hasc
  have hevents := hemitted.ascending hasc
  have hchanges := fun height isCoinbase => hemitted.changes_iff [] rfl height isCoinbase
  rw [Aggregator.handleReorg_quiet_iff hquiet, since_ne_nil_iff hsettled]
  simp only [withheld_false_iff hsettled hevents, ← hchanges]
  constructor
  · rintro ⟨e, he, hn, hbooked⟩
    refine ⟨e.blockNumber, hn, ?_⟩
    cases hcb : e.isCoinbase with
    | false => exact .inl ⟨e, he, rfl, hcb⟩
    | true =>
        rcases hbooked with hordinary | ⟨f, hf, hle⟩
        · rw [hcb] at hordinary
          cases hordinary
        · exact .inr ⟨⟨e, he, rfl, hcb⟩, f.blockNumber, f.isCoinbase, hle, f, hf, rfl, rfl⟩
  · rintro ⟨height, hn, ⟨e, he, rfl, hcb⟩ | ⟨⟨e, he, rfl, hcb⟩, above, kind, hle, f, hf, rfl, _⟩⟩
    · exact ⟨e, he, hn, .inl hcb⟩
    · exact ⟨e, he, hn, .inr ⟨f, hf, hle⟩⟩

theorem paidAndSpent_reorg : (∃ agg', Aggregator.handleReorg LedgerEnv.calm 2
      (calmSystem paidAndSpent).aggregator = .ok () agg') ↔
    ∃ height, 2 ≤ height ∧
      (Processor.mainnet.Changes [] (indexedBlocks paidAndSpent) height false ∨
        Processor.mainnet.Changes [] (indexedBlocks paidAndSpent) height true ∧
          ∃ above isCoinbase, height + 100 ≤ above ∧
            Processor.mainnet.Changes [] (indexedBlocks paidAndSpent) above isCoinbase) :=
  reorg_handled_iff Processor.mainnet DbEnv.calm LedgerEnv.calm paidAndSpent _
    (calmSystem_run (by decide +kernel)) (by decide +kernel) (by decide +kernel)
    (by decide) (fun _ => rfl) 2

/-- A second block in which only the coinbase pays a taproot output. -/
def coinbaseOnly : List Move :=
  callsFor (blockAt 101 1 100 [coinbaseTx 1 []]) 3 ++ [.commit] ++
    callsFor (blockAt 102 2 101 [coinbaseTx 2 [payTaproot 7 50]]) 5 ++ [.commit, .deliver]

/-- The node replaces that block, the processor says so, and the aggregator panics. -/
theorem coinbaseOnly_panics :
    run Processor.mainnet DbEnv.calm LedgerEnv.calm coinbaseOnly new =
        some (calmSystem coinbaseOnly) ∧
      (calmSystem coinbaseOnly).writing = none ∧
      (calmSystem coinbaseOnly).received = (calmSystem coinbaseOnly).world.channel.length ∧
      (∃ w, Processor.processFork Processor.mainnet DbEnv.calm
          [blockAt 202 2 101 [coinbaseTx 3 []]] (calmSystem coinbaseOnly).world = .ok () w ∧
        .reorg 2 ∈ w.channel) ∧
      ∃ agg', Aggregator.handleReorg LedgerEnv.calm 2 (calmSystem coinbaseOnly).aggregator =
        .error (.panic "called `Option::unwrap()` on a `None` value") agg' := by
  refine ⟨calmSystem_run (by decide +kernel), by decide +kernel, by decide +kernel, ?_, ?_⟩
  · exact ⟨_, eq_ok_of_returned (by decide +kernel), by decide +kernel⟩
  · exact Aggregator.handleReorg_panics (fun _ => rfl) (by decide +kernel)

end System

end BtcIndexer
