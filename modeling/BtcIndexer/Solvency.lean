import BtcIndexer.Settlement
import BtcIndexer.ReorgTotality
import Mathlib.Data.List.Flatten

/-! No balance is ever negative. A block takes from an address no more than the block finds in
its unspent rows, and of these only the young coinbase rows are withheld, which it cannot
spend; what it has sent so far of its receipts and expenses does not matter. -/
namespace BtcIndexer
open Stateful Outbox Rows

/-- An input consumes an output of a coinbase 100 blocks above it or later. -/
def CoinbaseMature (blocks : List BlockInfo) : Prop :=
  ∀ b ∈ blocks, ∀ tx ∈ b.txdata, tx.isCoinbase = true → ∀ c ∈ blocks, ∀ o ∈ c.outpoints,
    o.txid = tx.txid → b.header.height + 100 ≤ c.header.height

theorem Ledger.amountOf_eq (events : List BtcP2trEvent) (a : Address) :
    amountOf events a = total (fun e => if e.address = a then e.amount else 0) events := by
  rw [amountOf, total_filter]
  apply total_congr
  intro e _
  simp only [decide_eq_true_eq]

theorem unspentOf_rows (rows : List UtxoRow) (a : Address) :
    unspentOf rows a =
      total (UtxoRow.amountFor a) (rows.filter (fun u => u.spentBlock.isNone)) := by
  rw [unspentOf_eq, total_filter]
  apply total_congr
  intro u _
  simp only [Option.isNone_iff_eq_none]

theorem UtxoRow.amountFor_nonneg {u : UtxoRow} (h : 0 ≤ u.amount) (a : Address) :
    0 ≤ u.amountFor a := by
  unfold amountFor
  split
  · exact h
  · exact Int.le_refl 0

namespace Processor

theorem created_nonneg (P : Processor) (blockNum : Nat) (tx : Transaction) (a : Address) :
    0 ≤ total (UtxoRow.amountFor a) (P.createdBy blockNum tx) :=
  total_nonneg fun _ hu => UtxoRow.amountFor_nonneg (mem_createdFrom hu).2.2.2.2 a

theorem spentFor_nonneg {relevant : RelevantUtxos} (h : ∀ info ∈ relevant, 0 ≤ info.amount)
    (outpoints : List OutPoint) (a : Address) : 0 ≤ spentFor relevant outpoints a := by
  apply total_nonneg
  intro info hinfo
  have hamount := h info hinfo
  unfold BtcUtxoInfo.amountFor
  split
  · split <;> omega
  · exact Int.le_refl 0

/-- Any part of the events of some transactions takes at most what their inputs spend. -/
theorem txsEvents_bound {P : Processor} {txs : List Transaction} {relevant : RelevantUtxos}
    (howned : ∀ tx ∈ txs, P.Owned tx) (h : Keyed BtcUtxoInfo.getOutPoint relevant)
    (hpos : ∀ info ∈ relevant, 0 ≤ info.amount) (order : Nat → ScanOrder (Address × Int))
    (blockNum i : Nat) {part : List BtcP2trEvent}
    (hpart : part.Sublist (txsEvents P order blockNum i txs relevant)) (a : Address) :
    -spentFor relevant (namedBy txs) a ≤ Ledger.amountOf part a := by
  induction txs generalizing i relevant part with
  | nil =>
      rw [List.eq_nil_of_sublist_nil hpart, namedBy, List.flatMap_nil, spentFor_nil]
      simp
  | cons tx rest ih =>
      obtain ⟨first, later, rfl, hfirst, hlater⟩ := List.sublist_append_iff.mp hpart
      have hleft := h.filter
        (fun info => info.getOutPoint ∉ tx.input.map TxIn.previousOutput)
      have hposleft : ∀ info ∈ relevant.filter
          (fun info => info.getOutPoint ∉ tx.input.map TxIn.previousOutput), 0 ≤ info.amount :=
        fun info hinfo => hpos info (List.mem_of_mem_filter hinfo)
      rw [debit_fst] at hlater
      have hrest := ih (fun t ht => howned t (List.mem_cons_of_mem tx ht)) hleft hposleft _ hlater
      have hcons : namedBy (tx :: rest) =
          tx.input.map TxIn.previousOutput ++ namedBy rest := List.flatMap_cons
      have hspent := spentFor_nonneg hpos (tx.input.map TxIn.previousOutput) a
      have hcreated := P.created_nonneg blockNum tx a
      have hkeyed : Keyed Prod.fst ((order i).order (netUpdates P tx relevant).pairs) :=
        (netUpdates P tx relevant).keyed_pairs.perm ((order i).perm _).symm
      have hnet := amountOf_netUpdates (howned tx List.mem_cons_self) h blockNum (order i) a
      rw [netChange] at hnet
      have hone : -spentFor relevant (tx.input.map TxIn.previousOutput) a ≤
          Ledger.amountOf first a := by
        rw [Ledger.amountOf_eq] at hnet ⊢
        rcases (keyed_txEvents blockNum tx hkeyed).total_sublist hfirst BtcP2trEvent.amount a with
          hnone | hall
        · omega
        · omega
      rw [hcons, spentFor_append, Ledger.amountOf_append]
      omega

def coinbaseRows (P : Processor) (block : BlockInfo) : List UtxoRow :=
  (block.txdata.filter Transaction.isCoinbase).flatMap (P.createdBy block.header.height)

theorem isCoinbase_of_mem {blockNum : Nat} {tx : Transaction} {pairs : List (Address × Int)}
    {e : BtcP2trEvent} (h : e ∈ txEvents blockNum tx pairs) : e.isCoinbase = tx.isCoinbase := by
  obtain ⟨p, _, rfl⟩ := List.mem_map.mp h
  rfl

theorem amountOf_coinbase {P : Processor} {txs : List Transaction} {relevant : RelevantUtxos}
    (howned : ∀ tx ∈ txs, P.Owned tx) (h : Keyed BtcUtxoInfo.getOutPoint relevant)
    (hfree : ∀ tx ∈ txs, tx.isCoinbase = true → ∀ txin ∈ tx.input,
      txin.previousOutput ∉ relevant.map BtcUtxoInfo.getOutPoint)
    (order : Nat → ScanOrder (Address × Int)) (blockNum i : Nat) (a : Address) :
    Ledger.amountOf ((txsEvents P order blockNum i txs relevant).filter
        BtcP2trEvent.isCoinbase) a =
      total (UtxoRow.amountFor a)
        ((txs.filter Transaction.isCoinbase).flatMap (P.createdBy blockNum)) := by
  induction txs generalizing i relevant with
  | nil => rfl
  | cons tx rest ih =>
      have hleft := h.filter
        (fun info => info.getOutPoint ∉ tx.input.map TxIn.previousOutput)
      have hrest := ih (fun t ht => howned t (List.mem_cons_of_mem tx ht)) hleft
        (fun t ht hcb txin hin hmem => hfree t (List.mem_cons_of_mem tx ht) hcb txin hin
          ((List.filter_sublist.map _).subset hmem)) (i + 1)
      rw [txsEvents, List.filter_append, Ledger.amountOf_append, debit_fst, hrest]
      cases hcb : tx.isCoinbase with
      | true =>
          have hall : (txEvents blockNum tx ((order i).order (netUpdates P tx relevant).pairs)
              ).filter BtcP2trEvent.isCoinbase =
                txEvents blockNum tx ((order i).order (netUpdates P tx relevant).pairs) :=
            List.filter_eq_self.mpr fun e he => (isCoinbase_of_mem he).trans hcb
          have hzero : spentFor relevant (tx.input.map TxIn.previousOutput) a = 0 := by
            apply total_eq_zero
            intro info hinfo
            rw [if_neg]
            intro hmem
            obtain ⟨txin, hin, hsame⟩ := List.mem_map.mp hmem
            exact hfree tx List.mem_cons_self hcb txin hin
              (hsame ▸ List.mem_map_of_mem hinfo)
          rw [hall, amountOf_netUpdates (howned tx List.mem_cons_self) h, netChange, hzero,
            List.filter_cons_of_pos hcb, List.flatMap_cons, total_append]
          omega
      | false =>
          have hnone : (txEvents blockNum tx ((order i).order (netUpdates P tx relevant).pairs)
              ).filter BtcP2trEvent.isCoinbase = [] := by
            apply List.filter_eq_nil_iff.mpr
            intro e he hcoinbase
            rw [isCoinbase_of_mem he, hcb] at hcoinbase
            cases hcoinbase
          rw [hnone, List.filter_cons_of_neg (by simp [hcb]), Ledger.amountOf_nil]
          omega

/-- The coinbase rows of some blocks that the given height does not mature. -/
def youngRows (P : Processor) (blocks : List BlockInfo) (height : Nat) : List UtxoRow :=
  blocks.flatMap (fun b => if height < b.header.height + 100 then P.coinbaseRows b else [])

theorem mem_coinbaseRows {P : Processor} {block : BlockInfo} {u : UtxoRow}
    (h : u ∈ P.coinbaseRows block) : u ∈ P.created block ∧
      ∃ tx ∈ block.txdata, tx.isCoinbase = true ∧ u.txid = tx.txid := by
  obtain ⟨tx, htx, hu⟩ := List.mem_flatMap.mp h
  obtain ⟨hin, hcb⟩ := List.mem_filter.mp htx
  exact ⟨List.mem_flatMap.mpr ⟨tx, hin, hu⟩, tx, hin, hcb, (mem_createdFrom hu).1⟩

theorem mem_youngRows {P : Processor} {blocks : List BlockInfo} {height : Nat} {u : UtxoRow}
    (h : u ∈ P.youngRows blocks height) :
    ∃ b ∈ blocks, height < b.header.height + 100 ∧ u ∈ P.coinbaseRows b := by
  obtain ⟨b, hb, hu⟩ := List.mem_flatMap.mp h
  split at hu
  · next hyoung => exact ⟨b, hb, hyoung, hu⟩
  · cases hu

theorem youngRows_sublist (P : Processor) (blocks : List BlockInfo) (height : Nat) :
    (P.youngRows blocks height).Sublist (blocks.flatMap P.created) := by
  apply List.Sublist.flatMap_right
  intro b _
  split
  · exact List.filter_sublist.flatMap _
  · exact List.nil_sublist _

theorem blockEvents_withheld (P : Processor) (order : Nat → ScanOrder (Address × Int))
    (block : BlockInfo) (s : Store) (height : Nat) :
    (P.blockEvents order block s).filter (withheldAt height) =
      if height < block.header.height + 100 then
        (P.blockEvents order block s).filter BtcP2trEvent.isCoinbase else [] := by
  split
  · next hyoung =>
      apply List.filter_congr
      intro e he
      rw [withheldAt, blockNumber_of_mem he, decide_eq_true hyoung, Bool.and_true]
  · next hold =>
      apply List.filter_eq_nil_iff.mpr
      intro e he hwithheld
      rw [withheldAt, blockNumber_of_mem he, decide_eq_false hold, Bool.and_false] at hwithheld
      cases hwithheld

/-- What a run of blocks has withheld at a height is what its young coinbase rows hold. -/
theorem Emitted.withheld {P : Processor} {blocks : List BlockInfo} {s s' : Store}
    {events : List BtcP2trEvent} (h : P.Emitted blocks s s' events)
    (hnull : OutPoint.null ∉ s.utxos.map UtxoRow.outPoint)
    (hcoinbase : ∀ b ∈ blocks, ∀ tx ∈ b.txdata, tx.isCoinbase = true →
      ∀ txin ∈ tx.input, txin.previousOutput = OutPoint.null)
    (hnotNull : ∀ b ∈ blocks, OutPoint.null.txid ∉ b.txids) (height : Nat) (a : Address) :
    Ledger.amountOf (events.filter (withheldAt height)) a =
      total (UtxoRow.amountFor a) (P.youngRows blocks height) := by
  induction h with
  | nil s => rfl
  | @cons block rest s s₁ s' events order first later ih =>
      have hnew : OutPoint.null ∉ s₁.utxos.map UtxoRow.outPoint := by
        rw [first.utxos, List.map_append, List.map_map]
        intro hmem
        rcases List.mem_append.mp hmem with hold | hnew
        · obtain ⟨u, hu, hout⟩ := List.mem_map.mp hold
          rw [Function.comp_apply, BlockInfo.spendRow_outPoint] at hout
          exact hnull (hout ▸ List.mem_map_of_mem hu)
        · obtain ⟨u, hu, hout⟩ := List.mem_map.mp hnew
          have hid : u.txid = OutPoint.null.txid := congrArg OutPoint.txid hout
          exact hnotNull block List.mem_cons_self (hid ▸ (mem_created hu).1)
      have hrest := ih hnew (fun b hb => hcoinbase b (List.mem_cons_of_mem block hb))
        (fun b hb => hnotNull b (List.mem_cons_of_mem block hb))
      have hfree : ∀ tx ∈ block.txdata, tx.isCoinbase = true → ∀ txin ∈ tx.input,
          txin.previousOutput ∉
            (s.getRelevantUtxos block.outpoints).map BtcUtxoInfo.getOutPoint := by
        intro tx htx hcb txin hin hmem
        rw [hcoinbase block List.mem_cons_self tx htx hcb txin hin] at hmem
        exact hnull (getRelevantUtxos_keys hmem)
      have hyoung : P.youngRows (block :: rest) height =
          (if height < block.header.height + 100 then P.coinbaseRows block else []) ++
            P.youngRows rest height := List.flatMap_cons
      rw [List.filter_append, Ledger.amountOf_append, hrest, hyoung, total_append,
        blockEvents_withheld]
      split
      · rw [blockEvents, amountOf_coinbase first.owners (keyed_relevant s block.outpoints) hfree]
        rfl
      · rfl

theorem Emitted.split {P : Processor} {blocks : List BlockInfo} {s s' : Store}
    {events part : List BtcP2trEvent} (h : P.Emitted blocks s s' events)
    (hpart : part <+: events) (hne : part ≠ []) :
    ∃ pre block post s₁ before order inBlock, blocks = pre ++ block :: post ∧
      P.Emitted pre s s₁ before ∧ (∀ tx ∈ block.txdata, P.Owned tx) ∧
      part = before ++ inBlock ∧ inBlock ≠ [] ∧ inBlock <+: P.blockEvents order block s₁ := by
  induction h generalizing part with
  | nil s => exact absurd (List.prefix_nil.mp hpart) hne
  | @cons block rest s s₁ s' events order first later ih =>
      obtain ⟨tail, htail⟩ := hpart
      have hhere : part <+: P.blockEvents order block s →
          ∃ pre b post s₁ before order inBlock, block :: rest = pre ++ b :: post ∧
            P.Emitted pre s s₁ before ∧ (∀ tx ∈ b.txdata, P.Owned tx) ∧
            part = before ++ inBlock ∧ inBlock ≠ [] ∧
              inBlock <+: P.blockEvents order b s₁ := fun hin =>
        ⟨[], block, rest, s, [], order, part, rfl, .nil s, first.owners, rfl, hne, hin⟩
      rcases List.append_eq_append_iff.mp htail with ⟨more, hblock, _⟩ | ⟨later', rfl, hrest⟩
      · exact hhere ⟨more, hblock.symm⟩
      · by_cases hnil : later' = []
        · exact hhere ⟨[], by rw [hnil, List.append_nil, List.append_nil]⟩
        · obtain ⟨pre, b, post, s₂, before, order', inBlock, rfl, hpre, howned, rfl, hin, hpre'⟩ :=
            ih ⟨tail, hrest.symm⟩ hnil
          exact ⟨block :: pre, b, post, s₂, _, order', inBlock, rfl, .cons order first hpre,
            howned, (List.append_assoc _ _ _).symm, hin, hpre'⟩

section Block

variable {P : Processor} {pre post : List BlockInfo} {block : BlockInfo} {s : Store}

theorem createdAll_nonneg {u : UtxoRow} (h : u ∈ P.createdAll pre) : 0 ≤ u.amount := by
  obtain ⟨_, b, later, _, c, hc, rfl⟩ := mem_createdAll.mp h
  have hamount := (mem_created hc).2.2.2
  rcases spendRows_cases later (mem_created hc).2.2.1 with ⟨hsame, _⟩ | ⟨_, _, _, hmark⟩
  · rw [hsame]
    exact hamount
  · rw [hmark]
    exact hamount

theorem young_unnamed (hvalid : ConsensusValid (pre ++ block :: post))
    (hmature : CoinbaseMature (pre ++ block :: post)) {b : BlockInfo} (hb : b ∈ pre)
    (hyoung : block.header.height < b.header.height + 100) {u : UtxoRow}
    (hu : u ∈ P.coinbaseRows b) {c : BlockInfo} (hc : c ∈ pre ++ [block]) :
    u.outPoint ∉ c.outpoints := by
  intro hout
  obtain ⟨_, tx, htx, hcb, hid⟩ := mem_coinbaseRows hu
  have hlate := hmature b (by simp [hb]) tx htx hcb c
    (by simp only [List.mem_append, List.mem_cons, List.not_mem_nil, or_false] at hc ⊢; tauto)
    u.outPoint hout hid
  have hle : c.header.height ≤ block.header.height := by
    rcases List.mem_append.mp hc with hc | hc
    · exact Nat.le_of_lt ((List.pairwise_append.mp hvalid.ascending).2.2 c hc block
        List.mem_cons_self)
    · rw [List.mem_singleton.mp hc]
  omega

theorem youngRows_unspent (hvalid : ConsensusValid (pre ++ block :: post))
    (hmature : CoinbaseMature (pre ++ block :: post)) {u : UtxoRow}
    (hu : u ∈ P.youngRows pre block.header.height) :
    u ∈ P.createdAll pre ∧ u.spentBlock = none ∧ u.outPoint ∉ block.outpoints := by
  obtain ⟨b, hb, hyoung, hrow⟩ := mem_youngRows hu
  have hfree := fun c hc => young_unnamed hvalid hmature hb hyoung hrow (c := c) hc
  have hnew := (mem_coinbaseRows hrow).1
  refine ⟨?_, (mem_created hnew).2.2.1, hfree block (by simp)⟩
  obtain ⟨first, later, rfl⟩ := List.append_of_mem hb
  refine mem_createdAll.mpr ⟨first, b, later, rfl, u, hnew, ?_⟩
  exact spendRows_of_notMem fun c hc => hfree c (by simp [hc])

theorem spentFor_rows (s : Store) (utxos : List OutPoint) (a : Address) :
    spentFor (s.getRelevantUtxos utxos) utxos a =
      total (UtxoRow.amountFor a) (s.relevantRows utxos) := by
  rw [spentFor, Store.getRelevantUtxos, total_map]
  apply total_congr
  intro u hu
  have hnamed := (List.mem_filter.mp hu).2
  rw [Bool.and_eq_true, decide_eq_true_eq] at hnamed
  rw [UtxoRow.getOutPoint_toInfo, if_pos hnamed.2, UtxoRow.amountFor_toInfo]

/-- What is withheld and what the block spends are different unspent rows. -/
theorem young_and_named (hvalid : ConsensusValid (pre ++ block :: post))
    (hmature : CoinbaseMature (pre ++ block :: post)) (hs : s.utxos = P.createdAll pre)
    (a : Address) : total (UtxoRow.amountFor a) (P.youngRows pre block.header.height) +
      spentFor (s.getRelevantUtxos block.outpoints) block.outpoints a ≤ unspentOf s.utxos a := by
  rw [spentFor_rows, unspentOf_rows, ← total_append]
  have hkeys : Keyed UtxoRow.outPoint (pre.flatMap P.created) := by
    have hkey := s.outPointKey
    rw [hs] at hkey
    unfold Keyed at hkey ⊢
    rwa [map_outPoint_createdAll] at hkey
  have hyoung : (P.youngRows pre block.header.height).Nodup :=
    hkeys.rows_nodup.sublist (P.youngRows_sublist pre block.header.height)
  have hnamed : (s.relevantRows block.outpoints).Nodup := s.outPointKey.rows_nodup.filter _
  apply total_le_of_subset
  · refine hyoung.append hnamed ?_
    intro u hu hrow
    have hout := (List.mem_filter.mp hrow).2
    rw [Bool.and_eq_true, decide_eq_true_eq] at hout
    exact (youngRows_unspent hvalid hmature hu).2.2 hout.2
  · intro u hu
    rcases List.mem_append.mp hu with hu | hu
    · obtain ⟨hrow, hnone, _⟩ := youngRows_unspent hvalid hmature hu
      exact List.mem_filter.mpr ⟨hs ▸ hrow, by rw [hnone]; rfl⟩
    · obtain ⟨hrow, hout⟩ := List.mem_filter.mp hu
      rw [Bool.and_eq_true] at hout
      exact List.mem_filter.mpr ⟨hrow, hout.1⟩
  · intro u hu
    exact UtxoRow.amountFor_nonneg
      (createdAll_nonneg (hs ▸ List.mem_of_mem_filter hu)) a

end Block

/-- What is booked after any number of events is never negative. -/
theorem Emitted.solvent {P : Processor} {blocks : List BlockInfo} {s' : Store}
    {events part : List BtcP2trEvent} (h : P.Emitted blocks Store.empty s' events)
    (hvalid : ConsensusValid blocks) (hmature : CoinbaseMature blocks)
    (hpart : part <+: events) (a : Address) :
    0 ≤ Ledger.amountOf (part.filter (fun e => !withheldAt (lastBlock part) e)) a := by
  by_cases hne : part = []
  · rw [hne]
    exact Int.le_refl 0
  · obtain ⟨pre, block, post, s, before, order, inBlock, rfl, hpre, howned, rfl, hin, hblock⟩ :=
      h.split hpart hne
    have hs := hpre.indexedAll.fromEmpty
    have hlast : lastBlock (before ++ inBlock) = block.header.height := by
      rw [lastBlock, List.getLast?_append_of_ne_nil before hin,
        List.getLast?_eq_some_getLast hin]
      exact blockNumber_of_mem (hblock.subset (List.getLast_mem hin))
    have hbound := txsEvents_bound howned (keyed_relevant s block.outpoints)
      (fun info hinfo => by
        obtain ⟨u, hu, rfl⟩ := List.mem_map.mp hinfo
        exact createdAll_nonneg (hs ▸ List.mem_of_mem_filter hu))
      order block.header.height 0
      (List.filter_sublist.trans hblock.sublist :
        (inBlock.filter (fun e => !withheldAt block.header.height e)).Sublist _) a
    have hnamed : namedBy block.txdata = block.outpoints := rfl
    rw [hnamed] at hbound
    have hwithheld := hpre.withheld (by simp [Store.empty])
      (fun b hb => hvalid.coinbase b (by simp [hb])) (fun b hb => hvalid.notNull b (by simp [hb]))
      block.header.height a
    have hunspent := hpre.unspentOf a
    have hempty : BtcIndexer.unspentOf Store.empty.utxos a = 0 := rfl
    have hrows := young_and_named hvalid hmature hs a
    have hsplit := Ledger.amountOf_perm
      (List.filter_append_perm (withheldAt block.header.height) before) a
    rw [Ledger.amountOf_append] at hsplit
    rw [hlast, List.filter_append, Ledger.amountOf_append]
    omega

end Processor

namespace System

/-- In every run over a valid chain in which no call fails, every balance is at least zero at
every moment, also while a block is open. -/
theorem balances_nonneg (P : Processor) (env : DbEnv) (ledgerEnv : LedgerEnv)
    (moves rest : List Move) (sys done : System) (hrun : run P env ledgerEnv moves new = some sys)
    (hrest : run P env ledgerEnv rest sys = some done) (hidle : done.writing = none)
    (hvalid : ConsensusValid (indexedBlocks (moves ++ rest)))
    (hmature : CoinbaseMature (indexedBlocks (moves ++ rest))) :
    ∀ row ∈ sys.aggregator.ledger.balances, 0 ≤ row.balance := by
  intro row hrow
  obtain ⟨events, hemitted, _, hprefix, hsettled⟩ :=
    settled_within hrun hrest hidle hvalid.ascending
  obtain ⟨_, hplaced⟩ := hsettled.conserved
  have hbalance : sys.aggregator.ledger.balance row.address = row.balance :=
    valueAt_of_mem sys.aggregator.ledger.balanceKey hrow
  rw [← hbalance, hplaced.balance, Ledger.booked_perm hsettled.events, Ledger.booked_toRow,
    hsettled.last]
  exact hemitted.solvent hvalid hmature hprefix row.address

def earning : BlockInfo := blockAt 101 1 100 [coinbaseTx 1 [payTaproot 7 50]]

/-- The first block that may spend the coinbase of block 1. -/
def spendingAtMaturity : BlockInfo :=
  blockAt 102 101 101 [coinbaseTx 2 [], spendingTx 3 1 [payTaproot 8 40]]

/-- The events of block 101 are handled one by one, the first while the block is open. -/
def atMaturity : List Move :=
  callsFor earning 5 ++ [.commit, .deliver] ++ callsFor spendingAtMaturity 8 ++ [.deliver]

theorem maturity_valid : ConsensusValid [earning, spendingAtMaturity] := by
  constructor <;> decide

theorem maturity_mature : CoinbaseMature [earning, spendingAtMaturity] := by
  unfold CoinbaseMature
  decide

theorem calmSystem_rest {moves rest : List Move}
    (hmoves : (run Processor.mainnet DbEnv.calm LedgerEnv.calm moves new).isSome = true)
    (hall : (run Processor.mainnet DbEnv.calm LedgerEnv.calm (moves ++ rest) new).isSome = true) :
    run Processor.mainnet DbEnv.calm LedgerEnv.calm rest (calmSystem moves) =
      some (calmSystem (moves ++ rest)) := by
  have hrun := calmSystem_run hall
  rwa [run_append, calmSystem_run hmoves, Option.bind_some] at hrun

theorem atMaturity_blocks :
    indexedBlocks (atMaturity ++ [.commit, .deliver]) = [earning, spendingAtMaturity] := by
  decide +kernel

theorem atMaturity_nonneg :
    (calmSystem atMaturity).aggregator.handled.length = 2 ∧
      ∀ row ∈ (calmSystem atMaturity).aggregator.ledger.balances, 0 ≤ row.balance := by
  refine ⟨by decide +kernel, ?_⟩
  apply balances_nonneg Processor.mainnet DbEnv.calm LedgerEnv.calm atMaturity [.commit, .deliver]
    _ (calmSystem (atMaturity ++ [.commit, .deliver]))
  · exact calmSystem_run (by decide +kernel)
  · exact calmSystem_rest (by decide +kernel) (by decide +kernel)
  · decide +kernel
  · rw [atMaturity_blocks]
    exact maturity_valid
  · rw [atMaturity_blocks]
    exact maturity_mature

end System

end BtcIndexer
