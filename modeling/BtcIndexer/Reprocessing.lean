import BtcIndexer.BlockEvents
import BtcIndexer.ForkReplay

/-! A block handed to the processor once more. Its row is left alone, its transactions are
pointed at the hash they have, its inputs find no candidates; only the insertion of its own
outputs has no rule for a conflict. -/
namespace BtcIndexer
open Stateful Outbox Rows

/-- No input names a transaction of a later block. -/
def Causal (blocks : List BlockInfo) : Prop :=
  ∀ b ∈ blocks, ∀ o ∈ b.outpoints, ∀ c ∈ blocks, o.txid ∈ c.txids →
    c.header.height ≤ b.header.height

theorem Distinct.block_eq {blocks : List BlockInfo} (h : Distinct blocks) {b c : BlockInfo}
    (hb : b ∈ blocks) (hc : c ∈ blocks) {txid : Txid} (hidb : txid ∈ b.txids)
    (hidc : txid ∈ c.txids) : b = c := by
  by_contra hne
  have hsymm : Std.Symm (Function.onFun List.Disjoint BlockInfo.txids) :=
    ⟨fun _ _ hapart => List.disjoint_symm hapart⟩
  exact (List.nodup_flatMap.mp h.txids).2.forall hb hc hne hidb hidc

namespace Processor

/-- No output of the block has a taproot script. -/
def PaysNone (P : Processor) (block : BlockInfo) : Prop :=
  ∀ tx ∈ block.txdata, ∀ out ∈ tx.output, P.isP2tr out.scriptPubkey = false

theorem createdFrom_eq_nil {P : Processor} {blockNum idx : Nat} {txid : Txid} {outs : List TxOut}
    (h : ∀ out ∈ outs, P.isP2tr out.scriptPubkey = false) :
    P.createdFrom blockNum txid idx outs = [] := by
  induction outs generalizing idx with
  | nil => rfl
  | cons out rest ih =>
      obtain ⟨hout, hrest⟩ := List.forall_mem_cons.mp h
      have hnone : P.owner out = none := by simp [owner, hout]
      rw [createdFrom_cons, hnone, ih hrest]
      rfl

theorem PaysNone.created {P : Processor} {block : BlockInfo} (h : P.PaysNone block) :
    P.created block = [] :=
  List.flatMap_eq_nil_iff.mpr fun tx htx => createdFrom_eq_nil (h tx htx)

/-- Where every taproot output has an owner, a block with such an output creates a row. -/
theorem paysNone_of_created {P : Processor} {block : BlockInfo}
    (howned : ∀ tx ∈ block.txdata, P.Owned tx) (h : P.created block = []) :
    P.PaysNone block := by
  intro tx htx out hout
  cases hp : P.isP2tr out.scriptPubkey with
  | false => rfl
  | true =>
      obtain ⟨address, haddress⟩ := Option.isSome_iff_exists.mp (howned tx htx out hout hp)
      obtain ⟨i, hi⟩ := List.getElem?_of_mem hout
      have hrow : utxoRow block.header.height tx.txid i address out ∈ P.created block := by
        refine List.mem_flatMap.mpr ⟨tx, htx, List.mem_filterMap.mpr ⟨(out, i), ?_, ?_⟩⟩
        · exact List.mk_mem_zipIdx_iff_getElem?.mpr hi
        · simp only [haddress, Option.map_some]
      rw [h] at hrow
      cases hrow

theorem debit_nil (ins : List TxIn) (updates : BalanceUpdates) :
    debit ins [] updates = ([], updates) := by
  induction ins with
  | nil => rfl
  | cons txin rest ih => exact ih

theorem credit_of_none {P : Processor} {outs : List TxOut} (updates : BalanceUpdates)
    (h : ∀ out ∈ outs, P.isP2tr out.scriptPubkey = false) : credit P outs updates = updates := by
  induction outs with
  | nil => rfl
  | cons out rest ih =>
      obtain ⟨hout, hrest⟩ := List.forall_mem_cons.mp h
      simp only [credit, hout, Bool.false_eq_true, if_false]
      exact ih hrest

theorem txsEvents_nil {P : Processor} (order : Nat → ScanOrder (Address × Int))
    (blockNum i : Nat) {txs : List Transaction}
    (h : ∀ tx ∈ txs, ∀ out ∈ tx.output, P.isP2tr out.scriptPubkey = false) :
    txsEvents P order blockNum i txs [] = [] := by
  induction txs generalizing i with
  | nil => rfl
  | cons tx rest ih =>
      obtain ⟨hfirst, hrest⟩ := List.forall_mem_cons.mp h
      have hnet : netUpdates P tx [] = ∅ := by
        rw [netUpdates, debit_nil, credit_of_none _ hfirst]
      have hpairs : (order i).order (BalanceUpdates.pairs ∅) = [] :=
        ((order i).perm []).eq_nil
      rw [txsEvents, hnet, hpairs, debit_nil, ih (i + 1) hrest]
      rfl

section Again

variable {P : Processor} {blocks : List BlockInfo} {block : BlockInfo} {s : Store}

theorem Tables.candidates (h : P.Tables blocks s) (hvalid : ConsensusValid blocks)
    (hcausal : Causal blocks) (hmem : block ∈ blocks) (hnone : P.created block = []) :
    s.getRelevantUtxos block.outpoints = [] := by
  refine List.map_eq_nil_iff.mpr (List.filter_eq_nil_iff.mpr fun u hu hcandidate => ?_)
  simp only [Bool.and_eq_true, Option.isNone_iff_eq_none, decide_eq_true_eq] at hcandidate
  obtain ⟨hunspent, hout⟩ := hcandidate
  obtain ⟨pre, b, post, rfl, c, hc, rfl⟩ := mem_createdAll.mp (h.utxos ▸ hu)
  rw [spendRows_outPoint] at hout
  have hle := hcausal block hmem c.outPoint hout b (by simp) (mem_created hc).1
  rcases List.mem_append.mp hmem with hpre | hrest
  · have hlt := (List.pairwise_append.mp hvalid.ascending).2.2 block hpre b List.mem_cons_self
    omega
  · rcases List.mem_cons.mp hrest with rfl | hpost
    · rw [hnone] at hc
      cases hc
    · rw [spendRows_consumer hvalid hc hpost hout] at hunspent
      cases hunspent

theorem Tables.hash_mem (h : P.Tables blocks s) (hmem : block ∈ blocks)
    (hknown : (P.timestampOpt block.header.time).isSome) :
    block.header.hash ∈ s.blocks.map BlockRow.hash := by
  obtain ⟨timestamp, hts⟩ := Option.isSome_iff_exists.mp hknown
  rw [h.blocks]
  refine List.mem_map.mpr ⟨blockRow block.header timestamp, ?_, rfl⟩
  exact List.mem_filterMap.mpr ⟨block, hmem, by rw [hts]; rfl⟩

theorem Tables.transactions_again (h : P.Tables blocks s) (hdistinct : Distinct blocks)
    (hmem : block ∈ blocks) :
    indexTransactions block.header.hash 0 block.txdata s.transactions = s.transactions := by
  rw [h.transactions]
  apply indexTransactions_of_stored
  · intro tx htx
    rw [map_txid_txRows]
    exact List.mem_flatMap.mpr ⟨block, hmem, List.mem_map_of_mem htx⟩
  · intro t ht hid
    obtain ⟨b, hb, htb⟩ := List.mem_flatMap.mp ht
    have hidb : t.txid ∈ b.txids := by
      rw [BlockInfo.txids, ← map_txid_transactionRows b.header.hash 0]
      exact List.mem_map_of_mem htb
    rw [← hdistinct.block_eq hb hmem hidb hid]
    exact mem_transactionRows htb

/-- A block of the tables that pays to no taproot script changes nothing and sends nothing. -/
theorem Tables.again (h : P.Tables blocks s) (hvalid : ConsensusValid blocks)
    (hcausal : Causal blocks) (hmem : block ∈ blocks)
    (hknown : (P.timestampOpt block.header.time).isSome) (hpays : P.PaysNone block)
    (order : Nat → ScanOrder (Address × Int)) :
    apply (blockOps P order block s) s = .ok s ∧ blockEvents P order block s = [] := by
  have hnone := hpays.created
  have hcandidates := h.candidates hvalid hcausal hmem hnone
  obtain ⟨timestamp, hts⟩ := Option.isSome_iff_exists.mp hknown
  have hrow : s.upsertBlock (blockRow block.header timestamp) = s :=
    Store.upsertBlock_of_mem _ (h.hash_mem hmem hknown)
  have href : block.header.hash ∈
      (s.upsertBlock (blockRow block.header timestamp)).blocks.map BlockRow.hash := by
    rw [hrow]
    exact h.hash_mem hmem hknown
  have hnew : Keyed UtxoRow.outPoint (s.utxos ++ P.created block) := by
    rw [hnone, List.append_nil]
    exact s.outPointKey
  have howner : ∀ tx ∈ block.txdata, P.Owned tx := by
    intro tx htx out hout hp
    rw [hpays tx htx out hout] at hp
    cases hp
  obtain ⟨s', hs'⟩ := blockOps_total_of_ref order hts href hnew howner
  have hindexed := blockOps_ok hs'
  refine ⟨?_, ?_⟩
  · rw [hs']
    congr 1
    apply Store.ext
    · obtain ⟨timestamp', hts', hb⟩ := hindexed.blocks
      cases hts.symm.trans hts'
      rw [hb, hrow]
    · exact hindexed.transactions.trans (h.transactions_again hvalid.distinct hmem)
    · rw [hindexed.utxos, hnone, List.append_nil]
      conv_rhs => rw [← List.map_id s.utxos]
      apply List.map_congr_left
      intro u hu
      unfold BlockInfo.spendRow
      rw [if_neg]
      · rfl
      · rintro ⟨hunspent, hout⟩
        have hmem : u.toInfo ∈ s.getRelevantUtxos block.outpoints :=
          List.mem_map_of_mem (List.mem_filter.mpr ⟨hu, by simp [hunspent, hout]⟩)
        rw [hcandidates] at hmem
        cases hmem
  · rw [blockEvents, hcandidates]
    exact txsEvents_nil order _ 0 hpays

/-- A block of the tables that creates rows is refused. -/
theorem Tables.refuses (h : P.Tables blocks s) (hmem : block ∈ blocks) {s' : Store}
    (hagain : P.Indexed block s s') : P.PaysNone block := by
  refine paysNone_of_created hagain.owners (List.eq_nil_iff_forall_not_mem.mpr fun u hu => ?_)
  have hold : u.outPoint ∈ (s.utxos.map block.spendRow).map UtxoRow.outPoint := by
    have hmap : (s.utxos.map block.spendRow).map UtxoRow.outPoint =
        s.utxos.map UtxoRow.outPoint := by
      simp only [List.map_map, Function.comp_def, BlockInfo.spendRow_outPoint]
    rw [hmap, h.utxos, map_outPoint_createdAll]
    exact List.mem_map_of_mem (List.mem_flatMap.mpr ⟨block, hmem, hu⟩)
  obtain ⟨old, hmem, hsame⟩ := List.mem_map.mp hold
  exact (hagain.utxos ▸ s'.outPointKey).ne_of_append hmem hu hsame

end Again

/-- An indexed block processed once more succeeds, changes nothing and sends nothing exactly
if it pays to no taproot script. -/
theorem reprocess_iff_paysNone (P : Processor) (env env' : DbEnv) (blocks : List BlockInfo)
    (block : BlockInfo) (w w' again : World Store AggregatorMsg) (hvalid : ConsensusValid blocks)
    (hcausal : Causal blocks) (hempty : w.store = Store.empty)
    (hrun : processAll P env blocks w = .ok () w') (hmem : block ∈ blocks)
    (hstore : again.store = w'.store) (hquiet : env'.Quiet) :
    (∃ w'', process P env' block again = .ok () w'' ∧ w''.store = again.store ∧
      w''.channel = again.channel) ↔ P.PaysNone block := by
  have hindexed := (hempty ▸ processAll_ok hrun : P.IndexedAll blocks Store.empty w'.store)
  have htables := hindexed.tables hvalid.distinct
  rw [← hstore] at htables
  constructor
  · rintro ⟨w'', hagain, _⟩
    exact htables.refuses hmem (process_ok hagain)
  · intro hpays
    obtain ⟨happly, hevents⟩ := htables.again hvalid hcausal hmem (hindexed.known block hmem).1
      hpays (env'.hashOrder again.clock 0)
    obtain ⟨w'', htransact⟩ := transact_quiet hquiet.faults happly
    have hprocess : process P env' block again = .ok () w'' := (process_eq ..).trans htransact
    refine ⟨w'', hprocess, ?_, ?_⟩
    · have hsame := (transact_ok htransact).1
      rw [happly] at hsame
      exact (Except.ok.inj hsame).symm
    · rw [(process_emitted hprocess).2, hevents, List.map_nil, List.append_nil]

instance (P : Processor) (block : BlockInfo) : Decidable (P.PaysNone block) :=
  inferInstanceAs (Decidable (∀ tx ∈ block.txdata, _))

/-- A block whose only input spends what the block before it paid. -/
def collecting : List BlockInfo :=
  [blockAt 101 1 100 [coinbaseTx 1 [], spendingTx 2 9 [payTaproot 7 50]],
    blockAt 102 2 101 [coinbaseTx 4 [], spendingTx 3 2 []]]

theorem collecting_valid : ConsensusValid collecting := by
  constructor <;> decide

theorem collecting_causal : Causal collecting := by
  unfold Causal
  decide

/-- The block that only spends can be processed again. -/
theorem reprocess_collecting :
    (∃ w'', process mainnet DbEnv.calm (blockAt 102 2 101 [coinbaseTx 4 [], spendingTx 3 2 []])
        (indexed collecting) = .ok () w'' ∧ w''.store = (indexed collecting).store ∧
          w''.channel = (indexed collecting).channel) ↔
      PaysNone mainnet (blockAt 102 2 101 [coinbaseTx 4 [], spendingTx 3 2 []]) :=
  reprocess_iff_paysNone mainnet DbEnv.calm DbEnv.calm collecting _ ⟨Store.empty, [], 0⟩
    (indexed collecting) (indexed collecting) collecting_valid collecting_causal rfl
    (eq_ok_of_returned (by decide +kernel)) (by simp [collecting]) rfl DbEnv.calm_quiet

/-- The block that pays cannot: its row is inserted a second time. -/
theorem reprocess_refused : ∃ blocks block w', ConsensusValid blocks ∧ Causal blocks ∧
    block ∈ blocks ∧ processAll mainnet DbEnv.calm blocks ⟨Store.empty, [], 0⟩ = .ok () w' ∧
      ¬ ∃ w'', process mainnet DbEnv.calm block w' = .ok () w'' := by
  refine ⟨collecting, blockAt 101 1 100 [coinbaseTx 1 [], spendingTx 2 9 [payTaproot 7 50]],
    indexed collecting, collecting_valid, collecting_causal, by simp [collecting],
    eq_ok_of_returned (by decide +kernel), ?_⟩
  rintro ⟨w'', h⟩
  have hrefused : returned (process mainnet DbEnv.calm
      (blockAt 101 1 100 [coinbaseTx 1 [], spendingTx 2 9 [payTaproot 7 50]])
      (indexed collecting)) = false := by decide +kernel
  rw [h] at hrefused
  cases hrefused

end Processor

end BtcIndexer
