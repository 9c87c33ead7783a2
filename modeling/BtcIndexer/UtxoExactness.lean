import BtcIndexer.Chain

/-! The utxo table against the set of unspent outputs. A block reads the rows its inputs may
spend once, before it creates any row of its own, so an output spent in the block that creates
it is never marked. The table is exact for the runs without such a spend and for no others. -/
namespace BtcIndexer
open Stateful Outbox Rows

namespace Processor

/-- A taproot output of the chain that no input of the chain consumes. -/
def Unspent (P : Processor) (blocks : List BlockInfo) (u : UtxoRow) : Prop :=
  (∃ b ∈ blocks, u ∈ P.created b) ∧ ∀ b ∈ blocks, u.outPoint ∉ b.outpoints

/-- The table says what the chain says: which outputs are unspent and where others went. -/
structure UtxoExact (P : Processor) (blocks : List BlockInfo) (s : Store) : Prop where
  unspent : ∀ u, (u ∈ s.utxos ∧ u.spentBlock = none) ↔ P.Unspent blocks u
  spent : ∀ b ∈ blocks, ∀ u ∈ P.created b, ∀ c ∈ blocks, u.outPoint ∈ c.outpoints →
    { u with spentBlock := some c.header.height } ∈ s.utxos

/-- No input consumes an output of its own block or of a later one. -/
def SpentLater (P : Processor) (blocks : List BlockInfo) : Prop :=
  ∀ b ∈ blocks, ∀ u ∈ P.created b, ∀ c ∈ blocks, u.outPoint ∈ c.outpoints →
    b.header.height < c.header.height

theorem mem_post_of_lt {pre post : List BlockInfo} {b c : BlockInfo}
    (h : ConsensusValid (pre ++ b :: post)) (hc : c ∈ pre ++ b :: post)
    (hlt : b.header.height < c.header.height) : c ∈ post := by
  have hpre := (List.pairwise_append.mp h.ascending).2.2
  rcases List.mem_append.mp hc with hc | hc
  · have hgt := hpre c hc b List.mem_cons_self
    omega
  · rcases List.mem_cons.mp hc with rfl | hc
    · omega
    · exact hc

theorem lt_of_mem_post {pre post : List BlockInfo} {b c : BlockInfo}
    (h : ConsensusValid (pre ++ b :: post)) (hc : c ∈ post) :
    b.header.height < c.header.height := by
  have hpost := (List.pairwise_append.mp h.ascending).2.1
  exact (List.pairwise_cons.mp hpost).1 c hc

/-- A row consumed later on the chain carries the height of its consumer. -/
theorem spendRows_consumer {P : Processor} {pre post : List BlockInfo} {b c : BlockInfo}
    {u : UtxoRow} (h : ConsensusValid (pre ++ b :: post)) (hu : u ∈ P.created b)
    (hc : c ∈ post) (hout : u.outPoint ∈ c.outpoints) :
    spendRows post u = { u with spentBlock := some c.header.height } := by
  obtain ⟨mid, tail, rfl⟩ := List.append_of_mem hc
  have hvalid : ConsensusValid ((pre ++ b :: mid) ++ c :: tail) := by simpa using h
  have hne := h.created_ne_null (by simp) hu
  refine spendRows_of_first (mem_created hu).2.2.1 (fun d hd hout' => ?_) hout
  exact hvalid.consumer_unique (List.mem_append_right pre (List.mem_cons_of_mem b hd)) hne
    hout' hout

theorem exact_of_spentLater {P : Processor} {blocks : List BlockInfo} {s : Store}
    (h : ConsensusValid blocks) (hs : s.utxos = P.createdAll blocks)
    (hlater : P.SpentLater blocks) : P.UtxoExact blocks s where
  unspent := by
    intro u
    rw [hs, mem_createdAll]
    constructor
    · rintro ⟨⟨pre, b, post, rfl, c, hc, rfl⟩, hnone⟩
      rcases spendRows_cases post (mem_created hc).2.2.1 with ⟨hsame, hfree⟩ | ⟨d, _, _, hmark⟩
      · rw [hsame]
        refine ⟨⟨b, by simp, hc⟩, fun d hd hout => ?_⟩
        exact hfree d (mem_post_of_lt h hd (hlater b (by simp) c hc d hd hout)) hout
      · rw [hmark] at hnone
        cases hnone
    · rintro ⟨⟨b, hb, hu⟩, hfree⟩
      obtain ⟨pre, post, rfl⟩ := List.append_of_mem hb
      refine ⟨⟨pre, b, post, rfl, u, hu, ?_⟩, (mem_created hu).2.2.1⟩
      exact spendRows_of_notMem fun d hd => hfree d (by simp [hd])
  spent := by
    intro b hb u hu c hc hout
    have hlt := hlater b hb u hu c hc hout
    obtain ⟨pre, post, rfl⟩ := List.append_of_mem hb
    rw [hs, mem_createdAll]
    exact ⟨pre, b, post, rfl, u, hu,
      spendRows_consumer h hu (mem_post_of_lt h hc hlt) hout⟩

theorem spentLater_of_exact {P : Processor} {blocks : List BlockInfo} {s : Store}
    (h : ConsensusValid blocks) (hs : s.utxos = P.createdAll blocks)
    (hexact : P.UtxoExact blocks s) : P.SpentLater blocks := by
  intro b hb u hu c hc hout
  have hmarked := hexact.spent b hb u hu c hc hout
  obtain ⟨pre, post, rfl⟩ := List.append_of_mem hb
  have hrow : spendRows post u ∈ s.utxos := by
    rw [hs]
    exact mem_createdAll.mpr ⟨pre, b, post, rfl, u, hu, rfl⟩
  have hsame := s.outPointKey.eq_of_key hrow hmarked (spendRows_outPoint post u)
  rcases spendRows_cases post (mem_created hu).2.2.1 with ⟨hfree, _⟩ | ⟨d, hd, _, hmark⟩
  · have hmark : some c.header.height = none := by
      have hspent := congrArg UtxoRow.spentBlock (hsame.symm.trans hfree)
      exact hspent.trans (mem_created hu).2.2.1
    cases hmark
  · have hheight := congrArg UtxoRow.spentBlock (hsame.symm.trans hmark)
    have hlt := lt_of_mem_post h hd
    simp only [Option.some.injEq] at hheight
    omega

theorem IndexedAll.fromEmpty {P : Processor} {blocks : List BlockInfo} {s : Store}
    (h : P.IndexedAll blocks Store.empty s) : s.utxos = P.createdAll blocks := by
  simpa [Store.empty] using h.utxos

/-- From empty tables, the utxo table is exact for the chains whose outputs are all spent in
blocks above their own, and only for these. -/
theorem utxoExact_iff_spentLater (P : Processor) (env : DbEnv) (blocks : List BlockInfo)
    (w w' : World Store AggregatorMsg) (hvalid : ConsensusValid blocks)
    (hempty : w.store = Store.empty) (hrun : processAll P env blocks w = .ok () w') :
    P.UtxoExact blocks w'.store ↔ P.SpentLater blocks := by
  have hs := (hempty ▸ processAll_ok hrun : P.IndexedAll blocks Store.empty w'.store).fromEmpty
  exact ⟨spentLater_of_exact hvalid hs, exact_of_spentLater hvalid hs⟩

end Processor

def payTaproot (key : BitVec 8) (value : Nat) : TxOut :=
  ⟨⟨0x51 :: 0x20 :: List.replicate 32 key⟩, value⟩

def coinbaseTx (txid : BitVec 256) (outs : List TxOut) : Transaction :=
  ⟨⟨txid⟩, true, 2, 0, [⟨OutPoint.null⟩], outs⟩

def spendingTx (txid source : BitVec 256) (outs : List TxOut) : Transaction :=
  ⟨⟨txid⟩, false, 2, 0, [⟨⟨⟨source⟩, 0⟩⟩], outs⟩

def blockAt (hash : BitVec 256) (height : Nat) (parent : BitVec 256) (txs : List Transaction) :
    BlockInfo := ⟨⟨⟨hash⟩, height, some ⟨parent⟩, 0, 0, 1⟩, txs⟩

def chained : BlockInfo :=
  blockAt 101 1 100 [coinbaseTx 1 [], spendingTx 2 9 [payTaproot 7 50],
    spendingTx 3 2 [payTaproot 8 40]]

def spaced : List BlockInfo :=
  [blockAt 101 1 100 [coinbaseTx 1 [], spendingTx 2 9 [payTaproot 7 50]],
    blockAt 102 2 101 [coinbaseTx 4 [], spendingTx 3 2 [payTaproot 8 40]]]

def indexed (blocks : List BlockInfo) : World Store AggregatorMsg :=
  final (Processor.mainnet.processAll DbEnv.calm blocks ⟨Store.empty, [], 0⟩)

namespace Processor

theorem chained_valid : ConsensusValid [chained] := by
  constructor <;> decide

theorem spaced_valid : ConsensusValid spaced := by
  constructor <;> decide

/-- Two blocks, the second of which spends an output of the first. -/
theorem utxoExact_spaced : UtxoExact mainnet spaced (indexed spaced).store ↔
    SpentLater mainnet spaced :=
  utxoExact_iff_spentLater mainnet DbEnv.calm spaced ⟨Store.empty, [], 0⟩ (indexed spaced)
    spaced_valid rfl (eq_ok_of_returned (by decide +kernel))

/-- The payment that block 1 both makes and spends is still unspent in the table. -/
theorem chained_not_exact : ∃ blocks w', ConsensusValid blocks ∧
    processAll mainnet DbEnv.calm blocks ⟨Store.empty, [], 0⟩ = .ok () w' ∧
      ¬ UtxoExact mainnet blocks w'.store := by
  have hrun : processAll mainnet DbEnv.calm [chained] ⟨Store.empty, [], 0⟩ =
      .ok () (indexed [chained]) := eq_ok_of_returned (by decide +kernel)
  refine ⟨[chained], indexed [chained], chained_valid, hrun, ?_⟩
  intro hexact
  have hlater := spentLater_of_exact chained_valid (processAll_ok hrun).fromEmpty hexact
  revert hlater
  simp only [SpentLater]
  decide +kernel

end Processor

end BtcIndexer
