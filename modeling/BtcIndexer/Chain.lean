import BtcIndexer.BlockEffect
import Mathlib.Data.List.Chain

/-! Chains of blocks: what makes them valid, and what indexing one block after the other
leaves in the utxo table. A row carries the height of the first later block that names it. -/
namespace BtcIndexer
open Stateful Outbox Rows

/-- The outpoint that the input of a coinbase carries. -/
def OutPoint.null : OutPoint := ⟨⟨0⟩, 0xffffffff⟩

def Transaction.spends (tx : Transaction) : List OutPoint :=
  if tx.isCoinbase then [] else tx.input.map TxIn.previousOutput

def BlockInfo.spends (block : BlockInfo) : List OutPoint :=
  block.txdata.flatMap Transaction.spends

def BlockInfo.txids (block : BlockInfo) : List Txid := block.txdata.map Transaction.txid

/-- `b` follows `a` on one chain. -/
def Follows (a b : BlockInfo) : Prop :=
  b.header.previousBlockHash = some a.header.hash ∧ a.header.height < b.header.height

instance (a b : BlockInfo) : Decidable (Follows a b) :=
  inferInstanceAs (Decidable (_ ∧ _))

/-- The blocks, and their transactions, can be told apart by the keys of the tables. -/
structure Distinct (blocks : List BlockInfo) : Prop where
  hashes : (blocks.map (fun b => b.header.hash)).Nodup
  heights : (blocks.map (fun b => b.header.height)).Nodup
  txids : (blocks.flatMap BlockInfo.txids).Nodup

theorem Distinct.left {xs ys : List BlockInfo} (h : Distinct (xs ++ ys)) : Distinct xs where
  hashes := by
    have := h.hashes
    rw [List.map_append] at this
    exact this.of_append_left
  heights := by
    have := h.heights
    rw [List.map_append] at this
    exact this.of_append_left
  txids := by
    have := h.txids
    rw [List.flatMap_append] at this
    exact this.of_append_left

theorem Distinct.of_ascending {blocks : List BlockInfo}
    (hhash : ∀ b ∈ blocks, ∀ c ∈ blocks, b.header.hash = c.header.hash → b.header = c.header)
    (hasc : blocks.Pairwise (fun a b => a.header.height < b.header.height))
    (hids : (blocks.flatMap BlockInfo.txids).Nodup) : Distinct blocks where
  hashes := by
    refine List.pairwise_map.mpr (hasc.imp_of_mem fun {b c} hb hc hlt hsame => ?_)
    rw [hhash b hb c hc hsame] at hlt
    exact Nat.lt_irrefl _ hlt
  heights := List.pairwise_map.mpr (hasc.imp fun hlt => Nat.ne_of_lt hlt)
  txids := hids

/-- The consensus rules that the index relies on. -/
structure ConsensusValid (blocks : List BlockInfo) : Prop where
  linked : List.IsChain Follows blocks
  hashes : (blocks.map (fun b => b.header.hash)).Nodup
  txids : (blocks.flatMap BlockInfo.txids).Nodup
  spends : (blocks.flatMap BlockInfo.spends).Nodup
  coinbase : ∀ b ∈ blocks, ∀ tx ∈ b.txdata, tx.isCoinbase = true →
    ∀ txin ∈ tx.input, txin.previousOutput = OutPoint.null
  notNull : ∀ b ∈ blocks, OutPoint.null.txid ∉ b.txids

namespace ConsensusValid

theorem ascending {blocks : List BlockInfo} (h : ConsensusValid blocks) :
    blocks.Pairwise (fun a b => a.header.height < b.header.height) := by
  have hchain : List.IsChain (fun a b : BlockInfo => a.header.height < b.header.height) blocks :=
    h.linked.imp fun _ _ hf => hf.2
  have : IsTrans BlockInfo (fun a b => a.header.height < b.header.height) :=
    ⟨fun _ _ _ => Nat.lt_trans⟩
  exact List.isChain_iff_pairwise.mp hchain

theorem heights {blocks : List BlockInfo} (h : ConsensusValid blocks) :
    (blocks.map (fun b => b.header.height)).Nodup :=
  List.pairwise_map.mpr (h.ascending.imp fun hlt => Nat.ne_of_lt hlt)

theorem distinct {blocks : List BlockInfo} (h : ConsensusValid blocks) : Distinct blocks :=
  ⟨h.hashes, h.heights, h.txids⟩

theorem left {xs ys : List BlockInfo} (h : ConsensusValid (xs ++ ys)) : ConsensusValid xs where
  linked := h.linked.left_of_append
  hashes := by
    have := h.hashes
    rw [List.map_append] at this
    exact this.of_append_left
  txids := by
    have := h.txids
    rw [List.flatMap_append] at this
    exact this.of_append_left
  spends := by
    have := h.spends
    rw [List.flatMap_append] at this
    exact this.of_append_left
  coinbase := fun b hb => h.coinbase b (List.mem_append_left ys hb)
  notNull := fun b hb => h.notNull b (List.mem_append_left ys hb)

theorem mem_spends {blocks : List BlockInfo} (h : ConsensusValid blocks) {b : BlockInfo}
    (hb : b ∈ blocks) {o : OutPoint} (hne : o ≠ OutPoint.null) (ho : o ∈ b.outpoints) :
    o ∈ b.spends := by
  obtain ⟨tx, htx, hin⟩ := List.mem_flatMap.mp ho
  refine List.mem_flatMap.mpr ⟨tx, htx, ?_⟩
  unfold Transaction.spends
  split
  · next hcb =>
      obtain ⟨txin, htxin, rfl⟩ := List.mem_map.mp hin
      exact absurd (h.coinbase b hb tx htx hcb txin htxin) hne
  · exact hin

theorem consumer_unique {pre post : List BlockInfo} {b c : BlockInfo}
    (h : ConsensusValid (pre ++ c :: post)) (hb : b ∈ pre) {o : OutPoint}
    (hne : o ≠ OutPoint.null) (hob : o ∈ b.outpoints) : o ∉ c.outpoints := by
  intro hoc
  have hdisjoint := h.spends
  rw [List.flatMap_append] at hdisjoint
  refine List.disjoint_of_nodup_append hdisjoint
    (List.mem_flatMap.mpr ⟨b, hb, h.mem_spends (by simp [hb]) hne hob⟩)
    (List.mem_flatMap.mpr ⟨c, by simp, h.mem_spends (by simp) hne hoc⟩)

theorem created_ne_null {P : Processor} {blocks : List BlockInfo} (h : ConsensusValid blocks)
    {b : BlockInfo} (hb : b ∈ blocks) {u : UtxoRow} (hu : u ∈ P.created b) :
    u.outPoint ≠ OutPoint.null := by
  intro hnull
  have hid : u.txid = OutPoint.null.txid := congrArg OutPoint.txid hnull
  exact h.notNull b hb (hid ▸ (Processor.mem_created hu).1)

end ConsensusValid

/-- What a run of blocks does to a utxo row from before it. -/
def spendRows (blocks : List BlockInfo) (u : UtxoRow) : UtxoRow :=
  blocks.foldl (fun u block => block.spendRow u) u

@[simp] theorem spendRows_outPoint (blocks : List BlockInfo) (u : UtxoRow) :
    (spendRows blocks u).outPoint = u.outPoint := by
  induction blocks generalizing u with
  | nil => rfl
  | cons block rest ih => exact (ih (block.spendRow u)).trans (block.spendRow_outPoint u)

theorem spendRows_append (xs ys : List BlockInfo) (u : UtxoRow) :
    spendRows (xs ++ ys) u = spendRows ys (spendRows xs u) := List.foldl_append

theorem spendRow_of_notMem {block : BlockInfo} {u : UtxoRow} (h : u.outPoint ∉ block.outpoints) :
    block.spendRow u = u := by
  unfold BlockInfo.spendRow
  rw [if_neg fun hc => h hc.2]

theorem spendRow_of_mem {block : BlockInfo} {u : UtxoRow} (hu : u.spentBlock = none)
    (h : u.outPoint ∈ block.outpoints) :
    block.spendRow u = { u with spentBlock := some block.header.height } := by
  unfold BlockInfo.spendRow
  rw [if_pos ⟨hu, h⟩]

theorem spendRow_of_spent {block : BlockInfo} {u : UtxoRow} (hu : u.spentBlock ≠ none) :
    block.spendRow u = u := by
  unfold BlockInfo.spendRow
  rw [if_neg fun hc => hu hc.1]

theorem spendRows_of_notMem {blocks : List BlockInfo} {u : UtxoRow}
    (h : ∀ b ∈ blocks, u.outPoint ∉ b.outpoints) : spendRows blocks u = u := by
  induction blocks with
  | nil => rfl
  | cons block rest ih =>
      have hfirst := spendRow_of_notMem (h block List.mem_cons_self)
      change spendRows rest (block.spendRow u) = u
      rw [hfirst]
      exact ih fun b hb => h b (List.mem_cons_of_mem block hb)

theorem spendRows_of_spent {blocks : List BlockInfo} {u : UtxoRow} (hu : u.spentBlock ≠ none) :
    spendRows blocks u = u := by
  induction blocks with
  | nil => rfl
  | cons block rest ih =>
      change spendRows rest (block.spendRow u) = u
      rw [spendRow_of_spent hu, ih]

/-- The first block that names a row is the one whose height it gets. -/
theorem spendRows_of_first {pre post : List BlockInfo} {block : BlockInfo} {u : UtxoRow}
    (hu : u.spentBlock = none) (hpre : ∀ b ∈ pre, u.outPoint ∉ b.outpoints)
    (h : u.outPoint ∈ block.outpoints) :
    spendRows (pre ++ block :: post) u =
      { u with spentBlock := some block.header.height } := by
  rw [spendRows_append, spendRows_of_notMem hpre]
  change spendRows post (block.spendRow u) = _
  rw [spendRow_of_mem hu h]
  exact spendRows_of_spent (by simp)

theorem spendRows_cases (blocks : List BlockInfo) {u : UtxoRow} (hu : u.spentBlock = none) :
    (spendRows blocks u = u ∧ ∀ b ∈ blocks, u.outPoint ∉ b.outpoints) ∨
      ∃ b ∈ blocks, u.outPoint ∈ b.outpoints ∧
        spendRows blocks u = { u with spentBlock := some b.header.height } := by
  induction blocks with
  | nil => exact .inl ⟨rfl, by simp⟩
  | cons block rest ih =>
      by_cases h : u.outPoint ∈ block.outpoints
      · exact .inr ⟨block, List.mem_cons_self, h,
          spendRows_of_first hu (List.forall_mem_nil _) h⟩
      · have hstep : spendRows (block :: rest) u = spendRows rest u := by
          change spendRows rest (block.spendRow u) = _
          rw [spendRow_of_notMem h]
        rcases ih with ⟨hsame, hnone⟩ | ⟨b, hb, hout, hmark⟩
        · exact .inl ⟨hstep.trans hsame, List.forall_mem_cons.mpr ⟨h, hnone⟩⟩
        · exact .inr ⟨b, List.mem_cons_of_mem block hb, hout, hstep.trans hmark⟩

namespace Processor

/-- The rows that a run of blocks creates, with the marks the later blocks of the run leave. -/
def createdAll (P : Processor) : List BlockInfo → List UtxoRow
  | [] => []
  | block :: rest => (P.created block).map (spendRows rest) ++ createdAll P rest

theorem createdAll_append (P : Processor) (xs ys : List BlockInfo) :
    P.createdAll (xs ++ ys) = (P.createdAll xs).map (spendRows ys) ++ P.createdAll ys := by
  induction xs with
  | nil => rfl
  | cons block rest ih =>
      simp only [List.cons_append, createdAll, ih, List.map_append, List.map_map,
        List.append_assoc]
      congr 1
      exact List.map_congr_left fun u _ => spendRows_append rest ys u

theorem mem_createdAll {P : Processor} {blocks : List BlockInfo} {u : UtxoRow} :
    u ∈ P.createdAll blocks ↔ ∃ pre b post, blocks = pre ++ b :: post ∧
      ∃ c ∈ P.created b, spendRows post c = u := by
  induction blocks with
  | nil => simp [createdAll]
  | cons block rest ih =>
      rw [createdAll, List.mem_append, List.mem_map, ih]
      constructor
      · rintro (⟨c, hc, rfl⟩ | ⟨pre, b, post, rfl, hu⟩)
        · exact ⟨[], block, rest, rfl, c, hc, rfl⟩
        · exact ⟨block :: pre, b, post, rfl, hu⟩
      · rintro ⟨pre, b, post, heq, hu⟩
        rcases List.cons_eq_append_iff.mp heq with ⟨rfl, hb⟩ | ⟨pre', rfl, hrest⟩
        · cases hb
          exact .inl hu
        · exact .inr ⟨pre', b, post, hrest, hu⟩

/-- One block after the other, each in a transaction of its own. -/
def processAll (P : Processor) (env : DbEnv) : List BlockInfo → ProcessorM Unit
  | [] => pure ()
  | block :: rest => do
      process P env block
      processAll P env rest

/-- The tables after a run of blocks, given the tables before it. -/
inductive IndexedAll (P : Processor) : List BlockInfo → Store → Store → Prop
  | nil (s : Store) : IndexedAll P [] s s
  | cons {block : BlockInfo} {rest : List BlockInfo} {s s₁ s' : Store}
      (first : P.Indexed block s s₁) (later : IndexedAll P rest s₁ s') :
      IndexedAll P (block :: rest) s s'

theorem process_ok {P : Processor} {env : DbEnv} {block : BlockInfo}
    {w w' : World Store AggregatorMsg} (h : process P env block w = .ok () w') :
    P.Indexed block w.store w'.store := by
  rw [process_eq] at h
  exact blockOps_ok (transact_ok h).1

theorem processAll_ok {P : Processor} {env : DbEnv} {blocks : List BlockInfo}
    {w w' : World Store AggregatorMsg} (h : processAll P env blocks w = .ok () w') :
    P.IndexedAll blocks w.store w'.store := by
  induction blocks generalizing w with
  | nil => cases h; exact .nil _
  | cons block rest ih =>
      obtain ⟨_, w₁, hfirst, hrest⟩ := bind_eq_ok.mp h
      exact .cons (process_ok hfirst) (ih hrest)

theorem IndexedAll.utxos {P : Processor} {blocks : List BlockInfo} {s s' : Store}
    (h : P.IndexedAll blocks s s') :
    s'.utxos = s.utxos.map (spendRows blocks) ++ P.createdAll blocks := by
  induction h with
  | nil s =>
      rw [createdAll, List.append_nil]
      exact (List.map_id s.utxos).symm
  | @cons block rest s s₁ s' first later ih =>
      rw [ih, first.utxos, List.map_append, List.map_map, List.append_assoc]
      rfl

theorem IndexedAll.append {P : Processor} {xs ys : List BlockInfo} {s s₁ s' : Store}
    (hx : P.IndexedAll xs s s₁) (hy : P.IndexedAll ys s₁ s') : P.IndexedAll (xs ++ ys) s s' := by
  induction hx with
  | nil s => exact hy
  | cons first _ ih => exact .cons first (ih hy)

theorem IndexedAll.split {P : Processor} {xs ys : List BlockInfo} {s s' : Store}
    (h : P.IndexedAll (xs ++ ys) s s') :
    ∃ s₁, P.IndexedAll xs s s₁ ∧ P.IndexedAll ys s₁ s' := by
  induction xs generalizing s with
  | nil => exact ⟨s, .nil s, h⟩
  | cons block rest ih =>
      cases h with
      | cons first later =>
          obtain ⟨s₁, hx, hy⟩ := ih later
          exact ⟨s₁, .cons first hx, hy⟩

theorem map_outPoint_createdAll (P : Processor) (blocks : List BlockInfo) :
    (P.createdAll blocks).map UtxoRow.outPoint =
      (blocks.flatMap P.created).map UtxoRow.outPoint := by
  induction blocks with
  | nil => rfl
  | cons block rest ih =>
      simp only [createdAll, List.map_append, List.map_map, List.flatMap_cons, ih]
      congr 1
      exact List.map_congr_left fun u _ => spendRows_outPoint rest u

def blockRows (P : Processor) (blocks : List BlockInfo) : List BlockRow :=
  blocks.filterMap (fun b => (P.timestampOpt b.header.time).map (blockRow b.header))

def txRows (blocks : List BlockInfo) : List TransactionRow :=
  blocks.flatMap (fun b => transactionRows b.header.hash 0 b.txdata)

theorem mem_blockRows {P : Processor} {blocks : List BlockInfo} {row : BlockRow}
    (h : row ∈ P.blockRows blocks) :
    ∃ b ∈ blocks, row.hash = b.header.hash ∧ row.number = b.header.height ∧
      row.previousHash = b.header.previousBlockHash := by
  obtain ⟨b, hb, hrow⟩ := List.mem_filterMap.mp h
  obtain ⟨timestamp, _, rfl⟩ := Option.map_eq_some_iff.mp hrow
  exact ⟨b, hb, rfl, rfl, rfl⟩

theorem mem_txRows {blocks : List BlockInfo} {t : TransactionRow} (h : t ∈ txRows blocks) :
    ∃ b ∈ blocks, t.blockHash = b.header.hash := by
  obtain ⟨b, hb, ht⟩ := List.mem_flatMap.mp h
  exact ⟨b, hb, mem_transactionRows ht⟩

theorem map_txid_txRows (blocks : List BlockInfo) :
    (txRows blocks).map TransactionRow.txid = blocks.flatMap BlockInfo.txids := by
  simp only [txRows, List.map_flatMap, map_txid_transactionRows]
  rfl

theorem IndexedAll.blocks {P : Processor} {blocks : List BlockInfo} {s s' : Store}
    (h : P.IndexedAll blocks s s')
    (hhash : (s.blocks.map BlockRow.hash ++ blocks.map (fun b => b.header.hash)).Nodup)
    (hnum : (s.blocks.map BlockRow.number ++ blocks.map (fun b => b.header.height)).Nodup) :
    s'.blocks = s.blocks ++ P.blockRows blocks := by
  induction h with
  | nil s => simp [blockRows]
  | @cons block rest s s₁ s' first later ih =>
      obtain ⟨timestamp, hts, hb⟩ := first.blocks
      have hh : block.header.hash ∉ s.blocks.map BlockRow.hash := fun hmem =>
        List.disjoint_of_nodup_append hhash hmem (by simp)
      have hn : block.header.height ∉ s.blocks.map BlockRow.number := fun hmem =>
        List.disjoint_of_nodup_append hnum hmem (by simp)
      rw [Store.upsertBlock_of_fresh (blockRow block.header timestamp) hh hn] at hb
      rw [ih (by simpa [hb, blockRow] using hhash) (by simpa [hb, blockRow] using hnum), hb]
      simp [blockRows, hts]

theorem IndexedAll.transactions {P : Processor} {blocks : List BlockInfo} {s s' : Store}
    (h : P.IndexedAll blocks s s')
    (hids : (s.transactions.map TransactionRow.txid ++
      blocks.flatMap BlockInfo.txids).Nodup) :
    s'.transactions = s.transactions ++ txRows blocks := by
  induction h with
  | nil s => simp [txRows]
  | @cons block rest s s₁ s' first later ih =>
      rw [List.flatMap_cons, ← List.append_assoc] at hids
      have ht := first.transactions
      rw [indexTransactions_of_fresh hids.of_append_left] at ht
      have hids₁ : (s₁.transactions.map TransactionRow.txid ++
          rest.flatMap BlockInfo.txids).Nodup := by
        rw [ht, List.map_append, map_txid_transactionRows]
        exact hids
      rw [ih hids₁, ht]
      simp [txRows]

theorem IndexedAll.known {P : Processor} {blocks : List BlockInfo} {s s' : Store}
    (h : P.IndexedAll blocks s s') : ∀ b ∈ blocks, (P.timestampOpt b.header.time).isSome ∧
      ∀ tx ∈ b.txdata, ∀ out ∈ tx.output, P.isP2tr out.scriptPubkey = true →
        (P.owner out).isSome := by
  induction h with
  | nil s => simp
  | cons first later ih =>
      refine List.forall_mem_cons.mpr ⟨⟨?_, first.owners⟩, ih⟩
      obtain ⟨timestamp, hts, _⟩ := first.blocks
      exact Option.isSome_iff_exists.mpr ⟨timestamp, hts⟩

end Processor

end BtcIndexer
