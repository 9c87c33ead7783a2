import BtcIndexer.UtxoExactness

/-! Rolling the tables back and replaying a fork. Deleting the blocks from a height on, with
the cascades, and clearing the marks from that height on gives back the store from before the
abandoned blocks. The replay then indexes the fork in the order it is handed. -/
namespace BtcIndexer
open Stateful Outbox Rows

namespace Processor

/-- No block of the list, and none of its transactions, is in the tables. -/
structure Fresh (blocks : List BlockInfo) (s : Store) : Prop where
  hashes : (s.blocks.map BlockRow.hash ++ blocks.map (fun b => b.header.hash)).Nodup
  numbers : (s.blocks.map BlockRow.number ++ blocks.map (fun b => b.header.height)).Nodup
  txids : (s.transactions.map TransactionRow.txid ++ blocks.flatMap BlockInfo.txids).Nodup

theorem Fresh.perm {blocks blocks' : List BlockInfo} {s : Store} (h : Fresh blocks s)
    (hp : blocks.Perm blocks') : Fresh blocks' s where
  hashes := ((hp.map _).append_left _).nodup_iff.mp h.hashes
  numbers := ((hp.map _).append_left _).nodup_iff.mp h.numbers
  txids := ((hp.flatMap_right _).append_left _).nodup_iff.mp h.txids

theorem fresh_empty {blocks : List BlockInfo} (h : Distinct blocks) :
    Fresh blocks Store.empty where
  hashes := by simpa [Store.empty] using h.hashes
  numbers := by simpa [Store.empty] using h.heights
  txids := by simpa [Store.empty] using h.txids

/-- The tables of a chain indexed from empty. -/
structure Tables (P : Processor) (chain : List BlockInfo) (s : Store) : Prop where
  blocks : s.blocks = P.blockRows chain
  transactions : s.transactions = txRows chain
  utxos : s.utxos = P.createdAll chain

theorem IndexedAll.tables {P : Processor} {blocks : List BlockInfo} {s : Store}
    (h : P.IndexedAll blocks Store.empty s) (hdistinct : Distinct blocks) :
    P.Tables blocks s where
  blocks := by
    have hfresh := fresh_empty hdistinct
    simpa [Store.empty] using h.blocks hfresh.hashes hfresh.numbers
  transactions := by
    simpa [Store.empty] using h.transactions (fresh_empty hdistinct).txids
  utxos := by simpa [Store.empty] using h.utxos

theorem blockRows_hash_sublist (P : Processor) (blocks : List BlockInfo) :
    ((P.blockRows blocks).map BlockRow.hash).Sublist (blocks.map (fun b => b.header.hash)) := by
  induction blocks with
  | nil => exact List.Sublist.slnil
  | cons block rest ih =>
      cases hts : P.timestampOpt block.header.time with
      | none => simpa [blockRows, hts] using ih.cons block.header.hash
      | some timestamp => simpa [blockRows, hts, blockRow] using ih

theorem blockRows_number_sublist (P : Processor) (blocks : List BlockInfo) :
    ((P.blockRows blocks).map BlockRow.number).Sublist
      (blocks.map (fun b => b.header.height)) := by
  induction blocks with
  | nil => exact List.Sublist.slnil
  | cons block rest ih =>
      cases hts : P.timestampOpt block.header.time with
      | none => simpa [blockRows, hts] using ih.cons block.header.height
      | some timestamp => simpa [blockRows, hts, blockRow] using ih

theorem Tables.fresh {P : Processor} {pre rest : List BlockInfo} {s : Store}
    (h : P.Tables pre s) (hdistinct : Distinct (pre ++ rest)) : Fresh rest s where
  hashes := by
    have hall := hdistinct.hashes
    rw [List.map_append] at hall
    rw [h.blocks]
    exact hall.sublist ((blockRows_hash_sublist P pre).append_right _)
  numbers := by
    have hall := hdistinct.heights
    rw [List.map_append] at hall
    rw [h.blocks]
    exact hall.sublist ((blockRows_number_sublist P pre).append_right _)
  txids := by
    have hall := hdistinct.txids
    rw [List.flatMap_append] at hall
    rw [h.transactions, map_txid_txRows]
    exact hall

theorem mem_createdAll_mark {P : Processor} {blocks : List BlockInfo} {u : UtxoRow}
    (h : u ∈ P.createdAll blocks) :
    u.spentBlock = none ∨ ∃ b ∈ blocks, u.spentBlock = some b.header.height := by
  obtain ⟨pre, b, post, rfl, c, hc, rfl⟩ := mem_createdAll.mp h
  rcases spendRows_cases post (mem_created hc).2.2.1 with ⟨hsame, _⟩ | ⟨d, hd, _, hmark⟩
  · rw [hsame]
    exact .inl (mem_created hc).2.2.1
  · exact .inr ⟨d, by simp [hd], by rw [hmark]⟩

theorem mem_createdAll_txid {P : Processor} {blocks : List BlockInfo} {u : UtxoRow}
    (h : u ∈ P.createdAll blocks) : u.txid ∈ blocks.flatMap BlockInfo.txids := by
  obtain ⟨pre, b, post, rfl, c, hc, rfl⟩ := mem_createdAll.mp h
  have hid : (spendRows post c).txid = c.txid :=
    congrArg OutPoint.txid (spendRows_outPoint post c)
  rw [hid]
  exact List.mem_flatMap.mpr ⟨b, by simp, (mem_created hc).1⟩

/-- Marks below the height stay, marks of the blocks at or above it go. -/
theorem clearSince_spendRows {n : Nat} {blocks : List BlockInfo} {u : UtxoRow}
    (hmark : ∀ k, u.spentBlock = some k → k < n) (habove : ∀ b ∈ blocks, n ≤ b.header.height) :
    { spendRows blocks u with
      spentBlock := Store.clearSince n (spendRows blocks u).spentBlock } = u := by
  have hkeep : ∀ mark, u.spentBlock = mark → { u with spentBlock := mark } = u := by
    intro mark hm
    rw [← hm]
  cases hu : u.spentBlock with
  | none =>
      rcases spendRows_cases blocks hu with ⟨hsame, _⟩ | ⟨b, hb, _, hm⟩
      · rw [hsame, hu]
        exact hkeep none hu
      · have hnot : ¬ b.header.height < n := Nat.not_lt.mpr (habove b hb)
        rw [hm]
        simp only [Store.clearSince, Option.filter_some, hnot, decide_false, Bool.false_eq_true,
          if_false]
        exact hkeep none hu
  | some k =>
      rw [spendRows_of_spent (by rw [hu]; simp), hu]
      simp only [Store.clearSince, Option.filter_some, hmark k hu, decide_true, if_true]
      exact hkeep (some k) hu

section Rollback

variable {P : Processor} {pre abandoned : List BlockInfo} {s s' : Store} {n : Nat}

theorem rollback_blocks (htables : P.Tables pre s) (hfresh : Fresh abandoned s)
    (hrun : P.IndexedAll abandoned s s') (hbelow : ∀ b ∈ pre, b.header.height < n)
    (habove : ∀ b ∈ abandoned, n ≤ b.header.height) :
    (s'.deleteBlocksSince n).blocks = s.blocks := by
  change s'.blocks.filter _ = _
  rw [hrun.blocks hfresh.hashes hfresh.numbers]
  apply filter_append_eq_left
  · intro row hrow
    obtain ⟨b, hmem, _, hnum, _⟩ := mem_blockRows (htables.blocks ▸ hrow)
    exact decide_eq_true (hnum ▸ hbelow b hmem)
  · intro row hrow
    obtain ⟨b, hmem, _, hnum, _⟩ := mem_blockRows hrow
    have hge := habove b hmem
    exact decide_eq_false (by omega)

/-- The transactions that refer to the deleted blocks go with them. -/
theorem rollback_transactions (hfresh : Fresh abandoned s) (hrun : P.IndexedAll abandoned s s')
    (hblocks : (s'.deleteBlocksSince n).blocks = s.blocks) :
    (s'.deleteBlocksSince n).transactions = s.transactions := by
  change s'.transactions.filter
    (fun t => decide (t.blockHash ∈ (s'.deleteBlocksSince n).blocks.map BlockRow.hash)) = _
  rw [hblocks, hrun.transactions hfresh.txids]
  apply filter_append_eq_left
  · exact fun t hmem => decide_eq_true (s.blockRef t hmem)
  · intro t hmem
    obtain ⟨b, hb, hhash⟩ := mem_txRows hmem
    refine decide_eq_false fun hin => List.disjoint_of_nodup_append hfresh.hashes hin ?_
    exact hhash ▸ List.mem_map_of_mem hb

/-- The rows that the deleted transactions created go with them; the marks stay. -/
theorem rollback_utxos (hfresh : Fresh abandoned s) (hrun : P.IndexedAll abandoned s s')
    (htransactions : (s'.deleteBlocksSince n).transactions = s.transactions) :
    (s'.deleteBlocksSince n).utxos = s.utxos.map (spendRows abandoned) := by
  change s'.utxos.filter (fun u => decide
    (u.txid ∈ (s'.deleteBlocksSince n).transactions.map TransactionRow.txid)) = _
  rw [htransactions, hrun.utxos]
  apply filter_append_eq_left
  · intro u hu
    obtain ⟨v, hv, rfl⟩ := List.mem_map.mp hu
    have hid : (spendRows abandoned v).txid = v.txid :=
      congrArg OutPoint.txid (spendRows_outPoint abandoned v)
    exact decide_eq_true (hid ▸ s.txidRef v hv)
  · intro u hu
    exact decide_eq_false fun hin =>
      List.disjoint_of_nodup_append hfresh.txids hin (mem_createdAll_txid hu)

/-- Rolling back to the height of the abandoned blocks undoes exactly these blocks. -/
theorem rollback_eq (hdistinct : Distinct (pre ++ abandoned))
    (hpre : P.IndexedAll pre Store.empty s) (hrun : P.IndexedAll abandoned s s')
    (hbelow : ∀ b ∈ pre, b.header.height < n) (habove : ∀ b ∈ abandoned, n ≤ b.header.height) :
    (s'.deleteBlocksSince n).unspendUtxosSpentSinceBlock n = s := by
  have htables := hpre.tables hdistinct.left
  have hfresh := htables.fresh hdistinct
  have hblocks := rollback_blocks htables hfresh hrun hbelow habove
  have htransactions := rollback_transactions hfresh hrun hblocks
  apply Store.ext
  · exact hblocks
  · exact htransactions
  · change (s'.deleteBlocksSince n).utxos.map _ = _
    rw [rollback_utxos hfresh hrun htransactions, List.map_map]
    conv_rhs => rw [← List.map_id s.utxos]
    apply List.map_congr_left
    intro u hu
    refine clearSince_spendRows (fun k hk => ?_) habove
    rcases mem_createdAll_mark (htables.utxos ▸ hu) with hnone | ⟨b, hb, hmark⟩
    · rw [hnone] at hk; cases hk
    · rw [hmark] at hk; cases hk; exact hbelow b hb

/-- Whatever blocks follow a prefix, deleting from a height between the two and clearing the
marks from there on gives back the tables of the prefix. -/
theorem deleteBlocksSince_undoes (P : Processor) (env : DbEnv) (pre suffix : List BlockInfo)
    (n : Nat) (w w₁ w' : World Store AggregatorMsg)
    (hhash : ∀ b ∈ pre ++ suffix, ∀ c ∈ pre ++ suffix,
      b.header.hash = c.header.hash → b.header = c.header)
    (hasc : (pre ++ suffix).Pairwise (fun a b => a.header.height < b.header.height))
    (hids : ((pre ++ suffix).flatMap BlockInfo.txids).Nodup)
    (hbelow : ∀ b ∈ pre, b.header.height < n) (habove : ∀ b ∈ suffix, n ≤ b.header.height)
    (hempty : w.store = Store.empty) (hpre : processAll P env pre w = .ok () w₁)
    (hsuffix : processAll P env suffix w₁ = .ok () w') :
    (w'.store.deleteBlocksSince n).unspendUtxosSpentSinceBlock n = w₁.store :=
  rollback_eq (Distinct.of_ascending hhash hasc hids)
    (hempty ▸ processAll_ok hpre : P.IndexedAll pre Store.empty w₁.store)
    (processAll_ok hsuffix) hbelow habove

/-- The second block spends what the first paid; taken back, the payment is unspent again. -/
theorem deleteBlocksSince_spaced :
    ((final (processAll mainnet DbEnv.calm (spaced.drop 1) (indexed (spaced.take 1)))
      ).store.deleteBlocksSince 2).unspendUtxosSpentSinceBlock 2 =
        (indexed (spaced.take 1)).store :=
  deleteBlocksSince_undoes mainnet DbEnv.calm (spaced.take 1) (spaced.drop 1) 2
    ⟨Store.empty, [], 0⟩ (indexed (spaced.take 1)) _ (by decide) (by decide)
    (by decide) (by decide) (by decide) rfl (eq_ok_of_returned (by decide +kernel))
    (eq_ok_of_returned (by decide +kernel))

end Rollback

theorem blocksOps_ok {P : Processor} {order : Nat → Nat → ScanOrder (Address × Int)} {i : Nat}
    {blocks : List BlockInfo} {s s' : Store} (h : apply (blocksOps P order i blocks s) s = .ok s') :
    P.IndexedAll blocks s s' := by
  induction blocks generalizing i s with
  | nil => cases h; exact .nil _
  | cons block rest ih =>
      obtain ⟨s₁, hfirst, hrest⟩ := apply_append_ok h
      rw [hfirst] at hrest
      exact .cons (blockOps_ok hfirst) (ih hrest)

theorem blocksOps_total {P : Processor} (order : Nat → Nat → ScanOrder (Address × Int)) (i : Nat)
    {blocks : List BlockInfo} {s : Store} (hfresh : Fresh blocks s)
    (hnew : Keyed UtxoRow.outPoint (s.utxos ++ blocks.flatMap P.created))
    (hknown : ∀ b ∈ blocks, (P.timestampOpt b.header.time).isSome ∧
      ∀ tx ∈ b.txdata, ∀ out ∈ tx.output, P.isP2tr out.scriptPubkey = true →
        (P.owner out).isSome) :
    ∃ s', apply (blocksOps P order i blocks s) s = .ok s' := by
  induction blocks generalizing i s with
  | nil => exact ⟨s, rfl⟩
  | cons block rest ih =>
      rw [List.flatMap_cons, ← List.append_assoc] at hnew
      obtain ⟨⟨hts, howner⟩, hrest⟩ := List.forall_mem_cons.mp hknown
      have hh : block.header.hash ∉ s.blocks.map BlockRow.hash := fun hmem =>
        List.disjoint_of_nodup_append hfresh.hashes hmem (by simp)
      have hn : block.header.height ∉ s.blocks.map BlockRow.number := fun hmem =>
        List.disjoint_of_nodup_append hfresh.numbers hmem (by simp)
      obtain ⟨s₁, h₁⟩ := blockOps_total hts hh hn hnew.left howner
      have hindexed := blockOps_ok h₁
      have hone : P.IndexedAll [block] s s₁ := .cons hindexed (.nil s₁)
      have hids := hfresh.txids
      rw [List.flatMap_cons, ← List.append_assoc] at hids
      have hb := hone.blocks (by simpa using hfresh.hashes.sublist (by simp))
        (by simpa using hfresh.numbers.sublist (by simp))
      have ht := hone.transactions (by simpa using hids.of_append_left)
      obtain ⟨timestamp, hts⟩ := Option.isSome_iff_exists.mp hts
      have hfresh₁ : Fresh rest s₁ := by
        refine ⟨?_, ?_, ?_⟩
        · simpa [hb, blockRows, hts, blockRow] using hfresh.hashes
        · simpa [hb, blockRows, hts, blockRow] using hfresh.numbers
        · rw [ht, List.map_append, map_txid_txRows]
          simpa using hids
      have hnew₁ : Keyed UtxoRow.outPoint (s₁.utxos ++ rest.flatMap P.created) := by
        unfold Keyed at hnew ⊢
        rw [hindexed.utxos]
        simpa [List.map_map, Function.comp_def] using hnew
      obtain ⟨s', h'⟩ := ih (i + 1) hfresh₁ hnew₁ hrest
      refine ⟨s', ?_⟩
      rw [blocksOps, apply_append, h₁]
      exact h'

theorem forkOps_apply {P : Processor} (order : Nat → Nat → ScanOrder (Address × Int))
    {blocks : List BlockInfo} {origin : BlockInfo} {s s₀ : Store}
    (horigin : blocks.getLast? = some origin)
    (hback : (s₀.deleteBlocksSince origin.header.height).unspendUtxosSpentSinceBlock
      origin.header.height = s) :
    apply (forkOps P order blocks s₀) s₀ = apply (blocksOps P order 0 blocks s) s := by
  unfold forkOps
  rw [horigin]
  simp only [apply, Op.apply, hback]

end Processor

end BtcIndexer
