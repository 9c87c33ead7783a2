import BtcIndexer.Reprocessing

/-! Two ranges of one chain processed in either order. A block marks the rows it finds, so what
the higher range spends of the lower one is marked only if the lower one comes first. All other
rows come out the same, as every output has one consumer and no input reaches forward. -/
namespace BtcIndexer
open Stateful Outbox Rows

def AggregatorMsg.event? : AggregatorMsg → Option BtcP2trEvent
  | .event e => some e
  | .reorg _ => none

/-- The sum of the event amounts of an address over everything sent. -/
def sentTo (messages : List AggregatorMsg) (a : Address) : Int :=
  Ledger.amountOf (messages.filterMap AggregatorMsg.event?) a

theorem sentTo_append_events (messages : List AggregatorMsg) (events : List BtcP2trEvent)
    (a : Address) : sentTo (messages ++ events.map .event) a =
      sentTo messages a + Ledger.amountOf events a := by
  have hevents : (events.map AggregatorMsg.event).filterMap AggregatorMsg.event? = events := by
    rw [List.filterMap_map]
    exact List.filterMap_some (l := events)
  rw [sentTo, List.filterMap_append, Ledger.amountOf_append, hevents]
  rfl

theorem unspentOf_perm {rows rows' : List UtxoRow} (h : rows.Perm rows') (a : Address) :
    unspentOf rows a = unspentOf rows' a := total_perm _ (h.filter _)

namespace Processor

/-- No input of the higher blocks consumes a taproot output of the lower ones. -/
def Apart (P : Processor) (low high : List BlockInfo) : Prop :=
  ∀ b ∈ low, ∀ u ∈ P.created b, ∀ c ∈ high, u.outPoint ∉ c.outpoints

theorem mem_createdAll_outPoint {P : Processor} {blocks : List BlockInfo} {u : UtxoRow}
    (h : u ∈ P.createdAll blocks) : ∃ b ∈ blocks, ∃ c ∈ P.created b, u.outPoint = c.outPoint := by
  obtain ⟨pre, b, post, rfl, c, hc, rfl⟩ := mem_createdAll.mp h
  exact ⟨b, by simp, c, hc, spendRows_outPoint post c⟩

theorem createdAll_untouched {P : Processor} {blocks others : List BlockInfo}
    (h : P.Apart blocks others) : (P.createdAll blocks).map (spendRows others) =
      P.createdAll blocks := by
  conv_rhs => rw [← List.map_id (P.createdAll blocks)]
  apply List.map_congr_left
  intro u hu
  obtain ⟨b, hb, c, hc, hsame⟩ := mem_createdAll_outPoint hu
  exact spendRows_of_notMem fun d hd => hsame ▸ h b hb c hc d hd

/-- Two disjoint parts of a valid chain, one below the other, and the blocks indexed before. -/
structure Ranges (chain base low high : List BlockInfo) : Prop where
  valid : ConsensusValid chain
  causal : Causal chain
  before : ∀ b ∈ base, b ∈ chain
  lower : ∀ b ∈ low, b ∈ chain
  higher : ∀ b ∈ high, b ∈ chain
  below : ∀ b ∈ low, ∀ c ∈ high, b.header.height < c.header.height

namespace Ranges

variable {P : Processor} {chain base low high : List BlockInfo}

theorem mem (h : Ranges chain base low high) {b : BlockInfo} (hb : b ∈ low ++ high) :
    b ∈ chain := (List.mem_append.mp hb).elim (h.lower b) (h.higher b)

theorem backwards (h : Ranges chain base low high) : P.Apart high low := by
  intro b hb u hu c hc hout
  have hle := h.causal c (h.lower c hc) u.outPoint hout b (h.higher b hb) (mem_created hu).1
  have hlt := h.below c hc b hb
  omega

theorem spendRows_eq (h : Ranges chain base low high) {u : UtxoRow}
    (hu : u ∈ P.createdAll base) : spendRows (low ++ high) u = spendRows (high ++ low) u := by
  obtain ⟨b, hb, c, hc, hsame⟩ := mem_createdAll_outPoint hu
  have hne : u.outPoint ≠ OutPoint.null := hsame ▸ h.valid.created_ne_null (h.before b hb) hc
  exact spendRows_perm List.perm_append_comm fun _ d hd e he hod hoe =>
    h.valid.consumer_eq (h.mem hd) (h.mem he) hne hod hoe

/-- The rows of the lower range differ at the first one that the higher range spends. -/
theorem apart_of_perm (h : Ranges chain base low high) {s s' : Store} {rows : List UtxoRow}
    (hs : s.utxos = rows ++ P.createdAll (low ++ high))
    (hs' : s'.utxos = rows ++ P.createdAll (high ++ low)) (hperm : s.utxos.Perm s'.utxos) :
    P.Apart low high := by
  intro b hb u hu c hc hout
  obtain ⟨pre, post, hsplit⟩ := List.append_of_mem hb
  have hrow : spendRows (post ++ high) u ∈ s.utxos := by
    rw [hs]
    exact List.mem_append_right _
      (mem_createdAll.mpr ⟨pre, b, post ++ high, by simp [hsplit], u, hu, rfl⟩)
  have hrow' : spendRows post u ∈ s'.utxos := by
    rw [hs']
    exact List.mem_append_right _
      (mem_createdAll.mpr ⟨high ++ pre, b, post, by simp [hsplit], u, hu, rfl⟩)
  have hsame := s.outPointKey.eq_of_key hrow (hperm.mem_iff.mpr hrow') (by simp)
  have hone : ∀ d ∈ (post ++ high) ++ post, u.outPoint ∈ d.outpoints → d = c := by
    intro d hd hod
    refine h.valid.consumer_eq (h.mem ?_) (h.higher c hc)
      (h.valid.created_ne_null (h.lower b hb) hu) hod hout
    rw [hsplit]
    simp only [List.mem_append, List.mem_cons] at hd ⊢
    tauto
  have hlow : c ∉ post := by
    intro hpost
    have hlt := h.below c (by simp [hsplit, hpost]) c hc
    omega
  exact spendRows_ne_of_side (mem_created hu).2.2.1 hout hone (by simp [hc]) hlow hsame

/-- The utxo table is the same up to the order of its rows exactly if the ranges are apart. -/
theorem utxos_perm_iff (h : Ranges chain base low high) {s s₁ s₂ : Store}
    (hbase : P.IndexedAll base Store.empty s) (hlow : P.IndexedAll (low ++ high) s s₁)
    (hhigh : P.IndexedAll (high ++ low) s s₂) :
    s₁.utxos.Perm s₂.utxos ↔ P.Apart low high := by
  have hold : s.utxos.map (spendRows (low ++ high)) = s.utxos.map (spendRows (high ++ low)) :=
    List.map_congr_left fun u hu => h.spendRows_eq (hbase.fromEmpty ▸ hu)
  have h₁ := hlow.utxos
  have h₂ := hhigh.utxos
  rw [← hold] at h₂
  constructor
  · exact h.apart_of_perm h₁ h₂
  · intro hapart
    rw [h₁, h₂, createdAll_append, createdAll_append, createdAll_untouched hapart,
      createdAll_untouched h.backwards]
    exact List.Perm.append_left _ List.perm_append_comm

end Ranges

/-- From tables of any blocks of the chain, the two orders leave the same utxo rows and have
sent every address the same sum exactly if the higher range spends nothing of the lower. -/
theorem rangeOrder_same_iff (P : Processor) (env env₁ env₂ : DbEnv)
    (chain base low high : List BlockInfo) (w₀ w w₁ w₂ : World Store AggregatorMsg)
    (hranges : Ranges chain base low high) (hempty : w₀.store = Store.empty)
    (hbase : processAll P env base w₀ = .ok () w)
    (hlow : processAll P env₁ (low ++ high) w = .ok () w₁)
    (hhigh : processAll P env₂ (high ++ low) w = .ok () w₂) :
    (w₁.store.utxos.Perm w₂.store.utxos ∧ ∀ a, sentTo w₁.channel a = sentTo w₂.channel a) ↔
      P.Apart low high := by
  have hstart : P.IndexedAll base Store.empty w.store := hempty ▸ processAll_ok hbase
  obtain ⟨events₁, hemitted₁, hchannel₁⟩ := processAll_emitted hlow
  obtain ⟨events₂, hemitted₂, hchannel₂⟩ := processAll_emitted hhigh
  have hiff := hranges.utxos_perm_iff hstart hemitted₁.indexedAll hemitted₂.indexedAll
  constructor
  · rintro ⟨hperm, _⟩
    exact hiff.mp hperm
  · intro hapart
    have hperm := hiff.mpr hapart
    refine ⟨hperm, fun a => ?_⟩
    -- the events of a run add up to what its unspent rows gain
    have hsum₁ := hemitted₁.unspentOf a
    have hsum₂ := hemitted₂.unspentOf a
    rw [unspentOf_perm hperm a] at hsum₁
    rw [hchannel₁, hchannel₂, sentTo_append_events, sentTo_append_events]
    omega

def paying : BlockInfo := blockAt 101 1 100 [coinbaseTx 1 [], spendingTx 2 9 [payTaproot 7 50]]

def unrelated : BlockInfo :=
  blockAt 102 2 101 [coinbaseTx 4 [], spendingTx 3 8 [payTaproot 8 40]]

theorem unrelated_ranges : Ranges [paying, unrelated] [] [paying] [unrelated] where
  valid := by constructor <;> decide
  causal := by
    unfold Causal
    decide
  before := by simp
  lower := by simp
  higher := by simp
  below := by decide

/-- Two blocks that have nothing to do with one another. -/
theorem rangeOrder_unrelated :
    ((indexed [paying, unrelated]).store.utxos.Perm (indexed [unrelated, paying]).store.utxos ∧
      ∀ a, sentTo (indexed [paying, unrelated]).channel a =
        sentTo (indexed [unrelated, paying]).channel a) ↔
      Apart mainnet [paying] [unrelated] :=
  rangeOrder_same_iff mainnet DbEnv.calm DbEnv.calm DbEnv.calm [paying, unrelated] [] [paying]
    [unrelated] ⟨Store.empty, [], 0⟩ ⟨Store.empty, [], 0⟩ _ _ unrelated_ranges rfl rfl
    (eq_ok_of_returned (by decide +kernel)) (eq_ok_of_returned (by decide +kernel))

def collector : BlockInfo := blockAt 102 2 101 [coinbaseTx 4 [], spendingTx 3 2 []]

/-- Indexed first, the block that spends finds no row; the row that comes later stays unspent. -/
theorem rangeOrder_differs : ∃ chain low high w₁ w₂, Ranges chain [] low high ∧
    processAll mainnet DbEnv.calm (low ++ high) ⟨Store.empty, [], 0⟩ = .ok () w₁ ∧
      processAll mainnet DbEnv.calm (high ++ low) ⟨Store.empty, [], 0⟩ = .ok () w₂ ∧
        ¬ (w₁.store.utxos.Perm w₂.store.utxos ∧
          ∀ a, sentTo w₁.channel a = sentTo w₂.channel a) := by
  refine ⟨[paying, collector], [paying], [collector], indexed [paying, collector],
    indexed [collector, paying], ⟨?_, ?_, by simp, by simp, by simp, by decide⟩,
    eq_ok_of_returned (by decide +kernel), eq_ok_of_returned (by decide +kernel),
    fun hsame => absurd hsame.1 (by decide +kernel)⟩
  · constructor <;> decide
  · unfold Causal
    decide

end Processor

end BtcIndexer
