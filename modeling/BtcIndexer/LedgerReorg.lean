import BtcIndexer.AggregatorRuns

/-! Reorganisations of the ledger. The inverse entries carry the block numbers of the rows they
take back, so a later reorganisation takes back both and nothing is left above it. The clean-up
of the withheld coinbase events goes the other way: it deletes at and below a block number. -/
namespace BtcIndexer
open Stateful Outbox Rows

namespace Ledger

def eventsBelow (l : Ledger) (blockNumber : Nat) : List P2trEventRow :=
  l.events.filter (fun e => decide (e.blockNumber < blockNumber))

theorem booked_below_since (l : Ledger) (blockNumber : Nat) (a : Address) :
    booked l.events a =
      booked (l.eventsBelow blockNumber) a + booked (l.p2trEventsSinceBlock blockNumber) a := by
  have hsplit := List.filter_append_perm
    (fun e : P2trEventRow => decide (e.blockNumber < blockNumber)) l.events
  rw [← booked_perm hsplit a, booked_append]
  congr 2
  apply List.filter_congr
  intro e _
  rw [← decide_not]
  exact decide_eq_decide.mpr Nat.not_lt

end Ledger

namespace Aggregator

variable {env : LedgerEnv} {blockNumber : Nat} {agg agg' : Aggregator}

/-- From a height on the ledger sums to nothing, below it is as before, and the balances are
what is below. -/
structure NettedOut (blockNumber : Nat) (agg agg' : Aggregator) : Prop where
  above : ∀ a, Ledger.booked (agg'.ledger.p2trEventsSinceBlock blockNumber) a = 0
  below : agg'.ledger.eventsBelow blockNumber = agg.ledger.eventsBelow blockNumber
  balance : ∀ a, agg'.ledger.balance a = Ledger.booked (agg'.ledger.eventsBelow blockNumber) a

theorem sinceRows_ge (env : LedgerEnv) (blockNumber : Nat) (agg : Aggregator) {r : P2trEventRow}
    (h : r ∈ sinceRows env blockNumber agg) : blockNumber ≤ r.blockNumber := by
  have hmem := (sinceRows_perm env blockNumber agg).mem_iff.mp h
  exact of_decide_eq_true (List.mem_filter.mp hmem).2

theorem Reorged.since (h : Reorged env blockNumber agg agg') :
    agg'.ledger.p2trEventsSinceBlock blockNumber =
      agg.ledger.p2trEventsSinceBlock blockNumber ++
        ((sinceRows env blockNumber agg).map (fun r => r.toEvent.reorg)).map
          BtcP2trEvent.toRow := by
  unfold Ledger.p2trEventsSinceBlock
  rw [h.events, List.filter_append, List.map_map]
  congr 1
  apply List.filter_eq_self.mpr
  intro r hr
  obtain ⟨old, hold, rfl⟩ := List.mem_map.mp hr
  change decide (blockNumber ≤ old.blockNumber) = true
  exact decide_eq_true (sinceRows_ge env blockNumber agg hold)

theorem Reorged.below (h : Reorged env blockNumber agg agg') :
    agg'.ledger.eventsBelow blockNumber = agg.ledger.eventsBelow blockNumber := by
  unfold Ledger.eventsBelow
  rw [h.events, List.filter_append]
  conv_rhs => rw [← List.append_nil (agg.ledger.events.filter _)]
  congr 1
  apply List.filter_eq_nil_iff.mpr
  intro r hr hlt
  obtain ⟨old, hold, rfl⟩ := List.mem_map.mp hr
  have hge := sinceRows_ge env blockNumber agg hold
  have hlt : old.blockNumber < blockNumber := of_decide_eq_true hlt
  omega

theorem Reorged.above (h : Reorged env blockNumber agg agg') (a : Address) :
    Ledger.booked (agg'.ledger.p2trEventsSinceBlock blockNumber) a = 0 := by
  rw [h.since, Ledger.booked_append, Ledger.booked_toRow, Ledger.amountOf_reorg,
    Ledger.booked_perm (sinceRows_perm env blockNumber agg)]
  omega

/-- Whatever came before, with any number of reorganisations at any heights, a reorganisation
that completes nets out everything from its height on. -/
theorem handleReorg_nettedOut (env : LedgerEnv) (deeds : List Deed) (clock : Nat)
    (blockNumber : Nat) (agg' : Aggregator)
    (h : handleReorg env blockNumber (run env deeds (new ⟨Ledger.empty, [], clock⟩)) =
      .ok () agg') :
    NettedOut blockNumber (run env deeds (new ⟨Ledger.empty, [], clock⟩)) agg' := by
  have hreorged := handleReorg_ok h
  have hbefore : Balanced (run env deeds (new ⟨Ledger.empty, [], clock⟩)).ledger :=
    balanced_closed.run env deeds balanced_empty
  have hafter := balanced_closed.handleReorg env blockNumber hbefore
  rw [h, final_ok] at hafter
  refine ⟨hreorged.above, hreorged.below, ?_⟩
  intro a
  rw [hafter a, Ledger.booked_below_since _ blockNumber, hreorged.above a]
  omega

end Aggregator

def paymentTo (key : BitVec 256) (blockNumber : Nat) (amount : Int) (isCoinbase : Bool) :
    BtcP2trEvent := ⟨blockNumber, ⟨key⟩, ⟨key⟩, amount, .receive, isCoinbase⟩

def nestedReorgs : List Deed :=
  [.handle (.event (paymentTo 7 1 50 false)), .handle (.event (paymentTo 7 2 30 false)),
    .handle (.reorg 2), .handle (.event (paymentTo 7 2 20 false))]

namespace Aggregator

def calmRun (deeds : List Deed) : Aggregator :=
  run LedgerEnv.calm deeds (new ⟨Ledger.empty, [], 0⟩)

theorem nestedReorgs_nettedOut :
    NettedOut 1 (calmRun nestedReorgs)
      (final (handleReorg LedgerEnv.calm 1 (calmRun nestedReorgs))) :=
  handleReorg_nettedOut LedgerEnv.calm nestedReorgs 0 1 _ (eq_ok_of_returned (by decide +kernel))

/-- The block number of the row that the query returns last, the bound of the clean-up. -/
def lastReturned (env : LedgerEnv) (blockNumber : Nat) (agg : Aggregator) : Nat :=
  ((sinceRows env blockNumber agg).getLast?.map P2trEventRow.blockNumber).getD 0

theorem Reorged.last_eq (h : Reorged env blockNumber agg agg') :
    agg'.lastBlockNumber = lastReturned env blockNumber agg ∧
      blockNumber ≤ lastReturned env blockNumber agg := by
  obtain ⟨row, hlast, hnumber⟩ := h.last
  have hreturned : lastReturned env blockNumber agg = row.blockNumber := by
    rw [lastReturned, hlast]
    rfl
  rw [hreturned]
  exact ⟨hnumber, sinceRows_ge env blockNumber agg (List.mem_of_getLast? hlast)⟩

/-- A reorganisation that completes drops the withheld coinbase events from its height on and
no others exactly if all of them stand between its height and the last row returned. -/
theorem reorg_pending_iff (env : LedgerEnv) (blockNumber : Nat) (agg agg' : Aggregator)
    (h : handleReorg env blockNumber agg = .ok () agg') :
    agg'.ledger.pending.Perm
        (agg.ledger.pending.filter (fun e => decide (e.blockNumber < blockNumber))) ↔
      ∀ e ∈ agg.ledger.pending,
        blockNumber ≤ e.blockNumber ∧ e.blockNumber ≤ lastReturned env blockNumber agg := by
  have hreorged := handleReorg_ok h
  obtain ⟨hlast, hge⟩ := hreorged.last_eq
  rw [hreorged.pending, hlast]
  constructor
  · intro hperm e he
    have hmem := hperm.mem_iff (a := e)
    simp only [List.mem_filter, he, true_and, decide_eq_true_eq] at hmem
    omega
  · intro hwithin
    have hnone : ∀ p : BtcP2trEvent → Bool, (∀ e ∈ agg.ledger.pending, p e = false) →
        agg.ledger.pending.filter p = [] := by
      intro p hp
      apply List.filter_eq_nil_iff.mpr
      intro e he hpe
      rw [hp e he] at hpe
      cases hpe
    rw [hnone _ fun e he => decide_eq_false (Nat.not_lt.mpr (hwithin e he).2),
      hnone _ fun e he => decide_eq_false (Nat.not_lt.mpr (hwithin e he).1)]

def coinbaseThenPayment : List Deed :=
  [.handle (.event (paymentTo 7 2 50 true)), .handle (.event (paymentTo 8 2 30 false))]

/-- The only withheld event is of the block taken back. -/
theorem coinbaseThenPayment_pending :
    (final (handleReorg LedgerEnv.calm 2 (calmRun coinbaseThenPayment))).ledger.pending.Perm
        ((calmRun coinbaseThenPayment).ledger.pending.filter
          (fun e => decide (e.blockNumber < 2))) ↔
      ∀ e ∈ (calmRun coinbaseThenPayment).ledger.pending, 2 ≤ e.blockNumber ∧
        e.blockNumber ≤ lastReturned LedgerEnv.calm 2 (calmRun coinbaseThenPayment) :=
  reorg_pending_iff LedgerEnv.calm 2 (calmRun coinbaseThenPayment) _
    (eq_ok_of_returned (by decide +kernel))

def coinbaseBelow : List Deed :=
  [.handle (.event (paymentTo 7 1 50 true)), .handle (.event (paymentTo 8 2 30 false))]

/-- The coinbase event of block 1 is dropped by a reorganisation from block 2 on. -/
theorem coinbaseBelow_dropped : ∃ agg',
    handleReorg LedgerEnv.calm 2 (calmRun coinbaseBelow) = .ok () agg' ∧
      (calmRun coinbaseBelow).ledger.pending = [paymentTo 7 1 50 true] ∧
      ¬ agg'.ledger.pending.Perm
        ((calmRun coinbaseBelow).ledger.pending.filter (fun e => decide (e.blockNumber < 2))) :=
  ⟨_, eq_ok_of_returned (by decide +kernel), by decide +kernel, by decide +kernel⟩

end Aggregator

end BtcIndexer
