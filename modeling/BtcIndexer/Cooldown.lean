import BtcIndexer.Solvency

/-! The cooldown of coinbase events against the height of the chain. The aggregator learns of a
new block by an event in it, and sweeps the pending table only then: a coinbase event is booked
once something changes 100 blocks or more above it, which may be long after the 100 blocks. -/
namespace BtcIndexer
open Stateful Outbox Rows

/-- The tables are those of a chain of the given height: coinbase events less than 100 blocks
below it are withheld, the others are booked and in the balances. -/
structure Matured (height : Nat) (sent : List BtcP2trEvent) (l : Ledger) : Prop where
  pending : l.pending.Perm (sent.filter (withheldAt height))
  events : l.events.Perm ((sent.filter (fun e => !withheldAt height e)).map BtcP2trEvent.toRow)
  balance : ∀ a, l.balance a = Ledger.amountOf (sent.filter (fun e => !withheldAt height e)) a

namespace Aggregator

theorem Settled.matured {events : List BtcP2trEvent} {agg : Aggregator}
    (h : Settled events agg) : Matured agg.lastBlockNumber events agg.ledger where
  pending := h.pending
  events := h.events
  balance := by
    intro a
    obtain ⟨matured, hplaced⟩ := h.conserved
    rw [hplaced.balance a, Ledger.booked_perm h.events, Ledger.booked_toRow]

/-- With a greater height they are if it withholds the same events. -/
theorem Settled.coinbase_iff {events : List BtcP2trEvent} {agg : Aggregator}
    (h : Settled events agg) {height : Nat} (hle : agg.lastBlockNumber ≤ height) :
    Matured height events agg.ledger ↔ ∀ e ∈ events, e.isCoinbase = true →
      e.blockNumber + 100 ≤ height → e.blockNumber + 100 ≤ agg.lastBlockNumber := by
  constructor
  · intro hmatured e he hcb hold
    by_contra hyoung
    have hnow : withheldAt agg.lastBlockNumber e = true := by
      simp only [withheldAt, hcb, Bool.true_and, decide_eq_true_eq]
      omega
    have hpending : e ∈ agg.ledger.pending :=
      h.pending.mem_iff.mpr (List.mem_filter.mpr ⟨he, hnow⟩)
    have hthen := (List.mem_filter.mp (hmatured.pending.mem_iff.mp hpending)).2
    simp only [withheldAt, hcb, Bool.true_and, decide_eq_true_eq] at hthen
    omega
  · intro hall
    have hsame : ∀ e ∈ events, withheldAt height e = withheldAt agg.lastBlockNumber e := by
      intro e he
      unfold withheldAt
      cases hcb : e.isCoinbase with
      | false => rfl
      | true =>
          rw [Bool.true_and, Bool.true_and]
          refine decide_eq_decide.mpr ⟨fun hlow => Nat.lt_of_le_of_lt hle hlow, fun hlow => ?_⟩
          by_contra hhigh
          have hdone := hall e he hcb (by omega)
          omega
    have hrest : events.filter (fun e => !withheldAt height e) =
        events.filter (fun e => !withheldAt agg.lastBlockNumber e) :=
      List.filter_congr fun e he => by rw [hsame e he]
    have hnow := h.matured
    refine ⟨?_, ?_, fun a => ?_⟩
    · rw [List.filter_congr hsame]
      exact hnow.pending
    · rw [hrest]
      exact hnow.events
    · rw [hrest]
      exact hnow.balance a

end Aggregator

namespace System

theorem last_le_height {P : Processor} {blocks : List BlockInfo} {s s' : Store}
    {events : List BtcP2trEvent} (h : P.Emitted blocks s s' events) {height : Nat}
    (hheight : ∀ b ∈ blocks, b.header.height ≤ height) : lastBlock events ≤ height := by
  by_cases hnil : events = []
  · rw [hnil]
    exact Nat.zero_le _
  · obtain ⟨e, he, hlast⟩ := lastBlock_mem hnil
    obtain ⟨b, hb, hnumber⟩ := h.mem_block he
    rw [hlast, hnumber]
    exact hheight b hb

/-- With all messages handled, exactly the coinbase events 100 blocks below the chain's height
or more are booked, if and only if above each block with such an event, 100 blocks or more,
some transaction changes what an address holds. -/
theorem matured_iff (P : Processor) (env : DbEnv) (ledgerEnv : LedgerEnv) (moves : List Move)
    (sys : System) (height : Nat) (hrun : run P env ledgerEnv moves new = some sys)
    (hidle : sys.writing = none) (hdrained : sys.received = sys.world.channel.length)
    (hasc : (indexedBlocks moves).Pairwise (fun a b => a.header.height < b.header.height))
    (hlast : (indexedBlocks moves).getLast?.map (fun b => b.header.height) = some height) :
    ∃ events, sys.world.channel = events.map .event ∧
      P.Emitted (indexedBlocks moves) Store.empty sys.world.store events ∧
      (Matured height events sys.aggregator.ledger ↔
        ∀ number, P.Changes [] (indexedBlocks moves) number true → number + 100 ≤ height →
          ∃ above isCoinbase, number + 100 ≤ above ∧
            P.Changes [] (indexedBlocks moves) above isCoinbase) := by
  obtain ⟨events, hchannel, hemitted, hsettled⟩ := settled_sent hrun hidle hdrained hasc
  have hevents := hemitted.ascending hasc
  have hchanges := fun number isCoinbase => hemitted.changes_iff [] rfl number isCoinbase
  have hbound : ∀ b ∈ indexedBlocks moves, b.header.height ≤ height := by
    obtain ⟨last, hend, rfl⟩ := Option.map_eq_some_iff.mp hlast
    obtain ⟨init, hinit⟩ := List.getLast?_eq_some_iff.mp hend
    rw [hinit] at hasc ⊢
    intro b hb
    rcases List.mem_append.mp hb with hb | hb
    · exact Nat.le_of_lt ((List.pairwise_append.mp hasc).2.2 b hb last List.mem_cons_self)
    · rw [List.mem_singleton.mp hb]
  have hle : sys.aggregator.lastBlockNumber ≤ height :=
    hsettled.last ▸ last_le_height hemitted hbound
  refine ⟨events, hchannel, hemitted, (hsettled.coinbase_iff hle).trans ?_⟩
  simp only [← hchanges]
  constructor
  · rintro hall _ ⟨e, he, rfl, hcb⟩ hold
    have hdone := hall e he hcb hold
    have hwithheld : withheldAt sys.aggregator.lastBlockNumber e = false := by
      simp only [withheldAt, hcb, Bool.true_and, decide_eq_false_iff_not]
      omega
    rcases (withheld_false_iff hsettled hevents e).mp hwithheld with hordinary | ⟨f, hf, habove⟩
    · rw [hcb] at hordinary
      cases hordinary
    · exact ⟨f.blockNumber, f.isCoinbase, habove, f, hf, rfl, rfl⟩
  · intro hall e he hcb hold
    obtain ⟨_, _, habove, f, hf, rfl, _⟩ := hall e.blockNumber ⟨e, he, rfl, hcb⟩ hold
    have hwithheld := (withheld_false_iff hsettled hevents e).mpr (.inr ⟨f, hf, habove⟩)
    simp only [withheldAt, hcb, Bool.true_and, decide_eq_false_iff_not] at hwithheld
    omega

def matureMoves : List Move := atMaturity ++ [.commit, .deliver]

/-- A coinbase event of block 1 is booked once block 101 is processed, which spends its output. -/
theorem atMaturity_matured :
    (calmSystem matureMoves).aggregator.ledger.pending = [] ∧
      (calmSystem matureMoves).aggregator.ledger.events.map P2trEventRow.blockNumber =
        [101, 1, 101] ∧ ∃ events,
      (calmSystem matureMoves).world.channel = events.map .event ∧
      Processor.mainnet.Emitted (indexedBlocks matureMoves) Store.empty
        (calmSystem matureMoves).world.store events ∧
      (Matured 101 events (calmSystem matureMoves).aggregator.ledger ↔
        ∀ number, Processor.mainnet.Changes [] (indexedBlocks matureMoves) number true →
          number + 100 ≤ 101 → ∃ above isCoinbase, number + 100 ≤ above ∧
            Processor.mainnet.Changes [] (indexedBlocks matureMoves) above isCoinbase) := by
  refine ⟨by decide +kernel, by decide +kernel, ?_⟩
  exact matured_iff Processor.mainnet DbEnv.calm LedgerEnv.calm matureMoves _ 101
    (calmSystem_run (by decide +kernel)) (by decide +kernel) (by decide +kernel)
      (by decide +kernel) (by decide +kernel)

/-- A coinbase pays an address, and the next 100 blocks pay and spend nothing of interest. -/
def quietCooldown : List Move :=
  callsFor (blockAt 101 1 100 [coinbaseTx 1 [payTaproot 7 50]]) 5 ++ [.commit, .deliver] ++
    (List.range 100).flatMap (fun i => callsFor (blockAt (.ofNat 256 (102 + i)) (2 + i)
      (.ofNat 256 (101 + i)) [coinbaseTx (.ofNat 256 (2 + i)) []]) 3 ++ [.commit])

def coinbasePayment : BtcP2trEvent := ⟨1, ⟨1⟩, payee 7, 50, .receive, true⟩

/-- Block 101 is processed and all messages are handled, and the event of block 1 is still
withheld. -/
theorem quietCooldown_withheld :
    (indexedBlocks quietCooldown).map (fun b => b.header.height) =
        (List.range 101).map (fun n => n + 1) ∧
      ∃ sys, run Processor.mainnet DbEnv.calm LedgerEnv.calm quietCooldown new = some sys ∧
        sys.writing = none ∧ sys.received = sys.world.channel.length ∧
        sys.world.channel = [.event coinbasePayment] ∧
        sys.aggregator.ledger.pending = [coinbasePayment] ∧
        sys.aggregator.ledger.events = [] := by
  have hrun : (run Processor.mainnet DbEnv.calm LedgerEnv.calm quietCooldown new).any (fun sys =>
      decide (sys.writing = none ∧ sys.received = sys.world.channel.length ∧
        sys.world.channel = [.event coinbasePayment] ∧
        sys.aggregator.ledger.pending = [coinbasePayment] ∧
        sys.aggregator.ledger.events = [])) = true := by
    decide +kernel
  obtain ⟨sys, hsys, hend⟩ := (Option.any_eq_true _ _).mp hrun
  exact ⟨by decide +kernel, sys, hsys, of_decide_eq_true hend⟩

end System

end BtcIndexer
