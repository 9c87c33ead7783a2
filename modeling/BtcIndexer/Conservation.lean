import BtcIndexer.System
import BtcIndexer.UtxoExactness

/-! Conservation between the processor and the aggregator: every satoshi in an unspent row of
an address is in its balance, in a withheld coinbase event, or in a message on its way. -/
namespace BtcIndexer
open Stateful Outbox Rows

namespace Aggregator

/-- What the tables hold for an address, booked or withheld. -/
def holds (agg : Aggregator) (a : Address) : Int :=
  agg.ledger.balance a + Ledger.amountOf agg.ledger.pending a

theorem Recorded.holds {event : BtcP2trEvent} {l l' : Ledger} (h : Recorded event l l')
    (a : Address) : l'.balance a + Ledger.amountOf l'.pending a =
      l.balance a + Ledger.amountOf l.pending a + Ledger.amountOf [event] a := by
  rw [h.balance, h.pending, Ledger.amountOf_append]
  cases event.isCoinbase with
  | true =>
      simp only [if_true]
      omega
  | false =>
      simp only [Bool.false_eq_true, if_false, Ledger.amountOf_nil]
      omega

theorem Swept.holds {n : Nat} {l l' : Ledger} (h : Swept n l l') (a : Address) :
    l'.balance a + Ledger.amountOf l'.pending a = l.balance a + Ledger.amountOf l.pending a := by
  rw [h.balance, h.pending, Ledger.amountOf_perm (l.pending_split n), Ledger.amountOf_append]
  omega

theorem Handled.holds {event : BtcP2trEvent} {agg agg' : Aggregator}
    (h : Handled event agg agg') (a : Address) :
    agg'.holds a = agg.holds a + Ledger.amountOf [event] a := by
  obtain ⟨l, hrecorded, hcases⟩ := h.tables
  have hevent := hrecorded.holds a
  rcases hcases with ⟨_, hl⟩ | ⟨_, hswept⟩
  · unfold Aggregator.holds
    rw [hl]
    exact hevent
  · exact (hswept.holds a).trans hevent

theorem start_holds {env : LedgerEnv} {events : List BtcP2trEvent} {agg agg' : Aggregator}
    (h : start env (events.map .event) agg = .ok () agg') (a : Address) :
    agg'.holds a = agg.holds a + Ledger.amountOf events a := by
  induction events generalizing agg with
  | nil =>
      cases h
      simp
  | cons event rest ih =>
      obtain ⟨_, agg₁, hfirst, hrest⟩ := bind_eq_ok.mp h
      have hevent := (handleEvent_ok hfirst).holds a
      have hone : Ledger.amountOf (event :: rest) a =
          Ledger.amountOf [event] a + Ledger.amountOf rest a :=
        Ledger.amountOf_append [event] rest a
      rw [ih hrest, hevent, hone]
      omega

end Aggregator

namespace System

/-- In every run in which no call fails, at every moment between two blocks: what is booked,
withheld and on its way is what the unspent rows hold. -/
theorem holds_in_flight {P : Processor} {env : DbEnv} {ledgerEnv : LedgerEnv} {moves : List Move}
    {sys : System} (hrun : run P env ledgerEnv moves new = some sys)
    (hidle : sys.writing = none) : ∃ events : List BtcP2trEvent,
      sys.world.channel = events.map .event ∧ ∀ a,
        sys.aggregator.holds a + Ledger.amountOf (events.drop sys.received) a =
          unspentOf sys.world.store.utxos a := by
  have hprogress := progress hrun
  obtain ⟨events, hemitted, hchannel⟩ :=
    Processor.processAll_emitted (hprogress.idle hidle)
  have hchannel : sys.world.channel = events.map .event := hchannel
  have hstart := hprogress.aggregator
  rw [hchannel, ← List.map_take] at hstart
  refine ⟨events, hchannel, fun a => ?_⟩
  have hholds := Aggregator.start_holds hstart a
  have hunspent := hemitted.unspentOf a
  have hsplit := Ledger.amountOf_append (events.take sys.received) (events.drop sys.received) a
  rw [List.take_append_drop] at hsplit
  have hnew : new.aggregator.holds a = 0 := rfl
  have hempty : unspentOf new.world.store.utxos a = 0 := rfl
  omega

/-- Once all messages are handled, the balances and the withheld amounts of every address add
up to its unspent rows. -/
theorem balances_conserved (P : Processor) (env : DbEnv) (ledgerEnv : LedgerEnv)
    (moves : List Move) (sys : System) (hrun : run P env ledgerEnv moves new = some sys)
    (hidle : sys.writing = none) (hdrained : sys.received = sys.world.channel.length)
    (a : Address) :
    sys.aggregator.ledger.balance a + Ledger.amountOf sys.aggregator.ledger.pending a =
      unspentOf sys.world.store.utxos a := by
  obtain ⟨events, hchannel, hholds⟩ := holds_in_flight hrun hidle
  have hall : events.drop sys.received = [] := by
    rw [hdrained, hchannel, List.length_map, List.drop_length]
  have hsum := hholds a
  rw [hall, Ledger.amountOf_nil, Int.add_zero] at hsum
  exact hsum

def callsFor (block : BlockInfo) (calls : Nat) : List Move :=
  .index block :: List.replicate calls .advance

/-- A payment in one block and its spend in the next. The first event is handled while its
block is still open. -/
def paidAndSpent : List Move :=
  callsFor (blockAt 101 1 100 [coinbaseTx 1 [], spendingTx 2 9 [payTaproot 7 50]]) 6 ++
    [.deliver, .commit] ++
    callsFor (blockAt 102 2 101 [coinbaseTx 4 [], spendingTx 3 2 [payTaproot 8 40]]) 8 ++
    [.deliver, .commit, .deliver]

def payee (key : BitVec 8) : Address :=
  ((Processor.mainnet.fromScript (payTaproot key 0).scriptPubkey)).getD ⟨0⟩

def calmSystem (moves : List Move) : System :=
  (run Processor.mainnet DbEnv.calm LedgerEnv.calm moves new).getD new

theorem calmSystem_run {moves : List Move}
    (h : (run Processor.mainnet DbEnv.calm LedgerEnv.calm moves new).isSome = true) :
    run Processor.mainnet DbEnv.calm LedgerEnv.calm moves new = some (calmSystem moves) := by
  obtain ⟨sys, hsys⟩ := Option.isSome_iff_exists.mp h
  rw [calmSystem, hsys]
  rfl

theorem paidAndSpent_conserved :
    unspentOf (calmSystem paidAndSpent).world.store.utxos (payee 8) = 40 ∧
      (calmSystem paidAndSpent).aggregator.ledger.balance (payee 8) +
          Ledger.amountOf (calmSystem paidAndSpent).aggregator.ledger.pending (payee 8) =
        unspentOf (calmSystem paidAndSpent).world.store.utxos (payee 8) :=
  ⟨by decide +kernel, balances_conserved Processor.mainnet DbEnv.calm LedgerEnv.calm paidAndSpent _
    (calmSystem_run (by decide +kernel)) (by decide +kernel) (by decide +kernel) (payee 8)⟩

end System

end BtcIndexer
