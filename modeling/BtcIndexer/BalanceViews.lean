import BtcIndexer.LedgerReorg

/-! The three views of a balance: the running balance, the booked events, and the hourly
changes. A snapshot is added up from the third and shown next to the first. -/
namespace BtcIndexer
open Stateful Outbox Rows

namespace Ledger

/-- The sum of the hourly changes of an address over all hours. -/
def statistic (l : Ledger) (address : Address) : Int :=
  total StatisticRow.balance (l.statistics.filter (fun r => decide (r.address = address)))

theorem increment_statistic (l : Ledger) (address : Address) (value : Int)
    (currentHour timestamp : Nat) (a : Address) :
    (l.incrementStaticBalances address value currentHour timestamp).statistic a =
      l.statistic a + if address = a then value else 0 := by
  simp only [statistic, total_filter, decide_eq_true_eq]
  refine total_upsert (fun r => if r.address = a then r.balance else 0)
    (addStatistic value currentHour) ⟨address, value, currentHour, timestamp⟩ l.statisticKey ?_
  intro r hkey
  have haddress : r.address = address := congrArg Prod.fst hkey
  simp only [addStatistic, haddress]
  split
  · rfl
  · exact (Int.add_zero 0).symm

theorem book_statistic (event : BtcP2trEvent) (now hour now' : Nat) (l : Ledger) (a : Address) :
    (l.book event now hour now').statistic a =
      l.statistic a + if event.address = a then event.amount else 0 :=
  increment_statistic ((l.createP2trEvent event).incrementBtcBalance event.address event.amount
    now) event.address event.amount hour now' a

end Ledger

namespace Aggregator

/-- The hourly changes add up to the booked amounts, whatever hours they fell into. -/
def HourlyBalanced (l : Ledger) : Prop := ∀ a, l.statistic a = Ledger.booked l.events a

theorem hourlyBalanced_empty : HourlyBalanced Ledger.empty := fun _ => rfl

theorem hourlyBalanced_closed : Closed HourlyBalanced where
  park := fun _ _ h => h
  withhold := fun _ _ h => h
  book := by
    intro l event now hour now' h a
    rw [Ledger.book_statistic, Ledger.book_events, Ledger.booked_append, h a]
    exact congrArg _ (Ledger.booked_single event a).symm

/-- In every committed state all three views of every address agree. The failures of a run are
arbitrary, so a state that a handler commits on its way is the last one of the run in which
every call after that commit fails. -/
theorem balanceViews_agree (env : LedgerEnv) (deeds : List Deed) (clock : Nat) (a : Address) :
    (run env deeds (new ⟨Ledger.empty, [], clock⟩)).ledger.balance a =
        Ledger.booked (run env deeds (new ⟨Ledger.empty, [], clock⟩)).ledger.events a ∧
      Ledger.booked (run env deeds (new ⟨Ledger.empty, [], clock⟩)).ledger.events a =
        (run env deeds (new ⟨Ledger.empty, [], clock⟩)).ledger.statistic a :=
  ⟨balanced_closed.run env deeds balanced_empty a,
    (hourlyBalanced_closed.run env deeds hourlyBalanced_empty a).symm⟩

/-- Payments of 50, 30 and 20, the second of which is taken back. -/
example : (calmRun nestedReorgs).ledger.balance ⟨7⟩ = 70 ∧
    (calmRun nestedReorgs).ledger.statistic ⟨7⟩ = 70 := by decide +kernel

end Aggregator

end BtcIndexer
