import BtcIndexer.Types
import BtcIndexer.Rows

/-! The tables that the aggregator writes and the statements on them: the events it has
booked, the coinbase events it withholds, and the balances. -/
namespace BtcIndexer
open Rows

/-- A row of `btc_p2tr_events`. There is no coinbase column. -/
structure P2trEventRow where
  blockNumber : Nat
  txid : Txid
  address : Address
  amount : Int
  action : Action
  deriving DecidableEq, Repr

def BtcP2trEvent.toRow (event : BtcP2trEvent) : P2trEventRow :=
  ⟨event.blockNumber, event.txid, event.address, event.amount, event.action⟩

/-- `SELECT ..., false`: an event that is read back is no coinbase event. -/
def P2trEventRow.toEvent (row : P2trEventRow) : BtcP2trEvent :=
  ⟨row.blockNumber, row.txid, row.address, row.amount, row.action, false⟩

structure BalanceRow where
  address : Address
  balance : Int
  lastUpdated : Nat
  deriving DecidableEq, Repr

structure StatisticRow where
  address : Address
  balance : Int
  datetimeHour : Nat
  lastUpdated : Nat
  deriving DecidableEq, Repr

def StatisticRow.key (row : StatisticRow) : Address × Nat := (row.address, row.datetimeHour)

structure Ledger where
  events : List P2trEventRow
  pending : List BtcP2trEvent
  balances : List BalanceRow
  statistics : List StatisticRow
  balanceKey : Keyed BalanceRow.address balances
  statisticKey : Keyed StatisticRow.key statistics

namespace Ledger

def empty : Ledger where
  events := []
  pending := []
  balances := []
  statistics := []
  balanceKey := Keyed.nil _
  statisticKey := Keyed.nil _

def createPendingP2trEvent (l : Ledger) (event : BtcP2trEvent) : Ledger :=
  { l with pending := l.pending ++ [event] }

def createP2trEvent (l : Ledger) (event : BtcP2trEvent) : Ledger :=
  { l with events := l.events ++ [event.toRow] }

def addBalance (value : Int) (timestamp : Nat) (row : BalanceRow) : BalanceRow :=
  { row with balance := row.balance + value, lastUpdated := timestamp }

def incrementBtcBalance (l : Ledger) (address : Address) (value : Int) (timestamp : Nat) :
    Ledger :=
  { l with
    balances := upsert BalanceRow.address (addBalance value timestamp)
      ⟨address, value, timestamp⟩ l.balances
    balanceKey := l.balanceKey.upsert fun _ => rfl }

/-- The conflict branch writes the hour into `last_updated`. -/
def addStatistic (value : Int) (currentHour : Nat) (row : StatisticRow) : StatisticRow :=
  { row with balance := row.balance + value, lastUpdated := currentHour }

def incrementStaticBalances (l : Ledger) (address : Address) (value : Int)
    (currentHour timestamp : Nat) : Ledger :=
  { l with
    statistics := upsert StatisticRow.key (addStatistic value currentHour)
      ⟨address, value, currentHour, timestamp⟩ l.statistics
    statisticKey := l.statisticKey.upsert fun _ => rfl }

/-- The rows of the query, which has no `ORDER BY`, in table order. -/
def p2trEventsSinceBlock (l : Ledger) (blockNum : Nat) : List P2trEventRow :=
  l.events.filter (fun e => decide (blockNum ≤ e.blockNumber))

def matured (l : Ledger) (blockNum : Nat) : List BtcP2trEvent :=
  l.pending.filter (fun e => decide (e.blockNumber ≤ blockNum))

def withhold (l : Ledger) (blockNum : Nat) : Ledger :=
  { l with pending := l.pending.filter (fun e => decide (blockNum < e.blockNumber)) }

/-- `get_btc_balance`, with zero for an address without a row. -/
def balance (l : Ledger) (address : Address) : Int :=
  valueAt BalanceRow.address BalanceRow.balance l.balances address

/-- The sum of the amounts of an address over event rows. -/
def booked (rows : List P2trEventRow) (address : Address) : Int :=
  total P2trEventRow.amount (rows.filter (fun r => decide (r.address = address)))

/-- The sum of the amounts of an address over events. -/
def amountOf (events : List BtcP2trEvent) (address : Address) : Int :=
  total BtcP2trEvent.amount (events.filter (fun e => decide (e.address = address)))

@[simp] theorem createPending_events (l : Ledger) (e : BtcP2trEvent) :
    (l.createPendingP2trEvent e).events = l.events := rfl
@[simp] theorem createPending_pending (l : Ledger) (e : BtcP2trEvent) :
    (l.createPendingP2trEvent e).pending = l.pending ++ [e] := rfl
@[simp] theorem createPending_balance (l : Ledger) (e : BtcP2trEvent) (a : Address) :
    (l.createPendingP2trEvent e).balance a = l.balance a := rfl
@[simp] theorem withhold_events (l : Ledger) (n : Nat) : (l.withhold n).events = l.events := rfl
@[simp] theorem withhold_balance (l : Ledger) (n : Nat) (a : Address) :
    (l.withhold n).balance a = l.balance a := rfl

theorem increment_balance (l : Ledger) (address : Address) (value : Int) (timestamp : Nat)
    (a : Address) : (l.incrementBtcBalance address value timestamp).balance a =
      l.balance a + if address = a then value else 0 := by
  have hkey : ∀ r, BalanceRow.address (addBalance value timestamp r) = BalanceRow.address r :=
    fun _ => rfl
  have hadds : ∀ r, BalanceRow.balance (addBalance value timestamp r) =
      BalanceRow.balance r + BalanceRow.balance ⟨address, value, timestamp⟩ := fun _ => rfl
  exact valueAt_upsert hkey hadds a

def book (event : BtcP2trEvent) (now currentHour now' : Nat) (l : Ledger) : Ledger :=
  ((l.createP2trEvent event).incrementBtcBalance event.address event.amount now
    ).incrementStaticBalances event.address event.amount currentHour now'

@[simp] theorem book_events (event : BtcP2trEvent) (now hour now' : Nat) (l : Ledger) :
    (l.book event now hour now').events = l.events ++ [event.toRow] := rfl
theorem book_balance (event : BtcP2trEvent) (now hour now' : Nat) (l : Ledger) (a : Address) :
    (l.book event now hour now').balance a =
      l.balance a + if event.address = a then event.amount else 0 :=
  increment_balance (l.createP2trEvent event) event.address event.amount now a

@[simp] theorem booked_append (xs ys : List P2trEventRow) (a : Address) :
    booked (xs ++ ys) a = booked xs a + booked ys a := by
  simp only [booked, List.filter_append, total_append]

@[simp] theorem amountOf_append (xs ys : List BtcP2trEvent) (a : Address) :
    amountOf (xs ++ ys) a = amountOf xs a + amountOf ys a := by
  simp only [amountOf, List.filter_append, total_append]

@[simp] theorem amountOf_nil (a : Address) : amountOf [] a = 0 := rfl

theorem amountOf_cons (e : BtcP2trEvent) (es : List BtcP2trEvent) (a : Address) :
    amountOf (e :: es) a = (if e.address = a then e.amount else 0) + amountOf es a := by
  by_cases h : e.address = a
  · simp [amountOf, h]
  · simp [amountOf, h]

theorem amountOf_perm {xs ys : List BtcP2trEvent} (h : xs.Perm ys) (a : Address) :
    amountOf xs a = amountOf ys a := total_perm _ (h.filter _)

theorem booked_perm {xs ys : List P2trEventRow} (h : xs.Perm ys) (a : Address) :
    booked xs a = booked ys a := total_perm _ (h.filter _)

theorem booked_toRow (es : List BtcP2trEvent) (a : Address) :
    booked (es.map BtcP2trEvent.toRow) a = amountOf es a := by
  simp only [booked, amountOf, List.filter_map, total_map]
  rfl

theorem booked_single (e : BtcP2trEvent) (a : Address) :
    booked [e.toRow] a = if e.address = a then e.amount else 0 := by
  have hone : [e].map BtcP2trEvent.toRow = [e.toRow] := rfl
  rw [← hone, booked_toRow, amountOf_cons, amountOf_nil, Int.add_zero]

theorem amountOf_reorg (rows : List P2trEventRow) (a : Address) :
    amountOf (rows.map (fun r => r.toEvent.reorg)) a = -booked rows a := by
  simp only [booked, amountOf, List.filter_map, total_map, ← total_neg]
  apply total_congr
  intro r _
  simp only [BtcP2trEvent.reorg, P2trEventRow.toEvent]
  omega

theorem pending_split (l : Ledger) (n : Nat) :
    l.pending.Perm
      (l.pending.filter (fun e => decide (n < e.blockNumber)) ++ l.matured n) := by
  have hsplit := List.filter_append_perm
    (fun e : BtcP2trEvent => decide (n < e.blockNumber)) l.pending
  refine hsplit.symm.trans (List.Perm.of_eq ?_)
  congr 1
  apply List.filter_congr
  intro e _
  rw [← decide_not]
  exact decide_eq_decide.mpr Nat.not_lt

end Ledger

end BtcIndexer
