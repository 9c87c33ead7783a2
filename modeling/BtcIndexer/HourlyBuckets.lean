import BtcIndexer.BalanceViews
import Mathlib.Data.List.Induction

/-! The hourly changes as a fold. Each event is added to the row of its address and hour by an
upsert whose two branches set the columns on their own, so what a row holds depends on the
events of its bucket alone: how many they are, what they add up to and when they were read. -/
namespace BtcIndexer
open Stateful Outbox Rows

theorem currentHour_le (now : Nat) : currentHour now ≤ now := Nat.sub_le now _

namespace Ledger

theorem increment_find (l : Ledger) (address : Address) (value : Int)
    (hour timestamp : Nat) (bucket : Address × Nat) :
    (l.incrementStaticBalances address value hour timestamp).statistics.find?
        (fun r => r.key = bucket) =
      if (address, hour) = bucket then
        some (((l.statistics.find? (fun r => r.key = bucket)).map
          (addStatistic value hour)).getD ⟨address, value, hour, timestamp⟩)
      else l.statistics.find? (fun r => r.key = bucket) := by
  have hkey : ∀ r, StatisticRow.key (addStatistic value hour r) = StatisticRow.key r :=
    fun _ => rfl
  exact find?_upsert hkey bucket

end Ledger

namespace Aggregator

/-- A call of `update_statistic_balance_change`: its event and the reading of the clock. -/
abbrev Reading := BtcP2trEvent × Nat

def Reading.bucket (r : Reading) : Address × Nat := (r.1.address, currentHour r.2)

/-- The calls that have gone through between two states of the tables, the oldest first. Other
statements come in between, and none of them writes the hourly changes. -/
inductive Applied (env : LedgerEnv) (l : Ledger) : List Reading → Ledger → Prop where
  | nil : Applied env l [] l
  | call {readings : List Reading} {db db' : Ledger} {w w' : World Ledger Empty}
      {event : BtcP2trEvent} : Applied env l readings db →
      updateStatisticBalanceChange env event db w = .ok db' w' →
      Applied env l (readings ++ [(event, env.now w.clock)]) db'
  | other {readings : List Reading} {db db' : Ledger} : Applied env l readings db →
      db'.statistics = db.statistics → Applied env l readings db'

def callsIn (readings : List Reading) (bucket : Address × Nat) : List Reading :=
  readings.filter (fun r => r.bucket = bucket)

/-- What the row of a bucket ought to hold, and that its time never goes back. -/
structure HourlyFold (env : LedgerEnv) (l : Ledger) (readings : List Reading) (l' : Ledger) :
    Prop where
  present : ∀ bucket, bucket ∈ l'.statistics.map StatisticRow.key ↔ callsIn readings bucket ≠ []
  balance : ∀ row ∈ l'.statistics,
    row.balance = total (fun r => r.1.amount) (callsIn readings row.key)
  lastUpdated : ∀ row ∈ l'.statistics,
    (callsIn readings row.key).getLast?.map Prod.snd = some row.lastUpdated
  monotone : ∀ earlier later mid, readings = earlier ++ later → Applied env l earlier mid →
    ∀ old ∈ mid.statistics, ∀ row ∈ l'.statistics, old.key = row.key →
      old.lastUpdated ≤ row.lastUpdated

/-- What it does hold: the first call writes its reading, any further one the hour. -/
def bucketRow (bucket : Address × Nat) (calls : List Reading) : Option StatisticRow :=
  calls.head?.map fun first =>
    ⟨bucket.1, total (fun r => r.1.amount) calls, bucket.2,
      if calls.length = 1 then first.2 else bucket.2⟩

theorem bucketRow_snoc (bucket : Address × Nat) (calls : List Reading) (r : Reading) :
    bucketRow bucket (calls ++ [r]) =
      some (((bucketRow bucket calls).map (Ledger.addStatistic r.1.amount bucket.2)).getD
        ⟨bucket.1, r.1.amount, bucket.2, r.2⟩) := by
  cases calls with
  | nil => simp [bucketRow]
  | cons first rest => simp [bucketRow, Ledger.addStatistic, Int.add_assoc]

theorem callsIn_snoc (readings : List Reading) (r : Reading) (bucket : Address × Nat) :
    callsIn (readings ++ [r]) bucket =
      if r.bucket = bucket then callsIn readings bucket ++ [r] else callsIn readings bucket := by
  unfold callsIn
  rw [List.filter_append]
  by_cases h : r.bucket = bucket
  · simp [h]
  · simp [h]

section Run

variable {env : LedgerEnv} {l l' : Ledger} {readings : List Reading}

theorem updateStatistic_ok {event : BtcP2trEvent} {db db' : Ledger} {w w' : World Ledger Empty}
    (h : updateStatisticBalanceChange env event db w = .ok db' w') :
    db' = db.incrementStaticBalances event.address event.amount
      (currentHour (env.now w.clock)) (env.now w.clock) := by
  have hop := Op.run_sql_ok (f := fun l : Ledger => .ok (l.incrementStaticBalances event.address
    event.amount (currentHour (env.now w.clock)) (env.now w.clock))) h
  exact (Except.ok.inj hop).symm

/-- Every bucket by itself, over any interleaving with the others. -/
theorem Applied.find_row (h : Applied env l readings l') (hempty : l.statistics = [])
    (bucket : Address × Nat) :
    l'.statistics.find? (fun r => r.key = bucket) = bucketRow bucket (callsIn readings bucket) := by
  induction h with
  | nil =>
      rw [hempty]
      rfl
  | @call readings db db' w w' event _ hcall ih =>
      rw [updateStatistic_ok hcall, Ledger.increment_find, callsIn_snoc, ih]
      have hbucket : Reading.bucket (event, env.now w.clock) =
          (event.address, currentHour (env.now w.clock)) := rfl
      rw [hbucket]
      split
      · next hb =>
          subst hb
          exact (bucketRow_snoc _ _ (event, env.now w.clock)).symm
      · rfl
  | other _ hsame ih => rw [hsame, ih]

theorem Applied.mem_iff (h : Applied env l readings l') (hempty : l.statistics = [])
    {row : StatisticRow} : row ∈ l'.statistics ↔
      bucketRow row.key (callsIn readings row.key) = some row := by
  rw [← h.find_row hempty, l'.statisticKey.find?_eq_some_iff]
  exact (and_iff_left rfl).symm

theorem bucketRow_balance {bucket : Address × Nat} {calls : List Reading} {row : StatisticRow}
    (h : bucketRow bucket calls = some row) :
    row.balance = total (fun r => r.1.amount) calls := by
  obtain ⟨first, _, rfl⟩ := Option.map_eq_some_iff.mp h
  rfl

theorem Applied.present (h : Applied env l readings l') (hempty : l.statistics = [])
    (bucket : Address × Nat) :
    bucket ∈ l'.statistics.map StatisticRow.key ↔ callsIn readings bucket ≠ [] := by
  constructor
  · intro hmem hnone
    obtain ⟨row, hrow, rfl⟩ := List.mem_map.mp hmem
    have hsome := (h.mem_iff hempty).mp hrow
    rw [hnone] at hsome
    cases hsome
  · intro hne
    cases hcalls : callsIn readings bucket with
    | nil => exact absurd hcalls hne
    | cons first rest =>
        have hfind := h.find_row hempty bucket
        rw [hcalls] at hfind
        obtain ⟨hrow, hkey⟩ := l'.statisticKey.find?_eq_some_iff.mp hfind
        exact hkey ▸ List.mem_map_of_mem hrow

/-- At most one call, or all of them at the full hour. -/
def Punctual (hour : Nat) (calls : List Reading) : Prop :=
  calls.length ≤ 1 ∨ ∀ r ∈ calls, r.2 = hour

instance (hour : Nat) (calls : List Reading) : Decidable (Punctual hour calls) :=
  inferInstanceAs (Decidable (_ ∨ _))

theorem bucketRow_single {bucket : Address × Nat} {r : Reading} {row : StatisticRow}
    (h : bucketRow bucket [r] = some row) : row.lastUpdated = r.2 := by
  cases h
  rfl

theorem bucketRow_many {bucket : Address × Nat} {calls : List Reading} {row : StatisticRow}
    (h : bucketRow bucket calls = some row) (hmany : ¬ calls.length ≤ 1) :
    row.lastUpdated = bucket.2 := by
  obtain ⟨first, _, rfl⟩ := Option.map_eq_some_iff.mp h
  exact if_neg fun hone => hmany hone.le

theorem bucketRow_hour {bucket : Address × Nat} {calls : List Reading} {row : StatisticRow}
    (h : bucketRow bucket calls = some row) (hhour : ∀ r ∈ calls, r.2 = bucket.2) :
    row.lastUpdated = bucket.2 := by
  obtain ⟨first, hfirst, rfl⟩ := Option.map_eq_some_iff.mp h
  change (if calls.length = 1 then first.2 else bucket.2) = bucket.2
  rw [hhour first (List.mem_of_head? hfirst), ite_self]

theorem le_getLast {calls : List Reading} (hsorted : (calls.map Prod.snd).Pairwise (· ≤ ·))
    {time : Nat} (hlast : calls.getLast?.map Prod.snd = some time) {r : Reading}
    (hr : r ∈ calls) : r.2 ≤ time := by
  obtain ⟨last, hget, rfl⟩ := Option.map_eq_some_iff.mp hlast
  obtain ⟨init, rfl⟩ := List.getLast?_eq_some_iff.mp hget
  rw [List.map_append, List.pairwise_append] at hsorted
  rcases List.mem_append.mp hr with hinit | hsame
  · exact hsorted.2.2 r.2 (List.mem_map_of_mem hinit) last.2 (by simp)
  · rw [List.mem_singleton.mp hsame]

theorem bucketRow_lastUpdated {bucket : Address × Nat} {calls : List Reading}
    {row : StatisticRow} (hrow : bucketRow bucket calls = some row)
    (hpunctual : Punctual bucket.2 calls) :
    calls.getLast?.map Prod.snd = some row.lastUpdated := by
  have hne : calls ≠ [] := by
    rintro rfl
    cases hrow
  rw [List.getLast?_eq_some_getLast hne, Option.map_some]
  congr 1
  rcases hpunctual with hone | hhour
  · obtain ⟨r, rfl⟩ := List.length_eq_one_iff.mp
      (Nat.le_antisymm hone (List.length_pos_iff.mpr hne))
    exact (bucketRow_single hrow).symm
  · rw [bucketRow_hour hrow hhour]
    exact hhour _ (List.getLast_mem hne)

theorem bucketRow_mono {bucket : Address × Nat} {calls more : List Reading}
    {old row : StatisticRow} (hold : bucketRow bucket calls = some old)
    (hrow : bucketRow bucket (calls ++ more) = some row)
    (hpunctual : Punctual bucket.2 (calls ++ more)) : old.lastUpdated ≤ row.lastUpdated := by
  rcases hpunctual with hone | hhour
  · have hmore : more = [] := by
      cases calls with
      | nil => cases hold
      | cons first rest =>
          apply List.eq_nil_of_length_eq_zero
          rw [List.length_append, List.length_cons] at hone
          omega
    rw [hmore, List.append_nil] at hrow
    cases hold.symm.trans hrow
    exact Nat.le_refl _
  · have hearlier : ∀ r ∈ calls, r.2 = bucket.2 := fun r hr =>
      hhour r (List.mem_append_left _ hr)
    rw [bucketRow_hour hold hearlier, bucketRow_hour hrow hhour]

/-- The hourly changes are the fold that they are meant to be exactly if no bucket gets a second
event, apart from buckets all of whose events come at the full hour: the conflict branch writes
the hour where the insert branch writes the reading. -/
theorem hourlyFold_iff (env : LedgerEnv) (l l' : Ledger) (readings : List Reading)
    (h : Applied env l readings l') (hempty : l.statistics = [])
    (hsorted : (readings.map Prod.snd).Pairwise (· ≤ ·)) :
    HourlyFold env l readings l' ↔
      ∀ address hour, Punctual hour (callsIn readings (address, hour)) := by
  constructor
  · intro hfold address hour
    by_cases hone : (callsIn readings (address, hour)).length ≤ 1
    · exact .inl hone
    · right
      intro r hr
      have hne : callsIn readings (address, hour) ≠ [] := List.ne_nil_of_mem hr
      obtain ⟨row, hrow, hkey⟩ := List.mem_map.mp ((hfold.present _).mpr hne)
      have hshown := (h.mem_iff hempty).mp hrow
      have hlast := hfold.lastUpdated row hrow
      rw [hkey] at hshown hlast
      rw [bucketRow_many hshown hone] at hlast
      have hmine : ((callsIn readings (address, hour)).map Prod.snd).Pairwise (· ≤ ·) :=
        hsorted.sublist (List.filter_sublist.map Prod.snd)
      apply Nat.le_antisymm (le_getLast hmine hlast hr)
      have hbucket : r.bucket = (address, hour) := of_decide_eq_true (List.mem_filter.mp hr).2
      have hhour : currentHour r.2 = hour := congrArg Prod.snd hbucket
      exact hhour ▸ currentHour_le r.2
  · intro hpunctual
    constructor
    · exact h.present hempty
    · intro row hrow
      exact bucketRow_balance ((h.mem_iff hempty).mp hrow)
    · intro row hrow
      exact bucketRow_lastUpdated ((h.mem_iff hempty).mp hrow) (hpunctual _ _)
    · rintro earlier later mid rfl hmid old hold row hrow hkey
      have hsplit : callsIn (earlier ++ later) row.key =
          callsIn earlier row.key ++ callsIn later row.key := List.filter_append _ _
      have hshown := (hmid.mem_iff hempty).mp hold
      rw [hkey] at hshown
      have hright := hpunctual row.address row.datetimeHour
      exact bucketRow_mono hshown (hsplit ▸ (h.mem_iff hempty).mp hrow) (hsplit ▸ hright)

theorem punctual_of_nodup (h : (readings.map Reading.bucket).Nodup) (address : Address)
    (hour : Nat) : Punctual hour (callsIn readings (address, hour)) := by
  left
  have hcount : (callsIn readings (address, hour)).length =
      (readings.map Reading.bucket).count (address, hour) := by
    rw [callsIn, ← List.countP_eq_length_filter, List.count, List.countP_map]
    exact List.countP_congr fun r _ => by simp
  rw [hcount]
  exact List.nodup_iff_count_le_one.mp h _

end Run

def afterCalls (l : Ledger) (readings : List Reading) : Ledger :=
  readings.foldl (fun db r =>
    db.incrementStaticBalances r.1.address r.1.amount (currentHour r.2) r.2) l

theorem applied_afterCalls (l : Ledger) (readings : List Reading) :
    Applied LedgerEnv.calm l readings (afterCalls l readings) := by
  induction readings using List.reverseRecOn with
  | nil => exact .nil
  | append_singleton readings r ih =>
      rw [afterCalls, List.foldl_append]
      have hcall : updateStatisticBalanceChange LedgerEnv.calm r.1 (afterCalls l readings)
          ⟨l, [], r.2⟩ = .ok ((afterCalls l readings).incrementStaticBalances r.1.address
            r.1.amount (currentHour r.2) r.2) ⟨l, [], r.2 + 1⟩ := rfl
      exact ih.call hcall

/-- Payments at five minutes past six and past seven. -/
def hourApart : List Reading :=
  [(paymentTo 7 1 50 false, 1732946700000000000), (paymentTo 7 2 30 false, 1732950300000000000)]

/-- Payments at five and at ten minutes past six. -/
def sameHour : List Reading :=
  [(paymentTo 7 1 50 false, 1732946700000000000), (paymentTo 7 2 30 false, 1732947000000000000)]

theorem hourApart_fold :
    HourlyFold LedgerEnv.calm Ledger.empty hourApart (afterCalls Ledger.empty hourApart) :=
  (hourlyFold_iff LedgerEnv.calm Ledger.empty _ _ (applied_afterCalls _ _) rfl
    (by decide)).mpr (punctual_of_nodup (by decide))

/-- The row says six o'clock. -/
theorem sameHour_resets :
    Applied LedgerEnv.calm Ledger.empty sameHour (afterCalls Ledger.empty sameHour) ∧
    (sameHour.map Prod.snd).Pairwise (· ≤ ·) ∧
    ¬ HourlyFold LedgerEnv.calm Ledger.empty sameHour (afterCalls Ledger.empty sameHour) := by
  refine ⟨applied_afterCalls _ _, by decide, fun h => ?_⟩
  have hlast := h.lastUpdated ⟨⟨7⟩, 80, 1732946400000000000, 1732946400000000000⟩ (by decide)
  revert hlast
  decide

end Aggregator

end BtcIndexer
