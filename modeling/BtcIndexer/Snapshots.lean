import BtcIndexer.BalanceViews
import BtcIndexer.Calendar
import Mathlib.Data.List.AList

/-! Balance snapshots: the spans and steps that the endpoint accepts, the series of buckets
that the query spans with them, and the balance that is counted back over the buckets. -/
namespace BtcIndexer
open Calendar Rows

inductive ApiError where
  | sqlx (e : SqlxError)
  | paramsInvalid (text : String)
  deriving DecidableEq, Repr

inductive TimeSpan where
  | m
  | w
  | d
  deriving DecidableEq, Repr

inductive Granularity where
  | w
  | d
  | h
  deriving DecidableEq, Repr

/-- The intervals that are taken from the current time. -/
inductive Interval where
  | month
  | fixed (period : Period)

def Interval.before : Interval → Int → Int
  | .month, instant => minusMonth instant
  | .fixed period, instant => instant - period.length

namespace Snapshots

def intervals : TimeSpan → Granularity → Except ApiError (Interval × Period × Period)
  | .m, .w => .ok (.month, .week, .week)
  | .m, .d => .ok (.month, .day, .day)
  | .m, .h => .ok (.month, .hour, .hour)
  | .w, .w => .ok (.fixed .week, .week, .week)
  | .w, .d => .ok (.fixed .week, .day, .day)
  | .w, .h => .ok (.fixed .week, .hour, .hour)
  | .d, .d => .ok (.fixed .day, .day, .day)
  | .d, .h => .ok (.fixed .day, .hour, .hour)
  | .d, .w => .error (.paramsInvalid "Invalid time span or granularity combination")

def start (interval : Interval) (step : Period) (now : Int) : Int :=
  interval.before (step.trunc now)

def timeSeries (interval : Interval) (step stepInterval : Period) (now : Int) : List Int :=
  series (start interval step now) (step.trunc now) stepInterval.length

/-- The series ends with the current bucket, and what happened in the span has one bucket. -/
structure Covers (step : Period) (start now : Int) (buckets : List Int) : Prop where
  ends : buckets.getLast? = some (step.trunc now)
  joins : ∀ instant, start ≤ instant → instant ≤ now →
    buckets.count (step.trunc instant) = 1

variable {timeSpan : TimeSpan} {granularity : Granularity} {interval : Interval}
  {step stepInterval : Period}

theorem stepInterval_eq (h : intervals timeSpan granularity = .ok (interval, step, stepInterval)) :
    stepInterval = step := by
  unfold intervals at h
  split at h
  all_goals cases h
  all_goals rfl

theorem start_le (h : intervals timeSpan granularity = .ok (interval, step, stepInterval))
    (now : Int) : start interval step now ≤ step.trunc now := by
  unfold start
  cases interval with
  | month => exact minusMonth_le _
  | fixed period => exact Int.sub_le_self _ period.length_pos.le

/-- A series covers its span if it starts where a period does. -/
theorem covers_iff {start now : Int} (hle : start ≤ step.trunc now) :
    Covers step start now (series start (step.trunc now) step.length) ↔ step.OnGrid start := by
  constructor
  · intro h
    have hlast := (getLast?_series step.length_pos).mp h.ends
    have hdvd := ((mem_series step.length_pos).mp hlast).2.2
    exact (Period.onGrid_sub_iff (step.trunc_onGrid now)).mpr hdvd
  · intro hstart
    have hnodup : (series start (step.trunc now) step.length).Nodup :=
      (series_pairwise step.length_pos).imp Int.ne_of_lt
    constructor
    · apply (getLast?_series step.length_pos).mpr
      exact (Period.mem_series hstart _).mpr ⟨step.trunc_onGrid now, hle, step.trunc_le now⟩
    · intro instant hspan hnow
      apply List.count_eq_one_of_mem hnodup
      exact (Period.mem_series hstart _).mpr ⟨step.trunc_onGrid instant,
        (Period.le_trunc hstart).mpr hspan, (step.trunc_le instant).trans hnow⟩

theorem dvd_sub_minusMonth {period : Period} (h : period.length ∣ dayLength) (instant : Int) :
    period.length ∣ instant - minusMonth instant := by
  rw [sub_minusMonth]
  exact Int.dvd_mul_of_dvd_right h

theorem dvd_sub_fixed {period span : Period} (h : period.length ∣ span.length) (instant : Int) :
    period.length ∣ instant - (Interval.fixed span).before instant := by
  rw [Interval.before, Int.sub_sub_self]
  exact h

/-- Every span but a month of weeks is a whole number of steps. -/
theorem aligned_iff (h : intervals timeSpan granularity = .ok (interval, step, stepInterval))
    (now : Int) : step.OnGrid (start interval step now) ↔ ((timeSpan, granularity) = (.m, .w) →
      (dateOf (step.trunc now)).month = 3 ∧ isLeap (dateOf (step.trunc now)).year = false ∧
        (dateOf (step.trunc now)).day ≤ 28) := by
  rw [Period.onGrid_sub_iff (step.trunc_onGrid now)]
  unfold start
  unfold intervals at h
  split at h
  · -- as many days back from a Monday as the month before has
    cases h
    rw [forall_prop_of_true rfl, Interval.before, sub_minusMonth, ← Date.seven_dvd_minusMonth]
    exact Int.mul_dvd_mul_iff_right (by decide)
  all_goals cases h
  all_goals refine iff_of_true ?_ nofun
  · exact dvd_sub_minusMonth (by decide) _
  · exact dvd_sub_minusMonth (by decide) _
  all_goals exact dvd_sub_fixed (by decide) _

/-- The buckets cover the span at every time for every accepted pair but a month of weeks, and
for that one in the weeks that start between the first and the 28th of March of a year without
leap day. -/
theorem buckets_cover_iff
    (h : intervals timeSpan granularity = .ok (interval, step, stepInterval)) (now : Int) :
    Covers step (start interval step now) now (timeSeries interval step stepInterval now) ↔
      ((timeSpan, granularity) = (.m, .w) →
        (dateOf (step.trunc now)).month = 3 ∧ isLeap (dateOf (step.trunc now)).year = false ∧
          (dateOf (step.trunc now)).day ≤ 28) := by
  rw [timeSeries, stepInterval_eq h, covers_iff (start_le h now), aligned_iff h now]

/-- Weeks back from the 27th of March 2023. -/
theorem buckets_cover_march : Covers .week (start .month .week 1680181200000000000)
    1680181200000000000 (timeSeries .month .week .week 1680181200000000000) := by
  have haccepted : intervals .m .w = .ok (.month, .week, .week) := rfl
  exact (buckets_cover_iff haccepted _).mpr (by decide +kernel)

/-- Weeks back from the 25th of November 2024, a Monday: the series starts on a Friday. -/
theorem buckets_miss_november :
    intervals .m .w = .ok (.month, .week, .week) ∧
      ¬ Covers .week (start .month .week 1732946400000000000) 1732946400000000000
        (timeSeries .month .week .week 1732946400000000000) :=
  ⟨rfl, fun h => absurd h.ends (by decide +kernel)⟩

end Snapshots

namespace Ledger

def getBtcBalance (l : Ledger) (address : Address) : Option Int :=
  (l.balances.find? (fun r => r.address = address)).map BalanceRow.balance

def joined (l : Ledger) (address : Address) (step : Period) (bucket : Int) :
    List StatisticRow :=
  l.statistics.filter (fun r => step.trunc r.datetimeHour = bucket ∧ r.address = address)

/-- A bucket without rows has one row all the same, with no change. -/
def leftJoin (bucket : Int) : List StatisticRow → List (Int × Int)
  | [] => [(bucket, 0)]
  | row :: rows => (row :: rows).map (fun r => (bucket, r.balance))

/-- The buckets from the last to the first, and the rows of one bucket in any order. -/
def getBalanceSnapshots (l : Ledger) (order : ScanOrder StatisticRow) (now : Int)
    (address : Address) (interval : Interval) (step stepInterval : Period) : List (Int × Int) :=
  (Snapshots.timeSeries interval step stepInterval now).reverse.flatMap fun bucket =>
    leftJoin bucket (order.order (l.joined address step bucket))

end Ledger

structure AggregatedBalance where
  balance : Int
  deriving DecidableEq, Repr

structure Connection where
  getBtcBalance : Address → Except SqlxError (Option Int)
  getBalanceSnapshots :
    Address → Interval → Period → Period → Except SqlxError (List (Int × Int))

def Ledger.connection (l : Ledger) (order : ScanOrder StatisticRow) (now : Int) : Connection where
  getBtcBalance := fun address => .ok (l.getBtcBalance address)
  getBalanceSnapshots := fun address interval step stepInterval =>
    .ok (l.getBalanceSnapshots order now address interval step stepInterval)

namespace Snapshots

/-- The object of the response, by the seconds of the buckets. -/
abbrev SnapshotMap := AList (fun _ : Int => List AggregatedBalance)

def timestamp (instant : Int) : Int := instant / 1000000000

def insertSnapshot (state : Int × SnapshotMap) (row : Int × Int) : Int × SnapshotMap :=
  (state.1 - row.2, state.2.insert (timestamp row.1) [⟨state.1⟩])

/-- The address as the library has parsed it for the network, or the text of its error. -/
def balanceSnapshots (db : Connection) (address : Except String Address)
    (timeSpan : TimeSpan) (granularity : Granularity) : Except ApiError SnapshotMap := do
  let (interval, step, stepInterval) ← intervals timeSpan granularity
  let address ← address.mapError .paramsInvalid
  let total := ((← (db.getBtcBalance address).mapError .sqlx)).getD 0
  let rows ← (db.getBalanceSnapshots address interval step stepInterval).mapError .sqlx
  return (rows.foldl insertSnapshot (total, ∅)).2

variable {b : Int} {m : SnapshotMap}

/-- The rows of a bucket are all subtracted, and under the bucket stands what was there before
the last of them. -/
theorem foldl_rows (bucket : Int) {rows : List StatisticRow} (hne : rows ≠ []) :
    let state := (rows.map (fun r => (bucket, r.balance))).foldl insertSnapshot (b, m)
    state.1 = b - total StatisticRow.balance rows ∧
      state.2.lookup (timestamp bucket) =
        some [⟨b - total StatisticRow.balance rows.dropLast⟩] ∧
      ∀ key, key ≠ timestamp bucket → state.2.lookup key = m.lookup key := by
  induction rows generalizing b m with
  | nil => exact absurd rfl hne
  | cons row rest ih =>
      have hfirst : ∀ key, key ≠ timestamp bucket →
          (insertSnapshot (b, m) (bucket, row.balance)).2.lookup key = m.lookup key :=
        fun key hkey => AList.lookup_insert_ne hkey
      cases rest with
      | nil =>
          refine ⟨by simp [insertSnapshot], ?_, hfirst⟩
          simp [insertSnapshot, AList.lookup_insert]
      | cons next rest =>
          obtain ⟨hrunning, hlookup, hothers⟩ := ih (b := b - row.balance)
            (m := m.insert (timestamp bucket) [⟨b⟩]) (List.cons_ne_nil _ _)
          refine ⟨?_, ?_, fun key hkey => (hothers key hkey).trans (hfirst key hkey)⟩
          · rw [total_cons]
            exact hrunning.trans (by omega)
          · rw [List.dropLast_cons_cons, total_cons]
            refine hlookup.trans ?_
            congr 3
            omega

theorem foldl_leftJoin (bucket : Int) (rows : List StatisticRow) :
    let state := (Ledger.leftJoin bucket rows).foldl insertSnapshot (b, m)
    state.1 = b - total StatisticRow.balance rows ∧
      state.2.lookup (timestamp bucket) =
        some [⟨b - total StatisticRow.balance rows.dropLast⟩] ∧
      ∀ key, key ≠ timestamp bucket → state.2.lookup key = m.lookup key := by
  cases rows with
  | nil =>
      refine ⟨rfl, ?_, fun key hkey => AList.lookup_insert_ne hkey⟩
      simp [Ledger.leftJoin, insertSnapshot, AList.lookup_insert]
  | cons row rest => exact foldl_rows bucket (List.cons_ne_nil row rest)

variable {rows : Int → List StatisticRow}

theorem foldl_buckets (buckets : List Int) :
    let state := (buckets.flatMap fun t => Ledger.leftJoin t (rows t)).foldl insertSnapshot (b, m)
    state.1 = b - total StatisticRow.balance (buckets.flatMap rows) ∧
      ∀ key, key ∉ buckets.map timestamp → state.2.lookup key = m.lookup key := by
  induction buckets generalizing b m with
  | nil => exact ⟨by simp, fun _ _ => rfl⟩
  | cons bucket rest ih =>
      obtain ⟨hrunning, _, hothers⟩ := foldl_leftJoin (b := b) (m := m) bucket (rows bucket)
      simp only [List.flatMap_cons, List.foldl_append, total_append]
      obtain ⟨hrest, hkeys⟩ := ih (b := _) (m := _)
      refine ⟨hrest.trans (by rw [hrunning]; omega), fun key hkey => ?_⟩
      rw [List.map_cons, List.mem_cons, not_or] at hkey
      exact (hkeys key hkey.2).trans (hothers key hkey.1)

/-- What the response shows under a bucket: the first balance less all changes in the buckets
before it in the list, and less the changes of its own rows up to the last. -/
theorem lookup_foldl {earlier later : List Int} {bucket : Int}
    (hlater : timestamp bucket ∉ later.map timestamp) :
    (((earlier ++ bucket :: later).flatMap fun t => Ledger.leftJoin t (rows t)).foldl
        insertSnapshot (b, m)).2.lookup (timestamp bucket) =
      some [⟨b - total StatisticRow.balance (earlier.flatMap rows) -
        total StatisticRow.balance (rows bucket).dropLast⟩] := by
  rw [List.flatMap_append, List.foldl_append, List.flatMap_cons, List.foldl_append]
  refine ((foldl_buckets later).2 _ hlater).trans ?_
  refine (foldl_leftJoin bucket (rows bucket)).2.1.trans ?_
  rw [(foldl_buckets earlier).1]

end Snapshots

namespace Ledger

variable (l : Ledger) (a : Address) (step : Period)

def balanceUpTo (bucket : Int) : Int :=
  total StatisticRow.balance
    (l.statistics.filter (fun r => step.trunc r.datetimeHour ≤ bucket ∧ r.address = a))

/-- The changes of an address in the buckets after one. -/
def changesAfter (bucket : Int) : Int :=
  total StatisticRow.balance
    (l.statistics.filter (fun r => bucket < step.trunc r.datetimeHour ∧ r.address = a))

theorem total_joined {buckets : List Int} (hnodup : buckets.Nodup)
    (order : ScanOrder StatisticRow) :
    total StatisticRow.balance (buckets.flatMap fun t => order.order (l.joined a step t)) =
      total StatisticRow.balance
        (l.statistics.filter (fun r => step.trunc r.datetimeHour ∈ buckets ∧ r.address = a)) := by
  induction buckets with
  | nil => simp
  | cons bucket rest ih =>
      obtain ⟨hnew, hrest⟩ := List.nodup_cons.mp hnodup
      rw [List.flatMap_cons, total_append, ih hrest, total_perm _ (order.perm _), joined]
      simp only [total_filter, decide_eq_true_eq, ← total_add, List.mem_cons]
      apply total_congr
      intro r _
      by_cases hbucket : step.trunc r.datetimeHour = bucket
      · simp [hbucket, hnew]
      · simp [hbucket]

end Ledger

namespace Snapshots

variable {timeSpan : TimeSpan} {granularity : Granularity} {interval : Interval}
  {step stepInterval : Period}

/-- The steps are whole seconds, so no two buckets share a key. -/
theorem timestamp_inj (h : intervals timeSpan granularity = .ok (interval, step, stepInterval))
    {s t : Int} (hs : step.OnGrid s) (ht : step.OnGrid t) (hsame : timestamp s = timestamp t) :
    s = t := by
  have hseconds : 1000000000 ∣ step.length ∧ 1000000000 ∣ step.origin := by
    unfold intervals at h
    split at h
    all_goals cases h
    all_goals decide
  have hdvd : ∀ {r : Int}, step.OnGrid r → 1000000000 ∣ r := fun {r} hr =>
    (dvd_sub_left hseconds.2).mp (hseconds.1.trans hr)
  have hds := hdvd hs
  have hdt := hdvd ht
  unfold timestamp at hsame
  omega

theorem split_timeSeries
    (h : intervals timeSpan granularity = .ok (interval, step, stepInterval)) {now : Int}
    (haligned : step.OnGrid (start interval step now)) {t : Int}
    (ht : t ∈ timeSeries interval step stepInterval now) :
    ∃ later earlier, (timeSeries interval step stepInterval now).reverse = later ++ t :: earlier ∧
      later.Nodup ∧ timestamp t ∉ earlier.map timestamp ∧
      ∀ s, step.OnGrid s → (s ∈ later ↔ t < s ∧ s ≤ step.trunc now) := by
  rw [timeSeries, stepInterval_eq h] at ht ⊢
  obtain ⟨later, earlier, hsplit⟩ := List.append_of_mem (List.mem_reverse.mpr ht)
  have hsorted : (later ++ t :: earlier).Pairwise (fun s t => t < s) := by
    rw [← hsplit, List.pairwise_reverse]
    exact series_pairwise step.length_pos
  have hmem : ∀ s, s ∈ later ++ t :: earlier ↔
      step.OnGrid s ∧ start interval step now ≤ s ∧ s ≤ now := fun s => by
    rw [← hsplit, List.mem_reverse, Period.mem_series haligned]
  obtain ⟨hgrid, hstart, _⟩ := (Period.mem_series haligned t).mp ht
  rw [List.pairwise_append] at hsorted
  obtain ⟨hfirst, hlast, hacross⟩ := hsorted
  refine ⟨later, earlier, hsplit, hfirst.imp (fun hlt => (Int.ne_of_lt hlt).symm), ?_, ?_⟩
  · rw [List.mem_map]
    rintro ⟨s, hs, hsame⟩
    have hgrids := ((hmem s).mp (by simp [hs])).1
    have hlt := (List.pairwise_cons.mp hlast).1 s hs
    have heq := timestamp_inj h hgrids hgrid hsame
    omega
  · intro s hgrids
    constructor
    · intro hs
      have hle := ((hmem s).mp (List.mem_append_left _ hs)).2.2
      exact ⟨hacross s hs t List.mem_cons_self, (Period.le_trunc hgrids).mpr hle⟩
    · rintro ⟨hlt, hle⟩
      have hin := (hmem s).mpr ⟨hgrids, by omega, (Period.le_trunc hgrids).mp hle⟩
      rcases List.mem_append.mp hin with hlater | hearlier
      · exact hlater
      · rcases List.mem_cons.mp hearlier with rfl | hs
        · omega
        · have hgt := (List.pairwise_cons.mp hlast).1 s hs
          omega

theorem statistic_split (l : Ledger) (a : Address) {now t : Int} {later : List Int}
    (hle : t ≤ step.trunc now)
    (hlater : ∀ s, step.OnGrid s → (s ∈ later ↔ t < s ∧ s ≤ step.trunc now)) :
    l.statistic a = l.balanceUpTo a step t +
      total StatisticRow.balance
        (l.statistics.filter (fun r => step.trunc r.datetimeHour ∈ later ∧ r.address = a)) +
      l.changesAfter a step (step.trunc now) := by
  unfold Ledger.statistic Ledger.balanceUpTo Ledger.changesAfter
  simp only [total_filter, ← total_add]
  apply total_congr
  intro r _
  have hin := hlater _ (step.trunc_onGrid r.datetimeHour)
  by_cases ha : r.address = a
  · simp only [ha, and_true, hin, decide_eq_true_eq, if_true]
    split <;> split <;> split <;> omega
  · simp [ha]

/-- Every bucket shows the balance at its end if and only if its rows but the one returned last
add up to the changes after the last bucket. Where a ledger has no changes in the future, these
rows must cancel out, as they do in a bucket of at most one row. -/
theorem snapshots_exact_iff
    (h : intervals timeSpan granularity = .ok (interval, step, stepInterval)) (l : Ledger)
    (order : ScanOrder StatisticRow) (now : Int) (a : Address) (hsum : l.statistic a = l.balance a)
    (haligned : step.OnGrid (start interval step now)) :
    (∃ snapshots,
      balanceSnapshots (l.connection order now) (.ok a) timeSpan granularity = .ok snapshots ∧
        ∀ t ∈ timeSeries interval step stepInterval now,
          snapshots.lookup (timestamp t) = some [⟨l.balanceUpTo a step t⟩]) ↔
      ∀ t ∈ timeSeries interval step stepInterval now,
        total StatisticRow.balance (order.order (l.joined a step t)).dropLast =
          l.changesAfter a step (step.trunc now) := by
  have hrun : balanceSnapshots (l.connection order now) (.ok a) timeSpan granularity =
      .ok ((l.getBalanceSnapshots order now a interval step stepInterval).foldl insertSnapshot
        (l.balance a, ∅)).2 := by
    unfold balanceSnapshots
    rw [h]
    rfl
  have hshown : ∀ t ∈ timeSeries interval step stepInterval now,
      ((l.getBalanceSnapshots order now a interval step stepInterval).foldl insertSnapshot
          (l.balance a, ∅)).2.lookup (timestamp t) =
        some [⟨l.balanceUpTo a step t + l.changesAfter a step (step.trunc now) -
          total StatisticRow.balance (order.order (l.joined a step t)).dropLast⟩] := by
    intro t ht
    obtain ⟨later, earlier, hsplit, hnodup, hkeys, hlater⟩ := split_timeSeries h haligned ht
    have hle : t ≤ step.trunc now :=
      ((mem_series stepInterval.length_pos).mp ht).2.1
    unfold Ledger.getBalanceSnapshots
    rw [hsplit, lookup_foldl hkeys, l.total_joined a step hnodup order, ← hsum,
      statistic_split l a hle hlater]
    congr 3
    omega
  rw [hrun]
  constructor
  · rintro ⟨snapshots, hok, hexact⟩ t ht
    cases hok
    have hsame := (hshown t ht).symm.trans (hexact t ht)
    simp only [Option.some.injEq, List.cons.injEq, AggregatedBalance.mk.injEq] at hsame
    omega
  · intro hcancel
    refine ⟨_, rfl, fun t ht => (hshown t ht).trans ?_⟩
    rw [hcancel t ht, Int.add_sub_cancel]

/-- Two hours of one day, 70 and then 30. -/
def twoHours : Ledger :=
  (Ledger.empty.book ⟨850000, ⟨1⟩, ⟨7⟩, 70, .receive, false⟩ 1732932000000000000
      1732932000000000000 1732932000000000000).book
    ⟨850001, ⟨2⟩, ⟨7⟩, 30, .receive, false⟩ 1732935600000000000 1732935600000000000
      1732935600000000000

/-- By the hour the two rows have a bucket each. -/
theorem twoHours_hourly : ∃ snapshots,
    balanceSnapshots (twoHours.connection (ScanOrder.asStored _) 1732946400000000000)
        (.ok ⟨7⟩) .d .h = .ok snapshots ∧
      ∀ t ∈ timeSeries (.fixed .day) .hour .hour 1732946400000000000,
        snapshots.lookup (timestamp t) = some [⟨twoHours.balanceUpTo ⟨7⟩ .hour t⟩] := by
  have haccepted : intervals .d .h = .ok (.fixed .day, .hour, .hour) := rfl
  exact (snapshots_exact_iff haccepted twoHours _ _ _ (by decide +kernel)
    (by decide +kernel)).mpr (by decide +kernel)

/-- By the day the balance of the day, which is 100, is overwritten by that between the two. -/
theorem twoHours_daily :
    intervals .w .d = .ok (.fixed .week, .day, .day) ∧
      twoHours.statistic ⟨7⟩ = twoHours.balance ⟨7⟩ ∧
      Period.day.OnGrid (start (.fixed .week) .day 1732946400000000000) ∧
      Period.day.trunc 1732946400000000000 ∈
        timeSeries (.fixed .week) .day .day 1732946400000000000 ∧
      twoHours.balanceUpTo ⟨7⟩ .day (Period.day.trunc 1732946400000000000) = 100 ∧
      ∃ snapshots,
        balanceSnapshots (twoHours.connection (ScanOrder.asStored _) 1732946400000000000)
          (.ok ⟨7⟩) .w .d = .ok snapshots ∧
        snapshots.lookup (timestamp (Period.day.trunc 1732946400000000000)) = some [⟨30⟩] := by
  refine ⟨rfl, by decide +kernel, by decide +kernel, by decide +kernel, by decide +kernel, ?_⟩
  exact ⟨_, rfl, by decide +kernel⟩

end Snapshots

end BtcIndexer
