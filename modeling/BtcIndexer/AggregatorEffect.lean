import BtcIndexer.Aggregator

/-! What the transactions of the aggregator do to its tables, and when they commit. Each is a
script of statements that no constraint refuses, so it commits exactly if none of its ticks is
faulty. -/
namespace BtcIndexer
open Stateful Outbox Rows

namespace Aggregator

variable {env : LedgerEnv}

/-- The three statements that book an event, the first of them at tick `t`. -/
def bookStmts (env : LedgerEnv) (t : Nat) (event : BtcP2trEvent) : List (Ledger → Ledger) :=
  [fun l => l.createP2trEvent event,
    fun l => l.incrementBtcBalance event.address event.amount (env.now (t + 1)),
    fun l => l.incrementStaticBalances event.address event.amount
      (currentHour (env.now (t + 2))) (env.now (t + 2))]

def bookAllStmts (env : LedgerEnv) : Nat → List BtcP2trEvent → List (Ledger → Ledger)
  | _, [] => []
  | t, event :: rest => bookStmts env t event ++ bookAllStmts env (t + 3) rest

def recordStmts (env : LedgerEnv) (t : Nat) (event : BtcP2trEvent) : List (Ledger → Ledger) :=
  if event.isCoinbase then [fun l => l.createPendingP2trEvent event] else bookStmts env t event

def runStmts (fs : List (Ledger → Ledger)) (l : Ledger) : Ledger := fs.foldl (fun s f => f s) l

theorem bookAllStmts_length (env : LedgerEnv) (t : Nat) (events : List BtcP2trEvent) :
    (bookAllStmts env t events).length = 3 * events.length := by
  induction events generalizing t with
  | nil => rfl
  | cons event rest ih =>
      rw [bookAllStmts, List.length_append, ih, List.length_cons]
      simp only [bookStmts, List.length_cons, List.length_nil]
      omega

theorem plain_append (fs gs : List (Ledger → Ledger)) :
    (plain (fs ++ gs) : List (Op Ledger AggregatorError Empty)) = plain fs ++ plain gs :=
  List.map_append

theorem sql_ok_tick {F : Faults AggregatorError} {f : Ledger → Except AggregatorError Ledger}
    {db db' : Ledger} {w w' : World Ledger Empty} (h : sql F f db w = .ok db' w') :
    w' = w.tick := by
  simp only [sql, query] at h
  split at h
  · cases h
  · cases hf : f db with
    | ok a => rw [hf] at h; cases h; rfl
    | error e => rw [hf] at h; cases h

theorem bookEvent_eq (env : LedgerEnv) (event : BtcP2trEvent) (db : Ledger)
    (w : World Ledger Empty) :
    bookEvent env event db w = run env.faults (plain (bookStmts env w.clock event)) db w := by
  unfold bookEvent insertEvent
  apply bind_congr_of_ok
  intro db₁ w₁ h₁
  cases sql_ok_tick h₁
  change (updateTotalBalance env event db₁ >>= _) _ = (updateTotalBalance env event db₁ >>= _) _
  apply bind_congr_of_ok
  intro db₂ w₂ h₂
  cases sql_ok_tick h₂
  change _ = (updateStatisticBalanceChange env event db₂ >>= fun db => pure db) _
  rw [bind_pure]

theorem bookEvents_eq (env : LedgerEnv) (events : List BtcP2trEvent) (db : Ledger)
    (w : World Ledger Empty) :
    bookEvents env events db w =
      run env.faults (plain (bookAllStmts env w.clock events)) db w := by
  induction events generalizing db w with
  | nil => rfl
  | cons event rest ih =>
      rw [bookAllStmts, plain_append, run_append]
      change (bookEvent env event db >>= fun db => bookEvents env rest db) w = _
      rw [bind_congr_head (bookEvent_eq env event db w)]
      apply bind_congr_of_ok
      intro db₁ w₁ h
      obtain ⟨_, _, rfl⟩ := run_plain_ok_iff.mp h
      exact ih db₁ (w.later _)

theorem recordEvent_eq (env : LedgerEnv) (event : BtcP2trEvent) (db : Ledger)
    (w : World Ledger Empty) :
    recordEvent env event db w =
      run env.faults (plain (recordStmts env w.clock event)) db w := by
  unfold recordEvent recordStmts
  cases event.isCoinbase with
  | false => exact bookEvent_eq env event db w
  | true =>
      change _ = (insertPendingEvent env event db >>= fun db => pure db) w
      rw [bind_pure]
      rfl

theorem storeEvent_eq (env : LedgerEnv) (event : BtcP2trEvent) (w : World Ledger Empty) :
    storeEvent env event w =
      transact env.faults (plain (recordStmts env (w.clock + 1) event)) w := by
  change (begin env.faults >>= _) w = (begin env.faults >>= _) w
  apply bind_congr_of_ok
  intro db w₁ h
  obtain ⟨rfl, rfl⟩ := begin_ok h
  exact bind_congr_head (recordEvent_eq env event w.store w.tick)

theorem bookPulled_eq (env : LedgerEnv) (events : List BtcP2trEvent) (w : World Ledger Empty) :
    bookPulled env events w =
      transact env.faults (plain (bookAllStmts env (w.clock + 1) events)) w := by
  change (begin env.faults >>= _) w = (begin env.faults >>= _) w
  apply bind_congr_of_ok
  intro db w₁ h
  obtain ⟨rfl, rfl⟩ := begin_ok h
  exact bind_congr_head (bookEvents_eq env events w.store w.tick)

@[simp] theorem bookAll_events (env : LedgerEnv) (t : Nat) (events : List BtcP2trEvent)
    (l : Ledger) : (runStmts (bookAllStmts env t events) l).events =
      l.events ++ events.map BtcP2trEvent.toRow := by
  induction events generalizing t l with
  | nil => simp [bookAllStmts, runStmts]
  | cons event rest ih =>
      rw [bookAllStmts, runStmts, List.foldl_append]
      change (runStmts _ (runStmts _ l)).events = _
      rw [ih, List.map_cons]
      change (l.events ++ [event.toRow]) ++ _ = _
      rw [List.append_assoc, List.singleton_append]

@[simp] theorem bookAll_pending (env : LedgerEnv) (t : Nat) (events : List BtcP2trEvent)
    (l : Ledger) : (runStmts (bookAllStmts env t events) l).pending = l.pending := by
  induction events generalizing t l with
  | nil => rfl
  | cons event rest ih =>
      rw [bookAllStmts, runStmts, List.foldl_append]
      change (runStmts _ (runStmts _ l)).pending = _
      rw [ih]
      rfl

theorem bookAll_balance (env : LedgerEnv) (t : Nat) (events : List BtcP2trEvent) (l : Ledger)
    (a : Address) : (runStmts (bookAllStmts env t events) l).balance a =
      l.balance a + Ledger.amountOf events a := by
  induction events generalizing t l with
  | nil => simp [bookAllStmts, runStmts]
  | cons event rest ih =>
      rw [bookAllStmts, runStmts, List.foldl_append]
      change (runStmts _ (runStmts _ l)).balance a = _
      rw [ih, Ledger.amountOf_cons]
      change (l.book event _ _ _).balance a + _ = _
      rw [Ledger.book_balance]
      omega

def recorded (env : LedgerEnv) (t : Nat) (event : BtcP2trEvent) (l : Ledger) : Ledger :=
  runStmts (recordStmts env t event) l

/-- The effect of recording an event: it is withheld or booked. -/
structure Recorded (event : BtcP2trEvent) (l l' : Ledger) : Prop where
  pending : l'.pending = l.pending ++ (if event.isCoinbase then [event] else [])
  events : l'.events = l.events ++ (if event.isCoinbase then [] else [event.toRow])
  balance : ∀ a, l'.balance a =
    l.balance a + if event.isCoinbase then 0 else Ledger.amountOf [event] a

theorem recorded_spec (env : LedgerEnv) (t : Nat) (event : BtcP2trEvent) (l : Ledger) :
    Recorded event l (recorded env t event l) := by
  unfold recorded recordStmts
  cases hcb : event.isCoinbase with
  | true =>
      refine ⟨?_, ?_, fun a => ?_⟩
      · simp only [hcb, if_true]
        rfl
      · simp only [hcb, if_true, List.append_nil]
        rfl
      · simp only [hcb, if_true, Int.add_zero]
        rfl
  | false =>
      have hone : bookStmts env t event = bookAllStmts env t [event] := by
        rw [bookAllStmts, bookAllStmts, List.append_nil]
      simp only [Bool.false_eq_true, if_false, hone]
      refine ⟨?_, ?_, fun a => ?_⟩
      · simp only [bookAll_pending, hcb, Bool.false_eq_true, if_false, List.append_nil]
      · simp only [bookAll_events, hcb, Bool.false_eq_true, if_false, List.map_cons, List.map_nil]
      · simp only [bookAll_balance, hcb, Bool.false_eq_true, if_false]

theorem storeEvent_ok_iff {event : BtcP2trEvent} {w w' : World Ledger Empty} :
    storeEvent env event w = .ok () w' ↔
      (∀ k < (recordStmts env (w.clock + 1) event).length + 2,
        env.sqlFails (w.clock + k) = false) ∧
      w' = (w.later ((recordStmts env (w.clock + 1) event).length + 2)).publish
        (recorded env (w.clock + 1) event w.store) := by
  rw [storeEvent_eq]
  exact transact_plain_ok_iff

theorem storeEvent_recorded {event : BtcP2trEvent} {w w' : World Ledger Empty}
    (h : storeEvent env event w = .ok () w') : Recorded event w.store w'.store := by
  obtain ⟨_, rfl⟩ := storeEvent_ok_iff.mp h
  exact recorded_spec env (w.clock + 1) event w.store

theorem storeEvent_error {event : BtcP2trEvent} {w w' : World Ledger Empty} {e : AggregatorError}
    (h : storeEvent env event w = .error e w') : w'.store = w.store := by
  rw [storeEvent_eq] at h
  exact transact_error_store h

theorem bookPulled_ok_iff {events : List BtcP2trEvent} {w w' : World Ledger Empty} :
    bookPulled env events w = .ok () w' ↔
      (∀ k < 3 * events.length + 2, env.sqlFails (w.clock + k) = false) ∧
      w' = (w.later (3 * events.length + 2)).publish
        (runStmts (bookAllStmts env (w.clock + 1) events) w.store) := by
  rw [bookPulled_eq, ← bookAllStmts_length env (w.clock + 1) events]
  exact transact_plain_ok_iff

theorem bookPulled_error {events : List BtcP2trEvent} {w w' : World Ledger Empty}
    {e : AggregatorError} (h : bookPulled env events w = .error e w') : w'.store = w.store := by
  rw [bookPulled_eq] at h
  exact transact_error_store h

/-- The rows at or below the height have moved from the pending table to the booked events. -/
structure Swept (blockNum : Nat) (l l' : Ledger) : Prop where
  pending : l'.pending = l.pending.filter (fun e => decide (blockNum < e.blockNumber))
  events : ∃ es : List BtcP2trEvent, es.Perm (l.matured blockNum) ∧
    l'.events = l.events ++ es.map BtcP2trEvent.toRow
  balance : ∀ a, l'.balance a = l.balance a + Ledger.amountOf (l.matured blockNum) a

/-- Nothing to move, or no faulty tick between the deletion and the commit of the insertions:
one for opening the transaction, three for each row, one for the commit. -/
def SweepQuiet (env : LedgerEnv) (blockNum : Nat) (w : World Ledger Empty) : Prop :=
  w.store.matured blockNum = [] ∨
    ∀ k < 3 * (w.store.matured blockNum).length + 2, env.sqlFails (w.clock + 1 + k) = false

theorem swept_of_none {blockNum : Nat} {l : Ledger} (h : l.matured blockNum = []) :
    Swept blockNum l (l.withhold blockNum) where
  pending := rfl
  events := ⟨[], by rw [h], by simp⟩
  balance := fun a => by simp [h]

theorem swept_of_booked {blockNum now : Nat} {l : Ledger} {events : List BtcP2trEvent}
    (hperm : events.Perm (l.matured blockNum)) :
    Swept blockNum l (runStmts (bookAllStmts env now events) (l.withhold blockNum)) where
  pending := by
    rw [bookAll_pending]
    rfl
  events := ⟨events, hperm, by rw [bookAll_events, Ledger.withhold_events]⟩
  balance := fun a => by
    rw [bookAll_balance, Ledger.withhold_balance, Ledger.amountOf_perm hperm]

/-- The three ways a sweep can end. -/
theorem sweep_cases (env : LedgerEnv) (blockNum : Nat) (w : World Ledger Empty) :
    (env.sqlFails w.clock = true ∧ returned (sweep env blockNum w) = false ∧
        (final (sweep env blockNum w)).store = w.store) ∨
      (env.sqlFails w.clock = false ∧ SweepQuiet env blockNum w ∧
        returned (sweep env blockNum w) = true ∧
        Swept blockNum w.store (final (sweep env blockNum w)).store) ∨
      (env.sqlFails w.clock = false ∧ ¬ SweepQuiet env blockNum w ∧
        returned (sweep env blockNum w) = false ∧
        (final (sweep env blockNum w)).store = w.store.withhold blockNum) := by
  cases hpull : execute env.faults (pulled env w.clock blockNum) w with
  | error e w₁ =>
      obtain ⟨hfail, hstore⟩ := execute_error hpull
      have hsweep : sweep env blockNum w = .error e w₁ := bind_of_error hpull
      rw [hsweep]
      exact .inl ⟨hfail, rfl, hstore⟩
  | ok events w₁ =>
      obtain ⟨hok, hevents, rfl⟩ := execute_ok_iff.mp hpull
      have hperm : events.Perm (w.store.matured blockNum) :=
        hevents ▸ (env.pullOrder w.clock).perm _
      have hsweep : sweep env blockNum w =
          (if events.isEmpty then pure () else bookPulled env events)
            (w.tick.publish (w.store.withhold blockNum)) := bind_of_ok hpull
      cases hnone : events.isEmpty with
      | true =>
          have hnil : w.store.matured blockNum = [] := by
            rw [List.isEmpty_iff.mp hnone] at hperm
            exact hperm.nil_eq.symm
          rw [hsweep, hnone]
          exact .inr (.inl ⟨hok, .inl hnil, rfl, swept_of_none hnil⟩)
      | false =>
          have hsome : w.store.matured blockNum ≠ [] := by
            intro hnil
            rw [hnil] at hperm
            rw [hperm.eq_nil] at hnone
            cases hnone
          rw [hnone] at hsweep
          simp only [Bool.false_eq_true, if_false] at hsweep
          rw [hsweep]
          cases hbook : bookPulled env events (w.tick.publish (w.store.withhold blockNum)) with
          | ok a w₂ =>
              obtain ⟨hquiet, rfl⟩ := bookPulled_ok_iff.mp hbook
              rw [hperm.length_eq] at hquiet
              exact .inr (.inl ⟨hok, .inr hquiet, rfl, swept_of_booked hperm⟩)
          | error e w₂ =>
              refine .inr (.inr ⟨hok, ?_, rfl, bookPulled_error hbook⟩)
              rintro (hnil | hquiet)
              · exact hsome hnil
              · rw [← hperm.length_eq] at hquiet
                have hdone : bookPulled env events
                    (w.tick.publish (w.store.withhold blockNum)) = .ok () _ :=
                  bookPulled_ok_iff.mpr ⟨hquiet, rfl⟩
                rw [hdone] at hbook
                cases hbook

theorem final_lift {α : Type} (x : LedgerM α) (agg : Aggregator) :
    final (lift x agg) = { agg with world := final (x agg.world) } := by
  unfold lift
  cases x agg.world <;> rfl

theorem returned_lift {α : Type} (x : LedgerM α) (agg : Aggregator) :
    returned (lift x agg) = returned (x agg.world) := by
  unfold lift
  cases x agg.world <;> rfl

theorem lift_ok {α : Type} {x : LedgerM α} {agg : Aggregator} {a : α} {w : World Ledger Empty}
    (h : x agg.world = .ok a w) : lift x agg = .ok a { agg with world := w } := by
  simp only [lift, h]

theorem lift_error {α : Type} {x : LedgerM α} {agg : Aggregator} {e : AggregatorError}
    {w : World Ledger Empty} (h : x agg.world = .error e w) :
    lift x agg = .error e { agg with world := w } := by
  simp only [lift, h]

def stored (event : BtcP2trEvent) (w : World Ledger Empty) (agg : Aggregator) : Aggregator where
  world := w
  lastBlockNumber := max agg.lastBlockNumber event.blockNumber
  handled := agg.handled ++ [event]

/-- The event opens a new block that is high enough for a sweep. -/
def Sweeps (event : BtcP2trEvent) (agg : Aggregator) : Prop :=
  agg.lastBlockNumber < event.blockNumber ∧ 100 ≤ event.blockNumber

instance (event : BtcP2trEvent) (agg : Aggregator) : Decidable (Sweeps event agg) :=
  inferInstanceAs (Decidable (_ ∧ _))

theorem handleEvent_of_error {event : BtcP2trEvent} {agg : Aggregator} {e : AggregatorError}
    {w : World Ledger Empty} (h : storeEvent env event agg.world = .error e w) :
    handleEvent env event agg = .error e { agg with world := w } :=
  bind_of_error (lift_error h)

theorem handleEvent_of_stored {event : BtcP2trEvent} {agg : Aggregator} {w : World Ledger Empty}
    (h : storeEvent env event agg.world = .ok () w) :
    handleEvent env event agg =
      if Sweeps event agg then lift (sweep env (event.blockNumber - 100)) (stored event w agg)
      else .ok () (stored event w agg) := by
  have hstored : handleEvent env event agg =
      (if agg.lastBlockNumber < event.blockNumber then do
          setLastBlockNumber event.blockNumber
          commitPendingEvents env
        else pure ()) { agg with world := w, handled := agg.handled ++ [event] } :=
    bind_of_ok (lift_ok h)
  rw [hstored]
  by_cases hnew : agg.lastBlockNumber < event.blockNumber
  · have hmax : max agg.lastBlockNumber event.blockNumber = event.blockNumber := by omega
    rw [if_pos hnew]
    change (if event.blockNumber < 100 then pure ()
      else lift (sweep env (event.blockNumber - 100)) : AggregatorM Unit)
        ⟨w, event.blockNumber, agg.handled ++ [event]⟩ = _
    by_cases hlow : event.blockNumber < 100
    · rw [if_pos hlow, if_neg fun hs => absurd hs.2 (by omega)]
      simp only [stored, hmax]
      rfl
    · rw [if_neg hlow, if_pos ⟨hnew, by omega⟩]
      simp only [stored, hmax]
  · have hmax : max agg.lastBlockNumber event.blockNumber = agg.lastBlockNumber := by omega
    rw [if_neg hnew, if_neg fun hs => hnew hs.1]
    simp only [stored, hmax]
    rfl

/-- The effect of an event whose handling returns. -/
structure Handled (event : BtcP2trEvent) (agg agg' : Aggregator) : Prop where
  last : agg'.lastBlockNumber = max agg.lastBlockNumber event.blockNumber
  handled : agg'.handled = agg.handled ++ [event]
  tables : ∃ l, Recorded event agg.ledger l ∧
    ((¬ Sweeps event agg ∧ agg'.ledger = l) ∨
      (Sweeps event agg ∧ Swept (event.blockNumber - 100) l agg'.ledger))

theorem handleEvent_ok {event : BtcP2trEvent} {agg agg' : Aggregator}
    (h : handleEvent env event agg = .ok () agg') : Handled event agg agg' := by
  cases hrun : storeEvent env event agg.world with
  | error e w =>
      rw [handleEvent_of_error hrun] at h
      cases h
  | ok a w =>
      have hrecorded := storeEvent_recorded hrun
      rw [handleEvent_of_stored hrun] at h
      by_cases hs : Sweeps event agg
      · rw [if_pos hs] at h
        have hfinal := final_lift (sweep env (event.blockNumber - 100)) (stored event w agg)
        have hreturned := returned_lift (sweep env (event.blockNumber - 100)) (stored event w agg)
        rw [h] at hfinal hreturned
        rcases sweep_cases env (event.blockNumber - 100) w with
          ⟨_, hfail, _⟩ | ⟨_, _, _, hswept⟩ | ⟨_, _, hfail, _⟩
        · exact absurd (hreturned.trans hfail) (by simp [returned])
        · have hagg : agg' = { stored event w agg with
              world := final (sweep env (event.blockNumber - 100) w) } := hfinal
          refine ⟨by rw [hagg]; rfl, by rw [hagg]; rfl, w.store, hrecorded, .inr ⟨hs, ?_⟩⟩
          rw [hagg]
          exact hswept
        · exact absurd (hreturned.trans hfail) (by simp [returned])
      · rw [if_neg hs] at h
        cases h
        exact ⟨rfl, rfl, w.store, hrecorded, .inl ⟨hs, rfl⟩⟩

theorem handleEvent_quiet (hquiet : ∀ t, env.sqlFails t = false) (event : BtcP2trEvent)
    (agg : Aggregator) : ∃ agg', handleEvent env event agg = .ok () agg' := by
  have hstore : storeEvent env event agg.world = .ok () _ :=
    storeEvent_ok_iff.mpr ⟨fun k _ => hquiet _, rfl⟩
  rw [handleEvent_of_stored hstore]
  split
  · rcases sweep_cases env (event.blockNumber - 100) (stored event _ agg).world with
      ⟨hfail, _⟩ | ⟨_, _, hok, _⟩ | ⟨_, hnot, _⟩
    · rw [hquiet] at hfail
      cases hfail
    · exact ⟨_, lift_ok (eq_ok_of_returned hok)⟩
    · exact absurd (.inr fun k _ => hquiet _) hnot
  · exact ⟨_, rfl⟩

/-- The rows that a reorganisation reads, in the order the database returns them. -/
def sinceRows (env : LedgerEnv) (blockNumber : Nat) (agg : Aggregator) : List P2trEventRow :=
  (env.sinceOrder (agg.world.clock + 1)).order (agg.ledger.p2trEventsSinceBlock blockNumber)

theorem sinceRows_perm (env : LedgerEnv) (blockNumber : Nat) (agg : Aggregator) :
    (sinceRows env blockNumber agg).Perm (agg.ledger.p2trEventsSinceBlock blockNumber) :=
  (env.sinceOrder _).perm _

/-- The effect of a reorganisation whose handling returns: the rows read are booked once more
with the opposite sign, and the bound of the clean-up is the block of the last of them. -/
structure Reorged (env : LedgerEnv) (blockNumber : Nat) (agg agg' : Aggregator) : Prop where
  last : ∃ row, (sinceRows env blockNumber agg).getLast? = some row ∧
    agg'.lastBlockNumber = row.blockNumber
  handled : agg'.handled = agg.handled
  events : agg'.ledger.events = agg.ledger.events ++
    (sinceRows env blockNumber agg).map (fun r => r.toEvent.reorg.toRow)
  pending : agg'.ledger.pending =
    agg.ledger.pending.filter (fun e => decide (agg'.lastBlockNumber < e.blockNumber))
  balance : ∀ a, agg'.ledger.balance a = agg.ledger.balance a -
    Ledger.booked (agg.ledger.p2trEventsSinceBlock blockNumber) a

theorem query_ok {α : Type} {F : Faults AggregatorError} {q : Ledger → α} {db : Ledger}
    {w w' : World Ledger Empty} {a : α} (h : query F (fun l => .ok (q l)) db w = .ok a w') :
    a = q db ∧ w' = w.tick := by
  simp only [query] at h
  split at h
  · cases h
  · cases h
    exact ⟨rfl, rfl⟩

theorem storeReorg_ok {blockNumber number : Nat} {agg : Aggregator} {w : World Ledger Empty}
    (h : storeReorg env blockNumber agg.world = .ok number w) :
    ∃ row, (sinceRows env blockNumber agg).getLast? = some row ∧ number = row.blockNumber ∧
      ∃ now, w.store = (runStmts (bookAllStmts env now ((sinceRows env blockNumber agg).map
        fun r => r.toEvent.reorg)) agg.ledger).withhold row.blockNumber := by
  obtain ⟨db, w₁, hbegin, hrest⟩ := bind_eq_ok.mp h
  obtain ⟨rfl, rfl⟩ := begin_ok hbegin
  obtain ⟨rows, w₂, hquery, hrest⟩ := bind_eq_ok.mp hrest
  obtain ⟨hrows, rfl⟩ := query_ok hquery
  have hrows : rows = sinceRows env blockNumber agg := hrows
  cases hlast : rows.getLast? with
  | none => rw [hlast] at hrest; cases hrest
  | some row =>
      rw [hlast] at hrest
      obtain ⟨db₁, w₃, hbook, hrest⟩ := bind_eq_ok.mp hrest
      rw [bookEvents_eq] at hbook
      obtain ⟨_, hdb, _⟩ := run_plain_ok_iff.mp hbook
      obtain ⟨pull, w₄, hpull, hrest⟩ := bind_eq_ok.mp hrest
      obtain ⟨hpull, _⟩ := query_ok hpull
      obtain ⟨_, w₅, hcommit, hpure⟩ := bind_eq_ok.mp hrest
      cases hpure
      refine ⟨row, hrows ▸ hlast, rfl, agg.world.tick.tick.clock, ?_⟩
      rw [(commit_ok hcommit).1, hpull, hdb, hrows]
      rfl

theorem handleReorg_stored {blockNumber : Nat} {agg agg' : Aggregator}
    (h : handleReorg env blockNumber agg = .ok () agg') :
    ∃ number w, storeReorg env blockNumber agg.world = .ok number w ∧
      agg' = { agg with world := w, lastBlockNumber := number } := by
  obtain ⟨last, mid, hlift, hset⟩ := bind_eq_ok.mp h
  cases hset
  cases hrun : storeReorg env blockNumber agg.world with
  | error e w => rw [lift_error hrun] at hlift; cases hlift
  | ok number w =>
      rw [lift_ok hrun] at hlift
      cases hlift
      exact ⟨last, w, rfl, rfl⟩

/-- The tables after a reorganisation: inverse entries are booked, withheld rows dropped. -/
theorem handleReorg_store {blockNumber : Nat} {agg agg' : Aggregator}
    (h : handleReorg env blockNumber agg = .ok () agg') :
    ∃ now row, agg'.ledger = (runStmts (bookAllStmts env now ((sinceRows env blockNumber agg).map
      fun r => r.toEvent.reorg)) agg.ledger).withhold row := by
  obtain ⟨number, w, hrun, rfl⟩ := handleReorg_stored h
  obtain ⟨row, _, _, now, hstore⟩ := storeReorg_ok hrun
  exact ⟨now, row.blockNumber, hstore⟩

theorem handleReorg_ok {blockNumber : Nat} {agg agg' : Aggregator}
    (h : handleReorg env blockNumber agg = .ok () agg') : Reorged env blockNumber agg agg' := by
  obtain ⟨number, w, hrun, rfl⟩ := handleReorg_stored h
  obtain ⟨row, hlast, rfl, now, hstore⟩ := storeReorg_ok hrun
  refine ⟨⟨row, hlast, rfl⟩, rfl, ?_, ?_, ?_⟩
  · change w.store.events = _
    rw [hstore, Ledger.withhold_events, bookAll_events, List.map_map]
    rfl
  · change w.store.pending = _
    rw [hstore]
    change (runStmts _ _).pending.filter _ = _
    rw [bookAll_pending]
  · intro a
    change w.store.balance a = _
    rw [hstore, Ledger.withhold_balance, bookAll_balance, Ledger.amountOf_reorg,
      Ledger.booked_perm (sinceRows_perm env blockNumber agg)]
    rfl

theorem bookEvents_private (events : List BtcP2trEvent) (db l : Ledger) :
    Triple (fun w => w.store = l) (bookEvents env events db) (fun _ w => w.store = l)
      (fun w => w.store = l) := by
  intro w hw
  rw [bookEvents_eq]
  cases hrun : run env.faults (plain (bookAllStmts env w.clock events)) db w with
  | ok db' w' => exact (run_ok hrun).2.1.trans hw
  | error e w' =>
      obtain ⟨_, _, _, _, _, _, _, _, hstore, _⟩ := run_error hrun
      exact hstore.trans hw

theorem storeReorg_private (env : LedgerEnv) (blockNumber : Nat) (l : Ledger) :
    Triple (fun w => w.store = l) (storeReorg env blockNumber) (fun _ _ => True)
      (fun w => w.store = l) := by
  refine Triple.bind (fun w hw => query_private env.faults .ok w.store l w hw) fun db => ?_
  refine Triple.bind (fun w hw => query_private env.faults _ db l w hw) fun rows => ?_
  cases rows.getLast? with
  | none => exact Triple.throw fun _ hw => hw
  | some last =>
      refine Triple.bind (bookEvents_private _ db l) fun db => ?_
      refine Triple.bind (fun w hw => query_private env.faults _ db l w hw) fun pull => ?_
      exact Triple.bind (commit_private env.faults pull.2 l) fun _ => Triple.pure fun _ _ => trivial

theorem handleReorg_error {blockNumber : Nat} {agg agg' : Aggregator} {e : AggregatorError}
    (h : handleReorg env blockNumber agg = .error e agg') :
    agg'.ledger = agg.ledger ∧ agg'.handled = agg.handled := by
  rcases bind_eq_error.mp h with hlift | ⟨_, _, _, hset⟩
  · cases hrun : storeReorg env blockNumber agg.world with
    | ok number w => rw [lift_ok hrun] at hlift; cases hlift
    | error e w =>
        rw [lift_error hrun] at hlift
        cases hlift
        have hkept := storeReorg_private env blockNumber agg.world.store agg.world rfl
        rw [hrun] at hkept
        exact ⟨hkept, rfl⟩
  · cases hset

theorem query_of_quiet (hquiet : ∀ t, env.sqlFails t = false) {α : Type} (q : Ledger → α)
    (db : Ledger) (w : World Ledger Empty) :
    query env.faults (fun l => .ok (q l)) db w = .ok (q db) w.tick := by
  simp only [query, LedgerEnv.faults, hquiet, Bool.false_eq_true, if_false]

theorem begin_of_quiet (hquiet : ∀ t, env.sqlFails t = false) (w : World Ledger Empty) :
    begin env.faults w = .ok w.store w.tick := query_of_quiet hquiet id _ _

/-- Without a row to take back, the handler panics. -/
theorem handleReorg_panics (hquiet : ∀ t, env.sqlFails t = false) {blockNumber : Nat}
    {agg : Aggregator} (h : agg.ledger.p2trEventsSinceBlock blockNumber = []) :
    ∃ agg', handleReorg env blockNumber agg =
      .error (.panic "called `Option::unwrap()` on a `None` value") agg' := by
  have hnone : (env.sinceOrder agg.world.tick.clock).order
      (agg.world.store.p2trEventsSinceBlock blockNumber) = [] := by
    have hperm := sinceRows_perm env blockNumber agg
    rw [h] at hperm
    exact hperm.eq_nil
  have hstore : ∃ w, storeReorg env blockNumber agg.world =
      .error (.panic "called `Option::unwrap()` on a `None` value") w := by
    apply bind_raises (begin_of_quiet hquiet _)
    apply bind_raises (query_of_quiet hquiet _ _ _)
    rw [hnone]
    exact ⟨_, rfl⟩
  obtain ⟨w, hstore⟩ := hstore
  exact ⟨_, bind_of_error (lift_error hstore)⟩

theorem handleReorg_quiet_iff (hquiet : ∀ t, env.sqlFails t = false) (blockNumber : Nat)
    (agg : Aggregator) : (∃ agg', handleReorg env blockNumber agg = .ok () agg') ↔
      agg.ledger.p2trEventsSinceBlock blockNumber ≠ [] := by
  constructor
  · rintro ⟨agg', h⟩ hnone
    obtain ⟨agg'', hpanic⟩ := handleReorg_panics hquiet hnone
    rw [h] at hpanic
    cases hpanic
  · intro hsome
    have hne : sinceRows env blockNumber agg ≠ [] := fun hnil =>
      hsome (hnil ▸ sinceRows_perm env blockNumber agg).nil_eq.symm
    have hbook : ∃ db w, bookEvents env
        ((sinceRows env blockNumber agg).map (fun r => r.toEvent.reorg)) agg.ledger
        agg.world.tick.tick = .ok db w := by
      rw [bookEvents_eq]
      exact ⟨_, _, run_plain_ok_iff.mpr ⟨fun k _ => hquiet _, rfl, rfl⟩⟩
    obtain ⟨db, w, hbook⟩ := hbook
    have hstore : ∃ number w, storeReorg env blockNumber agg.world = .ok number w := by
      apply bind_returns (begin_of_quiet hquiet _)
      apply bind_returns (query_of_quiet hquiet _ _ _)
      have hlast : ((env.sinceOrder agg.world.tick.clock).order
          (agg.ledger.p2trEventsSinceBlock blockNumber)).getLast? = some _ :=
        List.getLast?_eq_some_getLast hne
      rw [hlast]
      apply bind_returns hbook
      apply bind_returns (query_of_quiet hquiet _ _ _)
      exact bind_returns (commit_quiet ⟨hquiet, fun _ => rfl⟩ _ _) ⟨_, _, rfl⟩
    obtain ⟨number, w, hstore⟩ := hstore
    exact ⟨_, (bind_of_ok (lift_ok hstore)).trans rfl⟩

end Aggregator

end BtcIndexer
