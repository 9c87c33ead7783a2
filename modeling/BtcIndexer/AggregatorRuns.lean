import BtcIndexer.AggregatorEffect

/-! Runs of the aggregator, over messages, failures and restarts in any order. A failed handler
ends the process or, if it is not a panic, is passed over during the drain after a shutdown;
both are runs here. -/
namespace BtcIndexer
open Stateful Outbox Rows

/-- What the aggregator goes through: a message, whether its handling returns or not, or the
start of a new process on the tables left behind. -/
inductive Deed where
  | handle (msg : AggregatorMsg)
  | restart
  deriving DecidableEq, Repr

namespace Aggregator

def step (env : LedgerEnv) (agg : Aggregator) : Deed → Aggregator
  | .handle msg => final (handle env msg agg)
  | .restart => { agg with lastBlockNumber := 0 }

def run (env : LedgerEnv) (deeds : List Deed) (agg : Aggregator) : Aggregator :=
  deeds.foldl (step env) agg

theorem start_eq_forM (env : LedgerEnv) (msgs : List AggregatorMsg) :
    start env msgs = forM msgs (handle env) := by
  induction msgs with
  | nil => rfl
  | cons msg rest ih => rw [start, ih, List.forM_cons]

theorem cleanup_eq_forM (env : LedgerEnv) (msgs : List AggregatorMsg) :
    cleanup env msgs =
      forM msgs fun msg => retrying AggregatorError.ignorable (handle env msg) := by
  induction msgs with
  | nil => rfl
  | cons msg rest ih => rw [cleanup, ih, List.forM_cons]

theorem start_snoc {env : LedgerEnv} {msgs : List AggregatorMsg} {agg agg₁ : Aggregator}
    (h : start env msgs agg = .ok () agg₁) (msg : AggregatorMsg) :
    start env (msgs ++ [msg]) agg = handle env msg agg₁ := by
  rw [start_eq_forM] at h ⊢
  exact forM_snoc h msg

theorem cleanup_snoc {env : LedgerEnv} {msgs : List AggregatorMsg} {agg agg₁ : Aggregator}
    (h : cleanup env msgs agg = .ok () agg₁) (msg : AggregatorMsg) :
    cleanup env (msgs ++ [msg]) agg =
      retrying AggregatorError.ignorable (handle env msg) agg₁ := by
  rw [cleanup_eq_forM] at h ⊢
  exact forM_snoc h msg

/-- The event opened a sweep, and the deletion of the matured rows went through. -/
def Pulls (env : LedgerEnv) (event : BtcP2trEvent) (agg : Aggregator)
    (w : World Ledger Empty) : Prop := Sweeps event agg ∧ env.sqlFails w.clock = false

/-- The four ways an event can leave the aggregator: not recorded; recorded, without a sweep;
recorded, with the matured rows booked; recorded, with the matured rows gone. -/
theorem handleEvent_cases (env : LedgerEnv) (event : BtcP2trEvent) (agg : Aggregator) :
    ((∃ e w, storeEvent env event agg.world = .error e w) ∧
        (final (handleEvent env event agg)).ledger = agg.ledger ∧
        (final (handleEvent env event agg)).handled = agg.handled) ∨
      ∃ w, storeEvent env event agg.world = .ok () w ∧
        (final (handleEvent env event agg)).handled = agg.handled ++ [event] ∧
        ((¬ Pulls env event agg w ∧ (final (handleEvent env event agg)).ledger = w.store) ∨
          (Pulls env event agg w ∧ SweepQuiet env (event.blockNumber - 100) w ∧
            Swept (event.blockNumber - 100) w.store (final (handleEvent env event agg)).ledger) ∨
          (Pulls env event agg w ∧ ¬ SweepQuiet env (event.blockNumber - 100) w ∧
            (final (handleEvent env event agg)).ledger =
              w.store.withhold (event.blockNumber - 100))) := by
  cases hrun : storeEvent env event agg.world with
  | error e w =>
      refine .inl ⟨⟨e, w, rfl⟩, ?_⟩
      rw [handleEvent_of_error hrun]
      exact ⟨storeEvent_error hrun, rfl⟩
  | ok a w =>
      refine .inr ⟨w, rfl, ?_⟩
      rw [handleEvent_of_stored hrun]
      by_cases hs : Sweeps event agg
      · rw [if_pos hs, final_lift]
        refine ⟨rfl, ?_⟩
        rcases sweep_cases env (event.blockNumber - 100) w with
          ⟨hfail, _, hstore⟩ | ⟨hok, hquiet, _, hswept⟩ | ⟨hok, hnot, _, hstore⟩
        · refine .inl ⟨fun hp => ?_, hstore⟩
          rw [hp.2] at hfail
          cases hfail
        · exact .inr (.inl ⟨⟨hs, hok⟩, hquiet, hswept⟩)
        · exact .inr (.inr ⟨⟨hs, hok⟩, hnot, hstore⟩)
      · rw [if_neg hs]
        exact ⟨rfl, .inl ⟨fun hp => hs hp.1, rfl⟩⟩

/-- Withholding an event, dropping withheld rows and booking an event keep the property. -/
structure Closed (I : Ledger → Prop) : Prop where
  park : ∀ l event, I l → I (l.createPendingP2trEvent event)
  withhold : ∀ l blockNum, I l → I (l.withhold blockNum)
  book : ∀ l event now hour now', I l → I (l.book event now hour now')

namespace Closed

variable {I : Ledger → Prop}

theorem bookAll (hI : Closed I) (env : LedgerEnv) (t : Nat) (events : List BtcP2trEvent)
    {l : Ledger} (h : I l) : I (runStmts (bookAllStmts env t events) l) := by
  induction events generalizing t l with
  | nil => exact h
  | cons event rest ih =>
      rw [bookAllStmts, runStmts, List.foldl_append]
      exact ih (t + 3) (hI.book l event _ _ _ h)

theorem recorded (hI : Closed I) (env : LedgerEnv) (t : Nat) (event : BtcP2trEvent)
    {l : Ledger} (h : I l) : I (recorded env t event l) := by
  unfold Aggregator.recorded recordStmts
  cases event.isCoinbase with
  | true => exact hI.park l event h
  | false => exact hI.book l event _ _ _ h

theorem storeEvent (hI : Closed I) (env : LedgerEnv) (event : BtcP2trEvent) :
    Triple (fun w => I w.store) (storeEvent env event) (fun _ w => I w.store)
      (fun w => I w.store) := by
  intro w hw
  cases hrun : Aggregator.storeEvent env event w with
  | ok a w' =>
      obtain ⟨_, rfl⟩ := storeEvent_ok_iff.mp hrun
      exact hI.recorded env (w.clock + 1) event hw
  | error e w' =>
      change I w'.store
      rw [storeEvent_error hrun]
      exact hw

theorem bookPulled (hI : Closed I) (env : LedgerEnv) (events : List BtcP2trEvent) :
    Triple (fun w => I w.store) (bookPulled env events) (fun _ w => I w.store)
      (fun w => I w.store) := by
  intro w hw
  cases hbook : Aggregator.bookPulled env events w with
  | ok a w' =>
      obtain ⟨_, rfl⟩ := bookPulled_ok_iff.mp hbook
      exact hI.bookAll env (w.clock + 1) events hw
  | error e w' =>
      change I w'.store
      rw [bookPulled_error hbook]
      exact hw

/-- Both commits of a sweep keep the property, the one of the deletion and that of the rows. -/
theorem sweep (hI : Closed I) (env : LedgerEnv) (blockNum : Nat) :
    Triple (fun w => I w.store) (sweep env blockNum) (fun _ w => I w.store)
      (fun w => I w.store) := by
  have hdelete : Triple (fun w : World Ledger Empty => I w.store)
      (fun w => execute env.faults (pulled env w.clock blockNum) w) (fun _ w => I w.store)
      (fun w => I w.store) := by
    intro w hw
    beta_reduce
    cases hpull : execute env.faults (pulled env w.clock blockNum) w with
    | ok events w' =>
        obtain ⟨_, _, rfl⟩ := execute_ok_iff.mp hpull
        exact hI.withhold w.store blockNum hw
    | error e w' =>
        change I w'.store
        rw [(execute_error hpull).2]
        exact hw
  refine Triple.bind hdelete fun events => ?_
  split
  · exact Triple.pure fun _ hw => hw
  · exact hI.bookPulled env events

theorem handleEvent (hI : Closed I) (env : LedgerEnv) (event : BtcP2trEvent)
    {agg : Aggregator} (h : I agg.ledger) : I (final (handleEvent env event agg)).ledger := by
  have hstore := hI.storeEvent env event agg.world h
  cases hrun : Aggregator.storeEvent env event agg.world with
  | error e w =>
      rw [hrun] at hstore
      rw [handleEvent_of_error hrun]
      exact hstore
  | ok a w =>
      rw [hrun] at hstore
      rw [handleEvent_of_stored hrun]
      split
      · rw [final_lift]
        exact (hI.sweep env _).final hstore
      · exact hstore

theorem handleReorg (hI : Closed I) (env : LedgerEnv) (blockNumber : Nat)
    {agg : Aggregator} (h : I agg.ledger) : I (final (handleReorg env blockNumber agg)).ledger := by
  cases hrun : Aggregator.handleReorg env blockNumber agg with
  | error e agg' =>
      rw [final_error, (handleReorg_error hrun).1]
      exact h
  | ok a agg' =>
      obtain ⟨now, row, hstore⟩ := handleReorg_store hrun
      rw [final_ok, hstore]
      exact hI.withhold _ _ (hI.bookAll env now _ h)

theorem step (hI : Closed I) (env : LedgerEnv) (deed : Deed) {agg : Aggregator}
    (h : I agg.ledger) : I (step env agg deed).ledger := by
  cases deed with
  | restart => exact h
  | handle msg =>
      cases msg with
      | event event => exact hI.handleEvent env event h
      | reorg blockNumber => exact hI.handleReorg env blockNumber h

theorem run (hI : Closed I) (env : LedgerEnv) (deeds : List Deed) {agg : Aggregator}
    (h : I agg.ledger) : I (run env deeds agg).ledger := by
  induction deeds generalizing agg with
  | nil => exact h
  | cons deed rest ih => exact ih (hI.step env deed h)

end Closed

def Balanced (l : Ledger) : Prop := ∀ a, l.balance a = Ledger.booked l.events a

theorem balanced_empty : Balanced Ledger.empty := fun _ => rfl

theorem balanced_closed : Closed Balanced where
  park := fun _ _ h => h
  withhold := fun _ _ h => h
  book := by
    intro l event now hour now' h a
    rw [Ledger.book_balance, Ledger.book_events, Ledger.booked_append, h a]
    exact congrArg _ (Ledger.booked_single event a).symm

theorem Balanced.recorded {event : BtcP2trEvent} {l l' : Ledger} (h : Balanced l)
    (hr : Recorded event l l') : Balanced l' := by
  intro a
  rw [hr.balance, hr.events, Ledger.booked_append, h a]
  cases event.isCoinbase with
  | true => simp [Ledger.booked]
  | false =>
      simp only [Bool.false_eq_true, if_false]
      rw [← Ledger.booked_toRow]
      rfl

theorem Balanced.swept {blockNum : Nat} {l l' : Ledger} (h : Balanced l)
    (hs : Swept blockNum l l') : Balanced l' := by
  intro a
  obtain ⟨es, hperm, hevents⟩ := hs.events
  rw [hs.balance, hevents, Ledger.booked_append, Ledger.booked_toRow, h a,
    Ledger.amountOf_perm hperm]

end Aggregator

end BtcIndexer
