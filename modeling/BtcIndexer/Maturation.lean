import BtcIndexer.AggregatorRuns
import BtcIndexer.LedgerReorg

/-! Maturation of coinbase events under failures. A sweep deletes the matured rows on the pool,
where the deletion commits by itself, and books them in a transaction of its own afterwards.
The events are accounted for exactly in the runs in which nothing fails in between. -/
namespace BtcIndexer
open Stateful Outbox Rows

/-- Where the handled events are: a coinbase event is withheld, matured or lost, and the booked
events are the others and the matured ones. -/
structure Placed (handled matured lost : List BtcP2trEvent) (l : Ledger) : Prop where
  coinbase : (handled.filter (fun e => e.isCoinbase)).Perm (l.pending ++ matured ++ lost)
  events : l.events.Perm
    ((handled.filter (fun e => !e.isCoinbase) ++ matured).map BtcP2trEvent.toRow)
  balance : Aggregator.Balanced l

/-- Every handled coinbase event is either withheld or booked, and the balances are what is
booked. -/
def Conserved (handled : List BtcP2trEvent) (l : Ledger) : Prop :=
  ∃ matured, Placed handled matured [] l

namespace Placed

variable {handled matured lost : List BtcP2trEvent} {l l' : Ledger}

theorem empty : Placed [] [] [] Ledger.empty :=
  ⟨List.Perm.refl _, List.Perm.refl _, Aggregator.balanced_empty⟩

/-- The accounts say how many events are lost, so they balance only without losses. -/
theorem conserved_iff (h : Placed handled matured lost l) : Conserved handled l ↔ lost = [] := by
  constructor
  · rintro ⟨matured', h'⟩
    have hevents := h.events.length_eq.symm.trans h'.events.length_eq
    have hcoinbase := h.coinbase.length_eq.symm.trans h'.coinbase.length_eq
    simp only [List.length_map, List.length_append, List.length_nil] at hevents hcoinbase
    exact List.eq_nil_of_length_eq_zero (by omega)
  · rintro rfl
    exact ⟨matured, h⟩

theorem recorded (h : Placed handled matured lost l) {event : BtcP2trEvent}
    (hr : Aggregator.Recorded event l l') : Placed (handled ++ [event]) matured lost l' where
  coinbase := by
    rw [List.filter_append, hr.pending]
    cases hcb : event.isCoinbase with
    | true =>
        simp only [hcb, List.filter_cons_of_pos, List.filter_nil, if_true]
        have hmoved := (h.coinbase.append_right [event])
        refine hmoved.trans ?_
        simp only [List.append_assoc]
        refine List.Perm.append_left _ ?_
        rw [← List.append_assoc]
        exact List.perm_append_comm
    | false =>
        simpa [hcb] using h.coinbase
  events := by
    rw [List.filter_append, hr.events]
    cases hcb : event.isCoinbase with
    | true => simpa [hcb] using h.events
    | false =>
        have hmoved := h.events.append_right [event.toRow]
        simp only [hcb, Bool.false_eq_true, if_false, Bool.not_false, List.filter_cons_of_pos,
          List.filter_nil]
        refine hmoved.trans ?_
        simp only [List.map_append, List.map_cons, List.map_nil, List.append_assoc]
        exact List.Perm.append_left _ List.perm_append_comm
  balance := h.balance.recorded hr

theorem swept (h : Placed handled matured lost l) {n : Nat} (hs : Aggregator.Swept n l l') :
    ∃ matured', Placed handled matured' lost l' := by
  obtain ⟨es, hperm, hevents⟩ := hs.events
  refine ⟨matured ++ es, ?_, ?_, h.balance.swept hs⟩
  · rw [hs.pending]
    refine h.coinbase.trans (List.Perm.append_right lost ?_)
    refine ((l.pending_split n).append_right matured).trans ?_
    rw [List.append_assoc]
    refine List.Perm.append_left _ ?_
    exact List.perm_append_comm.trans (hperm.symm.append_left matured)
  · rw [hevents]
    refine (h.events.append_right _).trans ?_
    simp only [List.map_append, List.append_assoc]
    exact List.Perm.refl _

theorem withheld (h : Placed handled matured lost l) (n : Nat) :
    Placed handled matured (lost ++ l.matured n) (l.withhold n) where
  coinbase := by
    refine h.coinbase.trans ?_
    change (l.pending ++ matured ++ lost).Perm
      (l.pending.filter (fun e => decide (n < e.blockNumber)) ++ matured ++ (lost ++ l.matured n))
    refine (((l.pending_split n).append_right matured).append_right lost).trans ?_
    simp only [List.append_assoc]
    refine List.Perm.append_left _ ?_
    refine List.perm_append_comm.trans ?_
    rw [List.append_assoc]
  events := h.events
  balance := h.balance

end Placed

namespace Aggregator

/-- The awaited calls of the transaction of an event: its opening, the statements, its commit. -/
def ownCalls (event : BtcP2trEvent) : Nat := if event.isCoinbase then 3 else 5

/-- The transaction of the event commits and opens a sweep whose deletion removes rows, and one
of the calls up to the commit of the insertions fails or never comes back. These are the
opening of the second transaction, three statements for each row, and the commit. -/
structure Interrupted (env : LedgerEnv) (event : BtcP2trEvent) (agg : Aggregator) : Prop where
  commits : ∀ k < ownCalls event, env.sqlFails (agg.world.clock + k) = false
  sweeps : Sweeps event agg
  deletes : env.sqlFails (agg.world.clock + ownCalls event) = false
  rows : agg.ledger.matured (event.blockNumber - 100) ≠ []
  fails : ∃ k < 3 * (agg.ledger.matured (event.blockNumber - 100)).length + 2,
    env.sqlFails (agg.world.clock + ownCalls event + 1 + k) = true

instance (env : LedgerEnv) (event : BtcP2trEvent) (agg : Aggregator) :
    Decidable (Interrupted env event agg) :=
  decidable_of_iff ((∀ k < ownCalls event, env.sqlFails (agg.world.clock + k) = false) ∧
      Sweeps event agg ∧ env.sqlFails (agg.world.clock + ownCalls event) = false ∧
      agg.ledger.matured (event.blockNumber - 100) ≠ [] ∧
      ∃ k < 3 * (agg.ledger.matured (event.blockNumber - 100)).length + 2,
        env.sqlFails (agg.world.clock + ownCalls event + 1 + k) = true)
    ⟨fun ⟨hcommits, hsweeps, hdeletes, hrows, hfails⟩ =>
      ⟨hcommits, hsweeps, hdeletes, hrows, hfails⟩,
    fun h => ⟨h.commits, h.sweeps, h.deletes, h.rows, h.fails⟩⟩

/-- The rows that are gone with an interrupted sweep. -/
def lostOf (env : LedgerEnv) (event : BtcP2trEvent) (agg : Aggregator) : List BtcP2trEvent :=
  if Interrupted env event agg then agg.ledger.matured (event.blockNumber - 100) else []

theorem lostOf_eq_nil_iff {env : LedgerEnv} {event : BtcP2trEvent} {agg : Aggregator} :
    lostOf env event agg = [] ↔ ¬ Interrupted env event agg := by
  unfold lostOf
  split
  · next h => exact iff_of_false h.rows fun hno => hno h
  · next h => exact iff_of_true rfl h

theorem lostOf_quiet {env : LedgerEnv} (hquiet : ∀ t, env.sqlFails t = false)
    (event : BtcP2trEvent) (agg : Aggregator) : lostOf env event agg = [] := by
  refine lostOf_eq_nil_iff.mpr fun h => ?_
  obtain ⟨k, _, hfail⟩ := h.fails
  rw [hquiet] at hfail
  cases hfail

def ReorgFree (deeds : List Deed) : Prop := ∀ n, Deed.handle (.reorg n) ∉ deeds

/-- No sweep of the run is interrupted between its deletion and the commit of its insertions. -/
def Uninterrupted (env : LedgerEnv) (agg : Aggregator) : List Deed → Prop
  | [] => True
  | .handle (.event event) :: rest =>
      ¬ Interrupted env event agg ∧
        Uninterrupted env (step env agg (.handle (.event event))) rest
  | deed :: rest => Uninterrupted env (step env agg deed) rest

theorem recordStmts_length (env : LedgerEnv) (t : Nat) (event : BtcP2trEvent) :
    (recordStmts env t event).length + 2 = ownCalls event := by
  unfold recordStmts ownCalls
  cases event.isCoinbase <;> rfl

theorem Recorded.matured {event : BtcP2trEvent} {l l' : Ledger} (h : Recorded event l l')
    (hhigh : 100 ≤ event.blockNumber) :
    l'.matured (event.blockNumber - 100) = l.matured (event.blockNumber - 100) := by
  have hnot : ¬ event.blockNumber ≤ event.blockNumber - 100 := by omega
  unfold Ledger.matured
  rw [h.pending, List.filter_append]
  cases event.isCoinbase <;> simp [hnot]

theorem not_sweepQuiet_iff {env : LedgerEnv} {n : Nat} {w : World Ledger Empty} :
    ¬ SweepQuiet env n w ↔ w.store.matured n ≠ [] ∧
      ∃ k < 3 * (w.store.matured n).length + 2, env.sqlFails (w.clock + 1 + k) = true := by
  simp [SweepQuiet]

theorem interrupted_iff {env : LedgerEnv} {event : BtcP2trEvent} {agg : Aggregator} :
    Interrupted env event agg ↔ ∃ w, storeEvent env event agg.world = .ok () w ∧
      Pulls env event agg w ∧ ¬ SweepQuiet env (event.blockNumber - 100) w := by
  have hlength := recordStmts_length env (agg.world.clock + 1) event
  constructor
  · intro h
    have hstored : storeEvent env event agg.world = .ok () _ :=
      storeEvent_ok_iff.mpr ⟨by rw [hlength]; exact h.commits, rfl⟩
    have hmatured := (storeEvent_recorded hstored).matured h.sweeps.2
    refine ⟨_, hstored, ⟨h.sweeps, ?_⟩, not_sweepQuiet_iff.mpr ?_⟩
    · rw [World.publish_clock, World.later_clock, hlength]
      exact h.deletes
    · rw [hmatured, World.publish_clock, World.later_clock, hlength]
      exact ⟨h.rows, h.fails⟩
  · rintro ⟨w, hstored, hpulls, hnot⟩
    have hmatured := (storeEvent_recorded hstored).matured hpulls.1.2
    obtain ⟨hcommits, hw⟩ := storeEvent_ok_iff.mp hstored
    obtain ⟨hrows, hfails⟩ := not_sweepQuiet_iff.mp hnot
    have hclock : w.clock = agg.world.clock + ownCalls event := by
      rw [hw, World.publish_clock, World.later_clock, hlength]
    rw [hmatured] at hrows hfails
    rw [hclock] at hfails
    rw [hlength] at hcommits
    exact ⟨hcommits, hpulls.1, hclock ▸ hpulls.2, hrows, hfails⟩

theorem placed_event (env : LedgerEnv) (event : BtcP2trEvent) {agg : Aggregator}
    {matured lost : List BtcP2trEvent} (h : Placed agg.handled matured lost agg.ledger) :
    ∃ matured', Placed (final (handleEvent env event agg)).handled matured'
      (lost ++ lostOf env event agg) (final (handleEvent env event agg)).ledger := by
  have hnone : ¬ Interrupted env event agg → lost ++ lostOf env event agg = lost := fun hno => by
    rw [lostOf_eq_nil_iff.mpr hno, List.append_nil]
  rw [interrupted_iff] at hnone
  rcases handleEvent_cases env event agg with
    ⟨⟨e, w, hfail⟩, hledger, hhandled⟩ | ⟨w, hstored, hhandled, hcases⟩
  · refine ⟨matured, ?_⟩
    rw [hledger, hhandled, hnone]
    · exact h
    · rintro ⟨w', hok, _⟩
      rw [hfail] at hok
      cases hok
  · have hrecorded := h.recorded (storeEvent_recorded hstored)
    rw [hhandled]
    rcases hcases with ⟨hno, hl⟩ | ⟨hpulls, hquiet, hswept⟩ | ⟨hpulls, hnot, hl⟩
    · refine ⟨matured, ?_⟩
      rw [hl, hnone]
      · exact hrecorded
      · rintro ⟨w', hok, hpulls, _⟩
        cases hstored.symm.trans hok
        exact hno hpulls
    · obtain ⟨matured', hplaced⟩ := hrecorded.swept hswept
      refine ⟨matured', ?_⟩
      rw [hnone]
      · exact hplaced
      · rintro ⟨w', hok, _, hnot⟩
        cases hstored.symm.trans hok
        exact hnot hquiet
    · refine ⟨matured, ?_⟩
      have hinterrupted := interrupted_iff.mpr ⟨w, hstored, hpulls, hnot⟩
      have hmatured := (storeEvent_recorded hstored).matured hpulls.1.2
      rw [hl, lostOf, if_pos hinterrupted, ← show _ = agg.ledger.matured _ from hmatured]
      exact hrecorded.withheld _

theorem placed_run (env : LedgerEnv) {deeds : List Deed} (agg : Aggregator)
    {matured lost : List BtcP2trEvent} (hfree : ReorgFree deeds)
    (h : Placed agg.handled matured lost agg.ledger) :
    ∃ matured' lost', Placed (run env deeds agg).handled matured' (lost ++ lost')
        (run env deeds agg).ledger ∧ (lost' = [] ↔ Uninterrupted env agg deeds) := by
  induction deeds generalizing agg matured lost with
  | nil => exact ⟨matured, [], by rw [List.append_nil]; exact h, iff_of_true rfl trivial⟩
  | cons deed rest ih =>
      have hrest : ReorgFree rest := fun n hn => hfree n (List.mem_cons_of_mem deed hn)
      cases deed with
      | restart => exact ih (step env agg .restart) hrest h
      | handle msg =>
          cases msg with
          | reorg n => exact absurd List.mem_cons_self (hfree n)
          | event event =>
              obtain ⟨matured₁, h₁⟩ := placed_event env event h
              obtain ⟨matured₂, lost₂, h₂, hiff₂⟩ :=
                ih (step env agg (.handle (.event event))) hrest h₁
              refine ⟨matured₂, lostOf env event agg ++ lost₂,
                by rw [← List.append_assoc]; exact h₂, ?_⟩
              rw [List.append_eq_nil_iff, lostOf_eq_nil_iff, hiff₂]
              rfl

/-- In every run without reorganisations from empty tables, over any events, failures, stops
and restarts, the coinbase events are accounted for exactly if no sweep is interrupted. -/
theorem conserved_iff_uninterrupted (env : LedgerEnv) (deeds : List Deed) (clock : Nat)
    (hfree : ReorgFree deeds) :
    Conserved (run env deeds (new ⟨Ledger.empty, [], clock⟩)).handled
        (run env deeds (new ⟨Ledger.empty, [], clock⟩)).ledger ↔
      Uninterrupted env (new ⟨Ledger.empty, [], clock⟩) deeds := by
  obtain ⟨matured, lost, hplaced, hiff⟩ :=
    placed_run env (new ⟨Ledger.empty, [], clock⟩) hfree Placed.empty
  rw [← hiff]
  exact hplaced.conserved_iff

/-- A coinbase output of block 1 matures in block 101. -/
def maturing : List Deed :=
  [.handle (.event (paymentTo 7 1 50 true)), .handle (.event (paymentTo 8 101 30 false))]

theorem reorgFree_maturing : ReorgFree maturing := by
  intro n hn
  simp [maturing] at hn

theorem maturing_conserved :
    Conserved (run LedgerEnv.calm maturing (new ⟨Ledger.empty, [], 0⟩)).handled
        (run LedgerEnv.calm maturing (new ⟨Ledger.empty, [], 0⟩)).ledger ↔
      Uninterrupted LedgerEnv.calm (new ⟨Ledger.empty, [], 0⟩) maturing :=
  conserved_iff_uninterrupted LedgerEnv.calm maturing 0 reorgFree_maturing

/-- The transaction that should book the matured rows cannot be opened. -/
def failsOpening : LedgerEnv := { LedgerEnv.calm with sqlFails := fun t => t == 9 }

def maturedLost : Aggregator :=
  run failsOpening (maturing ++ [.restart]) (new ⟨Ledger.empty, [], 0⟩)

theorem maturedLost_not_conserved :
    maturedLost.handled = [paymentTo 7 1 50 true, paymentTo 8 101 30 false] ∧
      maturedLost.ledger.pending = [] ∧
      maturedLost.ledger.events = [(paymentTo 8 101 30 false).toRow] ∧
      ¬ Conserved maturedLost.handled maturedLost.ledger := by
  have hhandled : maturedLost.handled = [paymentTo 7 1 50 true, paymentTo 8 101 30 false] := by
    decide +kernel
  have hpending : maturedLost.ledger.pending = [] := by decide +kernel
  have hevents : maturedLost.ledger.events = [(paymentTo 8 101 30 false).toRow] := by
    decide +kernel
  refine ⟨hhandled, hpending, hevents, ?_⟩
  rintro ⟨matured, hplaced⟩
  have hcoinbase := hplaced.coinbase.length_eq
  have hbooked := hplaced.events.length_eq
  rw [hhandled, hpending] at hcoinbase
  rw [hhandled, hevents] at hbooked
  have hnone : matured = [] := by simpa [paymentTo] using hbooked
  rw [hnone] at hcoinbase
  cases hcoinbase

end Aggregator

end BtcIndexer
