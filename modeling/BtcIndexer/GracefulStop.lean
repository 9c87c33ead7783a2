import BtcIndexer.Accounting

/-! Stopping and starting again. Once the harvester's task is over no call is open and nothing
more is sent: the aggregator's task comes to its end within the messages that are left, and no
order of its turns gets stuck before. A service that is only ever started again after such an
end has handled each event once, in the order in which it was sent. -/
namespace BtcIndexer
open Stateful Outbox Rows Machines

namespace Service

/-- A call is open only while the harvester's task runs. -/
def Attended (sys : Service) : Prop := sys.harvesting = false → sys.writing = none

/-- The aggregator ends last, on an empty channel. -/
def EndsLast (sys : Service) : Prop :=
  sys.stage = .stopped → sys.harvesting = false ∧ sys.inFlight = []

/-- A new process is started only when the old one has come to its end, and no call is a fork. -/
def Orderly (sys : Service) : Turn → Prop
  | .call job => job.Straight
  | .restart => sys.stage = .stopped
  | .advance | .commit | .elapse _ | .drop | .terminate | .deliver | .notify | .finish => True

instance (sys : Service) : ∀ turn, Decidable (Orderly sys turn)
  | .call (.first _) | .call (.next _) => inferInstanceAs (Decidable True)
  | .call (.fork _) => inferInstanceAs (Decidable False)
  | .restart => inferInstanceAs (Decidable (sys.stage = .stopped))
  | .advance | .commit | .elapse _ | .drop | .terminate | .deliver | .notify | .finish =>
      inferInstanceAs (Decidable True)

section Steps

variable {P : Processor} {env : DbEnv} {ledgerEnv : LedgerEnv}
variable {sys sys' : Service} {turn : Turn}

/-- The turns that the harvester's task takes before its end. -/
def Turn.working : Turn → Bool
  | .call _ | .advance | .commit | .elapse _ | .drop => true
  | .terminate | .deliver | .notify | .finish | .restart => false

theorem step_working (h : Attended sys) (hturn : turn.working = true)
    (hstep : sys.step P env ledgerEnv turn = some sys') :
    sys.harvesting = true ∧ sys'.harvesting = true ∧ sys'.stage = sys.stage := by
  have hrunning : sys.writing ≠ none → sys.harvesting = true := fun hopen => by
    cases hharvesting : sys.harvesting with
    | true => rfl
    | false => exact absurd (h hharvesting) hopen
  have hsame : sys.harvesting = true → sys'.harvesting = sys.harvesting →
      sys'.stage = sys.stage →
      sys.harvesting = true ∧ sys'.harvesting = true ∧ sys'.stage = sys.stage :=
    fun htrue hharvesting hstage => ⟨htrue, hharvesting.trans htrue, hstage⟩
  cases turn with
  | call job =>
      simp only [step, Service.call] at hstep
      split at hstep
      · next hfree =>
          have htrue : sys.harvesting = true := (Bool.and_eq_true_iff.mp hfree).1
          split at hstep
          · cases hstep
            exact hsame htrue rfl rfl
          · cases hstep
            exact hsame htrue rfl rfl
      · cases hstep
  | advance =>
      simp only [step, Service.advance] at hstep
      split at hstep
      · next hopen =>
          have htrue := hrunning (by rw [hopen]; exact Option.some_ne_none _)
          split at hstep
          · cases hstep
            exact hsame htrue rfl rfl
          · cases hstep
            exact hsame htrue rfl rfl
      · cases hstep
  | commit =>
      simp only [step, Service.commit] at hstep
      split at hstep
      · next hopen =>
          have htrue := hrunning (by rw [hopen]; exact Option.some_ne_none _)
          split at hstep
          · cases hstep
            exact hsame htrue rfl rfl
          · cases hstep
            exact hsame htrue rfl rfl
      · cases hstep
  | elapse clock =>
      simp only [step, Service.elapse] at hstep
      split at hstep
      · next hfree =>
          cases hstep
          exact hsame (Bool.and_eq_true_iff.mp hfree).1 rfl rfl
      · cases hstep
  | drop =>
      simp only [step] at hstep
      split at hstep
      · next hopen =>
          have htrue := hrunning (by rw [← Option.isSome_iff_ne_none]; exact hopen)
          cases hstep
          exact hsame htrue rfl rfl
      · cases hstep
  | terminate | deliver | notify | finish | restart => cases hturn

theorem attended_new : Attended new := nofun

theorem Attended.step (h : Attended sys) (hstep : sys.step P env ledgerEnv turn = some sys') :
    Attended sys' := by
  cases hturn : turn.working with
  | true =>
      intro hfalse
      rw [(step_working h hturn hstep).2.1] at hfalse
      cases hfalse
  | false =>
      cases turn with
      | call job => cases hturn
      | elapse clock => cases hturn
      | advance | commit | drop => cases hturn
      | terminate =>
          simp only [Service.step] at hstep
          split at hstep
          · cases hstep
            exact fun _ => rfl
          · cases hstep
      | deliver =>
          obtain ⟨_, hacross, _⟩ := deliver_stage hstep
          intro hfalse
          rw [hacross.harvesting] at hfalse
          rw [hacross.writing]
          exact h hfalse
      | notify =>
          simp only [Service.step, Service.notify] at hstep
          split at hstep
          · cases hstep
            exact h
          · cases hstep
      | finish =>
          simp only [Service.step, Service.finish] at hstep
          split at hstep
          · cases hstep
            exact h
          · cases hstep
      | restart =>
          cases hstep
          intro hfalse
          cases hfalse

theorem deliver_event {event : BtcP2trEvent} {rest : List AggregatorMsg}
    (hquiet : ∀ t, ledgerEnv.sqlFails t = false) (hnext : sys.inFlight = .event event :: rest)
    (hstep : sys.deliver ledgerEnv = some sys') : sys'.stage = sys.stage := by
  obtain ⟨agg, hok⟩ := Aggregator.handleEvent_quiet hquiet event sys.aggregator
  have hhandle : Aggregator.handle ledgerEnv (.event event) sys.aggregator = .ok () agg := hok
  unfold Service.deliver at hstep
  rw [hnext] at hstep
  simp only [hhandle] at hstep
  split at hstep
  · cases hstep
  · cases hstep
    rfl

theorem endsLast_new : EndsLast new := nofun

theorem EndsLast.step (h : EndsLast sys) (hattended : Attended sys)
    (honly : EventsOnly sys.world.channel) (hquiet : ∀ t, ledgerEnv.sqlFails t = false)
    (hstep : sys.step P env ledgerEnv turn = some sys') : EndsLast sys' := by
  intro hstopped
  cases hworking : turn.working with
  | true =>
      obtain ⟨htrue, _, hstage⟩ := step_working hattended hworking hstep
      rw [(h (hstage.symm.trans hstopped)).1] at htrue
      cases htrue
  | false =>
      cases turn with
      | call job => cases hworking
      | elapse clock => cases hworking
      | advance | commit | drop => cases hworking
      | terminate =>
          simp only [Service.step] at hstep
          split at hstep
          · next htrue =>
              cases hstep
              rw [(h hstopped).1] at htrue
              cases htrue
          · cases hstep
      | deliver =>
          obtain ⟨hstage, _, msg, rest, hnext, _, _⟩ := deliver_stage hstep
          have hmem : msg ∈ sys.world.channel := by
            have hin : msg ∈ sys.inFlight := by rw [hnext]; exact List.mem_cons_self
            exact List.mem_of_mem_drop hin
          cases msg with
          | event event =>
              exact absurd ((deliver_event hquiet hnext hstep).symm.trans hstopped) hstage
          | reorg n => exact absurd hmem (honly n)
      | notify =>
          simp only [Service.step, Service.notify] at hstep
          split at hstep
          · cases hstep
            cases hstopped
          · cases hstep
      | finish =>
          simp only [Service.step, Service.finish] at hstep
          split at hstep
          · next hend =>
              cases hstep
              exact ⟨hend.2.2, hend.2.1⟩
          · cases hstep
      | restart =>
          cases hstep
          cases hstopped

/-- The turns that are left once the harvester's task is over: one for each message, one for the
notification and one for the end. -/
def turnsLeft (sys : Service) : Nat :=
  match sys.stage with
  | .serving => sys.inFlight.length + 2
  | .draining => sys.inFlight.length + 1
  | .stopped => 0

theorem turnsLeft_step (hended : sys.harvesting = false) (hidle : sys.writing = none)
    (hturn : turn ≠ .restart) (hstep : sys.step P env ledgerEnv turn = some sys') :
    (sys'.harvesting = false ∧ sys'.writing = none) ∧ sys'.turnsLeft < sys.turnsLeft := by
  have hattended : Attended sys := fun _ => hidle
  cases hworking : turn.working with
  | true =>
      rw [(step_working hattended hworking hstep).1] at hended
      cases hended
  | false =>
      cases turn with
      | call job => cases hworking
      | elapse clock => cases hworking
      | advance | commit | drop => cases hworking
      | restart => exact absurd rfl hturn
      | terminate =>
          simp only [step, hended, Bool.false_eq_true, if_false] at hstep
          cases hstep
      | deliver =>
          obtain ⟨hstage, hacross, msg, rest, hnext, hrest, hcases⟩ := deliver_stage hstep
          refine ⟨⟨hacross.harvesting.trans hended, hacross.writing.trans hidle⟩, ?_⟩
          rcases hcases with hsame | ⟨hstopped, _⟩
          · unfold turnsLeft
            rw [hsame, hrest, hnext]
            cases hnow : sys.stage with
            | serving => simp
            | draining => simp
            | stopped => exact absurd hnow hstage
          · unfold turnsLeft
            rw [hstopped, hnext]
            cases hnow : sys.stage with
            | serving => simp
            | draining => simp
            | stopped => exact absurd hnow hstage
      | notify =>
          simp only [step, Service.notify] at hstep
          split at hstep
          · next hquiet =>
              cases hstep
              refine ⟨⟨hended, hidle⟩, ?_⟩
              simp only [turnsLeft, hquiet.1]
              exact Nat.lt_succ_self _
          · cases hstep
      | finish =>
          simp only [step, Service.finish] at hstep
          split at hstep
          · next hquiet =>
              cases hstep
              refine ⟨⟨hended, hidle⟩, ?_⟩
              cases hnow : sys.stage with
              | serving => simp [turnsLeft, hnow]
              | draining => simp [turnsLeft, hnow]
              | stopped => exact absurd hnow hquiet.1
          · cases hstep

/-- As long as the aggregator's task is not over, it has a turn. -/
theorem turn_possible (hended : sys.harvesting = false) (hstage : sys.stage ≠ .stopped) :
    (sys.step P env ledgerEnv .deliver).isSome = true ∨
      (sys.step P env ledgerEnv .finish).isSome = true := by
  cases hnext : sys.inFlight with
  | nil =>
      right
      simp only [step, Service.finish, hended, hnext, ne_eq, hstage, not_false_eq_true, and_self,
        if_true, Option.isSome_some]
  | cons msg rest =>
      left
      simp only [step, Service.deliver, hnext, if_neg hstage]
      split <;> rfl

end Steps

/-- From every state that a service can be in once its harvester is over, the shutdown comes to
an end: each of the turns left, in whatever order, brings it nearer, there are no more than the
messages on the channel and two, and while the aggregator's task is not over it has a turn. -/
theorem shutdown_ends (P : Processor) (env : DbEnv) (ledgerEnv : LedgerEnv)
    (before after : List Turn) (mid sys : Service)
    (hbefore : run (Service.step P env ledgerEnv) before new = some mid)
    (hended : mid.harvesting = false) (hstay : .restart ∉ after)
    (hafter : run (Service.step P env ledgerEnv) after mid = some sys) :
    after.length ≤ mid.inFlight.length + 2 ∧
      (sys.stage ≠ .stopped → (sys.step P env ledgerEnv .deliver).isSome = true ∨
        (sys.step P env ledgerEnv .finish).isSome = true) := by
  have hattended : Attended mid := run_keeps (I := Attended)
    (fun _ _ _ hs hstep => hs.step hstep) attended_new hbefore
  have hne : ∀ turn ∈ after, ∀ _ : Service, turn ≠ .restart := by
    rintro turn hturn _ rfl
    exact hstay hturn
  have halong : Along (Service.step P env ledgerEnv) _ after mid := Along.of_forall hne mid
  obtain ⟨⟨hsys, _⟩, hlength⟩ := halong.length_le (I := fun sys => sys.harvesting = false ∧
    sys.writing = none) turnsLeft
    (fun _ _ _ hturn hs hstep => turnsLeft_step hs.1 hs.2 hturn hstep)
    ⟨hended, hattended hended⟩ hafter
  have hmost : mid.turnsLeft ≤ mid.inFlight.length + 2 := by
    unfold turnsLeft
    split <;> omega
  exact ⟨by omega, turn_possible hsys⟩

/-- The books of a service that is always stopped before it is started again, where the queries
of the aggregator do not fail. -/
structure Settled (P : Processor) (env : DbEnv) (sys : Service) : Prop where
  attended : Attended sys
  endsLast : EndsLast sys
  kept : ∃ matured, Kept P env matured [] [] sys

/-- Every event received is recorded, once and in its turn, and no satoshi is lost or missed,
whatever happens to the calls of the harvester: dropped, failed or cut off by the shutdown. The
stop itself leaves nothing on the channel. -/
theorem orderly_exactly_once (P : Processor) (env : DbEnv) (ledgerEnv : LedgerEnv)
    (turns : List Turn) (sys : Service) (hquiet : ∀ t, ledgerEnv.sqlFails t = false)
    (horderly : Along (Service.step P env ledgerEnv) Orderly turns new)
    (hrun : run (Service.step P env ledgerEnv) turns new = some sys) :
    sys.aggregator.handled = eventsOf (sys.world.channel.take sys.received) ∧
      (sys.stage = .stopped → sys.aggregator.handled = eventsOf sys.world.channel) ∧
      ∀ a, sys.aggregator.ledger.balance a + Ledger.amountOf sys.aggregator.ledger.pending a +
          Ledger.amountOf (eventsOf sys.inFlight) a =
        unspentOf sys.world.store.utxos a + Ledger.amountOf (eventsOf sys.stray) a +
          Ledger.amountOf (eventsOf sys.sentByCall) a := by
  have hsettled : Settled P env sys := horderly.keeps (I := Settled P env)
    (fun s turn s' hturn hs hstep => by
      obtain ⟨matured, hkept⟩ := hs.kept
      have hstraight : ∀ job, turn = .call job → job.Straight := by
        rintro job rfl
        exact hturn
      have hempty : turn = .restart → s.inFlight = [] := by
        rintro rfl
        exact (hs.endsLast hturn).2
      obtain ⟨matured', missed', hnext, hnone⟩ := hkept.step hstraight hstep
      obtain rfl := hnone hquiet hempty
      rw [lostAt_quiet hquiet] at hnext
      exact ⟨hs.attended.step hstep,
        hs.endsLast.step hs.attended hkept.booked.only hquiet hstep, matured', hnext⟩)
    ⟨attended_new, endsLast_new, [], kept_new P env⟩ hrun
  obtain ⟨matured, hkept⟩ := hsettled.kept
  have hperm := hkept.received.received
  rw [List.append_nil] at hperm
  have hhandled := hkept.received.inOrder.eq_of_length hperm.length_eq.symm
  refine ⟨hhandled, fun hstopped => ?_, fun a => ?_⟩
  · have hlength : sys.world.channel.length ≤ sys.received :=
      List.drop_eq_nil_iff.mp (hsettled.endsLast hstopped).2
    rw [hhandled, List.take_of_length_le hlength]
  · have hbalance := hkept.balance a
    rw [Ledger.amountOf_nil] at hbalance
    omega

def cutOff : List Turn := firstCalls (.first payingBlock) 6 ++ [.terminate]

def drain : List Turn := [.deliver, .notify, .finish]

/-- A call that the shutdown cuts off, the drain, a new process and the same block again. -/
def stoppedTwice : List Turn :=
  cutOff ++ drain ++ [.restart] ++ firstCalls (.first payingBlock) 6 ++
    [.commit, .deliver, .terminate, .notify, .finish]

theorem stoppedTwice_exactly_once :
    (calmService stoppedTwice).aggregator.handled.length = 2 ∧
      (calmService stoppedTwice).aggregator.handled =
        eventsOf ((calmService stoppedTwice).world.channel.take
          (calmService stoppedTwice).received) ∧
      ((calmService stoppedTwice).stage = .stopped →
        (calmService stoppedTwice).aggregator.handled =
          eventsOf (calmService stoppedTwice).world.channel) ∧
      ∀ a, (calmService stoppedTwice).aggregator.ledger.balance a +
          Ledger.amountOf (calmService stoppedTwice).aggregator.ledger.pending a +
          Ledger.amountOf (eventsOf (calmService stoppedTwice).inFlight) a =
        unspentOf (calmService stoppedTwice).world.store.utxos a +
          Ledger.amountOf (eventsOf (calmService stoppedTwice).stray) a +
          Ledger.amountOf (eventsOf (calmService stoppedTwice).sentByCall) a :=
  ⟨by decide +kernel, orderly_exactly_once Processor.mainnet DbEnv.calm LedgerEnv.calm
    stoppedTwice _ (fun _ => rfl) (by decide +kernel) (calmService_run (by decide +kernel))⟩

theorem calmService_append {before after : List Turn}
    (h : (run (Service.step Processor.mainnet DbEnv.calm LedgerEnv.calm) (before ++ after)
      new).isSome = true) :
    run (Service.step Processor.mainnet DbEnv.calm LedgerEnv.calm) after (calmService before) =
      some (calmService (before ++ after)) := by
  obtain ⟨mid, hbefore, hafter⟩ := run_append_eq_some.mp (calmService_run h)
  have hmid : calmService before = mid := by rw [calmService, hbefore, Option.getD_some]
  rw [hmid]
  exact hafter

/-- With one message on the channel the drain takes three turns. -/
theorem cutOff_ends :
    drain.length ≤ (calmService cutOff).inFlight.length + 2 ∧
      ((calmService (cutOff ++ drain)).stage ≠ .stopped →
        ((calmService (cutOff ++ drain)).step Processor.mainnet DbEnv.calm LedgerEnv.calm
            .deliver).isSome = true ∨
          ((calmService (cutOff ++ drain)).step Processor.mainnet DbEnv.calm LedgerEnv.calm
            .finish).isSome = true) :=
  shutdown_ends Processor.mainnet DbEnv.calm LedgerEnv.calm cutOff drain _ _
    (calmService_run (by decide +kernel)) (by decide +kernel) (by decide)
    (calmService_append (by decide +kernel))

end Service

end BtcIndexer
