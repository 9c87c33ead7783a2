import BtcIndexer.Conservation
import BtcIndexer.ForkHeads
import BtcIndexer.Holdings
import BtcIndexer.RangeOrder
import BtcIndexer.Service

/-! The books of a service that meets no fork, over failures of every call, dropped calls,
panics, graceful stops and new starts. Each satoshi of an unspent row is in a balance, withheld,
lost between the two transactions of a sweep, in an event that was never recorded, or on its
way; what is left over comes from events of calls that did not commit. -/
namespace BtcIndexer
open Stateful Outbox Rows Machines

def eventsOf (msgs : List AggregatorMsg) : List BtcP2trEvent := msgs.filterMap AggregatorMsg.event?

@[simp] theorem eventsOf_append (xs ys : List AggregatorMsg) :
    eventsOf (xs ++ ys) = eventsOf xs ++ eventsOf ys := List.filterMap_append

@[simp] theorem eventsOf_map (events : List BtcP2trEvent) :
    eventsOf (events.map .event) = events := by
  induction events with
  | nil => rfl
  | cons event rest ih => exact congrArg (event :: ·) ih

def EventsOnly (msgs : List AggregatorMsg) : Prop := ∀ n, AggregatorMsg.reorg n ∉ msgs

theorem eventsOnly_map (events : List BtcP2trEvent) :
    EventsOnly (events.map .event) := by
  intro n hn
  obtain ⟨e, _, he⟩ := List.mem_map.mp hn
  cases he

theorem EventsOnly.append {xs ys : List AggregatorMsg} (hx : EventsOnly xs) (hy : EventsOnly ys) :
    EventsOnly (xs ++ ys) := by
  intro n hn
  rcases List.mem_append.mp hn with hn | hn
  · exact hx n hn
  · exact hy n hn

theorem Placed.amounts {handled matured lost : List BtcP2trEvent} {l : Ledger}
    (h : Placed handled matured lost l) (a : Address) :
    l.balance a + Ledger.amountOf l.pending a + Ledger.amountOf lost a =
      Ledger.amountOf handled a := by
  have hsplit := Ledger.amountOf_perm
    (List.filter_append_perm (fun e : BtcP2trEvent => e.isCoinbase) handled) a
  have hcoinbase := Ledger.amountOf_perm h.coinbase a
  have hbooked := Ledger.booked_perm h.events a
  simp only [Ledger.amountOf_append, Ledger.booked_toRow] at hsplit hcoinbase hbooked
  rw [h.balance a, hbooked, ← hsplit, hcoinbase]
  omega

namespace Service

/-- The side of the processor: what was ever sent is what the unspent rows hold, what calls sent
that did not commit, and what the open call has sent. -/
structure Booked (sys : Service) : Prop where
  only : EventsOnly sys.world.channel
  amounts : ∀ a, Ledger.amountOf (eventsOf sys.world.channel) a =
    unspentOf sys.world.store.utxos a + Ledger.amountOf (eventsOf sys.stray) a +
      Ledger.amountOf (eventsOf sys.sentByCall) a

/-- The side of the aggregator: what was received is recorded or missed, and each event that is
recorded was received once and in its place. -/
structure Received (matured lost missed : List BtcP2trEvent) (sys : Service) : Prop where
  placed : Placed sys.aggregator.handled matured lost sys.aggregator.ledger
  unrecorded : missed.Sublist (eventsOf sys.unreturned)
  inOrder : sys.aggregator.handled.Sublist (eventsOf (sys.world.channel.take sys.received))
  received : (eventsOf (sys.world.channel.take sys.received)).Perm
    (sys.aggregator.handled ++ missed)

/-- The rows that are gone with a sweep that the turn cuts off between its two transactions. -/
def lostAt (ledgerEnv : LedgerEnv) (sys : Service) : Turn → List BtcP2trEvent
  | .deliver => match sys.inFlight with
      | .event event :: _ => Aggregator.lostOf ledgerEnv event sys.aggregator
      | _ => []
  | _ => []

def lostOver (P : Processor) (env : DbEnv) (ledgerEnv : LedgerEnv) :
    List Turn → Service → List BtcP2trEvent
  | [], _ => []
  | turn :: rest, sys => sys.lostAt ledgerEnv turn ++
      (match sys.step P env ledgerEnv turn with
        | some sys' => lostOver P env ledgerEnv rest sys'
        | none => [])

section Effects

variable {P : Processor} {env : DbEnv} {ledgerEnv : LedgerEnv}
variable {sys sys' : Service} {turn : Turn}

theorem lostAt_quiet (hquiet : ∀ t, ledgerEnv.sqlFails t = false) (sys : Service) (turn : Turn) :
    sys.lostAt ledgerEnv turn = [] := by
  unfold lostAt
  split
  · split
    · exact Aggregator.lostOf_quiet hquiet _ _
    · rfl
  · rfl

def Straightly (job : Job) (_ : Store) : Prop := job.Straight

/-- A straight call sends events, and they carry what the unspent rows gain. -/
theorem straight_done {job : Job} {w : World Store AggregatorMsg} {db : Store}
    (hstraight : job.Straight) (h : apply (job.ops P env w) w.store = .ok db) :
    ∃ events : List BtcP2trEvent, messages (job.ops P env w) = events.map .event ∧
      ∀ a, unspentOf db.utxos a = unspentOf w.store.utxos a + Ledger.amountOf events a := by
  obtain ⟨events, hemitted, hmessages⟩ := Processor.jobOps_ok h
  refine ⟨events, ?_, ?_⟩
  · cases job with
    | first block => exact hmessages
    | next block => exact hmessages
    | fork blocks => exact absurd hstraight id
  · intro a
    rw [hemitted.unspentOf a]
    cases job with
    | first block => rfl
    | next block => rfl
    | fork blocks => exact absurd hstraight id

theorem straight_events {job : Job} (hstraight : job.Straight) (env : DbEnv)
    (w : World Store AggregatorMsg) : EventsOnly (messages (job.ops P env w)) := by
  have hblock : ∀ block,
      EventsOnly (messages (P.blockOps (env.hashOrder w.clock 0) block w.store)) := by
    intro block
    unfold Processor.blockOps
    cases P.timestampOpt block.header.time with
    | none => exact nofun
    | some timestamp =>
        simp only [messages_sql, messages_append, Processor.messages_upsertOps,
          Processor.messages_txsOps, List.nil_append]
        exact eventsOnly_map _
  cases job with
  | first block => exact hblock block
  | next block => exact hblock block
  | fork blocks => exact absurd hstraight id

theorem Underway.next_event (h : Underway P env Straightly sys) {db : Store} {op : ProcessorOp}
    {rest : List ProcessorOp} {since : Nat} (hopen : sys.writing = some ⟨db, op :: rest, since⟩) :
    EventsOnly op.message.toList := by
  obtain ⟨job, pre, w, _, hstraight, hops, _⟩ := (h.call _ hopen).script
  intro n hn
  refine straight_events (P := P) hstraight env w n ?_
  rw [hops, messages_append, messages_cons]
  exact List.mem_append_right _ (List.mem_append_left _ hn)

theorem booked_new : Booked new := ⟨nofun, fun _ => rfl⟩

/-- Rolling a call back moves what it has sent to the strays. -/
theorem Booked.rolledBack (h : Booked sys) (hstore : sys'.world.store = sys.world.store)
    (hchannel : sys'.world.channel = sys.world.channel) (hwriting : sys'.writing = none)
    (hstray : sys'.stray = sys.stray ++ sys.sentByCall) : Booked sys' := by
  refine ⟨hchannel ▸ h.only, fun a => ?_⟩
  have hbefore := h.amounts a
  rw [sentByCall_of_idle hwriting, hstray, hstore, hchannel, eventsOf_append,
    Ledger.amountOf_append]
  change _ = _ + Ledger.amountOf [] a
  rw [Ledger.amountOf_nil]
  omega

theorem Booked.across (h : Booked sys) (hacross : Across sys sys') : Booked sys' := by
  have hsent : sys'.sentByCall = sys.sentByCall := by
    simp only [sentByCall, mark, hacross.world, hacross.writing]
  refine ⟨hacross.world ▸ h.only, ?_⟩
  rw [hsent, hacross.stray, hacross.world]
  exact h.amounts

theorem Booked.effect (h : Booked sys) (hunder : Underway P env Straightly sys)
    (heffect : Effect P env ledgerEnv sys turn sys') : Booked sys' := by
  cases heffect with
  | pause beside store channel writing stray =>
      have hsent : sys'.sentByCall = sys.sentByCall := by
        simp only [sentByCall, mark, writing, channel]
      exact ⟨channel ▸ h.only, by rw [hsent, stray, store, channel]; exact h.amounts⟩
  | opened beside idle store channel writing stray =>
      have hsent : sys'.sentByCall = sys.sentByCall := by
        rw [sentByCall_of_idle idle, sentByCall, mark_of_open writing, channel]
        exact List.drop_length
      exact ⟨channel ▸ h.only, by rw [hsent, stray, store, channel]; exact h.amounts⟩
  | @advanced _ _ db db' op rest since beside before apply store channel writing stray =>
      have hsince := (hunder.call _ before).since
      have hsent : sys'.sentByCall = sys.sentByCall ++ op.message.toList := by
        rw [sentByCall, mark_of_open writing, channel, sentByCall, mark_of_open before,
          List.drop_append_of_le_length hsince]
      refine ⟨?_, fun a => ?_⟩
      · rw [channel]
        exact h.only.append (hunder.next_event before)
      · have hbefore := h.amounts a
        rw [hsent, stray, store, channel]
        simp only [eventsOf_append, Ledger.amountOf_append]
        omega
  | committed beside before store channel writing stray =>
      obtain ⟨job, w, hw, hstraight, happly, hsent⟩ := (hunder.call _ before).done
      obtain ⟨events, hmessages, hunspent⟩ := straight_done hstraight happly
      have hbefore : sys.sentByCall = events.map .event := by
        rw [sentByCall, mark_of_open before, hsent, hmessages]
      refine ⟨channel ▸ h.only, fun a => ?_⟩
      have hamounts := h.amounts a
      rw [hbefore, eventsOf_map] at hamounts
      rw [sentByCall_of_idle writing, stray, store, channel, hunspent a, hw]
      change _ = _ + Ledger.amountOf [] a
      rw [Ledger.amountOf_nil]
      omega
  | abandoned beside store channel writing stray =>
      exact h.rolledBack store channel writing stray
  | handled across next handle received stage unreturned =>
      exact h.across across
  | failed across next handle received unreturned =>
      exact h.across across
  | turned across received aggregator unreturned empty =>
      exact h.across across
  | restarted => exact h.rolledBack rfl rfl rfl rfl

theorem received_new : Received [] [] [] new :=
  ⟨Placed.empty, List.Sublist.refl _, List.Sublist.refl _, List.Perm.refl _⟩

theorem take_received {msg : AggregatorMsg} {rest : List AggregatorMsg}
    (hnext : sys.inFlight = msg :: rest) : sys.world.channel.take (sys.received + 1) =
      sys.world.channel.take sys.received ++ [msg] := by
  have hdrop : sys.world.channel.drop sys.received = msg :: rest := hnext
  have hlt : sys.received < sys.world.channel.length := by
    have hlength := congrArg List.length hdrop
    rw [List.length_drop, List.length_cons] at hlength
    omega
  have hget : sys.world.channel[sys.received] = msg := by
    rw [List.drop_eq_getElem_cons hlt] at hdrop
    exact (List.cons.inj hdrop).1
  rw [List.take_succ_eq_append_getElem hlt, hget]

theorem Received.event {matured lost missed : List BtcP2trEvent} {event : BtcP2trEvent}
    {rest : List AggregatorMsg} (h : Received matured lost missed sys)
    (hnext : sys.inFlight = .event event :: rest) (hchannel : sys'.world = sys.world)
    (hreceived : sys'.received = sys.received + 1)
    (hagg : sys'.aggregator = final (Aggregator.handleEvent ledgerEnv event sys.aggregator))
    (hunreturned : sys'.unreturned = sys.unreturned ∨
      sys'.unreturned = sys.unreturned ++ [.event event])
    (hfailed : (∃ e w, Aggregator.storeEvent ledgerEnv event sys.aggregator.world = .error e w) →
      sys'.unreturned = sys.unreturned ++ [.event event]) :
    ∃ matured' missed',
      Received matured' (lost ++ sys.lostAt ledgerEnv .deliver) (missed ++ missed') sys' ∧
        ((∀ t, ledgerEnv.sqlFails t = false) → missed' = []) := by
  obtain ⟨matured', hplaced⟩ := Aggregator.placed_event ledgerEnv event h.placed
  have hlost : sys.lostAt ledgerEnv .deliver =
      Aggregator.lostOf ledgerEnv event sys.aggregator := by
    simp only [lostAt, hnext]
  rw [← hagg, ← hlost] at hplaced
  have htake : eventsOf (sys'.world.channel.take sys'.received) =
      eventsOf (sys.world.channel.take sys.received) ++ [event] := by
    rw [hchannel, hreceived, take_received hnext, eventsOf_append]
    rfl
  rcases Aggregator.handleEvent_cases ledgerEnv event sys.aggregator with
    ⟨herror, _, hhandled⟩ | ⟨w, _, hhandled, _⟩
  · rw [← hagg] at hhandled
    refine ⟨matured', [event], ⟨hplaced, ?_, ?_, ?_⟩, fun hquiet => ?_⟩
    · rw [hfailed herror, eventsOf_append]
      exact h.unrecorded.append (List.Sublist.refl _)
    · rw [hhandled, htake]
      exact h.inOrder.trans (List.sublist_append_left _ _)
    · rw [hhandled, htake, ← List.append_assoc]
      exact h.received.append_right _
    · obtain ⟨e, w, hstore⟩ := herror
      rw [Aggregator.storeEvent_ok_iff.mpr ⟨fun k _ => hquiet _, rfl⟩] at hstore
      cases hstore
  · rw [← hagg] at hhandled
    refine ⟨matured', [], ⟨hplaced, ?_, ?_, ?_⟩, fun _ => rfl⟩
    · rw [List.append_nil]
      rcases hunreturned with hsame | hmore
      · rw [hsame]
        exact h.unrecorded
      · rw [hmore, eventsOf_append]
        exact h.unrecorded.trans (List.sublist_append_left _ _)
    · rw [hhandled, htake]
      exact h.inOrder.append (List.Sublist.refl _)
    · rw [hhandled, htake, List.append_nil]
      refine (h.received.append_right [event]).trans ?_
      rw [List.append_assoc, List.append_assoc]
      exact List.Perm.append_left _ List.perm_append_comm

theorem Received.deliver {matured lost missed : List BtcP2trEvent}
    (h : Received matured lost missed sys) (hbooked : Booked sys)
    (hstep : sys.deliver ledgerEnv = some sys') :
    ∃ matured' missed',
      Received matured' (lost ++ sys.lostAt ledgerEnv .deliver) (missed ++ missed') sys' ∧
        ((∀ t, ledgerEnv.sqlFails t = false) → missed' = []) := by
  unfold Service.deliver at hstep
  split at hstep
  · cases hstep
  · next msg rest hnext =>
    obtain ⟨event, rfl⟩ : ∃ event, msg = .event event := by
      have hin : msg ∈ sys.inFlight := hnext ▸ List.mem_cons_self
      cases msg with
      | event event => exact ⟨event, rfl⟩
      | reorg n => exact absurd (List.mem_of_mem_drop hin) (hbooked.only n)
    split at hstep
    · cases hstep
    · split at hstep
      · next agg hhandle =>
        cases hstep
        have hagg : agg = final (Aggregator.handle ledgerEnv (.event event) sys.aggregator) := by
          rw [hhandle, final_ok]
        refine h.event hnext rfl rfl hagg (.inl rfl) ?_
        rintro ⟨e, w, hstore⟩
        have hfail := Aggregator.handleEvent_of_error hstore
        change Aggregator.handleEvent ledgerEnv event sys.aggregator = _ at hhandle
        rw [hfail] at hhandle
        cases hhandle
      · next e agg hhandle =>
        cases hstep
        have hagg : agg = final (Aggregator.handle ledgerEnv (.event event) sys.aggregator) := by
          rw [hhandle, final_error]
        exact h.event hnext rfl rfl hagg (.inr rfl) fun _ => rfl

theorem Received.beside {matured lost missed : List BtcP2trEvent}
    (h : Received matured lost missed sys) (hbeside : Beside sys sys')
    (hreceived : sys.received ≤ sys.world.channel.length) {more : List AggregatorMsg}
    (hchannel : sys'.world.channel = sys.world.channel ++ more) :
    Received matured lost missed sys' := by
  have htake : sys'.world.channel.take sys'.received = sys.world.channel.take sys.received := by
    rw [hchannel, hbeside.received, List.take_append_of_le_length hreceived]
  refine ⟨?_, ?_, ?_, ?_⟩
  · rw [hbeside.aggregator]
    exact h.placed
  · rw [hbeside.unreturned]
    exact h.unrecorded
  · rw [hbeside.aggregator, htake]
    exact h.inOrder
  · rw [hbeside.aggregator, htake]
    exact h.received

theorem Received.effect {matured lost missed : List BtcP2trEvent}
    (h : Received matured lost missed sys) (hunder : Underway P env Straightly sys)
    (heffect : Effect P env ledgerEnv sys turn sys') (hother : turn ≠ .deliver) :
    ∃ missed', Received matured lost (missed ++ missed') sys' ∧
      ((turn = .restart → sys.inFlight = []) → missed' = []) := by
  have hsame : Received matured lost missed sys' →
      ∃ missed', Received matured lost (missed ++ missed') sys' ∧
        ((turn = .restart → sys.inFlight = []) → missed' = []) := fun hkept =>
    ⟨[], (List.append_nil missed).symm ▸ hkept, fun _ => rfl⟩
  have hbeside : Beside sys sys' → ∀ more, sys'.world.channel = sys.world.channel ++ more →
      Received matured lost missed sys' := fun beside more channel =>
    h.beside beside hunder.received channel
  cases heffect with
  | pause beside store channel writing stray =>
      exact hsame (hbeside beside [] (by rw [channel, List.append_nil]))
  | opened beside idle store channel writing stray =>
      exact hsame (hbeside beside [] (by rw [channel, List.append_nil]))
  | advanced beside before apply store channel writing stray =>
      exact hsame (hbeside beside _ channel)
  | committed beside before store channel writing stray =>
      exact hsame (hbeside beside [] (by rw [channel, List.append_nil]))
  | abandoned beside store channel writing stray =>
      exact hsame (hbeside beside [] (by rw [channel, List.append_nil]))
  | handled across next handle received stage unreturned => exact absurd rfl hother
  | failed across next handle received unreturned => exact absurd rfl hother
  | turned across received aggregator unreturned empty =>
      refine hsame ⟨?_, ?_, ?_, ?_⟩
      · rw [aggregator]
        exact h.placed
      · rw [unreturned]
        exact h.unrecorded
      · rw [aggregator, across.world, received]
        exact h.inOrder
      · rw [aggregator, across.world, received]
        exact h.received
  | restarted =>
      have htake : eventsOf (sys.world.channel.take sys.world.channel.length) =
          eventsOf (sys.world.channel.take sys.received) ++ eventsOf sys.inFlight := by
        rw [← eventsOf_append, inFlight, List.take_append_drop, List.take_length]
      refine ⟨eventsOf sys.inFlight, ⟨h.placed, ?_, ?_, ?_⟩, fun hempty => ?_⟩
      · change (missed ++ eventsOf sys.inFlight).Sublist
          (eventsOf (sys.unreturned ++ sys.inFlight))
        rw [eventsOf_append]
        exact h.unrecorded.append (List.Sublist.refl _)
      · change sys.aggregator.handled.Sublist
          (eventsOf (sys.world.channel.take sys.world.channel.length))
        rw [htake]
        exact h.inOrder.trans (List.sublist_append_left _ _)
      · change (eventsOf (sys.world.channel.take sys.world.channel.length)).Perm
          (sys.aggregator.handled ++ (missed ++ eventsOf sys.inFlight))
        rw [htake, ← List.append_assoc]
        exact h.received.append_right _
      · rw [hempty rfl]
        rfl

theorem Received.step {matured lost missed : List BtcP2trEvent}
    (h : Received matured lost missed sys) (hunder : Underway P env Straightly sys)
    (hbooked : Booked sys) (hstep : sys.step P env ledgerEnv turn = some sys') :
    ∃ matured' missed',
      Received matured' (lost ++ sys.lostAt ledgerEnv turn) (missed ++ missed') sys' ∧
        ((∀ t, ledgerEnv.sqlFails t = false) → (turn = .restart → sys.inFlight = []) →
          missed' = []) := by
  by_cases hdeliver : turn = .deliver
  · subst hdeliver
    obtain ⟨matured', missed', hkept, hnone⟩ := h.deliver hbooked hstep
    exact ⟨matured', missed', hkept, fun hquiet _ => hnone hquiet⟩
  · obtain ⟨missed', hkept, hnone⟩ := h.effect hunder (step_effect hstep) hdeliver
    have hlost : sys.lostAt ledgerEnv turn = [] := by
      unfold lostAt
      split
      · exact absurd rfl hdeliver
      · rfl
    rw [hlost, List.append_nil]
    exact ⟨matured, missed', hkept, fun _ => hnone⟩

end Effects

/-- What holds at every moment of a run without forks. -/
structure Kept (P : Processor) (env : DbEnv) (matured lost missed : List BtcP2trEvent)
    (sys : Service) : Prop where
  underway : Underway P env Straightly sys
  booked : Booked sys
  received : Received matured lost missed sys

theorem kept_new (P : Processor) (env : DbEnv) : Kept P env [] [] [] new :=
  ⟨underway_new P env Straightly, booked_new, received_new⟩

section Runs

variable {P : Processor} {env : DbEnv} {ledgerEnv : LedgerEnv}
variable {sys sys' : Service} {turn : Turn} {matured lost missed : List BtcP2trEvent}

theorem Kept.step (h : Kept P env matured lost missed sys)
    (hstraight : ∀ job, turn = .call job → job.Straight)
    (hstep : sys.step P env ledgerEnv turn = some sys') :
    ∃ matured' missed',
      Kept P env matured' (lost ++ sys.lostAt ledgerEnv turn) (missed ++ missed') sys' ∧
        ((∀ t, ledgerEnv.sqlFails t = false) → (turn = .restart → sys.inFlight = []) →
          missed' = []) := by
  have heffect := step_effect hstep
  obtain ⟨matured', missed', hreceived, hnone⟩ := h.received.step h.underway h.booked hstep
  exact ⟨matured', missed', ⟨h.underway.effect heffect hstraight,
    h.booked.effect h.underway heffect, hreceived⟩, hnone⟩

/-- The books at the end of a run, with what its sweeps have lost. -/
theorem Kept.run {turns : List Turn} (h : Kept P env matured lost missed sys)
    (hstraight : ∀ job, .call job ∈ turns → job.Straight)
    (hrun : run (Service.step P env ledgerEnv) turns sys = some sys') :
    ∃ matured' missed',
      Kept P env matured' (lost ++ lostOver P env ledgerEnv turns sys) missed' sys' := by
  induction turns generalizing sys matured lost missed with
  | nil =>
      cases hrun
      exact ⟨matured, missed, by rw [lostOver, List.append_nil]; exact h⟩
  | cons turn rest ih =>
      obtain ⟨mid, hfirst, hlater⟩ := run_cons_eq_some.mp hrun
      obtain ⟨matured₁, missed₁, hmid, _⟩ := h.step (fun job hjob =>
        hstraight job (hjob ▸ List.mem_cons_self)) hfirst
      obtain ⟨matured', missed', hend⟩ := ih hmid
        (fun job hjob => hstraight job (List.mem_cons_of_mem turn hjob)) hlater
      refine ⟨matured', missed', ?_⟩
      rw [lostOver, hfirst, ← List.append_assoc]
      exact hend

/-- The equation of the books. -/
theorem Kept.balance (h : Kept P env matured lost missed sys) (a : Address) :
    sys.aggregator.ledger.balance a + Ledger.amountOf sys.aggregator.ledger.pending a +
        Ledger.amountOf lost a + Ledger.amountOf missed a +
        Ledger.amountOf (eventsOf sys.inFlight) a =
      unspentOf sys.world.store.utxos a + Ledger.amountOf (eventsOf sys.stray) a +
        Ledger.amountOf (eventsOf sys.sentByCall) a := by
  have hsent := h.booked.amounts a
  have hplaced := h.received.placed.amounts a
  have hreceived := Ledger.amountOf_perm h.received.received a
  have hsplit : eventsOf sys.world.channel =
      eventsOf (sys.world.channel.take sys.received) ++ eventsOf sys.inFlight := by
    rw [← eventsOf_append, inFlight, List.take_append_drop]
  rw [hsplit, Ledger.amountOf_append, hreceived, Ledger.amountOf_append] at hsent
  omega

/-- In every run without forks, whatever fails and wherever the process is stopped and started
again, the books are complete: no event is recorded twice or out of its turn, and every amount
is accounted for at every moment. What is lost are the rows of the sweeps that were cut off. -/
theorem accounted (P : Processor) (env : DbEnv) (ledgerEnv : LedgerEnv) (turns : List Turn)
    (sys : Service) (hstraight : ∀ job, .call job ∈ turns → job.Straight)
    (hrun : run (Service.step P env ledgerEnv) turns new = some sys) :
    ∃ matured missed, Received matured (lostOver P env ledgerEnv turns new) missed sys ∧ ∀ a,
      sys.aggregator.ledger.balance a + Ledger.amountOf sys.aggregator.ledger.pending a +
          Ledger.amountOf (lostOver P env ledgerEnv turns new) a + Ledger.amountOf missed a +
          Ledger.amountOf (eventsOf sys.inFlight) a =
        unspentOf sys.world.store.utxos a + Ledger.amountOf (eventsOf sys.stray) a +
          Ledger.amountOf (eventsOf sys.sentByCall) a := by
  obtain ⟨matured, missed, hkept⟩ := (kept_new P env).run hstraight hrun
  exact ⟨matured, missed, hkept.received, hkept.balance⟩

end Runs

def firstCalls (job : Job) (calls : Nat) : List Turn := .call job :: List.replicate calls .advance

def payingBlock : BlockInfo := blockAt 101 1 100 [coinbaseTx 1 [], spendingTx 2 9 [payTaproot 7 50]]

/-- A call that is dropped after its message is out and made once more, then a new process while
the second message is still on the channel. -/
def droppedOnce : List Turn :=
  firstCalls (.first payingBlock) 6 ++ [.drop, .deliver] ++ firstCalls (.first payingBlock) 6 ++
    [.commit, .restart]

def calmService (turns : List Turn) : Service :=
  (run (Service.step Processor.mainnet DbEnv.calm LedgerEnv.calm) turns new).getD new

theorem calmService_run {turns : List Turn}
    (h : (run (Service.step Processor.mainnet DbEnv.calm LedgerEnv.calm) turns new).isSome = true) :
    run (Service.step Processor.mainnet DbEnv.calm LedgerEnv.calm) turns new =
      some (calmService turns) := by
  obtain ⟨sys, hsys⟩ := Option.isSome_iff_exists.mp h
  rw [calmService, hsys]
  rfl

theorem droppedOnce_straight : ∀ job, .call job ∈ droppedOnce → job.Straight := by
  intro job hjob
  simp only [droppedOnce, firstCalls, List.mem_append, List.mem_cons, List.mem_replicate,
    Turn.call.injEq, List.not_mem_nil, reduceCtorEq, or_false, and_false] at hjob
  rcases hjob with rfl | rfl <;> trivial

theorem droppedOnce_accounted :
    (calmService droppedOnce).stray ≠ [] ∧ (calmService droppedOnce).unreturned ≠ [] ∧
      ∃ matured missed, Received matured
          (lostOver Processor.mainnet DbEnv.calm LedgerEnv.calm droppedOnce new) missed
          (calmService droppedOnce) ∧ ∀ a,
        (calmService droppedOnce).aggregator.ledger.balance a +
            Ledger.amountOf (calmService droppedOnce).aggregator.ledger.pending a +
            Ledger.amountOf
              (lostOver Processor.mainnet DbEnv.calm LedgerEnv.calm droppedOnce new) a +
            Ledger.amountOf missed a +
            Ledger.amountOf (eventsOf (calmService droppedOnce).inFlight) a =
          unspentOf (calmService droppedOnce).world.store.utxos a +
            Ledger.amountOf (eventsOf (calmService droppedOnce).stray) a +
            Ledger.amountOf (eventsOf (calmService droppedOnce).sentByCall) a :=
  ⟨by decide +kernel, by decide +kernel, accounted Processor.mainnet DbEnv.calm LedgerEnv.calm
    droppedOnce _ droppedOnce_straight (calmService_run (by decide +kernel))⟩

end Service

end BtcIndexer
