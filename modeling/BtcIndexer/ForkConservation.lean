import BtcIndexer.Accounting
import Mathlib.Algebra.Order.Group.Nat

/-! Conservation across reorganisations. A fork deletes blocks, clears marks and indexes its own
blocks head first, and the aggregator books inverse entries when it comes to the message of the
fork, which may be much later. What the two hold below each height moves alike, so they agree
once the channel is empty. -/
namespace BtcIndexer
open Stateful Outbox Rows Histories Machines

namespace Processor

theorem jobOps_heightsAgree {P : Processor} {job : Job} {env : DbEnv}
    {w : World Store AggregatorMsg} {s' : Store} {given : List BlockInfo}
    (h : apply (job.ops P env w) w.store = .ok s') (hgiven : Described given)
    (hblocks : ∀ b ∈ job.blocks, b ∈ given) (hs : Sourced P given w.store)
    (hagree : w.store.HeightsAgree) : Sourced P given s' ∧ s'.HeightsAgree := by
  obtain ⟨events, hemitted, _⟩ := jobOps_ok h
  have hindexed := hemitted.indexedAll
  rcases Job.base_cases w.store job with hsame | ⟨number, hrewound⟩
  · rw [hsame] at hindexed
    exact hindexed.heightsAgree hgiven hblocks hs hagree
  · rw [hrewound] at hindexed
    exact hindexed.heightsAgree hgiven hblocks (Store.rewind_sourced hs number)
      (Store.rewind_heightsAgree hagree number)

end Processor

namespace Aggregator

/-- The withheld events are those of the blocks that the message takes back, up to the last row
that its query returns. -/
def Drops (env : LedgerEnv) (agg : Aggregator) : AggregatorMsg → Prop
  | .event _ => True
  | .reorg blockNumber => ∀ e ∈ agg.ledger.pending,
      blockNumber ≤ e.blockNumber ∧ e.blockNumber ≤ lastReturned env blockNumber agg

instance (env : LedgerEnv) (agg : Aggregator) : ∀ msg, Decidable (Drops env agg msg)
  | .event _ => inferInstanceAs (Decidable True)
  | .reorg _ => inferInstanceAs (Decidable (∀ e ∈ agg.ledger.pending, _ ∧ _))

theorem Balanced.handle {env : LedgerEnv} {msg : AggregatorMsg} {agg agg' : Aggregator}
    (h : Balanced agg.ledger) (hrun : handle env msg agg = .ok () agg') :
    Balanced agg'.ledger := by
  have hstep := balanced_closed.step env (.handle msg) h
  rw [Aggregator.step, hrun, final_ok] at hstep
  exact hstep

end Aggregator

namespace Service

def givenBlocks (turns : List Turn) : List BlockInfo :=
  turns.flatMap fun turn => match turn with
    | .call job => job.blocks
    | _ => []

/-- The call spends nothing below its height, and a reorganisation that is handled drops the
withheld events it is to drop. -/
def Regular (P : Processor) (ledgerEnv : LedgerEnv) (sys : Service) : Turn → Prop
  | .call job => job.Grounded P sys.world.store
  | .deliver => ∀ msg ∈ sys.inFlight.head?, Aggregator.Drops ledgerEnv sys.aggregator msg
  | .advance | .commit | .elapse _ | .drop | .terminate | .notify | .finish | .restart => True

instance (P : Processor) (ledgerEnv : LedgerEnv) (sys : Service) :
    ∀ turn, Decidable (Regular P ledgerEnv sys turn)
  | .call job => inferInstanceAs (Decidable (job.Grounded P sys.world.store))
  | .deliver => inferInstanceAs (Decidable (∀ msg ∈ sys.inFlight.head?, _))
  | .advance | .commit | .elapse _ | .drop | .terminate | .notify | .finish | .restart =>
      inferInstanceAs (Decidable True)

/-- No call was rolled back after its first message, and a handler returned for every message
received. -/
def Intact (sys : Service) : Prop := sys.stray = [] ∧ sys.unreturned = []

/-- What is known of the calls of a run over given blocks. -/
def Known (P : Processor) (given : List BlockInfo) (job : Job) (s : Store) : Prop :=
  job.Grounded P s ∧ ∀ b ∈ job.blocks, b ∈ given

/-- The histories agree up to what is under way on either side. -/
structure Agreed (P : Processor) (env : DbEnv) (given : List BlockInfo) (sys : Service) : Prop where
  underway : Underway P env (Known P given) sys
  sourced : Sourced P given sys.world.store
  heights : sys.world.store.HeightsAgree
  balanced : Aggregator.Balanced sys.aggregator.ledger
  histories : ∀ a, replay (changes a sys.inFlight) (sys.aggregator.ledger.heldBelow a) =
    replay (changes a sys.sentByCall) (unspentBelow sys.world.store.utxos a)

section Effects

variable {P : Processor} {env : DbEnv} {ledgerEnv : LedgerEnv} {given : List BlockInfo}
variable {sys sys' : Service} {turn : Turn}

theorem Effect.intact (h : Effect P env ledgerEnv sys turn sys') (hintact : sys'.Intact) :
    sys.Intact := by
  obtain ⟨hstray, hunreturned⟩ := hintact
  cases h with
  | pause beside store channel writing stray =>
      exact ⟨stray.symm.trans hstray, beside.unreturned.symm.trans hunreturned⟩
  | opened beside idle store channel writing stray =>
      exact ⟨stray.symm.trans hstray, beside.unreturned.symm.trans hunreturned⟩
  | advanced beside before apply store channel writing stray =>
      exact ⟨stray.symm.trans hstray, beside.unreturned.symm.trans hunreturned⟩
  | committed beside before store channel writing stray =>
      exact ⟨stray.symm.trans hstray, beside.unreturned.symm.trans hunreturned⟩
  | abandoned beside store channel writing stray =>
      rw [stray, List.append_eq_nil_iff] at hstray
      exact ⟨hstray.1, beside.unreturned.symm.trans hunreturned⟩
  | handled across next handle received stage unreturned =>
      exact ⟨across.stray.symm.trans hstray, unreturned.symm.trans hunreturned⟩
  | failed across next handle received unreturned =>
      rw [unreturned, List.append_eq_nil_iff] at hunreturned
      exact ⟨across.stray.symm.trans hstray, hunreturned.1⟩
  | turned across received aggregator unreturned empty =>
      exact ⟨across.stray.symm.trans hstray, unreturned.symm.trans hunreturned⟩
  | restarted =>
      exact ⟨(List.append_eq_nil_iff.mp hstray).1, (List.append_eq_nil_iff.mp hunreturned).1⟩

theorem inFlight_grows (h : Underway P env (Known P given) sys) (hbeside : Beside sys sys')
    {more : List AggregatorMsg} (hchannel : sys'.world.channel = sys.world.channel ++ more) :
    sys'.inFlight = sys.inFlight ++ more := by
  rw [inFlight, hchannel, hbeside.received, List.drop_append_of_le_length h.received, inFlight]

theorem inFlight_same (hbeside : Beside sys sys')
    (hchannel : sys'.world.channel = sys.world.channel) : sys'.inFlight = sys.inFlight := by
  rw [inFlight, hchannel, hbeside.received, inFlight]

theorem sentByCall_across (h : Across sys sys') : sys'.sentByCall = sys.sentByCall := by
  simp only [sentByCall, mark, h.world, h.writing]

theorem inFlight_handled {msg : AggregatorMsg} {rest : List AggregatorMsg}
    (hacross : Across sys sys') (hnext : sys.inFlight = msg :: rest)
    (hreceived : sys'.received = sys.received + 1) : sys'.inFlight = rest := by
  have hdrop : sys.world.channel.drop sys.received = msg :: rest := hnext
  rw [inFlight, hacross.world, hreceived, ← List.drop_drop, hdrop]
  rfl

/-- Where nothing goes wrong, each turn moves both histories alike. -/
theorem Agreed.effect (h : Agreed P env given sys)
    (heffect : Effect P env ledgerEnv sys turn sys') (hgiven : Described given)
    (hregular : Regular P ledgerEnv sys turn)
    (hblocks : ∀ job, turn = .call job → ∀ b ∈ job.blocks, b ∈ given) (hintact : sys'.Intact) :
    Agreed P env given sys' := by
  have hunder : Underway P env (Known P given) sys' := h.underway.effect heffect fun job hjob => by
    subst hjob
    exact ⟨hregular, hblocks job rfl⟩
  cases heffect with
  | pause beside store channel writing stray =>
      have hsent : sys'.sentByCall = sys.sentByCall := by
        simp only [sentByCall, mark, writing, channel]
      exact ⟨hunder, store ▸ h.sourced, store ▸ h.heights, beside.aggregator ▸ h.balanced, by
        rw [inFlight_same beside channel, hsent, store, beside.aggregator]; exact h.histories⟩
  | opened beside idle store channel writing stray =>
      have hsent : sys'.sentByCall = sys.sentByCall := by
        rw [sentByCall_of_idle idle, sentByCall, mark_of_open writing, channel]
        exact List.drop_length
      exact ⟨hunder, store ▸ h.sourced, store ▸ h.heights, beside.aggregator ▸ h.balanced, by
        rw [inFlight_same beside channel, hsent, store, beside.aggregator]; exact h.histories⟩
  | @advanced _ _ db db' op rest since beside before apply store channel writing stray =>
      have hsent : sys'.sentByCall = sys.sentByCall ++ op.message.toList := by
        rw [sentByCall, mark_of_open writing, channel, sentByCall, mark_of_open before,
          List.drop_append_of_le_length (h.underway.call _ before).since]
      refine ⟨hunder, store ▸ h.sourced, store ▸ h.heights, beside.aggregator ▸ h.balanced,
        fun a => ?_⟩
      rw [inFlight_grows h.underway beside channel, hsent, store, beside.aggregator,
        changes_append, changes_append, replay_append, replay_append, h.histories a]
  | committed beside before store channel writing stray =>
      obtain ⟨job, w, hw, ⟨hgrounded, hin⟩, happly, hsent⟩ := (h.underway.call _ before).done
      have hsourced : Sourced P given w.store := hw ▸ h.sourced
      have hheights : w.store.HeightsAgree := hw ▸ h.heights
      have hnext := Processor.jobOps_heightsAgree happly hgiven hin hsourced hheights
      refine ⟨hunder, store ▸ hnext.1, store ▸ hnext.2, beside.aggregator ▸ h.balanced,
        fun a => ?_⟩
      have hcall := Processor.jobOps_unspentBelow happly (hw ▸ hgrounded) hheights a
      have hbefore : sys.sentByCall = messages (job.ops P env w) := by
        rw [sentByCall, mark_of_open before, hsent]
      rw [inFlight_same beside channel, beside.aggregator, sentByCall_of_idle writing, store,
        h.histories a, hbefore, hcall, hw]
      rfl
  | abandoned beside store channel writing stray =>
      have hnone : sys.sentByCall = [] := by
        have hstray := hintact.1
        rw [stray, List.append_eq_nil_iff] at hstray
        exact hstray.2
      refine ⟨hunder, store ▸ h.sourced, store ▸ h.heights, beside.aggregator ▸ h.balanced,
        fun a => ?_⟩
      rw [inFlight_same beside channel, beside.aggregator, sentByCall_of_idle writing, store,
        h.histories a, hnone]
  | @handled _ msg rest across next handle received stage unreturned =>
      refine ⟨hunder, across.world ▸ h.sourced, across.world ▸ h.heights, h.balanced.handle handle,
        fun a => ?_⟩
      have hdrops : Aggregator.Drops ledgerEnv sys.aggregator msg :=
        hregular msg (by rw [next]; rfl)
      have hhandle := Aggregator.handle_heldBelow handle
        (fun blockNumber hmsg => by subst hmsg; exact hdrops) a
      have hbefore := h.histories a
      rw [next] at hbefore
      rw [inFlight_handled across next received, sentByCall_across across, across.world, hhandle]
      exact hbefore
  | failed across next handle received unreturned =>
      have hnone := hintact.2
      rw [unreturned] at hnone
      exact absurd hnone (by simp)
  | turned across received aggregator unreturned empty =>
      have hflight : sys'.inFlight = sys.inFlight := by
        rw [inFlight, across.world, received, inFlight]
      exact ⟨hunder, across.world ▸ h.sourced, across.world ▸ h.heights,
        aggregator ▸ h.balanced, by
          rw [hflight, sentByCall_across across, across.world, aggregator]; exact h.histories⟩
  | restarted =>
      have hnone : sys.sentByCall = [] := (List.append_eq_nil_iff.mp hintact.1).2
      have hempty : sys.inFlight = [] := (List.append_eq_nil_iff.mp hintact.2).2
      refine ⟨hunder, h.sourced, h.heights, h.balanced, fun a => ?_⟩
      have hbefore := h.histories a
      rw [hnone, hempty] at hbefore
      have hflight : sys.restart.inFlight = [] := List.drop_length
      have hsent : sys.restart.sentByCall = [] := List.drop_length
      rw [hflight, hsent]
      exact hbefore

theorem agreed_new (P : Processor) (env : DbEnv) (given : List BlockInfo) :
    Agreed P env given new where
  underway := underway_new P env (Known P given)
  sourced := ⟨nofun, nofun⟩
  heights := ⟨nofun, nofun⟩
  balanced := Aggregator.balanced_empty
  histories := fun _ => rfl

theorem Agreed.settled (h : Agreed P env given sys) (hidle : sys.writing = none)
    (hdrained : sys.inFlight = []) (a : Address) :
    sys.aggregator.ledger.heldBelow a = unspentBelow sys.world.store.utxos a := by
  have hagree := h.histories a
  rw [hdrained, sentByCall_of_idle hidle] at hagree
  exact hagree

theorem exists_high (l : Ledger) (rows : List UtxoRow) : ∃ bound,
    (∀ e ∈ l.events, e.blockNumber < bound) ∧ (∀ e ∈ l.pending, e.blockNumber < bound) ∧
      (∀ u ∈ rows, u.blockNumber < bound) ∧
      ∀ u ∈ rows, ∀ spent, u.spentBlock = some spent → spent < bound := by
  have hle : ∀ (ns : List Nat), ∀ n ∈ ns, n ≤ ns.sum := fun ns n hn => List.le_sum_of_mem hn
  refine ⟨(l.events.map P2trEventRow.blockNumber).sum +
    (l.pending.map BtcP2trEvent.blockNumber).sum + (rows.map UtxoRow.blockNumber).sum +
    (rows.filterMap UtxoRow.spentBlock).sum + 1, ?_, ?_, ?_, ?_⟩
  · intro e he
    have hsum := hle _ _ (List.mem_map_of_mem (f := P2trEventRow.blockNumber) he)
    omega
  · intro e he
    have hsum := hle _ _ (List.mem_map_of_mem (f := BtcP2trEvent.blockNumber) he)
    omega
  · intro u hu
    have hsum := hle _ _ (List.mem_map_of_mem (f := UtxoRow.blockNumber) hu)
    omega
  · intro u hu spent hspent
    have hsum := hle _ _ (List.mem_filterMap.mpr ⟨u, hu, hspent⟩)
    omega

end Effects

section Runs

variable {P : Processor} {env : DbEnv} {ledgerEnv : LedgerEnv} {turns : List Turn} {sys : Service}

theorem agreed_run (hgiven : Described (givenBlocks turns))
    (hregular : Along (Service.step P env ledgerEnv) (Regular P ledgerEnv) turns new)
    (hrun : run (Service.step P env ledgerEnv) turns new = some sys) (hintact : sys.Intact) :
    Agreed P env (givenBlocks turns) sys := by
  have hblocks : Along (Service.step P env ledgerEnv)
      (fun _ turn => ∀ job, turn = .call job → ∀ b ∈ job.blocks, b ∈ givenBlocks turns)
      turns new := by
    refine Along.of_forall (fun turn hturn _ job hjob b hb => ?_) new
    subst hjob
    exact List.mem_flatMap.mpr ⟨_, hturn, hb⟩
  have hkept := (hregular.and hblocks).keeps
    (I := fun sys => sys.Intact → Agreed P env (givenBlocks turns) sys)
    (fun s turn s' hturn hs hstep hintact => by
      have heffect := step_effect hstep
      exact (hs (heffect.intact hintact)).effect heffect hgiven hturn.1 hturn.2 hintact)
    (fun _ => agreed_new P env _) hrun
  exact hkept hintact

/-- With forks at any height, replayed head first, and with the two parties interleaved in any
way: if no call is rolled back after its first message and every handler returns, then between
two calls and with an empty channel the two sides agree below every height, and the balances
and the withheld amounts are what the unspent rows hold. -/
theorem forks_conserved (P : Processor) (env : DbEnv) (ledgerEnv : LedgerEnv) (turns : List Turn)
    (sys : Service) (hgiven : Described (givenBlocks turns))
    (hregular : Along (Service.step P env ledgerEnv) (Regular P ledgerEnv) turns new)
    (hrun : run (Service.step P env ledgerEnv) turns new = some sys) (hintact : sys.Intact)
    (hidle : sys.writing = none) (hdrained : sys.inFlight = []) (a : Address) :
    (∀ bound, sys.aggregator.ledger.heldBelow a bound =
        unspentBelow sys.world.store.utxos a bound) ∧
      sys.aggregator.ledger.balance a + Ledger.amountOf sys.aggregator.ledger.pending a =
        unspentOf sys.world.store.utxos a := by
  have hagreed := agreed_run hgiven hregular hrun hintact
  have hsettled := hagreed.settled hidle hdrained a
  refine ⟨fun bound => congrFun hsettled bound, ?_⟩
  obtain ⟨bound, hevents, hpending, hcreated, hspent⟩ :=
    exists_high sys.aggregator.ledger sys.world.store.utxos
  rw [← Ledger.heldBelow_of_high hagreed.balanced hevents hpending a, hsettled,
    unspentBelow_of_high hcreated hspent a]

end Runs

def spendingOrphan : BlockInfo :=
  blockAt 102 2 101 [coinbaseTx 10 [], spendingTx 3 2 [payTaproot 8 40]]

def respendingFork : List BlockInfo :=
  [blockAt 203 3 202 [coinbaseTx 12 [], spendingTx 5 4 [payTaproot 8 20]],
    blockAt 202 2 101 [coinbaseTx 11 [], spendingTx 4 2 [payTaproot 9 30]]]

/-- The events of the orphaned block are handled when the fork that takes its spend back is
already being replayed. -/
def forkedTurns : List Turn :=
  firstCalls (.first payingBlock) 6 ++ [.deliver, .commit] ++ firstCalls (.next spendingOrphan) 8 ++
    [.commit] ++ firstCalls (.fork respendingFork) 3 ++ [.deliver, .deliver, .deliver] ++
    List.replicate 14 .advance ++ [.deliver, .commit, .deliver, .deliver]

theorem forkedTurns_conserved :
    unspentOf (calmService forkedTurns).world.store.utxos (System.payee 9) = 30 ∧
      (∀ bound, (calmService forkedTurns).aggregator.ledger.heldBelow (System.payee 9) bound =
          unspentBelow (calmService forkedTurns).world.store.utxos (System.payee 9) bound) ∧
        (calmService forkedTurns).aggregator.ledger.balance (System.payee 9) +
            Ledger.amountOf (calmService forkedTurns).aggregator.ledger.pending (System.payee 9) =
          unspentOf (calmService forkedTurns).world.store.utxos (System.payee 9) := by
  have hgiven : Described (givenBlocks forkedTurns) := by
    constructor <;> decide
  exact ⟨by decide +kernel, forks_conserved Processor.mainnet DbEnv.calm LedgerEnv.calm forkedTurns
    _ hgiven (by decide +kernel) (calmService_run (by decide +kernel))
    (by unfold Intact; decide +kernel) (Option.isNone_iff_eq_none.mp (by decide +kernel))
    (by decide +kernel) (System.payee 9)⟩

end Service

namespace Aggregator

def turn (env : LedgerEnv) (agg : Aggregator) (msg : AggregatorMsg) : Option Aggregator :=
  match handle env msg agg with
  | .ok () agg' => some agg'
  | .error _ _ => none

theorem turn_eq_some {env : LedgerEnv} {agg agg' : Aggregator} {msg : AggregatorMsg} :
    turn env agg msg = some agg' ↔ handle env msg agg = .ok () agg' := by
  unfold turn
  cases handle env msg agg with
  | ok u mid => simp
  | error e mid => simp

theorem start_eq_run {env : LedgerEnv} {msgs : List AggregatorMsg} {agg agg' : Aggregator} :
    start env msgs agg = .ok () agg' ↔ Machines.run (turn env) msgs agg = some agg' := by
  induction msgs generalizing agg with
  | nil =>
      constructor
      · intro h
        cases h
        rfl
      · intro h
        cases h
        rfl
  | cons msg rest ih =>
      rw [start, bind_eq_ok, run_cons_eq_some]
      constructor
      · rintro ⟨_, mid, hfirst, hrest⟩
        exact ⟨mid, turn_eq_some.mpr hfirst, ih.mp hrest⟩
      · rintro ⟨mid, hfirst, hrest⟩
        exact ⟨(), mid, turn_eq_some.mp hfirst, ih.mpr hrest⟩

/-- The history of an address after a run of messages is their replay. -/
theorem replayed_run {env : LedgerEnv} {msgs : List AggregatorMsg} {agg agg' : Aggregator}
    (hdrops : Along (turn env) (Drops env) msgs agg) (hbalanced : Balanced agg.ledger)
    (hrun : Machines.run (turn env) msgs agg = some agg') (a : Address) :
    Balanced agg'.ledger ∧
      agg'.ledger.heldBelow a = replay (changes a msgs) (agg.ledger.heldBelow a) := by
  induction msgs generalizing agg with
  | nil =>
      cases hrun
      exact ⟨hbalanced, rfl⟩
  | cons msg rest ih =>
      obtain ⟨mid, hfirst, hrest⟩ := run_cons_eq_some.mp hrun
      have hhandle := turn_eq_some.mp hfirst
      obtain ⟨hkept, hheld⟩ := ih (hdrops.2 mid hfirst) (hbalanced.handle hhandle) hrest
      refine ⟨hkept, ?_⟩
      have hdropped := hdrops.1
      rw [hheld, handle_heldBelow hhandle (fun number hmsg => by
        subst hmsg
        exact hdropped) a]
      rfl

/-- Whatever order the events and the reorganisations of a run come in, and however these nest,
the balance and the withheld amount of an address are the sum of the events that no later
reorganisation has taken back. -/
theorem balances_survive (env : LedgerEnv) (msgs : List AggregatorMsg) (agg' : Aggregator)
    (hrun : start env msgs (new ⟨Ledger.empty, [], 0⟩) = .ok () agg')
    (hdrops : Along (turn env) (Drops env) msgs (new ⟨Ledger.empty, [], 0⟩)) (a : Address) :
    agg'.ledger.balance a + Ledger.amountOf agg'.ledger.pending a =
      ((survivors (changes a msgs)).map Prod.snd).sum := by
  obtain ⟨hbalanced, hheld⟩ :=
    replayed_run hdrops balanced_empty (start_eq_run.mp hrun) a
  obtain ⟨bound, hevents, hpending, _, _⟩ := Service.exists_high agg'.ledger []
  have hempty : (new ⟨Ledger.empty, [], 0⟩).ledger.heldBelow a = fun _ => 0 := rfl
  -- a bound above the tables and above the events that survive
  let top := bound + ((survivors (changes a msgs)).map Prod.fst).sum + 1
  have hall : (survivors (changes a msgs)).filter (fun p => decide (p.1 < top)) =
      survivors (changes a msgs) := by
    refine List.filter_eq_self.mpr fun p hp => decide_eq_true ?_
    have hle : p.1 ≤ ((survivors (changes a msgs)).map Prod.fst).sum :=
      List.le_sum_of_mem (List.mem_map_of_mem hp)
    change p.1 < bound + _ + 1
    omega
  have htop : bound ≤ top := by
    change bound ≤ bound + _ + 1
    omega
  have hevents : ∀ e ∈ agg'.ledger.events, e.blockNumber < top := fun e he =>
    Nat.lt_of_lt_of_le (hevents e he) htop
  have hpending : ∀ e ∈ agg'.ledger.pending, e.blockNumber < top := fun e he =>
    Nat.lt_of_lt_of_le (hpending e he) htop
  rw [← Ledger.heldBelow_of_high hbalanced hevents hpending a, hheld, hempty, replay_survivors,
    hall]

/-- A payment in block 5, one in block 7 that a reorganisation from block 6 takes back, one in
the new block 6 that a second reorganisation leaves alone, and one in the new block 7. -/
def nestedForks (a : Address) : List AggregatorMsg :=
  [.event ⟨5, ⟨1⟩, a, 50, .receive, false⟩, .event ⟨7, ⟨2⟩, a, 20, .receive, false⟩, .reorg 6,
    .event ⟨6, ⟨3⟩, a, 30, .receive, false⟩, .event ⟨7, ⟨4⟩, a, 10, .receive, false⟩, .reorg 7,
    .event ⟨7, ⟨5⟩, a, -5, .send, false⟩]

theorem nestedForks_survive :
    ((survivors (changes (System.payee 7) (nestedForks (System.payee 7)))).map Prod.snd).sum = 75 ∧
      (final (start LedgerEnv.calm (nestedForks (System.payee 7))
          (new ⟨Ledger.empty, [], 0⟩))).ledger.balance (System.payee 7) +
        Ledger.amountOf (final (start LedgerEnv.calm (nestedForks (System.payee 7))
          (new ⟨Ledger.empty, [], 0⟩))).ledger.pending (System.payee 7) =
      ((survivors (changes (System.payee 7) (nestedForks (System.payee 7)))).map Prod.snd).sum :=
  ⟨by decide +kernel, balances_survive LedgerEnv.calm (nestedForks (System.payee 7)) _
    (eq_ok_of_returned (by decide +kernel)) (by decide +kernel) (System.payee 7)⟩

end Aggregator

end BtcIndexer
