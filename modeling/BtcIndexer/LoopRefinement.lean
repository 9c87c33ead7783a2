import BtcIndexer.Service

/-! The harvester's loop as a party of the service. A call of the loop is a transaction of the
service, one turn for each of its awaits, and whatever else the loop awaits is time that passes:
every run of the loop is a run of the service, with the same calls, tables, channel and lost
messages, and the aggregator's turns may fall anywhere between. -/
namespace BtcIndexer
open Stateful Outbox Rows Machines

def Entry.job? : Entry → Option Job
  | .call job _ _ _ => some job
  | .scanFrom _ _ => none

/-- What a call has sent and not committed. -/
def Entry.wasted : Entry → List AggregatorMsg
  | .call job before after false => (Entry.call job before after false).sent
  | .call _ _ _ true | .scanFrom _ _ => []

namespace Service

/-- The turns of the harvester, of which its loop takes the first four. -/
def Turn.ofLoop : Turn → Bool
  | .call _ | .advance | .commit | .elapse _ => true
  | .drop | .terminate | .deliver | .notify | .finish | .restart => false

def Turn.ofHarvester : Turn → Bool
  | .call _ | .advance | .commit | .elapse _ | .drop | .terminate => true
  | .deliver | .notify | .finish | .restart => false

def Turn.job? : Turn → Option Job
  | .call job => some job
  | .advance | .commit | .elapse _ | .drop | .terminate | .deliver | .notify | .finish
  | .restart => none

/-- The harvester is between two calls, and its messages are received. -/
structure Ready (w : World Store AggregatorMsg) (sys : Service) : Prop where
  world : sys.world = w
  harvesting : sys.harvesting = true
  idle : sys.writing = none
  received : sys.stage ≠ .stopped

section Calls

variable {P : Processor} {env : DbEnv} {ledgerEnv : LedgerEnv} {sys : Service}

theorem faults_received (hgone : ∀ t, env.receiverGone t = false) (hstage : sys.stage ≠ .stopped) :
    faults env sys = env.faults := by
  have hclosed : (fun _ : Nat => decide (sys.stage = .stopped)) = env.receiverGone := by
    funext t
    rw [hgone t, decide_eq_false hstage]
  rw [faults, hclosed]
  rfl

def rolledBack (w : World Store AggregatorMsg) (since : Nat) (sys : Service) : Service :=
  { sys with world := w, writing := none, stray := sys.stray ++ w.channel.drop since }

theorem abandon_of_open {c : OpenCall} (hopen : sys.writing = some c) :
    sys.abandon = sys.rolledBack sys.world c.since := by
  rw [abandon, sentByCall, mark_of_open hopen]
  rfl

theorem advance_ok (hgone : ∀ t, env.receiverGone t = false) (hstage : sys.stage ≠ .stopped)
    {op : ProcessorOp} {rest : List ProcessorOp} {db mid : Store} {since : Nat}
    {w : World Store AggregatorMsg} (hopen : sys.writing = some ⟨db, op :: rest, since⟩)
    (hop : op.run env.faults db sys.world = .ok mid w) :
    step P env ledgerEnv sys .advance =
      some { sys with world := w, writing := some ⟨mid, rest, since⟩ } := by
  simp only [step, Service.advance, hopen, faults_received hgone hstage, hop]

theorem advance_error (hgone : ∀ t, env.receiverGone t = false) (hstage : sys.stage ≠ .stopped)
    {op : ProcessorOp} {rest : List ProcessorOp} {db : Store} {since : Nat} {e : ProcessorError}
    {w : World Store AggregatorMsg} (hopen : sys.writing = some ⟨db, op :: rest, since⟩)
    (hop : op.run env.faults db sys.world = .error e w) :
    step P env ledgerEnv sys .advance = some (sys.rolledBack w since) := by
  simp only [step, Service.advance, hopen, faults_received hgone hstage, hop]
  rw [abandon_of_open rfl]
  rfl

theorem run_advance_ok (hgone : ∀ t, env.receiverGone t = false) {ops : List ProcessorOp}
    {db db' : Store} {since : Nat} {w w' : World Store AggregatorMsg}
    (hops : Outbox.run env.faults ops db w = .ok db' w') (hstage : sys.stage ≠ .stopped)
    (hworld : sys.world = w) (hopen : sys.writing = some ⟨db, ops, since⟩) :
    run (step P env ledgerEnv) (List.replicate ops.length .advance) sys =
      some { sys with world := w', writing := some ⟨db', [], since⟩ } := by
  induction ops generalizing db w sys with
  | nil =>
      cases hops
      subst hworld
      change some sys = some _
      rw [← hopen]
  | cons op rest ih =>
      obtain ⟨mid, w₁, hop, hrest⟩ := bind_eq_ok.mp hops
      subst hworld
      exact run_cons_eq_some.mpr ⟨_, advance_ok hgone hstage hopen hop, ih hrest hstage rfl rfl⟩

/-- The number of awaits up to the one that fails depends on the script and the faults alone. -/
theorem run_advance_error (P : Processor) (ledgerEnv : LedgerEnv)
    (hgone : ∀ t, env.receiverGone t = false) {ops : List ProcessorOp}
    {db : Store} {w w' : World Store AggregatorMsg} {e : ProcessorError}
    (hops : Outbox.run env.faults ops db w = .error e w') :
    ∃ n, ∀ (sys : Service) (since : Nat), sys.stage ≠ .stopped → sys.world = w →
      sys.writing = some ⟨db, ops, since⟩ →
      run (step P env ledgerEnv) (List.replicate n .advance) sys =
        some (sys.rolledBack w' since) := by
  induction ops generalizing db w with
  | nil => cases hops
  | cons op rest ih =>
      rcases bind_eq_error.mp hops with hop | ⟨mid, w₁, hop, hrest⟩
      · refine ⟨1, fun sys since hstage hworld hopen => run_cons_eq_some.mpr ⟨_, ?_, rfl⟩⟩
        subst hworld
        exact advance_error hgone hstage hopen hop
      · obtain ⟨n, hn⟩ := ih hrest
        refine ⟨n + 1, fun sys since hstage hworld hopen => ?_⟩
        subst hworld
        exact run_cons_eq_some.mpr
          ⟨_, advance_ok hgone hstage hopen hop, hn _ since hstage rfl rfl⟩

theorem call_ok {job : Job} {db : Store} {w : World Store AggregatorMsg}
    (hready : Ready sys.world sys) (hbegin : begin env.faults sys.world = .ok db w) :
    step P env ledgerEnv sys (.call job) = some { sys with
      world := w
      writing := some ⟨db, job.ops P env sys.world, sys.world.channel.length⟩ } := by
  simp only [step, Service.call, hready.harvesting, hready.idle, Option.isNone_none, Bool.and_self,
    if_true, hbegin]

theorem call_error {job : Job} {e : ProcessorError} {w : World Store AggregatorMsg}
    (hready : Ready sys.world sys) (hbegin : begin env.faults sys.world = .error e w) :
    step P env ledgerEnv sys (.call job) = some { sys with world := w } := by
  simp only [step, Service.call, hready.harvesting, hready.idle, Option.isNone_none, Bool.and_self,
    if_true, hbegin]

theorem commit_turn_ok (hgone : ∀ t, env.receiverGone t = false) (hstage : sys.stage ≠ .stopped)
    {db : Store} {since : Nat} {w : World Store AggregatorMsg}
    (hopen : sys.writing = some ⟨db, [], since⟩)
    (hcommit : Outbox.commit env.faults db sys.world = .ok () w) :
    step P env ledgerEnv sys .commit = some { sys with world := w, writing := none } := by
  simp only [step, Service.commit, hopen, faults_received hgone hstage, hcommit]

theorem commit_turn_error (hgone : ∀ t, env.receiverGone t = false)
    (hstage : sys.stage ≠ .stopped) {db : Store} {since : Nat} {e : ProcessorError}
    {w : World Store AggregatorMsg} (hopen : sys.writing = some ⟨db, [], since⟩)
    (hcommit : Outbox.commit env.faults db sys.world = .error e w) :
    step P env ledgerEnv sys .commit = some (sys.rolledBack w since) := by
  simp only [step, Service.commit, hopen, faults_received hgone hstage, hcommit]
  rw [abandon_of_open rfl]
  rfl

end Calls

/-- The turns play what the loop did from one state of its own to another. -/
structure Plays (P : Processor) (env : DbEnv) (ledgerEnv : LedgerEnv) (turns : List Turn)
    (entries : List Entry) (w w' : World Store AggregatorMsg) : Prop where
  ofLoop : ∀ turn ∈ turns, turn.ofLoop = true
  jobs : turns.filterMap Turn.job? = entries.filterMap Entry.job?
  reaches : ∀ sys, Ready w sys → ∃ sys', run (step P env ledgerEnv) turns sys = some sys' ∧
    Ready w' sys' ∧ Beside sys sys' ∧ sys'.stray = sys.stray ++ entries.flatMap Entry.wasted

section Plays

variable {P : Processor} {env : DbEnv} {ledgerEnv : LedgerEnv}

theorem Plays.nil (w : World Store AggregatorMsg) : Plays P env ledgerEnv [] [] w w :=
  ⟨nofun, rfl, fun sys hready =>
    ⟨sys, rfl, hready, ⟨rfl, rfl, rfl, rfl⟩, (List.append_nil _).symm⟩⟩

theorem Plays.append {w₁ w₂ w₃ : World Store AggregatorMsg} {turns turns' : List Turn}
    {entries entries' : List Entry} (h : Plays P env ledgerEnv turns entries w₁ w₂)
    (h' : Plays P env ledgerEnv turns' entries' w₂ w₃) :
    Plays P env ledgerEnv (turns ++ turns') (entries ++ entries') w₁ w₃ := by
  refine ⟨?_, ?_, ?_⟩
  · intro turn hturn
    rcases List.mem_append.mp hturn with hturn | hturn
    · exact h.ofLoop turn hturn
    · exact h'.ofLoop turn hturn
  · rw [List.filterMap_append, List.filterMap_append, h.jobs, h'.jobs]
  · intro sys hready
    obtain ⟨mid, hrun, hmid, hbeside, hstray⟩ := h.reaches sys hready
    obtain ⟨sys', hrun', hready', hbeside', hstray'⟩ := h'.reaches mid hmid
    refine ⟨sys', run_append_eq_some.mpr ⟨mid, hrun, hrun'⟩, hready', ?_, ?_⟩
    · exact ⟨hbeside'.received.trans hbeside.received,
        hbeside'.aggregator.trans hbeside.aggregator, hbeside'.stage.trans hbeside.stage,
        hbeside'.unreturned.trans hbeside.unreturned⟩
    · rw [hstray', hstray, List.flatMap_append, List.append_assoc]

theorem Plays.elapse {w w' : World Store AggregatorMsg} (hstore : w'.store = w.store)
    (hchannel : w'.channel = w.channel) : Plays P env ledgerEnv [.elapse w'.clock] [] w w' := by
  refine ⟨by simp [Turn.ofLoop], rfl, ?_⟩
  rintro sys ⟨rfl, hharvesting, hidle, hreceived⟩
  refine ⟨{ sys with world := w' }, run_cons_eq_some.mpr ⟨_, ?_, rfl⟩,
    ⟨rfl, hharvesting, hidle, hreceived⟩, ⟨rfl, rfl, rfl, rfl⟩, (List.append_nil _).symm⟩
  have hworld :
      (⟨sys.world.store, sys.world.channel, w'.clock⟩ : World Store AggregatorMsg) = w' := by
    rw [← hstore, ← hchannel]
  simp only [step, Service.elapse, hharvesting, hidle, Option.isNone_none, Bool.and_self, if_true,
    hworld]

theorem Plays.failed {job : Job} {turns : List Turn} {w w' : World Store AggregatorMsg}
    (hofLoop : ∀ turn ∈ turns, turn.ofLoop = true) (hjobs : turns.filterMap Turn.job? = [job])
    (hruns : ∀ sys, Ready w sys → run (step P env ledgerEnv) turns sys =
      some (sys.rolledBack w' w.channel.length)) :
    Plays P env ledgerEnv turns [.call job w w' false] w w' := by
  refine ⟨hofLoop, hjobs, fun sys hready => ⟨_, hruns sys hready, ?_, ⟨rfl, rfl, rfl, rfl⟩, ?_⟩⟩
  · exact ⟨rfl, hready.harvesting, rfl, hready.received⟩
  · rw [List.flatMap_singleton]
    rfl

theorem replicate_advance (n : Nat) :
    (∀ turn ∈ List.replicate n Turn.advance, turn.ofLoop = true) ∧
      (List.replicate n Turn.advance).filterMap Turn.job? = [] := by
  refine ⟨fun turn hturn => ?_, List.filterMap_replicate_of_none rfl⟩
  rw [List.eq_of_mem_replicate hturn]
  rfl

theorem call_turns (job : Job) (n : Nat) {last : List Turn} (hlast : last = [] ∨ last = [.commit]) :
    (∀ turn ∈ Turn.call job :: (List.replicate n .advance ++ last), turn.ofLoop = true) ∧
      (Turn.call job :: (List.replicate n .advance ++ last)).filterMap Turn.job? = [job] := by
  obtain ⟨hloop, hjobs⟩ := replicate_advance n
  refine ⟨?_, ?_⟩
  · rw [List.forall_mem_cons]
    refine ⟨rfl, fun turn hturn => ?_⟩
    rcases List.mem_append.mp hturn with hturn | hturn
    · exact hloop turn hturn
    · rcases hlast with rfl | rfl
      · cases hturn
      · rw [List.mem_singleton.mp hturn]
        rfl
  · rw [List.filterMap_cons_some (show Turn.job? (.call job) = some job from rfl),
      List.filterMap_append, hjobs]
    rcases hlast with rfl | rfl <;> rfl

/-- One call of the loop, from its opening to its end. -/
theorem Plays.call (P : Processor) (ledgerEnv : LedgerEnv)
    (hgone : ∀ t, env.receiverGone t = false) (job : Job) (w : World Store AggregatorMsg) :
    ∃ turns, Plays P env ledgerEnv turns
      [.call job w (final (job.run P env w)) (returned (job.run P env w))] w
      (final (job.run P env w)) := by
  rw [Job.run_eq]
  cases hbegin : begin env.faults w with
  | error e w₁ =>
      have htransact : transact env.faults (job.ops P env w) w = .error e w₁ :=
        bind_of_error hbegin
      rw [htransact, final_error]
      obtain ⟨hloop, hjobs⟩ := call_turns job 0 (.inl rfl)
      refine ⟨_, Plays.failed hloop hjobs ?_⟩
      rintro sys ⟨rfl, hharvesting, hidle, hreceived⟩
      have hop : (Op.sql .ok : ProcessorOp).run env.faults sys.world.store sys.world =
          .error e w₁ := hbegin
      refine run_cons_eq_some.mpr
        ⟨_, call_error ⟨rfl, hharvesting, hidle, hreceived⟩ hbegin, ?_⟩
      have hstray : sys.stray ++ w₁.channel.drop sys.world.channel.length = sys.stray := by
        rw [(Op.run_error hop).2, List.drop_length, List.append_nil]
      rw [rolledBack, hstray, ← hidle]
      rfl
  | ok db w₁ =>
      obtain ⟨rfl, hw₁⟩ := begin_ok hbegin
      cases hops : Outbox.run env.faults (job.ops P env w) w.store w₁ with
      | error e w₂ =>
          have htransact : transact env.faults (job.ops P env w) w = .error e w₂ :=
            (bind_of_ok hbegin).trans (bind_of_error hops)
          rw [htransact, final_error]
          obtain ⟨n, hn⟩ := run_advance_error P ledgerEnv hgone hops
          obtain ⟨hloop, hjobs⟩ := call_turns job n (.inl rfl)
          refine ⟨_, Plays.failed hloop hjobs ?_⟩
          rintro sys ⟨rfl, hharvesting, hidle, hreceived⟩
          rw [List.append_nil]
          exact run_cons_eq_some.mpr ⟨_, call_ok ⟨rfl, hharvesting, hidle, hreceived⟩ hbegin,
            hn _ _ hreceived rfl rfl⟩
      | ok db' w₂ =>
          have hscript : ∀ sys : Service, Ready w sys → run (step P env ledgerEnv)
              (.call job :: List.replicate (job.ops P env w).length .advance) sys =
                some { sys with world := w₂, writing := some ⟨db', [], w.channel.length⟩ } := by
            rintro sys ⟨rfl, hharvesting, hidle, hreceived⟩
            exact run_cons_eq_some.mpr ⟨_, call_ok ⟨rfl, hharvesting, hidle, hreceived⟩ hbegin,
              run_advance_ok hgone hops hreceived rfl rfl⟩
          obtain ⟨hloop, hjobs⟩ := call_turns job (job.ops P env w).length (.inr rfl)
          cases hcommit : Outbox.commit env.faults db' w₂ with
          | error e w₃ =>
              have htransact : transact env.faults (job.ops P env w) w = .error e w₃ :=
                (bind_of_ok hbegin).trans ((bind_of_ok hops).trans hcommit)
              rw [htransact, final_error]
              refine ⟨_, Plays.failed hloop hjobs fun sys hready => ?_⟩
              rw [← List.cons_append]
              refine run_snoc_eq_some.mpr ⟨_, hscript sys hready, ?_⟩
              refine commit_turn_error hgone ?_ rfl hcommit
              exact hready.received
          | ok _ w₃ =>
              have htransact : transact env.faults (job.ops P env w) w = .ok () w₃ :=
                (bind_of_ok hbegin).trans ((bind_of_ok hops).trans hcommit)
              rw [htransact, final_ok]
              refine ⟨_, hloop, hjobs, fun sys hready => ⟨{ sys with world := w₃, writing := none },
                ?_, ⟨rfl, hready.harvesting, rfl, hready.received⟩, ⟨rfl, rfl, rfl, rfl⟩,
                (List.append_nil _).symm⟩⟩
              rw [← List.cons_append]
              refine run_snoc_eq_some.mpr ⟨_, hscript sys hready, ?_⟩
              refine commit_turn_ok hgone ?_ rfl hcommit
              exact hready.received

end Plays

def Played (P : Processor) (env : DbEnv) (ledgerEnv : LedgerEnv) (h h' : Harvester) : Prop :=
  ∃ turns entries, h'.history = h.history ++ entries ∧
    Plays P env ledgerEnv turns entries h.world h'.world

theorem played_quiet {P : Processor} {env : DbEnv} {ledgerEnv : LedgerEnv} {h h' : Harvester}
    (hhistory : h'.history = h.history) (hworld : h'.world = h.world) :
    Played P env ledgerEnv h h' := by
  refine ⟨[], [], by rw [hhistory, List.append_nil], ?_⟩
  rw [hworld]
  exact Plays.nil h.world

theorem played_respected (P : Processor) {env : DbEnv} (ledgerEnv : LedgerEnv)
    (hgone : ∀ t, env.receiverGone t = false) : Respected P env (Played P env ledgerEnv) where
  refl := fun h => played_quiet rfl rfl
  trans := by
    rintro a b c ⟨xs, es, hes, hxs⟩ ⟨ys, fs, hfs, hys⟩
    exact ⟨xs ++ ys, es ++ fs, by rw [hfs, hes, List.append_assoc], hxs.append hys⟩
  reads := fun h w hstore hchannel _ =>
    ⟨_, [], (List.append_nil _).symm, Plays.elapse hstore hchannel⟩
  bounds := fun h first last => played_quiet rfl rfl
  cursor := fun h block => played_quiet rfl rfl
  scanned := fun h block => by
    refine ⟨[], _, rfl, nofun, rfl, fun sys hready => ⟨sys, rfl, hready, ⟨rfl, rfl, rfl, rfl⟩, ?_⟩⟩
    exact (List.append_nil _).symm
  job := fun job h => by
    obtain ⟨turns, hplays⟩ := Plays.call P ledgerEnv hgone job h.world
    simp only [runJob]
    cases hrun : job.run P env h.world with
    | ok a w =>
        rw [hrun] at hplays
        exact ⟨turns, _, rfl, hplays⟩
    | error e w =>
        rw [hrun] at hplays
        exact ⟨turns, _, rfl, hplays⟩

/-- The harvester's side of one state beside the aggregator's side of another. -/
def besideOf (t sys : Service) : Service :=
  { sys with
    received := t.received
    aggregator := t.aggregator
    stage := t.stage
    unreturned := t.unreturned }

@[simp] theorem besideOf_world (t sys : Service) : (t.besideOf sys).world = sys.world := rfl
@[simp] theorem besideOf_harvesting (t sys : Service) :
    (t.besideOf sys).harvesting = sys.harvesting := rfl
@[simp] theorem besideOf_writing (t sys : Service) : (t.besideOf sys).writing = sys.writing := rfl

section Sides

variable {P : Processor} {env : DbEnv} {ledgerEnv : LedgerEnv} {sys sys' t : Service} {turn : Turn}

theorem faults_besideOf (hsys : sys.stage ≠ .stopped) (ht : t.stage ≠ .stopped) :
    faults env (t.besideOf sys) = faults env sys := by
  have hclosed : (fun _ : Nat => decide (t.stage = .stopped)) =
      fun _ => decide (sys.stage = .stopped) := by
    rw [decide_eq_false ht, decide_eq_false hsys]
  exact congrArg (fun closed => { env.faults with closed := closed }) hclosed

/-- The harvester does not see the aggregator's side while its messages are received. -/
theorem step_besideOf (hsys : sys.stage ≠ .stopped) (ht : t.stage ≠ .stopped)
    (hturn : turn.ofHarvester = true) (hstep : sys.step P env ledgerEnv turn = some sys') :
    (t.besideOf sys).step P env ledgerEnv turn = some (t.besideOf sys') := by
  have hfaults : faults env (t.besideOf sys) = faults env sys := faults_besideOf hsys ht
  cases turn with
  | call job =>
      simp only [step, Service.call, besideOf_world, besideOf_harvesting, besideOf_writing]
        at hstep ⊢
      split at hstep
      · next hfree =>
          refine (if_pos hfree).trans ?_
          cases hbegin : begin env.faults sys.world with
          | ok db w =>
              rw [hbegin] at hstep
              cases hstep
              rfl
          | error e w =>
              rw [hbegin] at hstep
              cases hstep
              rfl
      · cases hstep
  | advance =>
      simp only [step, Service.advance, besideOf_world, besideOf_writing, hfaults] at hstep ⊢
      split at hstep
      · next db op rest since hopen =>
          rw [hopen]
          cases hop : op.run (faults env sys) db sys.world with
          | ok db' w =>
              rw [hop] at hstep
              cases hstep
              rfl
          | error e w =>
              rw [hop] at hstep
              cases hstep
              rw [← hopen]
              rfl
      · cases hstep
  | commit =>
      simp only [step, Service.commit, besideOf_world, besideOf_writing, hfaults] at hstep ⊢
      split at hstep
      · next db since hopen =>
          rw [hopen]
          cases hcommit : Outbox.commit (faults env sys) db sys.world with
          | ok _ w =>
              rw [hcommit] at hstep
              cases hstep
              rfl
          | error e w =>
              rw [hcommit] at hstep
              cases hstep
              rw [← hopen]
              rfl
      · cases hstep
  | elapse clock =>
      simp only [step, Service.elapse, besideOf_world, besideOf_harvesting, besideOf_writing]
        at hstep ⊢
      split at hstep
      · next hfree =>
          refine (if_pos hfree).trans ?_
          cases hstep
          rfl
      · cases hstep
  | drop =>
      simp only [step, besideOf_writing] at hstep ⊢
      split at hstep
      · next hopen =>
          refine (if_pos hopen).trans ?_
          cases hstep
          rfl
      · cases hstep
  | terminate =>
      simp only [step, besideOf_harvesting] at hstep ⊢
      split at hstep
      · next hrunning =>
          refine (if_pos hrunning).trans ?_
          cases hstep
          rfl
      · cases hstep
  | deliver | notify | finish | restart => cases hturn

theorem across_of_turn (hturn : turn.ofHarvester = false) (hrestart : turn ≠ .restart)
    (hstep : sys.step P env ledgerEnv turn = some sys') : Across sys sys' := by
  cases turn with
  | deliver => exact (deliver_stage hstep).2.1
  | notify =>
      simp only [step, notify] at hstep
      split at hstep
      · cases hstep
        exact ⟨rfl, rfl, rfl, rfl⟩
      · cases hstep
  | finish =>
      simp only [step, finish] at hstep
      split at hstep
      · cases hstep
        exact ⟨rfl, rfl, rfl, rfl⟩
      · cases hstep
  | restart => exact absurd rfl hrestart
  | call job => cases hturn
  | elapse clock => cases hturn
  | advance | commit | drop | terminate => cases hturn

theorem besideOf_across (h : Across sys sys') : t.besideOf sys' = t.besideOf sys := by
  simp only [besideOf, h.world, h.harvesting, h.writing, h.stray]

/-- One process whose aggregator is not over. -/
def Receiving (sys : Service) (turn : Turn) : Prop := sys.stage ≠ .stopped ∧ turn ≠ .restart

instance (sys : Service) (turn : Turn) : Decidable (Receiving sys turn) :=
  inferInstanceAs (Decidable (_ ∧ _))

/-- The harvester's turns, made alone, lead its side where it gets among the aggregator's. -/
theorem run_besideOf {turns : List Turn} (ht : t.stage ≠ .stopped)
    (hreceiving : Along (step P env ledgerEnv) Receiving turns sys)
    (hrun : run (step P env ledgerEnv) turns sys = some sys') :
    run (step P env ledgerEnv) (turns.filter Turn.ofHarvester) (t.besideOf sys) =
      some (t.besideOf sys') := by
  have hmine : ∀ s u move s', Receiving s move → move.ofHarvester = true → u = t.besideOf s →
      step P env ledgerEnv s move = some s' →
        ∃ u', step P env ledgerEnv u move = some u' ∧ u' = t.besideOf s' := by
    rintro s _ move s' hrec hmove rfl hstep
    exact ⟨_, step_besideOf hrec.1 ht hmove hstep, rfl⟩
  have hother : ∀ s u move s', Receiving s move → move.ofHarvester = false → u = t.besideOf s →
      step P env ledgerEnv s move = some s' → u = t.besideOf s' := by
    rintro s _ move s' hrec hmove rfl hstep
    exact (besideOf_across (across_of_turn hmove hrec.2 hstep)).symm
  obtain ⟨_, hfiltered, rfl⟩ := Along.filter hmine hother hreceiving rfl hrun
  exact hfiltered

end Sides

structure Matches (w : World Store AggregatorMsg) (entries : List Entry) (sys sys' : Service) :
    Prop where
  world : sys'.world = w
  harvesting : sys'.harvesting = true
  idle : sys'.writing = none
  stray : sys'.stray = sys.stray ++ entries.flatMap Entry.wasted

/-- Every run of the loop, whatever its commands, failures and rounds cut short, is a run of the
service: turns that depend on the loop alone make the same calls and leave the same tables, the
same channel and the same lost messages, and so they do wherever the turns of an aggregator that
goes on receiving fall between them. -/
theorem loop_refined (P : Processor) (node : Node) (env : DbEnv) (ledgerEnv : LedgerEnv)
    (rounds : List BtcIndexer.Turn) (h : Harvester) (hgone : ∀ t, env.receiverGone t = false) :
    ∃ turns entries,
      (final (start P node env rounds h)).history = h.history ++ entries ∧
      (∀ turn ∈ turns, turn.ofLoop = true) ∧
      turns.filterMap Turn.job? = entries.filterMap Entry.job? ∧
      ∀ sys, Ready h.world sys →
        (∃ sys', run (step P env ledgerEnv) turns sys = some sys' ∧ Beside sys sys' ∧
          Matches (final (start P node env rounds h)).world entries sys sys') ∧
        ∀ among sys', among.filter Turn.ofHarvester = turns →
          Along (step P env ledgerEnv) Receiving among sys →
          run (step P env ledgerEnv) among sys = some sys' →
          Matches (final (start P node env rounds h)).world entries sys sys' := by
  obtain ⟨turns, entries, hhistory, hplays⟩ :=
    (played_respected P ledgerEnv hgone).start rounds h
  refine ⟨turns, entries, hhistory, hplays.ofLoop, hplays.jobs, fun sys hready => ?_⟩
  obtain ⟨alone, hrun, hend, hbeside, hstray⟩ := hplays.reaches sys hready
  have hmatches : Matches (final (start P node env rounds h)).world entries sys alone :=
    ⟨hend.world, hend.harvesting, hend.idle, hstray⟩
  refine ⟨⟨alone, hrun, hbeside, hmatches⟩, fun among sys' hfilter hreceiving hamong => ?_⟩
  have hself : sys.besideOf sys = sys := rfl
  have hfiltered := run_besideOf hready.received hreceiving hamong
  rw [hfilter, hself, hrun] at hfiltered
  cases hfiltered
  exact ⟨hmatches.world, hmatches.harvesting, hmatches.idle, hmatches.stray⟩

/-- The commit that fails after the event of its block is out, and the retry, as turns. -/
theorem retriedRun_refined : ∃ turns sys',
    run (step Processor.mainnet (failsAt 17) LedgerEnv.calm) turns new = some sys' ∧
      sys'.world.store.blocks.map BlockRow.number = [1, 2] ∧ sys'.stray.length = 1 := by
  obtain ⟨turns, entries, hhistory, _, _, hmatched⟩ := loop_refined Processor.mainnet
    (Node.ofBlocks paidChain) (failsAt 17) LedgerEnv.calm [.harvest 5, .harvest 5] freshHarvester
    fun _ => rfl
  obtain ⟨⟨sys', hrun, _, hmatches⟩, _⟩ := hmatched new ⟨rfl, rfl, rfl, nofun⟩
  have hend : final (start Processor.mainnet (Node.ofBlocks paidChain) (failsAt 17)
      [.harvest 5, .harvest 5] freshHarvester) = retriedRun := rfl
  rw [hend] at hhistory hmatches
  have hentries : retriedRun.history = entries := hhistory
  refine ⟨turns, sys', hrun, ?_, ?_⟩
  · rw [hmatches.world]
    decide +kernel
  · rw [hmatches.stray, ← hentries]
    decide +kernel

end Service

end BtcIndexer
