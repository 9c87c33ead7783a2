import BtcIndexer.ForkReplay

/-! The hand-off to the aggregator, call by call. Messages leave with the statements of the
database transaction they belong to, and nothing recalls them: a call that fails after its first
message is out has sent what its tables do not have. -/
namespace BtcIndexer
open Stateful Outbox Rows

/-- The script of a call that starts in the given world. -/
def Job.ops (P : Processor) (env : DbEnv) (w : World Store AggregatorMsg) :
    Job → List ProcessorOp
  | .first block | .next block => P.blockOps (env.hashOrder w.clock 0) block w.store
  | .fork blocks => P.forkOps (env.hashOrder w.clock) blocks w.store

theorem Job.run_eq (P : Processor) (env : DbEnv) (job : Job) (w : World Store AggregatorMsg) :
    job.run P env w = transact env.faults (job.ops P env w) w := by
  cases job with
  | first block => exact P.process_eq env block w
  | next block => exact P.process_eq env block w
  | fork blocks => exact P.processFork_eq env blocks w

namespace Entry

/-- The entry records what the call really did. -/
def Sound (P : Processor) (env : DbEnv) : Entry → Prop
  | .call job before after committed =>
      after = final (job.run P env before) ∧ committed = returned (job.run P env before)
  | .scanFrom _ _ => True

def sent : Entry → List AggregatorMsg
  | .call _ before after _ => after.channel.drop before.channel.length
  | .scanFrom _ _ => []

/-- What a call is to hand over: all the messages of its script if it commits, else none. -/
def owed (P : Processor) (env : DbEnv) : Entry → List AggregatorMsg
  | .call job before _ true => messages (job.ops P env before)
  | .call _ _ _ false => []
  | .scanFrom _ _ => []

/-- A statement, the commit or an await of the call fails after its first message is out. -/
def LateFault (P : Processor) (env : DbEnv) : Entry → Prop
  | .call job before _ _ =>
      Outbox.LateFault env.faults (bracket (job.ops P env before)) before.store before
  | .scanFrom _ _ => False

theorem Sound.committed {P : Processor} {env : DbEnv} {job : Job}
    {before after : World Store AggregatorMsg}
    (h : (Entry.call job before after true).Sound P env) :
    transact env.faults (job.ops P env before) before = .ok () after := by
  obtain ⟨hafter, hok⟩ := h
  rw [← Job.run_eq, eq_ok_of_returned hok.symm, ← hafter]

theorem Sound.failed {P : Processor} {env : DbEnv} {job : Job}
    {before after : World Store AggregatorMsg}
    (h : (Entry.call job before after false).Sound P env) :
    ∃ e, transact env.faults (job.ops P env before) before = .error e after := by
  obtain ⟨hafter, hfailed⟩ := h
  rw [Job.run_eq] at hafter hfailed
  cases hrun : transact env.faults (job.ops P env before) before with
  | ok a w => rw [hrun] at hfailed; cases hfailed
  | error e w =>
      rw [hrun] at hafter
      cases hafter
      exact ⟨e, rfl⟩

theorem Sound.sent_prefix {P : Processor} {env : DbEnv} {job : Job} {committed : Bool}
    {before after : World Store AggregatorMsg}
    (h : (Entry.call job before after committed).Sound P env) :
    after.channel = before.channel ++ (Entry.call job before after committed).sent := by
  have hgrows : ∃ ms, after.channel = before.channel ++ ms := by
    cases committed with
    | true => exact ⟨_, (transact_ok h.committed).2⟩
    | false =>
        obtain ⟨e, hrun⟩ := h.failed
        exact transact_error_prefix hrun
  obtain ⟨ms, hms⟩ := hgrows
  rw [sent, hms, List.drop_left]

theorem Sound.late_iff {P : Processor} {env : DbEnv} {job : Job}
    {before after : World Store AggregatorMsg}
    (h : (Entry.call job before after false).Sound P env) :
    after.channel = before.channel ↔
      ¬ (Entry.call job before after false).LateFault P env := by
  obtain ⟨e, hrun⟩ := h.failed
  exact transact_error_channel hrun

end Entry

/-- The channel grows by what the recorded calls send. -/
def Accounts (P : Processor) (env : DbEnv) (h h' : Harvester) : Prop :=
  ∃ entries, h'.history = h.history ++ entries ∧
    h'.world.channel = h.world.channel ++ entries.flatMap Entry.sent ∧
    (∀ e ∈ entries, e.Sound P env) ∧
    ∀ earlier job before after committed,
      entries = earlier ++ [.call job before after committed] →
        before.channel = h.world.channel ++ earlier.flatMap Entry.sent

theorem accounts_quiet {P : Processor} {env : DbEnv} {h h' : Harvester}
    (hhistory : h'.history = h.history) (hchannel : h'.world.channel = h.world.channel) :
    Accounts P env h h' :=
  ⟨[], by simpa using hhistory, by simpa using hchannel, by simp, by simp⟩

theorem accounts_job (P : Processor) (env : DbEnv) (job : Job) :
    Moves (Accounts P env) (runJob P env job) := by
  have hone : ∀ h w committed, (Entry.call job h.world w committed).Sound P env →
      Accounts P env h
        { h with world := w, history := h.history ++ [.call job h.world w committed] } := by
    intro h w committed hs
    refine ⟨[.call job h.world w committed], rfl, by simpa using hs.sent_prefix,
      by simpa using hs, ?_⟩
    intro earlier job' before after committed' hlast
    cases earlier with
    | nil =>
        cases hlast
        simp
    | cons e rest => simp at hlast
  intro h
  simp only [runJob]
  cases hrun : job.run P env h.world with
  | ok a w => exact hone h w true ⟨by rw [hrun]; rfl, by rw [hrun]; rfl⟩
  | error e w => exact hone h w false ⟨by rw [hrun]; rfl, by rw [hrun]; rfl⟩

theorem accounts_respected (P : Processor) (env : DbEnv) :
    Respected P env (Accounts P env) where
  refl := fun h => accounts_quiet rfl rfl
  trans := by
    rintro a b c ⟨xs, hxh, hxc, hxs, hxlast⟩ ⟨ys, hyh, hyc, hys, hylast⟩
    refine ⟨xs ++ ys, by rw [hyh, hxh, List.append_assoc], ?_, ?_, ?_⟩
    · rw [hyc, hxc, List.flatMap_append, List.append_assoc]
    · intro e he
      rcases List.mem_append.mp he with he | he
      · exact hxs e he
      · exact hys e he
    · intro earlier job before after committed hlast
      rcases List.eq_nil_or_concat ys with rfl | ⟨init, e, rfl⟩
      · exact hxlast earlier job before after committed (by simpa using hlast)
      · rw [List.concat_eq_append, ← List.append_assoc] at hlast
        obtain ⟨rfl, hentry⟩ := List.append_inj' hlast rfl
        cases hentry
        rw [hylast init job before after committed (List.concat_eq_append ..), hxc,
          List.flatMap_append, List.append_assoc]
  reads := fun h w _ hchannel _ => accounts_quiet rfl hchannel
  bounds := fun h first last => accounts_quiet rfl rfl
  cursor := fun h block => accounts_quiet rfl rfl
  scanned := fun h block => by
    refine ⟨[.scanFrom block h.world], rfl, by simp [Entry.sent], by simp [Entry.Sound], ?_⟩
    intro earlier job before after committed hlast
    cases earlier with
    | nil => cases hlast
    | cons e rest => simp at hlast
  job := accounts_job P env

def paidChain : List BlockInfo :=
  [blockAt 101 1 100 [coinbaseTx 1 []],
    blockAt 102 2 101 [coinbaseTx 2 [], spendingTx 3 9 [payTaproot 7 50]]]

/-- Tick 17 is the commit of block 2 in the first round. -/
def failsAt (tick : Nat) : DbEnv := { DbEnv.calm with sqlFails := fun t => t == tick }

def freshHarvester : Harvester := Harvester.new ⟨Store.empty, [], 0⟩ (some 1) none

def retriedRun : Harvester :=
  final (start Processor.mainnet (Node.ofBlocks paidChain) (failsAt 17)
    [.harvest 5, .harvest 5] freshHarvester)

end BtcIndexer
