import BtcIndexer.FixedChain

/-! Commands that arrive in the middle of a round. The round is dropped at the await it has
reached: an open transaction is rolled back, and a commit under way may take effect or not. The
cursor is a field of the harvester and stays as it was at that await, so it can differ from what
the tables then hold. -/
namespace BtcIndexer
open Stateful Outbox Rows

/-- The block is stored and nothing is stored above it. -/
def Store.Tops (s : Store) (block : BlockInfo) : Prop :=
  block.header.hash ∈ s.blocks.map BlockRow.hash ∧
    ∀ row ∈ s.blocks, row.number ≤ block.header.height

instance (s : Store) (block : BlockInfo) : Decidable (s.Tops block) :=
  inferInstanceAs (Decidable (_ ∧ ∀ row ∈ s.blocks, _))

/-- The cursor is the highest stored block, or there is none yet. -/
def Harvester.Synced (h : Harvester) : Prop :=
  ∀ block, h.lastProcessedBlock = some block → h.world.store.Tops block

/-- The await of this tick is the one a command arrives at. -/
def DbEnv.cutAt (env : DbEnv) (tick : Nat) : DbEnv :=
  { env with interrupted := fun t => t == tick }

/-- The call that a drop at this tick cut off at its commit, with the worlds before it and after
the commit. -/
def landing (P : Processor) (env : DbEnv) (tick : Nat) (h : Harvester) :
    Option (Job × World Store AggregatorMsg × World Store AggregatorMsg) :=
  match h.history.getLast? with
  | some (.call job before after false) =>
      match job.run P env.attended before with
      | .ok _ w =>
          if after.clock = tick + 1 ∧ w.clock = tick + 1 then some (job, before, w) else none
      | .error _ _ => none
  | some (.call _ _ _ true) | some (.scanFrom _ _) | none => none

/-- The dropped commit takes effect. The harvester itself is as it was. -/
def land (P : Processor) (env : DbEnv) (tick : Nat) (h : Harvester) : Harvester :=
  match landing P env tick h with
  | some (job, before, w) =>
      { h with world := w, history := h.history.dropLast ++ [.call job before w true] }
  | none => h

/-- What the loop of the service goes through. -/
inductive Moment where
  /-- A round that ends by itself. -/
  | round (fuel : Nat)
  /-- A command between two rounds. -/
  | between (command : Command)
  /-- A command that drops a round at an await, and whether a commit under way takes effect. -/
  | dropped (fuel await : Nat) (lands : Bool) (command : Command)
  deriving DecidableEq, Repr

def cutRound (P : Processor) (node : Node) (env : DbEnv) (fuel await : Nat) (lands : Bool) :
    HarvesterM Unit := do
  let h ← get
  harvestRetrying P node (env.cutAt (h.world.clock + await)) fuel
  if lands then
    modify (land P env (h.world.clock + await))

namespace Moment

def run (P : Processor) (node : Node) (env : DbEnv) : Moment → HarvesterM Unit
  | .round fuel => harvestRetrying P node env.attended fuel
  | .between command => obey node env command
  | .dropped fuel await lands command => do
      cutRound P node env fuel await lands
      obey node env command

def ends : Moment → Bool
  | .between .terminate | .dropped _ _ _ .terminate => true
  | .between (.scanBlock _ _) | .between .pause | .between .autoScan => false
  | .dropped _ _ _ (.scanBlock _ _) | .dropped _ _ _ .pause | .dropped _ _ _ .autoScan => false
  | .round _ => false

end Moment

def live (P : Processor) (node : Node) (env : DbEnv) : List Moment → HarvesterM Unit
  | [] => pure ()
  | moment :: rest => do
      moment.run P node env
      if moment.ends then pure () else live P node env rest

def Entry.through : Entry → Bool
  | .call (.first _) _ _ committed => committed
  | .call (.next _) _ _ _ | .call (.fork _) _ _ _ | .scanFrom _ _ => true

/-- Every first block that was handed over was committed. -/
def Harvester.Through (h : Harvester) : Prop := h.history.all Entry.through = true

instance (h : Harvester) : Decidable h.Through := inferInstanceAs (Decidable (_ = true))

/-- The commit that takes effect after the drop is that of a block the cursor is not at. -/
def Overtakes (P : Processor) (env : DbEnv) (tick : Nat) (h : Harvester) : Prop :=
  match landing P env tick h with
  | some (.next _, _) | some (.fork _, _) => True
  | some (.first _, _) | none => False

instance (P : Processor) (env : DbEnv) (tick : Nat) (h : Harvester) :
    Decidable (Overtakes P env tick h) :=
  match hlands : landing P env tick h with
  | some (.next _, _) | some (.fork _, _) => .isTrue (by simp [Overtakes, hlands])
  | some (.first _, _) | none => .isFalse (by simp [Overtakes, hlands])

/-- A scan by command finds its block stored, and nothing above it. -/
def Command.Safe (node : Node) (env : DbEnv) (h : Harvester) : Command → Prop
  | .scanBlock first _ =>
      match node.scanBlock env.attended first h.world with
      | .ok block _ => h.world.store.Tops block
      | .error _ _ => True
  | .pause | .autoScan | .terminate => True

instance (node : Node) (env : DbEnv) (h : Harvester) (command : Command) :
    Decidable (command.Safe node env h) :=
  match command with
  | .scanBlock first _ =>
      match hscan : node.scanBlock env.attended first h.world with
      | .ok block _ => decidable_of_iff (h.world.store.Tops block) (by simp [Command.Safe, hscan])
      | .error _ _ => .isTrue (by simp [Command.Safe, hscan])
  | .pause | .autoScan | .terminate => .isTrue trivial

/-- The first block, if this moment hands one over, is committed, no other commit takes effect
after a drop, and the command is safe. -/
def Moment.Safe (P : Processor) (node : Node) (env : DbEnv) (h : Harvester) : Moment → Prop
  | .round fuel => (final (harvestRetrying P node env.attended fuel h)).Through
  | .between command => command.Safe node env h
  | .dropped fuel await lands command =>
      (lands = true → ¬ Overtakes P env (h.world.clock + await)
        (final (harvestRetrying P node (env.cutAt (h.world.clock + await)) fuel h))) ∧
      (final (cutRound P node env fuel await lands h)).Through ∧
      command.Safe node env (final (cutRound P node env fuel await lands h))

instance (P : Processor) (node : Node) (env : DbEnv) (h : Harvester) (moment : Moment) :
    Decidable (moment.Safe P node env h) :=
  match moment with
  | .round fuel =>
      inferInstanceAs (Decidable (final (harvestRetrying P node env.attended fuel h)).Through)
  | .between command => inferInstanceAs (Decidable (command.Safe node env h))
  | .dropped fuel await lands command => inferInstanceAs (Decidable
      ((lands = true → ¬ Overtakes P env (h.world.clock + await)
        (final (harvestRetrying P node (env.cutAt (h.world.clock + await)) fuel h))) ∧
      (final (cutRound P node env fuel await lands h)).Through ∧
      command.Safe node env (final (cutRound P node env fuel await lands h))))

def AllSafe (P : Processor) (node : Node) (env : DbEnv) : List Moment → Harvester → Prop
  | [], _ => True
  | moment :: rest, h => moment.Safe P node env h ∧
      (moment.ends = false → AllSafe P node env rest (final (moment.run P node env h)))

instance AllSafe.decidable (P : Processor) (node : Node) (env : DbEnv) :
    (moments : List Moment) → (h : Harvester) → Decidable (AllSafe P node env moments h)
  | [], _ => .isTrue trivial
  | moment :: rest, h =>
      have := AllSafe.decidable P node env rest (final (moment.run P node env h))
      inferInstanceAs (Decidable (moment.Safe P node env h ∧ (moment.ends = false →
        AllSafe P node env rest (final (moment.run P node env h)))))

/-- What holds at every await of a round: cursor and tables are in step if no first block was
left uncommitted, and a first block that the last call left so is the cursor, above all rows. -/
structure InStep (h : Harvester) : Prop where
  synced : h.Through → h.Synced
  pending : ∀ block before after,
    h.history.getLast? = some (.call (.first block) before after false) →
      h.lastProcessedBlock = some block ∧ block.txdata ≠ [] ∧
        ∀ row ∈ before.store.blocks, row.number < block.header.height

theorem through_snoc {history : List Entry} {entry : Entry} :
    (history ++ [entry]).all Entry.through = true ↔
      history.all Entry.through = true ∧ entry.through = true := by
  simp

theorem InStep.recorded {k : Harvester} {history : List Entry} {entry : Entry}
    (hhistory : k.history = history ++ [entry])
    (hsettled : ∀ block before after, entry ≠ .call (.first block) before after false)
    (hsynced : history.all Entry.through = true → k.Synced) : InStep k where
  synced hthrough := by
    unfold Harvester.Through at hthrough
    rw [hhistory] at hthrough
    exact hsynced (through_snoc.mp hthrough).1
  pending := by
    intro block before after hlast
    rw [hhistory, List.getLast?_concat] at hlast
    exact absurd (Option.some.inj hlast) (hsettled block before after)

section Steps

variable {P : Processor} {node : Node} {env : DbEnv} {since : Nat}

theorem Processor.Indexed.tops {block : BlockInfo} {s s' : Store} (h : P.Indexed block s s')
    (htxs : block.txdata ≠ []) (hbelow : ∀ row ∈ s.blocks, row.number ≤ block.header.height) :
    s'.Tops block := by
  refine ⟨?_, fun row hrow => ?_⟩
  · rcases h.stored htxs with ⟨hsame, hmem⟩ | ⟨_, timestamp, hnew⟩
    · exact hsame ▸ hmem
    · rw [hnew]
      exact List.mem_map_of_mem (List.mem_append_right _ List.mem_cons_self)
  · rcases h.row_cases hrow with hold | ⟨_, hnumber, _⟩
    · exact hbelow row hold
    · exact Nat.le_of_eq hnumber

theorem processFork_tops {block : BlockInfo} {blocks : List BlockInfo}
    {w w' : World Store AggregatorMsg} (hnode : node.Consistent)
    (hwalk : Walked node w.store block blocks) (hseen : node.Seen block) (hne : blocks ≠ [])
    (hbelow : ∀ row ∈ w.store.blocks, row.number ≤ block.header.height)
    (h : P.processFork env blocks w = .ok () w') : w'.store.Tops block := by
  have hlast := List.getLast?_eq_some_getLast hne
  obtain ⟨rest, hrest⟩ := hwalk.head hne
  have hhead : block ∈ blocks := hrest ▸ List.mem_cons_self
  obtain ⟨own, hown, hhash, _⟩ := Processor.processFork_row hnode hwalk hseen hlast h hhead
  refine ⟨hhash ▸ List.mem_map_of_mem hown, fun row hrow => ?_⟩
  rcases Processor.processFork_rows hnode hwalk hseen hlast h hrow with
    ⟨hold, _⟩ | ⟨b, hb, _, hnumber, _⟩
  · exact hbelow row hold
  · rw [hnumber]
    exact (hwalk.member hnode hseen hb).2.2

/-- Every step of a round keeps cursor and tables in step, dropped or not. -/
theorem inStep_stepwise (hnode : node.Consistent) : Stepwise P node env since InStep where
  steady := by
    intro h w hstore _ _ hstep
    refine ⟨fun hthrough block hblock => ?_, hstep.pending⟩
    have htops := hstep.synced hthrough block hblock
    change w.store.Tops block
    rw [hstore]
    exact htops
  first := by
    intro h desired block w committed hstep _ _ hshows hsound
    have habove := hshows.above
    refine ⟨fun hthrough other hother => ?_, fun other before after hpending => ?_⟩
    · cases hother
      have hcommitted : committed = true := (through_snoc.mp hthrough).2
      subst hcommitted
      exact hsound.indexed.tops hshows.seen.txdata fun row hrow => Nat.le_of_lt (habove row hrow)
    · have hentry : some (Entry.call (.first block) h.world w committed) =
          some (.call (.first other) before after false) :=
        (List.getLast?_concat ..).symm.trans hpending
      cases hentry
      exact ⟨rfl, hshows.seen.txdata, habove⟩
  next := by
    intro h prevBlock block w hstep hcursor hshows hprev hrun
    refine InStep.recorded rfl (fun _ _ _ hentry => by cases hentry) fun hthrough other hother => ?_
    cases hother
    have htops := hstep.synced hthrough prevBlock hcursor
    have hindexed : P.Indexed block h.world.store w.store := Processor.process_ok hrun
    have hheight := hshows.height
    refine hindexed.tops hshows.seen.txdata fun row hrow => ?_
    have hle := htops.2 row hrow
    omega
  fork := by
    intro h prevBlock block blocks w hstep hcursor hshows _ hwalk hne hrun
    refine InStep.recorded rfl (fun _ _ _ hentry => by cases hentry) fun hthrough other hother => ?_
    cases hother
    have htops := hstep.synced hthrough prevBlock hcursor
    have hheight := hshows.height
    refine processFork_tops hnode hwalk hshows.seen hne (fun row hrow => ?_) hrun
    have hle := htops.2 row hrow
    omega
  failed := by
    intro h job e w hstep hlater _ hrun
    refine InStep.recorded rfl (fun other _ _ hentry => ?_) fun hthrough block hblock => ?_
    · cases hentry
      exact hlater other rfl
    · have htops := hstep.synced hthrough block hblock
      change w.store.Tops block
      rw [Job.run_error hrun]
      exact htops

theorem landing_eq_some {tick : Nat} {h : Harvester} {job : Job}
    {before w : World Store AggregatorMsg}
    (hlands : landing P env tick h = some (job, before, w)) :
    ∃ after, h.history.getLast? = some (.call job before after false) ∧
      job.run P env.attended before = .ok () w := by
  unfold landing at hlands
  split at hlands
  · next job' before' after hlast =>
      split at hlands
      · next a w' hrun =>
          split at hlands
          · cases hlands
            exact ⟨after, hlast, hrun⟩
          · cases hlands
      · cases hlands
  all_goals cases hlands

/-- A commit that takes effect after the drop is the pending one of the cursor, or none at all. -/
theorem land_inStep {tick : Nat} {h : Harvester} (hstep : InStep h)
    (hnot : ¬ Overtakes P env tick h) : InStep (land P env tick h) := by
  unfold Overtakes at hnot
  unfold land
  cases hlands : landing P env tick h with
  | none => exact hstep
  | some entry =>
      obtain ⟨job, before, w⟩ := entry
      rw [hlands] at hnot
      cases job with
      | next block => exact absurd trivial hnot
      | fork blocks => exact absurd trivial hnot
      | first block =>
          obtain ⟨after, hlast, hrun⟩ := landing_eq_some hlands
          obtain ⟨hcursor, htxs, habove⟩ := hstep.pending block before after hlast
          have hindexed : P.Indexed block before.store w.store := Processor.process_ok hrun
          refine InStep.recorded rfl (fun _ _ _ hentry => by cases hentry) fun _ other hother => ?_
          have hsame : some other = some block := hother.symm.trans hcursor
          cases hsame
          exact hindexed.tops htxs fun row hrow => Nat.le_of_lt (habove row hrow)

theorem obey_inStep {command : Command} {h k : Harvester} (hstep : InStep h)
    (hthrough : h.Through) (hsafe : command.Safe node env h)
    (hrun : obey node env command h = .ok () k) : InStep k ∧ k.Through := by
  cases command with
  | terminate =>
      cases hrun
      exact ⟨hstep, hthrough⟩
  | pause =>
      cases hrun
      exact ⟨⟨hstep.synced, hstep.pending⟩, hthrough⟩
  | autoScan =>
      cases hrun
      exact ⟨⟨hstep.synced, hstep.pending⟩, hthrough⟩
  | scanBlock first last =>
      rw [obey_scanBlock_apply] at hrun
      have hsafe : match node.scanBlock env.attended first h.world with
          | .ok block _ => h.world.store.Tops block
          | .error _ _ => True := hsafe
      cases hscan : node.scanBlock env.attended first h.world with
      | error e w => rw [hscan] at hrun; cases hrun
      | ok block w =>
          rw [hscan] at hrun hsafe
          cases hrun
          obtain ⟨hstore, _⟩ := (scanBlock_reads node env.attended first).of_ok hscan
          refine ⟨InStep.recorded rfl (fun _ _ _ hentry => by cases hentry)
            fun _ other hother => ?_, through_snoc.mpr ⟨hthrough, rfl⟩⟩
          cases hother
          change w.store.Tops block
          rw [hstore]
          exact hsafe

theorem round_inStep (hnode : node.Consistent) {fuel : Nat} {h : Harvester} (hstep : InStep h) :
    InStep (final (harvestRetrying P node env fuel h)) := by
  have hguard : Guarded P node env 0 (fun h => 0 ≤ h.world.clock ∧ InStep h) :=
    (inStep_stepwise hnode).timed
  exact ((hguard.harvestRetrying hnode fuel).final ⟨Nat.zero_le _, hstep⟩).2

theorem cutRound_inStep (hnode : node.Consistent) {fuel await : Nat} {lands : Bool}
    {h k : Harvester} (hstep : InStep h)
    (hnot : lands = true → ¬ Overtakes P env (h.world.clock + await)
      (final (harvestRetrying P node (env.cutAt (h.world.clock + await)) fuel h)))
    (hrun : cutRound P node env fuel await lands h = .ok () k) : InStep k := by
  obtain ⟨_, _, hget, hrest⟩ := bind_eq_ok.mp hrun
  cases hget
  obtain ⟨_, k₁, hround, hlast⟩ := bind_eq_ok.mp hrest
  have hstep₁ :
      InStep (final (harvestRetrying P node (env.cutAt (h.world.clock + await)) fuel h)) :=
    round_inStep hnode hstep
  rw [hround, final_ok] at hstep₁ hnot
  cases lands with
  | false =>
      cases hlast
      exact hstep₁
  | true =>
      cases hlast
      exact land_inStep hstep₁ (hnot rfl)

theorem moment_inStep (hnode : node.Consistent) {moment : Moment} {h k : Harvester}
    (hstep : InStep h) (hthrough : h.Through) (hsafe : moment.Safe P node env h)
    (hrun : moment.run P node env h = .ok () k) : InStep k ∧ k.Through := by
  cases moment with
  | round fuel =>
      have hround : harvestRetrying P node env.attended fuel h = .ok () k := hrun
      have hstep' : InStep (final (harvestRetrying P node env.attended fuel h)) :=
        round_inStep hnode hstep
      have hthrough' : (final (harvestRetrying P node env.attended fuel h)).Through := hsafe
      rw [hround, final_ok] at hstep' hthrough'
      exact ⟨hstep', hthrough'⟩
  | between command => exact obey_inStep hstep hthrough hsafe hrun
  | dropped fuel await lands command =>
      obtain ⟨hnot, hthrough', hcommand⟩ := hsafe
      obtain ⟨_, k₁, hcut, hobey⟩ := bind_eq_ok.mp hrun
      rw [hcut, final_ok] at hthrough' hcommand
      exact obey_inStep (cutRound_inStep hnode hstep hnot hcut) hthrough' hcommand hobey

theorem live_inStep (hnode : node.Consistent) (moments : List Moment) {h k : Harvester}
    (hstep : InStep h) (hthrough : h.Through) (hsafe : AllSafe P node env moments h)
    (hrun : live P node env moments h = .ok () k) : InStep k ∧ k.Through := by
  induction moments generalizing h with
  | nil =>
      cases hrun
      exact ⟨hstep, hthrough⟩
  | cons moment rest ih =>
      obtain ⟨hfirst, hlater⟩ := hsafe
      obtain ⟨_, k₁, hone, hrest⟩ := bind_eq_ok.mp hrun
      obtain ⟨hstep', hthrough'⟩ := moment_inStep hnode hstep hthrough hfirst hone
      cases hends : moment.ends with
      | true =>
          rw [hends] at hrest
          cases hrest
          exact ⟨hstep', hthrough'⟩
      | false =>
          rw [hends] at hrest
          have hlater := hlater hends
          rw [hone, final_ok] at hlater
          exact ih hstep' hthrough' hlater hrest

end Steps

/-- In every state the loop reaches, over any rounds, commands and drops at any await, cursor and
tables are in step, if no first block fails or is dropped before its commit takes effect, no
commit of another block takes effect after a drop, and every scan by command finds its block
stored on top. -/
theorem synced_of_safe (P : Processor) (node : Node) (env : DbEnv) (moments : List Moment)
    (world : World Store AggregatorMsg) (startHeight endHeight : Option Nat) {k : Harvester}
    (hnode : node.Consistent)
    (hsafe : AllSafe P node env moments (Harvester.new world startHeight endHeight))
    (hrun : live P node env moments (Harvester.new world startHeight endHeight) = .ok () k) :
    k.Synced := by
  have hnew : InStep (Harvester.new world startHeight endHeight) := by
    refine ⟨fun _ block hsome => ?_, fun block before after hlast => ?_⟩
    · cases hsome
    · cases hlast
  obtain ⟨hstep, hthrough⟩ := live_inStep hnode moments hnew rfl hsafe hrun
  exact hstep.synced hthrough

/-- The first drop is at the commit of block 1, which takes effect, the second in the middle of
block 2, which is rolled back. -/
def survived : List Moment :=
  [.dropped 5 8 true .pause, .between .autoScan, .dropped 5 4 false .autoScan, .round 5]

def survivor : Harvester :=
  final (live Processor.mainnet (Node.standing newBranch) DbEnv.calm survived freshHarvester)

theorem synced_survived : survivor.Synced := by
  have hsafe : AllSafe Processor.mainnet (Node.standing newBranch) DbEnv.calm survived
      freshHarvester := by decide +kernel
  have hrun : live Processor.mainnet (Node.standing newBranch) DbEnv.calm survived
      freshHarvester = .ok () survivor := eq_ok_of_returned (by decide +kernel)
  exact synced_of_safe Processor.mainnet (Node.standing newBranch) DbEnv.calm survived _ _ _
    standing_consistent hsafe hrun

def pausedEarly : Harvester :=
  final (live Processor.mainnet (Node.standing newBranch) DbEnv.calm [.dropped 5 5 false .pause]
    freshHarvester)

/-- The cursor is at block 1, which is rolled back. -/
theorem paused_in_first_block : ∃ k,
    live Processor.mainnet (Node.standing newBranch) DbEnv.calm [.dropped 5 5 false .pause]
        freshHarvester = .ok () k ∧
      (Node.standing newBranch).Consistent ∧
      k.lastProcessedBlock.map (fun b => b.header.height) = some 1 ∧
      k.world.store.blocks = [] ∧ ¬ k.Synced := by
  have hcursor : pausedEarly.lastProcessedBlock = some (blockAt 201 1 100 [coinbaseTx 2 []]) := by
    decide +kernel
  have hempty : pausedEarly.world.store.blocks = [] := by decide +kernel
  refine ⟨pausedEarly, eq_ok_of_returned (by decide +kernel), standing_consistent,
    by rw [hcursor]; rfl, hempty, fun hsynced => ?_⟩
  have hstored := (hsynced _ hcursor).1
  rw [hempty] at hstored
  cases hstored

end BtcIndexer
