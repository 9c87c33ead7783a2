import BtcIndexer.FixedChain

/-! Heights left out. While the chain of the node only grows, the loop of a round goes up block
by block and a block that fails is tried again. The first block of a run is not: the cursor is
set to it before it is processed, and until there is a cursor each attempt chooses anew where to
begin. -/
namespace BtcIndexer
open Stateful Outbox Rows

/-- The tip of the node never goes down. -/
def Node.Grows (node : Node) (since : Nat) : Prop :=
  ∀ {t t' number number'}, since ≤ t → t ≤ t' → node.getBlockCount t = .ok number →
    node.getBlockCount t' = .ok number' → number ≤ number'

/-- The number of the block a round chooses to begin with, if it comes to choose one. -/
def chosen (node : Node) (env : DbEnv) (h : Harvester) : Option Nat :=
  match desiredHeight node env h.endHeight h with
  | .error _ _ => none
  | .ok desired k =>
      match Processor.latestBlockNum env k.world with
      | .error _ _ => none
      | .ok last _ => some (startNum last h.startHeight desired)

def firstChosen (P : Processor) (node : Node) (env : DbEnv) : List Nat → Harvester → Option Nat
  | [], _ => none
  | fuel :: rest, h =>
      match chosen node env h with
      | some number => some number
      | none => firstChosen P node env rest (final (harvestRetrying P node env fuel h))

/-- The entry is a committed call for a first block of this height. -/
def Entry.begins (first : Nat) : Entry → Bool
  | .call (.first block) _ _ committed => committed && block.header.height == first
  | .call (.next _) _ _ _ | .call (.fork _) _ _ _ | .scanFrom _ _ => false

/-- The first call to the processor was for the block of this height, and it committed. -/
def Harvester.BegunAt (first : Nat) (h : Harvester) : Prop :=
  h.history.head?.any (Entry.begins first) = true

instance (first : Nat) (h : Harvester) : Decidable (h.BegunAt first) :=
  inferInstanceAs (Decidable (_ = true))

/-- No block has been handed to the processor yet. -/
structure Waiting (node : Node) (h : Harvester) : Prop where
  knows : node.Knows h.world.store
  cursor : h.lastProcessedBlock = none
  history : h.history = []

/-- The rows above those from before the run: from the first block that was handed over, itself
only if its call committed, up to the cursor. -/
def Climbed (chain : Nat → BlockHash) (first : Nat) (block : BlockInfo) (h : Harvester) : Prop :=
  ∃ begun before after committed rest,
    h.history = .call (.first begun) before after committed :: rest ∧
    first ≤ begun.header.height ∧ begun.header.height ≤ block.header.height ∧
    (∀ row ∈ h.world.store.blocks, row.number < first ∨ begun.header.height ≤ row.number) ∧
    (committed = true → h.world.store.Holds chain begun.header.height block.header.height) ∧
    (committed = false → ∀ row ∈ h.world.store.blocks, row.number ≠ begun.header.height)

/-- The invariant of a run from its first choice on. -/
structure Climbing (node : Node) (chain : Nat → BlockHash) (first : Nat) (h₀ h : Harvester) :
    Prop where
  knows : node.Knows h.world.store
  fresh : h.lastProcessedBlock = none → h.history = [] ∧
    h.world.store.blocks = h₀.world.store.blocks ∧ h.startHeight = h₀.startHeight ∧
    h.endHeight = h₀.endHeight
  cursor : ∀ block, h.lastProcessedBlock = some block →
    block.header.hash = chain block.header.height ∧ Climbed chain first block h

section Steps

variable {P : Processor} {node : Node} {env : DbEnv} {since first : Nat}
variable {chain : Nat → BlockHash} {h₀ : Harvester}

theorem Climbed.onNext {prevBlock block : BlockInfo} {before : Nat} {h : Harvester}
    {w : World Store AggregatorMsg} (hnode : node.Consistent) (hchain : node.Keeps since chain)
    (hknows : node.Knows h.world.store) (hclimbed : Climbed chain first prevBlock h)
    (hshows : node.Shows since before (prevBlock.header.height + 1) block)
    (hindexed : P.Indexed block h.world.store w.store) :
    Climbed chain first block ((h.record (.next block) w true).moveTo block) := by
  obtain ⟨begun, before', after, committed, rest, hhistory, hfirst, hle, hrows, hheld, hmissed⟩ :=
    hclimbed
  have hheight := hshows.height
  have hon := hchain.hash hshows
  refine ⟨begun, before', after, committed, rest ++ [.call (.next block) h.world w true], ?_,
    hfirst, by omega, fun row hrow => ?_, fun hcommitted => ?_, fun hfailed row hrow => ?_⟩
  · change h.history ++ _ = _
    rw [hhistory]
    rfl
  · rcases hindexed.row_cases hrow with hold | ⟨_, hnumber, _⟩
    · exact hrows row hold
    · exact .inr (by omega)
  · obtain ⟨row, hrow, hnumber, hhash⟩ := hindexed.row_at hnode hshows.seen hknows
    have hgrown : w.store.Holds chain begun.header.height prevBlock.header.height :=
      (hheld hcommitted).mono fun row hrow => hindexed.row_mem hrow
    rw [hheight] at hon hnumber ⊢
    exact hgrown.snoc hrow hnumber (hhash.trans hon)
  · rcases hindexed.row_cases hrow with hold | ⟨_, hnumber, _⟩
    · exact hmissed hfailed row hold
    · omega

theorem climbed_onFirst {block : BlockInfo} {before : Nat} {h : Harvester} {committed : Bool}
    {w : World Store AggregatorMsg} {number : Nat} (hnode : node.Consistent)
    (hchain : node.Keeps since chain) (hknows : node.Knows h.world.store)
    (hhistory : h.history = []) (hlow : ∀ row ∈ h.world.store.blocks, row.number < first)
    (hfirst : first ≤ number) (hshows : node.Shows since before number block)
    (hsound : (Entry.call (.first block) h.world w committed).Sound P env) :
    Climbed chain first block ((h.moveTo block).record (.first block) w committed) := by
  have hheight := hshows.height
  have hon := hchain.hash hshows
  refine ⟨block, h.world, w, committed, [], ?_, by omega, Nat.le_refl _, fun row hrow => ?_,
    fun hcommitted => ?_, fun hfailed row hrow => ?_⟩
  · change h.history ++ _ = _
    rw [hhistory]
    rfl
  · cases committed with
    | true =>
        rcases hsound.indexed.row_cases hrow with hold | ⟨_, hnumber, _⟩
        · exact .inl (hlow row hold)
        · exact .inr (Nat.le_of_eq hnumber.symm)
    | false => exact .inl (hlow row (hsound.store_eq ▸ hrow))
  · subst hcommitted
    obtain ⟨row, hrow, hnumber, hhash⟩ := hsound.indexed.row_at hnode hshows.seen hknows
    intro number' hlow' hhigh'
    have hsame : number' = block.header.height := Nat.le_antisymm hhigh' hlow'
    subst hsame
    exact ⟨row, hrow, hnumber, hhash.trans hon⟩
  · subst hfailed
    have hbelow := hlow row (hsound.store_eq ▸ hrow)
    omega

/-- From the first choice of a number on, whichever calls fail. -/
theorem climbing_stepwise (hnode : node.Consistent) (hchain : node.Keeps since chain)
    (hlow : ∀ row ∈ h₀.world.store.blocks, row.number < first)
    (hfirst : ∀ before desired, node.Desires since before h₀.endHeight desired →
      first ≤ startNum h₀.world.store.getLatestBlockNum h₀.startHeight desired) :
    Stepwise P node env since (Climbing node chain first h₀) where
  steady := by
    intro h w hstore _ _ hclimbing
    refine ⟨fun row hrow => hclimbing.knows row (hstore ▸ hrow), fun hnone => ?_,
      fun block hblock => ?_⟩
    · obtain ⟨hhistory, hblocks, hbounds⟩ := hclimbing.fresh hnone
      exact ⟨hhistory, (congrArg Store.blocks hstore).trans hblocks, hbounds⟩
    · obtain ⟨hon, hclimbed⟩ := hclimbing.cursor block hblock
      unfold Climbed at hclimbed ⊢
      rw [← hstore] at hclimbed
      exact ⟨hon, hclimbed⟩
  first := by
    intro h desired block w committed hclimbing hnone hdesired hshows hsound
    obtain ⟨hhistory, hblocks, hstart, hend⟩ := hclimbing.fresh hnone
    have hlatest : h.world.store.getLatestBlockNum = h₀.world.store.getLatestBlockNum := by
      unfold Store.getLatestBlockNum
      rw [hblocks]
    have hle := hfirst h.world.clock desired (hend ▸ hdesired)
    rw [← hlatest, ← hstart] at hle
    refine ⟨?_, fun hsome => ?_, fun other hother => ?_⟩
    · cases committed with
      | true => exact hsound.indexed.knows hshows.seen hclimbing.knows
      | false => exact fun row hrow => hclimbing.knows row (hsound.store_eq ▸ hrow)
    · cases hsome
    · cases hother
      exact ⟨hchain.hash hshows, climbed_onFirst hnode hchain hclimbing.knows hhistory
        (fun row hrow => hlow row (hblocks ▸ hrow)) hle hshows hsound⟩
  next := by
    intro h prevBlock block w hclimbing hcursor hshows hprev hrun
    have hindexed : P.Indexed block h.world.store w.store := Processor.process_ok hrun
    obtain ⟨_, hclimbed⟩ := hclimbing.cursor prevBlock hcursor
    refine ⟨hindexed.knows hshows.seen hclimbing.knows, fun hsome => ?_, fun other hother => ?_⟩
    · cases hsome
    · cases hother
      exact ⟨hchain.hash hshows,
        hclimbed.onNext hnode hchain hclimbing.knows hshows hindexed⟩
  fork := by
    intro h prevBlock block blocks w hclimbing hcursor hshows hother
    obtain ⟨hon, _⟩ := hclimbing.cursor prevBlock hcursor
    exact absurd (hchain.extends_cursor hon hshows) hother
  failed := by
    intro h job e w hclimbing _ handed hrun
    have hstore := Job.run_error hrun
    refine ⟨fun row hrow => hclimbing.knows row (hstore ▸ hrow), fun hnone => ?_,
      fun block hblock => ?_⟩
    · exact absurd hnone handed.cursor
    · obtain ⟨hon, begun, before, after, committed, rest, hhistory, hclimbed⟩ :=
        hclimbing.cursor block hblock
      rw [← hstore] at hclimbed
      refine ⟨hon, begun, before, after, committed, rest ++ [.call job h.world w false], ?_,
        hclimbed⟩
      change h.history ++ _ = _
      rw [hhistory]
      rfl

/-- With the rows of a climb, all heights from the first on are there exactly if the climb began
at the first and that block was committed. -/
theorem Climbed.holds_iff {block : BlockInfo} {h : Harvester}
    (hclimbed : Climbed chain first block h) :
    h.world.store.Holds chain first block.header.height ↔ h.BegunAt first := by
  obtain ⟨begun, before, after, committed, rest, hhistory, hfirst, hle, hrows, hheld, hmissed⟩ :=
    hclimbed
  have hbegun : h.BegunAt first ↔ committed = true ∧ begun.header.height = first := by
    rw [Harvester.BegunAt, hhistory]
    simp [Entry.begins]
  rw [hbegun]
  constructor
  · intro hholds
    obtain ⟨row, hrow, hnumber, _⟩ := hholds first (Nat.le_refl _) (Nat.le_trans hfirst hle)
    have hsame : begun.header.height = first := by
      rcases hrows row hrow with hlow | hhigh <;> omega
    cases committed with
    | true => exact ⟨rfl, hsame⟩
    | false => exact absurd (hnumber.trans hsame.symm) (hmissed rfl row hrow)
  · rintro ⟨hcommitted, hsame⟩
    rw [← hsame]
    exact hheld hcommitted

theorem lift_final {α : Type} {x : ProcessorM α} (hreads : Reads x) (hticks : Ticks x)
    (variant : ProcessorError → HarvesterError) (h : Harvester) :
    ∃ w, final (lift variant x h) = { h with world := w } ∧ w.store = h.world.store ∧
      h.world.clock ≤ w.clock := by
  simp only [lift]
  cases hrun : x h.world with
  | ok a w => exact ⟨w, rfl, (hreads.of_ok hrun).1, hticks.of_ok hrun⟩
  | error e w => exact ⟨w, rfl, (hreads.of_error hrun).1, hticks.of_error hrun⟩

theorem desiredHeight_final (node : Node) (env : DbEnv) (endHeight : Option Nat)
    (h : Harvester) : ∃ w, final (desiredHeight node env endHeight h) = { h with world := w } ∧
      w.store = h.world.store ∧ h.world.clock ≤ w.clock := by
  cases endHeight with
  | some height => exact ⟨h.world, rfl, rfl, Nat.le_refl _⟩
  | none => exact lift_final (rpc_reads env _) (rpc_ticks env _) .client h

/-- A round that comes to choose no number fails, and has only read. -/
theorem harvest_unchosen {h : Harvester} (hnone : chosen node env h = none)
    (hcursor : h.lastProcessedBlock = none) (fuel : Nat) :
    ∃ e w, harvest P node env fuel h = .error e { h with world := w } ∧
      w.store = h.world.store ∧ h.world.clock ≤ w.clock := by
  obtain ⟨w, hfinal, hstore, hclock⟩ := desiredHeight_final node env h.endHeight h
  unfold chosen at hnone
  cases hdesired : desiredHeight node env h.endHeight h with
  | error e k =>
      rw [hdesired, final_error] at hfinal
      subst hfinal
      refine ⟨e, w, ?_, hstore, hclock⟩
      rw [harvest_apply]
      exact bind_of_error hdesired
  | ok desired k =>
      rw [hdesired] at hnone
      rw [hdesired, final_ok] at hfinal
      subst hfinal
      have hlast : ∃ e w', Processor.latestBlockNum env w = .error e w' := by
        cases hlatest : Processor.latestBlockNum env w with
        | error e w' => exact ⟨e, w', rfl⟩
        | ok last w' =>
            simp only [hlatest] at hnone
            cases hnone
      obtain ⟨e, w', hlast⟩ := hlast
      have hlift : lift .ofSqlx (Processor.latestBlockNum env) { h with world := w } =
          .error (.wrap .ofSqlx e) { h with world := w' } := by
        simp only [lift, hlast]
      have hreads : Reads (Processor.latestBlockNum env) := query_reads env.faults _
      have hticks : Ticks (Processor.latestBlockNum env) := query_world_ticks env.faults _
      refine ⟨.wrap .ofSqlx e, w', ?_, (hreads.of_error hlast).1.trans hstore,
        Nat.le_trans hclock (hticks.of_error hlast)⟩
      have hfirst : processFirst P node env desired { h with world := w } =
          .error (.wrap .ofSqlx e) { h with world := w' } := by
        rw [processFirst_apply]
        exact bind_of_error hlift
      rw [harvest_of_none hcursor hdesired]
      exact bind_of_error hfirst

theorem startNum_mono {last startHeight : Option Nat} {desired desired' : Nat}
    (hle : desired ≤ desired') :
    startNum last startHeight desired ≤ startNum last startHeight desired' := by
  cases last <;> cases startHeight <;> simp only [startNum, Option.getD_none, Option.getD_some] <;>
    omega

/-- A chosen number is above all rows, and no later choice on the same rows is lower. -/
theorem chosen_lowest {h : Harvester} {number : Nat} (hsome : chosen node env h = some number)
    (hgrows : node.Grows since) (hsince : since ≤ h.world.clock) :
    (∀ row ∈ h.world.store.blocks, row.number < number) ∧
      ∀ before desired, node.Desires h.world.clock before h.endHeight desired →
        number ≤ startNum h.world.store.getLatestBlockNum h.startHeight desired := by
  obtain ⟨w, hfinal, hstore, _⟩ := desiredHeight_final node env h.endHeight h
  unfold chosen at hsome
  cases hdesired : desiredHeight node env h.endHeight h with
  | error e k => rw [hdesired] at hsome; cases hsome
  | ok desired k =>
      rw [hdesired] at hsome
      rw [hdesired, final_ok] at hfinal
      subst hfinal
      cases hlatest : Processor.latestBlockNum env w with
      | error e w' => simp only [hlatest] at hsome; cases hsome
      | ok last w' =>
          simp only [hlatest, Option.some.injEq] at hsome
          have hreads : Reads (Processor.latestBlockNum env) := query_reads env.faults _
          have hlast : last = h.world.store.getLatestBlockNum := by
            rw [query_world_ok hlatest, (hreads.of_ok hlatest).1, hstore]
          subst hsome
          rw [hlast]
          refine ⟨fun row hrow => le_latest hrow _ _, fun before later hlater => startNum_mono ?_⟩
          cases hend : h.endHeight with
          | some height =>
              rw [hend] at hdesired hlater
              have hsame : height = desired := (EStateM.Result.ok.inj hdesired).1
              exact Nat.le_of_eq (hsame.symm.trans hlater.symm)
          | none =>
              rw [hend] at hdesired hlater
              obtain ⟨w₁, hcall, _⟩ := lift_eq_ok.mp hdesired
              obtain ⟨t, ht, _, hanswer⟩ := hlater
              exact hgrows hsince ht (rpc_ok hcall).1 hanswer

theorem continuous_of_chosen (hnode : node.Consistent) {fuels : List Nat} {fuel first : Nat}
    {h k : Harvester} (hwaiting : Waiting node h₀) (hchain : node.Keeps h₀.world.clock chain)
    (hgrows : node.Grows h₀.world.clock) (hchosen : chosen node env h₀ = some first)
    (hrun : BtcIndexer.start P node env (fuels.map Turn.harvest) h₀ = .ok () h)
    (hharvest : harvest P node env fuel h = .ok () k) :
    ∃ block, k.lastProcessedBlock = some block ∧
      (k.world.store.Holds chain first block.header.height ↔ k.BegunAt first) := by
  obtain ⟨hlow, hfirst⟩ := chosen_lowest hchosen hgrows (Nat.le_refl _)
  have hsteps : Stepwise P node env h₀.world.clock (Climbing node chain first h₀) :=
    climbing_stepwise hnode hchain hlow hfirst
  have hbegin : Climbing node chain first h₀ h₀ := by
    refine ⟨hwaiting.knows, fun _ => ⟨hwaiting.history, rfl, rfl, rfl⟩, fun block hblock => ?_⟩
    rw [hwaiting.cursor] at hblock
    cases hblock
  have hrounds := (hsteps.timed.start hnode (fuels.map Turn.harvest) fun command hmem => by
    simp at hmem).of_ok ⟨Nat.le_refl _, hbegin⟩ hrun
  have hround := (hsteps.timed.harvest hnode fuel).of_ok hrounds hharvest
  obtain ⟨_, block, _, hblock, _⟩ := harvest_arrives hnode hharvest
  exact ⟨block, hblock, (hround.2.cursor block hblock).2.holds_iff⟩

theorem Node.Grows.later {since' : Nat} (h : node.Grows since) (hle : since ≤ since') :
    node.Grows since' := fun ht hle' => h (Nat.le_trans hle ht) hle'

theorem continuous_of_waiting (hnode : node.Consistent) {fuels : List Nat} {fuel : Nat}
    {h k : Harvester} (hwaiting : Waiting node h₀) (hchain : node.Keeps h₀.world.clock chain)
    (hgrows : node.Grows h₀.world.clock)
    (hrun : start P node env (fuels.map Turn.harvest) h₀ = .ok () h)
    (hharvest : harvest P node env fuel h = .ok () k) :
    ∃ first block, k.lastProcessedBlock = some block ∧
      firstChosen P node env (fuels ++ [fuel]) h₀ = some first ∧
      (k.world.store.Holds chain first block.header.height ↔ k.BegunAt first) := by
  induction fuels generalizing h₀ with
  | nil =>
      cases hchosen : chosen node env h₀ with
      | some first =>
          obtain ⟨block, hblock, hiff⟩ := continuous_of_chosen hnode hwaiting hchain hgrows hchosen
            hrun hharvest
          exact ⟨first, block, hblock, by simp only [List.nil_append, firstChosen, hchosen], hiff⟩
      | none =>
          cases hrun
          obtain ⟨e, w, herror, _⟩ := harvest_unchosen hchosen hwaiting.cursor fuel
          rw [hharvest] at herror
          cases herror
  | cons head rest ih =>
      cases hchosen : chosen node env h₀ with
      | some first =>
          obtain ⟨block, hblock, hiff⟩ := continuous_of_chosen hnode hwaiting hchain hgrows hchosen
            hrun hharvest
          exact ⟨first, block, hblock, by simp only [List.cons_append, firstChosen, hchosen], hiff⟩
      | none =>
          obtain ⟨e, w, herror, hstore, hclock⟩ :=
            harvest_unchosen (P := P) hchosen hwaiting.cursor head
          have hfinal : final (harvestRetrying P node env head h₀) = { h₀ with world := w } := by
            rw [harvestRetrying, final_retrying, herror, final_error]
          obtain ⟨_, h₁, hretry, hrest⟩ := bind_eq_ok.mp hrun
          rw [hretry, final_ok] at hfinal
          subst hfinal
          have hwaiting' : Waiting node { h₀ with world := w } :=
            ⟨fun row hrow => hwaiting.knows row (hstore ▸ hrow), hwaiting.cursor, hwaiting.history⟩
          obtain ⟨first, block, hblock, hfirst, hiff⟩ :=
            ih hwaiting' (hchain.later hclock) (hgrows.later hclock) hrest
          refine ⟨first, block, hblock, ?_, hiff⟩
          simp only [List.cons_append, firstChosen, hchosen, hretry, final_ok]
          exact hfirst

end Steps

/-- Over any run without commands on a chain that only grows, whichever calls fail and are tried
again: whenever a round has returned, all heights from the first number chosen up to the cursor
are stored exactly if the first block handed to the processor had that number and committed. -/
theorem continuous_iff (P : Processor) (node : Node) (env : DbEnv) (chain : Nat → BlockHash)
    {world : World Store AggregatorMsg} {startHeight endHeight : Option Nat} {fuels : List Nat}
    {fuel : Nat} {h k : Harvester} (hnode : node.Consistent)
    (hchain : node.Keeps world.clock chain) (hgrows : node.Grows world.clock)
    (hknows : node.Knows world.store)
    (hrun : start P node env (fuels.map Turn.harvest)
      (Harvester.new world startHeight endHeight) = .ok () h)
    (hharvest : harvest P node env fuel h = .ok () k) :
    ∃ first block, k.lastProcessedBlock = some block ∧
      firstChosen P node env (fuels ++ [fuel]) (Harvester.new world startHeight endHeight) =
        some first ∧
      (k.world.store.Holds chain first block.header.height ↔ k.BegunAt first) :=
  continuous_of_waiting hnode ⟨hknows, rfl, rfl⟩ hchain hgrows hrun hharvest

theorem standing_grows (since : Nat) : (Node.standing newBranch).Grows since := by
  intro t t' number number' _ _ hcount hcount'
  have hsame : (Node.standing newBranch).getBlockCount t =
      (Node.standing newBranch).getBlockCount t' := rfl
  rw [hsame, hcount'] at hcount
  cases hcount
  exact Nat.le_refl _

def failedOnce (tick : Nat) : Harvester :=
  final (start Processor.mainnet (Node.standing newBranch) (failsAt tick)
    ([5].map Turn.harvest) freshHarvester)

def retriedOnce (tick : Nat) : Harvester :=
  final (harvest Processor.mainnet (Node.standing newBranch) (failsAt tick) 5 (failedOnce tick))

theorem failedOnce_ok {tick : Nat} (h : returned (start Processor.mainnet
    (Node.standing newBranch) (failsAt tick) ([5].map Turn.harvest) freshHarvester) = true) :
    start Processor.mainnet (Node.standing newBranch) (failsAt tick) ([5].map Turn.harvest)
      freshHarvester = .ok () (failedOnce tick) := eq_ok_of_returned h

theorem retriedOnce_ok {tick : Nat} (h : returned (harvest Processor.mainnet
    (Node.standing newBranch) (failsAt tick) 5 (failedOnce tick)) = true) :
    harvest Processor.mainnet (Node.standing newBranch) (failsAt tick) 5 (failedOnce tick) =
      .ok () (retriedOnce tick) := eq_ok_of_returned h

/-- The commit of block 2 fails: it is tried again, and nothing is missing. -/
theorem continuous_retried : (retriedOnce 15).world.store.Holds (chainOf newBranch) 1 3 := by
  have hknows : (Node.standing newBranch).Knows Store.empty := fun row hrow => by cases hrow
  obtain ⟨first, block, hblock, hfirst, hiff⟩ := continuous_iff Processor.mainnet
    (Node.standing newBranch) (failsAt 15) (chainOf newBranch) standing_consistent
    (standing_keeps 0) (standing_grows 0) hknows (failedOnce_ok (by decide +kernel))
    (retriedOnce_ok (by decide +kernel))
  have hnumber : firstChosen Processor.mainnet (Node.standing newBranch) (failsAt 15) [5, 5]
      freshHarvester = some 1 := by decide +kernel
  have hsame : some first = some 1 := hfirst.symm.trans hnumber
  cases hsame
  have hcursor : (retriedOnce 15).lastProcessedBlock.map (fun b => b.header.height) = some 3 := by
    decide +kernel
  rw [hblock] at hcursor
  have hheight : block.header.height = 3 := Option.some.inj hcursor
  rw [← hheight]
  exact hiff.mpr (by decide +kernel)

/-- The commit of block 1, the first block, fails: the next round goes on to block 2. -/
theorem continuous_skips : ∃ h k,
    start Processor.mainnet (Node.standing newBranch) (failsAt 8) ([5].map Turn.harvest)
        freshHarvester = .ok () h ∧
      harvest Processor.mainnet (Node.standing newBranch) (failsAt 8) 5 h = .ok () k ∧
      (Node.standing newBranch).Consistent ∧
      (Node.standing newBranch).Keeps 0 (chainOf newBranch) ∧
      (Node.standing newBranch).Grows 0 ∧
      firstChosen Processor.mainnet (Node.standing newBranch) (failsAt 8) [5, 5]
        freshHarvester = some 1 ∧
      k.lastProcessedBlock.map (fun b => b.header.height) = some 3 ∧
      ¬ k.world.store.Holds (chainOf newBranch) 1 3 := by
  refine ⟨failedOnce 8, retriedOnce 8, failedOnce_ok (by decide +kernel),
    retriedOnce_ok (by decide +kernel), standing_consistent, standing_keeps 0, standing_grows 0,
    by decide +kernel, by decide +kernel, fun hholds => ?_⟩
  have hmissing : 1 ∉ (retriedOnce 8).world.store.blocks.map BlockRow.number := by decide +kernel
  exact hmissing (hholds.mem (by decide) (by decide))

end BtcIndexer
