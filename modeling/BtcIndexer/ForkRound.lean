import BtcIndexer.Following
import BtcIndexer.Holdings

/-! A round that meets a fork. The node has gone over to another chain and stands above the
cursor: the walk collects the blocks of the new chain back to the stored one, the tables are
rolled back to it and the fork is replayed head first, and the round goes on from there to the
tip. -/
namespace BtcIndexer
open Stateful Outbox Rows

theorem later_later (w : World Store AggregatorMsg) (m n : Nat) :
    (w.later m).later n = w.later (m + n) := by
  simp only [World.later, Nat.add_assoc]

section Walk

variable {P : Processor} {node : Node} {env : DbEnv} {since : Nat} {chain : Nat → BlockInfo}
variable {tip : Nat → Nat} {first size count : Nat}

theorem Node.StandsOn.scanBlockByHash (hnode : node.StandsOn since chain first tip)
    (hquiet : env.Quiet) {n : Nat} {w : World Store AggregatorMsg} (hsince : since ≤ w.clock)
    (hfirst : first ≤ n) (htip : n ≤ tip w.clock) :
    node.scanBlockByHash env (chain n).header.hash w = .ok (chain n) w.tick := by
  simp only [Node.scanBlockByHash, rpc, hquiet.interrupted, Bool.false_eq_true, if_false,
    hnode.header hsince hfirst htip, hnode.body hsince hfirst htip]

/-- The walk from a block of the chain back to a stored one. Each block takes two calls. -/
theorem walk_total (hquiet : env.Quiet) (hchain : P.Indexes chain first size)
    (htop : ∀ t, tip t < first + size) (hnode : node.StandsOn since chain first tip)
    (steps : Nat) {h : Harvester} (hsince : since ≤ h.world.clock)
    (htip : first + count + steps ≤ tip h.world.clock)
    (hstored : h.world.store.hasBlock (chain (first + count)).header.hash = true)
    (hnew : ∀ b ∈ stretch chain (first + count + 1) steps,
      h.world.store.hasBlock b.header.hash = false) :
    ∃ ticks, ∀ fuel > steps, getForkBlocks node env fuel (chain (first + count + steps)) h =
      .ok (stretch chain (first + count + 1) steps).reverse
        { h with world := h.world.later ticks } := by
  have hheights : ∀ n, n ≤ first + count + steps → first ≤ n → (chain n).header.height = n := by
    intro n hle hlow
    have hbelow := htop h.world.clock
    exact hchain.height n hlow (by omega)
  induction steps generalizing h with
  | zero =>
      have hheight := hheights (first + count) (Nat.le_refl _) (Nat.le_add_right _ _)
      by_cases hzero : first + count = 0
      · refine ⟨0, fun fuel hfuel => ?_⟩
        obtain ⟨fuel, rfl⟩ : ∃ k, fuel = k + 1 := ⟨fuel - 1, by omega⟩
        have hground : (chain (first + count)).header.height = 0 := hheight.trans hzero
        simp only [getForkBlocks, isAncestor, Nat.add_zero, hground, if_true, pure_bind]
        rfl
      · refine ⟨1, fun fuel hfuel => ?_⟩
        obtain ⟨fuel, rfl⟩ : ∃ k, fuel = k + 1 := ⟨fuel - 1, by omega⟩
        have hknown := isProcessed_quiet hquiet (chain (first + count)).header.hash h.world
        rw [hstored] at hknown
        simp only [getForkBlocks, isAncestor, Nat.add_zero, hheight, hzero, if_false]
        exact bind_of_ok (lift_ok hknown)
  | succ steps ih =>
      have hbelow := htop h.world.clock
      have hheight := hheights (first + count + (steps + 1)) (Nat.le_refl _) (by omega)
      have hsnoc : stretch chain (first + count + 1) (steps + 1) =
          stretch chain (first + count + 1) steps ++ [chain (first + count + (steps + 1))] := by
        rw [stretch_snoc]
        congr 3
        omega
      have hunknown := hnew (chain (first + count + (steps + 1))) (by
        rw [hsnoc]
        exact List.mem_append_right _ List.mem_cons_self)
      have hknown := isProcessed_quiet hquiet (chain (first + count + (steps + 1))).header.hash
        h.world
      rw [hunknown] at hknown
      have hparent : (chain (first + count + (steps + 1))).header.previousBlockHash =
          some (chain (first + count + steps)).header.hash := by
        have hlt : count + steps + 1 < size := by omega
        have hlinked := hchain.linked hlt
        rwa [← Nat.add_assoc] at hlinked
      have hfetch := hnode.scanBlockByHash hquiet (n := first + count + steps) (w := h.world.tick)
        (Nat.le_trans hsince (Nat.le_succ _)) (by omega)
        (Nat.le_trans (by omega) (Nat.le_trans htip (hnode.grows (Nat.le_succ _))))
      obtain ⟨ticks, hwalk⟩ := ih (h := { h with world := h.world.later 2 })
        (Nat.le_trans hsince (Nat.le_add_right _ 2))
        (Nat.le_trans (by omega) (Nat.le_trans htip (hnode.grows (Nat.le_add_right _ 2))))
        hstored (fun b hb => hnew b (by rw [hsnoc]; exact List.mem_append_left _ hb))
        (fun n hle hlow => hheights n (by omega) hlow)
      refine ⟨2 + ticks, fun fuel hfuel => ?_⟩
      obtain ⟨fuel, rfl⟩ : ∃ k, fuel = k + 1 := ⟨fuel - 1, by omega⟩
      have hzero : ¬ first + count + (steps + 1) = 0 := by omega
      simp only [getForkBlocks, isAncestor, hheight, hzero, if_false, hparent]
      rw [bind_of_ok (lift_ok hknown)]
      simp only [Bool.false_eq_true, if_false]
      rw [bind_of_ok (lift_ok hfetch)]
      refine (bind_of_ok (hwalk fuel (by omega))).trans ?_
      rw [hsnoc, List.reverse_append, later_later]
      rfl

end Walk

namespace Processor

theorem hasBlock_iff {P : Processor} {blocks : List BlockInfo} {s : Store}
    (hdistinct : Distinct blocks) (h : P.IndexedAll blocks Store.empty s) {hash : BlockHash} :
    s.hasBlock hash = true ↔ hash ∈ blocks.map (fun b => b.header.hash) := by
  rw [Store.hasBlock, decide_eq_true_iff, (h.tables hdistinct).blocks]
  constructor
  · intro hmem
    exact (blockRows_hash_sublist P _).subset hmem
  · intro hmem
    obtain ⟨b, hb, rfl⟩ := List.mem_map.mp hmem
    obtain ⟨timestamp, hts⟩ := Option.isSome_iff_exists.mp (h.known b hb).1
    exact List.mem_map.mpr ⟨blockRow b.header timestamp,
      List.mem_filterMap.mpr ⟨b, hb, by rw [hts]; rfl⟩, rfl⟩

end Processor

/-- The node has left the chain of the harvester above a stored block: the tables hold `old` on
top of the blocks that the chains share, and the cursor is at the last block of `old`. -/
structure Harvester.LeftBehind (P : Processor) (chain : Nat → BlockInfo) (first count : Nat)
    (old : List BlockInfo) (shared : Store) (h : Harvester) : Prop where
  covers : ∃ blocks, blocks.Perm (stretch chain first (count + 1)) ∧
    P.IndexedAll blocks Store.empty shared
  indexed : P.IndexedAll old shared h.world.store
  distinct : Distinct (stretch chain first (count + 1) ++ old)
  above : ∀ b ∈ old, first + count < b.header.height
  cursor : ∃ last ∈ old, h.lastProcessedBlock = some last ∧
    last.header.height = first + count + old.length
  apart : ∀ b ∈ stretch chain (first + count + 1) (old.length + 1), ∀ c ∈ old,
    b.header.hash ≠ c.header.hash

section Fork

variable {P : Processor} {node : Node} {env : DbEnv} {since : Nat} {chain : Nat → BlockInfo}
variable {tip : Nat → Nat} {first size count : Nat} {old : List BlockInfo} {shared : Store}

theorem stretch_origin (chain : Nat → BlockInfo) (first more : Nat) :
    (stretch chain first (more + 1)).reverse.getLast? = some (chain first) := by
  rw [List.getLast?_reverse, stretch_succ, List.head?_cons]

namespace Harvester.LeftBehind

theorem whole {h : Harvester} (hleft : h.LeftBehind P chain first count old shared) :
    ∃ blocks, blocks.Perm (stretch chain first (count + 1)) ∧
      P.IndexedAll blocks Store.empty shared ∧ Distinct (blocks ++ old) ∧
      P.IndexedAll (blocks ++ old) Store.empty h.world.store := by
  obtain ⟨blocks, hperm, hblocks⟩ := hleft.covers
  exact ⟨blocks, hperm, hblocks, hleft.distinct.perm (hperm.append_right old).symm,
    hblocks.append hleft.indexed⟩

/-- Reads change neither the tables nor the cursor. -/
theorem congr {h h' : Harvester} (hleft : h.LeftBehind P chain first count old shared)
    (hstore : h'.world.store = h.world.store)
    (hcursor : h'.lastProcessedBlock = h.lastProcessedBlock) :
    h'.LeftBehind P chain first count old shared where
  covers := hleft.covers
  indexed := hstore ▸ hleft.indexed
  distinct := hleft.distinct
  above := hleft.above
  cursor := hcursor ▸ hleft.cursor
  apart := hleft.apart

theorem stored {h : Harvester} (hleft : h.LeftBehind P chain first count old shared) :
    h.world.store.hasBlock (chain (first + count)).header.hash = true := by
  obtain ⟨blocks, hperm, _, hdistinct, hwhole⟩ := hleft.whole
  rw [Processor.hasBlock_iff hdistinct hwhole, List.map_append]
  refine List.mem_append_left _ (List.mem_map_of_mem (hperm.symm.subset ?_))
  exact mem_stretch.mpr ⟨first + count, Nat.le_add_right _ _, by omega, rfl⟩

/-- The fork has neither blocks of the shared part nor, at these heights, any that it replaces. -/
theorem unknown (hchain : P.Indexes chain first size)
    (hsize : count + 1 + (old.length + 1) ≤ size) {h : Harvester}
    (hleft : h.LeftBehind P chain first count old shared) :
    ∀ b ∈ stretch chain (first + count + 1) (old.length + 1),
      h.world.store.hasBlock b.header.hash = false := by
  obtain ⟨blocks, hperm, _, hdistinct, hwhole⟩ := hleft.whole
  intro b hb
  rw [Bool.eq_false_iff, Ne, Processor.hasBlock_iff hdistinct hwhole, List.map_append,
    List.mem_append]
  rintro (hmem | hmem)
  · obtain ⟨c, hc, hsame⟩ := List.mem_map.mp hmem
    have hhashes := (hchain.left hsize).hashes
    rw [stretch_append, List.map_append] at hhashes
    refine List.disjoint_of_nodup_append hhashes (List.mem_map_of_mem (hperm.subset hc)) ?_
    rw [hsame]
    exact List.mem_map_of_mem hb
  · obtain ⟨c, hc, hsame⟩ := List.mem_map.mp hmem
    exact hleft.apart b hb c hc hsame.symm

/-- Deleting from the lowest block of the fork on leaves the tables of the shared blocks. -/
theorem rewind_eq (hchain : P.Indexes chain first size)
    (hsize : count + 1 + (old.length + 1) ≤ size) {h : Harvester}
    (hleft : h.LeftBehind P chain first count old shared) :
    h.world.store.rewind (chain (first + count + 1)).header.height = shared := by
  obtain ⟨blocks, hperm, hblocks, hdistinct, _⟩ := hleft.whole
  have hheight : (chain (first + count + 1)).header.height = first + count + 1 :=
    hchain.height _ (by omega) (by omega)
  refine Processor.rollback_eq hdistinct hblocks hleft.indexed (fun b hb => ?_) fun b hb => ?_
  · obtain ⟨n, hlow, hhigh, rfl⟩ := mem_stretch.mp (hperm.subset hb)
    rw [hheight, hchain.height n hlow (by omega)]
    exact hhigh
  · rw [hheight]
    exact hleft.above b hb

/-- On these tables the fork meets nothing that stands in its way. -/
theorem replay_total (hchain : P.Indexes chain first size)
    (hsize : count + 1 + (old.length + 1) ≤ size) {h : Harvester}
    (hleft : h.LeftBehind P chain first count old shared) {w : World Store AggregatorMsg}
    (hw : w.store = h.world.store) :
    ∃ s', apply ((Job.fork (stretch chain (first + count + 1) (old.length + 1)).reverse).ops P env
      w) w.store = .ok s' := by
  obtain ⟨blocks, hperm, hblocks, _, _⟩ := hleft.whole
  have hall : (blocks ++ (stretch chain (first + count + 1) (old.length + 1)).reverse).Perm
      (stretch chain first (count + 1 + (old.length + 1))) := by
    have hsplit : stretch chain first (count + 1 + (old.length + 1)) = stretch chain first
        (count + 1) ++ stretch chain (first + count + 1) (old.length + 1) := stretch_append _
    rw [hsplit]
    exact hperm.append (List.reverse_perm _)
  obtain ⟨hfresh, hkeyed, hknown⟩ := hchain.ready hsize hall hblocks
  obtain ⟨s', hs'⟩ := Processor.blocksOps_total (env.hashOrder w.clock) 0 hfresh hkeyed hknown
  rw [Job.ops, hw]
  exact ⟨s', (Processor.forkOps_apply _ (stretch_origin _ _ _)
    (hleft.rewind_eq hchain hsize)).trans hs'⟩

end Harvester.LeftBehind

/-- The head of the fork is taken for what it is, and the fork is replayed on the tables of the
blocks that the chains share. -/
theorem reorg_total (hquiet : env.Quiet) (hchain : P.Indexes chain first size)
    (htop : ∀ t, tip t < first + size) (hnode : node.StandsOn since chain first tip)
    {h : Harvester} (hleft : h.LeftBehind P chain first count old shared)
    (hsince : since ≤ h.world.clock)
    (htip : first + count + (old.length + 1) ≤ tip h.world.clock) :
    ∃ h' events, (∀ fuel > old.length + 1, handleReorg P node env fuel
        (chain (first + count + (old.length + 1))) h = .ok () h') ∧
      h'.startHeight = h.startHeight ∧ h'.endHeight = h.endHeight ∧
      h.world.clock ≤ h'.world.clock ∧
      P.Emitted (stretch chain (first + count + 1) (old.length + 1)).reverse shared
        h'.world.store events ∧
      h'.world.channel = h.world.channel ++ .reorg (first + count + 1) :: events.map .event := by
  have hsize : count + 1 + (old.length + 1) ≤ size := by
    have hbelow := htop h.world.clock
    omega
  have hheight : (chain (first + count + 1)).header.height = first + count + 1 :=
    hchain.height _ (by omega) (by omega)
  have horigin := stretch_origin chain (first + count + 1) old.length
  obtain ⟨ticks, hwalk⟩ := walk_total hquiet hchain htop hnode (old.length + 1) hsince htip
    hleft.stored (hleft.unknown hchain hsize)
  obtain ⟨s', hs'⟩ : ∃ s', apply ((Job.fork (stretch chain (first + count + 1)
      (old.length + 1)).reverse).ops P env (h.world.later ticks)) h.world.store = .ok s' :=
    hleft.replay_total hchain hsize rfl
  obtain ⟨w', hrun⟩ := transact_quiet (w := h.world.later ticks) hquiet.faults hs'
  obtain ⟨happly, hchannel⟩ := transact_ok hrun
  obtain ⟨events, hemitted, hmessages⟩ := Processor.jobOps_ok happly
  rw [← Job.run_eq] at hrun
  refine ⟨Harvester.record { h with world := h.world.later ticks }
    (.fork (stretch chain (first + count + 1) (old.length + 1)).reverse) w' true, events,
    fun fuel hfuel => ?_, rfl, rfl, ?_, ?_, ?_⟩
  · unfold handleReorg
    rw [bind_of_ok (hwalk fuel hfuel)]
    have hne : (stretch chain (first + count + 1) (old.length + 1)).reverse ≠ [] := by
      rw [stretch_succ, List.reverse_cons]
      exact List.append_ne_nil_of_right_ne_nil _ (List.cons_ne_nil _ _)
    simp only [hne, if_false, runJob, hrun]
    rfl
  · exact Nat.le_trans (Nat.le_add_right _ _) ((Job.run_ticks P env _).of_ok hrun)
  · rw [Job.base_fork horigin] at hemitted
    exact hleft.rewind_eq hchain hsize ▸ hemitted
  · have hsent : w'.channel = h.world.channel ++ _ := hchannel
    rw [hmessages] at hsent
    simp only [Job.origin, horigin, Option.map_some, Option.toList_some, hheight,
      List.singleton_append] at hsent
    exact hsent

theorem forkTurn_total (hquiet : env.Quiet) (hchain : P.Indexes chain first size)
    (htop : ∀ t, tip t < first + size) (hnode : node.StandsOn since chain first tip)
    {h : Harvester} (hleft : h.LeftBehind P chain first count old shared)
    (hsince : since ≤ h.world.clock)
    (htip : first + count + (old.length + 1) ≤ tip h.world.clock) :
    ∃ h' events, (∀ fuel > old.length + 1, ∀ desired, first + count + old.length < desired →
        catchUp P node env desired (fuel + 1) h = catchUp P node env desired fuel h') ∧
      h'.lastProcessedBlock = some (chain (first + (count + (old.length + 1)))) ∧
      h'.endHeight = h.endHeight ∧ h.world.clock ≤ h'.world.clock ∧
      P.Emitted (stretch chain (first + count + 1) (old.length + 1)).reverse shared
        h'.world.store events ∧
      h'.world.channel = h.world.channel ++ .reorg (first + count + 1) :: events.map .event := by
  obtain ⟨last, hlast, hcursor, hheight⟩ := hleft.cursor
  have hpos : 0 < old.length := List.length_pos_of_mem hlast
  have hlater : tip h.world.clock ≤ tip h.world.tick.tick.clock :=
    hnode.grows (Nat.le_add_right _ 2)
  have hscan : lift .client (node.scanBlock env (first + count + old.length + 1)) h =
      .ok (chain (first + count + old.length + 1)) { h with world := h.world.tick.tick } :=
    lift_ok (hnode.scanBlock hquiet hsince (by omega) htip)
  have hfetched : Harvester.LeftBehind P chain first count old shared
      { h with world := h.world.tick.tick } := hleft.congr rfl rfl
  obtain ⟨h₁, events, hreorg, _, hend, hclock, hemitted, hchannel⟩ :=
    reorg_total hquiet hchain htop hnode hfetched (Nat.le_trans hsince (Nat.le_add_right _ 2))
      (Nat.le_trans htip hlater)
  have hparent : (chain (first + count + old.length + 1)).header.previousBlockHash =
      some (chain (first + count + old.length)).header.hash := by
    have hbelow := htop h.world.clock
    have hlt : count + old.length + 1 < size := by omega
    have hlinked := hchain.linked hlt
    rwa [← Nat.add_assoc] at hlinked
  have hother : last.header.hash ≠ (chain (first + count + old.length)).header.hash := by
    refine (hleft.apart _ (mem_stretch.mpr ⟨_, ?_, ?_, rfl⟩) last hlast).symm
    · omega
    · omega
  refine ⟨h₁.moveTo (chain (first + (count + (old.length + 1)))), events,
    fun fuel hfuel desired hmore => ?_, rfl, hend, Nat.le_trans (Nat.le_add_right _ 2) hclock,
    hemitted, hchannel⟩
  rw [catchUp_step hcursor (by omega), hheight, bind_of_ok hscan]
  have hextend : extend P node env fuel last (chain (first + count + old.length + 1)) =
      handleReorg P node env fuel (chain (first + count + old.length + 1)) := by
    simp only [extend, hparent, hother, if_false]
  rw [hextend]
  refine (bind_of_ok (hreorg fuel hfuel)).trans ?_
  have hhead : first + (count + (old.length + 1)) = first + count + old.length + 1 := by omega
  rw [hhead]
  rfl

theorem forkRound_total (hquiet : env.Quiet) (hchain : P.Indexes chain first size)
    (htop : ∀ t, tip t < first + size) (hnode : node.StandsOn since chain first tip)
    {h : Harvester} (hleft : h.LeftBehind P chain first count old shared)
    (hopen : h.endHeight = none) (hsince : since ≤ h.world.clock)
    (htip : first + count + (old.length + 1) ≤ tip h.world.clock) :
    ∃ h' mid steps replayed later,
      first + (count + (old.length + 1)) + steps = tip h.world.clock ∧
      (∀ fuel > size + 1, harvest P node env fuel h = .ok () h') ∧
      Caught P since chain tip first (count + (old.length + 1) + steps) h' ∧
      P.Emitted (stretch chain (first + count + 1) (old.length + 1)).reverse shared mid replayed ∧
      P.Emitted (stretch chain (first + (count + (old.length + 1)) + 1) steps) mid
        h'.world.store later ∧
      h'.world.channel = h.world.channel ++
        .reorg (first + count + 1) :: (replayed ++ later).map .event := by
  have hbelow := htop h.world.clock
  obtain ⟨steps, hsteps⟩ : ∃ steps,
      first + (count + (old.length + 1)) + steps = tip h.world.clock := by
    obtain ⟨steps, hsteps⟩ := Nat.le.dest htip
    exact ⟨steps, by omega⟩
  have hasked : Harvester.LeftBehind P chain first count old shared
      { h with world := h.world.tick } := hleft.congr rfl rfl
  have hlater : tip h.world.clock ≤ tip h.world.tick.clock := hnode.grows (Nat.le_succ _)
  obtain ⟨h₁, replayed, hturn, hcursor, hend, hclock, hreplayed, hchannel⟩ :=
    forkTurn_total hquiet hchain htop hnode hasked (Nat.le_trans hsince (Nat.le_succ _))
      (Nat.le_trans htip hlater)
  have hcovers : P.Covers chain first (count + (old.length + 1) + 1) h₁.world.store := by
    obtain ⟨blocks, hperm, hblocks⟩ := hleft.covers
    refine ⟨_, ?_, hblocks.append hreplayed.indexedAll⟩
    have hsplit : stretch chain first (count + (old.length + 1) + 1) = stretch chain first
        (count + 1) ++ stretch chain (first + count + 1) (old.length + 1) := by
      rw [Nat.add_right_comm]
      exact stretch_append _
    rw [hsplit]
    exact hperm.append (List.reverse_perm _)
  have hnow : tip h.world.tick.clock ≤ tip h₁.world.clock := hnode.grows hclock
  have hsince₁ : since ≤ h₁.world.clock :=
    Nat.le_trans (Nat.le_trans hsince (Nat.le_succ _)) hclock
  obtain ⟨h', hcatch, hlast, hfollowed⟩ := catchUp_total hquiet hchain htop hnode steps hcursor
    hcovers hsince₁ (by omega)
  obtain ⟨later, hemitted, hsent⟩ := hfollowed.sent
  refine ⟨h', h₁.world.store, steps, replayed, later, hsteps, fun fuel hfuel => ?_,
    ⟨?_, ?_, ?_, ?_, ?_⟩, hreplayed, hemitted, ?_⟩
  · obtain ⟨fuel, rfl⟩ : ∃ k, fuel = k + 1 := ⟨fuel - 1, by omega⟩
    have hsome : h.lastProcessedBlock.isSome := by
      obtain ⟨last, _, hlast, _⟩ := hleft.cursor
      rw [hlast]
      rfl
    rw [harvest_of_cursor hsome (desiredHeight_total hquiet hnode hopen hsince),
      hturn fuel (by omega) _ (by omega), ← hsteps]
    exact hcatch fuel (by omega)
  · rw [hlast, Nat.add_assoc]
  · have hall := hcovers.append hfollowed.indexedAll
    rwa [Nat.add_right_comm] at hall
  · exact (hfollowed.endHeight.trans hend).trans hopen
  · exact Nat.le_trans hsince₁ hfollowed.clock
  · have hgrows : tip h₁.world.clock ≤ tip h'.world.clock := hnode.grows hfollowed.clock
    omega
  · have hchannel : h₁.world.channel =
        h.world.channel ++ .reorg (first + count + 1) :: replayed.map .event := hchannel
    rw [hsent, hchannel, List.map_append, List.append_assoc, List.cons_append]

theorem forkRounds_total (hquiet : env.Quiet) (hchain : P.Indexes chain first size)
    (htop : ∀ t, tip t < first + size) (hnode : node.StandsOn since chain first tip)
    {h : Harvester} (hleft : h.LeftBehind P chain first count old shared)
    (hopen : h.endHeight = none) (hsince : since ≤ h.world.clock)
    (htip : first + count + (old.length + 1) ≤ tip h.world.clock) (rounds : Nat) :
    ∃ h' mid more replayed later,
      (∀ fuels : List Nat, fuels.length = rounds + 1 → (∀ fuel ∈ fuels, size + 1 < fuel) →
        start P node env (fuels.map .harvest) h = .ok () h') ∧
      tip h.world.clock ≤ first + (count + (old.length + 1)) + more ∧
      Caught P since chain tip first (count + (old.length + 1) + more) h' ∧
      P.Emitted (stretch chain (first + count + 1) (old.length + 1)).reverse shared mid replayed ∧
      P.Emitted (stretch chain (first + (count + (old.length + 1)) + 1) more) mid
        h'.world.store later ∧
      h'.world.channel = h.world.channel ++
        .reorg (first + count + 1) :: (replayed ++ later).map .event := by
  obtain ⟨h₁, mid, steps, replayed, part, hsteps, hround, hcaught, hreplayed, hpart, hchannel⟩ :=
    forkRound_total hquiet hchain htop hnode hleft hopen hsince htip
  obtain ⟨h', more, hrest, hlast, hlater⟩ :=
    laterRounds_total hquiet hchain htop hnode rounds hcaught
  obtain ⟨rest, hemitted, hsent⟩ := hlater.sent
  refine ⟨h', mid, steps + more, replayed, part ++ rest, fun fuels hlength hfuels => ?_, ?_, ?_,
    hreplayed, ?_, ?_⟩
  · obtain ⟨fuel, others, rfl⟩ := List.exists_cons_of_length_eq_add_one hlength
    obtain ⟨hfuel, hmany⟩ := List.forall_mem_cons.mp hfuels
    rw [start_round (hround fuel hfuel)]
    exact hrest others (Nat.succ.inj hlength) fun fuel hmem => by
      have hlarge := hmany fuel hmem
      omega
  · omega
  · rw [← Nat.add_assoc]
    exact hlast
  · have hheight : first + (count + (old.length + 1) + steps) + 1 =
        first + (count + (old.length + 1)) + 1 + steps := by omega
    rw [hheight] at hemitted
    rw [stretch_append]
    exact hpart.append hemitted
  · have hevents : (replayed ++ (part ++ rest)).map AggregatorMsg.event =
        (replayed ++ part).map .event ++ rest.map .event := by
      rw [← List.append_assoc, List.map_append]
    rw [hsent, hchannel, hevents, List.append_assoc, List.cons_append]

end Fork

def replacedChain (n : Nat) : BlockInfo :=
  if n = 1 then sharedBlock
  else if n = 2 then blockAt 202 2 101 [coinbaseTx 3 [], spendingTx 4 9 [payTaproot 7 50]]
  else blockAt 203 3 202 [coinbaseTx 5 [payTaproot 8 40]]

theorem replacedChain_indexes : Processor.mainnet.Indexes replacedChain 1 3 where
  height := by
    intro n hlow hhigh
    obtain rfl | rfl | rfl : n = 1 ∨ n = 2 ∨ n = 3 := by omega
    · rfl
    · rfl
    · rfl
  valid := Processor.quietFork_diverges.new
  known := by decide +kernel

theorem replacedChain_standing (since : Nat) :
    (Node.ofBlocks (sharedBlock :: quietFork)).StandsOn since replacedChain 1 (fun _ => 3) where
  count := fun _ => rfl
  hash := by
    intro t n _ hlow hhigh
    obtain rfl | rfl | rfl : n = 1 ∨ n = 2 ∨ n = 3 := by omega
    · rfl
    · rfl
    · rfl
  header := by
    intro t n _ hlow hhigh
    obtain rfl | rfl | rfl : n = 1 ∨ n = 2 ∨ n = 3 := by omega
    · rfl
    · rfl
    · rfl
  body := by
    intro t n _ hlow hhigh
    obtain rfl | rfl | rfl : n = 1 ∨ n = 2 ∨ n = 3 := by omega
    · rfl
    · rfl
    · rfl
  grows := fun _ => Nat.le_refl _

theorem harvesterAt_leftBehind : (harvesterAt [sharedBlock, orphanBlock]).LeftBehind
    Processor.mainnet replacedChain 1 0 [orphanBlock] (indexed [sharedBlock]).store := by
  have hshared := Processor.processAll_ok
    (Processor.indexed_ok [sharedBlock] (by decide +kernel))
  have hdistinct := Processor.quietFork_diverges.old.left.distinct
  have hboth : Processor.mainnet.IndexedAll ([sharedBlock] ++ [orphanBlock]) Store.empty
      (indexed [sharedBlock, orphanBlock]).store := Processor.processAll_ok
    (Processor.indexed_ok [sharedBlock, orphanBlock] (by decide +kernel))
  obtain ⟨s, hfirst, horphan⟩ := hboth.split
  obtain rfl : s = (indexed [sharedBlock]).store :=
    (hfirst.tables hdistinct).unique (hshared.tables hdistinct)
  refine ⟨⟨[sharedBlock], List.Perm.refl _, hshared⟩, horphan, ?_, ?_, ?_, ?_⟩
  · constructor <;> decide
  · decide
  · exact ⟨orphanBlock, List.mem_cons_self, rfl, rfl⟩
  · decide

end BtcIndexer
