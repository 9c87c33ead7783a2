import BtcIndexer.LiveRules

/-! Where a round ends when the chain of the node stays as it is during the round. The loop of
a round is driven by heights: it looks at no block unless one is due above the cursor. A
replacement of the chain is seen from a higher tip, and missed from a tip at or below the
height of the cursor. -/
namespace BtcIndexer
open Stateful Outbox Rows

/-- Between two ticks the node has one chain with one tip. -/
structure Node.Fixed (node : Node) (since before : Nat) (chain : Nat → BlockHash) (top : Nat) :
    Prop where
  tip : ∀ {t number}, since ≤ t → t < before → node.getBlockCount t = .ok number → number = top
  named : ∀ {t number hash}, since ≤ t → t < before → node.getBlockHash t number = .ok hash →
    hash = chain number ∧ number ≤ top
  linked : ∀ {t number header}, number < top →
    node.getBlockHeader t (chain (number + 1)) = .ok header →
    header.previousBlockHash = some (chain number)

namespace Node.Fixed

variable {node : Node} {since before top : Nat} {chain : Nat → BlockHash}

theorem shrink {before' : Nat} (h : node.Fixed since before chain top) (hle : before' ≤ before) :
    node.Fixed since before' chain top where
  tip := fun hlow hhigh => h.tip hlow (Nat.lt_of_lt_of_le hhigh hle)
  named := fun hlow hhigh => h.named hlow (Nat.lt_of_lt_of_le hhigh hle)
  linked := h.linked

theorem shown {number : Nat} {block : BlockInfo} (h : node.Fixed since before chain top)
    (hshows : node.Shows since before number block) :
    block.header.height ≤ top ∧ block.header.hash = chain block.header.height := by
  obtain ⟨t, hlow, hhigh, hanswer⟩ := hshows.hash
  obtain ⟨hhash, hle⟩ := h.named hlow hhigh hanswer
  rw [hshows.height]
  exact ⟨hle, hhash⟩

end Node.Fixed

/-- The cursor is the tip, and every row is that of the block of the chain at its height. -/
structure Converged (chain : Nat → BlockHash) (top : Nat) (h : Harvester) : Prop where
  cursor : ∃ block, h.lastProcessedBlock = some block ∧ block.header.height = top ∧
    block.header.hash = chain top
  rows : ∀ row ∈ h.world.store.blocks, row.number ≤ top ∧ row.hash = chain row.number

/-- The rows are consecutive and the last of them is that of the block. -/
structure Store.EndsAt (s : Store) (block : BlockInfo) : Prop where
  le : ∀ row ∈ s.blocks, row.number ≤ block.header.height
  agrees : s.Agrees block
  dense : ∀ row ∈ s.blocks, ∀ number, row.number ≤ number → number ≤ block.header.height →
    number ∈ s.blocks.map BlockRow.number

/-- The rows form one branch. It ends at the cursor or, where a call that was dropped may have
taken effect, at a block right above it. -/
structure Tracked (late : Prop) (node : Node) (h : Harvester) : Prop where
  knows : node.Knows h.world.store
  linked : h.world.store.Linked
  fresh : h.lastProcessedBlock = none → h.world.store.blocks = []
  cursor : ∀ block, h.lastProcessedBlock = some block → h.world.store.EndsAt block ∨
    late ∧ ∃ head, node.Seen head ∧ head.header.height = block.header.height + 1 ∧
      head.header.hash ∈ h.world.store.blocks.map BlockRow.hash ∧ h.world.store.EndsAt head

theorem Store.EndsAt.of_nil {s : Store} (h : s.blocks = []) (block : BlockInfo) :
    s.EndsAt block := by
  have hnone : ∀ row ∈ s.blocks, False := fun row hrow => by
    rw [h] at hrow
    cases hrow
  exact ⟨fun row hrow => (hnone row hrow).elim, fun row hrow => (hnone row hrow).elim,
    fun row hrow => (hnone row hrow).elim⟩

theorem Store.EndsAt.nil {s : Store} {block : BlockInfo} (h : s.EndsAt block)
    (hbelow : ∀ row ∈ s.blocks, row.number < block.header.height) : s.blocks = [] := by
  refine List.eq_nil_iff_forall_not_mem.mpr fun row hrow => ?_
  have hlow := hbelow row hrow
  obtain ⟨own, hown, hat⟩ := List.mem_map.mp
    (h.dense row hrow block.header.height (Nat.le_of_lt hlow) (Nat.le_refl _))
  have hown := hbelow own hown
  omega

theorem Tracked.same {late : Prop} {node : Node} {h k : Harvester} (htracked : Tracked late node h)
    (hstore : k.world.store = h.world.store)
    (hcursor : k.lastProcessedBlock = h.lastProcessedBlock) : Tracked late node k := by
  refine ⟨?_, ?_, ?_, ?_⟩
  · rw [hstore]
    exact htracked.knows
  · rw [hstore]
    exact htracked.linked
  · rw [hstore, hcursor]
    exact htracked.fresh
  · rw [hstore, hcursor]
    exact htracked.cursor

theorem Tracked.arrive {late : Prop} {node : Node} {h : Harvester} {block : BlockInfo}
    (hcursor : h.lastProcessedBlock = some block)
    (hrows : node.Knows h.world.store ∧ h.world.store.Linked ∧ h.world.store.EndsAt block) :
    Tracked late node h := by
  obtain ⟨hknows, hlinked, hends⟩ := hrows
  refine ⟨hknows, hlinked, fun hnone => ?_, fun other hother => .inl ?_⟩
  · rw [hcursor] at hnone
    cases hnone
  · rw [hcursor] at hother
    cases hother
    exact hends

section Steps

variable {late : Prop} {P : Processor} {node : Node} {env : DbEnv} {since : Nat}

theorem Processor.Indexed.endsAt {block : BlockInfo} {s s' : Store} (hnode : node.Consistent)
    (h : P.Indexed block s s') (hseen : node.Seen block) (hknows : node.Knows s)
    (hlinked : s.Linked) (hbelow : s.FitsBelow block)
    (habove : ∀ row ∈ s.blocks, row.number < block.header.height)
    (hdense : ∀ row ∈ s.blocks, ∀ number, row.number ≤ number →
      number < block.header.height → number ∈ s.blocks.map BlockRow.number) :
    node.Knows s' ∧ s'.Linked ∧ s'.EndsAt block := by
  have hfits : s.FitsAbove block := by
    intro _ row hrow hat
    have hlow := habove row hrow
    omega
  obtain ⟨hknows', hlinked', hagrees⟩ := h.linked hnode hseen hknows hlinked hbelow hfits
  obtain ⟨own, hown, hnumber, _⟩ := h.row_at hnode hseen hknows
  refine ⟨hknows', hlinked', fun row hrow => ?_, hagrees, fun row hrow number hlow hhigh => ?_⟩
  · rcases h.row_cases hrow with hold | ⟨_, hat, _⟩
    · exact Nat.le_of_lt (habove row hold)
    · exact Nat.le_of_eq hat
  · by_cases htop : number = block.header.height
    · rw [htop, ← hnumber]
      exact List.mem_map_of_mem hown
    · rcases h.row_cases hrow with hold | ⟨_, hat, _⟩
      · obtain ⟨other, hother, rfl⟩ := List.mem_map.mp (hdense row hold number hlow (by omega))
        exact List.mem_map_of_mem (h.row_mem hother)
      · omega

theorem Processor.Indexed.endsAt_of_nil {block : BlockInfo} {s s' : Store}
    (hnode : node.Consistent) (h : P.Indexed block s s') (hseen : node.Seen block)
    (hknows : node.Knows s) (hlinked : s.Linked) (hempty : s.blocks = []) :
    node.Knows s' ∧ s'.Linked ∧ s'.EndsAt block := by
  have hnorow : ∀ row ∈ s.blocks, False := fun row hrow => by
    rw [hempty] at hrow
    cases hrow
  exact h.endsAt hnode hseen hknows hlinked (fun row hrow => (hnorow row hrow).elim)
    (fun row hrow => (hnorow row hrow).elim) fun row hrow => (hnorow row hrow).elim

/-- At a height that is taken a block can only be stored again. -/
theorem Processor.Indexed.again {block head : BlockInfo} {s s' : Store} (hnode : node.Consistent)
    (h : P.Indexed block s s') (hseen : node.Seen block) (hknows : node.Knows s)
    (hhead : node.Seen head) (hstored : head.header.hash ∈ s.blocks.map BlockRow.hash)
    (hsame : block.header.height = head.header.height) :
    s'.blocks = s.blocks ∧ block.header.hash = head.header.hash := by
  obtain ⟨own, hown, hhash⟩ := List.mem_map.mp hstored
  have hat := hnode.row_height hknows hown hhead hhash
  rcases h.stored hseen.txdata with ⟨hblocks, hmem⟩ | ⟨hfree, _⟩
  · obtain ⟨row, hrow, hblock⟩ := List.mem_map.mp hmem
    have hnumber := hnode.row_height hknows hrow hseen hblock
    have hrows : row = own := s.numberKey.eq_of_key hrow hown (by omega)
    exact ⟨hblocks, by rw [← hblock, ← hhash, hrows]⟩
  · exact absurd (List.mem_map_of_mem (f := BlockRow.number) hown) (by rwa [hat, ← hsame])

theorem processFork_endsAt {block tip : BlockInfo} {blocks : List BlockInfo}
    {w w' : World Store AggregatorMsg} (hnode : node.Consistent)
    (hwalk : Walked node w.store block blocks) (hseen : node.Seen block) (hne : blocks ≠ [])
    (hknows : node.Knows w.store) (hlinked : w.store.Linked) (hends : w.store.EndsAt tip)
    (hlow : tip.header.height ≤ block.header.height)
    (hhigh : block.header.height ≤ tip.header.height + 1)
    (h : P.processFork env blocks w = .ok () w') :
    node.Knows w'.store ∧ w'.store.Linked ∧ w'.store.EndsAt block := by
  obtain ⟨hknows', hlinked', hagrees⟩ := Processor.processFork_linked hnode hwalk hseen hne hknows
    hlinked h
  have hlast := List.getLast?_eq_some_getLast hne
  have hcases := fun row (hrow : row ∈ w'.store.blocks) =>
    Processor.processFork_rows hnode hwalk hseen hlast h hrow
  refine ⟨hknows', hlinked', fun row hrow => ?_, hagrees, fun row hrow number hfrom hto => ?_⟩
  · rcases hcases row hrow with ⟨hold, _⟩ | ⟨b, hb, _, hnumber, _⟩
    · exact Nat.le_trans (hends.le row hold) hlow
    · rw [hnumber]
      exact (hwalk.member hnode hseen hb).2.2
  · refine Processor.processFork_stores hnode hwalk hseen hlast h ?_
    by_cases hbelow : number < (blocks.getLast hne).header.height
    · left
      refine ⟨hbelow, ?_⟩
      have horigin := (hwalk.member hnode hseen (List.getLast_mem hne)).2.2
      rcases hcases row hrow with ⟨hold, _⟩ | ⟨b, hb, _, hnumber, _⟩
      · exact hends.dense row hold number hfrom (by omega)
      · have hge := hwalk.origin_le hnode hseen hlast hb
        omega
    · exact .inr (hwalk.covers hnode hseen hlast (Nat.le_of_not_lt hbelow) hto)

theorem Tracked.next {h : Harvester} {prevBlock block : BlockInfo} {s' : Store}
    (htracked : Tracked late node h) (hnode : node.Consistent)
    (hcursor : h.lastProcessedBlock = some prevBlock) (hseen : node.Seen block)
    (hheight : block.header.height = prevBlock.header.height + 1)
    (hprev : block.header.previousBlockHash = some prevBlock.header.hash)
    (hindexed : P.Indexed block h.world.store s') :
    node.Knows s' ∧ s'.Linked ∧ s'.EndsAt block := by
  rcases htracked.cursor prevBlock hcursor with hends | ⟨_, head, hhead, hat, hstored, hends⟩
  · exact hindexed.endsAt hnode hseen htracked.knows htracked.linked
      (fun row hrow hbelow => by rw [hprev, hends.agrees row hrow (by omega)])
      (fun row hrow => by have hle := hends.le row hrow; omega)
      fun row hrow number hlow hhigh => hends.dense row hrow number hlow (by omega)
  · obtain ⟨hblocks, hhash⟩ := hindexed.again hnode hseen htracked.knows hhead hstored
      (hheight.trans hat.symm)
    refine ⟨?_, ?_, ?_, ?_, ?_⟩
    · unfold Node.Knows
      rw [hblocks]
      exact htracked.knows
    · unfold Store.Linked
      rw [hblocks]
      exact htracked.linked
    · rw [hblocks, hheight, ← hat]
      exact hends.le
    · unfold Store.Agrees
      rw [hblocks, hheight, ← hat, hhash]
      exact hends.agrees
    · rw [hblocks, hheight, ← hat]
      exact hends.dense

theorem Tracked.fork {h : Harvester} {prevBlock block : BlockInfo} {blocks : List BlockInfo}
    {before w' : World Store AggregatorMsg} (htracked : Tracked late node h)
    (hnode : node.Consistent) (hcursor : h.lastProcessedBlock = some prevBlock)
    (hstore : h.world.store = before.store) (hseen : node.Seen block)
    (hheight : block.header.height = prevBlock.header.height + 1)
    (hwalk : Walked node before.store block blocks) (hne : blocks ≠ [])
    (hrun : P.processFork env blocks before = .ok () w') :
    node.Knows w'.store ∧ w'.store.Linked ∧ w'.store.EndsAt block := by
  obtain ⟨hknows, hlinked, _, hcases⟩ := htracked
  rw [hstore] at hknows hlinked hcases
  rcases hcases prevBlock hcursor with hends | ⟨_, head, _, hat, _, hends⟩
  · exact processFork_endsAt hnode hwalk hseen hne hknows hlinked hends (by omega) (by omega) hrun
  · exact processFork_endsAt hnode hwalk hseen hne hknows hlinked hends (by omega) (by omega) hrun

theorem tracked_stepwise (hnode : node.Consistent) (env : DbEnv) :
    Stepwise P node env since (Tracked late node) where
  steady := fun h w hstore _ _ htracked => htracked.same hstore rfl
  first := by
    intro h desired block w committed htracked hnone _ hshows hsound
    have hempty := htracked.fresh hnone
    cases committed with
    | true =>
        exact .arrive rfl (hsound.indexed.endsAt_of_nil hnode hshows.seen htracked.knows
          htracked.linked hempty)
    | false =>
        have hstore : w.store = h.world.store := hsound.store_eq
        exact .arrive rfl ⟨hstore ▸ htracked.knows, hstore ▸ htracked.linked,
          .of_nil (hstore ▸ hempty) block⟩
  next := by
    intro h prevBlock block w htracked hcursor hshows hprev hrun
    exact .arrive rfl (htracked.next hnode hcursor hshows.seen hshows.height hprev
      (Processor.process_ok hrun))
  fork := by
    intro h prevBlock block blocks w htracked hcursor hshows _ hwalk hne hrun
    exact .arrive rfl (htracked.fork hnode hcursor rfl hshows.seen hshows.height hwalk hne hrun)
  failed := fun h job e w htracked _ _ hrun => htracked.same (Job.run_error hrun) rfl

/-- A dropped call that takes effect leaves its block above the cursor. -/
theorem Tracked.overtake {k : Harvester} {prevBlock block : BlockInfo} {own : BlockRow}
    (hlate : late) (hcursor : k.lastProcessedBlock = some prevBlock) (hseen : node.Seen block)
    (hheight : block.header.height = prevBlock.header.height + 1)
    (hown : own ∈ k.world.store.blocks) (hhash : own.hash = block.header.hash)
    (hrows : node.Knows k.world.store ∧ k.world.store.Linked ∧ k.world.store.EndsAt block) :
    Tracked late node k := by
  obtain ⟨hknows, hlinked, hends⟩ := hrows
  refine ⟨hknows, hlinked, fun hnone => ?_, fun other hother => .inr ⟨hlate, block, hseen, ?_⟩⟩
  · rw [hcursor] at hnone
    cases hnone
  · rw [hcursor] at hother
    cases hother
    exact ⟨hheight, hhash ▸ List.mem_map_of_mem hown, hends⟩

theorem tracked_lively (hnode : node.Consistent) :
    Lively (fun job => late ∨ ∃ block, job = .first block) P node env (Tracked late node) where
  stepwise := tracked_stepwise hnode
  landed := by
    intro h entries job before after w htracked hlands _ hstore handed hrun
    cases job with
    | first block =>
        obtain ⟨hcursor, hseen, hbelow⟩ := handed
        rw [← hstore] at hbelow
        have hempty : h.world.store.blocks = [] := by
          rcases htracked.cursor block hcursor with hends | ⟨_, head, hhead, hat, hstored, _⟩
          · exact hends.nil hbelow
          · obtain ⟨own, hown, hhash⟩ := List.mem_map.mp hstored
            have hnumber := hnode.row_height htracked.knows hown hhead hhash
            have hlow := hbelow own hown
            omega
        have hindexed : P.Indexed block h.world.store w.store :=
          hstore ▸ Processor.process_ok hrun
        exact .arrive hcursor (hindexed.endsAt_of_nil hnode hseen htracked.knows htracked.linked
          hempty)
    | next block =>
        obtain ⟨prevBlock, hcursor, hseen, hheight, hprev⟩ := handed
        have hlate : late := hlands.resolve_right (by simp)
        have hindexed : P.Indexed block h.world.store w.store :=
          hstore ▸ Processor.process_ok hrun
        obtain ⟨own, hown, _, hhash⟩ := hindexed.row_at hnode hseen htracked.knows
        exact .overtake hlate hcursor hseen hheight hown hhash
          (htracked.next hnode hcursor hseen hheight hprev hindexed)
    | fork blocks =>
        obtain ⟨prevBlock, block, hcursor, hseen, hheight, _, hwalk, hne⟩ := handed
        have hlate : late := hlands.resolve_right (by simp)
        obtain ⟨rest, hrest⟩ := hwalk.head hne
        obtain ⟨own, hown, hhash, _⟩ := Processor.processFork_row hnode hwalk hseen
          (List.getLast?_eq_some_getLast hne) hrun (hrest ▸ List.mem_cons_self : block ∈ blocks)
        exact .overtake hlate hcursor hseen hheight hown hhash
          (htracked.fork hnode hcursor hstore hseen hheight hwalk hne hrun)

theorem tracked_boundless : Boundless (Tracked late node) := fun _ _ _ htracked =>
  htracked.same rfl rfl

theorem tracked_new (node : Node) (clock : Nat) (startHeight endHeight : Option Nat) :
    Tracked late node (Harvester.new ⟨Store.empty, [], clock⟩ startHeight endHeight) := by
  refine ⟨?_, ?_, fun _ => rfl, fun block hsome => ?_⟩
  · intro row hrow
    cases hrow
  · intro row hrow
    cases hrow
  · cases hsome

/-- A harvester that has followed the node since it started on empty tables, and was not moved by
a scan, has rows that form one branch. -/
theorem tracked_live (hnode : node.Consistent) {moments : List Moment} {h k : Harvester}
    (hmoments : ∀ moment ∈ moments, ∀ first last,
      moment.command ≠ some (.scanBlock first last))
    (hpending : h.Pending node) (htracked : Tracked late node h)
    (hlands : LandsOnly (fun job => late ∨ ∃ block, job = .first block) P node env moments h)
    (hrun : live P node env moments h = .ok () k) : Tracked late node k := by
  have hlively : Lively (fun job => late ∨ ∃ block, job = .first block) P node env
      (Tracked late node) := tracked_lively hnode
  have hobeyed : ∀ moment ∈ moments, Obeyed node env (Tracked late node) moment :=
    fun moment hmoment command hcommand =>
      obey_command hnode (hlively.stepwise env).steady tracked_boundless (fun _ _ => Nat.zero_le _)
        command fun first last hscan =>
          absurd (hscan ▸ hcommand) (hmoments moment hmoment first last)
  have hend := (hlively.live hnode moments hobeyed ⟨hpending, htracked⟩ hlands).1.2
  rw [hrun] at hend
  exact hend

/-- With the cursor on the chain and the rows ending there, the rows are of the chain: down from
the cursor, each names the one below. -/
theorem Tracked.rows_on {h : Harvester} {block : BlockInfo} {before top : Nat}
    {chain : Nat → BlockHash} (htracked : Tracked late node h)
    (hfixed : node.Fixed since before chain top) (hends : h.world.store.EndsAt block)
    (hle : block.header.height ≤ top) (hon : block.header.hash = chain block.header.height) :
    ∀ row ∈ h.world.store.blocks, row.number ≤ top ∧ row.hash = chain row.number := by
  have hdown : ∀ gap, ∀ row ∈ h.world.store.blocks, row.number + gap = block.header.height →
      row.hash = chain row.number := by
    intro gap
    induction gap with
    | zero =>
        intro row hrow hat
        have hat : row.number = block.header.height := hat
        rw [hends.agrees row hrow hat, hon, hat]
    | succ gap ih =>
        intro row hrow hat
        obtain ⟨above, habove, hnext⟩ := List.mem_map.mp
          (hends.dense row hrow (row.number + 1) (Nat.le_succ _) (by omega))
        have hhash := ih above habove (by omega)
        obtain ⟨t, header, hheader, _, hprev⟩ := htracked.knows above habove
        rw [hhash, hnext] at hheader
        have hlinked := htracked.linked row hrow above habove hnext
        rw [hprev, hfixed.linked (by omega) hheader] at hlinked
        exact (Option.some.inj hlinked).symm
  intro row hrow
  have hbelow := hends.le row hrow
  exact ⟨Nat.le_trans hbelow hle, hdown (block.header.height - row.number) row hrow (by omega)⟩

/-- While the chain stays, cursor and tables are as they were when the round began, or the cursor
has gone up on the chain and the rows end there. -/
def Followed (node : Node) (since : Nat) (chain : Nat → BlockHash) (top : Nat)
    (old : BlockInfo) (s : Store) (h : Harvester) : Prop :=
  node.Fixed since h.world.clock chain top → ∃ block, h.lastProcessedBlock = some block ∧
    (block = old ∧ h.world.store = s ∨ old.header.height < block.header.height ∧
      block.header.height ≤ top ∧ block.header.hash = chain block.header.height ∧
      h.world.store.EndsAt block)

theorem Followed.up {chain : Nat → BlockHash} {top before : Nat} {old prevBlock block : BlockInfo}
    {s : Store} {h k : Harvester} (hfollowed : Followed node since chain top old s h)
    (hcursor : h.lastProcessedBlock = some prevBlock)
    (hshows : node.Shows since before (prevBlock.header.height + 1) block)
    (hbefore : before = h.world.clock) (hclock : h.world.clock ≤ k.world.clock)
    (hmoved : k.lastProcessedBlock = some block) (hends : k.world.store.EndsAt block) :
    Followed node since chain top old s k := by
  subst hbefore
  intro hfixed
  have hearlier := hfixed.shrink hclock
  obtain ⟨other, hother, hwhere⟩ := hfollowed hearlier
  rw [hcursor] at hother
  cases hother
  obtain ⟨hle, hon⟩ := hearlier.shown hshows
  have hheight := hshows.height
  refine ⟨block, hmoved, .inr ⟨?_, hle, hon, hends⟩⟩
  rcases hwhere with ⟨rfl, _⟩ | ⟨hup, _⟩
  · omega
  · omega

theorem followed_stepwise {chain : Nat → BlockHash} {top : Nat} {old : BlockInfo} {s : Store}
    (hnode : node.Consistent) : Stepwise P node env since
      (fun h => Tracked late node h ∧ Followed node since chain top old s h) where
  steady := by
    intro h w hstore _ hclock hboth
    refine ⟨hboth.1.same hstore rfl, fun hfixed => ?_⟩
    obtain ⟨block, hcursor, hwhere⟩ := hboth.2 (hfixed.shrink hclock)
    refine ⟨block, hcursor, ?_⟩
    change block = old ∧ w.store = s ∨ _ ∧ _ ∧ _ ∧ w.store.EndsAt block
    rw [hstore]
    exact hwhere
  first := by
    intro h desired block w committed hboth hnone hdesired hshows hsound
    refine ⟨(tracked_stepwise hnode env).first h desired block w committed hboth.1 hnone hdesired
      hshows hsound, fun hfixed => ?_⟩
    obtain ⟨other, hsome, _⟩ := hboth.2 (hfixed.shrink hsound.clock_le)
    rw [hnone] at hsome
    cases hsome
  next := by
    intro h prevBlock block w hboth hcursor hshows hprev hrun
    have hrows := hboth.1.next hnode hcursor hshows.seen hshows.height hprev
      (Processor.process_ok hrun)
    exact ⟨.arrive rfl hrows, hboth.2.up hcursor hshows rfl
      ((Job.run_ticks P env (.next block)).of_ok hrun) rfl hrows.2.2⟩
  fork := by
    intro h prevBlock block blocks w hboth hcursor hshows _ hwalk hne hrun
    have hrows := hboth.1.fork hnode hcursor rfl hshows.seen hshows.height hwalk hne hrun
    exact ⟨.arrive rfl hrows, hboth.2.up hcursor hshows rfl
      ((Job.run_ticks P env (.fork blocks)).of_ok hrun) rfl hrows.2.2⟩
  failed := by
    intro h job e w hboth hlater handed hrun
    have hstore := Job.run_error hrun
    refine ⟨hboth.1.same hstore rfl, fun hfixed => ?_⟩
    obtain ⟨block, hcursor, hwhere⟩ :=
      hboth.2 (hfixed.shrink ((Job.run_ticks P env job).of_error hrun))
    refine ⟨block, hcursor, ?_⟩
    change block = old ∧ w.store = s ∨ _ ∧ _ ∧ _ ∧ w.store.EndsAt block
    rw [hstore]
    exact hwhere

/-- Where a round that returns leaves a harvester that tracked the node: at the tip or above it,
with cursor and tables as they were exactly if the cursor was not below the tip. -/
theorem harvest_followed {chain : Nat → BlockHash} {top fuel : Nat} {h k : Harvester}
    {old : BlockInfo} (hnode : node.Consistent) (htracked : Tracked late node h)
    (hcursor : h.lastProcessedBlock = some old) (hbound : h.endHeight = none)
    (hharvest : harvest P node env fuel h = .ok () k)
    (hfixed : node.Fixed h.world.clock k.world.clock chain top) :
    Tracked late node k ∧ ∃ block, k.lastProcessedBlock = some block ∧
      (top ≤ old.header.height ∧ block = old ∧ k.world.store = h.world.store ∨
        old.header.height < top ∧ block.header.height = top ∧ block.header.hash = chain top ∧
          k.world.store.EndsAt block) := by
  have hsteps : Stepwise P node env h.world.clock (fun k => Tracked late node k ∧
      Followed node h.world.clock chain top old h.world.store k) := followed_stepwise hnode
  obtain ⟨_, htracked', hfollowed⟩ := (hsteps.timed.harvest hnode fuel).of_ok
    ⟨Nat.le_refl _, htracked, fun _ => ⟨old, hcursor, .inl ⟨rfl, rfl⟩⟩⟩ hharvest
  obtain ⟨block, hblock, hwhere⟩ := hfollowed hfixed
  obtain ⟨desired, arrived, hdesires, harrived, hle, hstays⟩ := harvest_arrives hnode hharvest
  rw [hblock] at harrived
  cases harrived
  have htop : desired = top := by
    rw [hbound] at hdesires
    obtain ⟨t, hlow, hhigh, hanswer⟩ := hdesires
    exact hfixed.tip hlow hhigh hanswer
  subst htop
  refine ⟨htracked', block, hblock, ?_⟩
  rcases hwhere with ⟨rfl, hstore⟩ | ⟨hup, hlow, hon, hends⟩
  · exact .inl ⟨hle, rfl, hstore⟩
  · have hat : block.header.height = desired := Nat.le_antisymm hlow hle
    exact .inr ⟨by omega, hat, hat ▸ hon, hends⟩

end Steps

/-- Without a commit that takes effect after its round was dropped, other than that of a first
block, no row lies above the cursor. -/
theorem live_no_row_above (P : Processor) (node : Node) (env : DbEnv) (moments : List Moment)
    {clock : Nat} {startHeight endHeight : Option Nat} {h : Harvester} {block : BlockInfo}
    (hnode : node.Consistent)
    (hmoments : ∀ moment ∈ moments, ∀ first last,
      moment.command ≠ some (.scanBlock first last))
    (hlands : LandsOnly (fun job => ∃ block, job = .first block) P node env moments
      (Harvester.new ⟨Store.empty, [], clock⟩ startHeight endHeight))
    (hrun : live P node env moments
      (Harvester.new ⟨Store.empty, [], clock⟩ startHeight endHeight) = .ok () h)
    (hcursor : h.lastProcessedBlock = some block) :
    ∀ row ∈ h.world.store.blocks, row.number ≤ block.header.height := by
  have htracked : Tracked False node h :=
    tracked_live hnode hmoments (pending_new node _ startHeight endHeight)
      (tracked_new node clock startHeight endHeight) (by simpa using hlands) hrun
  rcases htracked.cursor block hcursor with hends | ⟨hnever, _⟩
  · exact hends.le
  · exact hnever.elim

/-- A round that returns, on a chain that stays during the round whatever it replaced before:
its cursor is the tip and the rows are those of the chain, exactly if the tip is above the
height the cursor had, or is the block the cursor was at and no row lay above it. -/
theorem converged_iff (P : Processor) (node : Node) (env : DbEnv) (moments : List Moment)
    (chain : Nat → BlockHash) {clock top fuel : Nat} {startHeight endHeight : Option Nat}
    {h k : Harvester} {old : BlockInfo} (hnode : node.Consistent)
    (hmoments : ∀ moment ∈ moments, ∀ first last,
      moment.command ≠ some (.scanBlock first last))
    (hrun : live P node env moments
      (Harvester.new ⟨Store.empty, [], clock⟩ startHeight endHeight) = .ok () h)
    (hcursor : h.lastProcessedBlock = some old) (hbound : h.endHeight = none)
    (hharvest : harvest P node env fuel h = .ok () k)
    (hfixed : node.Fixed h.world.clock k.world.clock chain top) :
    Converged chain top k ↔ old.header.height < top ∨
      old.header.height = top ∧ old.header.hash = chain top ∧
        ∀ row ∈ h.world.store.blocks, row.number ≤ old.header.height := by
  have htracked : Tracked True node h :=
    tracked_live hnode hmoments (pending_new node _ startHeight endHeight)
      (tracked_new node clock startHeight endHeight)
      (landsOnly_of_all (fun _ => .inl trivial) P node env moments _) hrun
  obtain ⟨htracked', block, hblock, hwhere⟩ :=
    harvest_followed hnode htracked hcursor hbound hharvest hfixed
  constructor
  · rintro ⟨⟨cursor, hsome, hat, hon⟩, hrows⟩
    rw [hblock] at hsome
    cases hsome
    rcases hwhere with ⟨hle, rfl, hstore⟩ | ⟨hlow, _⟩
    · exact .inr ⟨hat, hon, fun row hrow => hat ▸ (hrows row (hstore ▸ hrow)).1⟩
    · exact .inl hlow
  · rintro (hlow | ⟨hat, hon, hbelow⟩)
    · obtain ⟨_, hat, hon, hends⟩ := hwhere.resolve_left fun hstay => by omega
      exact ⟨⟨block, hblock, hat, hon⟩, htracked'.rows_on hfixed hends (Nat.le_of_eq hat)
        (by rw [hon, hat])⟩
    · obtain ⟨_, rfl, hstore⟩ := hwhere.resolve_right fun hup => by omega
      have hends : k.world.store.EndsAt block := by
        rcases htracked'.cursor block hblock with hends | ⟨_, head, hhead, habove, hstored, _⟩
        · exact hends
        · obtain ⟨own, hown, hhash⟩ := List.mem_map.mp hstored
          have hnumber := hnode.row_height htracked'.knows hown hhead hhash
          have hlow := hbelow own (hstore ▸ hown)
          omega
      exact ⟨⟨block, hblock, hat, hon⟩, htracked'.rows_on hfixed hends (Nat.le_of_eq hat)
        (by rw [hon, hat])⟩

/-- The blocks stand for a whole chain with its tip last. -/
def Whole (blocks : List BlockInfo) (top : Nat) : Prop :=
  (blocks.getLast?.map (fun b => b.header.height)).getD 0 = top ∧
    (∀ b ∈ blocks, b.header.height ≤ top) ∧
    ∀ number ∈ List.range top, number + 1 ∈ blocks.map (fun b => b.header.height)

instance (blocks : List BlockInfo) (top : Nat) : Decidable (Whole blocks top) :=
  inferInstanceAs (Decidable (_ ∧ (∀ b ∈ blocks, _) ∧ ∀ number ∈ List.range top, _))

theorem Node.switching_fixed {old new : List BlockInfo} {top tick since : Nat}
    (hbranching : Branching (old ++ new)) (hunbroken : Unbroken new) (hwhole : Whole new top)
    (hle : tick ≤ since) (before : Nat) :
    (Node.switching old new tick).Fixed since before (chainOf new) top where
  tip := by
    intro t number ht _ hcount
    have hlater : (Node.switching old new tick).getBlockCount t =
        (Node.ofBlocks new).getBlockCount t := by
      simp only [Node.switching, Nat.not_lt_of_le (Nat.le_trans hle ht), if_false]
    rw [hlater] at hcount
    cases hcount
    exact hwhole.1
  named := by
    intro t number hash ht _ hanswer
    rw [Node.switching_hash (Nat.le_trans hle ht)] at hanswer
    obtain ⟨b, hb, hnumber, _⟩ := Node.ofBlocks_hash hanswer
    exact ⟨Node.ofBlocks_chainOf hanswer, hnumber ▸ hwhole.2.1 b hb⟩
  linked := by
    intro t number header hlow hheader
    obtain ⟨b, hb, hat⟩ := List.mem_map.mp (hwhole.2.2 number (List.mem_range.mpr hlow))
    have hsome : (new.find? (fun b => b.header.height = number + 1)).isSome :=
      List.find?_isSome.mpr ⟨b, hb, decide_eq_true hat⟩
    obtain ⟨c, hfind⟩ := Option.isSome_iff_exists.mp hsome
    obtain ⟨hc, hnumber⟩ := find?_key_some hfind
    have hchain : chainOf new (number + 1) = c.header.hash := by
      unfold chainOf
      rw [hfind]
      rfl
    rw [hchain] at hheader
    exact hunbroken.below hbranching hc hnumber hheader

/-- One round before the change. -/
def followedOld (new : List BlockInfo) : Harvester :=
  final (live Processor.mainnet (Node.switching oldBranch new 9) DbEnv.calm [.round 3]
    (Harvester.new ⟨Store.empty, [], 0⟩ (some 1) none))

def followedNew (new : List BlockInfo) : Harvester :=
  final (harvest Processor.mainnet (Node.switching oldBranch new 9) DbEnv.calm 9 (followedOld new))

/-- The new branch is longer: the round ends at its tip, with its blocks for rows. -/
theorem converged_longer : Converged (chainOf newBranch) 3 (followedNew newBranch) := by
  have hrun : live Processor.mainnet (Node.switching oldBranch newBranch 9) DbEnv.calm
      [.round 3] (Harvester.new ⟨Store.empty, [], 0⟩ (some 1) none) =
        .ok () (followedOld newBranch) := eq_ok_of_returned (by decide +kernel)
  have hharvest : harvest Processor.mainnet (Node.switching oldBranch newBranch 9) DbEnv.calm 9
      (followedOld newBranch) = .ok () (followedNew newBranch) :=
    eq_ok_of_returned (by decide +kernel)
  have hfixed : (Node.switching oldBranch newBranch 9).Fixed (followedOld newBranch).world.clock
      (followedNew newBranch).world.clock (chainOf newBranch) 3 :=
    Node.switching_fixed (by decide +kernel) (by decide +kernel) (by decide) (by decide +kernel) _
  have hcursor : (followedOld newBranch).lastProcessedBlock =
      some (blockAt 101 1 100 [coinbaseTx 1 []]) := by decide +kernel
  exact (converged_iff Processor.mainnet _ DbEnv.calm [.round 3] (chainOf newBranch)
    branches_consistent (by simp [Moment.command]) hrun hcursor (by decide +kernel) hharvest
      hfixed).mpr (.inl (by decide))

def equalBranch : List BlockInfo := [genesisBlock, blockAt 201 1 100 [coinbaseTx 2 []]]

/-- The new branch is as long as the old one: the round returns at once, at a block that is not
on the chain any more. -/
theorem converged_equal_differs : ∃ h k,
    live Processor.mainnet (Node.switching oldBranch equalBranch 9) DbEnv.calm [.round 3]
        (Harvester.new ⟨Store.empty, [], 0⟩ (some 1) none) = .ok () h ∧
      h.lastProcessedBlock.isSome ∧ h.endHeight = none ∧
      harvest Processor.mainnet (Node.switching oldBranch equalBranch 9) DbEnv.calm 9 h =
        .ok () k ∧
      (Node.switching oldBranch equalBranch 9).Consistent ∧
      (Node.switching oldBranch equalBranch 9).Fixed h.world.clock k.world.clock
        (chainOf equalBranch) 1 ∧
      ¬ Converged (chainOf equalBranch) 1 k := by
  refine ⟨followedOld equalBranch, followedNew equalBranch,
    eq_ok_of_returned (by decide +kernel), by decide +kernel, by decide +kernel,
    eq_ok_of_returned (by decide +kernel), Node.switching_consistent (by decide +kernel) 9,
    Node.switching_fixed (by decide +kernel) (by decide +kernel) (by decide) (by decide +kernel) _,
    ?_⟩
  intro hconverged
  obtain ⟨block, hblock, _, hhash⟩ := hconverged.cursor
  have hcursor : (followedNew equalBranch).lastProcessedBlock =
      some (blockAt 101 1 100 [coinbaseTx 1 []]) := by decide +kernel
  rw [hcursor] at hblock
  cases hblock
  revert hhash
  decide

end BtcIndexer
