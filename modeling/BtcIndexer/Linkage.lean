import BtcIndexer.LiveRules

/-! Links between the stored blocks over the whole life of the service. The harvester compares
parents when it goes on from its cursor and when it walks a fork back. It does not when it
starts, nor when a command moves the cursor, nor upwards; the rows stay linked in every run in
which these three meet blocks that fit. A replay that takes effect although it was dropped leaves
the cursor on the branch it replaced; the head of the fork then keeps out the blocks that name
the cursor. -/
namespace BtcIndexer
open Stateful Outbox Rows

/-- The blocks that the harvester takes without a look at the rows next to them fit there. -/
def Entry.Fits : Entry → Prop
  | .call (.first block) before _ _ => before.store.FitsBelow block
  | .call (.next block) before _ _ => before.store.FitsAbove block
  | .call (.fork _) _ _ _ => True
  | .scanFrom block world => world.store.Agrees block

instance (entry : Entry) : Decidable entry.Fits :=
  match entry with
  | .call (.first block) before _ _ => inferInstanceAs (Decidable (before.store.FitsBelow block))
  | .call (.next block) before _ _ => inferInstanceAs (Decidable (before.store.FitsAbove block))
  | .call (.fork _) _ _ _ => .isTrue trivial
  | .scanFrom block world => inferInstanceAs (Decidable (world.store.Agrees block))

def Harvester.AllFit (h : Harvester) : Prop := ∀ entry ∈ h.history, entry.Fits

instance (h : Harvester) : Decidable h.AllFit :=
  inferInstanceAs (Decidable (∀ entry ∈ h.history, _))

/-- Every table committed so far in this life had its rows linked, and they come from the node. -/
structure Chained (node : Node) (h : Harvester) : Prop where
  knows : node.Knows h.world.store
  linked : h.world.store.Linked
  history : ∀ job before after committed,
    Entry.call job before after committed ∈ h.history → after.store.Linked

/-- The row above the block is not its child. -/
def Store.Passes (s : Store) (block : BlockInfo) : Prop :=
  ∃ row ∈ s.blocks, row.number = block.header.height + 1 ∧
    row.previousHash ≠ some block.header.hash

/-- The row at the cursor is that of the block at the cursor, unless the row above belongs to
another branch. -/
def Harvester.OnTrack (h : Harvester) : Prop :=
  ∀ block, h.lastProcessedBlock = some block →
    h.world.store.Agrees block ∨ h.world.store.Passes block

/-- The invariant between two steps of the harvester. -/
def Kept (node : Node) (h : Harvester) : Prop := h.AllFit → Chained node h ∧ h.OnTrack

theorem Harvester.AllFit.earlier {h k : Harvester} {entries : List Entry}
    (hfit : k.AllFit) (hgrows : k.history = h.history ++ entries) : h.AllFit :=
  fun entry hentry => hfit entry (hgrows ▸ List.mem_append_left _ hentry)

namespace Processor

variable {P : Processor} {node : Node} {block prevBlock : BlockInfo} {s s' : Store}

/-- A child of the cursor that is stored is the row above it, so that row is one. -/
theorem Indexed.not_passes (hnode : node.Consistent) (h : P.Indexed block s s')
    (hseen : node.Seen block) (hknows : node.Knows s)
    (hheight : block.header.height = prevBlock.header.height + 1)
    (hprev : block.header.previousBlockHash = some prevBlock.header.hash) :
    ¬ s.Passes prevBlock := by
  rintro ⟨row, hrow, hnumber, hother⟩
  rcases h.stored hseen.txdata with ⟨_, hmem⟩ | ⟨hfree, _⟩
  · obtain ⟨own, hown, hhash⟩ := List.mem_map.mp hmem
    have hat := hnode.row_height hknows hown hseen hhash
    have hsame : row = own := s.numberKey.eq_of_key hrow hown (by omega)
    rw [hsame, hnode.row_parent hknows hown hseen hhash] at hother
    exact hother hprev
  · exact hfree (hheight ▸ hnumber ▸ List.mem_map_of_mem hrow)

theorem Indexed.fitsBelow (hnode : node.Consistent) (h : P.Indexed block s s')
    (hseen : node.Seen block) (hknows : node.Knows s)
    (hheight : block.header.height = prevBlock.header.height + 1)
    (hprev : block.header.previousBlockHash = some prevBlock.header.hash)
    (htrack : s.Agrees prevBlock ∨ s.Passes prevBlock) : s.FitsBelow block := by
  intro row hrow hbelow
  rcases htrack with hagrees | hpasses
  · rw [hprev, hagrees row hrow (by omega)]
  · exact absurd hpasses (h.not_passes hnode hseen hknows hheight hprev)

end Processor

section Steps

variable {P : Processor} {node : Node} {env : DbEnv}

theorem kept_steady (node : Node) : Steady (Kept node) := by
  intro h w hw _ _ hkept hfit
  obtain ⟨hchained, htrack⟩ := hkept hfit
  refine ⟨⟨?_, ?_, hchained.history⟩, ?_⟩
  · change node.Knows w.store
    rw [hw]
    exact hchained.knows
  · change w.store.Linked
    rw [hw]
    exact hchained.linked
  · intro block hblock
    change w.store.Agrees block ∨ w.store.Passes block
    rw [hw]
    exact htrack block hblock

theorem Chained.call {k : Harvester} {entries : List Entry} {job : Job}
    {before : World Store AggregatorMsg} {committed : Bool}
    (hold : ∀ job before after committed,
      Entry.call job before after committed ∈ entries → after.store.Linked)
    (hhistory : k.history = entries ++ [.call job before k.world committed])
    (hknows : node.Knows k.world.store) (hlinked : k.world.store.Linked) : Chained node k := by
  refine ⟨hknows, hlinked, fun job' before' after' committed' hmem => ?_⟩
  rw [hhistory] at hmem
  rcases List.mem_append.mp hmem with hmem | hmem
  · exact hold job' before' after' committed' hmem
  · cases List.mem_singleton.mp hmem
    exact hlinked

theorem kept_record {h : Harvester} {job : Job} {block : BlockInfo}
    {w : World Store AggregatorMsg} {committed : Bool} (hkept : Kept node h)
    (hdone : Chained node h → h.OnTrack → (Entry.call job h.world w committed).Fits →
      node.Knows w.store ∧ w.store.Linked ∧ w.store.Agrees block) :
    Kept node ((h.record job w committed).moveTo block) := by
  intro hfit
  obtain ⟨hchained, htrack⟩ := hkept (hfit.earlier rfl)
  obtain ⟨hknows, hlinked, hagrees⟩ := hdone hchained htrack
    (hfit _ (List.mem_append_right _ List.mem_cons_self))
  refine ⟨Chained.call hchained.history rfl hknows hlinked, fun other hother => ?_⟩
  cases hother
  exact .inl hagrees

theorem under_all {s : Store} {block : BlockInfo}
    (h : ∀ row ∈ s.blocks, row.number < block.header.height) : s.Agrees block ∧ s.FitsAbove block :=
  ⟨fun row hrow hat => absurd hat (Nat.ne_of_lt (h row hrow)), fun _ row hrow hat => by
    have hlow := h row hrow
    omega⟩

/-- The first block lies above all rows, so the cursor may be set before it is stored. -/
theorem kept_first (hnode : node.Consistent) {h : Harvester} {block : BlockInfo}
    {w : World Store AggregatorMsg} {committed : Bool} (hkept : Kept node h)
    (hseen : node.Seen block) (habove : ∀ row ∈ h.world.store.blocks,
      row.number < block.header.height)
    (hsound : (Entry.call (.first block) h.world w committed).Sound P env) :
    Kept node ((h.moveTo block).record (.first block) w committed) := by
  refine kept_record hkept fun hchained _ hfits => ?_
  obtain ⟨hagrees, hfitsAbove⟩ := under_all habove
  cases committed with
  | true =>
      exact hsound.indexed.linked hnode hseen hchained.knows hchained.linked hfits hfitsAbove
  | false =>
      rw [hsound.store_eq]
      exact ⟨hchained.knows, hchained.linked, hagrees⟩

/-- The rows stay linked through every step of a round. -/
theorem kept_stepwise (hnode : node.Consistent) (env' : DbEnv) :
    Stepwise P node env' 0 (Kept node) where
  steady := kept_steady node
  first := by
    intro h desired block w committed hkept _ _ hshows hsound
    exact kept_first hnode hkept hshows.seen hshows.above hsound
  next := by
    intro h prevBlock block w hkept hcursor hshows hprev hrun
    refine kept_record hkept fun hchained htrack hfits => ?_
    have hindexed : P.Indexed block h.world.store w.store := Processor.process_ok hrun
    have hbelow : h.world.store.FitsBelow block := hindexed.fitsBelow hnode hshows.seen
      hchained.knows hshows.height hprev (htrack prevBlock hcursor)
    exact hindexed.linked hnode hshows.seen hchained.knows hchained.linked hbelow hfits
  fork := by
    intro h prevBlock block blocks w hkept _ hshows _ hwalk hne hrun
    refine kept_record hkept fun hchained _ _ => ?_
    exact Processor.processFork_linked hnode hwalk hshows.seen hne hchained.knows
      hchained.linked hrun
  failed := by
    intro h job e w hkept _ _ hrun hfit
    obtain ⟨hchained, htrack⟩ := hkept (hfit.earlier rfl)
    have hstore := Job.run_error hrun
    refine ⟨Chained.call hchained.history rfl (hstore ▸ hchained.knows)
      (hstore ▸ hchained.linked), fun block hblock => ?_⟩
    change w.store.Agrees block ∨ w.store.Passes block
    rw [hstore]
    exact htrack block hblock

theorem kept_boundless : Boundless (Kept node) := by
  intro h first last hkept hfit
  obtain ⟨hchained, htrack⟩ := hkept hfit
  exact ⟨⟨hchained.knows, hchained.linked, hchained.history⟩, htrack⟩

theorem kept_scanned {h : Harvester} {block : BlockInfo} (hkept : Kept node h) :
    Kept node (({ h with history := h.history ++ [.scanFrom block h.world] } :
      Harvester).moveTo block) := by
  intro hfit
  obtain ⟨hchained, _⟩ := hkept (hfit.earlier rfl)
  refine ⟨⟨hchained.knows, hchained.linked, fun job before after committed hmem => ?_⟩, ?_⟩
  · rcases List.mem_append.mp hmem with hmem | hmem
    · exact hchained.history job before after committed hmem
    · cases List.mem_singleton.mp hmem
  · intro other hother
    cases hother
    exact .inl (hfit _ (List.mem_append_right _ List.mem_cons_self))

/-- What a call that takes effect after the drop makes of the rows at the cursor. A replay puts
the head of the fork above the cursor, which is not its parent. -/
theorem landed_keeps (hnode : node.Consistent) {cursor : Option BlockInfo} {job : Job}
    {before after w : World Store AggregatorMsg} {committed : Bool}
    (hknows : node.Knows before.store) (hlinked : before.store.Linked)
    (htrack : ∀ block, cursor = some block →
      before.store.Agrees block ∨ before.store.Passes block)
    (hfits : (Entry.call job before after committed).Fits)
    (handed : job.Handed node cursor before.store) (hrun : job.run P env before = .ok () w) :
    w.store.Linked ∧
      ∀ block, cursor = some block → w.store.Agrees block ∨ w.store.Passes block := by
  cases job with
  | first block =>
      obtain ⟨rfl, hseen, hbelow⟩ := handed
      have hindexed : P.Indexed block before.store w.store := Processor.process_ok hrun
      obtain ⟨_, hlinked', hagrees⟩ := hindexed.linked hnode hseen hknows hlinked hfits
        (under_all hbelow).2
      refine ⟨hlinked', fun other hother => ?_⟩
      cases hother
      exact .inl hagrees
  | next block =>
      obtain ⟨prevBlock, rfl, hseen, hheight, hprev⟩ := handed
      have hindexed : P.Indexed block before.store w.store := Processor.process_ok hrun
      have hbelow := hindexed.fitsBelow hnode hseen hknows hheight hprev (htrack prevBlock rfl)
      refine ⟨(hindexed.linked hnode hseen hknows hlinked hbelow hfits).2.1, fun other hother => ?_⟩
      cases hother
      rcases htrack prevBlock rfl with hagrees | hpasses
      · refine .inl fun row hrow hat => ?_
        rcases hindexed.row_cases hrow with hold | ⟨_, hnumber, _⟩
        · exact hagrees row hold hat
        · omega
      · exact absurd hpasses (hindexed.not_passes hnode hseen hknows hheight hprev)
  | fork blocks =>
      obtain ⟨prevBlock, block, rfl, hseen, hheight, hother, hwalk, hne⟩ := handed
      obtain ⟨hknows', hlinked', _⟩ := Processor.processFork_linked hnode hwalk hseen hne hknows
        hlinked hrun
      refine ⟨hlinked', fun other hsame => ?_⟩
      cases hsame
      obtain ⟨rest, hrest⟩ := hwalk.head hne
      obtain ⟨own, hown, hhash, hnumber⟩ := Processor.processFork_row hnode hwalk hseen
        (List.getLast?_eq_some_getLast hne) hrun (hrest ▸ List.mem_cons_self : block ∈ blocks)
      refine .inr ⟨own, hown, hnumber.trans hheight, ?_⟩
      rw [hnode.row_parent hknows' hown hseen hhash]
      exact hother

theorem kept_lively (hnode : node.Consistent) :
    Lively (fun _ => True) P node env (Kept node) where
  stepwise := kept_stepwise hnode
  landed := by
    intro h entries job before after w hkept _ hhistory hstore handed hrun hfit
    have hsame : ∀ committed committed' : Bool, ∀ w w' : World Store AggregatorMsg,
        (Entry.call job before w committed).Fits → (Entry.call job before w' committed').Fits := by
      intro committed committed' w w' hfits
      cases job <;> exact hfits
    have hfits := hfit _ (List.mem_append_right _ List.mem_cons_self)
    have hall : h.AllFit := by
      intro entry hentry
      rw [hhistory] at hentry
      rcases List.mem_append.mp hentry with hentry | hentry
      · exact hfit entry (List.mem_append_left _ hentry)
      · rw [List.mem_singleton.mp hentry]
        exact hsame true false w after hfits
    obtain ⟨hchained, htrack⟩ := hkept hall
    have hknows : node.Knows before.store := hstore ▸ hchained.knows
    obtain ⟨hlinked, htrack'⟩ := landed_keeps hnode hknows (hstore ▸ hchained.linked)
      (hstore ▸ htrack) hfits handed hrun
    refine ⟨Chained.call (fun job' before' after' committed' hmem => ?_) rfl
      (handed.knows hnode hknows hrun) hlinked, htrack'⟩
    exact hchained.history job' before' after' committed' (hhistory ▸ List.mem_append_left _ hmem)

theorem kept_obeyed (hnode : node.Consistent) (moment : Moment) :
    Obeyed node env (Kept node) moment := fun command _ =>
  obey_command hnode (kept_steady node) kept_boundless (fun _ _ => Nat.zero_le _) command
    fun _ _ _ _ _ hkept _ => kept_scanned hkept

theorem kept_new {world : World Store AggregatorMsg} (hknows : node.Knows world.store)
    (hlinked : world.store.Linked) (startHeight endHeight : Option Nat) :
    Kept node (Harvester.new world startHeight endHeight) := by
  refine fun _ => ⟨⟨hknows, hlinked, fun job before after committed hmem => ?_⟩,
    fun block hblock => ?_⟩
  · cases hmem
  · cases hblock

theorem Life.kept (hnode : node.Consistent) (life : Life) {world : World Store AggregatorMsg}
    (hknows : node.Knows world.store) (hlinked : world.store.Linked) :
    Kept node (life.run P node env world) := by
  have hlively : Lively (fun _ => True) P node env (Kept node) := kept_lively hnode
  exact hlively.life hnode life world (fun moment _ => kept_obeyed hnode moment)
    (kept_new hknows hlinked life.startHeight life.endHeight)
    (landsOnly_of_all (fun _ => trivial) P node env life.moments _)

end Steps

/-- Over any number of lives of the service, commands at any moment, commits that take effect
after a drop, failures and changes of the node's chain: if the blocks taken without a look at
their neighbours fit, the rows are linked in every table that was ever committed. -/
theorem linked_of_fits (P : Processor) (node : Node) (env : DbEnv) (lives : List Life)
    (clock : Nat) (hnode : node.Consistent)
    (hfits : ∀ k ∈ ends P node env lives ⟨Store.empty, [], clock⟩, k.AllFit) :
    ∀ k ∈ ends P node env lives ⟨Store.empty, [], clock⟩, k.world.store.Linked ∧
      ∀ job before after committed, Entry.call job before after committed ∈ k.history →
        after.store.Linked := by
  refine ends_keep (J := fun w => node.Knows w.store ∧ w.store.Linked)
    (R := fun k => k.world.store.Linked ∧ ∀ job before after committed,
      Entry.call job before after committed ∈ k.history → after.store.Linked)
    (fun life world hbefore hfit => ?_) lives ⟨?_, ?_⟩ hfits
  · obtain ⟨hchained, _⟩ := life.kept hnode hbefore.1 hbefore.2 hfit
    exact ⟨⟨hchained.linked, hchained.history⟩, hchained.knows, hchained.linked⟩
  · intro row hrow
    cases hrow
  · intro row hrow
    cases hrow

/-- What lives of the service leave behind. By tick 9 the only block of the old branch is
stored. -/
def served (lives : List Life) : List Harvester :=
  ends Processor.mainnet (Node.switching oldBranch newBranch 9) DbEnv.calm lives
    ⟨Store.empty, [], 0⟩

/-- The reorganisation is seen while the service is up. The replay takes effect although a command
drops it, and the service stops and starts again. -/
def attentive : List Life :=
  [⟨some 1, some 2, [.round 3, .dropped 4 15 true .autoScan]⟩, ⟨some 1, none, [.round 3]⟩]

theorem linked_across_fork : ∃ k ∈ served attentive,
    k.world.store.blocks.map BlockRow.number = [2, 1, 3] ∧ k.world.store.Linked := by
  have hfits : ∀ k ∈ served attentive, k.AllFit := by decide +kernel
  have hrows : ∃ k ∈ served attentive,
      k.world.store.blocks.map BlockRow.number = [2, 1, 3] := by decide +kernel
  obtain ⟨k, hk, hnumbers⟩ := hrows
  exact ⟨k, hk, hnumbers, (linked_of_fits Processor.mainnet
    (Node.switching oldBranch newBranch 9) DbEnv.calm attentive 0 branches_consistent hfits k
      hk).1⟩

def inattentive : List Life := [⟨some 1, none, [.round 3]⟩, ⟨some 1, none, [.round 3]⟩]

/-- The service stops before the reorganisation and starts after it: block 2 of the new branch
is stored over block 1 of the old one. -/
theorem restart_not_linked :
    (Node.switching oldBranch newBranch 9).Consistent ∧
      ∃ k ∈ served inattentive, ¬ k.world.store.Linked :=
  ⟨branches_consistent, by decide +kernel⟩

end BtcIndexer
