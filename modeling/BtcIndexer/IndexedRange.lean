import BtcIndexer.ForkHeads
import BtcIndexer.ForkWalk

/-! The range of heights that a run has indexed, and reorganisations at its lower end. A walk
over parents knows of no lower end: it stays in the range if the head of the fork descends from
a stored block, and goes down to block 1 if it does not. -/
namespace BtcIndexer
open Stateful Outbox Rows

/-- No row has a number below this one. -/
def Store.StartsAt (s : Store) (first : Nat) : Prop := ∀ row ∈ s.blocks, first ≤ row.number

instance (s : Store) (first : Nat) : Decidable (s.StartsAt first) :=
  inferInstanceAs (Decidable (∀ row ∈ s.blocks, _))

/-- The head descends from a stored block. -/
def Node.Grafts (node : Node) (s : Store) (head : BlockInfo) : Prop :=
  ∃ row ∈ s.blocks, ∃ t header, node.getBlockHeader t row.hash = .ok header ∧
    node.Descends head.header header

/-- What the walk over parents has returned for the call. -/
def Job.walk : Job → List BlockInfo
  | .first _ | .next _ => []
  | .fork blocks => blocks

namespace Entry

/-- The height of the first block that the call has indexed; a fork is replayed head first. -/
def firstHeight : Entry → Option Nat
  | .call job _ _ true => job.blocks.head?.map fun block => block.header.height
  | .call _ _ _ false | .scanFrom _ _ => none

/-- The call has met no block below this height, neither in a walk nor in the tables. -/
def Within (first : Nat) : Entry → Prop
  | .call job before after _ => (∀ block ∈ job.walk, first ≤ block.header.height) ∧
      before.store.StartsAt first ∧ after.store.StartsAt first
  | .scanFrom _ world => world.store.StartsAt first

/-- If the call is for a fork, its head descends from a block stored at the time. -/
def Grafted (node : Node) : Entry → Prop
  | .call job before _ _ => ∀ head ∈ job.walk.head?, node.Grafts before.store head
  | .scanFrom _ _ => True

/-- If the call is for a fork, its blocks are those of a walk over parents. -/
def FromWalk (node : Node) : Entry → Prop
  | .call job before _ _ => ∀ head ∈ job.walk.head?,
      node.Seen head ∧ Walked node before.store head job.walk
  | .scanFrom _ _ => True

instance (first : Nat) (entry : Entry) : Decidable (entry.Within first) :=
  match entry with
  | .call _ _ _ _ => inferInstanceAs (Decidable ((∀ block ∈ _, _) ∧ _ ∧ _))
  | .scanFrom _ world => inferInstanceAs (Decidable (world.store.StartsAt first))

end Entry

/-- Where the range begins that the run has indexed. -/
def rangeStart (history : List Entry) : Option Nat := history.findSome? Entry.firstHeight

/-- No block below this height was returned by a walk or stored. -/
def Harvester.Within (first : Nat) (h : Harvester) : Prop :=
  (∀ entry ∈ h.history, entry.Within first) ∧ h.world.store.StartsAt first

instance (first : Nat) (h : Harvester) : Decidable (h.Within first) :=
  inferInstanceAs (Decidable ((∀ entry ∈ h.history, _) ∧ _))

theorem rangeStart_snoc (entries : List Entry) (entry : Entry) :
    rangeStart (entries ++ [entry]) = (rangeStart entries).or entry.firstHeight := by
  simp only [rangeStart, List.findSome?_append, List.findSome?_singleton]

theorem rangeStart_snoc_failed (entries : List Entry) (job : Job)
    (before after : World Store AggregatorMsg) :
    rangeStart (entries ++ [.call job before after false]) = rangeStart entries := by
  rw [rangeStart_snoc]
  exact Option.or_none

section Walk

variable {node : Node} {s : Store} {head : BlockInfo} {blocks : List BlockInfo} {first : Nat}

/-- A walk from a head that descends from a stored block ends above the lowest row. -/
theorem Walked.within (hnode : node.Consistent) (h : Walked node s head blocks)
    (hseen : node.Seen head) (hknows : node.Knows s) (hstart : s.StartsAt first)
    (hgraft : first ≤ 1 ∨ node.Grafts s head) {block : BlockInfo} (hblock : block ∈ blocks) :
    first ≤ block.header.height := by
  have hnew := (h.member hnode hseen hblock).2.1
  rcases hgraft with hlow | ⟨row, hrow, t, header, hheader, hdescends⟩
  · have hzero : block.header.height ≠ 0 := fun hzero => hnew (.inl hzero)
    omega
  · have hhash := hnode.hash hheader
    rcases h.ancestor hnode hseen hdescends with ⟨b, hb, rfl⟩ | hbelow
    · have hstored : b.header.hash ∈ s.blocks.map BlockRow.hash :=
        List.mem_map.mpr ⟨row, hrow, hhash.symm⟩
      exact absurd (.inr hstored) (h.member hnode hseen hb).2.1
    · obtain ⟨t', header', hheader', hnumber, _⟩ := hknows row hrow
      rw [hnode.same hheader' hheader] at hnumber
      have hlow := hstart row hrow
      have hlt := hbelow block hblock
      omega

/-- A walk that ends above block 1 has ended at a stored block. -/
theorem Walked.grafts (hnode : node.Consistent) (h : Walked node s head blocks)
    (hseen : node.Seen head) (hheight : head.header.height ≠ 0)
    (hblocks : ∀ block ∈ blocks, 1 < block.header.height) : node.Grafts s head := by
  induction h with
  | arrived harrived =>
      obtain ⟨row, hrow, hhash⟩ := List.mem_map.mp (harrived.resolve_left hheight)
      obtain ⟨t, hheader⟩ := hseen.header
      exact ⟨row, hrow, t, _, hhash ▸ hheader, .refl⟩
  | rootless hnew hnone => exact absurd hnone (rootless_false hnode hseen hnew)
  | @step block parent rest hnew hparentSeen hparent later ih =>
      have hsucc := height_succ hnode hseen hparentSeen hparent
      have hhigh := hblocks block List.mem_cons_self
      obtain ⟨row, hrow, t, header, hheader, hdescends⟩ := ih hparentSeen (by omega)
        fun b hb => hblocks b (List.mem_cons_of_mem _ hb)
      exact ⟨row, hrow, t, header, hheader, .head ⟨hparent, hparentSeen.header⟩ hdescends⟩

end Walk

section Call

variable {P : Processor} {node : Node} {env : DbEnv} {job : Job} {cursor : Option BlockInfo}
  {before w : World Store AggregatorMsg} {first : Nat}

theorem Job.Handed.fromWalk (handed : job.Handed node cursor before.store)
    (after : World Store AggregatorMsg) (committed : Bool) :
    (Entry.call job before after committed).FromWalk node := by
  cases job with
  | first block => exact fun _ hhead => nomatch hhead
  | next block => exact fun _ hhead => nomatch hhead
  | fork blocks =>
      obtain ⟨_, block, _, hseen, _, _, hwalk, hne⟩ := handed
      obtain ⟨rest, hrest⟩ := hwalk.head hne
      intro head hhead
      rw [Job.walk, hrest] at hhead
      cases hhead
      exact ⟨hseen, hwalk⟩

theorem Job.Handed.head (handed : job.Handed node cursor before.store) :
    ∃ head, job.blocks.head? = some head ∧ ∀ block ∈ cursor,
      head.header.height = block.header.height + 1 ∨ job = .first block ∧ head = block := by
  cases job with
  | first block =>
      refine ⟨block, rfl, fun other hother => .inr ?_⟩
      rw [handed.1] at hother
      cases hother
      exact ⟨rfl, rfl⟩
  | next block =>
      obtain ⟨prevBlock, hcursor, _, hheight, _⟩ := handed
      refine ⟨block, rfl, fun other hother => .inl ?_⟩
      rw [hcursor] at hother
      cases hother
      exact hheight
  | fork blocks =>
      obtain ⟨prevBlock, block, hcursor, _, hheight, _, hwalk, hne⟩ := handed
      obtain ⟨rest, hrest⟩ := hwalk.head hne
      refine ⟨block, by rw [Job.blocks, hrest]; rfl, fun other hother => .inl ?_⟩
      rw [hcursor] at hother
      cases hother
      exact hheight

theorem Entry.FromWalk.within {after : World Store AggregatorMsg} {committed : Bool}
    (hnode : node.Consistent) (h : (Entry.call job before after committed).FromWalk node)
    (hknows : node.Knows before.store) (hstart : before.store.StartsAt first)
    (hgraft : first ≤ 1 ∨ (Entry.call job before after committed).Grafted node) {block : BlockInfo}
    (hblock : block ∈ job.walk) : first ≤ block.header.height := by
  obtain ⟨head, hhead⟩ := Option.isSome_iff_exists.mp
    (List.isSome_head?.mpr (List.ne_nil_of_mem hblock))
  obtain ⟨hseen, hwalk⟩ := h head hhead
  exact hwalk.within hnode hseen hknows hstart (hgraft.imp_right fun hall => hall head hhead) hblock

theorem Job.Handed.startsAt (hnode : node.Consistent) (handed : job.Handed node cursor before.store)
    (hrun : job.run P env before = .ok () w) (hstart : before.store.StartsAt first)
    (hhead : ∀ head ∈ job.blocks.head?, first ≤ head.header.height)
    (hwalk : ∀ block ∈ job.walk, first ≤ block.header.height) : w.store.StartsAt first := by
  intro row hrow
  rcases handed.row_cases hnode hrun hrow with hold | ⟨b, hb, _, _, hnumber, _⟩
  · exact hstart row hold
  · rw [hnumber]
    cases job with
    | first block => exact hhead b (by rw [List.mem_singleton.mp hb]; rfl)
    | next block => exact hhead b (by rw [List.mem_singleton.mp hb]; rfl)
    | fork blocks => exact hwalk b hb

end Call

/-- The cursor never falls behind the range, and what was indexed is in it as long as every fork
so far was grafted on a stored block. -/
structure Ranged (node : Node) (h : Harvester) : Prop where
  knows : node.Knows h.world.store
  fromWalk : ∀ entry ∈ h.history, entry.FromWalk node
  fresh : h.lastProcessedBlock = none → h.history = [] ∧ h.world.store.blocks = []
  /-- A first block is only ever the first. -/
  opening : ∀ entries block before after committed,
    h.history = entries ++ [.call (.first block) before after committed] → entries = []
  unindexed : rangeStart h.history = none → h.world.store.blocks = []
  behind : ∀ first, rangeStart h.history = some first → ∀ cursor,
    h.lastProcessedBlock = some cursor → first ≤ cursor.header.height + 1
  /-- Also for a range that has not begun yet. -/
  within : ∀ first, (∀ other, rangeStart h.history = some other → other = first) →
    (first ≤ 1 ∨ ∀ entry ∈ h.history, entry.Grafted node) → h.Within first

section Ranged

variable {P : Processor} {node : Node} {env : DbEnv}

theorem Ranged.commit (hnode : node.Consistent) {h k : Harvester} (hk : Ranged node h)
    {entries : List Entry} {job : Job} {before w : World Store AggregatorMsg}
    {cursor : Option BlockInfo} (hbefore : before.store = h.world.store)
    (hsame : rangeStart entries = rangeStart h.history)
    (hsub : ∀ entry ∈ entries, entry ∈ h.history)
    (hgrafted : (∀ entry ∈ entries, entry.Grafted node) →
      (Entry.call job before w true).Grafted node → ∀ entry ∈ h.history, entry.Grafted node)
    (handed : job.Handed node cursor before.store) (hrun : job.run P env before = .ok () w)
    (hopening : ∀ block, job = .first block → entries = [])
    (hreach : ∀ first, rangeStart h.history = some first → ∀ head ∈ job.blocks.head?,
      first ≤ head.header.height)
    (hhistory : k.history = entries ++ [.call job before w true]) (hworld : k.world = w)
    (hcursor : ∃ block, k.lastProcessedBlock = some block ∧ ∀ head ∈ job.blocks.head?,
      head.header.height ≤ block.header.height + 1) : Ranged node k := by
  obtain ⟨head, hhead, _⟩ := handed.head
  obtain ⟨block, hblock, hnear⟩ := hcursor
  have hknows : node.Knows before.store := hbefore ▸ hk.knows
  have hentry : (Entry.call job before w true).firstHeight = some head.header.height := by
    simp only [Entry.firstHeight, hhead, Option.map_some]
  have hrange : rangeStart k.history = (rangeStart h.history).or (some head.header.height) := by
    rw [hhistory, rangeStart_snoc, hsame, hentry]
  have hwalks := handed.fromWalk w true
  constructor
  · exact hworld ▸ handed.knows hnode hknows hrun
  · intro entry hmem
    rw [hhistory] at hmem
    rcases List.mem_append.mp hmem with hold | hnew
    · exact hk.fromWalk entry (hsub entry hold)
    · exact List.mem_singleton.mp hnew ▸ hwalks
  · intro hnone
    rw [hblock] at hnone
    cases hnone
  · intro entries' block' before' after committed hlast
    rw [hhistory] at hlast
    obtain ⟨hinit, hend⟩ := List.append_inj' hlast rfl
    cases hend
    exact hinit ▸ hopening block' rfl
  · intro hnone
    rw [hrange] at hnone
    cases hstart : rangeStart h.history with
    | none => rw [hstart] at hnone; cases hnone
    | some first => rw [hstart] at hnone; cases hnone
  · intro first hfirst other hother
    rw [hblock] at hother
    cases hother
    have hhigh := hnear head hhead
    rw [hrange] at hfirst
    cases hstart : rangeStart h.history with
    | none =>
        rw [hstart] at hfirst
        cases hfirst
        exact hhigh
    | some start =>
        rw [hstart] at hfirst
        cases hfirst
        exact Nat.le_trans (hreach _ hstart head hhead) hhigh
  · intro first hfirst hgraft
    have hall : first ≤ 1 ∨ ∀ entry ∈ h.history, entry.Grafted node := by
      refine hgraft.imp_right fun hgraft => hgrafted (fun entry he => ?_) ?_
      · exact hgraft entry (hhistory ▸ List.mem_append_left _ he)
      · exact hgraft _ (hhistory ▸ List.mem_append_right _ List.mem_cons_self)
    obtain ⟨hentries, hstarts⟩ := hk.within first (fun other hother => hfirst other (by
      rw [hrange, hother]; rfl)) hall
    rw [← hbefore] at hstarts
    have hlow : first ≤ head.header.height := by
      cases hstart : rangeStart h.history with
      | none => exact Nat.le_of_eq (hfirst _ (by rw [hrange, hstart]; rfl)).symm
      | some start =>
          have hsame := hfirst start (by rw [hrange, hstart]; rfl)
          exact hsame ▸ hreach start hstart head hhead
    have hwalk : ∀ block ∈ job.walk, first ≤ block.header.height := fun b hb =>
      hwalks.within hnode hknows hstarts (hgraft.imp_right fun hgraft =>
        hgraft _ (hhistory ▸ List.mem_append_right _ List.mem_cons_self)) hb
    have hafter : w.store.StartsAt first := by
      refine handed.startsAt hnode hrun hstarts (fun other hother => ?_) hwalk
      rw [hhead] at hother
      cases hother
      exact hlow
    refine ⟨fun entry hmem => ?_, hworld ▸ hafter⟩
    rw [hhistory] at hmem
    rcases List.mem_append.mp hmem with hold | hnew
    · exact hentries entry (hsub entry hold)
    · exact List.mem_singleton.mp hnew ▸ ⟨hwalk, hstarts, hafter⟩

theorem Ranged.rollBack (hnode : node.Consistent) {h k : Harvester} (hk : Ranged node h)
    {job : Job} {w : World Store AggregatorMsg} {cursor : Option BlockInfo}
    (handed : job.Handed node cursor h.world.store) (hstore : w.store = h.world.store)
    (hopening : ∀ block, job = .first block → h.history = [])
    (hhistory : k.history = h.history ++ [.call job h.world w false]) (hworld : k.world = w)
    (hset : k.lastProcessedBlock ≠ none)
    (hbehind : ∀ first, rangeStart h.history = some first → ∀ cursor,
      k.lastProcessedBlock = some cursor → first ≤ cursor.header.height + 1) : Ranged node k := by
  have hrange : rangeStart k.history = rangeStart h.history := by
    rw [hhistory, rangeStart_snoc_failed]
  have hwalks := handed.fromWalk w false
  have hsame : k.world.store = h.world.store := by rw [hworld, hstore]
  constructor
  · exact hsame ▸ hk.knows
  · intro entry hmem
    rw [hhistory] at hmem
    rcases List.mem_append.mp hmem with hold | hnew
    · exact hk.fromWalk entry hold
    · exact List.mem_singleton.mp hnew ▸ hwalks
  · exact fun hnone => absurd hnone hset
  · intro entries block before after committed hlast
    rw [hhistory] at hlast
    obtain ⟨hinit, hend⟩ := List.append_inj' hlast rfl
    cases hend
    exact hinit ▸ hopening block rfl
  · intro hnone
    rw [hrange] at hnone
    exact hsame ▸ hk.unindexed hnone
  · intro first hfirst
    rw [hrange] at hfirst
    exact hbehind first hfirst
  · intro first hfirst hgraft
    rw [hrange] at hfirst
    obtain ⟨hentries, hstarts⟩ := hk.within first hfirst (hgraft.imp_right fun hgraft entry he =>
      hgraft entry (hhistory ▸ List.mem_append_left _ he))
    have hwalk : ∀ block ∈ job.walk, first ≤ block.header.height := fun b hb =>
      hwalks.within hnode hk.knows hstarts (hgraft.imp_right fun hgraft =>
        hgraft _ (hhistory ▸ List.mem_append_right _ List.mem_cons_self)) hb
    refine ⟨fun entry hmem => ?_, hsame ▸ hstarts⟩
    rw [hhistory] at hmem
    rcases List.mem_append.mp hmem with hold | hnew
    · exact hentries entry hold
    · exact List.mem_singleton.mp hnew ▸ ⟨hwalk, hstarts, hstore ▸ hstarts⟩

theorem ranged_steady (node : Node) : Steady (Ranged node) := by
  intro h w hstore _ _ hk
  have hwithin : ∀ first, h.Within first → Harvester.Within first { h with world := w } := by
    intro first hwithin
    refine ⟨hwithin.1, ?_⟩
    change w.store.StartsAt first
    exact hstore.symm ▸ hwithin.2
  exact {
    knows := hstore.symm ▸ hk.knows
    fromWalk := hk.fromWalk
    fresh := fun hnone => ⟨(hk.fresh hnone).1, hstore.symm ▸ (hk.fresh hnone).2⟩
    opening := hk.opening
    unindexed := fun hnone => hstore.symm ▸ hk.unindexed hnone
    behind := hk.behind
    within := fun first hfirst hgraft => hwithin first (hk.within first hfirst hgraft) }

theorem ranged_boundless (node : Node) : Boundless (Ranged node) := fun _ _ _ hk =>
  ⟨hk.knows, hk.fromWalk, hk.fresh, hk.opening, hk.unindexed, hk.behind, hk.within⟩

theorem ranged_new (node : Node) (clock : Nat) (startHeight endHeight : Option Nat) :
    Ranged node (Harvester.new ⟨Store.empty, [], clock⟩ startHeight endHeight) where
  knows := nofun
  fromWalk := nofun
  fresh := fun _ => ⟨rfl, rfl⟩
  opening := by
    intro entries block before after committed hlast
    simp [Harvester.new] at hlast
  unindexed := fun _ => rfl
  behind := by
    intro first hfirst cursor hcursor
    cases hcursor
  within := fun _ _ _ => ⟨nofun, nofun⟩

theorem Ranged.advance (hnode : node.Consistent) {h : Harvester} (hk : Ranged node h) {job : Job}
    {prevBlock block : BlockInfo} {w : World Store AggregatorMsg}
    (hcursor : h.lastProcessedBlock = some prevBlock)
    (hheight : block.header.height = prevBlock.header.height + 1)
    (hhead : job.blocks.head? = some block) (hlater : ∀ first, job ≠ .first first)
    (handed : job.Handed node h.lastProcessedBlock h.world.store)
    (hrun : job.run P env h.world = .ok () w) :
    Ranged node ((h.record job w true).moveTo block) := by
  refine hk.commit hnode rfl rfl (fun _ => id) (fun hall _ => hall) handed hrun
    (fun first hfirst => absurd hfirst (hlater first)) (fun first hfirst head hown => ?_) rfl rfl
    ⟨block, rfl, fun head hown => ?_⟩
  · rw [hhead] at hown
    cases hown
    rw [hheight]
    exact hk.behind first hfirst prevBlock hcursor
  · rw [hhead] at hown
    cases hown
    exact Nat.le_succ _

theorem ranged_stepwise (hnode : node.Consistent) (env' : DbEnv) :
    Stepwise P node env' 0 (Ranged node) where
  steady := ranged_steady node
  first := by
    intro h desired block w committed hk hnone _ hshows hsound
    obtain ⟨hhistory, _⟩ := hk.fresh hnone
    have handed : (Job.first block).Handed node (some block) h.world.store :=
      ⟨rfl, hshows.seen, hshows.above⟩
    have hbegins : rangeStart h.history = none := by rw [hhistory]; rfl
    cases committed with
    | true =>
        refine hk.commit hnode rfl rfl (fun _ => id) (fun hall _ => hall) handed hsound.run_ok
          (fun _ _ => hhistory) (fun first hfirst => ?_) rfl rfl ⟨block, rfl, fun head hhead => ?_⟩
        · rw [hbegins] at hfirst
          cases hfirst
        · cases hhead
          exact Nat.le_succ _
    | false =>
        refine hk.rollBack hnode handed hsound.store_eq (fun _ _ => hhistory) rfl rfl nofun
          fun first hfirst => ?_
        rw [hbegins] at hfirst
        cases hfirst
  next := by
    intro h prevBlock block w hk hcursor hshows hprev hrun
    exact hk.advance hnode hcursor hshows.height rfl nofun
      ⟨prevBlock, hcursor, hshows.seen, hshows.height, hprev⟩ hrun
  fork := by
    intro h prevBlock block blocks w hk hcursor hshows hother hwalk hne hrun
    obtain ⟨rest, rfl⟩ := hwalk.head hne
    exact hk.advance hnode hcursor hshows.height rfl nofun
      ⟨prevBlock, block, hcursor, hshows.seen, hshows.height, hother, hwalk, hne⟩ hrun
  failed := by
    intro h job e w hk hlater handed hrun
    exact hk.rollBack hnode handed (Job.run_error hrun)
      (fun block hfirst => absurd hfirst (hlater block)) rfl rfl handed.cursor hk.behind

theorem ranged_lively (hnode : node.Consistent) :
    Lively (fun _ => True) P node env (Ranged node) where
  stepwise := ranged_stepwise hnode
  landed := by
    intro h entries job before after w hk _ hhistory hstore handed hrun
    have hrange : rangeStart entries = rangeStart h.history := by
      rw [hhistory, rangeStart_snoc_failed]
    have hopening : ∀ block, job = .first block → entries = [] := by
      rintro block rfl
      exact hk.opening entries block before after false hhistory
    obtain ⟨cursor, hcursor⟩ := Option.ne_none_iff_exists'.mp handed.cursor
    obtain ⟨head, hhead, hnear⟩ := handed.head
    refine hk.commit hnode hstore.symm hrange (fun entry he => ?_) (fun hall hlast => ?_) handed
      hrun hopening (fun first hfirst other hother => ?_) rfl rfl
      ⟨cursor, hcursor, fun other hother => ?_⟩
    · exact hhistory ▸ List.mem_append_left _ he
    · intro entry he
      rw [hhistory] at he
      rcases List.mem_append.mp he with hold | hnew
      · exact hall entry hold
      · exact List.mem_singleton.mp hnew ▸ hlast
    · rw [hhead] at hother
      cases hother
      rcases hnear cursor hcursor with hnext | ⟨hfirstJob, _⟩
      · rw [hnext]
        exact hk.behind first hfirst cursor hcursor
      · rw [← hrange, hopening cursor hfirstJob] at hfirst
        cases hfirst
    · rw [hhead] at hother
      cases hother
      rcases hnear cursor hcursor with hnext | ⟨_, rfl⟩
      · exact Nat.le_of_eq hnext
      · exact Nat.le_succ _

theorem ranged_obeyed (hnode : node.Consistent) (moment : Moment)
    (hscan : ∀ first last, moment.command ≠ some (.scanBlock first last)) :
    Obeyed node env (Ranged node) moment := by
  intro command hcommand
  refine obey_command hnode (ranged_steady node) (ranged_boundless node)
    (fun _ _ => Nat.zero_le _) command fun first last hscanned => ?_
  exact absurd (hscanned ▸ hcommand) (hscan first last)

end Ranged

/-- From an empty database, without scans by command and restarts, whatever becomes of the node's
chain: no walk returns and no call stores a block below the first one indexed if and only if that
is block 0 or 1, or the head of every fork descends from a block that is stored at the time. -/
theorem within_range_iff (P : Processor) (node : Node) (env : DbEnv) (life : Life) (clock : Nat)
    (first : Nat) (hnode : node.Consistent)
    (hscan : ∀ moment ∈ life.moments, ∀ start last, moment.command ≠ some (.scanBlock start last))
    (hfirst : rangeStart (life.run P node env ⟨Store.empty, [], clock⟩).history = some first) :
    (life.run P node env ⟨Store.empty, [], clock⟩).Within first ↔
      first ≤ 1 ∨ ∀ entry ∈ (life.run P node env ⟨Store.empty, [], clock⟩).history,
        entry.Grafted node := by
  have hlively : Lively (fun _ => True) P node env (Ranged node) := ranged_lively hnode
  have hranged := hlively.life hnode life ⟨Store.empty, [], clock⟩
    (fun moment hmem => ranged_obeyed hnode moment (hscan moment hmem)) (ranged_new node clock _ _)
    (landsOnly_of_all (fun _ => trivial) P node env life.moments _)
  constructor
  · intro hwithin
    by_cases hlow : first ≤ 1
    · exact .inl hlow
    · refine .inr fun entry hmem => ?_
      have hentry := hwithin.1 entry hmem
      have hwalk := hranged.fromWalk entry hmem
      cases entry with
      | scanFrom block world => trivial
      | call job before after committed =>
          intro head hhead
          obtain ⟨hseen, hwalked⟩ := hwalk head hhead
          have habove : ∀ block ∈ job.walk, 1 < block.header.height := fun block hblock =>
            Nat.lt_of_lt_of_le (Nat.lt_of_not_le hlow) (hentry.1 block hblock)
          have hhigh := habove head (List.mem_of_head? hhead)
          exact hwalked.grafts hnode hseen (by omega) habove
  · intro hgraft
    refine hranged.within first (fun other hother => ?_) hgraft
    rw [hfirst] at hother
    exact (Option.some.inj hother).symm

def sharedBranch : List BlockInfo :=
  [genesisBlock, blockAt 201 1 100 [coinbaseTx 2 []], blockAt 202 2 201 [coinbaseTx 3 []]]

/-- Block 2 stays, block 3 of the new branch is another. -/
def branchAbove : List BlockInfo :=
  sharedBranch ++ [blockAt 303 3 202 [coinbaseTx 6 []], blockAt 304 4 303 [coinbaseTx 7 []]]

def branchBelow : List BlockInfo :=
  sharedBranch.take 2 ++ [blockAt 302 2 201 [coinbaseTx 5 []], blockAt 303 3 302 [coinbaseTx 6 []]]

def fromTwo : Life := ⟨some 2, none, [.round 3, .round 5]⟩

theorem fromTwo_scans : ∀ moment ∈ fromTwo.moments, ∀ start last,
    moment.command ≠ some (.scanBlock start last) := by
  intro moment hmem start last
  simp only [fromTwo, List.mem_cons, List.not_mem_nil, or_false] at hmem
  rcases hmem with rfl | rfl <;> exact nofun

theorem branchAbove_within :
    (fromTwo.run Processor.mainnet (Node.switching newBranch branchAbove 14) DbEnv.calm
      ⟨Store.empty, [], 0⟩).Within 2 ∧
    ∀ entry ∈ (fromTwo.run Processor.mainnet (Node.switching newBranch branchAbove 14) DbEnv.calm
      ⟨Store.empty, [], 0⟩).history, entry.Grafted (Node.switching newBranch branchAbove 14) :=
  ⟨by decide +kernel,
    ((within_range_iff Processor.mainnet (Node.switching newBranch branchAbove 14) DbEnv.calm
      fromTwo 0 2 (Node.switching_consistent (by decide +kernel) 14) fromTwo_scans
        (by decide +kernel)).mp (by decide +kernel)).resolve_left (by decide)⟩

/-- Blocks 2 and 3 of the new branch are walked back to block 1, which is stored with them. -/
theorem branchBelow_exceeds : (Node.switching sharedBranch branchBelow 9).Consistent ∧
    (∀ moment ∈ fromTwo.moments, ∀ start last,
      moment.command ≠ some (.scanBlock start last)) ∧
    rangeStart (fromTwo.run Processor.mainnet (Node.switching sharedBranch branchBelow 9) DbEnv.calm
      ⟨Store.empty, [], 0⟩).history = some 2 ∧
    ¬ (fromTwo.run Processor.mainnet (Node.switching sharedBranch branchBelow 9) DbEnv.calm
      ⟨Store.empty, [], 0⟩).Within 2 :=
  ⟨Node.switching_consistent (by decide +kernel) 9, fromTwo_scans, by decide +kernel,
    by decide +kernel⟩

end BtcIndexer
