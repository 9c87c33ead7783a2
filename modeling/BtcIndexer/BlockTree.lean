import BtcIndexer.Harvester
import BtcIndexer.Rollback

/-! The stored blocks against the block tree of the node. The node's chain may change at any
time, but what it says about one hash does not. A block that is stored next to another must
name it, or be named by it, as the parent. -/
namespace BtcIndexer
open Stateful Outbox Rows

/-- What the answers of a node have in common at all times: they describe one tree of blocks,
each at its height, and every block has a coinbase. -/
structure Node.Consistent (node : Node) : Prop where
  hash : ∀ {t hash header}, node.getBlockHeader t hash = .ok header → header.hash = hash
  same : ∀ {t t' hash header header'}, node.getBlockHeader t hash = .ok header →
    node.getBlockHeader t' hash = .ok header' → header = header'
  height : ∀ {t t' number hash header}, node.getBlockHash t number = .ok hash →
    node.getBlockHeader t' hash = .ok header → header.height = number
  parent : ∀ {t t' hash parentHash header parent}, node.getBlockHeader t hash = .ok header →
    header.previousBlockHash = some parentHash →
    node.getBlockHeader t' parentHash = .ok parent → header.height = parent.height + 1
  rooted : ∀ {t hash header}, node.getBlockHeader t hash = .ok header → header.height ≠ 0 →
    header.previousBlockHash ≠ none
  genesis : ∀ {t t' hash hash' header header'}, node.getBlockHeader t hash = .ok header →
    node.getBlockHeader t' hash' = .ok header' → header.height = 0 → header'.height = 0 →
    hash = hash'
  coinbase : ∀ {t hash txdata}, node.getBlock t hash = .ok txdata → txdata ≠ []

/-- The node has answered with this block. -/
structure Node.Seen (node : Node) (block : BlockInfo) : Prop where
  header : ∃ t, node.getBlockHeader t block.header.hash = .ok block.header
  txdata : block.txdata ≠ []

/-- Every stored row comes from a header of the node. -/
def Node.Knows (node : Node) (s : Store) : Prop :=
  ∀ row ∈ s.blocks, ∃ t header, node.getBlockHeader t row.hash = .ok header ∧
    row.number = header.height ∧ row.previousHash = header.previousBlockHash

namespace Store

/-- Rows with consecutive numbers are parent and child. -/
def Linked (s : Store) : Prop :=
  ∀ r ∈ s.blocks, ∀ r' ∈ s.blocks, r'.number = r.number + 1 → r'.previousHash = some r.hash

/-- The row at the height of the block, if there is one, is that of the block. -/
def Agrees (s : Store) (block : BlockInfo) : Prop :=
  ∀ row ∈ s.blocks, row.number = block.header.height → row.hash = block.header.hash

/-- The row below the block, if there is one, is its parent. -/
def FitsBelow (s : Store) (block : BlockInfo) : Prop :=
  ∀ row ∈ s.blocks, block.header.height = row.number + 1 →
    block.header.previousBlockHash = some row.hash

/-- The row above the block, if there is one and the height of the block is free, names the
block as its parent. -/
def FitsAbove (s : Store) (block : BlockInfo) : Prop :=
  block.header.height ∉ s.blocks.map BlockRow.number → ∀ row ∈ s.blocks,
    row.number = block.header.height + 1 → row.previousHash = some block.header.hash

instance (s : Store) (block : BlockInfo) : Decidable (s.Agrees block) :=
  inferInstanceAs (Decidable (∀ row ∈ s.blocks, _))

instance (s : Store) (block : BlockInfo) : Decidable (s.FitsBelow block) :=
  inferInstanceAs (Decidable (∀ row ∈ s.blocks, _))

instance (s : Store) (block : BlockInfo) : Decidable (s.FitsAbove block) :=
  inferInstanceAs (Decidable (_ → _))

instance (s : Store) : Decidable s.Linked :=
  inferInstanceAs (Decidable (∀ r ∈ s.blocks, ∀ r' ∈ s.blocks, _))

end Store

theorem Node.Consistent.row_height {node : Node} (h : node.Consistent) {s : Store}
    (hs : node.Knows s) {row : BlockRow} (hrow : row ∈ s.blocks) {block : BlockInfo}
    (hseen : node.Seen block) (hsame : row.hash = block.header.hash) :
    row.number = block.header.height := by
  obtain ⟨t, header, hheader, hnumber, _⟩ := hs row hrow
  obtain ⟨t', hblock⟩ := hseen.header
  rw [hsame] at hheader
  rw [hnumber, h.same hheader hblock]

theorem Node.Consistent.row_parent {node : Node} (h : node.Consistent) {s : Store}
    (hs : node.Knows s) {row : BlockRow} (hrow : row ∈ s.blocks) {block : BlockInfo}
    (hseen : node.Seen block) (hsame : row.hash = block.header.hash) :
    row.previousHash = block.header.previousBlockHash := by
  obtain ⟨t, header, hheader, _, hprevious⟩ := hs row hrow
  obtain ⟨t', hblock⟩ := hseen.header
  rw [hsame] at hheader
  rw [hprevious, h.same hheader hblock]

namespace Processor

theorem indexTransactions_keeps {blockHash : BlockHash} {idx : Nat} {txs : List Transaction}
    {rows : List TransactionRow} (h : ∃ t ∈ rows, t.blockHash = blockHash) :
    ∃ t ∈ indexTransactions blockHash idx txs rows, t.blockHash = blockHash := by
  induction txs generalizing idx rows with
  | nil => exact h
  | cons tx rest ih =>
      apply ih
      obtain ⟨t, ht, hash⟩ := h
      split
      · refine ⟨_, List.mem_map_of_mem ht, ?_⟩
        unfold Store.repoint
        split
        · rfl
        · exact hash
      · exact ⟨t, List.mem_append_left _ ht, hash⟩

theorem indexTransactions_blockHash {blockHash : BlockHash} {idx : Nat} {txs : List Transaction}
    {rows : List TransactionRow} (h : txs ≠ []) :
    ∃ t ∈ indexTransactions blockHash idx txs rows, t.blockHash = blockHash := by
  cases txs with
  | nil => exact absurd rfl h
  | cons tx rest =>
      rw [indexTransactions]
      apply indexTransactions_keeps
      split
      · next hin =>
          obtain ⟨t, ht, htxid⟩ := List.mem_map.mp hin
          refine ⟨_, List.mem_map_of_mem ht, ?_⟩
          rw [Store.repoint, if_pos htxid]
      · exact ⟨_, List.mem_append_right _ List.mem_cons_self, rfl⟩

/-- A block that is indexed is stored: it was before, or its hash and number were free. A
number taken by another block makes the rows of its transactions refer to nothing. -/
theorem Indexed.stored {P : Processor} {block : BlockInfo} {s s' : Store}
    (h : P.Indexed block s s') (htxs : block.txdata ≠ []) :
    (s'.blocks = s.blocks ∧ block.header.hash ∈ s.blocks.map BlockRow.hash) ∨
      (block.header.height ∉ s.blocks.map BlockRow.number ∧
        ∃ timestamp, s'.blocks = s.blocks ++ [blockRow block.header timestamp]) := by
  obtain ⟨timestamp, _, hblocks⟩ := h.blocks
  unfold Store.upsertBlock at hblocks
  split at hblocks
  · have hrow : ∃ t ∈ s'.transactions, t.blockHash = block.header.hash := by
      rw [h.transactions]
      exact indexTransactions_blockHash htxs
    obtain ⟨t, ht, hash⟩ := hrow
    have href := s'.blockRef t ht
    rw [hash, hblocks] at href
    exact .inl ⟨hblocks, href⟩
  · next hfree =>
      refine .inr ⟨fun hmem => hfree (.inr hmem), timestamp, hblocks⟩

theorem Indexed.linked {P : Processor} {node : Node} {block : BlockInfo} {s s' : Store}
    (hnode : node.Consistent) (h : P.Indexed block s s') (hseen : node.Seen block)
    (hknows : node.Knows s) (hlinked : s.Linked) (hbelow : s.FitsBelow block)
    (habove : s.FitsAbove block) : node.Knows s' ∧ s'.Linked ∧ s'.Agrees block := by
  rcases h.stored hseen.txdata with ⟨hsame, hmem⟩ | ⟨hfree, timestamp, hnew⟩
  · obtain ⟨own, hown, hhash⟩ := List.mem_map.mp hmem
    have hnumber := hnode.row_height hknows hown hseen hhash
    unfold Node.Knows Store.Linked Store.Agrees
    rw [hsame]
    refine ⟨hknows, hlinked, fun row hrow hat => ?_⟩
    rw [s.numberKey.eq_of_key hrow hown (hat.trans hnumber.symm)]
    exact hhash
  · unfold Node.Knows Store.Linked Store.Agrees
    rw [hnew]
    have hother : ∀ row ∈ s.blocks, row.number ≠ block.header.height := fun row hrow hat =>
      hfree (hat ▸ List.mem_map_of_mem hrow)
    refine ⟨?_, ?_, ?_⟩
    · intro row hrow
      rcases List.mem_append.mp hrow with hrow | hrow
      · exact hknows row hrow
      · rw [List.mem_singleton.mp hrow]
        obtain ⟨t, hheader⟩ := hseen.header
        exact ⟨t, block.header, hheader, rfl, rfl⟩
    · intro r hr r' hr' hnext
      rcases List.mem_append.mp hr with hr | hr <;> rcases List.mem_append.mp hr' with hr' | hr'
      · exact hlinked r hr r' hr' hnext
      · rw [List.mem_singleton.mp hr'] at hnext ⊢
        exact hbelow r hr hnext
      · rw [List.mem_singleton.mp hr] at hnext ⊢
        exact habove hfree r' hr' hnext
      · rw [List.mem_singleton.mp hr, List.mem_singleton.mp hr'] at hnext
        omega
    · intro row hrow hat
      rcases List.mem_append.mp hrow with hrow | hrow
      · exact absurd hat (hother row hrow)
      · rw [List.mem_singleton.mp hrow]
        rfl

end Processor

/-- The walk over parents has arrived. -/
def Store.Arrived (s : Store) (block : BlockInfo) : Prop :=
  block.header.height = 0 ∨ block.header.hash ∈ s.blocks.map BlockRow.hash

/-- A walk from a block back over its ancestors to one that is stored, head first. -/
inductive Walked (node : Node) (s : Store) : BlockInfo → List BlockInfo → Prop
  | arrived {block : BlockInfo} (h : s.Arrived block) : Walked node s block []
  | rootless {block : BlockInfo} (h : ¬ s.Arrived block)
      (hnone : block.header.previousBlockHash = none) : Walked node s block [block]
  | step {block parent : BlockInfo} {rest : List BlockInfo} (h : ¬ s.Arrived block)
      (hseen : node.Seen parent)
      (hparent : block.header.previousBlockHash = some parent.header.hash)
      (later : Walked node s parent rest) : Walked node s block (block :: rest)

namespace Walked

variable {node : Node} {s : Store} {block : BlockInfo} {blocks : List BlockInfo}

theorem rootless_false (hnode : node.Consistent) (hseen : node.Seen block)
    (h : ¬ s.Arrived block) : block.header.previousBlockHash ≠ none := by
  obtain ⟨t, hheader⟩ := hseen.header
  exact hnode.rooted hheader fun hzero => h (.inl hzero)

theorem height_succ (hnode : node.Consistent) {parent : BlockInfo} (hseen : node.Seen block)
    (hparent : node.Seen parent)
    (hprev : block.header.previousBlockHash = some parent.header.hash) :
    block.header.height = parent.header.height + 1 := by
  obtain ⟨t, hheader⟩ := hseen.header
  obtain ⟨t', hheader'⟩ := hparent.header
  exact hnode.parent hheader hprev hheader'

theorem head (h : Walked node s block blocks) (hne : blocks ≠ []) :
    ∃ rest, blocks = block :: rest := by
  cases h with
  | arrived h => exact absurd rfl hne
  | rootless h hnone => exact ⟨[], rfl⟩
  | @step _ _ rest h hseen hparent later => exact ⟨rest, rfl⟩

theorem member (hnode : node.Consistent) (h : Walked node s block blocks)
    (hseen : node.Seen block) {b : BlockInfo} (hb : b ∈ blocks) :
    node.Seen b ∧ ¬ s.Arrived b ∧ b.header.height ≤ block.header.height := by
  induction h with
  | arrived h => cases hb
  | rootless h hnone =>
      rw [List.mem_singleton.mp hb]
      exact ⟨hseen, h, Nat.le_refl _⟩
  | step h hparentSeen hparent later ih =>
      rcases List.mem_cons.mp hb with rfl | hb
      · exact ⟨hseen, h, Nat.le_refl _⟩
      · obtain ⟨hbseen, hnew, hle⟩ := ih hparentSeen hb
        have hsucc := height_succ hnode hseen hparentSeen hparent
        exact ⟨hbseen, hnew, by omega⟩

theorem descending (hnode : node.Consistent) (h : Walked node s block blocks)
    (hseen : node.Seen block) :
    blocks.Pairwise (fun b c => c.header.height < b.header.height) := by
  induction h with
  | arrived h => exact List.Pairwise.nil
  | rootless h hnone => exact List.pairwise_singleton _ _
  | step h hparentSeen hparent later ih =>
      refine List.pairwise_cons.mpr ⟨fun c hc => ?_, ih hparentSeen⟩
      have hsucc := height_succ hnode hseen hparentSeen hparent
      have hle := (later.member hnode hparentSeen hc).2.2
      omega

/-- The parent of a block of the walk is the next block of the walk, or the walk ends there. -/
theorem parent (hnode : node.Consistent) (h : Walked node s block blocks)
    (hseen : node.Seen block) {b : BlockInfo} (hb : b ∈ blocks) :
    ∃ parent, node.Seen parent ∧ b.header.previousBlockHash = some parent.header.hash ∧
      b.header.height = parent.header.height + 1 ∧ (parent ∈ blocks ∨ s.Arrived parent ∧
        ∀ c ∈ blocks, b.header.height ≤ c.header.height) := by
  induction h with
  | arrived h => cases hb
  | rootless h hnone => exact absurd hnone (rootless_false hnode hseen h)
  | @step block parent rest h hparentSeen hparent later ih =>
      have hsucc := height_succ hnode hseen hparentSeen hparent
      rcases List.mem_cons.mp hb with rfl | hin
      · refine ⟨parent, hparentSeen, hparent, hsucc, ?_⟩
        by_cases hnil : rest = []
        · subst hnil
          cases later with
          | arrived harrived =>
              refine .inr ⟨harrived, fun c hc => ?_⟩
              rw [List.mem_singleton.mp hc]
        · obtain ⟨_, hrest⟩ := later.head hnil
          exact .inl (List.mem_cons_of_mem _ (hrest ▸ List.mem_cons_self))
      · obtain ⟨p, hpseen, hprev, hpsucc, hcases⟩ := ih hparentSeen hin
        refine ⟨p, hpseen, hprev, hpsucc, ?_⟩
        rcases hcases with hnext | ⟨harrived, hmin⟩
        · exact .inl (List.mem_cons_of_mem _ hnext)
        · have hle := (later.member hnode hparentSeen hin).2.2
          refine .inr ⟨harrived, fun c hc => ?_⟩
          rcases List.mem_cons.mp hc with rfl | hc
          · omega
          · exact hmin c hc

theorem heights_nodup (hnode : node.Consistent) (h : Walked node s block blocks)
    (hseen : node.Seen block) : (blocks.map (fun b => b.header.height)).Nodup :=
  List.pairwise_map.mpr ((h.descending hnode hseen).imp fun hlt => Nat.ne_of_gt hlt)

theorem eq_of_height (hnode : node.Consistent) (h : Walked node s block blocks)
    (hseen : node.Seen block) {b c : BlockInfo} (hb : b ∈ blocks) (hc : c ∈ blocks)
    (hsame : b.header.height = c.header.height) : b = c :=
  List.inj_on_of_nodup_map (h.heights_nodup hnode hseen) hb hc hsame

theorem hashes_nodup (hnode : node.Consistent) (h : Walked node s block blocks)
    (hseen : node.Seen block) : (blocks.map (fun b => b.header.hash)).Nodup := by
  have hdistinct := List.Nodup.of_map _ (h.heights_nodup hnode hseen)
  refine (List.nodup_map_iff_inj_on hdistinct).mpr ?_
  intro b hb c hc hsame
  obtain ⟨t, hb'⟩ := (h.member hnode hseen hb).1.header
  obtain ⟨t', hc'⟩ := (h.member hnode hseen hc).1.header
  rw [hsame] at hb'
  exact h.eq_of_height hnode hseen hb hc (congrArg Header.height (hnode.same hb' hc'))

theorem origin_le (hnode : node.Consistent) (h : Walked node s block blocks)
    (hseen : node.Seen block) {origin : BlockInfo} (hlast : blocks.getLast? = some origin)
    {b : BlockInfo} (hb : b ∈ blocks) : origin.header.height ≤ b.header.height := by
  obtain ⟨init, rfl⟩ := List.getLast?_eq_some_iff.mp hlast
  rcases List.mem_append.mp hb with hb | hb
  · exact Nat.le_of_lt ((List.pairwise_append.mp (h.descending hnode hseen)).2.2 b hb origin
      List.mem_cons_self)
  · rw [List.mem_singleton.mp hb]

theorem covers (hnode : node.Consistent) (h : Walked node s block blocks)
    (hseen : node.Seen block) {origin : BlockInfo} (hlast : blocks.getLast? = some origin)
    {number : Nat} (hlow : origin.header.height ≤ number)
    (hhigh : number ≤ block.header.height) : ∃ b ∈ blocks, b.header.height = number := by
  induction h with
  | arrived h => cases hlast
  | rootless h hnone =>
      cases hlast
      exact ⟨_, List.mem_cons_self, Nat.le_antisymm hlow hhigh⟩
  | @step block parent rest h hparentSeen hparent later ih =>
      have hsucc := height_succ hnode hseen hparentSeen hparent
      by_cases htop : number = block.header.height
      · exact ⟨block, List.mem_cons_self, htop.symm⟩
      · have hne : rest ≠ [] := by
          rintro rfl
          have horigin : block = origin := by simpa using hlast
          rw [horigin] at hhigh htop
          omega
        have hrest : rest.getLast? = some origin := by
          rw [List.getLast?_cons, List.getLast?_eq_some_getLast hne] at hlast
          rw [List.getLast?_eq_some_getLast hne]
          exact hlast
        obtain ⟨b, hb, hat⟩ := ih hparentSeen hrest (by omega)
        exact ⟨b, List.mem_cons_of_mem _ hb, hat⟩

end Walked

namespace Processor

/-- A replay indexes the blocks of the fork on what is left below its origin. -/
theorem processFork_indexed {P : Processor} {env : DbEnv} {blocks : List BlockInfo}
    {origin : BlockInfo} {w w' : World Store AggregatorMsg}
    (hlast : blocks.getLast? = some origin) (h : processFork P env blocks w = .ok () w') :
    P.IndexedAll blocks
      ((w.store.deleteBlocksSince origin.header.height).unspendUtxosSpentSinceBlock
        origin.header.height) w'.store := by
  rw [processFork_eq] at h
  have happly := (transact_ok h).1
  rw [forkOps_apply (env.hashOrder w.clock) hlast rfl] at happly
  exact blocksOps_ok happly

theorem processFork_blocks {P : Processor} {env : DbEnv} {blocks : List BlockInfo}
    {origin : BlockInfo} {w w' : World Store AggregatorMsg}
    (hlast : blocks.getLast? = some origin)
    (hfresh : ∀ b ∈ blocks, b.header.hash ∉ w.store.blocks.map BlockRow.hash)
    (hhashes : (blocks.map (fun b => b.header.hash)).Nodup)
    (hheights : (blocks.map (fun b => b.header.height)).Nodup)
    (hlowest : ∀ b ∈ blocks, origin.header.height ≤ b.header.height)
    (h : processFork P env blocks w = .ok () w') :
    w'.store.blocks = w.store.blocks.filter
        (fun row => decide (row.number < origin.header.height)) ++ P.blockRows blocks := by
  have hindexed := processFork_indexed hlast h
  have hback : ((w.store.deleteBlocksSince origin.header.height).unspendUtxosSpentSinceBlock
      origin.header.height).blocks = w.store.blocks.filter
        (fun row => decide (row.number < origin.header.height)) := rfl
  rw [hindexed.blocks ?_ ?_, hback]
  · rw [hback]
    refine List.Nodup.append (w.store.hashKey.filter _) hhashes ?_
    intro hash hold hnew
    obtain ⟨b, hb, rfl⟩ := List.mem_map.mp hnew
    exact hfresh b hb ((List.filter_sublist.map _).subset hold)
  · rw [hback]
    refine List.Nodup.append (w.store.numberKey.filter _) hheights ?_
    intro number hold hnew
    obtain ⟨b, hb, rfl⟩ := List.mem_map.mp hnew
    obtain ⟨row, hrow, hsame⟩ := List.mem_map.mp hold
    have hlow := of_decide_eq_true (List.mem_filter.mp hrow).2
    have hge := hlowest b hb
    omega

section Fork

variable {P : Processor} {node : Node} {env : DbEnv} {block : BlockInfo} {blocks : List BlockInfo}
variable {w w' : World Store AggregatorMsg}

theorem processFork_table (hnode : node.Consistent) (hwalk : Walked node w.store block blocks)
    (hseen : node.Seen block) {origin : BlockInfo} (hlast : blocks.getLast? = some origin)
    (h : processFork P env blocks w = .ok () w') :
    w'.store.blocks = w.store.blocks.filter
        (fun row => decide (row.number < origin.header.height)) ++ P.blockRows blocks :=
  processFork_blocks hlast
    (fun _ hb hstored => (hwalk.member hnode hseen hb).2.1 (.inr hstored))
    (hwalk.hashes_nodup hnode hseen) (hwalk.heights_nodup hnode hseen)
    (fun _ hb => hwalk.origin_le hnode hseen hlast hb) h

theorem processFork_rows (hnode : node.Consistent) (hwalk : Walked node w.store block blocks)
    (hseen : node.Seen block) {origin : BlockInfo} (hlast : blocks.getLast? = some origin)
    (h : processFork P env blocks w = .ok () w') {row : BlockRow} (hrow : row ∈ w'.store.blocks) :
    (row ∈ w.store.blocks ∧ row.number < origin.header.height) ∨
      ∃ b ∈ blocks, row.hash = b.header.hash ∧ row.number = b.header.height ∧
        row.previousHash = b.header.previousBlockHash := by
  rw [processFork_table hnode hwalk hseen hlast h] at hrow
  rcases List.mem_append.mp hrow with hrow | hrow
  · obtain ⟨hin, hlow⟩ := List.mem_filter.mp hrow
    exact .inl ⟨hin, of_decide_eq_true hlow⟩
  · exact .inr (mem_blockRows hrow)

theorem processFork_row (hnode : node.Consistent) (hwalk : Walked node w.store block blocks)
    (hseen : node.Seen block) {origin : BlockInfo} (hlast : blocks.getLast? = some origin)
    (h : processFork P env blocks w = .ok () w') {b : BlockInfo} (hb : b ∈ blocks) :
    ∃ row ∈ w'.store.blocks, row.hash = b.header.hash ∧ row.number = b.header.height := by
  rw [processFork_table hnode hwalk hseen hlast h]
  obtain ⟨hknown, _⟩ := (processFork_indexed hlast h).known b hb
  obtain ⟨timestamp, hts⟩ := Option.isSome_iff_exists.mp hknown
  have hrow : blockRow b.header timestamp ∈ P.blockRows blocks :=
    List.mem_filterMap.mpr ⟨b, hb, by rw [hts]; rfl⟩
  exact ⟨_, List.mem_append_right _ hrow, rfl, rfl⟩

theorem processFork_stores (hnode : node.Consistent) (hwalk : Walked node w.store block blocks)
    (hseen : node.Seen block) {origin : BlockInfo} (hlast : blocks.getLast? = some origin)
    (h : processFork P env blocks w = .ok () w') {number : Nat}
    (hstored : number < origin.header.height ∧ number ∈ w.store.blocks.map BlockRow.number ∨
      ∃ b ∈ blocks, b.header.height = number) :
    number ∈ w'.store.blocks.map BlockRow.number := by
  rcases hstored with ⟨hlow, hmem⟩ | ⟨b, hb, rfl⟩
  · obtain ⟨row, hrow, rfl⟩ := List.mem_map.mp hmem
    rw [processFork_table hnode hwalk hseen hlast h, List.map_append]
    exact List.mem_append_left _
      (List.mem_map_of_mem (List.mem_filter.mpr ⟨hrow, decide_eq_true hlow⟩))
  · obtain ⟨row, hrow, _, hnumber⟩ := processFork_row hnode hwalk hseen hlast h hb
    exact hnumber ▸ List.mem_map_of_mem hrow

theorem arrived_hash (hnode : node.Consistent) {s : Store} (hknows : node.Knows s)
    (hseen : node.Seen block) (harrived : s.Arrived block) {row : BlockRow} (hrow : row ∈ s.blocks)
    (hat : row.number = block.header.height) : block.header.hash = row.hash := by
  rcases harrived with hgenesis | hstored
  · obtain ⟨t, header, hheader, hnumber, _⟩ := hknows row hrow
    obtain ⟨t', hheader'⟩ := hseen.header
    exact hnode.genesis hheader' hheader hgenesis (by omega)
  · obtain ⟨own, hown, hsame⟩ := List.mem_map.mp hstored
    have hheight := hnode.row_height hknows hown hseen hsame
    rw [s.numberKey.eq_of_key hrow hown (hat.trans hheight.symm)]
    exact hsame.symm

theorem processFork_fits (hnode : node.Consistent) (hwalk : Walked node w.store block blocks)
    (hseen : node.Seen block) {origin : BlockInfo} (hlast : blocks.getLast? = some origin)
    (hknows : node.Knows w.store) (h : processFork P env blocks w = .ok () w')
    {b : BlockInfo} (hb : b ∈ blocks) {row : BlockRow} (hrow : row ∈ w'.store.blocks)
    (hbelow : b.header.height = row.number + 1) :
    b.header.previousBlockHash = some row.hash := by
  obtain ⟨parent, hparentSeen, hparent, hsucc, hwhere⟩ := hwalk.parent hnode hseen hb
  have hat : row.number = parent.header.height := by omega
  rw [hparent]
  congr 1
  rcases processFork_rows hnode hwalk hseen hlast h hrow with
    ⟨hold, hlow⟩ | ⟨c, hc, hhash, hnumber, _⟩
  · -- the row below the fork: the walk ended at it
    rcases hwhere with hin | ⟨harrived, _⟩
    · have hge := hwalk.origin_le hnode hseen hlast hin
      omega
    · exact arrived_hash hnode hknows hparentSeen harrived hold hat
  · -- two blocks of the fork
    rcases hwhere with hin | ⟨_, hmin⟩
    · have hsame := hwalk.eq_of_height hnode hseen hin hc (by omega)
      rw [hsame, hhash]
    · have hge := hmin c hc
      omega

/-- A fork that was walked back keeps the rows linked, whatever was stored above its origin. -/
theorem processFork_linked (hnode : node.Consistent) (hwalk : Walked node w.store block blocks)
    (hseen : node.Seen block) (hne : blocks ≠ []) (hknows : node.Knows w.store)
    (hlinked : w.store.Linked) (h : processFork P env blocks w = .ok () w') :
    node.Knows w'.store ∧ w'.store.Linked ∧ w'.store.Agrees block := by
  have hlast := List.getLast?_eq_some_getLast hne
  have hlowest := fun b (hb : b ∈ blocks) => hwalk.origin_le hnode hseen hlast hb
  have hcases := fun row (hrow : row ∈ w'.store.blocks) =>
    processFork_rows hnode hwalk hseen hlast h hrow
  refine ⟨?_, ?_, ?_⟩
  · intro row hrow
    rcases hcases row hrow with ⟨hold, _⟩ | ⟨b, hb, hhash, hnumber, hprev⟩
    · exact hknows row hold
    · obtain ⟨t, hheader⟩ := (hwalk.member hnode hseen hb).1.header
      exact ⟨t, b.header, hhash ▸ hheader, hnumber, hprev⟩
  · intro r hr r' hr' hnext
    rcases hcases r' hr' with ⟨hold', hlow'⟩ | ⟨b', hb', _, hnumber', hprev'⟩
    · rcases hcases r hr with ⟨hold, _⟩ | ⟨b, hb, _, hnumber, _⟩
      · exact hlinked r hold r' hold' hnext
      · have hge := hlowest b hb
        omega
    · rw [hprev']
      exact processFork_fits hnode hwalk hseen hlast hknows h hb' hr (by omega)
  · intro row hrow hat
    obtain ⟨rest, hrest⟩ := hwalk.head hne
    have hhead : block ∈ blocks := hrest ▸ List.mem_cons_self
    rcases hcases row hrow with ⟨_, hlow⟩ | ⟨b, hb, hhash, hnumber, _⟩
    · have hge := hlowest block hhead
      omega
    · rw [hhash, hwalk.eq_of_height hnode hseen hb hhead (by omega)]

end Fork

end Processor

end BtcIndexer
