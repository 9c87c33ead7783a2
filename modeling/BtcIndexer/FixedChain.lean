import BtcIndexer.Branches

/-! A node whose chain stays. From some tick on every height that the node names is that of one
chain, and each block of it has the one below as its parent. A cursor on this chain only ever
goes on to the block above it. -/
namespace BtcIndexer
open Stateful Outbox Rows

/-- From a tick on, the node's answers follow one chain. -/
structure Node.Keeps (node : Node) (since : Nat) (chain : Nat → BlockHash) : Prop where
  named : ∀ {t number hash}, since ≤ t → node.getBlockHash t number = .ok hash →
    hash = chain number
  linked : ∀ {t t' number hash header}, since ≤ t →
    node.getBlockHash t (number + 1) = .ok hash → node.getBlockHeader t' hash = .ok header →
    header.previousBlockHash = some (chain number)

namespace Node.Keeps

variable {node : Node} {since before number : Nat} {chain : Nat → BlockHash}
  {block prevBlock : BlockInfo}

theorem later {since' : Nat} (h : node.Keeps since chain) (hle : since ≤ since') :
    node.Keeps since' chain where
  named := fun ht => h.named (Nat.le_trans hle ht)
  linked := fun ht => h.linked (Nat.le_trans hle ht)

theorem hash (h : node.Keeps since chain) (hshows : node.Shows since before number block) :
    block.header.hash = chain block.header.height := by
  obtain ⟨t, ht, _, hanswer⟩ := hshows.hash
  rw [hshows.height]
  exact h.named ht hanswer

theorem extends_cursor (h : node.Keeps since chain)
    (hcursor : prevBlock.header.hash = chain prevBlock.header.height)
    (hshows : node.Shows since before (prevBlock.header.height + 1) block) :
    block.header.previousBlockHash = some prevBlock.header.hash := by
  obtain ⟨t, ht, _, hanswer⟩ := hshows.hash
  obtain ⟨t', hheader⟩ := hshows.seen.header
  rw [hcursor]
  exact h.linked ht hanswer hheader

end Node.Keeps

namespace Store

/-- Every height of the range has its block of the chain in the table. -/
def Holds (s : Store) (chain : Nat → BlockHash) (first last : Nat) : Prop :=
  ∀ number, first ≤ number → number ≤ last →
    ∃ row ∈ s.blocks, row.number = number ∧ row.hash = chain number

theorem Holds.mem {s : Store} {chain : Nat → BlockHash} {first last number : Nat}
    (h : s.Holds chain first last) (hfirst : first ≤ number) (hlast : number ≤ last) :
    number ∈ s.blocks.map BlockRow.number := by
  obtain ⟨row, hrow, hnumber, _⟩ := h number hfirst hlast
  exact hnumber ▸ List.mem_map_of_mem hrow

theorem Holds.mono {s s' : Store} {chain : Nat → BlockHash} {first last : Nat}
    (h : s.Holds chain first last) (hsub : ∀ row ∈ s.blocks, row ∈ s'.blocks) :
    s'.Holds chain first last := by
  intro number hfirst hlast
  obtain ⟨row, hrow, hnumber, hhash⟩ := h number hfirst hlast
  exact ⟨row, hsub row hrow, hnumber, hhash⟩

theorem Holds.snoc {s : Store} {chain : Nat → BlockHash} {first last : Nat}
    (h : s.Holds chain first last) {row : BlockRow} (hrow : row ∈ s.blocks)
    (hnumber : row.number = last + 1) (hhash : row.hash = chain (last + 1)) :
    s.Holds chain first (last + 1) := by
  intro number hfirst hlast
  by_cases hlow : number ≤ last
  · exact h number hfirst hlow
  · have hsame : number = last + 1 := by omega
    subst hsame
    exact ⟨row, hrow, hnumber, hhash⟩

end Store

namespace Processor

variable {P : Processor} {block : BlockInfo} {s s' : Store}

theorem Indexed.row_cases (h : P.Indexed block s s') {row : BlockRow} (hrow : row ∈ s'.blocks) :
    row ∈ s.blocks ∨ row.hash = block.header.hash ∧ row.number = block.header.height ∧
      row.previousHash = block.header.previousBlockHash := by
  obtain ⟨timestamp, _, hblocks⟩ := h.blocks
  rw [hblocks] at hrow
  unfold Store.upsertBlock at hrow
  split at hrow
  · exact .inl hrow
  · rcases List.mem_append.mp hrow with hold | hnew
    · exact .inl hold
    · rw [List.mem_singleton.mp hnew]
      exact .inr ⟨rfl, rfl, rfl⟩

theorem Indexed.row_mem (h : P.Indexed block s s') {row : BlockRow} (hrow : row ∈ s.blocks) :
    row ∈ s'.blocks := by
  obtain ⟨timestamp, _, hblocks⟩ := h.blocks
  rw [hblocks]
  unfold Store.upsertBlock
  split
  · exact hrow
  · exact List.mem_append_left _ hrow

theorem Indexed.knows {node : Node} (h : P.Indexed block s s') (hseen : node.Seen block)
    (hknows : node.Knows s) : node.Knows s' := by
  intro row hrow
  rcases h.row_cases hrow with hold | ⟨hhash, hnumber, hprev⟩
  · exact hknows row hold
  · obtain ⟨t, hheader⟩ := hseen.header
    exact ⟨t, block.header, hhash ▸ hheader, hnumber, hprev⟩

theorem Indexed.row_at {node : Node} (hnode : node.Consistent) (h : P.Indexed block s s')
    (hseen : node.Seen block) (hknows : node.Knows s) :
    ∃ row ∈ s'.blocks, row.number = block.header.height ∧ row.hash = block.header.hash := by
  rcases h.stored hseen.txdata with ⟨hsame, hmem⟩ | ⟨_, timestamp, hnew⟩
  · obtain ⟨row, hrow, hhash⟩ := List.mem_map.mp hmem
    exact ⟨row, hsame ▸ hrow, hnode.row_height hknows hrow hseen hhash, hhash⟩
  · rw [hnew]
    exact ⟨_, List.mem_append_right _ List.mem_cons_self, rfl, rfl⟩

end Processor

/-- The cursor is on the chain, and the tables are in a given relation to it. -/
def Harvester.At (chain : Nat → BlockHash) (J : BlockInfo → Store → Prop) (h : Harvester) : Prop :=
  ∃ block, h.lastProcessedBlock = some block ∧ block.header.hash = chain block.header.height ∧
    J block h.world.store

/-- With the cursor on the chain a round meets no fork and no first block: a relation between
cursor and tables only has to survive the next block. -/
theorem at_stepwise {P : Processor} {node : Node} {env : DbEnv} {since : Nat}
    {chain : Nat → BlockHash} {J : BlockInfo → Store → Prop} (hchain : node.Keeps since chain)
    (hnext : ∀ prevBlock block before s s', J prevBlock s →
      node.Shows since before (prevBlock.header.height + 1) block → P.Indexed block s s' →
      J block s') :
    Stepwise P node env since (Harvester.At chain J) where
  steady := by
    rintro h w hstore _ _ ⟨block, hcursor, hon, hj⟩
    exact ⟨block, hcursor, hon, hstore.symm ▸ hj⟩
  first := by
    rintro h desired block w committed ⟨other, hsome, _⟩ hnone
    rw [hnone] at hsome
    cases hsome
  next := by
    rintro h prevBlock block w ⟨other, hsome, _, hj⟩ hcursor hshows hprev hrun
    rw [hcursor] at hsome
    cases hsome
    exact ⟨block, rfl, hchain.hash hshows,
      hnext prevBlock block _ _ _ hj hshows (Processor.process_ok hrun)⟩
  fork := by
    rintro h prevBlock block blocks w ⟨other, hsome, hon, _⟩ hcursor hshows hother
    rw [hcursor] at hsome
    cases hsome
    exact absurd (hchain.extends_cursor hon hshows) hother
  failed := by
    rintro h job e w ⟨block, hcursor, hon, hj⟩ _ _ hrun
    exact ⟨block, hcursor, hon, (Job.run_error hrun).symm ▸ hj⟩

/-- The hashes of the blocks by height. -/
def chainOf (blocks : List BlockInfo) (number : Nat) : BlockHash :=
  ((blocks.find? (fun b => b.header.height = number)).map (fun b => b.header.hash)).getD ⟨0⟩

/-- Each block names the block below it. -/
def Unbroken (blocks : List BlockInfo) : Prop :=
  ∀ b ∈ blocks, b.header.height ≠ 0 →
    b.header.previousBlockHash = some (chainOf blocks (b.header.height - 1))

instance (blocks : List BlockInfo) : Decidable (Unbroken blocks) :=
  inferInstanceAs (Decidable (∀ b ∈ blocks, _))

theorem Node.ofBlocks_chainOf {blocks : List BlockInfo} {t number : Nat} {hash : BlockHash}
    (h : (Node.ofBlocks blocks).getBlockHash t number = .ok hash) :
    hash = chainOf blocks number := by
  simp only [Node.ofBlocks] at h
  unfold chainOf
  cases hfind : blocks.find? (fun b => b.header.height = number) with
  | none => rw [hfind] at h; cases h
  | some b => rw [hfind] at h; cases h; rfl

theorem Node.switching_hash {before after : List BlockInfo} {tick t : Nat} (hle : tick ≤ t)
    (number : Nat) : (Node.switching before after tick).getBlockHash t number =
      (Node.ofBlocks after).getBlockHash t number := by
  simp only [Node.switching, Nat.not_lt_of_le hle, if_false]

theorem Unbroken.below {before after : List BlockInfo} (hunbroken : Unbroken after)
    (hbranching : Branching (before ++ after)) {b : BlockInfo} (hb : b ∈ after) {number : Nat}
    (hnumber : b.header.height = number + 1) {tick t : Nat} {header : Header}
    (hheader : (Node.switching before after tick).getBlockHeader t b.header.hash = .ok header) :
    header.previousBlockHash = some (chainOf after number) := by
  obtain ⟨c, hc, rfl, hhash⟩ := Node.ofBlocks_header (t := t) hheader
  have hsame : b.header = c.header :=
    ((hbranching b (List.mem_append_right _ hb)).2.2 c hc).1 hhash.symm
  have hprev := hunbroken b hb (by omega)
  rw [hnumber, Nat.add_sub_cancel] at hprev
  rw [← hsame]
  exact hprev

theorem Node.switching_keeps {before after : List BlockInfo}
    (hbranching : Branching (before ++ after))
    (hunbroken : Unbroken after) {tick since : Nat} (hle : tick ≤ since) :
    (Node.switching before after tick).Keeps since (chainOf after) where
  named := by
    intro t number hash ht hhash
    rw [Node.switching_hash (Nat.le_trans hle ht)] at hhash
    exact Node.ofBlocks_chainOf hhash
  linked := by
    intro t t' number hash header ht hhash hheader
    rw [Node.switching_hash (Nat.le_trans hle ht)] at hhash
    obtain ⟨b, hb, hnumber, rfl⟩ := Node.ofBlocks_hash hhash
    exact hunbroken.below hbranching hb hnumber hheader

/-- A node that stands at the last of the blocks. -/
def Node.standing (blocks : List BlockInfo) : Node := Node.switching [] blocks 0

theorem standing_consistent : (Node.standing newBranch).Consistent :=
  Node.switching_consistent (by decide +kernel) 0

theorem standing_keeps (since : Nat) : (Node.standing newBranch).Keeps since (chainOf newBranch) :=
  Node.switching_keeps (by decide +kernel) (by decide +kernel) (Nat.zero_le since)

end BtcIndexer
