import BtcIndexer.HarvesterRules

/-! Nodes with given blocks, whose chain is reorganised at a tick, and when they are consistent:
the blocks form one tree, each at its height. -/
namespace BtcIndexer
open Stateful Outbox Rows

/-- A node with one chain before the tick and another from it on; it keeps the headers of
both. -/
def Node.switching (before after : List BlockInfo) (tick : Nat) : Node where
  getBlockCount := fun t => (Node.ofBlocks (if t < tick then before else after)).getBlockCount t
  getBlockHash := fun t => (Node.ofBlocks (if t < tick then before else after)).getBlockHash t
  getBlockHeader := (Node.ofBlocks (before ++ after)).getBlockHeader
  getBlock := (Node.ofBlocks (before ++ after)).getBlock

/-- Blocks that form one tree, each at its height. -/
def Branching (blocks : List BlockInfo) : Prop :=
  ∀ b ∈ blocks, b.txdata ≠ [] ∧
    (b.header.height ≠ 0 → b.header.previousBlockHash ≠ none) ∧ ∀ c ∈ blocks,
      (b.header.hash = c.header.hash → b.header = c.header) ∧
      (b.header.previousBlockHash = some c.header.hash →
        b.header.height = c.header.height + 1) ∧
      (b.header.height = 0 → c.header.height = 0 → b.header.hash = c.header.hash)

instance (blocks : List BlockInfo) : Decidable (Branching blocks) :=
  inferInstanceAs (Decidable (∀ b ∈ blocks, _))

theorem Node.ofBlocks_header {blocks : List BlockInfo} {t : Nat} {hash : BlockHash}
    {header : Header} (h : (Node.ofBlocks blocks).getBlockHeader t hash = .ok header) :
    ∃ b ∈ blocks, b.header = header ∧ b.header.hash = hash := by
  simp only [Node.ofBlocks] at h
  cases hfind : blocks.find? (fun b => b.header.hash = hash) with
  | none => rw [hfind] at h; cases h
  | some b =>
      rw [hfind] at h
      cases h
      obtain ⟨hb, hhash⟩ := find?_key_some hfind
      exact ⟨b, hb, rfl, hhash⟩

theorem Node.ofBlocks_hash {blocks : List BlockInfo} {t number : Nat} {hash : BlockHash}
    (h : (Node.ofBlocks blocks).getBlockHash t number = .ok hash) :
    ∃ b ∈ blocks, b.header.height = number ∧ b.header.hash = hash := by
  simp only [Node.ofBlocks] at h
  cases hfind : blocks.find? (fun b => b.header.height = number) with
  | none => rw [hfind] at h; cases h
  | some b =>
      rw [hfind] at h
      cases h
      obtain ⟨hb, hnumber⟩ := find?_key_some hfind
      exact ⟨b, hb, hnumber, rfl⟩

theorem Node.ofBlocks_txdata {blocks : List BlockInfo} {t : Nat} {hash : BlockHash}
    {txdata : List Transaction} (h : (Node.ofBlocks blocks).getBlock t hash = .ok txdata) :
    ∃ b ∈ blocks, b.txdata = txdata := by
  simp only [Node.ofBlocks] at h
  cases hfind : blocks.find? (fun b => b.header.hash = hash) with
  | none => rw [hfind] at h; cases h
  | some b =>
      rw [hfind] at h
      cases h
      exact ⟨b, (find?_key_some hfind).1, rfl⟩

/-- A node that keeps the headers of some blocks, and is on a chain of them at each tick. -/
def Node.following (chain : Nat → List BlockInfo) (blocks : List BlockInfo) : Node where
  getBlockCount := fun t => (Node.ofBlocks (chain t)).getBlockCount t
  getBlockHash := fun t => (Node.ofBlocks (chain t)).getBlockHash t
  getBlockHeader := (Node.ofBlocks blocks).getBlockHeader
  getBlock := (Node.ofBlocks blocks).getBlock

theorem Node.following_consistent {chain : Nat → List BlockInfo} {blocks : List BlockInfo}
    (h : Branching blocks) (hchain : ∀ t, ∀ b ∈ chain t, b ∈ blocks) :
    (Node.following chain blocks).Consistent where
  hash := by
    intro t hash header hheader
    obtain ⟨b, _, rfl, hhash⟩ := Node.ofBlocks_header (t := t) hheader
    exact hhash
  same := by
    intro t t' hash header header' hheader hheader'
    obtain ⟨b, hb, rfl, hhash⟩ := Node.ofBlocks_header (t := t) hheader
    obtain ⟨c, hc, rfl, hhash'⟩ := Node.ofBlocks_header (t := t') hheader'
    exact ((h b hb).2.2 c hc).1 (hhash.trans hhash'.symm)
  height := by
    intro t t' number hash header hhash hheader
    obtain ⟨b, hb, hnumber, hsame⟩ := Node.ofBlocks_hash (t := t) hhash
    obtain ⟨c, hc, rfl, hsame'⟩ := Node.ofBlocks_header (t := t') hheader
    rw [((h c hc).2.2 b (hchain t b hb)).1 (hsame'.trans hsame.symm)]
    exact hnumber
  parent := by
    intro t t' hash parentHash header parent hheader hprev hparent
    obtain ⟨b, hb, rfl, _⟩ := Node.ofBlocks_header (t := t) hheader
    obtain ⟨c, hc, rfl, hhash⟩ := Node.ofBlocks_header (t := t') hparent
    exact ((h b hb).2.2 c hc).2.1 (by rw [hprev, hhash])
  rooted := by
    intro t hash header hheader hheight
    obtain ⟨b, hb, rfl, _⟩ := Node.ofBlocks_header (t := t) hheader
    exact (h b hb).2.1 hheight
  genesis := by
    intro t t' hash hash' header header' hheader hheader' hzero hzero'
    obtain ⟨b, hb, rfl, hhash⟩ := Node.ofBlocks_header (t := t) hheader
    obtain ⟨c, hc, rfl, hhash'⟩ := Node.ofBlocks_header (t := t') hheader'
    rw [← hhash, ← hhash']
    exact ((h b hb).2.2 c hc).2.2 hzero hzero'
  coinbase := by
    intro t hash txdata hblock
    obtain ⟨b, hb, rfl⟩ := Node.ofBlocks_txdata (t := t) hblock
    exact (h b hb).1

theorem Node.switching_consistent {before after : List BlockInfo}
    (h : Branching (before ++ after)) (tick : Nat) :
    (Node.switching before after tick).Consistent := by
  have hchain : ∀ t, ∀ b ∈ (if t < tick then before else after), b ∈ before ++ after := by
    intro t b hb
    split at hb
    · exact List.mem_append_left _ hb
    · exact List.mem_append_right _ hb
  exact Node.following_consistent h hchain

def genesisBlock : BlockInfo := ⟨⟨⟨100⟩, 0, none, 0, 0, 1⟩, [coinbaseTx 10 []]⟩

def oldBranch : List BlockInfo := [genesisBlock, blockAt 101 1 100 [coinbaseTx 1 []]]

def newBranch : List BlockInfo :=
  [genesisBlock, blockAt 201 1 100 [coinbaseTx 2 []], blockAt 202 2 201 [coinbaseTx 3 []],
    blockAt 203 3 202 [coinbaseTx 4 []]]

theorem branches_consistent : (Node.switching oldBranch newBranch 9).Consistent :=
  Node.switching_consistent (by decide +kernel) 9

end BtcIndexer
