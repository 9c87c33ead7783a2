import BtcIndexer.FixedChain

/-! A scan of a range of heights. The command moves the cursor to the first block of the range,
which counts as processed from then on, and the rounds go on from the block above it: the rest
of the range is stored, its first block never is. -/
namespace BtcIndexer
open Stateful Outbox Rows

/-- The range is stored, and no block above it was processed on the way. -/
structure ScannedRange (chain : Nat → BlockHash) (first last : Nat) (h h' : Harvester) : Prop where
  stored : h'.world.store.Holds chain first last
  bounded : ∀ entries, h'.history = h.history ++ entries → ∀ job before after committed,
    Entry.call job before after committed ∈ entries →
      ∀ block ∈ job.blocks, block.header.height ≤ last

/-- The cursor is at the first block of the range or above it, and no row has its height. -/
def PastFirst (first : Nat) (block : BlockInfo) (s : Store) : Prop :=
  first ≤ block.header.height ∧ ∀ row ∈ s.blocks, row.number ≠ first

/-- Everything above the first block up to the cursor is stored. -/
def RestStored (node : Node) (chain : Nat → BlockHash) (first : Nat) (block : BlockInfo)
    (s : Store) : Prop :=
  node.Knows s ∧ s.Holds chain (first + 1) block.header.height

section Steps

variable {P : Processor} {node : Node} {env : DbEnv} {since : Nat} {chain : Nat → BlockHash}
variable {first last : Nat}

theorem scanBlock_ok {h k : Harvester} (hnode : node.Consistent)
    (hrun : obey node env (.scanBlock first last) h = .ok () k) :
    ∃ block, node.Shows h.world.clock k.world.clock first block ∧
      k.lastProcessedBlock = some block ∧ k.endHeight = some last ∧
      k.world.store = h.world.store ∧
      h.world.clock ≤ k.world.clock := by
  rw [obey_scanBlock_apply] at hrun
  cases hscan : node.scanBlock env.attended first h.world with
  | error e w =>
      rw [hscan] at hrun
      cases hrun
  | ok block w =>
      rw [hscan] at hrun
      cases hrun
      exact ⟨block, scanBlock_shows hnode hscan, rfl, rfl,
        ((scanBlock_reads node env.attended first).of_ok hscan).1,
        (scanBlock_ticks node env.attended first).of_ok hscan⟩

theorem pastFirst_stepwise (hchain : node.Keeps since chain) :
    Stepwise P node env since (Harvester.At chain (PastFirst first)) := by
  refine at_stepwise hchain ?_
  intro prevBlock block _ s s' hpast hshows hindexed
  obtain ⟨hle, hmissing⟩ := hpast
  have hheight := hshows.height
  refine ⟨by omega, fun row hrow => ?_⟩
  rcases hindexed.row_cases hrow with hold | ⟨_, hnumber, _⟩
  · exact hmissing row hold
  · omega

theorem restStored_stepwise (hnode : node.Consistent) (hchain : node.Keeps since chain) :
    Stepwise P node env since (Harvester.At chain (RestStored node chain first)) := by
  refine at_stepwise hchain ?_
  intro prevBlock block _ s s' hrest hshows hindexed
  obtain ⟨hknows, hholds⟩ := hrest
  obtain ⟨row, hrow, hnumber, hhash⟩ := hindexed.row_at hnode hshows.seen hknows
  have hheight := hshows.height
  have hon := hchain.hash hshows
  have hgrown : s'.Holds chain (first + 1) prevBlock.header.height :=
    hholds.mono fun row hrow => hindexed.row_mem hrow
  refine ⟨hindexed.knows hshows.seen hknows, ?_⟩
  rw [hheight] at hon hnumber ⊢
  exact hgrown.snoc hrow hnumber (hhash.trans hon)

/-- What the command and a round that returns do: the range without its first block. -/
theorem scanBlock_stores_rest (hnode : node.Consistent) {h h₁ h₂ : Harvester} {fuel : Nat}
    (hchain : node.Keeps h.world.clock chain) (hknows : node.Knows h.world.store)
    (hobey : obey node env (.scanBlock first last) h = .ok () h₁)
    (hharvest : harvest P node env fuel h₁ = .ok () h₂) :
    h₂.world.store.Holds chain (first + 1) last := by
  obtain ⟨block, hshows, hcursor, hbound, hstore, hclock⟩ := scanBlock_ok hnode hobey
  have hsteps : Stepwise P node env h.world.clock
      (Harvester.At chain (RestStored node chain first)) :=
    restStored_stepwise hnode hchain
  have hrest : h₁.At chain (RestStored node chain first) := by
    refine ⟨block, hcursor, hchain.hash hshows, hstore ▸ hknows, fun number hfirst hlast => ?_⟩
    have hheight := hshows.height
    omega
  have hround := (hsteps.timed.harvest hnode fuel).of_ok ⟨hclock, hrest⟩ hharvest
  obtain ⟨_, other, hother, _, _, hholds⟩ := hround
  obtain ⟨desired, arrived, hdesires, harrived, hle, _⟩ := harvest_arrives hnode hharvest
  rw [hother] at harrived
  cases harrived
  rw [hbound] at hdesires
  cases hdesires
  exact fun number hfirst hlast => hholds number hfirst (Nat.le_trans hlast hle)

end Steps

/-- Whatever the state of the harvester, on a node with one fixed chain a scan of an unstored
range by command and the round after it never store the range: its first block is missing. -/
theorem scannedRange_never (P : Processor) (node : Node) (env : DbEnv)
    (chain : Nat → BlockHash) {first last fuel : Nat} {h h₁ h₂ : Harvester}
    (hnode : node.Consistent) (hchain : node.Keeps h.world.clock chain) (hle : first ≤ last)
    (hfree : ∀ row ∈ h.world.store.blocks, ¬ (first ≤ row.number ∧ row.number ≤ last))
    (hobey : obey node env (.scanBlock first last) h = .ok () h₁)
    (hharvest : harvest P node env fuel h₁ = .ok () h₂) :
    ¬ ScannedRange chain first last h₁ h₂ := by
  obtain ⟨block, hshows, hcursor, _, hstore, hclock⟩ := scanBlock_ok hnode hobey
  have hsteps : Stepwise P node env h.world.clock (Harvester.At chain (PastFirst first)) :=
    pastFirst_stepwise hchain
  have hpast : h₁.At chain (PastFirst first) := by
    refine ⟨block, hcursor, hchain.hash hshows, Nat.le_of_eq hshows.height.symm,
      fun row hrow hat => ?_⟩
    exact hfree row (hstore ▸ hrow) ⟨Nat.le_of_eq hat.symm, hat ▸ hle⟩
  have hround := (hsteps.timed.harvest hnode fuel).of_ok ⟨hclock, hpast⟩ hharvest
  obtain ⟨_, _, _, _, _, hmissing⟩ := hround
  intro hscanned
  obtain ⟨row, hrow, hnumber, _⟩ := hscanned.stored first (Nat.le_refl _) hle
  exact hmissing row hrow hnumber

def commanded : Harvester :=
  final (obey (Node.standing newBranch) DbEnv.calm (.scanBlock 1 3) freshHarvester)

def scannedOnce : Harvester :=
  final (harvest Processor.mainnet (Node.standing newBranch) DbEnv.calm 5 commanded)

theorem commanded_ok : obey (Node.standing newBranch) DbEnv.calm (.scanBlock 1 3) freshHarvester =
    .ok () commanded := eq_ok_of_returned (by decide +kernel)

theorem scannedOnce_ok : harvest Processor.mainnet (Node.standing newBranch) DbEnv.calm 5
    commanded = .ok () scannedOnce := eq_ok_of_returned (by decide +kernel)

theorem scannedRange_never_fresh :
    ¬ ScannedRange (chainOf newBranch) 1 3 commanded scannedOnce :=
  scannedRange_never Processor.mainnet (Node.standing newBranch) DbEnv.calm (chainOf newBranch)
    standing_consistent (standing_keeps 0) (by decide) (fun _ hrow => absurd hrow List.not_mem_nil)
    commanded_ok scannedOnce_ok

/-- Command and round return, and blocks 2 and 3 are all that is stored. -/
theorem scanned_without_first : ∃ h₁ h₂,
    obey (Node.standing newBranch) DbEnv.calm (.scanBlock 1 3) freshHarvester = .ok () h₁ ∧
      harvest Processor.mainnet (Node.standing newBranch) DbEnv.calm 5 h₁ = .ok () h₂ ∧
      freshHarvester.world.store.blocks = [] ∧
      h₂.world.store.blocks.map BlockRow.number = [2, 3] ∧
      ¬ ScannedRange (chainOf newBranch) 1 3 h₁ h₂ := by
  have hnumbers : scannedOnce.world.store.blocks.map BlockRow.number = [2, 3] := by decide +kernel
  refine ⟨commanded, scannedOnce, commanded_ok, scannedOnce_ok, rfl, hnumbers, fun hscanned => ?_⟩
  have hmem := hscanned.stored.mem (Nat.le_refl 1) (by decide)
  rw [hnumbers] at hmem
  revert hmem
  decide

end BtcIndexer
