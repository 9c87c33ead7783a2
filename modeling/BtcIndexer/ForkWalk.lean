import BtcIndexer.ForkReplay
import BtcIndexer.Branches

/-! The walk back from the head of a fork: what it returns, that it returns, and what the
deletion that follows it leaves in place. -/
namespace BtcIndexer
open Stateful Outbox Rows

def Node.Parent (node : Node) (child parent : Header) : Prop :=
  child.previousBlockHash = some parent.hash ∧
    ∃ t, node.getBlockHeader t parent.hash = .ok parent

/-- The headers a header descends from, itself among them. -/
def Node.Descends (node : Node) : Header → Header → Prop := Relation.ReflTransGen node.Parent

/-- The node has the parent of every block it has answered with, whenever it is asked. -/
def Node.Complete (node : Node) : Prop :=
  ∀ t block parentHash, node.Seen block → block.header.previousBlockHash = some parentHash →
    (∃ header, node.getBlockHeader t parentHash = .ok header) ∧
      ∃ txdata, node.getBlock t parentHash = .ok txdata

/-- The longest run of blocks from a head down its parents of which none is stored or at
height 0. -/
structure MaximalChain (node : Node) (s : Store) (head : BlockInfo) (blocks : List BlockInfo) :
    Prop where
  first : ∀ first ∈ blocks.head?, first = head
  linked : blocks.IsChain fun block parent =>
    block.header.previousBlockHash = some parent.header.hash ∧
      block.header.height = parent.header.height + 1
  member : ∀ block ∈ blocks, node.Seen block ∧ block.header.height ≠ 0 ∧
    block.header.hash ∉ s.blocks.map BlockRow.hash
  /-- The walk ends at a block that is stored or has height 0: the parent of the last block,
  or the head if there is none. -/
  ends : ∃ ancestor, node.Seen ancestor ∧ s.Arrived ancestor ∧
    (blocks = [] → ancestor = head) ∧ ∀ origin ∈ blocks.getLast?,
      origin.header.previousBlockHash = some ancestor.header.hash ∧
        origin.header.height = ancestor.header.height + 1

section Tree

variable {node : Node} {s : Store} {head : BlockInfo} {blocks : List BlockInfo}

theorem Walked.headers_eq (hnode : node.Consistent) (h : Walked node s head blocks)
    {head' : BlockInfo} {blocks' : List BlockInfo} (h' : Walked node s head' blocks')
    (hsame : head'.header = head.header) :
    blocks'.map BlockInfo.header = blocks.map BlockInfo.header := by
  induction h generalizing head' blocks' with
  | @arrived block harrived =>
      rw [Store.Arrived, ← hsame] at harrived
      cases h' with
      | arrived _ => rfl
      | rootless hnew _ => exact absurd harrived hnew
      | step hnew _ _ _ => exact absurd harrived hnew
  | @rootless block hnew hnone =>
      rw [Store.Arrived, ← hsame] at hnew
      cases h' with
      | arrived harrived => exact absurd harrived hnew
      | rootless _ _ => rw [List.map_singleton, List.map_singleton, hsame]
      | step _ _ hparent _ =>
          rw [hsame, hnone] at hparent
          cases hparent
  | @step block parent rest hnew hseen hparent later ih =>
      rw [Store.Arrived, ← hsame] at hnew
      cases h' with
      | arrived harrived => exact absurd harrived hnew
      | rootless _ hnone =>
          rw [hsame, hparent] at hnone
          cases hnone
      | @step _ parent' rest' _ hseen' hparent' later' =>
          obtain ⟨t, hheader⟩ := hseen.header
          obtain ⟨t', hheader'⟩ := hseen'.header
          rw [hsame, hparent] at hparent'
          rw [← Option.some.inj hparent'] at hheader'
          rw [List.map_cons, List.map_cons, hsame, ih later' (hnode.same hheader' hheader)]

theorem Walked.maximal (hnode : node.Consistent) (h : Walked node s head blocks)
    (hseen : node.Seen head) : MaximalChain node s head blocks where
  first := by
    intro first hfirst
    cases h with
    | arrived _ => cases hfirst
    | rootless _ _ => cases hfirst; rfl
    | step _ _ _ _ => cases hfirst; rfl
  linked := by
    induction h with
    | arrived _ => exact .nil
    | rootless _ _ => exact .singleton _
    | step hnew hparentSeen hparent later ih =>
        have hlinked := And.intro hparent (height_succ hnode hseen hparentSeen hparent)
        cases later with
        | arrived _ => exact .singleton _
        | rootless _ _ => exact .cons_cons hlinked (ih hparentSeen)
        | step _ _ _ _ => exact .cons_cons hlinked (ih hparentSeen)
  member := by
    intro block hblock
    obtain ⟨hblockSeen, hnew, _⟩ := h.member hnode hseen hblock
    exact ⟨hblockSeen, fun hzero => hnew (.inl hzero), fun hstored => hnew (.inr hstored)⟩
  ends := by
    by_cases hnil : blocks = []
    · subst hnil
      cases h with
      | arrived harrived => exact ⟨head, hseen, harrived, fun _ => rfl, fun _ ho => by cases ho⟩
    · have hlast := List.getLast?_eq_some_getLast hnil
      obtain ⟨parent, hparentSeen, hprev, hsucc, hwhere⟩ :=
        h.parent hnode hseen (List.getLast_mem hnil)
      refine ⟨parent, hparentSeen, ?_, fun h => absurd h hnil, fun origin horigin => ?_⟩
      · rcases hwhere with hin | ⟨harrived, _⟩
        · have hle := h.origin_le hnode hseen hlast hin
          omega
        · exact harrived
      · rw [hlast] at horigin
        cases horigin
        exact ⟨hprev, hsucc⟩

theorem MaximalChain.walked (h : MaximalChain node s head blocks) :
    Walked node s head blocks := by
  induction blocks generalizing head with
  | nil =>
      obtain ⟨ancestor, _, harrived, hhead, _⟩ := h.ends
      exact .arrived (hhead rfl ▸ harrived)
  | cons block rest ih =>
      obtain ⟨_, hheight, hhash⟩ := h.member block List.mem_cons_self
      have hnew : ¬ s.Arrived block := fun harrived => harrived.elim hheight hhash
      obtain ⟨ancestor, hseen, harrived, _, hlast⟩ := h.ends
      cases h.first block rfl
      cases rest with
      | nil => exact .step hnew hseen (hlast _ rfl).1 (.arrived harrived)
      | cons parent rest =>
          have hparent := (List.isChain_cons_cons.mp h.linked).1
          have hlater := (h.member parent (by simp)).1
          refine .step hnew hlater hparent.1 (ih ⟨?_, ?_, ?_, ?_⟩)
          · intro first hfirst
            cases hfirst
            rfl
          · exact (List.isChain_cons_cons.mp h.linked).2
          · exact fun b hb => h.member b (List.mem_cons_of_mem _ hb)
          · refine ⟨ancestor, hseen, harrived, (nomatch ·), fun origin horigin => ?_⟩
            exact hlast origin (by rwa [List.getLast?_cons_cons])

theorem Node.Descends.height_le (hnode : node.Consistent) {header ancestor : Header}
    (h : node.Descends header ancestor)
    (hknown : ∃ t, node.getBlockHeader t header.hash = .ok header) :
    ancestor.height ≤ header.height := by
  induction h using Relation.ReflTransGen.head_induction_on with
  | refl => exact Nat.le_refl _
  | head hparent _ ih =>
      obtain ⟨t, hheader⟩ := hknown
      obtain ⟨hprev, t', hheader'⟩ := hparent
      have hle := ih ⟨t', hheader'⟩
      have hsucc := hnode.parent hheader hprev hheader'
      omega

/-- An ancestor of the head is met on the way, or it lies below all that is met. -/
theorem Walked.ancestor (hnode : node.Consistent) (h : Walked node s head blocks)
    (hseen : node.Seen head) {ancestor : Header} (hdescends : node.Descends head.header ancestor) :
    (∃ block ∈ blocks, block.header = ancestor) ∨
      ∀ block ∈ blocks, ancestor.height < block.header.height := by
  induction h with
  | arrived _ => exact .inr fun _ hb => by cases hb
  | rootless hnew hnone => exact absurd hnone (rootless_false hnode hseen hnew)
  | @step block parent rest hnew hparentSeen hparent later ih =>
      rcases hdescends.cases_head with heq | ⟨header, ⟨hprev, t, hheader⟩, hlater⟩
      · exact .inl ⟨block, List.mem_cons_self, heq⟩
      · have hsame : header = parent.header := by
          obtain ⟨t', hheader'⟩ := hparentSeen.header
          rw [hparent] at hprev
          rw [Option.some.inj hprev] at hheader'
          exact hnode.same hheader hheader'
        subst hsame
        rcases ih hparentSeen hlater with ⟨b, hb, heq⟩ | hbelow
        · exact .inl ⟨b, List.mem_cons_of_mem _ hb, heq⟩
        · refine .inr fun b hb => ?_
          rcases List.mem_cons.mp hb with rfl | hb
          · have hle := Node.Descends.height_le hnode hlater hparentSeen.header
            have hsucc := height_succ hnode hseen hparentSeen hparent
            omega
          · exact hbelow b hb

/-- What is deleted from the last block of a walk on holds no ancestor of the head. -/
theorem Walked.spares (hnode : node.Consistent) (h : Walked node s head blocks)
    (hseen : node.Seen head) {origin : BlockInfo} (hlast : blocks.getLast? = some origin)
    {ancestor : Header} (hdescends : node.Descends head.header ancestor) {row : BlockRow}
    (hrow : row ∈ s.blocks) (hhash : row.hash = ancestor.hash)
    (hnumber : row.number = ancestor.height) :
    row ∈ (s.deleteBlocksSince origin.header.height).blocks := by
  have horigin : origin ∈ blocks := List.mem_of_getLast? hlast
  rcases h.ancestor hnode hseen hdescends with ⟨b, hb, rfl⟩ | hbelow
  · have hnew := (h.member hnode hseen hb).2.1
    exact absurd (.inr (List.mem_map.mpr ⟨row, hrow, hhash⟩)) hnew
  · refine List.mem_filter.mpr ⟨hrow, decide_eq_true ?_⟩
    rw [hnumber]
    exact hbelow origin horigin

end Tree

section Returns

variable {node : Node} {env : DbEnv}

theorem scanBlockByHash_complete (hcomplete : node.Complete)
    (hattended : ∀ t, env.interrupted t = false) {block : BlockInfo} (hseen : node.Seen block)
    {parentHash : BlockHash} (hprev : block.header.previousBlockHash = some parentHash)
    (w : World Store AggregatorMsg) :
    ∃ parent, node.scanBlockByHash env parentHash w = .ok parent w.tick := by
  obtain ⟨⟨header, hheader⟩, txdata, htxdata⟩ := hcomplete w.clock block parentHash hseen hprev
  refine ⟨⟨header, txdata⟩, ?_⟩
  simp only [Node.scanBlockByHash, rpc, hattended, Bool.false_eq_true, if_false, hheader, htxdata]

theorem isAncestor_answers (hattended : ∀ t, env.interrupted t = false) (block : BlockInfo)
    (h : Harvester) : (∃ found k, isAncestor env block h = .ok found k) ∨
      ∃ t k, env.sqlFails t = true ∧
        isAncestor env block h = .error (.other (.sqlx .io)) k := by
  unfold isAncestor
  split
  · exact .inl ⟨true, h, rfl⟩
  · simp only [lift, Processor.isProcessed, query, DbEnv.faults, hattended, Bool.false_or]
    cases hfails : env.sqlFails h.world.clock with
    | true => exact .inr ⟨h.world.clock, _, hfails, rfl⟩
    | false => exact .inl ⟨_, _, rfl⟩

theorem getForkBlocks_found {fuel : Nat} {block : BlockInfo} {h k : Harvester}
    (hfound : isAncestor env block h = .ok true k) :
    getForkBlocks node env (fuel + 1) block h = .ok [] k := bind_of_ok hfound

theorem getForkBlocks_new {fuel : Nat} {block : BlockInfo} {parentHash : BlockHash}
    {h k : Harvester} (hfound : isAncestor env block h = .ok false k)
    (hprev : block.header.previousBlockHash = some parentHash) :
    getForkBlocks node env (fuel + 1) block h =
      (lift .client (node.scanBlockByHash env parentHash) >>= fun parent =>
        getForkBlocks node env fuel parent >>= fun rest => pure (block :: rest)) k := by
  refine (bind_of_ok hfound).trans ?_
  simp only [Bool.false_eq_true, if_false, hprev]

/-- The height of the block bounds the blocks still to be looked at. -/
theorem getForkBlocks_returns (hnode : node.Consistent) (hcomplete : node.Complete)
    (hattended : ∀ t, env.interrupted t = false) {fuel : Nat} {block : BlockInfo} (h : Harvester)
    (hseen : node.Seen block) (hfuel : block.header.height < fuel) :
    (∃ blocks k, getForkBlocks node env fuel block h = .ok blocks k) ∨
      ∃ t k, env.sqlFails t = true ∧
        getForkBlocks node env fuel block h = .error (.other (.sqlx .io)) k := by
  induction fuel generalizing block h with
  | zero => exact absurd hfuel (Nat.not_lt_zero _)
  | succ fuel ih =>
      rcases isAncestor_answers hattended block h with ⟨found, k, hfound⟩ | ⟨t, k, hfails, herror⟩
      · cases found with
        | true => exact .inl ⟨[], k, getForkBlocks_found hfound⟩
        | false =>
            have hnew : ¬ h.world.store.Arrived block := by
              have htriple : Triple (fun k => k.world.store = h.world.store)
                  (isAncestor env block) _ _ :=
                isAncestor_triple (store_steady h.world.store) block
              have hspec := htriple.of_ok rfl hfound
              rw [← hspec.1]
              exact fun harrived => Bool.false_ne_true (hspec.2.mpr harrived)
            have hrooted := Walked.rootless_false hnode hseen hnew
            obtain ⟨parentHash, hprev⟩ := Option.ne_none_iff_exists'.mp hrooted
            obtain ⟨parent, hscan⟩ :=
              scanBlockByHash_complete hcomplete hattended hseen hprev k.world
            obtain ⟨hparentSeen, hhash⟩ := scanBlockByHash_seen hnode hscan
            have hsucc := Walked.height_succ hnode hseen hparentSeen (by rw [hprev, hhash])
            rw [getForkBlocks_new hfound hprev, bind_of_ok (lift_ok hscan)]
            rcases ih { k with world := k.world.tick } hparentSeen (by omega) with
              ⟨rest, k', hrest⟩ | ⟨t, k', hfails, hrest⟩
            · exact .inl ⟨block :: rest, k', bind_of_ok hrest⟩
            · exact .inr ⟨t, k', hfails, bind_of_error hrest⟩
      · exact .inr ⟨t, k, hfails, bind_of_error herror⟩

end Returns

/-- On any tables the walk from a head returns the maximal chain of blocks that are neither
stored nor at height 0, and no other; the deletion from its last block on spares every stored
ancestor of the head. It does return, within as many steps as the head is high, where the
calls to the node succeed; a failure is then one of the database. -/
theorem getForkBlocks_maximal (node : Node) (env : DbEnv) (fuel : Nat) (head : BlockInfo)
    (h : Harvester) (hnode : node.Consistent) (hseen : node.Seen head) :
    (∀ blocks k, getForkBlocks node env fuel head h = .ok blocks k →
      k.world.store = h.world.store ∧ MaximalChain node h.world.store head blocks ∧
      (∀ other, MaximalChain node h.world.store head other →
        other.map BlockInfo.header = blocks.map BlockInfo.header) ∧
      ∀ origin ∈ blocks.getLast?, ∀ ancestor, node.Descends head.header ancestor →
        ∀ row ∈ k.world.store.blocks, row.hash = ancestor.hash → row.number = ancestor.height →
          row ∈ (k.world.store.deleteBlocksSince origin.header.height).blocks) ∧
    (node.Complete → (∀ t, env.interrupted t = false) → head.header.height < fuel →
      (∃ blocks k, getForkBlocks node env fuel head h = .ok blocks k) ∨
        ∃ t k, env.sqlFails t = true ∧
          getForkBlocks node env fuel head h = .error (.other (.sqlx .io)) k) := by
  constructor
  · intro blocks k hrun
    obtain ⟨hstore, hwalk⟩ := (getForkBlocks_triple env hnode (store_steady h.world.store)
      (fun _ hk => hk) fuel head).of_ok rfl hrun
    refine ⟨hstore, hwalk.maximal hnode hseen, fun other hother => ?_, ?_⟩
    · exact hwalk.headers_eq hnode hother.walked rfl
    · rw [hstore]
      intro origin horigin ancestor hdescends row hrow hhash hnumber
      exact hwalk.spares hnode hseen horigin hdescends hrow hhash hnumber
  · intro hcomplete hattended hfuel
    exact getForkBlocks_returns hnode hcomplete hattended h hseen hfuel

/-- The new branch, walked back from its tip with only the genesis block stored. -/
theorem newBranch_walk : ∃ blocks k,
    getForkBlocks (Node.switching oldBranch newBranch 9) DbEnv.calm 4
      (blockAt 203 3 202 [coinbaseTx 4 []]) (harvesterAt [genesisBlock]) = .ok blocks k ∧
    MaximalChain (Node.switching oldBranch newBranch 9) (harvesterAt [genesisBlock]).world.store
      (blockAt 203 3 202 [coinbaseTx 4 []]) blocks := by
  have hwalk := getForkBlocks_maximal (Node.switching oldBranch newBranch 9) DbEnv.calm 4
    (blockAt 203 3 202 [coinbaseTx 4 []]) (harvesterAt [genesisBlock]) branches_consistent
    ⟨⟨0, rfl⟩, by decide⟩
  have hreturned : returned (getForkBlocks (Node.switching oldBranch newBranch 9) DbEnv.calm 4
      (blockAt 203 3 202 [coinbaseTx 4 []]) (harvesterAt [genesisBlock])) = true := by
    decide +kernel
  cases hrun : getForkBlocks (Node.switching oldBranch newBranch 9) DbEnv.calm 4
      (blockAt 203 3 202 [coinbaseTx 4 []]) (harvesterAt [genesisBlock]) with
  | ok blocks k => exact ⟨blocks, k, rfl, (hwalk.1 blocks k hrun).2.1⟩
  | error e k =>
      rw [hrun] at hreturned
      cases hreturned

end BtcIndexer
