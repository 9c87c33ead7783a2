import BtcIndexer.Harvester
import BtcIndexer.Rollback
import BtcIndexer.UtxoExactness

/-! A reorganisation against indexing the new chain directly. The walk hands the fork over
with the head first and the replay keeps that order, so a fork block meets the outputs of the
blocks below it before these exist. The tables agree for the forks whose blocks spend no
output of one another, and for no others. -/
namespace BtcIndexer
open Stateful Outbox Rows

/-- The node answers for the block whenever it is asked by hash. -/
def Node.Serves (node : Node) (block : BlockInfo) : Prop :=
  ∀ t, node.getBlockHeader t block.header.hash = .ok block.header ∧
    node.getBlock t block.header.hash = .ok block.txdata

/-- A node that knows the given blocks and stands at the last of them. -/
def Node.ofBlocks (blocks : List BlockInfo) : Node where
  getBlockCount := fun _ => .ok ((blocks.getLast?.map (fun b => b.header.height)).getD 0)
  getBlockHash := fun _ number =>
    match blocks.find? (fun b => b.header.height = number) with
    | some b => .ok b.header.hash
    | none => .error .rpcError
  getBlockHeader := fun _ hash =>
    match blocks.find? (fun b => b.header.hash = hash) with
    | some b => .ok b.header
    | none => .error .rpcError
  getBlock := fun _ hash =>
    match blocks.find? (fun b => b.header.hash = hash) with
    | some b => .ok b.txdata
    | none => .error .rpcError

theorem Node.ofBlocks_serves {blocks : List BlockInfo}
    (h : (blocks.map (fun b => b.header.hash)).Nodup) :
    ∀ b ∈ blocks, (Node.ofBlocks blocks).Serves b := by
  intro b hb t
  have hfind : blocks.find? (fun c => c.header.hash = b.header.hash) = some b :=
    Keyed.find?_eq_some_iff h |>.mpr ⟨hb, rfl⟩
  simp only [Node.ofBlocks, hfind, and_self]

structure DbEnv.Quiet (env : DbEnv) : Prop where
  sqlFails : ∀ t, env.sqlFails t = false
  interrupted : ∀ t, env.interrupted t = false
  receiverGone : ∀ t, env.receiverGone t = false

theorem DbEnv.Quiet.faults {env : DbEnv} (h : env.Quiet) : env.faults.Quiet where
  sql := fun t => by
    simp only [DbEnv.faults, h.interrupted, h.sqlFails, Bool.or_self]
  closed := h.receiverGone

theorem DbEnv.calm_quiet : DbEnv.calm.Quiet :=
  ⟨fun _ => rfl, fun _ => rfl, fun _ => rfl⟩

theorem lift_ok {α : Type} {variant : ProcessorError → HarvesterError} {x : ProcessorM α}
    {h : Harvester} {a : α} {w : World Store AggregatorMsg} (hx : x h.world = .ok a w) :
    lift variant x h = .ok a { h with world := w } := by
  simp only [lift, hx]

theorem scanBlockByHash_serves {node : Node} {env : DbEnv} (hquiet : env.Quiet)
    {block : BlockInfo} (hserves : node.Serves block) (w : World Store AggregatorMsg) :
    node.scanBlockByHash env block.header.hash w = .ok block w.tick := by
  obtain ⟨hheader, hbody⟩ := hserves w.clock
  simp only [Node.scanBlockByHash, rpc, hquiet.interrupted, Bool.false_eq_true, if_false,
    hheader, hbody]

theorem isProcessed_quiet {env : DbEnv} (hquiet : env.Quiet) (hash : BlockHash)
    (w : World Store AggregatorMsg) :
    Processor.isProcessed env hash w = .ok (w.store.hasBlock hash) w.tick := by
  simp only [Processor.isProcessed, query, hquiet.faults.sql, Bool.false_eq_true, if_false]

theorem getForkBlocks_stored {node : Node} {env : DbEnv} (hquiet : env.Quiet)
    {block : BlockInfo} {h : Harvester} (fuel : Nat)
    (hstored : h.world.store.hasBlock block.header.hash = true) :
    ∃ w, getForkBlocks node env (fuel + 1) block h = .ok [] { h with world := w } ∧
      w.store = h.world.store := by
  by_cases hzero : block.header.height = 0
  · refine ⟨h.world, ?_, rfl⟩
    simp only [getForkBlocks, isAncestor, hzero, if_true, pure_bind]
    rfl
  · refine ⟨h.world.tick, ?_, rfl⟩
    have hknown := isProcessed_quiet hquiet block.header.hash h.world
    rw [hstored] at hknown
    simp only [getForkBlocks, isAncestor, hzero, if_false]
    exact bind_of_ok (lift_ok hknown)

theorem getForkBlocks_step {node : Node} {env : DbEnv} (hquiet : env.Quiet)
    {parent block : BlockInfo} {h : Harvester} (fuel : Nat) (hfollows : Follows parent block)
    (hserves : node.Serves parent)
    (hnew : h.world.store.hasBlock block.header.hash = false) :
    getForkBlocks node env (fuel + 1) block h =
      (getForkBlocks node env fuel parent >>= fun rest => pure (block :: rest))
        { h with world := h.world.tick.tick } := by
  have hzero : block.header.height ≠ 0 := Nat.ne_of_gt (Nat.zero_lt_of_lt hfollows.2)
  have hknown := isProcessed_quiet hquiet block.header.hash h.world
  rw [hnew] at hknown
  simp only [getForkBlocks, isAncestor, hzero, if_false, hfollows.1]
  rw [bind_of_ok (lift_ok hknown)]
  simp only [Bool.false_eq_true, if_false]
  exact bind_of_ok (lift_ok (scanBlockByHash_serves hquiet hserves h.world.tick))

theorem getForkBlocks_eq {node : Node} {env : DbEnv} (hquiet : env.Quiet) {ancestor : BlockInfo}
    {fork : List BlockInfo} {h : Harvester} {fuel : Nat}
    (hchain : List.IsChain Follows (ancestor :: fork))
    (hserves : ∀ b ∈ ancestor :: fork, node.Serves b)
    (hstored : h.world.store.hasBlock ancestor.header.hash = true)
    (hnew : ∀ b ∈ fork, h.world.store.hasBlock b.header.hash = false)
    (hfuel : fork.length < fuel) :
    ∃ w, getForkBlocks node env fuel ((ancestor :: fork).getLast (by simp)) h =
      .ok fork.reverse { h with world := w } ∧ w.store = h.world.store := by
  obtain ⟨fuel, rfl⟩ : ∃ k, fuel = k + 1 := ⟨fuel - 1, by omega⟩
  induction fork using List.reverseRecOn generalizing fuel h with
  | nil => exact getForkBlocks_stored hquiet fuel hstored
  | append_singleton fork block ih =>
      have hsplit : ancestor :: (fork ++ [block]) = (ancestor :: fork) ++ [block] := rfl
      have hfollows : Follows ((ancestor :: fork).getLast (by simp)) block := by
        rw [hsplit] at hchain
        exact hchain.rel_getLast_head_of_append (by simp) (by simp)
      have hparent : node.Serves ((ancestor :: fork).getLast (by simp)) := by
        apply hserves
        rw [hsplit]
        exact List.mem_append_left _ (List.getLast_mem _)
      rw [List.length_append, List.length_singleton] at hfuel
      obtain ⟨fuel, rfl⟩ : ∃ k, fuel = k + 1 := ⟨fuel - 1, by omega⟩
      obtain ⟨w, hw, hstore⟩ := ih (h := { h with world := h.world.tick.tick })
        hchain.left_of_append (fun b hb => hserves b (List.mem_append_left _ hb)) hstored
        (fun b hb => hnew b (List.mem_append_left _ hb)) fuel (by omega)
      refine ⟨w, ?_, hstore⟩
      have hlast : (ancestor :: (fork ++ [block])).getLast (by simp) = block := by simp
      rw [hlast, getForkBlocks_step hquiet _ hfollows hparent (hnew block (by simp)),
        bind_of_ok hw, List.reverse_append]
      rfl

namespace Processor

/-- No input of the fork consumes an output of another of its blocks. -/
def SpentWithin (P : Processor) (fork : List BlockInfo) : Prop :=
  ∀ b ∈ fork, ∀ u ∈ P.created b, ∀ c ∈ fork, u.outPoint ∈ c.outpoints → c = b

end Processor

theorem ConsensusValid.consumer_eq {blocks : List BlockInfo} (h : ConsensusValid blocks)
    {b c : BlockInfo} (hb : b ∈ blocks) (hc : c ∈ blocks) {o : OutPoint}
    (hne : o ≠ OutPoint.null) (hob : o ∈ b.outpoints) (hoc : o ∈ c.outpoints) : b = c := by
  obtain ⟨pre, post, rfl⟩ := List.append_of_mem hc
  rcases List.mem_append.mp hb with hpre | hpost
  · exact absurd hoc (h.consumer_unique hpre hne hob)
  · rcases List.mem_cons.mp hpost with rfl | hpost
    · rfl
    · obtain ⟨mid, tail, rfl⟩ := List.append_of_mem hpost
      have hvalid : ConsensusValid ((pre ++ c :: mid) ++ b :: tail) := by simpa using h
      exact absurd hob (hvalid.consumer_unique (by simp) hne hoc)

/-- A run of blocks leaves the same mark in whatever order, if there is one consumer. -/
theorem spendRows_of_consumer {blocks : List BlockInfo} {c : BlockInfo} {u : UtxoRow}
    (hu : u.spentBlock = none) (hc : c ∈ blocks) (hout : u.outPoint ∈ c.outpoints)
    (hone : ∀ b ∈ blocks, u.outPoint ∈ b.outpoints → b = c) :
    spendRows blocks u = { u with spentBlock := some c.header.height } := by
  rcases spendRows_cases blocks hu with ⟨_, hfree⟩ | ⟨b, hb, hob, hmark⟩
  · exact absurd hout (hfree c hc)
  · rw [hmark, hone b hb hob]

theorem spendRows_perm {blocks blocks' : List BlockInfo} {u : UtxoRow}
    (hp : blocks.Perm blocks')
    (hone : u.spentBlock = none → ∀ b ∈ blocks, ∀ c ∈ blocks, u.outPoint ∈ b.outpoints →
      u.outPoint ∈ c.outpoints → b = c) : spendRows blocks u = spendRows blocks' u := by
  by_cases hu : u.spentBlock = none
  · rcases spendRows_cases blocks' hu with ⟨hsame, hfree⟩ | ⟨c, hc, hout, hmark⟩
    · rw [hsame]
      exact spendRows_of_notMem fun b hb => hfree b (hp.mem_iff.mp hb)
    · rw [hmark]
      exact spendRows_of_consumer hu (hp.mem_iff.mpr hc) hout fun b hb hob =>
        hone hu b hb c (hp.mem_iff.mpr hc) hob hout
  · rw [spendRows_of_spent hu, spendRows_of_spent hu]

namespace Processor

theorem createdAll_of_spentWithin {P : Processor} {fork : List BlockInfo} (hdistinct : fork.Nodup)
    (hwithin : P.SpentWithin fork) : P.createdAll fork = fork.flatMap P.created := by
  induction fork with
  | nil => rfl
  | cons block rest ih =>
      obtain ⟨hnot, hrest⟩ := List.nodup_cons.mp hdistinct
      have htail : P.SpentWithin rest := fun b hb u hu c hc =>
        hwithin b (List.mem_cons_of_mem block hb) u hu c (List.mem_cons_of_mem block hc)
      rw [createdAll, List.flatMap_cons, ih hrest htail]
      congr 1
      conv_rhs => rw [← List.map_id (P.created block)]
      apply List.map_congr_left
      intro u hu
      refine spendRows_of_notMem fun c hc hout => ?_
      have hsame := hwithin block List.mem_cons_self u hu c (List.mem_cons_of_mem block hc) hout
      exact hnot (hsame ▸ hc)

/-- The side of a block on which the only consumer of its row stands marks the row, the other
side does not. -/
theorem spendRows_ne_of_side {near far : List BlockInfo} {consumer : BlockInfo} {u : UtxoRow}
    (hnone : u.spentBlock = none) (hout : u.outPoint ∈ consumer.outpoints)
    (hone : ∀ d ∈ near ++ far, u.outPoint ∈ d.outpoints → d = consumer) (hnear : consumer ∈ near)
    (hfar : consumer ∉ far) : spendRows near u ≠ spendRows far u := by
  have hmarked := spendRows_of_consumer hnone hnear hout
    fun d hd => hone d (List.mem_append_left far hd)
  have hfree : spendRows far u = u := spendRows_of_notMem fun d hd hod => by
    cases hone d (List.mem_append_right near hd) hod
    exact hfar hd
  rw [hmarked, hfree]
  intro heq
  have hmark := congrArg UtxoRow.spentBlock heq
  rw [hnone] at hmark
  cases hmark

theorem spentWithin_of_reverse {P : Processor} {pre fork : List BlockInfo}
    (hvalid : ConsensusValid (pre ++ fork)) (hkeyed : Keyed UtxoRow.outPoint (P.createdAll fork))
    (hdistinct : fork.Nodup) (hperm : (P.createdAll fork.reverse).Perm (P.createdAll fork)) :
    P.SpentWithin fork := by
  intro b hb u hu c hc hout
  by_contra hne
  have hnull := hvalid.created_ne_null (List.mem_append_right pre hb) hu
  have hnone := (mem_created hu).2.2.1
  have hone : ∀ d ∈ fork, u.outPoint ∈ d.outpoints → d = c := fun d hd hod =>
    hvalid.consumer_eq (List.mem_append_right pre hd) (List.mem_append_right pre hc) hnull hod hout
  obtain ⟨before, after, hsplit⟩ := List.append_of_mem hb
  have hrow : spendRows after u ∈ P.createdAll fork :=
    mem_createdAll.mpr ⟨before, b, after, hsplit, u, hu, rfl⟩
  have hrow' : spendRows before.reverse u ∈ P.createdAll fork :=
    hperm.mem_iff.mp (mem_createdAll.mpr
      ⟨after.reverse, b, before.reverse, by simp [hsplit], u, hu, rfl⟩)
  have hsame := hkeyed.eq_of_key hrow hrow' (by simp)
  rw [hsplit] at hc hone hdistinct
  have hapart := List.disjoint_of_nodup_append hdistinct
  -- the consumer is on one side of the creator, and only that order marks the row
  rcases List.mem_append.mp hc with hbefore | hrest
  · refine spendRows_ne_of_side hnone hout (fun d hd => hone d ?_) (List.mem_reverse.mpr hbefore)
      (fun hafter => hapart hbefore (List.mem_cons_of_mem b hafter)) hsame.symm
    rcases List.mem_append.mp hd with hd | hd
    · exact List.mem_append_left _ (List.mem_reverse.mp hd)
    · exact List.mem_append_right _ (List.mem_cons_of_mem b hd)
  · rcases List.mem_cons.mp hrest with rfl | hafter
    · exact hne rfl
    · refine spendRows_ne_of_side hnone hout (fun d hd => hone d ?_) hafter
        (fun hbefore => hapart (List.mem_reverse.mp hbefore) (List.mem_cons_of_mem b hafter)) hsame
      rcases List.mem_append.mp hd with hd | hd
      · exact List.mem_append_right _ (List.mem_cons_of_mem b hd)
      · exact List.mem_append_left _ (List.mem_reverse.mp hd)

/-- The order of a valid fork matters to the rows it creates exactly if its blocks spend from
one another. -/
theorem createdAll_reverse_perm_iff {P : Processor} {pre fork : List BlockInfo}
    (hvalid : ConsensusValid (pre ++ fork)) (hkeyed : Keyed UtxoRow.outPoint (P.createdAll fork)) :
    (P.createdAll fork.reverse).Perm (P.createdAll fork) ↔ P.SpentWithin fork := by
  have hdistinct : fork.Nodup := by
    have hall := hvalid.hashes
    rw [List.map_append] at hall
    exact hall.of_append_right.of_map _
  constructor
  · exact spentWithin_of_reverse hvalid hkeyed hdistinct
  · intro hwithin
    have hreverse : P.SpentWithin fork.reverse := fun b hb u hu c hc =>
      hwithin b (List.mem_reverse.mp hb) u hu c (List.mem_reverse.mp hc)
    rw [createdAll_of_spentWithin hdistinct hwithin,
      createdAll_of_spentWithin (List.nodup_reverse.mpr hdistinct) hreverse]
    exact (List.reverse_perm fork).flatMap_right _

/-- Two runs over one list, or over a list and its reverse, agree on blocks and transactions,
and on rows from before. -/
theorem replay_same_iff {P : Processor} {shared fork : List BlockInfo} {s replayed direct : Store}
    (hvalid : ConsensusValid (shared ++ fork)) (hs : P.Tables shared s)
    (hreplayed : P.IndexedAll fork.reverse s replayed) (hdirect : P.IndexedAll fork s direct) :
    replayed.Same direct ↔ P.SpentWithin fork := by
  have hfresh := hs.fresh hvalid.distinct
  have hfresh' := hfresh.perm (List.reverse_perm fork).symm
  have hold : s.utxos.map (spendRows fork.reverse) = s.utxos.map (spendRows fork) := by
    apply List.map_congr_left
    intro u hu
    rw [hs.utxos] at hu
    obtain ⟨pre, b, post, hsplit, v, hv, hmark⟩ := mem_createdAll.mp hu
    have hb : b ∈ shared ++ fork := by simp [hsplit]
    have hkey : u.outPoint = v.outPoint := by rw [← hmark, spendRows_outPoint]
    refine spendRows_perm (List.reverse_perm fork) fun _ c hc d hd hoc hod => ?_
    exact hvalid.consumer_eq (List.mem_append_right shared (List.mem_reverse.mp hc))
      (List.mem_append_right shared (List.mem_reverse.mp hd))
      (hkey ▸ hvalid.created_ne_null hb hv) hoc hod
  have hkeyed : Keyed UtxoRow.outPoint (P.createdAll fork) :=
    (hdirect.utxos ▸ direct.outPointKey).right
  rw [← createdAll_reverse_perm_iff hvalid hkeyed]
  constructor
  · intro hsame
    have hutxos := hsame.utxos
    rw [hreplayed.utxos, hdirect.utxos, hold] at hutxos
    exact (List.perm_append_left_iff _).mp hutxos
  · intro hcreated
    refine ⟨?_, ?_, ?_⟩
    · rw [hreplayed.blocks hfresh'.hashes hfresh'.numbers,
        hdirect.blocks hfresh.hashes hfresh.numbers]
      exact ((List.reverse_perm fork).filterMap _).append_left _
    · rw [hreplayed.transactions hfresh'.txids, hdirect.transactions hfresh.txids]
      exact ((List.reverse_perm fork).flatMap_right _).append_left _
    · rw [hreplayed.utxos, hdirect.utxos, hold]
      exact hcreated.append_left _

theorem replay_total {P : Processor} (order : Nat → Nat → ScanOrder (Address × Int))
    {shared fork : List BlockInfo} {s direct : Store} (hvalid : ConsensusValid (shared ++ fork))
    (hs : P.Tables shared s) (hdirect : P.IndexedAll fork s direct) :
    ∃ s', apply (blocksOps P order 0 fork.reverse s) s = .ok s' := by
  refine blocksOps_total order 0
    ((hs.fresh hvalid.distinct).perm (List.reverse_perm fork).symm) ?_ ?_
  · have hkeys := direct.outPointKey
    unfold Keyed at hkeys ⊢
    rw [hdirect.utxos, List.map_append, List.map_map, map_outPoint_createdAll] at hkeys
    rw [List.map_append]
    simp only [Function.comp_def, spendRows_outPoint] at hkeys
    exact ((((List.reverse_perm fork).flatMap_right _).map _).append_left _).nodup_iff.mpr hkeys
  · exact fun b hb => hdirect.known b (List.mem_reverse.mp hb)

theorem Tables.unique {P : Processor} {chain : List BlockInfo} {s s' : Store}
    (h : P.Tables chain s) (h' : P.Tables chain s') : s = s' :=
  Store.ext (h.blocks.trans h'.blocks.symm) (h.transactions.trans h'.transactions.symm)
    (h.utxos.trans h'.utxos.symm)

theorem IndexedAll.hasBlock {P : Processor} {shared rest : List BlockInfo} {s s' : Store}
    (hvalid : ConsensusValid (shared ++ rest)) (hshared : P.IndexedAll shared Store.empty s)
    (hrest : P.IndexedAll rest s s') {hash : BlockHash} :
    s'.hasBlock hash = true ↔ hash ∈ (shared ++ rest).map (fun b => b.header.hash) := by
  have hrows := ((hshared.append hrest).tables hvalid.distinct).blocks
  have hknown := (hshared.append hrest).known
  rw [Store.hasBlock, decide_eq_true_iff, hrows]
  constructor
  · intro h
    exact (blockRows_hash_sublist P _).subset h
  · intro h
    obtain ⟨b, hb, rfl⟩ := List.mem_map.mp h
    obtain ⟨timestamp, hts⟩ := Option.isSome_iff_exists.mp (hknown b hb).1
    exact List.mem_map.mpr ⟨blockRow b.header timestamp,
      List.mem_filterMap.mpr ⟨b, hb, by rw [hts]; rfl⟩, rfl⟩

end Processor

/-- A chain is indexed up to `abandoned`; the node has gone on with `fork` instead. -/
structure Divergence (shared abandoned fork : List BlockInfo) : Prop where
  old : ConsensusValid (shared ++ abandoned)
  new : ConsensusValid (shared ++ fork)
  nonempty : shared ≠ [] ∧ abandoned ≠ [] ∧ fork ≠ []
  origin : fork.head?.map (fun b => b.header.height) =
    abandoned.head?.map (fun b => b.header.height)
  apart : ∀ b ∈ fork, ∀ c ∈ abandoned, b.header.hash ≠ c.header.hash

namespace Divergence

theorem below {shared abandoned fork : List BlockInfo} (h : Divergence shared abandoned fork)
    {origin : BlockInfo} (ho : fork.head? = some origin) :
    ∀ b ∈ shared, b.header.height < origin.header.height := by
  intro b hb
  exact (List.pairwise_append.mp h.new.ascending).2.2 b hb origin (List.mem_of_head? ho)

theorem above {shared abandoned fork : List BlockInfo} (h : Divergence shared abandoned fork)
    {origin : BlockInfo} (ho : fork.head? = some origin) :
    ∀ b ∈ abandoned, origin.header.height ≤ b.header.height := by
  have hheight := h.origin
  rw [ho] at hheight
  cases abandoned with
  | nil => simp
  | cons first rest =>
      have hfirst : origin.header.height = first.header.height := by simpa using hheight
      have hasc := (List.pairwise_append.mp h.old.ascending).2.1
      intro b hb
      rcases List.mem_cons.mp hb with rfl | hb
      · omega
      · have hlt := (List.pairwise_cons.mp hasc).1 b hb
        omega

theorem unknown {P : Processor} {shared abandoned fork : List BlockInfo} {s s' : Store}
    (h : Divergence shared abandoned fork) (hshared : P.IndexedAll shared Store.empty s)
    (habandoned : P.IndexedAll abandoned s s') {b : BlockInfo} (hb : b ∈ fork) :
    s'.hasBlock b.header.hash = false := by
  rw [Bool.eq_false_iff]
  intro hin
  have hmem := (hshared.hasBlock h.old habandoned).mp hin
  rw [List.map_append, List.mem_append] at hmem
  have hall := h.new.hashes
  rw [List.map_append] at hall
  rcases hmem with hmem | hmem
  · exact List.disjoint_of_nodup_append hall hmem (List.mem_map_of_mem hb)
  · obtain ⟨c, hc, hsame⟩ := List.mem_map.mp hmem
    exact h.apart b hb c hc hsame.symm

end Divergence

namespace Processor

section Reorg

variable {P : Processor} {node : Node} {env : DbEnv} {shared abandoned fork : List BlockInfo}
variable {head : BlockInfo} {h : Harvester} {s direct : Store}

theorem reorg_walk (fuel : Nat) (hdiverge : Divergence shared abandoned fork)
    (hhead : fork.getLast? = some head) (hshared : P.IndexedAll shared Store.empty s)
    (habandoned : P.IndexedAll abandoned s h.world.store)
    (hserves : ∀ b ∈ shared ++ fork, node.Serves b) (hquiet : env.Quiet)
    (hfuel : fork.length < fuel) :
    ∃ walked, getForkBlocks node env fuel head h = .ok fork.reverse { h with world := walked } ∧
      walked.store = h.world.store := by
  obtain ⟨ancestor, hancestor⟩ : ∃ b, shared.getLast? = some b :=
    ⟨_, List.getLast?_eq_some_getLast hdiverge.nonempty.1⟩
  obtain ⟨init, rfl⟩ := List.getLast?_eq_some_iff.mp hancestor
  have hchain : List.IsChain Follows (ancestor :: fork) := by
    have hall := hdiverge.new.linked
    rw [List.append_assoc, List.singleton_append] at hall
    exact hall.right_of_append
  have hstored : h.world.store.hasBlock ancestor.header.hash = true :=
    (hshared.hasBlock hdiverge.old habandoned).mpr (by simp)
  have hserves' : ∀ b ∈ ancestor :: fork, node.Serves b := by
    intro b hb
    apply hserves
    rw [List.append_assoc, List.singleton_append]
    exact List.mem_append_right init hb
  have hlast : (ancestor :: fork).getLast (by simp) = head := by
    obtain ⟨front, rfl⟩ := List.getLast?_eq_some_iff.mp hhead
    simp
  have hwalk := getForkBlocks_eq hquiet hchain hserves' hstored
    (fun b hb => hdiverge.unknown hshared habandoned hb) hfuel
  rwa [hlast] at hwalk

/-- A reorganisation without faults: the walk collects the fork, and the replay indexes it head
first on the tables of the shared chain. -/
theorem reorg_run (fuel : Nat) (hdiverge : Divergence shared abandoned fork)
    (hhead : fork.getLast? = some head) (hshared : P.IndexedAll shared Store.empty s)
    (habandoned : P.IndexedAll abandoned s h.world.store) (hfork : P.IndexedAll fork s direct)
    (hserves : ∀ b ∈ shared ++ fork, node.Serves b) (hquiet : env.Quiet)
    (hfuel : fork.length < fuel) :
    ∃ walked replayed,
      getForkBlocks node env fuel head h = .ok fork.reverse { h with world := walked } ∧
      P.processFork env fork.reverse walked = .ok () replayed ∧
      P.IndexedAll fork.reverse s replayed.store := by
  have hs := hshared.tables hdiverge.old.left.distinct
  obtain ⟨origin, horigin⟩ : ∃ b, fork.head? = some b :=
    ⟨_, List.head?_eq_some_head hdiverge.nonempty.2.2⟩
  obtain ⟨walked, hwalk, hstore⟩ :=
    reorg_walk fuel hdiverge hhead hshared habandoned hserves hquiet hfuel
  have hback : (walked.store.deleteBlocksSince origin.header.height).unspendUtxosSpentSinceBlock
      origin.header.height = s := by
    rw [hstore]
    exact rollback_eq hdiverge.old.distinct hshared habandoned (hdiverge.below horigin)
      (hdiverge.above horigin)
  have hfirst : fork.reverse.getLast? = some origin := by
    rw [List.getLast?_reverse]
    exact horigin
  have happly := forkOps_apply (P := P) (env.hashOrder walked.clock) hfirst hback
  obtain ⟨t, ht⟩ := replay_total (env.hashOrder walked.clock) hdiverge.new hs hfork
  obtain ⟨replayed, hreplay⟩ := transact_quiet hquiet.faults (happly.trans ht)
  refine ⟨walked, replayed, hwalk, (processFork_eq P env fork.reverse walked).trans hreplay, ?_⟩
  exact blocksOps_ok (happly.symm.trans (transact_ok hreplay).1)

end Reorg

/-- The tables after a reorganisation are those of the new chain indexed block by block,
exactly if no block of the fork spends from another. -/
theorem reorg_same_iff (P : Processor) (node : Node) (env : DbEnv) (fuel : Nat)
    (shared abandoned fork : List BlockInfo) (head : BlockInfo) (h : Harvester)
    (envOld envNew : DbEnv) (wOld wNew direct : World Store AggregatorMsg)
    (hdiverge : Divergence shared abandoned fork) (hhead : fork.getLast? = some head)
    (hOldEmpty : wOld.store = Store.empty)
    (hold : P.processAll envOld (shared ++ abandoned) wOld = .ok () h.world)
    (hNewEmpty : wNew.store = Store.empty)
    (hnew : P.processAll envNew (shared ++ fork) wNew = .ok () direct)
    (hserves : ∀ b ∈ shared ++ fork, node.Serves b) (hquiet : env.Quiet)
    (hfuel : fork.length < fuel) :
    ∃ walked replayed,
      getForkBlocks node env fuel head h = .ok fork.reverse { h with world := walked } ∧
      P.processFork env fork.reverse walked = .ok () replayed ∧
      (replayed.store.Same direct.store ↔ P.SpentWithin fork) := by
  obtain ⟨s, hshared, habandoned⟩ := (hOldEmpty ▸ processAll_ok hold :
    P.IndexedAll (shared ++ abandoned) Store.empty h.world.store).split
  obtain ⟨s', hshared', hfork⟩ := (hNewEmpty ▸ processAll_ok hnew :
    P.IndexedAll (shared ++ fork) Store.empty direct.store).split
  have hs := hshared.tables hdiverge.old.left.distinct
  cases hs.unique (hshared'.tables hdiverge.old.left.distinct)
  obtain ⟨walked, replayed, hwalk, hreplay, hindexed⟩ :=
    reorg_run fuel hdiverge hhead hshared habandoned hfork hserves hquiet hfuel
  exact ⟨walked, replayed, hwalk, hreplay, replay_same_iff hdiverge.new hs hindexed hfork⟩

end Processor

def sharedBlock : BlockInfo := blockAt 101 1 100 [coinbaseTx 1 []]

def orphanBlock : BlockInfo := blockAt 102 2 101 [coinbaseTx 2 []]

/-- The second block spends an output of the first. -/
def payingFork : List BlockInfo :=
  [blockAt 202 2 101 [coinbaseTx 3 [], spendingTx 4 9 [payTaproot 7 50]],
    blockAt 203 3 202 [coinbaseTx 5 [], spendingTx 6 4 [payTaproot 8 40]]]

def quietFork : List BlockInfo :=
  [blockAt 202 2 101 [coinbaseTx 3 [], spendingTx 4 9 [payTaproot 7 50]],
    blockAt 203 3 202 [coinbaseTx 5 [payTaproot 8 40]]]

def harvesterAt (blocks : List BlockInfo) : Harvester :=
  ⟨indexed blocks, none, none, blocks.getLast?, []⟩

namespace Processor

theorem payingFork_diverges : Divergence [sharedBlock] [orphanBlock] payingFork := by
  constructor
  · constructor <;> decide
  · constructor <;> decide
  all_goals decide

theorem quietFork_diverges : Divergence [sharedBlock] [orphanBlock] quietFork := by
  constructor
  · constructor <;> decide
  · constructor <;> decide
  all_goals decide

theorem indexed_ok (blocks : List BlockInfo)
    (h : returned (processAll mainnet DbEnv.calm blocks ⟨Store.empty, [], 0⟩) = true) :
    processAll mainnet DbEnv.calm blocks ⟨Store.empty, [], 0⟩ = .ok () (indexed blocks) :=
  eq_ok_of_returned h

theorem reorg_same_quietFork : ∃ walked replayed,
    getForkBlocks (Node.ofBlocks (sharedBlock :: quietFork)) DbEnv.calm 3
      (blockAt 203 3 202 [coinbaseTx 5 [payTaproot 8 40]])
      (harvesterAt [sharedBlock, orphanBlock]) =
        .ok quietFork.reverse { harvesterAt [sharedBlock, orphanBlock] with world := walked } ∧
    processFork mainnet DbEnv.calm quietFork.reverse walked = .ok () replayed ∧
    (replayed.store.Same (indexed (sharedBlock :: quietFork)).store ↔
      SpentWithin mainnet quietFork) :=
  reorg_same_iff mainnet (Node.ofBlocks (sharedBlock :: quietFork)) DbEnv.calm 3 [sharedBlock]
    [orphanBlock] quietFork _ (harvesterAt [sharedBlock, orphanBlock]) DbEnv.calm DbEnv.calm
    ⟨Store.empty, [], 0⟩ ⟨Store.empty, [], 0⟩ (indexed (sharedBlock :: quietFork))
    quietFork_diverges rfl rfl (indexed_ok _ (by decide +kernel)) rfl
    (indexed_ok _ (by decide +kernel)) (Node.ofBlocks_serves (by decide)) DbEnv.calm_quiet
    (by decide)

/-- The replay meets the spend in block 3 before the output of block 2 is in the table, and
leaves the output unspent. -/
theorem reorg_payingFork_differs : ∃ shared abandoned fork direct walked replayed,
    Divergence shared abandoned fork ∧
    processAll mainnet DbEnv.calm (shared ++ abandoned) ⟨Store.empty, [], 0⟩ =
      .ok () (harvesterAt (shared ++ abandoned)).world ∧
    processAll mainnet DbEnv.calm (shared ++ fork) ⟨Store.empty, [], 0⟩ = .ok () direct ∧
    (∀ b ∈ shared ++ fork, (Node.ofBlocks (shared ++ fork)).Serves b) ∧
    getForkBlocks (Node.ofBlocks (shared ++ fork)) DbEnv.calm 3
      (blockAt 203 3 202 [coinbaseTx 5 [], spendingTx 6 4 [payTaproot 8 40]])
      (harvesterAt (shared ++ abandoned)) =
        .ok fork.reverse { harvesterAt (shared ++ abandoned) with world := walked } ∧
    processFork mainnet DbEnv.calm fork.reverse walked = .ok () replayed ∧
    ¬ replayed.store.Same direct.store := by
  have hold := indexed_ok ([sharedBlock] ++ [orphanBlock]) (by decide +kernel)
  have hnew := indexed_ok ([sharedBlock] ++ payingFork) (by decide +kernel)
  have hserves : ∀ b ∈ [sharedBlock] ++ payingFork,
      (Node.ofBlocks ([sharedBlock] ++ payingFork)).Serves b := Node.ofBlocks_serves (by decide)
  obtain ⟨s, hshared, habandoned⟩ := (processAll_ok hold).split
  obtain ⟨s', hshared', hfork⟩ := (processAll_ok hnew).split
  have hs := hshared.tables payingFork_diverges.old.left.distinct
  cases hs.unique (hshared'.tables payingFork_diverges.old.left.distinct)
  obtain ⟨walked, replayed, hwalk, hreplay, hindexed⟩ :=
    reorg_run (h := harvesterAt ([sharedBlock] ++ [orphanBlock])) 3 payingFork_diverges
      rfl hshared habandoned hfork hserves DbEnv.calm_quiet (by decide)
  refine ⟨[sharedBlock], [orphanBlock], payingFork, _, walked, replayed, payingFork_diverges,
    hold, hnew, hserves, hwalk, hreplay, ?_⟩
  rw [replay_same_iff payingFork_diverges.new hs hindexed hfork]
  simp only [SpentWithin]
  decide +kernel

end Processor

end BtcIndexer
