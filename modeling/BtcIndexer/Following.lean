import BtcIndexer.Conservation
import BtcIndexer.ForkReplay
import BtcIndexer.HarvesterRules

/-! A harvester on a node that stands on one valid chain, without failures: every round comes to
its end, and it has then indexed exactly the blocks that the node had when it was asked for its
tip. The blocks may have come into the tables in another order, as they do in a fork replay. -/
namespace BtcIndexer
open Stateful Outbox Rows

/-- Blocks of a chain from a height on. -/
def stretch (chain : Nat → BlockInfo) (first count : Nat) : List BlockInfo :=
  (List.range' first count).map chain

section Stretch

variable {chain : Nat → BlockInfo} {first count : Nat}

theorem stretch_succ : stretch chain first (count + 1) =
    chain first :: stretch chain (first + 1) count := rfl

theorem stretch_append (more : Nat) : stretch chain first (count + more) =
    stretch chain first count ++ stretch chain (first + count) more := by
  rw [stretch, ← List.range'_append_1, List.map_append]
  rfl

theorem stretch_snoc : stretch chain first (count + 1) =
    stretch chain first count ++ [chain (first + count)] := stretch_append 1

theorem mem_stretch {block : BlockInfo} : block ∈ stretch chain first count ↔
    ∃ n, first ≤ n ∧ n < first + count ∧ chain n = block := by
  simp only [stretch, List.mem_map, List.mem_range'_1, and_assoc]

end Stretch

theorem Distinct.perm {xs ys : List BlockInfo} (h : Distinct xs) (hp : xs.Perm ys) :
    Distinct ys where
  hashes := (hp.map _).nodup_iff.mp h.hashes
  heights := (hp.map _).nodup_iff.mp h.heights
  txids := (hp.flatMap_right _).nodup_iff.mp h.txids

namespace Processor

variable {P : Processor}

theorem createdFrom_keyed (blockNum : Nat) (txid : Txid) (idx : Nat) (outs : List TxOut) :
    Keyed UtxoRow.outPoint (P.createdFrom blockNum txid idx outs) := by
  unfold Keyed
  induction outs generalizing idx with
  | nil => exact List.nodup_nil
  | cons out rest ih =>
      rw [createdFrom_cons, List.map_append]
      cases P.owner out with
      | none => exact ih (idx + 1)
      | some address =>
          refine List.nodup_cons.mpr ⟨fun hmem => ?_, ih (idx + 1)⟩
          obtain ⟨u, hu, hsame⟩ := List.mem_map.mp hmem
          have hle := (mem_createdFrom hu).2.2.2.1
          have hvout : u.vout = idx := congrArg OutPoint.vout hsame
          omega

theorem createdBy_keyed (blockNum : Nat) {txs : List Transaction}
    (htxids : (txs.map Transaction.txid).Nodup) :
    Keyed UtxoRow.outPoint (txs.flatMap (P.createdBy blockNum)) := by
  unfold Keyed
  induction txs with
  | nil => exact List.nodup_nil
  | cons tx rest ih =>
      obtain ⟨hfresh, hrest⟩ := List.nodup_cons.mp htxids
      rw [List.flatMap_cons, List.map_append]
      refine List.nodup_append'.mpr ⟨createdFrom_keyed _ _ _ _, ih hrest, fun o hleft hright => ?_⟩
      obtain ⟨u, hu, rfl⟩ := List.mem_map.mp hleft
      obtain ⟨v, hv, hsame⟩ := List.mem_map.mp hright
      obtain ⟨other, hother, hv⟩ := List.mem_flatMap.mp hv
      refine hfresh (List.mem_map.mpr ⟨other, hother, ?_⟩)
      rw [← (mem_createdFrom hu).1, ← (mem_createdFrom hv).1]
      exact congrArg OutPoint.txid hsame

theorem created_keyed {blocks : List BlockInfo} (htxids : (blocks.flatMap BlockInfo.txids).Nodup) :
    Keyed UtxoRow.outPoint (blocks.flatMap P.created) := by
  unfold Keyed
  induction blocks with
  | nil => exact List.nodup_nil
  | cons block rest ih =>
      rw [List.flatMap_cons] at htxids
      obtain ⟨hblock, hrest, hdisjoint⟩ := List.nodup_append'.mp htxids
      rw [List.flatMap_cons, List.map_append]
      refine List.nodup_append'.mpr
        ⟨createdBy_keyed _ hblock, ih hrest, fun o hleft hright => ?_⟩
      obtain ⟨u, hu, rfl⟩ := List.mem_map.mp hleft
      obtain ⟨v, hv, hsame⟩ := List.mem_map.mp hright
      obtain ⟨other, hother, hv⟩ := List.mem_flatMap.mp hv
      have hid : v.txid = u.txid := congrArg OutPoint.txid hsame
      refine hdisjoint (mem_created hu).1 (List.mem_flatMap.mpr ⟨other, hother, ?_⟩)
      rw [← hid]
      exact (mem_created hv).1

/-- So many blocks of a chain can be indexed from a height on. -/
structure Indexes (P : Processor) (chain : Nat → BlockInfo) (first size : Nat) : Prop where
  height : ∀ n, first ≤ n → n < first + size → (chain n).header.height = n
  valid : ConsensusValid (stretch chain first size)
  known : ∀ b ∈ stretch chain first size, (P.timestampOpt b.header.time).isSome ∧
    ∀ tx ∈ b.txdata, ∀ out ∈ tx.output, P.isP2tr out.scriptPubkey = true → (P.owner out).isSome

namespace Indexes

variable {chain : Nat → BlockInfo} {first size count : Nat}

theorem left (h : P.Indexes chain first size) (hle : count ≤ size) :
    ConsensusValid (stretch chain first count) := by
  obtain ⟨more, rfl⟩ := Nat.le.dest hle
  have hvalid := h.valid
  rw [stretch_append] at hvalid
  exact hvalid.left

theorem linked (h : P.Indexes chain first size) (hlt : count + 1 < size) :
    (chain (first + count + 1)).header.previousBlockHash =
      some (chain (first + count)).header.hash := by
  have hlinked := (h.left hlt).linked
  rw [stretch_append 2] at hlinked
  have hpair : Follows (chain (first + count)) (chain (first + count + 1)) := by
    have hright := hlinked.right_of_append
    rw [stretch_succ, stretch_succ, List.isChain_cons_cons] at hright
    exact hright.1
  exact hpair.1

end Indexes

/-- The tables are those of so many blocks of the chain, whatever the order they came in. -/
def Covers (P : Processor) (chain : Nat → BlockInfo) (first count : Nat) (s : Store) : Prop :=
  ∃ blocks, blocks.Perm (stretch chain first count) ∧ P.IndexedAll blocks Store.empty s

theorem covers_empty (P : Processor) (chain : Nat → BlockInfo) (first : Nat) :
    P.Covers chain first 0 Store.empty := ⟨[], List.Perm.nil, .nil _⟩

theorem Covers.append {chain : Nat → BlockInfo} {first count more : Nat} {s s' : Store}
    (h : P.Covers chain first count s)
    (hmore : P.IndexedAll (stretch chain (first + count) more) s s') :
    P.Covers chain first (count + more) s' := by
  obtain ⟨blocks, hperm, hindexed⟩ := h
  exact ⟨_, stretch_append more ▸ hperm.append_right _, hindexed.append hmore⟩

/-- The tables hold the rows of these blocks, of their transactions and of their outputs, each
once, and none besides. Only the marks depend on the order in which the blocks came. -/
structure Lists (P : Processor) (listed : List BlockInfo) (s : Store) : Prop where
  blocks : s.blocks.Perm (P.blockRows listed)
  transactions : s.transactions.Perm (txRows listed)
  outputs : (s.utxos.map fun u => { u with spentBlock := none }).Perm (listed.flatMap P.created)
  marks : ∀ u ∈ s.utxos, ∀ n, u.spentBlock = some n →
    ∃ b ∈ listed, b.header.height = n ∧ u.outPoint ∈ b.outpoints

theorem map_unmarked_createdAll (P : Processor) (blocks : List BlockInfo) :
    (P.createdAll blocks).map (fun u => { u with spentBlock := none }) =
      blocks.flatMap P.created := by
  induction blocks with
  | nil => rfl
  | cons block rest ih =>
      rw [createdAll, List.map_append, List.flatMap_cons, ih, List.map_map]
      congr 1
      refine (List.map_congr_left fun u hu => ?_).trans (List.map_id _)
      have hnone := (mem_created hu).2.2.1
      have hsame : { u with spentBlock := none } = u := by rw [← hnone]
      rcases spendRows_cases rest hnone with ⟨hkept, _⟩ | ⟨b, _, _, hmark⟩
      · rw [Function.comp_apply, hkept]
        exact hsame
      · rw [Function.comp_apply, hmark]
        exact hsame

theorem createdAll_marks {P : Processor} {blocks : List BlockInfo} {u : UtxoRow} {n : Nat}
    (hu : u ∈ P.createdAll blocks) (hmark : u.spentBlock = some n) :
    ∃ b ∈ blocks, b.header.height = n ∧ u.outPoint ∈ b.outpoints := by
  obtain ⟨pre, block, post, rfl, c, hc, rfl⟩ := mem_createdAll.mp hu
  have hnone := (mem_created hc).2.2.1
  rcases spendRows_cases post hnone with ⟨hkept, _⟩ | ⟨b, hb, hout, hspent⟩
  · rw [hkept, hnone] at hmark
    cases hmark
  · rw [hspent] at hmark
    refine ⟨b, by simp [hb], Option.some.inj hmark, ?_⟩
    rw [spendRows_outPoint]
    exact hout

theorem Covers.lists {chain : Nat → BlockInfo} {first count : Nat} {s : Store}
    (h : P.Covers chain first count s) (hdistinct : Distinct (stretch chain first count)) :
    P.Lists (stretch chain first count) s := by
  obtain ⟨blocks, hperm, hindexed⟩ := h
  have htables := hindexed.tables (hdistinct.perm hperm.symm)
  constructor
  · rw [htables.blocks]
    exact hperm.filterMap _
  · rw [htables.transactions]
    exact hperm.flatMap_right _
  · rw [htables.utxos, map_unmarked_createdAll]
    exact hperm.flatMap_right _
  · intro u hu n hmark
    rw [htables.utxos] at hu
    obtain ⟨b, hb, hheight, hout⟩ := createdAll_marks hu hmark
    exact ⟨b, hperm.subset hb, hheight, hout⟩

/-- On the tables of other blocks of the chain, in whatever order they came, blocks of the chain
meet nothing that stands in their way. -/
theorem Indexes.ready {chain : Nat → BlockInfo} {first size count : Nat}
    (hchain : P.Indexes chain first size) (hle : count ≤ size) {shared blocks : List BlockInfo}
    {s : Store} (hall : (shared ++ blocks).Perm (stretch chain first count))
    (hshared : P.IndexedAll shared Store.empty s) :
    Fresh blocks s ∧ Keyed UtxoRow.outPoint (s.utxos ++ blocks.flatMap P.created) ∧
      ∀ b ∈ blocks, (P.timestampOpt b.header.time).isSome ∧ ∀ tx ∈ b.txdata,
        ∀ out ∈ tx.output, P.isP2tr out.scriptPubkey = true → (P.owner out).isSome := by
  have hdistinct : Distinct (shared ++ blocks) := (hchain.left hle).distinct.perm hall.symm
  have htables := hshared.tables hdistinct.left
  refine ⟨htables.fresh hdistinct, ?_, fun b hb => hchain.known b ?_⟩
  · have hcreated := created_keyed (P := P) hdistinct.txids
    unfold Keyed at hcreated ⊢
    rw [htables.utxos, List.map_append, map_outPoint_createdAll, ← List.map_append,
      ← List.flatMap_append]
    exact hcreated
  · obtain ⟨more, rfl⟩ := Nat.le.dest hle
    rw [stretch_append]
    exact List.mem_append_left _ (hall.subset (List.mem_append_right _ hb))

theorem process_total {env : DbEnv} (hquiet : env.Quiet) {chain : Nat → BlockInfo}
    {first size count : Nat} (hchain : P.Indexes chain first size) (hlt : count < size)
    {w : World Store AggregatorMsg} (hstore : P.Covers chain first count w.store) :
    ∃ w', P.process env (chain (first + count)) w = .ok () w' := by
  obtain ⟨blocks, hperm, hindexed⟩ := hstore
  have hall : (blocks ++ [chain (first + count)]).Perm (stretch chain first (count + 1)) :=
    stretch_snoc ▸ hperm.append_right _
  obtain ⟨hfresh, hkeyed, hknown⟩ := hchain.ready hlt hall hindexed
  obtain ⟨hts, howner⟩ := hknown _ List.mem_cons_self
  rw [List.flatMap_cons, List.flatMap_nil, List.append_nil] at hkeyed
  have hhash : (chain (first + count)).header.hash ∉ w.store.blocks.map BlockRow.hash :=
    fun hmem => List.disjoint_of_nodup_append hfresh.hashes hmem (by simp)
  have hnum : (chain (first + count)).header.height ∉ w.store.blocks.map BlockRow.number :=
    fun hmem => List.disjoint_of_nodup_append hfresh.numbers hmem (by simp)
  obtain ⟨s', hs'⟩ : ∃ s', apply (P.blockOps (env.hashOrder w.clock 0) (chain (first + count))
      w.store) w.store = .ok s' := blockOps_total hts hhash hnum hkeyed howner
  rw [process_eq]
  exact transact_quiet hquiet.faults hs'

theorem Emitted.append {xs ys : List BlockInfo} {s s₁ s' : Store}
    {events more : List BtcP2trEvent} (hx : P.Emitted xs s s₁ events)
    (hy : P.Emitted ys s₁ s' more) : P.Emitted (xs ++ ys) s s' (events ++ more) := by
  induction hx with
  | nil s => exact hy
  | cons order first later ih =>
      rw [List.append_assoc]
      exact .cons order first (ih hy)

end Processor

/-- From a tick on the node answers for the blocks of one chain, from a height up to a tip that
may grow. -/
structure Node.StandsOn (node : Node) (since : Nat) (chain : Nat → BlockInfo) (first : Nat)
    (tip : Nat → Nat) : Prop where
  count : ∀ {t}, since ≤ t → node.getBlockCount t = .ok (tip t)
  hash : ∀ {t n}, since ≤ t → first ≤ n → n ≤ tip t →
    node.getBlockHash t n = .ok (chain n).header.hash
  header : ∀ {t n}, since ≤ t → first ≤ n → n ≤ tip t →
    node.getBlockHeader t (chain n).header.hash = .ok (chain n).header
  body : ∀ {t n}, since ≤ t → first ≤ n → n ≤ tip t →
    node.getBlock t (chain n).header.hash = .ok (chain n).txdata
  grows : ∀ {t t'}, t ≤ t' → tip t ≤ tip t'

/-- What a call of the harvester has done: blocks were indexed and their events sent. -/
structure Harvester.Followed (P : Processor) (blocks : List BlockInfo) (h h' : Harvester) :
    Prop where
  startHeight : h'.startHeight = h.startHeight
  endHeight : h'.endHeight = h.endHeight
  clock : h.world.clock ≤ h'.world.clock
  sent : ∃ events, P.Emitted blocks h.world.store h'.world.store events ∧
    h'.world.channel = h.world.channel ++ events.map .event

namespace Harvester.Followed

variable {P : Processor}

theorem quiet {h h' : Harvester} (haligned : h'.startHeight = h.startHeight ∧
    h'.endHeight = h.endHeight) (hclock : h.world.clock ≤ h'.world.clock)
    (hstore : h'.world.store = h.world.store) (hchannel : h'.world.channel = h.world.channel) :
    h.Followed P [] h' :=
  ⟨haligned.1, haligned.2, hclock, [], hstore ▸ .nil _, by rw [hchannel]; exact
    (List.append_nil _).symm⟩

theorem trans {xs ys : List BlockInfo} {h h₁ h' : Harvester} (hx : h.Followed P xs h₁)
    (hy : h₁.Followed P ys h') : h.Followed P (xs ++ ys) h' := by
  obtain ⟨events, hemitted, hchannel⟩ := hx.sent
  obtain ⟨more, hmore, hlater⟩ := hy.sent
  refine ⟨hy.startHeight.trans hx.startHeight, hy.endHeight.trans hx.endHeight,
    Nat.le_trans hx.clock hy.clock, events ++ more, hemitted.append hmore, ?_⟩
  rw [hlater, hchannel, List.map_append, List.append_assoc]

theorem moveTo {blocks : List BlockInfo} {h h' : Harvester} (hf : h.Followed P blocks h')
    (block : BlockInfo) : h.Followed P blocks (h'.moveTo block) :=
  ⟨hf.startHeight, hf.endHeight, hf.clock, hf.sent⟩

theorem indexedAll {blocks : List BlockInfo} {h h' : Harvester} (hf : h.Followed P blocks h') :
    P.IndexedAll blocks h.world.store h'.world.store := by
  obtain ⟨events, hemitted, _⟩ := hf.sent
  exact hemitted.indexedAll

end Harvester.Followed

section Rounds

variable {P : Processor} {node : Node} {env : DbEnv} {since : Nat} {chain : Nat → BlockInfo}
variable {tip : Nat → Nat} {first size count : Nat}

theorem Node.StandsOn.scanBlock (hnode : node.StandsOn since chain first tip) (hquiet : env.Quiet)
    {n : Nat} {w : World Store AggregatorMsg} (hsince : since ≤ w.clock)
    (hfirst : first ≤ n) (htip : n ≤ tip w.clock) :
    node.scanBlock env n w = .ok (chain n) w.tick.tick := by
  have hlater : n ≤ tip w.tick.clock := Nat.le_trans htip (hnode.grows (Nat.le_succ _))
  have hafter : since ≤ w.tick.clock := Nat.le_trans hsince (Nat.le_succ _)
  have hnamed : rpc env (fun t => node.getBlockHash t n) w = .ok (chain n).header.hash w.tick := by
    simp only [rpc, hquiet.interrupted, Bool.false_eq_true, if_false,
      hnode.hash hsince hfirst htip]
  refine (bind_of_ok hnamed).trans ?_
  simp only [Node.scanBlockByHash, rpc, hquiet.interrupted, Bool.false_eq_true, if_false,
    hnode.header hafter hfirst hlater, hnode.body hafter hfirst hlater]

theorem runJob_total (hquiet : env.Quiet) (hchain : P.Indexes chain first size)
    (hlt : count < size) {h : Harvester}
    (hstore : P.Covers chain first count h.world.store) {job : Job}
    (hjob : job = .first (chain (first + count)) ∨ job = .next (chain (first + count))) :
    ∃ w', runJob P env job h = .ok () (h.record job w' true) ∧
      h.Followed P [chain (first + count)] (h.record job w' true) := by
  obtain ⟨w', hrun⟩ := P.process_total hquiet hchain hlt hstore
  have hjobrun : job.run P env h.world = .ok () w' := by
    rcases hjob with rfl | rfl
    · exact hrun
    · exact hrun
  obtain ⟨hindexed, hchannel⟩ := P.process_emitted hrun
  refine ⟨w', ?_, rfl, rfl, (Job.run_ticks P env job).of_ok hjobrun,
    _, .cons (env.hashOrder h.world.clock 0) hindexed (.nil _), ?_⟩
  · simp only [runJob, hjobrun]
    rfl
  · rw [List.append_nil]
    exact hchannel

/-- One turn of the loop: the block above the cursor is fetched and processed. -/
theorem oneBlock (hquiet : env.Quiet) (hchain : P.Indexes chain first size)
    (htop : ∀ t, tip t < first + size) (hnode : node.StandsOn since chain first tip) {h : Harvester}
    (hcursor : h.lastProcessedBlock = some (chain (first + count)))
    (hstore : P.Covers chain first (count + 1) h.world.store) (hsince : since ≤ h.world.clock)
    (htip : first + count + 1 ≤ tip h.world.clock) :
    ∃ h', (∀ fuel desired, first + count < desired →
        catchUp P node env desired (fuel + 1) h = catchUp P node env desired fuel h') ∧
      h'.lastProcessedBlock = some (chain (first + (count + 1))) ∧
      h.Followed P [chain (first + count + 1)] h' := by
  have hlt : count + 1 < size := by
    have hbelow := htop h.world.clock
    omega
  have hscan : lift .client (node.scanBlock env (first + count + 1)) h =
      .ok (chain (first + count + 1)) { h with world := h.world.tick.tick } :=
    lift_ok (hnode.scanBlock hquiet hsince (by omega) htip)
  have hnext : Job.next (chain (first + count + 1)) = .next (chain (first + (count + 1))) := rfl
  obtain ⟨w', hrun, hfollowed⟩ := runJob_total hquiet hchain hlt
    (h := { h with world := h.world.tick.tick }) hstore (.inr hnext)
  have hfetched : h.Followed P [] { h with world := h.world.tick.tick } :=
    .quiet ⟨rfl, rfl⟩ (Nat.le_add_right _ 2) rfl rfl
  refine ⟨_, fun fuel desired hmore => ?_, rfl,
    hfetched.trans (hfollowed.moveTo (chain (first + (count + 1))))⟩
  have hheight := hchain.height (first + count) (Nat.le_add_right _ _) (by omega)
  rw [catchUp_step hcursor (by omega), hheight, bind_of_ok hscan]
  have hextend : extend P node env fuel (chain (first + count)) (chain (first + count + 1)) =
      runJob P env (.next (chain (first + count + 1))) := by
    simp only [extend, hchain.linked hlt, if_true]
  rw [hextend]
  exact bind_of_ok hrun

theorem catchUp_total (hquiet : env.Quiet) (hchain : P.Indexes chain first size)
    (htop : ∀ t, tip t < first + size) (hnode : node.StandsOn since chain first tip) (steps : Nat)
    {h : Harvester} {count : Nat}
    (hcursor : h.lastProcessedBlock = some (chain (first + count)))
    (hstore : P.Covers chain first (count + 1) h.world.store) (hsince : since ≤ h.world.clock)
    (htip : first + count + steps ≤ tip h.world.clock) :
    ∃ h', (∀ fuel > steps, catchUp P node env (first + count + steps) fuel h = .ok () h') ∧
      h'.lastProcessedBlock = some (chain (first + count + steps)) ∧
      h.Followed P (stretch chain (first + count + 1) steps) h' := by
  induction steps generalizing h count with
  | zero =>
      refine ⟨h, fun fuel hfuel => ?_, hcursor, .quiet ⟨rfl, rfl⟩ (Nat.le_refl _) rfl rfl⟩
      obtain ⟨fuel, rfl⟩ : ∃ k, fuel = k + 1 := ⟨fuel - 1, by omega⟩
      have hbelow := htop h.world.clock
      have hheight := hchain.height (first + count) (Nat.le_add_right _ _) (by omega)
      exact catchUp_done hcursor (Nat.le_of_eq hheight.symm)
  | succ steps ih =>
      obtain ⟨h₁, hstep, hnext, hfollowed⟩ :=
        oneBlock hquiet hchain htop hnode hcursor hstore hsince (Nat.le_trans (by omega) htip)
      have hcovers : P.Covers chain first (count + 1 + 1) h₁.world.store :=
        hstore.append hfollowed.indexedAll
      obtain ⟨h', hrest, hlast, hlater⟩ := ih hnext hcovers (Nat.le_trans hsince hfollowed.clock)
        (Nat.le_trans (by omega) (Nat.le_trans htip (hnode.grows hfollowed.clock)))
      have hheight : first + count + (steps + 1) = first + (count + 1) + steps := by omega
      rw [hheight]
      refine ⟨h', fun fuel hfuel => ?_, hlast, ?_⟩
      · obtain ⟨fuel, rfl⟩ : ∃ k, fuel = k + 1 := ⟨fuel - 1, by omega⟩
        rw [hstep fuel _ (by omega)]
        exact hrest fuel (by omega)
      · exact hfollowed.trans hlater

/-- The harvester follows the tip, with the blocks of the chain up to its cursor in its tables. -/
structure Caught (P : Processor) (since : Nat) (chain : Nat → BlockInfo) (tip : Nat → Nat)
    (first count : Nat) (h : Harvester) : Prop where
  cursor : h.lastProcessedBlock = some (chain (first + count))
  covers : P.Covers chain first (count + 1) h.world.store
  endHeight : h.endHeight = none
  since : since ≤ h.world.clock
  behind : first + count ≤ tip h.world.clock

theorem desiredHeight_total (hquiet : env.Quiet) (hnode : node.StandsOn since chain first tip)
    {h : Harvester} (hend : h.endHeight = none) (hsince : since ≤ h.world.clock) :
    desiredHeight node env h.endHeight h =
      .ok (tip h.world.clock) { h with world := h.world.tick } := by
  have hanswer : node.getTipNumber env h.world = .ok (tip h.world.clock) h.world.tick := by
    simp only [Node.getTipNumber, rpc, hquiet.interrupted, Bool.false_eq_true, if_false,
      hnode.count hsince]
  have hask : desiredHeight node env h.endHeight = lift .client (node.getTipNumber env) := by
    rw [hend]
    rfl
  rw [hask]
  exact lift_ok hanswer

/-- A later round brings the tables to the tip that the node names at its beginning. -/
theorem harvest_total (hquiet : env.Quiet) (hchain : P.Indexes chain first size)
    (htop : ∀ t, tip t < first + size) (hnode : node.StandsOn since chain first tip) {h : Harvester}
    (h₀ : Caught P since chain tip first count h) :
    ∃ h' steps, first + count + steps = tip h.world.clock ∧
      (∀ fuel > steps, harvest P node env fuel h = .ok () h') ∧
      Caught P since chain tip first (count + steps) h' ∧
      h.Followed P (stretch chain (first + count + 1) steps) h' := by
  obtain ⟨steps, hsteps⟩ := Nat.le.dest h₀.behind
  have hasked : h.Followed P [] { h with world := h.world.tick } :=
    .quiet ⟨rfl, rfl⟩ (Nat.le_succ _) rfl rfl
  have hlater : tip h.world.clock ≤ tip h.world.tick.clock := hnode.grows (Nat.le_succ _)
  obtain ⟨h', hrun, hcursor, hfollowed⟩ := catchUp_total hquiet hchain htop hnode steps
    (h := { h with world := h.world.tick }) h₀.cursor h₀.covers
    (Nat.le_trans h₀.since (Nat.le_succ _)) (hsteps ▸ hlater)
  have hwhole := hasked.trans hfollowed
  refine ⟨h', steps, hsteps, fun fuel hfuel => ?_, ⟨?_, ?_, ?_, ?_, ?_⟩, hwhole⟩
  · have hsome : h.lastProcessedBlock.isSome := by rw [h₀.cursor]; rfl
    rw [harvest_of_cursor hsome (desiredHeight_total hquiet hnode h₀.endHeight h₀.since), ← hsteps]
    exact hrun fuel hfuel
  · rw [hcursor, Nat.add_assoc]
  · have hcovers := h₀.covers.append hwhole.indexedAll
    rwa [Nat.add_right_comm] at hcovers
  · exact hwhole.endHeight.trans h₀.endHeight
  · exact Nat.le_trans h₀.since hwhole.clock
  · rw [← Nat.add_assoc, hsteps]
    exact hnode.grows hwhole.clock

/-- The first round of a process, on tables that end below the block it begins with. -/
theorem firstRound_total (hquiet : env.Quiet) (hchain : P.Indexes chain first size)
    (htop : ∀ t, tip t < first + size) (hnode : node.StandsOn since chain first tip)
    {h : Harvester} (hnone : h.lastProcessedBlock = none)
    (hcovers : P.Covers chain first count h.world.store) (hend : h.endHeight = none)
    (hsince : since ≤ h.world.clock) (htip : first + count ≤ tip h.world.clock)
    (hstart : startNum h.world.store.getLatestBlockNum h.startHeight (tip h.world.clock) =
      first + count) :
    ∃ h' steps, first + count + steps = tip h.world.clock ∧
      (∀ fuel > steps, harvest P node env fuel h = .ok () h') ∧
      Caught P since chain tip first (count + steps) h' ∧
      h.Followed P (stretch chain (first + count) (steps + 1)) h' := by
  obtain ⟨steps, hsteps⟩ := Nat.le.dest htip
  have hgrows : ∀ n, tip h.world.clock ≤ tip (h.world.clock + n) := fun n =>
    hnode.grows (Nat.le_add_right _ _)
  have hlt : count < size := by
    have hbelow := htop h.world.clock
    omega
  -- the tip, the latest number and the two calls of the block each take a tick
  let asked : Harvester := { h with world := h.world.tick }
  let looked : Harvester := { h with world := h.world.tick.tick }
  let fetched : Harvester :=
    { h with
      world := h.world.tick.tick.tick.tick
      lastProcessedBlock := some (chain (first + count)) }
  have hlatest : lift .ofSqlx (Processor.latestBlockNum env) asked =
      .ok h.world.store.getLatestBlockNum looked := by
    refine lift_ok ?_
    simp only [Processor.latestBlockNum, query, hquiet.faults.sql, Bool.false_eq_true, if_false]
    rfl
  have hscan : lift .client (node.scanBlock env (first + count)) looked =
      .ok (chain (first + count)) { looked with world := looked.world.tick.tick } :=
    lift_ok (hnode.scanBlock hquiet (Nat.le_trans hsince (Nat.le_add_right _ 2))
      (Nat.le_add_right _ _) (Nat.le_trans htip (hgrows 2)))
  obtain ⟨w', hrun, hprocessed⟩ := runJob_total hquiet hchain hlt (h := fetched) hcovers (.inl rfl)
  have hopened : h.Followed P [] fetched :=
    .quiet ⟨rfl, rfl⟩ (Nat.le_add_right _ 4) rfl rfl
  have hone := hopened.trans hprocessed
  have hsince' := Nat.le_trans hsince hone.clock
  have hcovers' : P.Covers chain first (count + 1) w'.store := hcovers.append hone.indexedAll
  obtain ⟨h', hcatch, hcursor, hfollowed⟩ := catchUp_total hquiet hchain htop hnode steps
    (h := fetched.record (.first (chain (first + count))) w' true) rfl hcovers' hsince'
    (hsteps ▸ hnode.grows hone.clock)
  have hwhole := hone.trans hfollowed
  refine ⟨h', steps, hsteps, fun fuel hfuel => ?_, ⟨?_, ?_, ?_, ?_, ?_⟩, hwhole⟩
  · rw [harvest_of_none hnone (desiredHeight_total hquiet hnode hend hsince)]
    have hfirst : processFirst P node env (tip h.world.clock) asked =
        runJob P env (.first (chain (first + count))) fetched := by
      rw [processFirst_apply, bind_of_ok hlatest]
      change (lift .client (node.scanBlock env (startNum _ h.startHeight _)) >>= _) looked = _
      rw [hstart, bind_of_ok hscan]
      rfl
    rw [bind_of_ok (hfirst.trans hrun), ← hsteps]
    exact hcatch fuel hfuel
  · rw [hcursor, Nat.add_assoc]
  · have hall : P.IndexedAll (stretch chain (first + count) (steps + 1)) h.world.store
        h'.world.store := hwhole.indexedAll
    exact hcovers.append hall
  · exact hwhole.endHeight.trans hend
  · exact Nat.le_trans hsince hwhole.clock
  · rw [← Nat.add_assoc, hsteps]
    exact hnode.grows hwhole.clock

theorem start_round {fuel : Nat} {fuels : List Nat} {h h' : Harvester}
    (hround : harvest P node env fuel h = .ok () h') :
    start P node env ((fuel :: fuels).map .harvest) h =
      start P node env (fuels.map .harvest) h' := by
  have hretry : harvestRetrying P node env fuel h = .ok () h' := by
    unfold harvestRetrying retrying
    rw [hround]
  exact bind_of_ok hretry

theorem laterRounds_total (hquiet : env.Quiet) (hchain : P.Indexes chain first size)
    (htop : ∀ t, tip t < first + size) (hnode : node.StandsOn since chain first tip) (rounds : Nat)
    {h : Harvester} {count : Nat} (h₀ : Caught P since chain tip first count h) :
    ∃ h' more, (∀ fuels : List Nat, fuels.length = rounds → (∀ fuel ∈ fuels, size ≤ fuel) →
        start P node env (fuels.map .harvest) h = .ok () h') ∧
      Caught P since chain tip first (count + more) h' ∧
      h.Followed P (stretch chain (first + count + 1) more) h' := by
  induction rounds generalizing h count with
  | zero =>
      refine ⟨h, 0, fun fuels hlength _ => ?_, h₀, .quiet ⟨rfl, rfl⟩ (Nat.le_refl _) rfl rfl⟩
      rw [List.eq_nil_of_length_eq_zero hlength]
      rfl
  | succ rounds ih =>
      obtain ⟨h₁, steps, hsteps, hround, hcaught, hfollowed⟩ :=
        harvest_total hquiet hchain htop hnode h₀
      obtain ⟨h', more, hrest, hlast, hlater⟩ := ih hcaught
      refine ⟨h', steps + more, fun fuels hlength hfuels => ?_, ?_, ?_⟩
      · obtain ⟨fuel, rest, rfl⟩ := List.exists_cons_of_length_eq_add_one hlength
        obtain ⟨hfuel, hmany⟩ := List.forall_mem_cons.mp hfuels
        have hbelow := htop h.world.clock
        rw [start_round (hround fuel (by omega))]
        exact hrest rest (Nat.succ.inj hlength) hmany
      · rw [← Nat.add_assoc]
        exact hlast
      · rw [stretch_append, Nat.add_right_comm (first + count) 1 steps]
        have hheight : first + (count + steps) + 1 = first + count + steps + 1 := by omega
        rw [hheight] at hlater
        exact hfollowed.trans hlater

theorem allRounds_total (hquiet : env.Quiet) (hchain : P.Indexes chain first size)
    (htop : ∀ t, tip t < first + size) (startHeight : Option Nat)
    (world : World Store AggregatorMsg) (hnode : node.StandsOn world.clock chain first tip)
    (hcovers : P.Covers chain first count world.store)
    (hstart : startNum world.store.getLatestBlockNum startHeight (tip world.clock) =
      first + count) (htip : first + count ≤ tip world.clock) (rounds : Nat) :
    ∃ h' more, (∀ fuels : List Nat, fuels.length = rounds + 1 → (∀ fuel ∈ fuels, size ≤ fuel) →
        start P node env (fuels.map .harvest) (Harvester.new world startHeight none) =
          .ok () h') ∧
      tip world.clock ≤ first + count + more ∧
      Caught P world.clock chain tip first (count + more) h' ∧
      (Harvester.new world startHeight none).Followed P
        (stretch chain (first + count) (more + 1)) h' := by
  obtain ⟨h₁, steps, hsteps, hround, hcaught, hfollowed⟩ :=
    firstRound_total (h := Harvester.new world startHeight none) hquiet hchain htop hnode rfl
      hcovers rfl (Nat.le_refl _) htip hstart
  obtain ⟨h', more, hrest, hlast, hlater⟩ :=
    laterRounds_total hquiet hchain htop hnode rounds hcaught
  have hbelow := htop world.clock
  have hreached : first + count + steps = tip world.clock := hsteps
  refine ⟨h', steps + more, fun fuels hlength hfuels => ?_, by omega, ?_, ?_⟩
  · obtain ⟨fuel, rest, rfl⟩ := List.exists_cons_of_length_eq_add_one hlength
    obtain ⟨hfuel, hmany⟩ := List.forall_mem_cons.mp hfuels
    rw [start_round (hround fuel (by omega))]
    exact hrest rest (Nat.succ.inj hlength) hmany
  · rw [← Nat.add_assoc]
    exact hlast
  · have hcount : steps + more + 1 = steps + 1 + more := by omega
    have hheight : first + (count + steps) + 1 = first + count + (steps + 1) := by omega
    rw [hcount, stretch_append]
    rw [hheight] at hlater
    exact hfollowed.trans hlater

end Rounds

/-- A process that is started on the blocks of a chain below the one it begins with goes through
every round. It is then no further behind than the tip was at its start, its tables hold the rows
of the blocks up to its cursor and none besides, and it has sent the events of the blocks that it
added in the order of the chain, each block once. -/
theorem chain_followed (P : Processor) (node : Node) (env : DbEnv) (chain : Nat → BlockInfo)
    (tip : Nat → Nat) (first size count rounds : Nat) (startHeight : Option Nat)
    (world : World Store AggregatorMsg) (hquiet : env.Quiet)
    (hchain : P.Indexes chain first size) (htop : ∀ t, tip t < first + size)
    (hnode : node.StandsOn world.clock chain first tip)
    (hcovers : P.Covers chain first count world.store)
    (hstart : startNum world.store.getLatestBlockNum startHeight (tip world.clock) =
      first + count) (htip : first + count ≤ tip world.clock) :
    ∃ h' last events, (∀ fuels : List Nat, fuels.length = rounds + 1 →
        (∀ fuel ∈ fuels, size ≤ fuel) →
          start P node env (fuels.map .harvest) (Harvester.new world startHeight none) =
            .ok () h') ∧
      tip world.clock ≤ last ∧ last ≤ tip h'.world.clock ∧
      h'.lastProcessedBlock = some (chain last) ∧
      P.Lists (stretch chain first (last + 1 - first)) h'.world.store ∧
      P.Emitted (stretch chain (first + count) (last + 1 - (first + count))) world.store
        h'.world.store events ∧
      h'.world.channel = world.channel ++ events.map .event := by
  obtain ⟨h', more, hrun, hreached, hcaught, hfollowed⟩ :=
    allRounds_total hquiet hchain htop startHeight world hnode hcovers hstart htip rounds
  obtain ⟨events, hemitted, hchannel⟩ := hfollowed.sent
  have hbelow := htop h'.world.clock
  have hbehind := hcaught.behind
  have hall : first + (count + more) + 1 - first = count + more + 1 := by omega
  have hadded : first + (count + more) + 1 - (first + count) = more + 1 := by omega
  refine ⟨h', first + (count + more), events, hrun, by omega, hbehind, hcaught.cursor, ?_, ?_,
    hchannel⟩
  · rw [hall]
    exact hcaught.covers.lists (hchain.left (by omega)).distinct
  · rw [hadded]
    exact hemitted

namespace Processor

/-- What the outputs of an address hold that no input of the blocks consumes. -/
def unspentOnChain (P : Processor) (blocks : List BlockInfo) (a : Address) : Int :=
  total (UtxoRow.amountFor a) ((blocks.flatMap P.created).filter
    (fun u => blocks.all (fun b => decide (u.outPoint ∉ b.outpoints))))

theorem unspent_iff {P : Processor} {pre post : List BlockInfo} {block : BlockInfo}
    (hvalid : ConsensusValid (pre ++ block :: post)) (hlater : P.SpentLater (pre ++ block :: post))
    {u : UtxoRow} (hu : u ∈ P.created block) : (spendRows post u).spentBlock = none ↔
      (pre ++ block :: post).all (fun b => decide (u.outPoint ∉ b.outpoints)) = true := by
  rw [List.all_eq_true]
  simp only [decide_eq_true_eq]
  constructor
  · intro hnone c hc hout
    have hlt := hlater block (by simp) u hu c hc hout
    have hmark := spendRows_consumer hvalid hu (mem_post_of_lt hvalid hc hlt) hout
    rw [hmark] at hnone
    cases hnone
  · intro hall
    rw [spendRows_of_notMem fun b hb => hall b (by simp [hb])]
    exact (mem_created hu).2.2.1

theorem unspentOf_createdAll {P : Processor} {blocks : List BlockInfo}
    (hvalid : ConsensusValid blocks) (hlater : P.SpentLater blocks) (a : Address) :
    unspentOf (P.createdAll blocks) a = P.unspentOnChain blocks a := by
  have hsuffix : ∀ post pre, blocks = pre ++ post → unspentOf (P.createdAll post) a =
      total (UtxoRow.amountFor a) ((post.flatMap P.created).filter
        (fun u => blocks.all (fun b => decide (u.outPoint ∉ b.outpoints)))) := by
    intro post
    induction post with
    | nil => exact fun _ _ => rfl
    | cons block rest ih =>
        intro pre hblocks
        have hrest := ih (pre ++ [block]) (by rw [hblocks]; simp)
        rw [createdAll, unspentOf_append, hrest, List.flatMap_cons, List.filter_append,
          total_append]
        congr 1
        rw [unspentOf_eq, total_map, total_filter]
        refine total_congr fun u hu => ?_
        have hiff := unspent_iff (hblocks ▸ hvalid) (hblocks ▸ hlater) hu
        rw [← hblocks] at hiff
        by_cases hnone : (spendRows rest u).spentBlock = none
        · rw [if_pos hnone, if_pos (hiff.mp hnone)]
          rcases spendRows_cases rest (mem_created hu).2.2.1 with ⟨hsame, _⟩ | ⟨b, _, _, hmark⟩
          · rw [hsame]
          · rw [hmark] at hnone
            cases hnone
        · rw [if_neg hnone, if_neg fun hall => hnone (hiff.mpr hall)]
  exact hsuffix blocks [] rfl

end Processor

theorem Aggregator.start_total {ledgerEnv : LedgerEnv} (hquiet : ∀ t, ledgerEnv.sqlFails t = false)
    (events : List BtcP2trEvent) (agg : Aggregator) :
    ∃ agg', Aggregator.start ledgerEnv (events.map .event) agg = .ok () agg' := by
  induction events generalizing agg with
  | nil => exact ⟨agg, rfl⟩
  | cons event rest ih =>
      obtain ⟨agg₁, hfirst⟩ := Aggregator.handleEvent_quiet hquiet event agg
      obtain ⟨agg', hrest⟩ := ih agg₁
      exact ⟨agg', (bind_of_ok hfirst).trans hrest⟩

theorem Processor.SpentLater.stretch {P : Processor} {chain : Nat → BlockInfo}
    {first size count : Nat} (h : P.SpentLater (stretch chain first size)) (hle : count ≤ size) :
    P.SpentLater (BtcIndexer.stretch chain first count) := by
  obtain ⟨rest, rfl⟩ := Nat.le.dest hle
  rw [stretch_append] at h
  exact fun b hb u hu c hc =>
    h b (List.mem_append_left _ hb) u hu c (List.mem_append_left _ hc)

theorem Harvester.Followed.booked {P : Processor} {blocks : List BlockInfo}
    {startHeight : Option Nat} {h' : Harvester} {ledgerEnv : LedgerEnv}
    (hledger : ∀ t, ledgerEnv.sqlFails t = false)
    (hfollowed : (Harvester.new ⟨Store.empty, [], 0⟩ startHeight none).Followed P blocks h') :
    ∃ agg', Aggregator.start ledgerEnv h'.world.channel (Aggregator.new ⟨Ledger.empty, [], 0⟩) =
        .ok () agg' ∧
      ∀ a, agg'.ledger.balance a + Ledger.amountOf agg'.ledger.pending a =
        unspentOf (P.createdAll blocks) a := by
  obtain ⟨events, hemitted, hchannel⟩ := hfollowed.sent
  have hchannel : h'.world.channel = events.map .event := hchannel
  obtain ⟨agg', hhandled⟩ := Aggregator.start_total hledger events
    (Aggregator.new ⟨Ledger.empty, [], 0⟩)
  refine ⟨agg', hchannel ▸ hhandled, fun a => ?_⟩
  have hholds := Aggregator.start_holds hhandled a
  have hunspent := hemitted.unspentOf a
  have hnew : (Aggregator.new ⟨Ledger.empty, [], 0⟩).holds a = 0 := rfl
  have hempty : unspentOf (Harvester.new ⟨Store.empty, [], 0⟩ startHeight none).world.store.utxos
      a = 0 := rfl
  have hutxos : h'.world.store.utxos = P.createdAll blocks := hemitted.indexedAll.fromEmpty
  rw [← hutxos, hunspent, hempty]
  unfold Aggregator.holds at hholds hnew
  omega

/-- From the node to the balances: a service that starts on empty tables and meets no failure and
no fork goes through every round, its aggregator handles every message, and the balance and the
withheld amount of each address are then what its unspent outputs hold on the chain of the node,
from the first block up to the cursor, where each output is spent above its own block. -/
theorem balances_of_chain (P : Processor) (node : Node) (env : DbEnv) (ledgerEnv : LedgerEnv)
    (chain : Nat → BlockInfo) (tip : Nat → Nat) (first size rounds : Nat)
    (startHeight : Option Nat) (hquiet : env.Quiet) (hledger : ∀ t, ledgerEnv.sqlFails t = false)
    (hchain : P.Indexes chain first size) (hlater : P.SpentLater (stretch chain first size))
    (htop : ∀ t, tip t < first + size) (hnode : node.StandsOn 0 chain first tip)
    (hstart : startHeight.getD (tip 0) = first) (htip : first ≤ tip 0) :
    ∃ h' last agg', (∀ fuels : List Nat, fuels.length = rounds + 1 →
        (∀ fuel ∈ fuels, size ≤ fuel) → start P node env (fuels.map .harvest)
          (Harvester.new ⟨Store.empty, [], 0⟩ startHeight none) = .ok () h') ∧
      tip 0 ≤ last ∧ last ≤ tip h'.world.clock ∧ h'.lastProcessedBlock = some (chain last) ∧
      Aggregator.start ledgerEnv h'.world.channel (Aggregator.new ⟨Ledger.empty, [], 0⟩) =
        .ok () agg' ∧
      ∀ a, agg'.ledger.balance a + Ledger.amountOf agg'.ledger.pending a =
        P.unspentOnChain (stretch chain first (last + 1 - first)) a := by
  obtain ⟨h', more, hrun, hreached, hcaught, hfollowed⟩ := allRounds_total hquiet hchain htop
    startHeight ⟨Store.empty, [], 0⟩ hnode (P.covers_empty chain first) hstart htip rounds
  have hbelow := htop h'.world.clock
  have hbehind := hcaught.behind
  have hcount : first + more + 1 - first = more + 1 := by omega
  have hlt : more + 1 ≤ size := by omega
  obtain ⟨agg', hhandled, hbooked⟩ := hfollowed.booked hledger
  refine ⟨h', first + more, agg', hrun, hreached, by omega, ?_, hhandled, fun a => ?_⟩
  · rw [hcaught.cursor, Nat.zero_add]
  · rw [hcount, hbooked a]
    exact Processor.unspentOf_createdAll (hchain.left hlt) (hlater.stretch hlt) a

/-- The second block spends an output of the first. -/
def spacedChain (n : Nat) : BlockInfo :=
  if n = 1 then blockAt 101 1 100 [coinbaseTx 1 [], spendingTx 2 9 [payTaproot 7 50]]
  else blockAt 102 2 101 [coinbaseTx 4 [], spendingTx 3 2 [payTaproot 8 40]]

theorem spacedChain_indexes : Processor.mainnet.Indexes spacedChain 1 2 where
  height := by
    intro n hlow hhigh
    obtain rfl | rfl : n = 1 ∨ n = 2 := by omega
    · rfl
    · rfl
  valid := Processor.spaced_valid
  known := by decide +kernel

theorem spacedChain_standing (since : Nat) :
    (Node.ofBlocks spaced).StandsOn since spacedChain 1 (fun _ => 2) where
  count := fun _ => rfl
  hash := by
    intro t n _ hlow hhigh
    obtain rfl | rfl : n = 1 ∨ n = 2 := by omega
    · rfl
    · rfl
  header := by
    intro t n _ hlow hhigh
    obtain rfl | rfl : n = 1 ∨ n = 2 := by omega
    · rfl
    · rfl
  body := by
    intro t n _ hlow hhigh
    obtain rfl | rfl : n = 1 ∨ n = 2 := by omega
    · rfl
    · rfl
  grows := fun _ => Nat.le_refl _

theorem spacedChain_spentLater : Processor.mainnet.SpentLater (stretch spacedChain 1 2) := by
  unfold Processor.SpentLater
  decide +kernel

/-- A new process on the tables of the first block. -/
theorem spacedChain_resumed : ∃ h' last events, (∀ fuels : List Nat, fuels.length = 2 + 1 →
      (∀ fuel ∈ fuels, 2 ≤ fuel) → start Processor.mainnet (Node.ofBlocks spaced) DbEnv.calm
        (fuels.map .harvest) (Harvester.new (indexed (spaced.take 1)) (some 1) none) =
          .ok () h') ∧
    2 ≤ last ∧ last ≤ 2 ∧ h'.lastProcessedBlock = some (spacedChain last) ∧
    Processor.mainnet.Lists (stretch spacedChain 1 (last + 1 - 1)) h'.world.store ∧
    Processor.mainnet.Emitted (stretch spacedChain (1 + 1) (last + 1 - (1 + 1)))
      (indexed (spaced.take 1)).store h'.world.store events ∧
    h'.world.channel = (indexed (spaced.take 1)).channel ++ events.map .event := by
  have hindexed := Processor.indexed_ok (spaced.take 1) (by decide +kernel)
  exact chain_followed Processor.mainnet (Node.ofBlocks spaced) DbEnv.calm spacedChain
    (fun _ => 2) 1 2 1 2 (some 1) (indexed (spaced.take 1)) DbEnv.calm_quiet spacedChain_indexes
    (fun _ => by decide) (spacedChain_standing _)
    ⟨spaced.take 1, List.Perm.refl _, Processor.processAll_ok hindexed⟩ (by decide +kernel)
    (by decide)

theorem spacedChain_balances : ∃ h' last agg', (∀ fuels : List Nat, fuels.length = 0 + 1 →
      (∀ fuel ∈ fuels, 2 ≤ fuel) → start Processor.mainnet (Node.ofBlocks spaced) DbEnv.calm
        (fuels.map .harvest) (Harvester.new ⟨Store.empty, [], 0⟩ (some 1) none) = .ok () h') ∧
    2 ≤ last ∧ last ≤ 2 ∧ h'.lastProcessedBlock = some (spacedChain last) ∧
    Aggregator.start LedgerEnv.calm h'.world.channel (Aggregator.new ⟨Ledger.empty, [], 0⟩) =
      .ok () agg' ∧
    ∀ a, agg'.ledger.balance a + Ledger.amountOf agg'.ledger.pending a =
      Processor.mainnet.unspentOnChain (stretch spacedChain 1 (last + 1 - 1)) a :=
  balances_of_chain Processor.mainnet (Node.ofBlocks spaced) DbEnv.calm LedgerEnv.calm
    spacedChain (fun _ => 2) 1 2 0 (some 1) DbEnv.calm_quiet (fun _ => rfl) spacedChain_indexes
    spacedChain_spentLater (fun _ => by decide) (spacedChain_standing 0) rfl (by decide)

end BtcIndexer
