import BtcIndexer.ScanRange
import BtcIndexer.LiveRules

/-! The two `expect`s of a reorganisation. They hold unless the head of a fork is stored already,
above a cursor that it does not name as its parent: after a scan by command that sets the cursor
below rows of another branch, or after a replay whose commit takes effect although it was
dropped. -/
namespace BtcIndexer
open Stateful Outbox Rows

/-- The row above the block, if there is one, names the block as its parent. -/
def Store.Under (s : Store) (block : BlockInfo) : Prop :=
  ∀ row ∈ s.blocks, row.number = block.header.height + 1 →
    row.previousHash = some block.header.hash

instance (s : Store) (block : BlockInfo) : Decidable (s.Under block) :=
  inferInstanceAs (Decidable (∀ row ∈ s.blocks, _))

/-- The block the cursor is set to lies under the rows. -/
def Entry.Clear : Entry → Prop
  | .call (.next block) before _ true => before.store.Under block
  | .scanFrom block world => world.store.Under block
  | .call (.next _) _ _ false | .call (.first _) _ _ _ | .call (.fork _) _ _ _ => True

instance (entry : Entry) : Decidable entry.Clear :=
  match entry with
  | .call (.next block) before _ true => inferInstanceAs (Decidable (before.store.Under block))
  | .scanFrom block world => inferInstanceAs (Decidable (world.store.Under block))
  | .call (.next _) _ _ false | .call (.first _) _ _ _ | .call (.fork _) _ _ _ => .isTrue trivial

/-- No replay of a fork. -/
def Job.Straight : Job → Prop
  | .first _ | .next _ => True
  | .fork _ => False

/-- One of the two `expect`s has panicked. -/
def HarvesterError.EmptyFork : HarvesterError → Prop
  | .panic text => text = "blocks should exist. qed" ∨ text = "checked not empty"
  | .sqlx _ | .missingBlock _ | .invalidDesiredHeight | .client _ | .other _ | .interrupted => False

namespace Processor

theorem refused_error {α : Type} {x : Except SqlxError α} {e : ProcessorError}
    (h : refused x = .error e) : ∃ refusal, e = .sqlx refusal := by
  cases x with
  | ok a => cases h
  | error refusal => cases h; exact ⟨refusal, rfl⟩

theorem upsertOps_raises {blockHash : BlockHash} {idx : Nat} {txs : List Transaction}
    {op : ProcessorOp} (hop : op ∈ upsertOps blockHash idx txs) {text : String} :
    ¬ op.Raises (.panic text) := by
  induction txs generalizing idx with
  | nil => cases hop
  | cons tx rest ih =>
      rcases List.mem_cons.mp hop with rfl | hop
      · rintro ⟨db, hdb⟩
        obtain ⟨_, hsqlx⟩ := refused_error hdb
        cases hsqlx
      · exact ih hop

theorem spendOps_raises {blockNum : Nat} {ins : List TxIn} {relevant : RelevantUtxos}
    {op : ProcessorOp} (hop : op ∈ spendOps blockNum ins relevant) {text : String} :
    ¬ op.Raises (.panic text) := by
  induction ins generalizing relevant with
  | nil => cases hop
  | cons txin rest ih =>
      unfold spendOps at hop
      split at hop
      · exact ih hop
      · rcases List.mem_cons.mp hop with rfl | hop
        · rintro ⟨db, hdb⟩
          obtain ⟨_, hsqlx⟩ := refused_error hdb
          cases hsqlx
        · exact ih hop

theorem createOps_raises {P : Processor} {blockNum : Nat} {txid : Txid} {idx : Nat}
    {outs : List TxOut} {op : ProcessorOp} (hop : op ∈ createOps P blockNum txid idx outs)
    {text : String} : ¬ op.Raises (.panic text) := by
  induction outs generalizing idx with
  | nil => cases hop
  | cons txout rest ih =>
      unfold createOps at hop
      split at hop
      · split at hop
        · rw [List.mem_singleton.mp hop]
          intro hraise
          cases hraise
        · rcases List.mem_cons.mp hop with rfl | hop
          · rintro ⟨db, hdb⟩
            obtain ⟨_, hsqlx⟩ := refused_error hdb
            cases hsqlx
          · exact ih hop
      · exact ih hop

theorem sendOps_raises {blockNum : Nat} {tx : Transaction} {pairs : List (Address × Int)}
    {op : ProcessorOp} (hop : op ∈ sendOps blockNum tx pairs) {text : String} :
    ¬ op.Raises (.panic text) := by
  induction pairs with
  | nil => cases hop
  | cons pair rest ih =>
      unfold sendOps at hop
      split at hop
      · exact ih hop
      · rcases List.mem_cons.mp hop with rfl | hop
        · exact id
        · exact ih hop

theorem txsOps_raises {P : Processor} {order : Nat → ScanOrder (Address × Int)}
    {blockNum i : Nat} {txs : List Transaction} {relevant : RelevantUtxos} {op : ProcessorOp}
    (hop : op ∈ txsOps P order blockNum i txs relevant) {text : String} :
    ¬ op.Raises (.panic text) := by
  induction txs generalizing i relevant with
  | nil => cases hop
  | cons tx rest ih =>
      simp only [txsOps, List.mem_append] at hop
      rcases hop with hop | hop | hop | hop
      · exact spendOps_raises hop
      · exact createOps_raises hop
      · exact sendOps_raises hop
      · exact ih hop

theorem blockOps_raises {P : Processor} {order : Nat → ScanOrder (Address × Int)}
    {block : BlockInfo} {s : Store} {op : ProcessorOp} (hop : op ∈ blockOps P order block s)
    {text : String} : ¬ op.Raises (.panic text) := by
  unfold blockOps at hop
  split at hop
  · rw [List.mem_singleton.mp hop]
    intro hraise
    cases hraise
  · simp only [List.mem_cons, List.mem_append] at hop
    rcases hop with rfl | hop | rfl | hop
    · rintro ⟨db, hdb⟩
      cases hdb
    · exact upsertOps_raises hop
    · rintro ⟨db, hdb⟩
      cases hdb
    · exact txsOps_raises hop

theorem blocksOps_raises {P : Processor} {order : Nat → Nat → ScanOrder (Address × Int)}
    {i : Nat} {blocks : List BlockInfo} {s : Store} {op : ProcessorOp}
    (hop : op ∈ blocksOps P order i blocks s) {text : String} : ¬ op.Raises (.panic text) := by
  induction blocks generalizing i s with
  | nil => cases hop
  | cons block rest ih =>
      unfold blocksOps at hop
      rcases List.mem_append.mp hop with hop | hop
      · exact blockOps_raises hop
      · split at hop
        · exact ih hop
        · cases hop

theorem forkOps_raises {P : Processor} {order : Nat → Nat → ScanOrder (Address × Int)}
    {blocks : List BlockInfo} (hne : blocks ≠ []) {s : Store} {op : ProcessorOp}
    (hop : op ∈ forkOps P order blocks s) {text : String} : ¬ op.Raises (.panic text) := by
  unfold forkOps at hop
  rw [List.getLast?_eq_some_getLast hne] at hop
  simp only [List.mem_cons] at hop
  rcases hop with rfl | rfl | rfl | hop
  · rintro ⟨db, hdb⟩
    cases hdb
  · rintro ⟨db, hdb⟩
    cases hdb
  · exact id
  · exact blocksOps_raises hop

end Processor

/-- Unless it is asked to replay nothing, the processor only panics when the receiver is gone. -/
theorem Job.run_panics {P : Processor} {env : DbEnv} {job : Job} (hne : job ≠ .fork [])
    {w w' : World Store AggregatorMsg} {text : String}
    (h : job.run P env w = .error (.panic text) w') : text = "send on a closed channel" := by
  rw [Job.run_eq] at h
  rcases transact_raises h with ⟨t, hfault⟩ | hgone | ⟨op, hop, hraises⟩
  · simp only [DbEnv.faults] at hfault
    split at hfault <;> cases hfault
  · cases hgone
    rfl
  · refine absurd hraises ?_
    cases job with
    | first block => exact Processor.blockOps_raises hop
    | next block => exact Processor.blockOps_raises hop
    | fork blocks => exact Processor.forkOps_raises (fun hnil => hne (hnil ▸ rfl)) hop

/-- The head of a fork is where a walk over parents ends, right above a cursor that it does not
name. -/
def Harvester.HeadArrived (node : Node) (h : Harvester) : Prop :=
  ∃ prevBlock head, h.lastProcessedBlock = some prevBlock ∧ node.Seen head ∧
    head.header.height = prevBlock.header.height + 1 ∧
    head.header.previousBlockHash ≠ some prevBlock.header.hash ∧ h.world.store.Arrived head

/-- The errors that the walk of a fork is not to blame for, unless its head has arrived. -/
def Blamed (node : Node) (e : HarvesterError) (h : Harvester) : Prop :=
  e.EmptyFork → h.HeadArrived node

theorem HarvesterError.wrap_emptyFork {variant : ProcessorError → HarvesterError}
    (hvariant : ∀ e, ¬ (variant e).EmptyFork) {e : ProcessorError}
    (h : (HarvesterError.wrap variant e).EmptyFork) :
    ∃ text, e = .panic text ∧ (HarvesterError.panic text).EmptyFork := by
  cases e with
  | panic text => exact ⟨text, rfl, h⟩
  | interrupted => cases h
  | sqlx e => exact absurd h (hvariant _)
  | rpc e => exact absurd h (hvariant _)
  | addressFromScript => exact absurd h (hvariant _)
  | anyhow text => exact absurd h (hvariant _)

theorem lift_blames {node : Node} {α : Type} {x : ProcessorM α}
    {variant : ProcessorError → HarvesterError} (hvariant : ∀ e, ¬ (variant e).EmptyFork)
    (hx : ∀ w text w', x w ≠ .error (.panic text) w') {pre : Harvester → Prop} :
    Blames pre (lift variant x) (Blamed node) := by
  intro h _ e k herror hempty
  obtain ⟨cause, w, hrun, rfl⟩ := lift_error herror
  obtain ⟨text, rfl, _⟩ := HarvesterError.wrap_emptyFork hvariant hempty
  exact absurd hrun (hx _ _ _)

theorem client_not_empty (e : ProcessorError) : ¬ (HarvesterError.client e).EmptyFork := id

theorem other_not_empty (e : ProcessorError) : ¬ (HarvesterError.other e).EmptyFork := id

theorem ofSqlx_not_empty (e : ProcessorError) : ¬ (HarvesterError.ofSqlx e).EmptyFork := by
  cases e <;> exact id

theorem rpc_not_panic {α : Type} {env : DbEnv} {call : Nat → Except RpcError α}
    (w : World Store AggregatorMsg) (text : String) (w' : World Store AggregatorMsg) :
    rpc env call w ≠ .error (.panic text) w' := by
  intro herror
  simp only [rpc] at herror
  split at herror
  · cases herror
  · cases hcall : call w.clock <;> rw [hcall] at herror <;> cases herror

theorem scanBlock_not_panic {node : Node} {env : DbEnv} {number : Nat}
    (w : World Store AggregatorMsg) (text : String) (w' : World Store AggregatorMsg) :
    node.scanBlock env number w ≠ .error (.panic text) w' := by
  intro herror
  rcases bind_eq_error.mp herror with hfirst | ⟨hash, w₁, _, hrest⟩
  · exact rpc_not_panic w text w' hfirst
  · exact rpc_not_panic w₁ text w' hrest

theorem query_not_panic {α : Type} {env : DbEnv} {q : Store → α}
    (w : World Store AggregatorMsg) (text : String) (w' : World Store AggregatorMsg) :
    query env.faults (fun s => .ok (q s)) w.store w ≠ .error (.panic text) w' := by
  intro herror
  simp only [query] at herror
  by_cases hfault : env.faults.sql w.clock = true
  · rw [if_pos hfault] at herror
    injection herror with hpanic
    simp only [DbEnv.faults] at hpanic
    split at hpanic <;> cases hpanic
  · rw [if_neg hfault] at herror
    cases herror

section Blames

variable {P : Processor} {node : Node} {env : DbEnv} {since : Nat} {K : Harvester → Prop}

theorem getForkBlocks_blames (fuel : Nat) (block : BlockInfo) :
    Blames (fun _ => True) (getForkBlocks node env fuel block) (Blamed node) := by
  induction fuel generalizing block with
  | zero => exact Blames.throw fun _ _ hempty => hempty.elim
  | succ fuel ih =>
      have hfound : Blames (fun _ => True) (isAncestor env block) (Blamed node) := by
        unfold isAncestor
        split
        · exact Blames.pure true
        · exact lift_blames other_not_empty query_not_panic
      refine Blames.bind_of_any hfound fun found => ?_
      cases found with
      | true => exact Blames.pure []
      | false =>
          cases block.header.previousBlockHash with
          | none => exact Blames.pure [block]
          | some parentHash =>
              have hparent : Blames (fun _ => True)
                  (lift .client (node.scanBlockByHash env parentHash)) (Blamed node) :=
                lift_blames client_not_empty rpc_not_panic
              exact Blames.bind_of_any hparent fun parent =>
                Blames.bind_of_any (ih parent) fun rest => Blames.pure (block :: rest)

theorem runJob_blames {job : Job} (hne : job ≠ .fork []) {pre : Harvester → Prop} :
    Blames pre (runJob P env job) (Blamed node) := by
  intro h _ e k herror hempty
  obtain ⟨cause, w, hrun, rfl, _⟩ := runJob_error herror
  have hvariant : ∀ e, ¬ (job.variant e).EmptyFork := by
    cases job with
    | first block => exact client_not_empty
    | next block => exact client_not_empty
    | fork blocks => exact other_not_empty
  obtain ⟨text, rfl, htext⟩ := HarvesterError.wrap_emptyFork hvariant hempty
  rw [Job.run_panics hne hrun] at htext
  simp [HarvesterError.EmptyFork] at htext

/-- The walk returns nothing only if it has arrived at the head of the fork itself. -/
theorem handleReorg_blames (hK : Guarded P node env since K) (hnode : node.Consistent)
    (fuel : Nat) {prevBlock block : BlockInfo}
    (hfork : block.header.previousBlockHash ≠ some prevBlock.header.hash) :
    Blames (fun h => (K h ∧ h.lastProcessedBlock = some prevBlock) ∧
        node.Shows since h.world.clock (prevBlock.header.height + 1) block)
      (handleReorg P node env fuel block) (Blamed node) := by
  intro h hpre
  have hwalk := hK.walk_triple hnode fuel prevBlock block h.world.store
  have hrest : Blames (Harvester.Meets node since K prevBlock block h.world.store)
      (handleReorg P node env fuel block) (Blamed node) := by
    refine Blames.bind ((getForkBlocks_blames fuel block).weaken fun _ _ => trivial) hwalk
      fun blocks => ?_
    split
    · next hnil =>
        subst hnil
        refine Blames.throw fun k hmid _ => ?_
        obtain ⟨⟨⟨⟨_, hcursor⟩, hshows⟩, hstore⟩, hwalked⟩ := hmid
        cases hwalked with
        | arrived harrived =>
            rw [← hstore] at harrived
            exact ⟨prevBlock, block, hcursor, hshows.seen, hshows.height, hfork, harrived⟩
    · next hne => exact runJob_blames fun hsame => hne (Job.fork.inj hsame)
  exact hrest h ⟨hpre, rfl⟩

theorem extend_blames (hK : Guarded P node env since K) (hnode : node.Consistent)
    (fuel : Nat) (prevBlock block : BlockInfo) :
    Blames (fun h => (K h ∧ h.lastProcessedBlock = some prevBlock) ∧
        node.Shows since h.world.clock (prevBlock.header.height + 1) block)
      (extend P node env fuel prevBlock block) (Blamed node) := by
  unfold extend
  cases hprev : block.header.previousBlockHash with
  | none => exact Blames.pure ()
  | some prev =>
      simp only
      split
      · exact runJob_blames (show Job.next block ≠ .fork [] by simp)
      · next hother =>
          refine handleReorg_blames hK hnode fuel fun hsame => hother ?_
          rw [hprev] at hsame
          exact (Option.some.inj hsame).symm

theorem catchUp_blames (hK : Guarded P node env since K) (hnode : node.Consistent)
    (desired fuel : Nat) : Blames K (catchUp P node env desired fuel) (Blamed node) := by
  induction fuel with
  | zero => exact Blames.throw fun _ _ hempty => hempty.elim
  | succ fuel ih =>
      have hget : Triple K (get : HarvesterM Harvester) (fun h k => h = k ∧ K k) K :=
        Triple.get fun _ hpre => ⟨rfl, hpre⟩
      refine Blames.bind Blames.get hget fun h => ?_
      cases hcursor : h.lastProcessedBlock with
      | none => exact Blames.pure ()
      | some prevBlock =>
          simp only
          split
          · exact Blames.pure ()
          · have hscan := scanBlock_triple hnode (hK.steady.and (cursor_steady (some prevBlock)))
              (fun k hk => hK.since_le k hk.1) env (prevBlock.header.height + 1)
            refine Blames.bind (lift_blames client_not_empty scanBlock_not_panic)
              (hscan.weaken ?_ (fun _ _ hpost => hpost) fun _ hfail => hfail) fun block => ?_
            · rintro k ⟨rfl, hk⟩
              exact ⟨hk, hcursor⟩
            · exact Blames.bind (extend_blames hK hnode fuel prevBlock block)
                (hK.extend hnode fuel prevBlock block) fun _ =>
                  Blames.bind (Blames.modify _) (Triple.modify fun _ hk => hk : Triple
                    (fun k => K (k.moveTo block)) _ (fun _ => K) K) fun _ => ih

theorem processFirst_blames (desired : Nat) :
    Blames (fun _ => True) (processFirst P node env desired) (Blamed node) :=
  Blames.bind_of_any Blames.get fun _ =>
    Blames.bind_of_any (lift_blames ofSqlx_not_empty query_not_panic) fun _ =>
      Blames.bind_of_any (lift_blames client_not_empty scanBlock_not_panic) fun block =>
        Blames.bind_of_any (Blames.modify _) fun _ =>
          runJob_blames (show Job.first block ≠ .fork [] by simp)

theorem harvest_blames (hK : Guarded P node env since K) (hnode : node.Consistent) (fuel : Nat) :
    Blames K (harvest P node env fuel) (Blamed node) := by
  have hget : Triple K (get : HarvesterM Harvester) (fun h k => K k ∧ h.Aligned k) K :=
    Triple.get fun _ hpre => ⟨hpre, rfl, rfl, rfl⟩
  refine Blames.bind Blames.get hget fun h => ?_
  have hdesired : ∀ {pre : Harvester → Prop},
      Blames pre (desiredHeight node env h.endHeight) (Blamed node) := by
    intro pre
    unfold desiredHeight
    cases h.endHeight with
    | none => exact lift_blames client_not_empty rpc_not_panic
    | some height => exact Blames.pure height
  refine Blames.bind hdesired (hK.desiredHeight (aligned_steady h) h.endHeight) fun desired => ?_
  split
  · next hnone =>
      refine Blames.bind ((processFirst_blames desired).weaken fun _ _ => trivial)
        ((hK.processFirst hnode desired).weaken ?_ (fun _ _ hpost => hpost) fun _ hfail => hfail)
        fun _ => catchUp_blames hK hnode desired fuel
      rintro k ⟨⟨hk, _, hend, hcursor⟩, hdesired⟩
      exact ⟨hk, hcursor.trans (Option.isNone_iff_eq_none.mp hnone), hend ▸ hdesired⟩
  · exact (catchUp_blames hK hnode desired fuel).weaken fun _ hpre => hpre.1.1

theorem obey_blames (command : Command) {pre : Harvester → Prop} :
    Blames pre (obey node env command) (Blamed node) := by
  cases command with
  | terminate => exact Blames.pure ()
  | scanBlock first last =>
      intro h _ e k herror hempty
      rw [obey_scanBlock_apply] at herror
      cases hscan : node.scanBlock env.attended first h.world with
      | ok block w =>
          rw [hscan] at herror
          cases herror
      | error e' w =>
          rw [hscan] at herror
          cases herror
          obtain ⟨text, rfl, _⟩ := HarvesterError.wrap_emptyFork client_not_empty hempty
          exact absurd hscan (scanBlock_not_panic _ _ _)
  | pause => exact Blames.modify _
  | autoScan => exact Blames.modify _

end Blames

namespace Processor

variable {P : Processor} {node : Node} {block : BlockInfo} {s s' : Store}

theorem Indexed.under (h : P.Indexed block s s') (hunder : s.Under block) : s'.Under block := by
  intro row hrow hnumber
  rcases h.row_cases hrow with hold | ⟨_, hown, _⟩
  · exact hunder row hold hnumber
  · omega

/-- A block that is put on its parent leaves the parent under the rows. -/
theorem Indexed.under_parent (hnode : node.Consistent) (h : P.Indexed block s s')
    (hseen : node.Seen block) (hknows : node.Knows s) {prevBlock : BlockInfo}
    (hheight : block.header.height = prevBlock.header.height + 1)
    (hprev : block.header.previousBlockHash = some prevBlock.header.hash) :
    s'.Under prevBlock := by
  intro row hrow hnumber
  obtain ⟨own, hown, hat, hhash⟩ := h.row_at hnode hseen hknows
  rw [s'.numberKey.eq_of_key hrow hown (by omega), ← hprev]
  exact hnode.row_parent (h.knows hseen hknows) hown hseen hhash

theorem processFork_under {env : DbEnv} {blocks : List BlockInfo}
    {w w' : World Store AggregatorMsg} (hnode : node.Consistent)
    (hwalk : Walked node w.store block blocks) (hseen : node.Seen block) (hne : blocks ≠ [])
    (h : processFork P env blocks w = .ok () w') : w'.store.Under block := by
  have hlast := List.getLast?_eq_some_getLast hne
  intro row hrow hnumber
  rcases processFork_rows hnode hwalk hseen hlast h hrow with
    ⟨_, hlow⟩ | ⟨b, hb, _, hheight, _⟩
  · obtain ⟨rest, hrest⟩ := hwalk.head hne
    have hle := hwalk.origin_le hnode hseen hlast (hrest ▸ List.mem_cons_self : block ∈ blocks)
    omega
  · have hle := (hwalk.member hnode hseen hb).2.2
    omega

end Processor

/-- The rows come from the node; if every block the cursor was set to was clear, then so is the
one it is at. -/
structure Sheltered (node : Node) (h : Harvester) : Prop where
  knows : node.Knows h.world.store
  under : (∀ entry ∈ h.history, entry.Clear) →
    ∀ cursor, h.lastProcessedBlock = some cursor → h.world.store.Under cursor

/-- Then a head that the walk has already arrived at names the cursor as its parent. -/
theorem Sheltered.head_not_arrived {node : Node} (hnode : node.Consistent) {h : Harvester}
    (hk : Sheltered node h) (hclear : ∀ entry ∈ h.history, entry.Clear) :
    ¬ h.HeadArrived node := by
  rintro ⟨prevBlock, head, hcursor, hseen, hheight, hfork, harrived⟩
  rcases harrived with hzero | hstored
  · omega
  · obtain ⟨row, hrow, hhash⟩ := List.mem_map.mp hstored
    have hnumber := hnode.row_height hk.knows hrow hseen hhash
    have hprevious := hk.under hclear prevBlock hcursor row hrow (by omega)
    rw [hnode.row_parent hk.knows hrow hseen hhash] at hprevious
    exact hfork hprevious

section Sheltered

variable {P : Processor} {node : Node} {env : DbEnv}

theorem sheltered_steady (node : Node) : Steady (Sheltered node) := by
  intro h w hstore _ _ hk
  exact ⟨hstore.symm ▸ hk.knows, fun hclear cursor hcursor =>
    hstore.symm ▸ hk.under hclear cursor hcursor⟩

theorem sheltered_boundless (node : Node) : Boundless (Sheltered node) := fun _ _ _ hk =>
  ⟨hk.knows, hk.under⟩

theorem sheltered_of_under {h : Harvester} {block : BlockInfo} (hknows : node.Knows h.world.store)
    (hcursor : h.lastProcessedBlock = some block)
    (hunder : (∀ entry ∈ h.history, entry.Clear) → h.world.store.Under block) :
    Sheltered node h := by
  refine ⟨hknows, fun hclear cursor hsome => ?_⟩
  rw [hcursor] at hsome
  cases hsome
  exact hunder hclear

theorem under_of_below {s : Store} {block : BlockInfo}
    (h : ∀ row ∈ s.blocks, row.number < block.header.height) : s.Under block := by
  intro row hrow hnumber
  have hlow := h row hrow
  omega

theorem sheltered_stepwise (hnode : node.Consistent) (env' : DbEnv) :
    Stepwise P node env' 0 (Sheltered node) where
  steady := sheltered_steady node
  first := by
    intro h desired block w committed hk hnone hdesired hshows hsound
    have hknows := (knows_stepwise hnode env').first h desired block w committed hk.knows hnone
      hdesired hshows hsound
    refine sheltered_of_under hknows rfl fun _ => ?_
    cases committed with
    | true => exact hsound.indexed.under (under_of_below hshows.above)
    | false => exact hsound.store_eq.symm ▸ under_of_below hshows.above
  next := by
    intro h prevBlock block w hk _ hshows _ hrun
    have hindexed := Processor.process_ok hrun
    refine sheltered_of_under (hindexed.knows hshows.seen hk.knows) rfl fun hclear => ?_
    have hentry : (Entry.call (.next block) h.world w true).Clear :=
      hclear _ (List.mem_append_right _ List.mem_cons_self)
    exact hindexed.under hentry
  fork := by
    intro h prevBlock block blocks w hk hcursor hshows hother hwalk hne hrun
    have hknows := (knows_stepwise hnode env').fork h prevBlock block blocks w hk.knows hcursor
      hshows hother hwalk hne hrun
    exact sheltered_of_under hknows rfl fun _ =>
      Processor.processFork_under hnode hwalk hshows.seen hne hrun
  failed := by
    intro h job e w hk _ _ hrun
    have hstore := Job.run_error hrun
    refine ⟨hstore.symm ▸ hk.knows, fun hclear cursor hcursor => ?_⟩
    have hunder := hk.under (fun entry he => hclear entry (List.mem_append_left _ he)) cursor
      hcursor
    exact hstore.symm ▸ hunder

/-- A commit that takes effect after the drop puts the block it is about on the cursor, or at it. -/
theorem sheltered_lively (hnode : node.Consistent) :
    Lively Job.Straight P node env (Sheltered node) where
  stepwise := sheltered_stepwise hnode
  landed := by
    intro h entries job before after w hk hstraight _ hstore handed hrun
    have hknows : node.Knows before.store := hstore ▸ hk.knows
    refine ⟨handed.knows hnode hknows hrun, fun _ cursor hcursor => ?_⟩
    cases job with
    | first block =>
        obtain ⟨hat, _, hbelow⟩ := handed
        have hsame : cursor = block := Option.some.inj (hcursor.symm.trans hat)
        exact hsame ▸ (Processor.process_ok hrun).under (under_of_below hbelow)
    | next block =>
        obtain ⟨prevBlock, hat, hseen, hheight, hprev⟩ := handed
        have hsame : cursor = prevBlock := Option.some.inj (hcursor.symm.trans hat)
        exact hsame ▸ (Processor.process_ok hrun).under_parent hnode hseen hknows hheight hprev
    | fork blocks => exact hstraight.elim

theorem sheltered_obeyed (hnode : node.Consistent) (moment : Moment) :
    Obeyed node env (Sheltered node) moment := by
  intro command _
  refine obey_command hnode (sheltered_steady node) (sheltered_boundless node)
    (fun _ _ => Nat.zero_le _) command fun _ _ _ h block hk _ => ?_
  refine sheltered_of_under hk.knows rfl fun hclear => ?_
  exact (hclear _ (List.mem_append_right _ List.mem_cons_self) :
    (Entry.scanFrom block h.world).Clear)

end Sheltered

theorem moment_blames {P : Processor} {node : Node} {env : DbEnv} {K : Harvester → Prop}
    {A : Job → Prop} (hK : Lively A P node env K) (hnode : node.Consistent) (moment : Moment) :
    Blames (Alive node K) (moment.run P node env) (Blamed node) := by
  cases moment with
  | round fuel => exact (harvest_blames (hK.guarded env.attended) hnode fuel).retrying
  | between command => exact obey_blames command
  | dropped fuel await lands command =>
      have hcut : Blames (Alive node K) (cutRound P node env fuel await lands) (Blamed node) := by
        intro h hk e k herror
        have hround : Blames (Alive node K)
            (harvestRetrying P node (env.cutAt (h.world.clock + await)) fuel >>= fun _ =>
              if lands then modify (land P env (h.world.clock + await)) else pure ())
            (Blamed node) := by
          refine Blames.bind (harvest_blames (hK.guarded _) hnode fuel).retrying
            ((hK.guarded _).harvestRetrying hnode fuel) fun _ => ?_
          cases lands with
          | true => exact Blames.modify _
          | false => exact Blames.pure ()
        exact hround h hk e k herror
      intro h hk e k herror
      have hobeys : Blames (fun _ => True) (obey node env command) (Blamed node) :=
        obey_blames command
      rcases bind_eq_error.mp herror with hround | ⟨_, k', _, hobey⟩
      · exact hcut h hk e k hround
      · exact hobeys k' trivial e k hobey

/-- Whatever happened to the tables in earlier lives, and whatever the commands and the node do:
if every block the cursor is set to by a command or put at as the next one lies under the rows,
and no replay takes effect after the drop, no `expect` of a reorganisation panics. -/
theorem reorg_has_fork (P : Processor) (node : Node) (env : DbEnv) (earlier : List Life)
    (life : Life) (clock : Nat) (hnode : node.Consistent)
    (hlands : LandsOnly Job.Straight P node env life.moments (Harvester.new
      (survive P node env earlier ⟨Store.empty, [], clock⟩) life.startHeight life.endHeight))
    (hclear : ∀ entry ∈ (life.run P node env
      (survive P node env earlier ⟨Store.empty, [], clock⟩)).history, entry.Clear) :
    ∀ e k, live P node env life.moments (Harvester.new
      (survive P node env earlier ⟨Store.empty, [], clock⟩) life.startHeight life.endHeight) =
        .error e k → ¬ e.EmptyFork := by
  have hlively : Lively Job.Straight P node env (Sheltered node) := sheltered_lively hnode
  have hnew : Alive node (Sheltered node) (Harvester.new
      (survive P node env earlier ⟨Store.empty, [], clock⟩) life.startHeight life.endHeight) := by
    refine ⟨fun _ _ _ hlast => ?_, survive_knows P env hnode earlier clock, fun _ _ hcursor => ?_⟩
    · cases hlast
    · cases hcursor
  obtain ⟨⟨_, hend⟩, hfails⟩ := hlively.live hnode life.moments
    (fun moment _ => sheltered_obeyed hnode moment) hnew hlands
  intro e k herror hempty
  obtain ⟨moment, _, h', halive, hmoment⟩ := hfails e k herror
  have hhead := moment_blames hlively hnode moment h' halive e k hmoment hempty
  unfold Life.run at hclear
  rw [herror] at hend hclear
  exact hend.head_not_arrived hnode hclear hhead

/-- A reorganisation, and a scan by command of what it has replayed. -/
def rescanned : Life :=
  ⟨some 1, none, [.round 3, .round 5, .between (.scanBlock 1 3), .round 4]⟩

theorem rescanned_has_fork : raised (live Processor.mainnet (Node.switching oldBranch newBranch 9)
    DbEnv.calm rescanned.moments (Harvester.new (survive Processor.mainnet
      (Node.switching oldBranch newBranch 9) DbEnv.calm [] ⟨Store.empty, [], 0⟩)
        rescanned.startHeight rescanned.endHeight)) ≠ some (.panic "blocks should exist. qed") :=
  fun hraised => reorg_has_fork Processor.mainnet (Node.switching oldBranch newBranch 9) DbEnv.calm
    [] rescanned 0 branches_consistent ⟨trivial, fun _ => ⟨trivial, fun _ => ⟨trivial, fun _ =>
      ⟨trivial, fun _ => trivial⟩⟩⟩⟩ (by decide +kernel) _ _ (eq_error_of_raised hraised) (.inl rfl)

def grownBranch : List BlockInfo :=
  oldBranch ++ [blockAt 102 2 101 [coinbaseTx 5 []], blockAt 103 3 102 [coinbaseTx 6 []],
    blockAt 104 4 103 [coinbaseTx 7 []]]

/-- The node leaves the old branch for the new one, and comes back to it. -/
def returning : Node :=
  Node.following (fun t => if t < 16 then grownBranch.take 3 else if t < 18 then newBranch
    else grownBranch) (grownBranch ++ newBranch)

theorem returning_consistent : returning.Consistent := by
  refine Node.following_consistent (by decide +kernel) fun t b hb => ?_
  split at hb
  · exact List.mem_append_left _ (List.mem_of_mem_take hb)
  · split at hb
    · exact List.mem_append_right _ hb
    · exact List.mem_append_left _ hb

/-- Two blocks of the old branch are stored when a command sets the cursor to block 1 of the new
one. Block 2 of the old branch, which is stored, then looks like the head of a fork. -/
theorem returning_panics : returning.Consistent ∧ ∃ k,
    live Processor.mainnet returning DbEnv.calm [.round 4, .between (.scanBlock 1 4), .round 3]
      (Harvester.new ⟨Store.empty, [], 0⟩ (some 1) none) =
        .error (.panic "blocks should exist. qed") k :=
  ⟨returning_consistent, _, eq_error_of_raised (by decide +kernel)⟩

end BtcIndexer
