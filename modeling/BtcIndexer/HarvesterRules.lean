import BtcIndexer.BlockTree
import BtcIndexer.Handoff

/-! Rules for the harvester. What a round does comes down to four steps: a first block, a next
block, a fork, and a call that fails. A property that these four keep, and that does not look
at what mere reads change, is kept by every round and by every run of the loop. -/
namespace BtcIndexer
open Stateful Outbox Rows

/-- The node has named this block for a height, at a tick in between. -/
structure Node.Shows (node : Node) (since before number : Nat) (block : BlockInfo) : Prop where
  seen : node.Seen block
  height : block.header.height = number
  hash : ∃ t, since ≤ t ∧ t < before ∧ node.getBlockHash t number = .ok block.header.hash

/-- Where a round is to end: at the bound of the scan, or at the tip at a tick in between. -/
def Node.Desires (node : Node) (since before : Nat) (endHeight : Option Nat) (desired : Nat) :
    Prop :=
  match endHeight with
  | some height => desired = height
  | none => ∃ t, since ≤ t ∧ t < before ∧ node.getBlockCount t = .ok desired

def Harvester.record (h : Harvester) (job : Job) (w : World Store AggregatorMsg)
    (committed : Bool) : Harvester :=
  { h with world := w, history := h.history ++ [.call job h.world w committed] }

def Harvester.moveTo (h : Harvester) (block : BlockInfo) : Harvester :=
  { h with lastProcessedBlock := some block }

/-- A property that mere reads do not change. -/
def Steady (J : Harvester → Prop) : Prop :=
  ∀ h w, w.store = h.world.store → w.channel = h.world.channel → h.world.clock ≤ w.clock →
    J h → J { h with world := w }

theorem Steady.and {J K : Harvester → Prop} (hJ : Steady J) (hK : Steady K) :
    Steady (fun h => J h ∧ K h) := fun h w hstore hchannel hclock hboth =>
  ⟨hJ h w hstore hchannel hclock hboth.1, hK h w hstore hchannel hclock hboth.2⟩

theorem store_steady (s : Store) : Steady (fun h => h.world.store = s) :=
  fun _ _ hstore _ _ h => hstore.trans h

def Harvester.Aligned (h k : Harvester) : Prop :=
  k.startHeight = h.startHeight ∧ k.endHeight = h.endHeight ∧
    k.lastProcessedBlock = h.lastProcessedBlock

theorem aligned_steady (h : Harvester) : Steady h.Aligned := fun _ _ _ _ _ haligned => haligned

theorem Node.Shows.mono {node : Node} {since since' before before' number : Nat}
    {block : BlockInfo} (h : node.Shows since before number block) (hsince : since' ≤ since)
    (hbefore : before ≤ before') : node.Shows since' before' number block := by
  obtain ⟨t, hlow, hhigh, hanswer⟩ := h.hash
  exact ⟨h.seen, h.height, t, Nat.le_trans hsince hlow, Nat.lt_of_lt_of_le hhigh hbefore, hanswer⟩

theorem shows_steady (node : Node) (since number : Nat) (block : BlockInfo) :
    Steady (fun h => node.Shows since h.world.clock number block) :=
  fun _ _ _ _ hclock h => h.mono (Nat.le_refl _) hclock

theorem Node.Desires.mono {node : Node} {since before before' : Nat} {endHeight : Option Nat}
    {desired : Nat} (h : node.Desires since before endHeight desired) (hle : before ≤ before') :
    node.Desires since before' endHeight desired := by
  cases endHeight with
  | some height => exact h
  | none =>
      obtain ⟨t, hlow, hhigh, hanswer⟩ := h
      exact ⟨t, hlow, Nat.lt_of_lt_of_le hhigh hle, hanswer⟩

theorem desires_steady (node : Node) (since : Nat) (endHeight : Option Nat) (desired : Nat) :
    Steady (fun h => node.Desires since h.world.clock endHeight desired) :=
  fun _ _ _ _ hclock h => h.mono hclock

theorem Steady.const (Q : Prop) : Steady (fun _ => Q) := fun _ _ _ _ _ h => h

theorem cursor_steady (cursor : Option BlockInfo) :
    Steady (fun h => h.lastProcessedBlock = cursor) := fun _ _ _ _ _ h => h

theorem Job.run_ticks (P : Processor) (env : DbEnv) (job : Job) : Ticks (job.run P env) := by
  intro w
  rw [Job.run_eq]
  exact transact_ticks env.faults _ w

theorem rpc_ok {α : Type} {env : DbEnv} {call : Nat → Except RpcError α}
    {w w' : World Store AggregatorMsg} {a : α} (h : rpc env call w = .ok a w') :
    call w.clock = .ok a ∧ w' = w.tick := by
  simp only [rpc] at h
  split at h
  · cases h
  · cases hcall : call w.clock with
    | error e => rw [hcall] at h; cases h
    | ok b => rw [hcall] at h; cases h; exact ⟨rfl, rfl⟩

theorem query_world_ok {α : Type} {F : Faults ProcessorError} {q : Store → α}
    {w w' : World Store AggregatorMsg} {a : α}
    (h : query F (fun s => .ok (q s)) w.store w = .ok a w') : a = q w'.store := by
  simp only [query] at h
  split at h
  · cases h
  · cases h
    rfl

theorem scanBlockByHash_seen {node : Node} {env : DbEnv} (hnode : node.Consistent)
    {hash : BlockHash} {w w' : World Store AggregatorMsg} {block : BlockInfo}
    (h : node.scanBlockByHash env hash w = .ok block w') :
    node.Seen block ∧ block.header.hash = hash := by
  obtain ⟨hcall, _⟩ := rpc_ok h
  cases hheader : node.getBlockHeader w.clock hash with
  | error e => rw [hheader] at hcall; cases hcall
  | ok header =>
      cases htxdata : node.getBlock w.clock hash with
      | error e => rw [hheader, htxdata] at hcall; cases hcall
      | ok txdata =>
          rw [hheader, htxdata] at hcall
          cases hcall
          have hhash := hnode.hash hheader
          exact ⟨⟨⟨w.clock, hhash.symm ▸ hheader⟩, hnode.coinbase htxdata⟩, hhash⟩

theorem scanBlock_shows {node : Node} {env : DbEnv} (hnode : node.Consistent) {number : Nat}
    {w w' : World Store AggregatorMsg} {block : BlockInfo}
    (h : node.scanBlock env number w = .ok block w') :
    node.Shows w.clock w'.clock number block := by
  obtain ⟨hash, w₁, hfirst, hrest⟩ := bind_eq_ok.mp h
  obtain ⟨hseen, hhash⟩ := scanBlockByHash_seen hnode hrest
  obtain ⟨hanswer, rfl⟩ := rpc_ok hfirst
  obtain ⟨_, rfl⟩ := rpc_ok hrest
  rw [← hhash] at hanswer
  obtain ⟨t, hheader⟩ := hseen.header
  refine ⟨hseen, hnode.height hanswer hheader, w.clock, Nat.le_refl _, ?_, hanswer⟩
  simp only [World.tick_clock]
  omega

theorem rpc_desires {node : Node} {env : DbEnv} {since desired : Nat}
    {w w' : World Store AggregatorMsg} (hsince : since ≤ w.clock)
    (h : node.getTipNumber env w = .ok desired w') :
    node.Desires since w'.clock none desired := by
  obtain ⟨hanswer, rfl⟩ := rpc_ok h
  exact ⟨w.clock, hsince, Nat.lt_succ_self _, hanswer⟩

theorem lift_triple {J : Harvester → Prop} (hJ : Steady J) {α : Type} {x : ProcessorM α}
    (hreads : Reads x) (hticks : Ticks x) {Q : α → World Store AggregatorMsg → Prop}
    (variant : ProcessorError → HarvesterError)
    (hq : ∀ h a w, J h → x h.world = .ok a w → Q a w) :
    Triple J (lift variant x) (fun a h => J h ∧ Q a h.world) J := by
  intro h hpre
  simp only [lift]
  cases hrun : x h.world with
  | ok a w =>
      obtain ⟨hstore, hchannel⟩ := hreads.of_ok hrun
      exact ⟨hJ h w hstore hchannel (hticks.of_ok hrun) hpre, hq h a w hpre hrun⟩
  | error e w =>
      obtain ⟨hstore, hchannel⟩ := hreads.of_error hrun
      exact hJ h w hstore hchannel (hticks.of_error hrun) hpre

theorem le_latest {s : Store} {row : BlockRow} (hrow : row ∈ s.blocks) (startHeight : Option Nat)
    (desired : Nat) : row.number < startNum s.getLatestBlockNum startHeight desired := by
  have hmem : row.number ∈ s.blocks.map BlockRow.number := List.mem_map_of_mem hrow
  unfold Store.getLatestBlockNum
  cases hmax : (s.blocks.map BlockRow.number).max? with
  | none =>
      rw [List.max?_eq_none_iff] at hmax
      rw [hmax] at hmem
      cases hmem
  | some number =>
      have hle := (List.max?_eq_some_iff.mp hmax).2 row.number hmem
      simp only [startNum]
      omega

theorem Node.Shows.above {node : Node} {since before desired : Nat} {s : Store}
    {startHeight : Option Nat} {block : BlockInfo}
    (h : node.Shows since before (startNum s.getLatestBlockNum startHeight desired) block) :
    ∀ row ∈ s.blocks, row.number < block.header.height := by
  intro row hrow
  rw [h.height]
  exact le_latest hrow startHeight desired

theorem Job.run_error {P : Processor} {env : DbEnv} {job : Job}
    {w w' : World Store AggregatorMsg} {e : ProcessorError}
    (h : job.run P env w = .error e w') : w'.store = w.store := by
  rw [Job.run_eq] at h
  exact transact_error_store h

theorem Entry.Sound.run_ok {P : Processor} {env : DbEnv} {job : Job}
    {w w' : World Store AggregatorMsg} (h : (Entry.call job w w' true).Sound P env) :
    job.run P env w = .ok () w' := (Job.run_eq ..).trans h.committed

theorem Entry.Sound.store_eq {P : Processor} {env : DbEnv} {job : Job}
    {w w' : World Store AggregatorMsg} (h : (Entry.call job w w' false).Sound P env) :
    w'.store = w.store := by
  obtain ⟨e, hrun⟩ := h.failed
  exact transact_error_store hrun

theorem Entry.Sound.clock_le {P : Processor} {env : DbEnv} {job : Job} {committed : Bool}
    {w w' : World Store AggregatorMsg} (h : (Entry.call job w w' committed).Sound P env) :
    w.clock ≤ w'.clock := by
  rw [h.1]
  exact Job.run_ticks P env job w

theorem Entry.Sound.indexed {P : Processor} {env : DbEnv} {block : BlockInfo}
    {w w' : World Store AggregatorMsg} (h : (Entry.call (.first block) w w' true).Sound P env) :
    P.Indexed block w.store w'.store := Processor.process_ok h.run_ok

theorem scanBlock_triple {node : Node} (hnode : node.Consistent) {J : Harvester → Prop}
    (hJ : Steady J) {since : Nat} (hsince : ∀ h, J h → since ≤ h.world.clock) (env : DbEnv)
    (number : Nat) : Triple J (lift .client (node.scanBlock env number))
      (fun block h => J h ∧ node.Shows since h.world.clock number block) J :=
  lift_triple hJ (scanBlock_reads node env number) (scanBlock_ticks node env number) .client
    (Q := fun block w => node.Shows since w.clock number block)
    fun h _ _ hpre hrun => (scanBlock_shows hnode hrun).mono (hsince h hpre) (Nat.le_refl _)

theorem isAncestor_triple {env : DbEnv} {J : Harvester → Prop} (hJ : Steady J)
    (block : BlockInfo) : Triple J (isAncestor env block)
      (fun found h => J h ∧ (found = true ↔ h.world.store.Arrived block)) J := by
  unfold isAncestor Store.Arrived
  split
  · next hzero => exact Triple.pure fun h hpre => ⟨hpre, by simp [hzero]⟩
  · next hzero =>
      apply lift_triple hJ (query_reads _ _) (query_world_ticks _ _) .other
        (Q := fun found w => found = true ↔
          (block.header.height = 0 ∨ block.header.hash ∈ w.store.blocks.map BlockRow.hash))
      intro h found w _ hrun
      rw [query_world_ok hrun]
      simp [Store.hasBlock, hzero]

theorem getForkBlocks_triple {node : Node} (env : DbEnv) (hnode : node.Consistent) {s : Store}
    {J : Harvester → Prop} (hJ : Steady J) (hs : ∀ h, J h → h.world.store = s) (fuel : Nat)
    (block : BlockInfo) : Triple J (getForkBlocks node env fuel block)
      (fun blocks h => J h ∧ Walked node s block blocks) J := by
  induction fuel generalizing block with
  | zero => exact Triple.throw fun _ hpre => hpre
  | succ fuel ih =>
      apply Triple.bind (isAncestor_triple hJ block)
      intro found
      cases found with
      | true =>
          refine Triple.pure fun h hpre => ⟨hpre.1, .arrived ?_⟩
          rw [← hs h hpre.1]
          exact hpre.2.mp rfl
      | false =>
          have hnew : ∀ h, J h ∧ (false = true ↔ h.world.store.Arrived block) →
              J h ∧ ¬ s.Arrived block := by
            intro h hpre
            refine ⟨hpre.1, fun harrived => ?_⟩
            rw [← hs h hpre.1] at harrived
            cases hpre.2.mpr harrived
          simp only [Bool.false_eq_true, if_false]
          cases hprev : block.header.previousBlockHash with
          | none =>
              refine Triple.pure fun h hpre => ?_
              obtain ⟨hpre, hnew⟩ := hnew h (by simpa using hpre)
              exact ⟨hpre, .rootless hnew hprev⟩
          | some parentHash =>
              have hscan := lift_triple (hJ.and (.const (¬ s.Arrived block))) (rpc_reads env _)
                (rpc_ticks env _) .client
                (Q := fun parent _ => node.Seen parent ∧ parent.header.hash = parentHash)
                (x := node.scanBlockByHash env parentHash)
                fun _ _ _ _ h => scanBlockByHash_seen hnode h
              refine Triple.bind (hscan.weaken (fun h hpre => hnew h (by simpa using hpre))
                (fun _ _ hpost => hpost) fun _ hfail => hfail.1) fun parent => ?_
              intro h hmid
              obtain ⟨⟨hpre, hblock⟩, hseen, hhash⟩ := hmid
              have hrest : Triple J
                  (getForkBlocks node env fuel parent >>= fun rest => pure (block :: rest))
                  (fun blocks h => J h ∧ Walked node s block blocks) J :=
                Triple.bind (ih parent) fun rest => Triple.pure fun k hk =>
                  ⟨hk.1, .step hblock hseen (by rw [hprev, hhash]) hk.2⟩
              exact hrest h hpre

theorem harvest_apply (P : Processor) (node : Node) (env : DbEnv) (fuel : Nat) (h : Harvester) :
    harvest P node env fuel h = (desiredHeight node env h.endHeight >>= fun desired =>
      if h.lastProcessedBlock.isNone then
        (processFirst P node env desired >>= fun _ => catchUp P node env desired fuel)
      else catchUp P node env desired fuel) h := rfl

theorem processFirst_apply (P : Processor) (node : Node) (env : DbEnv) (desired : Nat)
    (h : Harvester) : processFirst P node env desired h =
      (lift .ofSqlx (Processor.latestBlockNum env) >>= fun last =>
        lift .client (node.scanBlock env (startNum last h.startHeight desired)) >>= fun block =>
          setLastProcessedBlock block >>= fun _ => runJob P env (.first block)) h := rfl

theorem harvest_of_cursor {P : Processor} {node : Node} {env : DbEnv} {fuel desired : Nat}
    {h h₁ : Harvester} (hcursor : h.lastProcessedBlock.isSome)
    (hdesired : desiredHeight node env h.endHeight h = .ok desired h₁) :
    harvest P node env fuel h = catchUp P node env desired fuel h₁ := by
  have hnone : h.lastProcessedBlock.isNone = false := by simpa using hcursor
  rw [harvest_apply, bind_of_ok hdesired, hnone]
  rfl

theorem harvest_of_none {P : Processor} {node : Node} {env : DbEnv} {fuel desired : Nat}
    {h h₁ : Harvester} (hcursor : h.lastProcessedBlock = none)
    (hdesired : desiredHeight node env h.endHeight h = .ok desired h₁) :
    harvest P node env fuel h =
      (processFirst P node env desired >>= fun _ => catchUp P node env desired fuel) h₁ := by
  have hnone : h.lastProcessedBlock.isNone = true := by rw [hcursor]; rfl
  rw [harvest_apply, bind_of_ok hdesired, hnone]
  rfl

theorem catchUp_none {P : Processor} {node : Node} {env : DbEnv} {fuel desired : Nat}
    {h : Harvester} (hcursor : h.lastProcessedBlock = none) :
    catchUp P node env desired (fuel + 1) h = .ok () h := by
  have hget : (get : HarvesterM Harvester) h = .ok h h := rfl
  refine (bind_of_ok hget).trans ?_
  simp only [hcursor]
  rfl

theorem catchUp_at {P : Processor} {node : Node} {env : DbEnv} {fuel desired : Nat}
    {h : Harvester} {prevBlock : BlockInfo} (hcursor : h.lastProcessedBlock = some prevBlock) :
    catchUp P node env desired (fuel + 1) h =
      (if desired ≤ prevBlock.header.height then pure ()
        else lift .client (node.scanBlock env (prevBlock.header.height + 1)) >>= fun block =>
          extend P node env fuel prevBlock block >>= fun _ =>
            setLastProcessedBlock block >>= fun _ => catchUp P node env desired fuel :
          HarvesterM Unit) h := by
  have hget : (get : HarvesterM Harvester) h = .ok h h := rfl
  refine (bind_of_ok hget).trans ?_
  simp only [hcursor, ge_iff_le]

theorem catchUp_done {P : Processor} {node : Node} {env : DbEnv} {fuel desired : Nat}
    {h : Harvester} {prevBlock : BlockInfo} (hcursor : h.lastProcessedBlock = some prevBlock)
    (hdone : desired ≤ prevBlock.header.height) :
    catchUp P node env desired (fuel + 1) h = .ok () h := by
  rw [catchUp_at hcursor, if_pos hdone]
  rfl

theorem catchUp_step {P : Processor} {node : Node} {env : DbEnv} {fuel desired : Nat}
    {h : Harvester} {prevBlock : BlockInfo} (hcursor : h.lastProcessedBlock = some prevBlock)
    (hmore : ¬ desired ≤ prevBlock.header.height) :
    catchUp P node env desired (fuel + 1) h =
      (lift .client (node.scanBlock env (prevBlock.header.height + 1)) >>= fun block =>
        extend P node env fuel prevBlock block >>= fun _ =>
          setLastProcessedBlock block >>= fun _ => catchUp P node env desired fuel) h := by
  rw [catchUp_at hcursor, if_neg hmore]

theorem start_cons {turn : Turn} (hopen : turn ≠ .command .terminate) (rest : List Turn)
    (h : Harvester) : start P node env (turn :: rest) h =
      (start P node env [turn] >>= fun _ => start P node env rest) h := by
  cases turn with
  | harvest fuel => simp only [start, bind_assoc, pure_bind]
  | command command =>
      cases command with
      | terminate => exact absurd rfl hopen
      | scanBlock first last => simp only [start, bind_assoc, pure_bind]
      | pause => simp only [start, bind_assoc, pure_bind]
      | autoScan => simp only [start, bind_assoc, pure_bind]

theorem history_respected (P : Processor) (env : DbEnv) :
    Respected P env (fun h h' => h.history <+: h'.history) where
  refl := fun _ => List.prefix_refl _
  trans := fun _ _ _ => List.IsPrefix.trans
  reads := fun _ _ _ _ _ => List.prefix_refl _
  bounds := fun _ _ _ => List.prefix_refl _
  cursor := fun _ _ => List.prefix_refl _
  scanned := fun _ _ => List.prefix_append _ _
  job := by
    intro job h
    simp only [runJob]
    cases job.run P env h.world <;> exact List.prefix_append _ _

def Job.blocks : Job → List BlockInfo
  | .first block | .next block => [block]
  | .fork blocks => blocks

/-- What is known of the blocks of a call when it is made, by the cursor and the tables then. -/
def Job.Handed (node : Node) (cursor : Option BlockInfo) (s : Store) : Job → Prop
  | .first block => cursor = some block ∧ node.Seen block ∧
      ∀ row ∈ s.blocks, row.number < block.header.height
  | .next block => ∃ prevBlock, cursor = some prevBlock ∧ node.Seen block ∧
      block.header.height = prevBlock.header.height + 1 ∧
      block.header.previousBlockHash = some prevBlock.header.hash
  | .fork blocks => ∃ prevBlock block, cursor = some prevBlock ∧ node.Seen block ∧
      block.header.height = prevBlock.header.height + 1 ∧
      block.header.previousBlockHash ≠ some prevBlock.header.hash ∧
      Walked node s block blocks ∧ blocks ≠ []

theorem Job.Handed.cursor {node : Node} {cursor : Option BlockInfo} {s : Store} {job : Job}
    (handed : job.Handed node cursor s) : cursor ≠ none := by
  rintro rfl
  cases job with
  | first block => cases handed.1
  | next block =>
      obtain ⟨prevBlock, hcursor, _⟩ := handed
      cases hcursor
  | fork blocks =>
      obtain ⟨prevBlock, _, hcursor, _⟩ := handed
      cases hcursor

/-- A property kept by the four steps of a round, when the node answers from a tick on. -/
structure Stepwise (P : Processor) (node : Node) (env : DbEnv) (since : Nat)
    (K : Harvester → Prop) : Prop where
  steady : Steady K
  /-- The cursor is set before the call, whatever comes of the call. -/
  first : ∀ h desired block w committed, K h → h.lastProcessedBlock = none →
    node.Desires since h.world.clock h.endHeight desired →
    node.Shows since h.world.clock
      (startNum h.world.store.getLatestBlockNum h.startHeight desired) block →
    (Entry.call (.first block) h.world w committed).Sound P env →
    K ((h.moveTo block).record (.first block) w committed)
  next : ∀ h prevBlock block w, K h → h.lastProcessedBlock = some prevBlock →
    node.Shows since h.world.clock (prevBlock.header.height + 1) block →
    block.header.previousBlockHash = some prevBlock.header.hash →
    (Job.next block).run P env h.world = .ok () w →
    K ((h.record (.next block) w true).moveTo block)
  fork : ∀ h prevBlock block blocks w, K h → h.lastProcessedBlock = some prevBlock →
    node.Shows since h.world.clock (prevBlock.header.height + 1) block →
    block.header.previousBlockHash ≠ some prevBlock.header.hash →
    Walked node h.world.store block blocks → blocks ≠ [] →
    (Job.fork blocks).run P env h.world = .ok () w →
    K ((h.record (.fork blocks) w true).moveTo block)
  failed : ∀ h job e w, K h → (∀ block, job ≠ .first block) →
    job.Handed node h.lastProcessedBlock h.world.store → job.run P env h.world = .error e w →
    K (h.record job w false)

/-- Such a property of harvesters that have reached the tick. -/
structure Guarded (P : Processor) (node : Node) (env : DbEnv) (since : Nat)
    (K : Harvester → Prop) : Prop extends Stepwise P node env since K where
  since_le : ∀ h, K h → since ≤ h.world.clock

/-- The harvester has come upon a block above its cursor; the tables are these. -/
def Harvester.Meets (node : Node) (since : Nat) (K : Harvester → Prop)
    (prevBlock block : BlockInfo) (s : Store) (h : Harvester) : Prop :=
  ((K h ∧ h.lastProcessedBlock = some prevBlock) ∧
    node.Shows since h.world.clock (prevBlock.header.height + 1) block) ∧ h.world.store = s

theorem Guarded.walk_triple {P : Processor} {node : Node} {env : DbEnv} {since : Nat}
    {K : Harvester → Prop} (hK : Guarded P node env since K) (hnode : node.Consistent) (fuel : Nat)
    (prevBlock block : BlockInfo) (s : Store) :
    Triple (Harvester.Meets node since K prevBlock block s) (getForkBlocks node env fuel block)
      (fun blocks h =>
        Harvester.Meets node since K prevBlock block s h ∧ Walked node s block blocks)
      (Harvester.Meets node since K prevBlock block s) := by
  have hsteady : Steady (Harvester.Meets node since K prevBlock block s) :=
    ((hK.steady.and (cursor_steady _)).and (shows_steady node since _ block)).and (store_steady s)
  exact getForkBlocks_triple env hnode hsteady (fun _ hmeets => hmeets.2) fuel block

section Stepwise

variable {P : Processor} {node : Node} {env : DbEnv} {since : Nat} {J K : Harvester → Prop}

theorem Stepwise.and (hJ : Stepwise P node env since J) (hK : Stepwise P node env since K) :
    Stepwise P node env since (fun h => J h ∧ K h) where
  steady := hJ.steady.and hK.steady
  first := fun h desired block w committed hboth hnone hdesired hshows hsound =>
    ⟨hJ.first h desired block w committed hboth.1 hnone hdesired hshows hsound,
      hK.first h desired block w committed hboth.2 hnone hdesired hshows hsound⟩
  next := fun h prevBlock block w hboth hcursor hshows hprev hrun =>
    ⟨hJ.next h prevBlock block w hboth.1 hcursor hshows hprev hrun,
      hK.next h prevBlock block w hboth.2 hcursor hshows hprev hrun⟩
  fork := fun h prevBlock block blocks w hboth hcursor hshows hother hwalk hne hrun =>
    ⟨hJ.fork h prevBlock block blocks w hboth.1 hcursor hshows hother hwalk hne hrun,
      hK.fork h prevBlock block blocks w hboth.2 hcursor hshows hother hwalk hne hrun⟩
  failed := fun h job e w hboth hlater handed hrun =>
    ⟨hJ.failed h job e w hboth.1 hlater handed hrun,
      hK.failed h job e w hboth.2 hlater handed hrun⟩

theorem clock_stepwise (P : Processor) (node : Node) (env : DbEnv) (since tick : Nat) :
    Stepwise P node env since (fun h => tick ≤ h.world.clock) where
  steady := fun _ _ _ _ hclock h => Nat.le_trans h hclock
  first := by
    intro h desired block w committed hle _ _ _ hsound
    exact Nat.le_trans hle hsound.clock_le
  next := by
    intro h prevBlock block w hle _ _ _ hrun
    exact Nat.le_trans hle ((Job.run_ticks P env (.next block)).of_ok hrun)
  fork := by
    intro h prevBlock block blocks w hle _ _ _ _ _ hrun
    exact Nat.le_trans hle ((Job.run_ticks P env (.fork blocks)).of_ok hrun)
  failed := by
    intro h job e w hle _ _ hrun
    exact Nat.le_trans hle ((Job.run_ticks P env job).of_error hrun)

theorem Stepwise.timed (hK : Stepwise P node env since K) :
    Guarded P node env since (fun h => since ≤ h.world.clock ∧ K h) where
  toStepwise := (clock_stepwise P node env since since).and hK
  since_le := fun _ h => h.1

end Stepwise

namespace Guarded

variable {P : Processor} {node : Node} {env : DbEnv} {since : Nat} {K : Harvester → Prop}

theorem desiredHeight (hK : Guarded P node env since K) {J : Harvester → Prop} (hJ : Steady J)
    (endHeight : Option Nat) : Triple (fun h => K h ∧ J h) (desiredHeight node env endHeight)
      (fun desired h => (K h ∧ J h) ∧ node.Desires since h.world.clock endHeight desired)
      (fun h => K h ∧ J h) := by
  unfold BtcIndexer.desiredHeight
  cases endHeight with
  | none =>
      exact lift_triple (hK.steady.and hJ) (rpc_reads env _) (rpc_ticks env _) .client
        (Q := fun desired w => node.Desires since w.clock none desired)
        fun h _ _ hpre hrun => rpc_desires (hK.since_le h hpre.1) hrun
  | some height => exact Triple.pure fun _ hpre => ⟨hpre, rfl⟩

/-- The call for the first block, with the cursor already there. -/
theorem firstCall (hK : Guarded P node env since K) (desired : Nat) (block : BlockInfo) :
    Triple (fun moved => ∃ h, moved = h.moveTo block ∧ K h ∧ h.lastProcessedBlock = none ∧
        node.Desires since h.world.clock h.endHeight desired ∧ node.Shows since h.world.clock
          (startNum h.world.store.getLatestBlockNum h.startHeight desired) block)
      (runJob P env (.first block)) (fun _ => K) K := by
  rintro _ ⟨h, rfl, hk, hnone, hdesired, hshows⟩
  have hdone := fun w committed => hK.first h desired block w committed hk hnone hdesired hshows
  simp only [runJob, Harvester.moveTo]
  cases hrun : (Job.first block).run P env h.world with
  | ok a w => exact hdone w true ⟨by rw [hrun]; rfl, by rw [hrun]; rfl⟩
  | error e w => exact hdone w false ⟨by rw [hrun]; rfl, by rw [hrun]; rfl⟩

theorem processFirst (hK : Guarded P node env since K) (hnode : node.Consistent)
    (desired : Nat) : Triple (fun h => K h ∧ h.lastProcessedBlock = none ∧
        node.Desires since h.world.clock h.endHeight desired)
      (processFirst P node env desired) (fun _ => K) K := by
  intro h hpre
  obtain ⟨hk, hnone, hdesired⟩ := hpre
  have hJ : Steady (fun k => (K k ∧ h.Aligned k) ∧
      node.Desires since k.world.clock h.endHeight desired) :=
    (hK.steady.and (aligned_steady h)).and (desires_steady node since h.endHeight desired)
  have hlatest := lift_triple hJ (query_reads env.faults _) (query_world_ticks _ _) .ofSqlx
    (Q := fun last w => last = w.store.getLatestBlockNum)
    (x := Processor.latestBlockNum env) fun _ _ _ _ hrun => query_world_ok hrun
  have hJ' : ∀ last, Steady (fun k => ((K k ∧ h.Aligned k) ∧
      node.Desires since k.world.clock h.endHeight desired) ∧
        last = k.world.store.getLatestBlockNum) := fun last =>
    hJ.and fun _ _ hstore _ _ hlast => by rw [hlast, hstore]
  refine (Triple.bind (hlatest.weaken (fun _ hk => hk) (fun _ _ hpost => hpost)
    fun _ hfail => hfail.1.1) fun last => ?_ : Triple (fun k => (K k ∧ h.Aligned k) ∧
      node.Desires since k.world.clock h.endHeight desired) _ (fun _ => K) K)
    h ⟨⟨hk, rfl, rfl, rfl⟩, hdesired⟩
  refine Triple.bind ((scanBlock_triple hnode (hJ' last)
    (fun k hk => hK.since_le k hk.1.1.1) env _).weaken (fun _ hk => hk)
    (fun _ _ hpost => hpost) fun _ hfail => hfail.1.1.1) fun block => ?_
  refine Triple.bind (Triple.modify fun k hmid => ?_) fun _ => hK.firstCall desired block
  obtain ⟨⟨⟨⟨hk, hstart, hend, hcursor⟩, hdesired⟩, hlast⟩, hshows⟩ := hmid
  rw [hlast, ← hstart] at hshows
  rw [← hend] at hdesired
  exact ⟨k, rfl, hk, hcursor.trans hnone, hdesired, hshows⟩

/-- A fork that a round comes upon: the walk over parents and the replay. -/
theorem handleReorg (hK : Guarded P node env since K) (hnode : node.Consistent) (fuel : Nat)
    {prevBlock block : BlockInfo}
    (hfork : block.header.previousBlockHash ≠ some prevBlock.header.hash) :
    Triple (fun h => (K h ∧ h.lastProcessedBlock = some prevBlock) ∧
        node.Shows since h.world.clock (prevBlock.header.height + 1) block)
      (handleReorg P node env fuel block) (fun _ h => K (h.moveTo block)) K := by
  intro h hpre
  have hwalk := hK.walk_triple hnode fuel prevBlock block h.world.store
  have hrest : Triple (Harvester.Meets node since K prevBlock block h.world.store)
      (BtcIndexer.handleReorg P node env fuel block) (fun _ k => K (k.moveTo block)) K := by
    refine Triple.bind (hwalk.weaken (fun _ hk => hk) (fun _ _ hpost => hpost)
      fun _ hfail => hfail.1.1.1) fun blocks => ?_
    split
    · exact Triple.throw fun _ hk => hk.1.1.1.1
    · next hne =>
        intro k hmid
        obtain ⟨⟨⟨⟨hk, hcursor⟩, hshows⟩, hstore⟩, hwalked⟩ := hmid
        rw [← hstore] at hwalked
        simp only [runJob]
        cases hrun : (Job.fork blocks).run P env k.world with
        | ok a w =>
            exact hK.fork k prevBlock block blocks w hk hcursor hshows hfork hwalked hne hrun
        | error e w =>
            exact hK.failed k (.fork blocks) e w hk (by simp)
              ⟨prevBlock, block, hcursor, hshows.seen, hshows.height, hfork, hwalked, hne⟩ hrun
  exact hrest h ⟨hpre, rfl⟩

/-- The block after the cursor, whether it extends it or heads a fork. -/
theorem extend (hK : Guarded P node env since K) (hnode : node.Consistent) (fuel : Nat)
    (prevBlock block : BlockInfo) :
    Triple (fun h => (K h ∧ h.lastProcessedBlock = some prevBlock) ∧
        node.Shows since h.world.clock (prevBlock.header.height + 1) block)
      (extend P node env fuel prevBlock block) (fun _ h => K (h.moveTo block)) K := by
  unfold BtcIndexer.extend
  cases hprev : block.header.previousBlockHash with
  | none =>
      intro k hpre
      obtain ⟨t, hheader⟩ := hpre.2.seen.header
      have hheight := hpre.2.height
      exact absurd hprev (hnode.rooted hheader (by omega))
  | some prev =>
      simp only
      split
      · next hsame =>
          rw [← hsame] at hprev
          intro k hpre
          simp only [runJob]
          cases hrun : (Job.next block).run P env k.world with
          | ok a w => exact hK.next k prevBlock block w hpre.1.1 hpre.1.2 hpre.2 hprev hrun
          | error e w =>
              exact hK.failed k (.next block) e w hpre.1.1 (by simp)
                ⟨prevBlock, hpre.1.2, hpre.2.seen, hpre.2.height, hprev⟩ hrun
      · next hother =>
          refine hK.handleReorg hnode fuel fun hsame => hother ?_
          rw [hprev] at hsame
          exact (Option.some.inj hsame).symm

theorem catchUp (hK : Guarded P node env since K) (hnode : node.Consistent)
    (desired fuel : Nat) : Triple K (catchUp P node env desired fuel) (fun _ => K) K := by
  induction fuel with
  | zero => exact Triple.throw fun _ hpre => hpre
  | succ fuel ih =>
      have hget : Triple K (get : HarvesterM Harvester) (fun h k => h = k ∧ K k) K :=
        Triple.get fun _ hpre => ⟨rfl, hpre⟩
      refine Triple.bind hget fun h => ?_
      cases hcursor : h.lastProcessedBlock with
      | none => exact Triple.pure fun _ hpre => hpre.2
      | some prevBlock =>
          simp only
          split
          · exact Triple.pure fun _ hpre => hpre.2
          · have hscan := scanBlock_triple hnode (hK.steady.and (cursor_steady (some prevBlock)))
              (fun k hk => hK.since_le k hk.1) env (prevBlock.header.height + 1)
            refine Triple.bind (hscan.weaken ?_ (fun _ _ hpost => hpost)
              fun _ hfail => hfail.1) fun block => ?_
            · rintro k ⟨rfl, hk⟩
              exact ⟨hk, hcursor⟩
            · exact Triple.bind (hK.extend hnode fuel prevBlock block) fun _ =>
                Triple.bind (Triple.modify fun _ hk => hk) fun _ => ih

theorem harvest (hK : Guarded P node env since K) (hnode : node.Consistent) (fuel : Nat) :
    Triple K (harvest P node env fuel) (fun _ => K) K := by
  have hget : Triple K (get : HarvesterM Harvester) (fun h k => K k ∧ h.Aligned k) K :=
    Triple.get fun _ hpre => ⟨hpre, rfl, rfl, rfl⟩
  refine Triple.bind hget fun h => ?_
  refine Triple.bind ((hK.desiredHeight (aligned_steady h) h.endHeight).weaken
    (fun _ hk => hk) (fun _ _ hpost => hpost) fun _ hfail => hfail.1) fun desired => ?_
  split
  · next hnone =>
      refine Triple.bind ((hK.processFirst hnode desired).weaken ?_ (fun _ _ hpost => hpost)
        fun _ hfail => hfail) fun _ => hK.catchUp hnode desired fuel
      rintro k ⟨⟨hk, _, hend, hcursor⟩, hdesired⟩
      exact ⟨hk, hcursor.trans (Option.isNone_iff_eq_none.mp hnone), hend ▸ hdesired⟩
  · exact (hK.catchUp hnode desired fuel).weaken (fun _ hpre => hpre.1.1)
      (fun _ _ hpost => hpost) fun _ hfail => hfail

theorem harvestRetrying (hK : Guarded P node env since K) (hnode : node.Consistent)
    (fuel : Nat) : Triple K (harvestRetrying P node env fuel) (fun _ => K) K :=
  Triple.retrying (hK.harvest hnode fuel)

/-- A run of the loop, given that its commands keep the property too. -/
theorem start (hK : Guarded P node env since K) (hnode : node.Consistent) (turns : List Turn)
    (hobey : ∀ command, Turn.command command ∈ turns →
      Triple K (obey node env command) (fun _ => K) K) :
    Triple K (start P node env turns) (fun _ => K) K := by
  induction turns with
  | nil => exact Triple.pure fun _ hpre => hpre
  | cons turn rest ih =>
      have hrest := ih fun command hmem => hobey command (List.mem_cons_of_mem turn hmem)
      cases turn with
      | harvest fuel => exact Triple.bind (hK.harvestRetrying hnode fuel) fun _ => hrest
      | command command =>
          have hfirst := hobey command List.mem_cons_self
          cases command with
          | terminate => exact Triple.pure fun _ hpre => hpre
          | scanBlock first last => exact Triple.bind hfirst fun _ => hrest
          | pause => exact Triple.bind hfirst fun _ => hrest
          | autoScan => exact Triple.bind hfirst fun _ => hrest

end Guarded

theorem catchUp_arrives {P : Processor} {node : Node} {env : DbEnv} {desired fuel : Nat}
    {h k : Harvester} (hrun : catchUp P node env desired fuel h = .ok () k)
    (hcursor : h.lastProcessedBlock.isSome) :
    ∃ block, k.lastProcessedBlock = some block ∧ desired ≤ block.header.height := by
  induction fuel generalizing h with
  | zero => cases hrun
  | succ fuel ih =>
      obtain ⟨prevBlock, hprev⟩ := Option.isSome_iff_exists.mp hcursor
      by_cases hdone : desired ≤ prevBlock.header.height
      · rw [catchUp_done hprev hdone] at hrun
        cases hrun
        exact ⟨prevBlock, hprev, hdone⟩
      · rw [catchUp_step hprev hdone] at hrun
        obtain ⟨block, h₁, _, hrun⟩ := bind_eq_ok.mp hrun
        obtain ⟨_, h₂, _, hrun⟩ := bind_eq_ok.mp hrun
        obtain ⟨_, h₃, hmove, hrun⟩ := bind_eq_ok.mp hrun
        cases hmove
        exact ih hrun rfl

theorem lift_eq_ok {α : Type} {variant : ProcessorError → HarvesterError} {x : ProcessorM α}
    {h k : Harvester} {a : α} : lift variant x h = .ok a k ↔
      ∃ w, x h.world = .ok a w ∧ k = { h with world := w } := by
  simp only [lift]
  cases hx : x h.world with
  | ok b w =>
      constructor
      · intro hrun
        cases hrun
        exact ⟨w, rfl, rfl⟩
      · rintro ⟨w', hok, rfl⟩
        cases hok
        rfl
  | error e w => simp

theorem lift_error {α : Type} {variant : ProcessorError → HarvesterError} {x : ProcessorM α}
    {h k : Harvester} {e : HarvesterError} (herror : lift variant x h = .error e k) :
    ∃ cause w, x h.world = .error cause w ∧ e = .wrap variant cause := by
  simp only [lift] at herror
  cases hx : x h.world with
  | ok a w =>
      rw [hx] at herror
      cases herror
  | error cause w =>
      rw [hx] at herror
      cases herror
      exact ⟨cause, w, rfl, rfl⟩

theorem desiredHeight_ok {node : Node} {env : DbEnv} {endHeight : Option Nat} {desired : Nat}
    {h k : Harvester} (hrun : desiredHeight node env endHeight h = .ok desired k) :
    node.Desires h.world.clock k.world.clock endHeight desired ∧ h.Aligned k := by
  cases endHeight with
  | some height =>
      cases hrun
      exact ⟨rfl, rfl, rfl, rfl⟩
  | none =>
      obtain ⟨w, hcall, rfl⟩ := lift_eq_ok.mp hrun
      exact ⟨rpc_desires (Nat.le_refl _) hcall, rfl, rfl, rfl⟩

theorem desiredHeight_ticks {node : Node} {env : DbEnv} {endHeight : Option Nat} {desired : Nat}
    {h k : Harvester} (hrun : desiredHeight node env endHeight h = .ok desired k) :
    h.world.clock ≤ k.world.clock := by
  cases endHeight with
  | some height =>
      cases hrun
      exact Nat.le_refl _
  | none =>
      obtain ⟨w, hcall, rfl⟩ := lift_eq_ok.mp hrun
      obtain ⟨_, rfl⟩ := rpc_ok hcall
      exact Nat.le_succ _

theorem runJob_ok {P : Processor} {env : DbEnv} {job : Job} {h k : Harvester}
    (hrun : runJob P env job h = .ok () k) :
    ∃ w, job.run P env h.world = .ok () w ∧ k = h.record job w true := by
  simp only [runJob] at hrun
  cases hjob : job.run P env h.world with
  | ok a w =>
      rw [hjob] at hrun
      cases hrun
      exact ⟨w, rfl, rfl⟩
  | error e w =>
      rw [hjob] at hrun
      cases hrun

theorem runJob_error {P : Processor} {env : DbEnv} {job : Job} {h k : Harvester}
    {e : HarvesterError} (herror : runJob P env job h = .error e k) :
    ∃ cause w, job.run P env h.world = .error cause w ∧ e = .wrap job.variant cause ∧
      k = h.record job w false := by
  simp only [runJob] at herror
  cases hjob : job.run P env h.world with
  | ok a w =>
      rw [hjob] at herror
      cases herror
  | error cause w =>
      rw [hjob] at herror
      cases herror
      exact ⟨cause, w, rfl, rfl, rfl⟩

theorem processFirst_arrives {P : Processor} {node : Node} {env : DbEnv} {desired : Nat}
    {h k : Harvester} (hrun : processFirst P node env desired h = .ok () k) :
    k.lastProcessedBlock.isSome := by
  rw [processFirst_apply] at hrun
  obtain ⟨last, h₁, _, hrun⟩ := bind_eq_ok.mp hrun
  obtain ⟨block, h₂, _, hrun⟩ := bind_eq_ok.mp hrun
  obtain ⟨_, h₃, hmove, hrun⟩ := bind_eq_ok.mp hrun
  cases hmove
  obtain ⟨w, _, rfl⟩ := runJob_ok hrun
  rfl

theorem catchUp_stays {P : Processor} {node : Node} {env : DbEnv} {desired fuel : Nat}
    {h k : Harvester} {block : BlockInfo} (hrun : catchUp P node env desired fuel h = .ok () k)
    (hcursor : h.lastProcessedBlock = some block) (hdone : desired ≤ block.header.height) :
    k.lastProcessedBlock = some block := by
  cases fuel with
  | zero => cases hrun
  | succ fuel =>
      rw [catchUp_done hcursor hdone] at hrun
      cases hrun
      exact hcursor

/-- A round that returns has its cursor at or above the height it was to end at, and where it
was if it was there already. -/
theorem harvest_arrives {P : Processor} {node : Node} {env : DbEnv} (hnode : node.Consistent)
    {fuel : Nat} {h k : Harvester} (hrun : harvest P node env fuel h = .ok () k) :
    ∃ desired block, node.Desires h.world.clock k.world.clock h.endHeight desired ∧
      k.lastProcessedBlock = some block ∧ desired ≤ block.header.height ∧
      ∀ old, h.lastProcessedBlock = some old → desired ≤ old.header.height → block = old := by
  rw [harvest_apply] at hrun
  obtain ⟨desired, h₁, hdesired, hrun⟩ := bind_eq_ok.mp hrun
  obtain ⟨hdesires, _, hend, hsame⟩ := desiredHeight_ok hdesired
  have hguard := (clock_stepwise P node env h.world.clock h₁.world.clock).timed
  have hbegin : h.world.clock ≤ h₁.world.clock ∧ h₁.world.clock ≤ h₁.world.clock :=
    ⟨desiredHeight_ticks hdesired, Nat.le_refl _⟩
  cases hcursor : h.lastProcessedBlock with
  | none =>
      rw [hcursor] at hrun hsame
      obtain ⟨_, h₂, hfirst, hrest⟩ := bind_eq_ok.mp hrun
      have hmiddle := (hguard.processFirst hnode desired).of_ok
        ⟨hbegin, hsame, hend.symm ▸ hdesires⟩ hfirst
      have hclock := (hguard.catchUp hnode desired fuel).of_ok hmiddle hrest
      obtain ⟨block, hblock, hle⟩ := catchUp_arrives hrest (processFirst_arrives hfirst)
      exact ⟨desired, block, hdesires.mono hclock.2, hblock, hle, fun _ hold => nomatch hold⟩
  | some old =>
      rw [hcursor] at hrun hsame
      have hrun : catchUp P node env desired fuel h₁ = .ok () k := hrun
      have hclock := (hguard.catchUp hnode desired fuel).of_ok hbegin hrun
      obtain ⟨block, hblock, hle⟩ := catchUp_arrives hrun (by rw [hsame]; rfl)
      refine ⟨desired, block, hdesires.mono hclock.2, hblock, hle, fun other hother hdone => ?_⟩
      cases hother
      rw [catchUp_stays hrun hsame hdone] at hblock
      exact (Option.some.inj hblock).symm

theorem obey_scanBlock_apply (node : Node) (env : DbEnv) (first last : Nat) (h : Harvester) :
    obey node env (.scanBlock first last) h =
      match node.scanBlock env.attended first h.world with
      | .ok block w => .ok ()
          { raiseStartHeight first h with
            world := w
            endHeight := some last
            lastProcessedBlock := some block
            history := h.history ++ [.scanFrom block w] }
      | .error e w => .error (.wrap .client e) { raiseStartHeight first h with world := w } := by
  have hobey : obey node env (.scanBlock first last) h =
      (lift .client (node.scanBlock env.attended first) >>= fun block =>
        (do modify (fun h => { h with history := h.history ++ [.scanFrom block h.world] })
            setLastProcessedBlock block
            modify (fun h => { h with endHeight := some last }) : HarvesterM Unit))
        (raiseStartHeight first h) := by
    simp only [obey, scanFrom, bind_assoc]
    rfl
  rw [hobey]
  cases hscan : node.scanBlock env.attended first h.world with
  | ok block w =>
      have hlift : lift .client (node.scanBlock env.attended first) (raiseStartHeight first h) =
          .ok block { raiseStartHeight first h with world := w } :=
        lift_eq_ok.mpr ⟨w, hscan, rfl⟩
      rw [bind_of_ok hlift]
      rfl
  | error e w =>
      have hsame : (raiseStartHeight first h).world = h.world := rfl
      have hlift : lift .client (node.scanBlock env.attended first) (raiseStartHeight first h) =
          .error (.wrap .client e) { raiseStartHeight first h with world := w } := by
        simp only [lift, hsame, hscan]
      rw [bind_of_error hlift]

/-- The bounds of a scan play no part. -/
def Boundless (K : Harvester → Prop) : Prop :=
  ∀ h first last, K h → K { h with startHeight := first, endHeight := last }

theorem Boundless.modify {K : Harvester → Prop} (hK : Boundless K) {f : Harvester → Harvester}
    (hf : ∀ h, ∃ first last, f h = { h with startHeight := first, endHeight := last }) :
    Triple K (modify f : HarvesterM Unit) (fun _ => K) K := by
  refine Triple.modify fun h hpre => ?_
  obtain ⟨first, last, hbounds⟩ := hf h
  rw [hbounds]
  exact hK h first last hpre

section Commands

variable {node : Node} {env : DbEnv} {K : Harvester → Prop}

theorem obey_pause (hK : Boundless K) :
    Triple K (obey node env .pause) (fun _ => K) K := hK.modify fun h => ⟨h.startHeight, _, rfl⟩

theorem obey_autoScan (hK : Boundless K) :
    Triple K (obey node env .autoScan) (fun _ => K) K :=
  hK.modify fun h => ⟨h.startHeight, none, rfl⟩

theorem obey_scanBlock (hnode : node.Consistent) (hsteady : Steady K) (hK : Boundless K)
    {since : Nat} (hsince : ∀ h, K h → since ≤ h.world.clock) (first last : Nat)
    (hscanned : ∀ h block, K h → node.Shows since h.world.clock first block →
      K (({ h with history := h.history ++ [.scanFrom block h.world] } : Harvester).moveTo
        block)) : Triple K (obey node env (.scanBlock first last)) (fun _ => K) K := by
  have hscan : Triple K (scanFrom node env first) (fun _ => K) K := by
    refine Triple.bind (hK.modify fun h => ⟨_, h.endHeight, rfl⟩) fun _ => ?_
    refine Triple.bind (scanBlock_triple hnode hsteady hsince env.attended first) fun block => ?_
    have hrecord : Triple (fun h => K h ∧ node.Shows since h.world.clock first block)
        (modify (fun h => { h with history := h.history ++ [.scanFrom block h.world] }) :
          HarvesterM Unit) (fun _ h => K (h.moveTo block)) K :=
      Triple.modify fun h hpre => hscanned h block hpre.1 hpre.2
    exact Triple.bind hrecord fun _ => Triple.modify fun _ hpre => hpre
  exact Triple.bind hscan fun _ => hK.modify fun h => ⟨h.startHeight, some last, rfl⟩

theorem obey_command (hnode : node.Consistent) (hsteady : Steady K) (hK : Boundless K)
    {since : Nat} (hsince : ∀ h, K h → since ≤ h.world.clock) (command : Command)
    (hscanned : ∀ first last, command = .scanBlock first last → ∀ h block, K h →
      node.Shows since h.world.clock first block →
        K (({ h with history := h.history ++ [.scanFrom block h.world] } : Harvester).moveTo
          block)) : Triple K (obey node env command) (fun _ => K) K := by
  cases command with
  | terminate => exact Triple.pure fun _ hpre => hpre
  | scanBlock first last =>
      exact obey_scanBlock hnode hsteady hK hsince first last (hscanned first last rfl)
  | pause => exact obey_pause hK
  | autoScan => exact obey_autoScan hK

end Commands

end BtcIndexer
