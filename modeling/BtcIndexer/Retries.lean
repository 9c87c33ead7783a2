import BtcIndexer.LiveRules

/-! What ends the loop. Errors of the client are retried wherever a round meets them. A scan by
command is outside the round, and there an unanswered call ends the loop; and a round that finds
the head of a fork among the rows has no fork to replay and panics. -/
namespace BtcIndexer
open Stateful Outbox Rows

/-- The node answers the three calls for the block of a height, one tick after the other. -/
def Node.Answers (node : Node) (t number : Nat) : Prop :=
  ∃ hash header txdata, node.getBlockHash t number = .ok hash ∧
    node.getBlockHeader (t + 1) hash = .ok header ∧ node.getBlock (t + 1) hash = .ok txdata

/-- A block that does not extend the cursor turns out to be stored itself, or to claim the
height of the first block, when the walk over its parents sets out. -/
structure StoredHead (env : DbEnv) (prevBlock block : BlockInfo) (h : Harvester) : Prop where
  fork : ∃ prev, block.header.previousBlockHash = some prev ∧ prevBlock.header.hash ≠ prev
  arrived : h.world.store.Arrived block
  undisturbed : block.header.height ≠ 0 → env.interrupted h.world.clock = false

/-- The loop of a round comes upon such a block. -/
def FindsStored (P : Processor) (node : Node) (env : DbEnv) (desiredHeight : Nat) :
    Nat → Harvester → Prop
  | 0, _ => False
  | fuel + 1, h => ∃ prevBlock block k, h.lastProcessedBlock = some prevBlock ∧
      prevBlock.header.height < desiredHeight ∧
      lift .client (node.scanBlock env (prevBlock.header.height + 1)) h = .ok block k ∧
      (fuel ≠ 0 ∧ StoredHead env prevBlock block k ∨
        ∃ k', extend P node env fuel prevBlock block k = .ok () k' ∧
          FindsStored P node env desiredHeight fuel (k'.moveTo block))

/-- What a round goes through before its loop: the height to end at and, without a cursor, the
first block. -/
def beginRound (P : Processor) (node : Node) (env : DbEnv) : HarvesterM Nat := do
  let h ← get
  let desired ← desiredHeight node env h.endHeight
  if h.lastProcessedBlock.isNone then
    processFirst P node env desired
  pure desired

/-- The round finds no stored head. -/
def HarmlessRound (P : Processor) (node : Node) (env : DbEnv) (fuel : Nat) (h : Harvester) :
    Prop :=
  ∀ desired k, beginRound P node env h = .ok desired k → ¬ FindsStored P node env desired fuel k

/-- A scan by command is answered. -/
def Command.Answered (node : Node) (h : Harvester) : Command → Prop
  | .scanBlock first _ => node.Answers h.world.clock first
  | .pause | .autoScan | .terminate => True

/-- The loop goes on after this moment. -/
def Moment.Harmless (P : Processor) (node : Node) (env : DbEnv) (h : Harvester) : Moment → Prop
  | .round fuel => HarmlessRound P node env.attended fuel h
  | .between command => command.Answered node h
  | .dropped fuel await lands command =>
      HarmlessRound P node (env.cutAt (h.world.clock + await)) fuel h ∧
      command.Answered node (final (cutRound P node env fuel await lands h))

def Entry.committed : Entry → Bool
  | .call _ _ _ committed => committed
  | .scanFrom _ _ => true

/-- Every call to the processor after the first so many went through, unless a command cut it
short. -/
def Harvester.Processed (P : Processor) (env : DbEnv) (earlier : Nat) (h : Harvester) : Prop :=
  ∀ job before after, Entry.call job before after false ∈ h.history.drop earlier →
    job.run P env before = .error .interrupted after

/-- Every call that a round of this moment makes went through, unless the command cut it short. -/
def Moment.Processed (P : Processor) (node : Node) (env : DbEnv) (h : Harvester) : Moment → Prop
  | .round fuel => (final (harvest P node env.attended fuel h)).Processed P env.attended
      h.history.length
  | .between _ => True
  | .dropped fuel await _ _ =>
      (final (harvest P node (env.cutAt (h.world.clock + await)) fuel h)).Processed P
        (env.cutAt (h.world.clock + await)) h.history.length

theorem Harvester.Processed.earlier {P : Processor} {env : DbEnv} {n : Nat} {h h' : Harvester}
    (hprocessed : h'.Processed P env n) (hgrows : h.history <+: h'.history) :
    h.Processed P env n := by
  obtain ⟨entries, hentries⟩ := hgrows
  intro job before after hmem
  refine hprocessed job before after ?_
  rw [← hentries, List.drop_append]
  exact List.mem_append_left _ hmem

theorem Harvester.processed_of_committed {P : Processor} {env : DbEnv} {n : Nat} {h : Harvester}
    (hall : (h.history.drop n).all Entry.committed = true) : h.Processed P env n := by
  intro job before after hmem
  cases List.all_eq_true.mp hall _ hmem

/-- If the computation fails, the loop goes on. -/
def Spares {α : Type} (x : HarvesterM α) (h : Harvester) : Prop :=
  ∀ e k, x h = .error e k → e.retriable = true

theorem spares_of_ok {α : Type} {x : HarvesterM α} {h k : Harvester} {a : α}
    (hrun : x h = .ok a k) : Spares x h := by
  intro e k' herror
  rw [hrun] at herror
  cases herror

theorem spares_bind_of_ok {α β : Type} {x : HarvesterM α} {f : α → HarvesterM β}
    {h k : Harvester} {a : α} (hrun : x h = .ok a k) : Spares (x >>= f) h ↔ Spares (f a) k := by
  unfold Spares
  rw [bind_of_ok hrun]

theorem spares_bind_of_error {α β : Type} {x : HarvesterM α} {f : α → HarvesterM β}
    {h k : Harvester} {e : HarvesterError} (hrun : x h = .error e k) (he : e.retriable = true) :
    Spares (x >>= f) h := by
  intro e' k' herror
  rw [bind_of_error hrun] at herror
  cases herror
  exact he

theorem Spares.bind {α β : Type} {x : HarvesterM α} {f : α → HarvesterM β} {h : Harvester}
    (hx : Spares x h) (hf : ∀ a k, x h = .ok a k → Spares (f a) k) : Spares (x >>= f) h := by
  cases hrun : x h with
  | error e k => exact spares_bind_of_error hrun (hx e k hrun)
  | ok a k => exact (spares_bind_of_ok hrun).mpr (hf a k hrun)

theorem returned_retrying (x : HarvesterM Unit) (h : Harvester) :
    returned (retrying HarvesterError.retriable x h) = true ↔ Spares x h := by
  unfold retrying Spares
  cases hrun : x h with
  | ok a k => simp [returned]
  | error e k => cases he : e.retriable <;> simp [returned, he]

section Steps

variable {P : Processor} {node : Node} {env : DbEnv} {n : Nat}

theorem rpc_error {α : Type} {call : Nat → Except RpcError α}
    {w w' : World Store AggregatorMsg} {e : ProcessorError} (h : rpc env call w = .error e w') :
    (HarvesterError.wrap .client e).retriable = true := by
  simp only [rpc] at h
  split at h
  · cases h
    rfl
  · cases hcall : call w.clock with
    | error e => rw [hcall] at h; cases h; rfl
    | ok a => rw [hcall] at h; cases h

theorem scanBlock_error {number : Nat} {w w' : World Store AggregatorMsg} {e : ProcessorError}
    (h : node.scanBlock env number w = .error e w') :
    (HarvesterError.wrap .client e).retriable = true := by
  rcases bind_eq_error.mp h with hfirst | ⟨hash, w₁, _, hrest⟩
  · exact rpc_error hfirst
  · exact rpc_error hrest

/-- With the database up a query only fails when a command cuts it short. -/
theorem query_error (hdb : ∀ t, env.sqlFails t = false) {α : Type} {q : Store → α}
    {w w' : World Store AggregatorMsg} {e : ProcessorError}
    (h : query env.faults (fun s => .ok (q s)) w.store w = .error e w') : e = .interrupted := by
  simp only [query, DbEnv.faults, hdb, Bool.or_false] at h
  split at h
  · cases h
    rfl
  · cases h

theorem lift_spares {α : Type} {variant : ProcessorError → HarvesterError} {x : ProcessorM α}
    {h : Harvester} (hx : ∀ e w, x h.world = .error e w →
      (HarvesterError.wrap variant e).retriable = true) : Spares (lift variant x) h := by
  intro e k herror
  obtain ⟨cause, w, hrun, rfl⟩ := lift_error herror
  exact hx cause w hrun

theorem scan_spares (number : Nat) (h : Harvester) :
    Spares (lift .client (node.scanBlock env number)) h :=
  lift_spares fun _ _ hrun => scanBlock_error hrun

theorem query_spares (hdb : ∀ t, env.sqlFails t = false) {α : Type} (q : Store → α)
    (variant : ProcessorError → HarvesterError) (h : Harvester) :
    Spares (lift variant fun w => query env.faults (fun s => .ok (q s)) w.store w) h :=
  lift_spares fun e w hrun => by rw [query_error hdb hrun]; rfl

theorem isAncestor_spares (hdb : ∀ t, env.sqlFails t = false) (block : BlockInfo)
    (h : Harvester) : Spares (isAncestor env block) h := by
  unfold isAncestor
  split
  · exact spares_of_ok rfl
  · exact query_spares hdb _ .other h

theorem getForkBlocks_spares (hdb : ∀ t, env.sqlFails t = false) (fuel : Nat)
    (block : BlockInfo) (h : Harvester) : Spares (getForkBlocks node env fuel block) h := by
  induction fuel generalizing block h with
  | zero =>
      intro e k herror
      cases herror
      rfl
  | succ fuel ih =>
      refine (isAncestor_spares hdb block h).bind fun found k _ => ?_
      cases found with
      | true => exact spares_of_ok rfl
      | false =>
          simp only [Bool.false_eq_true, if_false]
          cases block.header.previousBlockHash with
          | none => exact spares_of_ok rfl
          | some parentHash =>
              have hscan : Spares (lift .client (node.scanBlockByHash env parentHash)) k :=
                lift_spares fun _ _ hrun => rpc_error hrun
              refine hscan.bind fun parent k' _ => ?_
              exact (ih parent k').bind fun rest k'' _ => spares_of_ok rfl

/-- The head of a walk passes the test for a common ancestor exactly if there is nothing to
replay. -/
theorem getForkBlocks_nil {fuel : Nat} {block : BlockInfo} {h k : Harvester}
    {blocks : List BlockInfo} (hrun : getForkBlocks node env (fuel + 1) block h = .ok blocks k) :
    blocks = [] ↔ ∃ k', isAncestor env block h = .ok true k' := by
  obtain ⟨found, k₁, hfound, hrest⟩ := bind_eq_ok.mp hrun
  cases found with
  | true =>
      cases hrest
      exact ⟨fun _ => ⟨_, hfound⟩, fun _ => rfl⟩
  | false =>
      have hne : blocks ≠ [] := by
        simp only [Bool.false_eq_true, if_false] at hrest
        cases hprev : block.header.previousBlockHash with
        | none =>
            rw [hprev] at hrest
            cases hrest
            exact List.cons_ne_nil _ _
        | some parentHash =>
            rw [hprev] at hrest
            obtain ⟨parent, k₂, _, hrest⟩ := bind_eq_ok.mp hrest
            obtain ⟨rest, k₃, _, hcons⟩ := bind_eq_ok.mp hrest
            cases hcons
            exact List.cons_ne_nil _ _
      refine ⟨fun hnil => absurd hnil hne, ?_⟩
      rintro ⟨k', htrue⟩
      rw [hfound] at htrue
      cases htrue

theorem isAncestor_true (hdb : ∀ t, env.sqlFails t = false) {block : BlockInfo}
    {h : Harvester} : (∃ k, isAncestor env block h = .ok true k) ↔
      h.world.store.Arrived block ∧
        (block.header.height ≠ 0 → env.interrupted h.world.clock = false) := by
  unfold isAncestor Store.Arrived
  by_cases hzero : block.header.height = 0
  · rw [if_pos hzero]
    exact ⟨fun _ => ⟨.inl hzero, fun hne => absurd hzero hne⟩, fun _ => ⟨h, rfl⟩⟩
  · rw [if_neg hzero]
    simp only [lift, Processor.isProcessed, query, DbEnv.faults, hdb, Bool.or_false]
    cases hcut : env.interrupted h.world.clock with
    | true => simp [hzero]
    | false => simp [hzero, Store.hasBlock]

theorem grown {α : Type} {x : HarvesterM α} {h k : Harvester} {a : α}
    (hx : Moves (fun h h' => h.history <+: h'.history) x) (hrun : x h = .ok a k)
    (hn : n ≤ h.history.length) : n ≤ k.history.length :=
  Nat.le_trans hn (hx.of_ok hrun).length_le

theorem runJob_spares {job : Job} {h : Harvester} (hn : n ≤ h.history.length)
    (hprocessed : (final (runJob P env job h)).Processed P env n) :
    Spares (runJob P env job) h := by
  intro e k herror
  rw [herror, final_error] at hprocessed
  obtain ⟨cause, w, hrun, rfl, rfl⟩ := runJob_error herror
  have hlast : Entry.call job h.world w false ∈
      (h.history ++ [Entry.call job h.world w false]).drop n := by
    rw [List.drop_append_of_le_length hn]
    exact List.mem_append_right _ List.mem_cons_self
  have hcut := hprocessed job h.world w hlast
  rw [hrun] at hcut
  cases hcut
  rfl

/-- A fork is replayed or retried, unless its head is stored. -/
theorem handleReorg_spares (hdb : ∀ t, env.sqlFails t = false) {fuel : Nat}
    {block : BlockInfo} {h : Harvester} (hn : n ≤ h.history.length)
    (hprocessed : (final (handleReorg P node env fuel block h)).Processed P env n) :
    Spares (handleReorg P node env fuel block) h ↔
      ¬ (fuel ≠ 0 ∧ ∃ k, isAncestor env block h = .ok true k) := by
  cases hwalk : getForkBlocks node env fuel block h with
  | error e k =>
      have he := getForkBlocks_spares hdb fuel block h e k hwalk
      refine ⟨fun _ hfound => ?_, fun _ => spares_bind_of_error hwalk he⟩
      obtain ⟨hfuel, k', hfound⟩ := hfound
      obtain ⟨fuel, rfl⟩ := Nat.exists_eq_succ_of_ne_zero hfuel
      have hnil : getForkBlocks node env (fuel + 1) block h = .ok [] k' := bind_of_ok hfound
      rw [hwalk] at hnil
      cases hnil
  | ok blocks k =>
      have hrun : handleReorg P node env fuel block h = _ := bind_of_ok hwalk
      unfold Spares
      rw [hrun] at hprocessed ⊢
      cases fuel with
      | zero => cases hwalk
      | succ fuel =>
          have hnil := getForkBlocks_nil hwalk
          by_cases hblocks : blocks = []
          · refine ⟨fun hspares => ?_,
              fun hnot => absurd ⟨Nat.succ_ne_zero _, hnil.mp hblocks⟩ hnot⟩
            have hpanic := hspares (.panic "blocks should exist. qed") k
              (by rw [if_pos hblocks]; rfl)
            cases hpanic
          · rw [if_neg hblocks] at hprocessed ⊢
            have hk : n ≤ k.history.length :=
              grown ((history_respected P env).getForkBlocks (fuel + 1) block) hwalk hn
            exact ⟨fun _ hfound => hblocks (hnil.mpr hfound.2),
              fun _ => runJob_spares hk hprocessed⟩

theorem extend_spares (hdb : ∀ t, env.sqlFails t = false) {fuel : Nat}
    {prevBlock block : BlockInfo} {h : Harvester} (hn : n ≤ h.history.length)
    (hprocessed : (final (extend P node env fuel prevBlock block h)).Processed P env n) :
    Spares (extend P node env fuel prevBlock block) h ↔
      ¬ (fuel ≠ 0 ∧ StoredHead env prevBlock block h) := by
  unfold extend at hprocessed ⊢
  cases hprev : block.header.previousBlockHash with
  | none =>
      refine ⟨fun _ hfound => ?_, fun _ => spares_of_ok rfl⟩
      obtain ⟨prev, hsome, _⟩ := hfound.2.fork
      rw [hprev] at hsome
      cases hsome
  | some prev =>
      rw [hprev] at hprocessed
      simp only at hprocessed ⊢
      by_cases hsame : prevBlock.header.hash = prev
      · rw [if_pos hsame] at hprocessed ⊢
        refine ⟨fun _ hfound => ?_, fun _ => runJob_spares hn hprocessed⟩
        obtain ⟨other, hsome, hother⟩ := hfound.2.fork
        rw [hprev] at hsome
        cases hsome
        exact hother hsame
      · rw [if_neg hsame] at hprocessed ⊢
        rw [handleReorg_spares hdb hn hprocessed, isAncestor_true hdb]
        refine not_congr (and_congr_right fun _ => ?_)
        exact ⟨fun hfound => ⟨⟨prev, hprev, hsame⟩, hfound.1, hfound.2⟩,
          fun hfound => ⟨hfound.arrived, hfound.undisturbed⟩⟩

theorem advance_spares (hdb : ∀ t, env.sqlFails t = false) {desired fuel : Nat}
    {prevBlock block : BlockInfo} {h : Harvester} (hn : n ≤ h.history.length)
    (hrest : ∀ k, n ≤ k.history.length →
      (final (catchUp P node env desired fuel k)).Processed P env n →
        (Spares (catchUp P node env desired fuel) k ↔ ¬ FindsStored P node env desired fuel k))
    (hprocessed : (final ((extend P node env fuel prevBlock block >>= fun _ =>
      setLastProcessedBlock block >>= fun _ => catchUp P node env desired fuel) h)).Processed
        P env n) :
    Spares (extend P node env fuel prevBlock block >>= fun _ =>
        setLastProcessedBlock block >>= fun _ => catchUp P node env desired fuel) h ↔
      ¬ (fuel ≠ 0 ∧ StoredHead env prevBlock block h ∨
        ∃ k, extend P node env fuel prevBlock block h = .ok () k ∧
          FindsStored P node env desired fuel (k.moveTo block)) := by
  cases hextend : extend P node env fuel prevBlock block h with
  | error e k =>
      rw [bind_of_error hextend] at hprocessed
      have hspares := extend_spares hdb hn (hextend ▸ hprocessed)
      unfold Spares at hspares ⊢
      rw [bind_of_error hextend]
      rw [hextend] at hspares
      simpa using hspares
  | ok a k =>
      rw [bind_of_ok hextend] at hprocessed
      have hlater : k.history <+: (final (catchUp P node env desired fuel
          (k.moveTo block))).history :=
        (history_respected P env).catchUp desired fuel (k.moveTo block)
      have hearlier : (final (extend P node env fuel prevBlock block h)).Processed P env n := by
        rw [hextend]
        exact hprocessed.earlier hlater
      have hhead := (extend_spares hdb hn hearlier).mp (spares_of_ok hextend)
      rw [spares_bind_of_ok hextend]
      have hk : n ≤ k.history.length :=
        grown ((history_respected P env).extend fuel prevBlock block) hextend hn
      have hcontinue : Spares (setLastProcessedBlock block >>= fun _ =>
          catchUp P node env desired fuel) k ↔ _ := hrest (k.moveTo block) hk hprocessed
      rw [hcontinue]
      refine not_congr ⟨fun hfound => .inr ⟨k, rfl, hfound⟩, ?_⟩
      rintro (hstored | ⟨k', hk', hfound⟩)
      · exact absurd hstored hhead
      · cases hk'
        exact hfound

/-- The loop of a round ends in an error to retry, unless it comes upon a stored head. -/
theorem catchUp_spares (hdb : ∀ t, env.sqlFails t = false) {desired fuel : Nat} {h : Harvester}
    (hn : n ≤ h.history.length)
    (hprocessed : (final (catchUp P node env desired fuel h)).Processed P env n) :
    Spares (catchUp P node env desired fuel) h ↔ ¬ FindsStored P node env desired fuel h := by
  induction fuel generalizing h with
  | zero =>
      refine ⟨fun _ hfound => hfound, fun _ e k herror => ?_⟩
      cases herror
      rfl
  | succ fuel ih =>
      cases hcursor : h.lastProcessedBlock with
      | none => simp [FindsStored, hcursor, spares_of_ok (catchUp_none hcursor)]
      | some prevBlock =>
          by_cases hdone : desired ≤ prevBlock.header.height
          · simp [FindsStored, hcursor, Nat.not_lt_of_le hdone,
              spares_of_ok (catchUp_done hcursor hdone)]
          · have hstep : catchUp P node env desired (fuel + 1) h = _ :=
              catchUp_step hcursor hdone
            unfold Spares
            rw [hstep] at hprocessed ⊢
            cases hscan : lift .client (node.scanBlock env (prevBlock.header.height + 1)) h with
            | error e k =>
                have hspares := spares_bind_of_error hscan (scan_spares _ h e k hscan)
                  (f := fun block => extend P node env fuel prevBlock block >>= fun _ =>
                    setLastProcessedBlock block >>= fun _ => catchUp P node env desired fuel)
                simp only [FindsStored, hcursor, Option.some.injEq]
                refine ⟨fun _ hfound => ?_, fun _ => hspares⟩
                obtain ⟨_, block, k', rfl, _, hok, _⟩ := hfound
                rw [hscan] at hok
                cases hok
            | ok block k =>
                rw [bind_of_ok hscan] at hprocessed ⊢
                have hk : n ≤ k.history.length :=
                  grown ((history_respected P env).scanBlock env _) hscan hn
                refine (advance_spares hdb hk (fun k hk => ih hk) hprocessed).trans (not_congr ?_)
                simp [FindsStored, hcursor, Nat.lt_of_not_le hdone, hscan]

theorem beginRound_apply (h : Harvester) : beginRound P node env h =
    (desiredHeight node env h.endHeight >>= fun desired =>
      if h.lastProcessedBlock.isNone then
        (processFirst P node env desired >>= fun _ => pure desired) else pure desired) h := rfl

theorem Respected.beginRound {R : Harvester → Harvester → Prop} (hR : Respected P env R) :
    Moves R (beginRound P node env) := by
  refine hR.bind hR.get fun h => hR.bind (hR.desiredHeight h.endHeight) fun desired => ?_
  split
  · exact hR.bind (hR.processFirst desired) fun _ => hR.pure desired
  · exact hR.bind (hR.pure ()) fun _ => hR.pure desired

theorem harvest_eq (fuel : Nat) (h : Harvester) : harvest P node env fuel h =
    (beginRound P node env >>= fun desired => catchUp P node env desired fuel) h := by
  have hassoc : (beginRound P node env >>= fun desired => catchUp P node env desired fuel) h =
      ((desiredHeight node env h.endHeight >>= fun desired =>
        if h.lastProcessedBlock.isNone then
          (processFirst P node env desired >>= fun _ => pure desired) else pure desired) >>=
        fun desired => catchUp P node env desired fuel) h :=
    bind_congr_head (beginRound_apply h)
  rw [harvest_apply, hassoc, bind_assoc]
  refine bind_congr_of_ok fun desired k _ => ?_
  cases h.lastProcessedBlock.isNone with
  | true => simp only [if_true, bind_assoc, pure_bind]
  | false => simp only [Bool.false_eq_true, if_false, pure_bind]

theorem desiredHeight_spares (endHeight : Option Nat) (h : Harvester) :
    Spares (desiredHeight node env endHeight) h := by
  cases endHeight with
  | none => exact lift_spares fun _ _ hrun => rpc_error hrun
  | some height => exact spares_of_ok rfl

theorem processFirst_spares (hdb : ∀ t, env.sqlFails t = false) {desired : Nat} {h : Harvester}
    (hn : n ≤ h.history.length)
    (hprocessed : (final (processFirst P node env desired h)).Processed P env n) :
    Spares (processFirst P node env desired) h := by
  unfold Spares
  rw [processFirst_apply] at hprocessed ⊢
  have hlatest : Spares (lift .ofSqlx (Processor.latestBlockNum env)) h :=
    query_spares hdb Store.getLatestBlockNum .ofSqlx h
  refine hlatest.bind fun last k hlast => ?_
  rw [bind_of_ok hlast] at hprocessed
  refine (scan_spares (startNum last h.startHeight desired) k).bind fun block k' hscan => ?_
  rw [bind_of_ok hscan] at hprocessed
  have hk : n ≤ k.history.length :=
    grown ((history_respected P env).lift (query_reads _ _) (query_world_ticks _ _) .ofSqlx)
      hlast hn
  have hk' : n ≤ k'.history.length := grown ((history_respected P env).scanBlock env _) hscan hk
  exact runJob_spares (h := k'.moveTo block) hk' hprocessed

theorem beginRound_spares (hdb : ∀ t, env.sqlFails t = false) {h : Harvester}
    (hn : n ≤ h.history.length)
    (hprocessed : (final (beginRound P node env h)).Processed P env n) :
    Spares (beginRound P node env) h := by
  unfold Spares
  rw [beginRound_apply] at hprocessed ⊢
  refine (desiredHeight_spares h.endHeight h).bind fun desired k hdesired => ?_
  rw [bind_of_ok hdesired] at hprocessed
  cases hcursor : h.lastProcessedBlock.isNone with
  | false => exact spares_of_ok rfl
  | true =>
      rw [hcursor, if_pos rfl] at hprocessed
      rw [if_pos rfl]
      have hk : n ≤ k.history.length :=
        grown ((history_respected P env).desiredHeight h.endHeight) hdesired hn
      cases hfirst : processFirst P node env desired k with
      | error e k' =>
          rw [bind_of_error hfirst] at hprocessed
          exact spares_bind_of_error hfirst
            (processFirst_spares hdb hk (hfirst ▸ hprocessed) e k' hfirst)
      | ok a k' => exact (spares_bind_of_ok hfirst).mpr (spares_of_ok rfl)

/-- A round lets the loop go on exactly if its own loop comes upon no stored head. -/
theorem harvest_spares (hdb : ∀ t, env.sqlFails t = false) {fuel : Nat} {h : Harvester}
    (hn : n ≤ h.history.length)
    (hprocessed : (final (harvest P node env fuel h)).Processed P env n) :
    Spares (harvest P node env fuel) h ↔ HarmlessRound P node env fuel h := by
  unfold Spares HarmlessRound
  rw [harvest_eq] at hprocessed ⊢
  cases hbegin : beginRound P node env h with
  | error e k =>
      rw [bind_of_error hbegin] at hprocessed
      have he := beginRound_spares hdb hn (hbegin ▸ hprocessed) e k hbegin
      refine ⟨fun _ desired k' hok => ?_, fun _ => spares_bind_of_error hbegin he⟩
      cases hok
  | ok desired k =>
      rw [bind_of_ok hbegin] at hprocessed ⊢
      have hk : n ≤ k.history.length :=
        grown ((history_respected P env).beginRound) hbegin hn
      refine (catchUp_spares hdb hk hprocessed).trans ⟨fun hnot desired k' hok => ?_, fun hall =>
        hall desired k rfl⟩
      cases hok
      exact hnot

theorem rpc_attended {α : Type} (call : Nat → Except RpcError α)
    (w : World Store AggregatorMsg) : rpc env.attended call w =
      match call w.clock with
      | .ok a => .ok a w.tick
      | .error e => .error (.rpc e) w.tick := by
  cases hcall : call w.clock with
  | ok a => simp only [rpc, DbEnv.attended, Bool.false_eq_true, if_false, hcall]
  | error e => simp only [rpc, DbEnv.attended, Bool.false_eq_true, if_false, hcall]

theorem scanBlock_answered (number : Nat) (w : World Store AggregatorMsg) :
    returned (node.scanBlock env.attended number w) = true ↔ node.Answers w.clock number := by
  have hfirst : rpc env.attended (fun t => node.getBlockHash t number) w = _ := rpc_attended _ w
  unfold Node.Answers
  cases hhash : node.getBlockHash w.clock number with
  | error e =>
      rw [hhash] at hfirst
      have hrun : node.scanBlock env.attended number w = .error (.rpc e) w.tick :=
        bind_of_error hfirst
      simp [hrun, returned]
  | ok hash =>
      rw [hhash] at hfirst
      have hrun : node.scanBlock env.attended number w =
          node.scanBlockByHash env.attended hash w.tick := bind_of_ok hfirst
      rw [hrun]
      cases hheader : node.getBlockHeader (w.clock + 1) hash <;>
        cases hbody : node.getBlock (w.clock + 1) hash <;>
        simp [Node.scanBlockByHash, rpc_attended, hheader, hbody, returned]

/-- A scan by command is made outside the round: it goes through exactly if it is answered. -/
theorem scanBlock_returned (first last : Nat) (h : Harvester) :
    returned (obey node env (.scanBlock first last) h) = true ↔
      node.Answers h.world.clock first := by
  rw [← scanBlock_answered, obey_scanBlock_apply]
  cases node.scanBlock env.attended first h.world <;> rfl

theorem obey_returned (command : Command) (h : Harvester) :
    returned (obey node env command h) = true ↔ command.Answered node h := by
  cases command with
  | terminate => exact iff_of_true rfl trivial
  | pause => exact iff_of_true rfl trivial
  | autoScan => exact iff_of_true rfl trivial
  | scanBlock first last => exact scanBlock_returned first last h

theorem round_returned (hdb : ∀ t, env.sqlFails t = false) {fuel : Nat} {h : Harvester}
    (hprocessed : (final (harvest P node env fuel h)).Processed P env h.history.length) :
    returned (harvestRetrying P node env fuel h) = true ↔ HarmlessRound P node env fuel h := by
  rw [harvestRetrying, returned_retrying]
  exact harvest_spares hdb (Nat.le_refl _) hprocessed

/-- A commit that takes effect after the drop does not change whether the loop goes on. -/
theorem cutRound_returned (hdb : ∀ t, env.sqlFails t = false) {fuel await : Nat} {lands : Bool}
    {command : Command} {h : Harvester}
    (hprocessed : (Moment.dropped fuel await lands command).Processed P node env h) :
    returned (cutRound P node env fuel await lands h) = true ↔
      HarmlessRound P node (env.cutAt (h.world.clock + await)) fuel h := by
  have hup : ∀ t, (env.cutAt (h.world.clock + await)).sqlFails t = false := hdb
  have hround := round_returned hup hprocessed
  have hcut : cutRound P node env fuel await lands h =
      (harvestRetrying P node (env.cutAt (h.world.clock + await)) fuel >>= fun _ =>
        if lands then modify (land P env (h.world.clock + await)) else pure ()) h := rfl
  rw [← hround, hcut]
  cases hrun : harvestRetrying P node (env.cutAt (h.world.clock + await)) fuel h with
  | error e k => rw [bind_of_error hrun]
  | ok a k =>
      rw [bind_of_ok hrun]
      cases lands with
      | true => rfl
      | false => rfl

theorem moment_returned (hdb : ∀ t, env.sqlFails t = false) {moment : Moment} {h : Harvester}
    (hprocessed : moment.Processed P node env h) :
    returned (moment.run P node env h) = true ↔ moment.Harmless P node env h := by
  cases moment with
  | round fuel =>
      have hup : ∀ t, env.attended.sqlFails t = false := hdb
      exact round_returned hup hprocessed
  | between command => exact obey_returned command h
  | dropped fuel await lands command =>
      have hround := cutRound_returned hdb hprocessed
      have hharmless : (Moment.dropped fuel await lands command).Harmless P node env h ↔
          HarmlessRound P node (env.cutAt (h.world.clock + await)) fuel h ∧
            command.Answered node (final (cutRound P node env fuel await lands h)) := Iff.rfl
      have hrun : (Moment.dropped fuel await lands command).run P node env h =
          (cutRound P node env fuel await lands >>= fun _ => obey node env command) h := rfl
      rw [hrun, hharmless, ← hround]
      cases hcut : cutRound P node env fuel await lands h with
      | error e k =>
          rw [bind_of_error hcut]
          refine iff_of_false (fun hreturned => ?_) fun hboth => ?_
          · cases hreturned
          · cases hboth.1
      | ok a k =>
          rw [bind_of_ok hcut, obey_returned]
          exact ⟨fun hanswered => ⟨rfl, hanswered⟩, fun hboth => hboth.2⟩

end Steps

/-- With the database up and every block processed unless a command dropped it, and whatever the
node answers and whichever commands arrive at whatever moment, the loop does not return exactly if
every scan by command is answered and no round finds the head of a fork stored. -/
theorem live_running_iff (P : Processor) (node : Node) (env : DbEnv) (moments : List Moment)
    (world : World Store AggregatorMsg) (startHeight endHeight : Option Nat)
    (hopen : ∀ moment ∈ moments, moment.ends = false) (hdb : ∀ t, env.sqlFails t = false)
    (hprocessed : Throughout (Moment.Processed P node env) P node env moments
      (Harvester.new world startHeight endHeight)) :
    returned (live P node env moments (Harvester.new world startHeight endHeight)) = true ↔
      Throughout (Moment.Harmless P node env) P node env moments
        (Harvester.new world startHeight endHeight) := by
  generalize Harvester.new world startHeight endHeight = h at hprocessed ⊢
  induction moments generalizing h with
  | nil => exact iff_of_true rfl trivial
  | cons moment rest ih =>
      have hgoes := hopen moment List.mem_cons_self
      have hstep := moment_returned hdb hprocessed.1
      have hlive : live P node env (moment :: rest) h =
          (moment.run P node env >>= fun _ =>
            if moment.ends then pure () else live P node env rest) h := rfl
      have hall : Throughout (Moment.Harmless P node env) P node env (moment :: rest) h ↔
          moment.Harmless P node env h ∧ ∀ k, moment.run P node env h = .ok () k →
            moment.ends = false → Throughout (Moment.Harmless P node env) P node env rest k :=
        Iff.rfl
      rw [hlive, hgoes, hall, ← hstep]
      cases hrun : moment.run P node env h with
      | error e k =>
          rw [bind_of_error hrun]
          refine iff_of_false (fun hreturned => ?_) fun hall => ?_
          · cases hreturned
          · cases hall.1
      | ok a k =>
          rw [bind_of_ok hrun]
          have hrest := ih (fun m hm => hopen m (List.mem_cons_of_mem moment hm)) k
            (hprocessed.2 k hrun hgoes)
          refine hrest.trans ⟨fun hall => ⟨rfl, fun k' hok _ => ?_⟩, fun hall => hall.2 k rfl hgoes⟩
          cases hok
          exact hall

/-- All calls of the rounds of this moment went through. -/
def Moment.Committed (P : Processor) (node : Node) (env : DbEnv) (h : Harvester) : Moment → Bool
  | .round fuel => ((final (harvest P node env.attended fuel h)).history.drop
      h.history.length).all Entry.committed
  | .between _ => true
  | .dropped fuel await _ _ => ((final (harvest P node (env.cutAt (h.world.clock + await)) fuel
      h)).history.drop h.history.length).all Entry.committed

theorem Moment.processed_of_committed {P : Processor} {node : Node} {env : DbEnv} {h : Harvester}
    {moment : Moment} (hall : moment.Committed P node env h = true) :
    moment.Processed P node env h := by
  cases moment with
  | round fuel => exact Harvester.processed_of_committed hall
  | between command => trivial
  | dropped fuel await lands command => exact Harvester.processed_of_committed hall

def scannedMoments : List Moment :=
  [.between (.scanBlock 1 2), .dropped 5 1 false .pause, .between .autoScan, .round 3]

/-- A scan of what the node has, a pause in the middle of a round, and a round. -/
theorem live_running_scanned : Throughout (Moment.Harmless Processor.mainnet
    (Node.ofBlocks paidChain) DbEnv.calm) Processor.mainnet (Node.ofBlocks paidChain) DbEnv.calm
      scannedMoments freshHarvester := by
  have hcommitted : Throughout (fun h moment => moment.Committed Processor.mainnet
      (Node.ofBlocks paidChain) DbEnv.calm h = true) Processor.mainnet (Node.ofBlocks paidChain)
        DbEnv.calm scannedMoments freshHarvester := by decide +kernel
  have hrunning : returned (live Processor.mainnet (Node.ofBlocks paidChain) DbEnv.calm
      scannedMoments freshHarvester) = true := by decide +kernel
  rw [freshHarvester] at hcommitted hrunning ⊢
  exact (live_running_iff Processor.mainnet (Node.ofBlocks paidChain) DbEnv.calm scannedMoments
    _ _ _ (by decide) (fun _ => rfl)
      (hcommitted.mono fun _ _ => Moment.processed_of_committed)).mp hrunning

/-- A request to scan from above the tip ends the loop at once. -/
theorem scanned_beyond_tip : ∃ moments : List Moment,
    (∀ moment ∈ moments, moment.ends = false) ∧
    (∀ moment ∈ moments, ∀ first last, moment.command = some (.scanBlock first last) →
      first ≤ last) ∧
    (∀ t, DbEnv.calm.sqlFails t = false) ∧
    Throughout (Moment.Processed Processor.mainnet (Node.ofBlocks paidChain) DbEnv.calm)
      Processor.mainnet (Node.ofBlocks paidChain) DbEnv.calm moments freshHarvester ∧
    returned (live Processor.mainnet (Node.ofBlocks paidChain) DbEnv.calm moments
      freshHarvester) = false := by
  have hcommitted : Throughout (fun h moment => moment.Committed Processor.mainnet
      (Node.ofBlocks paidChain) DbEnv.calm h = true) Processor.mainnet (Node.ofBlocks paidChain)
        DbEnv.calm [.between (.scanBlock 5 6), .round 3] freshHarvester := by decide +kernel
  refine ⟨[.between (.scanBlock 5 6), .round 3], by decide, ?_, fun _ => rfl,
    hcommitted.mono fun _ _ => Moment.processed_of_committed, by decide +kernel⟩
  intro moment hmoment first last hcommand
  simp only [List.mem_cons, List.not_mem_nil, or_false] at hmoment
  rcases hmoment with rfl | rfl
  · cases hcommand
    decide
  · cases hcommand

end BtcIndexer
