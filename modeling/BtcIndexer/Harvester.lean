import BtcIndexer.Processor

/-! The harvester: it follows the tip of a node block by block, walks a fork back to a stored
block when the parent of a new block is not the block it processed last, and obeys commands.
Its loop drops the round in progress when a command arrives, at whichever await it stands. -/
namespace BtcIndexer
open Stateful Outbox Rows

/-- The node as the client sees it: the answer to each call at each tick. -/
structure Node where
  getBlockCount : Nat → Except RpcError Nat
  getBlockHash : Nat → Nat → Except RpcError BlockHash
  getBlockHeader : Nat → BlockHash → Except RpcError Header
  getBlock : Nat → BlockHash → Except RpcError (List Transaction)

def rpc {α : Type} (env : DbEnv) (call : Nat → Except RpcError α) : ProcessorM α := fun w =>
  if env.interrupted w.clock then .error .interrupted w.tick
  else match call w.clock with
    | .ok a => .ok a w.tick
    | .error e => .error (.rpc e) w.tick

namespace Node

def getTipNumber (node : Node) (env : DbEnv) : ProcessorM Nat := rpc env node.getBlockCount

/-- The two calls are awaited together. -/
def scanBlockByHash (node : Node) (env : DbEnv) (hash : BlockHash) : ProcessorM BlockInfo :=
  rpc env fun t => match node.getBlockHeader t hash, node.getBlock t hash with
    | .ok header, .ok txdata => .ok ⟨header, txdata⟩
    | .error e, _ => .error e
    | .ok _, .error e => .error e

def scanBlock (node : Node) (env : DbEnv) (number : Nat) : ProcessorM BlockInfo := do
  let hash ← rpc env (fun t => node.getBlockHash t number)
  node.scanBlockByHash env hash

end Node

inductive HarvesterError where
  | sqlx (e : SqlxError)
  | missingBlock (number : Nat)
  | invalidDesiredHeight
  | client (e : ProcessorError)
  | other (e : ProcessorError)
  | panic (text : String)
  | interrupted
  deriving DecidableEq, Repr

/-- An error of the processor in a given variant; panics and interrupts pass through. -/
def HarvesterError.wrap (variant : ProcessorError → HarvesterError) :
    ProcessorError → HarvesterError
  | .panic text => .panic text
  | .interrupted => .interrupted
  | e => variant e

def HarvesterError.ofSqlx : ProcessorError → HarvesterError
  | .sqlx e => .sqlx e
  | e => .client e

/-- The loop goes on after these. -/
def HarvesterError.retriable : HarvesterError → Bool
  | .invalidDesiredHeight | .missingBlock _ | .client _ | .interrupted => true
  | .sqlx _ | .other _ | .panic _ => false

/-- The three places that hand blocks to the processor. -/
inductive Job where
  | first (block : BlockInfo)
  | next (block : BlockInfo)
  | fork (forkBlocksReversed : List BlockInfo)
  deriving DecidableEq, Repr

/-- What the harvester did, for statements about its runs; nothing reads it. -/
inductive Entry where
  | call (job : Job) (before after : World Store AggregatorMsg) (committed : Bool)
  | scanFrom (block : BlockInfo) (world : World Store AggregatorMsg)

structure Harvester where
  world : World Store AggregatorMsg
  startHeight : Option Nat
  endHeight : Option Nat
  lastProcessedBlock : Option BlockInfo
  history : List Entry

def Harvester.new (world : World Store AggregatorMsg) (startHeight endHeight : Option Nat) :
    Harvester := ⟨world, startHeight, endHeight, none, []⟩

abbrev HarvesterM (α : Type) := EStateM HarvesterError Harvester α

def lift {α : Type} (variant : ProcessorError → HarvesterError) (x : ProcessorM α) :
    HarvesterM α := fun h =>
  match x h.world with
  | .ok a w => .ok a { h with world := w }
  | .error e w => .error (.wrap variant e) { h with world := w }

def setLastProcessedBlock (block : BlockInfo) : HarvesterM Unit :=
  modify (fun h => { h with lastProcessedBlock := some block })

namespace Processor

def isProcessed (env : DbEnv) (hash : BlockHash) : ProcessorM Bool := fun w =>
  query env.faults (fun s => .ok (s.hasBlock hash)) w.store w

def latestBlockNum (env : DbEnv) : ProcessorM (Option Nat) := fun w =>
  query env.faults (fun s => .ok s.getLatestBlockNum) w.store w

end Processor

def Job.run (P : Processor) (env : DbEnv) : Job → ProcessorM Unit
  | .first block | .next block => P.process env block
  | .fork forkBlocksReversed => P.processFork env forkBlocksReversed

/-- A failed fork replay is boxed as another error, a failed block is the client's. -/
def Job.variant : Job → ProcessorError → HarvesterError
  | .first _ | .next _ => .client
  | .fork _ => .other

def runJob (P : Processor) (env : DbEnv) (job : Job) : HarvesterM Unit := fun h =>
  match job.run P env h.world with
  | .ok _ w => .ok () { h with world := w, history := h.history ++ [.call job h.world w true] }
  | .error e w => .error (.wrap job.variant e)
      { h with world := w, history := h.history ++ [.call job h.world w false] }

/-- The test for a common ancestor. -/
def isAncestor (env : DbEnv) (currentBlock : BlockInfo) : HarvesterM Bool :=
  if currentBlock.header.height = 0 then pure true
  else lift .other (Processor.isProcessed env currentBlock.header.hash)

/-- The walk back over parents, head first; `fuel` bounds the blocks looked at. -/
def getForkBlocks (node : Node) (env : DbEnv) : Nat → BlockInfo → HarvesterM (List BlockInfo)
  | 0, _ => throw .interrupted
  | fuel + 1, currentBlock => do
      let found ← isAncestor env currentBlock
      if found then pure []
      else match currentBlock.header.previousBlockHash with
        | none => pure [currentBlock]
        | some parentHash => do
            let parent ← lift .client (node.scanBlockByHash env parentHash)
            let rest ← getForkBlocks node env fuel parent
            pure (currentBlock :: rest)

def handleReorg (P : Processor) (node : Node) (env : DbEnv) (fuel : Nat)
    (headBlock : BlockInfo) : HarvesterM Unit := do
  let forkBlocksReversed ← getForkBlocks node env fuel headBlock
  if forkBlocksReversed = [] then throw (.panic "blocks should exist. qed")
  else runJob P env (.fork forkBlocksReversed)

/-- A block whose parent is not the previous block is the head of a fork. -/
def extend (P : Processor) (node : Node) (env : DbEnv) (fuel : Nat) (prevBlock block : BlockInfo) :
    HarvesterM Unit :=
  match block.header.previousBlockHash with
  | none => pure ()
  | some prev =>
      if prevBlock.header.hash = prev then runJob P env (.next block)
      else handleReorg P node env fuel block

/-- The loop of `harvest`; out of fuel counts as interrupted there. -/
def catchUp (P : Processor) (node : Node) (env : DbEnv) (desiredHeight : Nat) :
    Nat → HarvesterM Unit
  | 0 => throw .interrupted
  | fuel + 1 => do
      let h ← get
      match h.lastProcessedBlock with
      | none => pure ()
      | some prevBlock =>
          if prevBlock.header.height ≥ desiredHeight then pure ()
          else do
            let block ← lift .client (node.scanBlock env (prevBlock.header.height + 1))
            extend P node env fuel prevBlock block
            setLastProcessedBlock block
            catchUp P node env desiredHeight fuel

/-- The block a round without a cursor begins with. -/
def startNum (lastProcessedBlock startHeight : Option Nat) (desiredHeight : Nat) : Nat :=
  match lastProcessedBlock with
  | some num => max (num + 1) (startHeight.getD desiredHeight)
  | none => startHeight.getD desiredHeight

/-- The cursor is set before its block is processed. -/
def processFirst (P : Processor) (node : Node) (env : DbEnv) (desiredHeight : Nat) :
    HarvesterM Unit := do
  let h ← get
  let last ← lift .ofSqlx (Processor.latestBlockNum env)
  let block ← lift .client (node.scanBlock env (startNum last h.startHeight desiredHeight))
  setLastProcessedBlock block
  runJob P env (.first block)

def desiredHeight (node : Node) (env : DbEnv) (endHeight : Option Nat) : HarvesterM Nat :=
  match endHeight with
  | some height => pure height
  | none => lift .client (node.getTipNumber env)

def harvest (P : Processor) (node : Node) (env : DbEnv) (fuel : Nat) : HarvesterM Unit := do
  let h ← get
  let desired ← desiredHeight node env h.endHeight
  if h.lastProcessedBlock.isNone then
    processFirst P node env desired
  catchUp P node env desired fuel

/-- A command that is being obeyed is not interrupted by the next. -/
def DbEnv.attended (env : DbEnv) : DbEnv := { env with interrupted := fun _ => false }

/-- Scanning on from above the cursor leaves a gap below. -/
def raiseStartHeight (first : Nat) (h : Harvester) : Harvester :=
  { h with
    startHeight := if h.lastProcessedBlock.any (fun b => b.header.height < first) then some first
      else h.startHeight }

def scanFrom (node : Node) (env : DbEnv) (first : Nat) : HarvesterM Unit := do
  modify (raiseStartHeight first)
  let startBlock ← lift .client (node.scanBlock env.attended first)
  modify (fun h => { h with history := h.history ++ [.scanFrom startBlock h.world] })
  setLastProcessedBlock startBlock

/-- What one turn of the loop meets: a command, or a round that ends by itself or is cut
short by the next command. -/
inductive Turn where
  | command (command : Command)
  | harvest (fuel : Nat)
  deriving DecidableEq, Repr

def obey (node : Node) (env : DbEnv) : Command → HarvesterM Unit
  | .terminate => pure ()
  | .scanBlock first last => do
      scanFrom node env first
      modify (fun h => { h with endHeight := some last })
  | .pause => modify (fun h =>
      { h with endHeight := h.lastProcessedBlock.map (fun b => b.header.height) })
  | .autoScan => modify (fun h => { h with endHeight := none })

/-- Errors of a round are logged, and the loop goes on where it is safe to retry. -/
def harvestRetrying (P : Processor) (node : Node) (env : DbEnv) (fuel : Nat) :
    HarvesterM Unit := retrying HarvesterError.retriable (harvest P node env fuel)

def start (P : Processor) (node : Node) (env : DbEnv) : List Turn → HarvesterM Unit
  | [] => pure ()
  | .command .terminate :: _ => pure ()
  | .command command :: rest => do
      obey node env command
      start P node env rest
  | .harvest fuel :: rest => do
      harvestRetrying P node env fuel
      start P node env rest

/-- The computation leaves the tables and the channel alone. -/
def Reads {α : Type} (x : ProcessorM α) : Prop :=
  Moves (fun w w' => w'.store = w.store ∧ w'.channel = w.channel) x

theorem rpc_reads {α : Type} (env : DbEnv) (call : Nat → Except RpcError α) :
    Reads (rpc env call) := by
  intro w
  simp only [rpc]
  split
  · exact ⟨rfl, rfl⟩
  · cases call w.clock <;> exact ⟨rfl, rfl⟩

theorem query_reads {α : Type} (F : Faults ProcessorError)
    (q : Store → Except ProcessorError α) : Reads (fun w => query F q w.store w) := by
  intro w
  simp only [query]
  split
  · exact ⟨rfl, rfl⟩
  · cases q w.store <;> exact ⟨rfl, rfl⟩

theorem scanBlock_reads (node : Node) (env : DbEnv) (number : Nat) :
    Reads (node.scanBlock env number) :=
  Moves.bind (fun _ _ _ hab hbc => ⟨hbc.1.trans hab.1, hbc.2.trans hab.2⟩)
    (rpc_reads env _) fun _ => rpc_reads env _

theorem rpc_ticks {α : Type} (env : DbEnv) (call : Nat → Except RpcError α) :
    Ticks (rpc env call) := by
  intro w
  simp only [rpc]
  split
  · exact Nat.le_succ _
  · cases call w.clock <;> exact Nat.le_succ _

theorem scanBlock_ticks (node : Node) (env : DbEnv) (number : Nat) :
    Ticks (node.scanBlock env number) := Ticks.bind (rpc_ticks env _) fun _ => rpc_ticks env _

theorem query_world_ticks {α : Type} (F : Faults ProcessorError)
    (q : Store → Except ProcessorError α) :
    Ticks (fun w : World Store AggregatorMsg => query F q w.store w) :=
  fun w => query_ticks F q w.store w

/-- A relation between harvesters that holds across each step the loop can take. -/
structure Respected (P : Processor) (env : DbEnv) (R : Harvester → Harvester → Prop) : Prop where
  refl : ∀ h, R h h
  trans : ∀ a b c, R a b → R b c → R a c
  reads : ∀ h w, w.store = h.world.store → w.channel = h.world.channel →
    h.world.clock ≤ w.clock → R h { h with world := w }
  bounds : ∀ h first last, R h { h with startHeight := first, endHeight := last }
  cursor : ∀ h block, R h { h with lastProcessedBlock := some block }
  scanned : ∀ h block, R h { h with history := h.history ++ [.scanFrom block h.world] }
  job : ∀ job, Moves R (runJob P env job)

namespace Respected

variable {P : Processor} {node : Node} {env : DbEnv} {R : Harvester → Harvester → Prop}

theorem bind (hR : Respected P env R) {α β : Type} {x : HarvesterM α} {f : α → HarvesterM β}
    (hx : Moves R x) (hf : ∀ a, Moves R (f a)) : Moves R (x >>= f) := Moves.bind hR.trans hx hf

theorem pure (hR : Respected P env R) {α : Type} (a : α) : Moves R (pure a : HarvesterM α) :=
  Moves.pure hR.refl a

theorem throw (hR : Respected P env R) {α : Type} (e : HarvesterError) :
    Moves R (throw e : HarvesterM α) := Moves.throw hR.refl e

theorem get (hR : Respected P env R) : Moves R (get : HarvesterM Harvester) := Moves.get hR.refl

theorem lift (hR : Respected P env R) {α : Type} {x : ProcessorM α} (hx : Reads x)
    (hticks : Ticks x) (variant : ProcessorError → HarvesterError) :
    Moves R (lift variant x) := by
  intro h
  simp only [BtcIndexer.lift]
  cases hrun : x h.world with
  | ok a w =>
      obtain ⟨hstore, hchannel⟩ := hx.of_ok hrun
      exact hR.reads h w hstore hchannel (hticks.of_ok hrun)
  | error e w =>
      obtain ⟨hstore, hchannel⟩ := hx.of_error hrun
      exact hR.reads h w hstore hchannel (hticks.of_error hrun)

theorem scanBlock (hR : Respected P env R) (env' : DbEnv) (number : Nat) :
    Moves R (BtcIndexer.lift .client (node.scanBlock env' number)) :=
  hR.lift (scanBlock_reads node env' number) (scanBlock_ticks node env' number) .client

theorem setCursor (hR : Respected P env R) (block : BlockInfo) :
    Moves R (setLastProcessedBlock block) := fun h => hR.cursor h block

theorem isAncestor (hR : Respected P env R) (block : BlockInfo) :
    Moves R (isAncestor env block) := by
  unfold BtcIndexer.isAncestor
  split
  · exact hR.pure true
  · exact hR.lift (query_reads _ _) (query_world_ticks _ _) .other

theorem getForkBlocks (hR : Respected P env R) (fuel : Nat) (block : BlockInfo) :
    Moves R (getForkBlocks node env fuel block) := by
  induction fuel generalizing block with
  | zero => exact hR.throw _
  | succ fuel ih =>
      apply hR.bind (hR.isAncestor block)
      intro found
      cases found with
      | true => exact hR.pure []
      | false =>
          cases block.header.previousBlockHash with
          | none => exact hR.pure [block]
          | some parentHash =>
              exact hR.bind (hR.lift (rpc_reads env _) (rpc_ticks env _) .client) fun parent =>
                hR.bind (ih parent) fun rest => hR.pure (block :: rest)

theorem handleReorg (hR : Respected P env R) (fuel : Nat) (block : BlockInfo) :
    Moves R (handleReorg P node env fuel block) := by
  apply hR.bind (hR.getForkBlocks fuel block)
  intro blocks
  split
  · exact hR.throw _
  · exact hR.job _

theorem extend (hR : Respected P env R) (fuel : Nat) (prevBlock block : BlockInfo) :
    Moves R (extend P node env fuel prevBlock block) := by
  unfold BtcIndexer.extend
  cases block.header.previousBlockHash with
  | none => exact hR.pure ()
  | some prev =>
      simp only
      split
      · exact hR.job _
      · exact hR.handleReorg fuel block

theorem catchUp (hR : Respected P env R) (desired fuel : Nat) :
    Moves R (catchUp P node env desired fuel) := by
  induction fuel with
  | zero => exact hR.throw _
  | succ fuel ih =>
      apply hR.bind hR.get
      intro h
      cases h.lastProcessedBlock with
      | none => exact hR.pure ()
      | some prevBlock =>
          simp only
          split
          · exact hR.pure ()
          · apply hR.bind (hR.scanBlock env _)
            intro block
            exact hR.bind (hR.extend fuel prevBlock block) fun _ =>
              hR.bind (hR.setCursor block) fun _ => ih

theorem processFirst (hR : Respected P env R) (desired : Nat) :
    Moves R (processFirst P node env desired) :=
  hR.bind hR.get fun _ =>
    hR.bind (hR.lift (query_reads _ _) (query_world_ticks _ _) .ofSqlx) fun _ =>
      hR.bind (hR.scanBlock env _) fun block => hR.bind (hR.setCursor block) fun _ => hR.job _

theorem desiredHeight (hR : Respected P env R) (endHeight : Option Nat) :
    Moves R (desiredHeight node env endHeight) := by
  unfold BtcIndexer.desiredHeight
  cases endHeight with
  | none => exact hR.lift (rpc_reads env _) (rpc_ticks env _) .client
  | some height => exact hR.pure height

theorem harvest (hR : Respected P env R) (fuel : Nat) : Moves R (harvest P node env fuel) := by
  apply hR.bind hR.get
  intro h
  apply hR.bind (hR.desiredHeight h.endHeight)
  intro desired
  split
  · exact hR.bind (hR.processFirst desired) fun _ => hR.catchUp desired fuel
  · exact hR.catchUp desired fuel

theorem harvestRetrying (hR : Respected P env R) (fuel : Nat) :
    Moves R (harvestRetrying P node env fuel) := Moves.retrying (hR.harvest fuel)

theorem scanFrom (hR : Respected P env R) (first : Nat) : Moves R (scanFrom node env first) := by
  apply hR.bind (Moves.modify fun h => hR.bounds h _ h.endHeight)
  intro _
  apply hR.bind (hR.scanBlock env.attended first)
  intro block
  exact hR.bind (fun h => hR.scanned h block) fun _ => hR.setCursor block

theorem obey (hR : Respected P env R) (command : Command) : Moves R (obey node env command) := by
  cases command with
  | terminate => exact hR.pure ()
  | scanBlock first last =>
      exact hR.bind (hR.scanFrom first) fun _ h => hR.bounds h h.startHeight (some last)
  | pause => exact fun h => hR.bounds h h.startHeight _
  | autoScan => exact fun h => hR.bounds h h.startHeight none

theorem start (hR : Respected P env R) (turns : List Turn) :
    Moves R (start P node env turns) := by
  induction turns with
  | nil => exact hR.pure ()
  | cons turn rest ih =>
      cases turn with
      | harvest fuel => exact hR.bind (hR.harvestRetrying fuel) fun _ => ih
      | command command =>
          cases command with
          | terminate => exact hR.pure ()
          | scanBlock first last => exact hR.bind (hR.obey (.scanBlock first last)) fun _ => ih
          | pause => exact hR.bind (hR.obey .pause) fun _ => ih
          | autoScan => exact hR.bind (hR.obey .autoScan) fun _ => ih

end Respected

end BtcIndexer
