import BtcIndexer.BlockEvents
import BtcIndexer.AggregatorRuns

/-! The harvester's processor and the aggregator side by side. They share a channel and no
table, and each awaited call of the one may fall between any two calls of the other. In a run
in which every call returns, the interleaving leaves no trace: the processor has done what it
does alone, and the aggregator what it does on the messages it has received. -/
namespace BtcIndexer
open Stateful Outbox Rows

/-- `writing` is the open transaction of a block: its working copy and the calls left. The
aggregator has received the first messages of the channel. -/
structure System where
  world : World Store AggregatorMsg
  writing : Option (Store × List ProcessorOp)
  received : Nat
  aggregator : Aggregator

inductive Move where
  | index (block : BlockInfo)
  | advance
  | commit
  | deliver
  deriving DecidableEq, Repr

def Move.block? : Move → Option BlockInfo
  | .index block => some block
  | .advance | .commit | .deliver => none

def indexedBlocks (moves : List Move) : List BlockInfo := moves.filterMap Move.block?

namespace System

def new : System := ⟨⟨Store.empty, [], 0⟩, none, 0, Aggregator.new ⟨Ledger.empty, [], 0⟩⟩

variable (P : Processor) (env : DbEnv) (ledgerEnv : LedgerEnv)

def index (block : BlockInfo) (sys : System) : Option System :=
  match sys.writing, begin env.faults sys.world with
  | none, .ok db w => some { sys with
      world := w
      writing := some (db,
        Processor.blockOps P (env.hashOrder sys.world.clock 0) block sys.world.store) }
  | _, _ => none

def advance (sys : System) : Option System :=
  match sys.writing with
  | some (db, op :: rest) =>
      match op.run env.faults db sys.world with
      | .ok db w => some { sys with world := w, writing := some (db, rest) }
      | .error _ _ => none
  | _ => none

def commit (sys : System) : Option System :=
  match sys.writing with
  | some (db, []) =>
      match Outbox.commit env.faults db sys.world with
      | .ok () w => some { sys with world := w, writing := none }
      | .error _ _ => none
  | _ => none

def deliver (sys : System) : Option System :=
  match sys.world.channel[sys.received]? with
  | some msg =>
      match Aggregator.handle ledgerEnv msg sys.aggregator with
      | .ok () agg => some { sys with received := sys.received + 1, aggregator := agg }
      | .error _ _ => none
  | none => none

/-- A move that cannot be made, or in which a call fails, has no result. -/
def step (sys : System) : Move → Option System
  | .index block => index P env block sys
  | .advance => advance env sys
  | .commit => commit env sys
  | .deliver => deliver ledgerEnv sys

def run : List Move → System → Option System
  | [], sys => some sys
  | move :: rest, sys => (step P env ledgerEnv sys move).bind (run rest)

/-- Where the two parties are, each seen alone. -/
structure Progress (blocks : List BlockInfo) (sys : System) : Prop where
  idle : sys.writing = none →
    Processor.processAll P env blocks new.world = .ok () sys.world
  writing : ∀ db ops, sys.writing = some (db, ops) → ∃ pre block w, blocks = pre ++ [block] ∧
    Processor.processAll P env pre new.world = .ok () w ∧
    Processor.process P env block w =
      (Outbox.run env.faults ops db >>= fun db => Outbox.commit env.faults db) sys.world
  received : sys.received ≤ sys.world.channel.length
  aggregator : Aggregator.start ledgerEnv (sys.world.channel.take sys.received) new.aggregator =
    .ok () sys.aggregator

section Runs

variable {P : Processor} {env : DbEnv} {ledgerEnv : LedgerEnv} {blocks : List BlockInfo}
variable {sys sys' : System}

theorem processAll_eq_forM (blocks : List BlockInfo) :
    Processor.processAll P env blocks = forM blocks (Processor.process P env) := by
  induction blocks with
  | nil => rfl
  | cons block rest ih => rw [Processor.processAll, ih, List.forM_cons]

theorem processAll_snoc {pre : List BlockInfo} {w₀ w : World Store AggregatorMsg}
    (hpre : Processor.processAll P env pre w₀ = .ok () w) (block : BlockInfo) :
    Processor.processAll P env (pre ++ [block]) w₀ = Processor.process P env block w := by
  rw [processAll_eq_forM] at hpre ⊢
  exact forM_snoc hpre block

theorem progress_new : Progress P env ledgerEnv [] new where
  idle := fun _ => rfl
  writing := fun db ops h => by cases h
  received := Nat.le_refl 0
  aggregator := rfl

theorem index_eq_some {block : BlockInfo} (h : System.index P env block sys = some sys') :
    sys.writing = none ∧ begin env.faults sys.world = .ok sys.world.store sys.world.tick ∧
      sys' = { sys with
        world := sys.world.tick
        writing := some (sys.world.store,
          Processor.blockOps P (env.hashOrder sys.world.clock 0) block sys.world.store) } := by
  unfold System.index at h
  split at h
  · next db w hidle hbegin =>
      cases h
      obtain ⟨rfl, rfl⟩ := begin_ok hbegin
      exact ⟨hidle, hbegin, rfl⟩
  · cases h

theorem advance_eq_some (h : System.advance env sys = some sys') :
    ∃ db op rest db' w, sys.writing = some (db, op :: rest) ∧
      op.run env.faults db sys.world = .ok db' w ∧
      sys' = { sys with world := w, writing := some (db', rest) } := by
  unfold System.advance at h
  split at h
  · next db op rest hopen =>
      split at h
      · next db' w hop =>
          cases h
          exact ⟨db, op, rest, db', w, hopen, hop, rfl⟩
      · cases h
  · cases h

theorem commit_eq_some (h : System.commit env sys = some sys') :
    ∃ db w, sys.writing = some (db, []) ∧ Outbox.commit env.faults db sys.world = .ok () w ∧
      sys' = { sys with world := w, writing := none } := by
  unfold System.commit at h
  split at h
  · next db hopen =>
      split at h
      · next w hcommit =>
          cases h
          exact ⟨db, w, hopen, hcommit, rfl⟩
      · cases h
  · cases h

theorem deliver_eq_some (h : System.deliver ledgerEnv sys = some sys') :
    ∃ msg agg, sys.world.channel[sys.received]? = some msg ∧
      Aggregator.handle ledgerEnv msg sys.aggregator = .ok () agg ∧
      sys' = { sys with received := sys.received + 1, aggregator := agg } := by
  unfold System.deliver at h
  split at h
  · next msg hmsg =>
      split at h
      · next agg hhandle =>
          cases h
          exact ⟨msg, agg, hmsg, hhandle, rfl⟩
      · cases h
  · cases h

theorem Progress.grows (h : Progress P env ledgerEnv blocks sys) {w : World Store AggregatorMsg}
    (hw : sys.world.channel <+: w.channel) :
    sys.received ≤ w.channel.length ∧
      Aggregator.start ledgerEnv (w.channel.take sys.received) new.aggregator =
        .ok () sys.aggregator := by
  have hreceived := h.received
  obtain ⟨ms, hms⟩ := hw
  rw [← hms, List.length_append, List.take_append_of_le_length hreceived]
  exact ⟨by omega, h.aggregator⟩

theorem Progress.index {block : BlockInfo} (h : Progress P env ledgerEnv blocks sys)
    (hstep : System.index P env block sys = some sys') :
    Progress P env ledgerEnv (blocks ++ [block]) sys' := by
  obtain ⟨hidle, hbegin, rfl⟩ := index_eq_some hstep
  obtain ⟨hreceived, haggregator⟩ := h.grows (w := sys.world.tick) (List.prefix_refl _)
  refine ⟨(fun hnone => by cases hnone), ?_, hreceived, haggregator⟩
  intro db ops hopen
  cases hopen
  refine ⟨blocks, block, sys.world, rfl, h.idle hidle, ?_⟩
  rw [Processor.process_eq]
  exact bind_of_ok hbegin

theorem Progress.advance (h : Progress P env ledgerEnv blocks sys)
    (hstep : System.advance env sys = some sys') : Progress P env ledgerEnv blocks sys' := by
  obtain ⟨db, op, rest, db', w, hopen, hop, rfl⟩ := advance_eq_some hstep
  obtain ⟨hreceived, haggregator⟩ := h.grows (w := w) ⟨_, (Op.run_ok hop).2.2.symm⟩
  refine ⟨(fun hnone => by cases hnone), ?_, hreceived, haggregator⟩
  intro _ _ hnext
  cases hnext
  obtain ⟨pre, block, w₀, hblocks, hpre, hrest⟩ := h.writing db (op :: rest) hopen
  refine ⟨pre, block, w₀, hblocks, hpre, ?_⟩
  rw [hrest, Outbox.run, bind_assoc, bind_of_ok hop]

theorem Progress.commit (h : Progress P env ledgerEnv blocks sys)
    (hstep : System.commit env sys = some sys') : Progress P env ledgerEnv blocks sys' := by
  obtain ⟨db, w, hopen, hcommit, rfl⟩ := commit_eq_some hstep
  have hsent : sys.world.channel <+: w.channel :=
    (commit_ok hcommit).2 ▸ List.prefix_refl _
  obtain ⟨hreceived, haggregator⟩ := h.grows hsent
  refine ⟨fun _ => ?_, (fun db ops hnext => by cases hnext), hreceived, haggregator⟩
  obtain ⟨pre, block, w₀, rfl, hpre, hrest⟩ := h.writing db [] hopen
  exact (processAll_snoc hpre block).trans (hrest.trans hcommit)

theorem Progress.deliver (h : Progress P env ledgerEnv blocks sys)
    (hstep : System.deliver ledgerEnv sys = some sys') :
    Progress P env ledgerEnv blocks sys' := by
  obtain ⟨msg, agg, hmsg, hhandle, rfl⟩ := deliver_eq_some hstep
  obtain ⟨hlt, hget⟩ := List.getElem?_eq_some_iff.mp hmsg
  refine ⟨h.idle, h.writing, hlt, ?_⟩
  change Aggregator.start ledgerEnv (sys.world.channel.take (sys.received + 1))
    new.aggregator = _
  rw [List.take_succ_eq_append_getElem hlt, hget]
  exact (Aggregator.start_snoc h.aggregator _).trans hhandle

theorem Progress.step {move : Move} (h : Progress P env ledgerEnv blocks sys)
    (hstep : System.step P env ledgerEnv sys move = some sys') :
    Progress P env ledgerEnv (blocks ++ move.block?.toList) sys' := by
  cases move with
  | index block => exact h.index hstep
  | advance =>
      rw [Move.block?, Option.toList_none, List.append_nil]
      exact h.advance hstep
  | commit =>
      rw [Move.block?, Option.toList_none, List.append_nil]
      exact h.commit hstep
  | deliver =>
      rw [Move.block?, Option.toList_none, List.append_nil]
      exact h.deliver hstep

theorem Progress.run {moves : List Move} (h : Progress P env ledgerEnv blocks sys)
    (hrun : System.run P env ledgerEnv moves sys = some sys') :
    Progress P env ledgerEnv (blocks ++ indexedBlocks moves) sys' := by
  induction moves generalizing sys blocks with
  | nil =>
      cases hrun
      simpa [indexedBlocks] using h
  | cons move rest ih =>
      obtain ⟨mid, hstep, hrest⟩ := Option.bind_eq_some_iff.mp hrun
      have hmoved := ih (h.step hstep) hrest
      have hblocks : blocks ++ move.block?.toList ++ indexedBlocks rest =
          blocks ++ indexedBlocks (move :: rest) := by
        rw [List.append_assoc]
        cases move <;> rfl
      rwa [hblocks] at hmoved

/-- After any interleaving from empty tables, each party is where it would be alone. -/
theorem progress {moves : List Move} (hrun : System.run P env ledgerEnv moves new = some sys) :
    Progress P env ledgerEnv (indexedBlocks moves) sys :=
  progress_new.run hrun

theorem run_append (moves rest : List Move) (sys : System) :
    System.run P env ledgerEnv (moves ++ rest) sys =
      (System.run P env ledgerEnv moves sys).bind (System.run P env ledgerEnv rest) := by
  induction moves generalizing sys with
  | nil => rfl
  | cons move moves ih =>
      change (System.step P env ledgerEnv sys move).bind _ = Option.bind (Option.bind _ _) _
      rw [Option.bind_assoc]
      congr 1
      funext mid
      exact ih mid

theorem step_channel {move : Move} (hstep : System.step P env ledgerEnv sys move = some sys') :
    sys.world.channel <+: sys'.world.channel := by
  cases move with
  | index block =>
      obtain ⟨_, _, rfl⟩ := index_eq_some hstep
      exact List.prefix_refl _
  | advance =>
      obtain ⟨_, _, _, _, _, _, hop, rfl⟩ := advance_eq_some hstep
      exact ⟨_, (Op.run_ok hop).2.2.symm⟩
  | commit =>
      obtain ⟨_, w, _, hcommit, rfl⟩ := commit_eq_some hstep
      exact (commit_ok hcommit).2 ▸ List.prefix_refl _
  | deliver =>
      obtain ⟨_, _, _, _, rfl⟩ := deliver_eq_some hstep
      exact List.prefix_refl _

theorem run_channel {moves : List Move} (hrun : System.run P env ledgerEnv moves sys = some sys') :
    sys.world.channel <+: sys'.world.channel := by
  induction moves generalizing sys with
  | nil =>
      cases hrun
      exact List.prefix_refl _
  | cons move rest ih =>
      obtain ⟨mid, hstep, hrest⟩ := Option.bind_eq_some_iff.mp hrun
      exact (step_channel hstep).trans (ih hrest)

end Runs

end System

end BtcIndexer
