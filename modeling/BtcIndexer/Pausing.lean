import BtcIndexer.HarvesterRules

/-! Pausing. The command bounds the scan by the height of the cursor. With a cursor every later
round ends before it begins; without one there is no bound, and the next round looks for its
first block as if nothing had been said. -/
namespace BtcIndexer
open Stateful Outbox Rows

def Turn.resumes : Turn → Bool
  | .command .autoScan | .command (.scanBlock _ _) => true
  | .command .terminate | .command .pause | .harvest _ => false

/-- No block has been handed to the processor, the tables are the same, nothing was sent. -/
structure Untouched (h h' : Harvester) : Prop where
  history : h'.history = h.history
  store : h'.world.store = h.world.store
  channel : h'.world.channel = h.world.channel

/-- The cursor has arrived at the bound of the scan. -/
def Harvester.Idle (h : Harvester) : Prop :=
  ∃ block, h.lastProcessedBlock = some block ∧ h.endHeight = some block.header.height

def Harvester.paused (h : Harvester) : Harvester :=
  { h with endHeight := h.lastProcessedBlock.map (fun b => b.header.height) }

theorem Harvester.Idle.paused_eq {h : Harvester} (hidle : h.Idle) : h.paused = h := by
  obtain ⟨block, hcursor, hbound⟩ := hidle
  cases h
  simp_all [Harvester.paused]

theorem paused_idle {h : Harvester} (hcursor : h.lastProcessedBlock.isSome) : h.paused.Idle := by
  obtain ⟨block, hblock⟩ := Option.isSome_iff_exists.mp hcursor
  exact ⟨block, hblock, by rw [Harvester.paused, hblock]; rfl⟩

section Idle

variable (P : Processor) (node : Node) (env : DbEnv) {h : Harvester}

theorem Harvester.Idle.round (hidle : h.Idle) (fuel : Nat) :
    harvestRetrying P node env fuel h = .ok () h := by
  obtain ⟨block, hcursor, hbound⟩ := hidle
  have hdesired : desiredHeight node env h.endHeight h = .ok block.header.height h := by
    rw [hbound]
    rfl
  have hharvest : harvest P node env fuel h = catchUp P node env block.header.height fuel h :=
    harvest_of_cursor (by rw [hcursor]; rfl) hdesired
  unfold harvestRetrying retrying
  rw [hharvest]
  cases fuel with
  | zero => rfl
  | succ fuel => rw [catchUp_done hcursor (Nat.le_refl _)]

/-- An idle harvester stays as it is until a command lifts the pause. -/
theorem Harvester.Idle.start (hidle : h.Idle) (turns : List Turn)
    (hturns : ∀ turn ∈ turns, turn.resumes = false) : start P node env turns h = .ok () h := by
  induction turns with
  | nil => rfl
  | cons turn rest ih =>
      obtain ⟨hturn, hrest⟩ := List.forall_mem_cons.mp hturns
      cases turn with
      | harvest fuel => exact (bind_of_ok (hidle.round P node env fuel)).trans (ih hrest)
      | command command =>
          cases command with
          | terminate => rfl
          | scanBlock first last => cases hturn
          | autoScan => cases hturn
          | pause =>
              have hsame : obey node env .pause h = .ok () h := by
                change EStateM.Result.ok () h.paused = _
                rw [hidle.paused_eq]
              exact (bind_of_ok hsame).trans (ih hrest)

end Idle

def Node.answering : Node where
  getBlockCount := fun _ => .ok 0
  getBlockHash := fun _ _ => .ok ⟨0⟩
  getBlockHeader := fun _ hash => .ok ⟨hash, 0, none, 0, 0, 1⟩
  getBlock := fun _ _ => .ok []

/-- Without a cursor and without a bound, a round hands a block to the processor as soon as the
node answers. -/
theorem round_calls (P : Processor) {h : Harvester} (hcursor : h.lastProcessedBlock = none)
    (hbound : h.endHeight = none) (fuel : Nat) :
    ∃ entry, h.history ++ [entry] <+:
      (final (harvestRetrying P .answering DbEnv.calm fuel h)).history := by
  rw [harvestRetrying, final_retrying]
  have htip : desiredHeight .answering DbEnv.calm none h =
      .ok 0 { h with world := h.world.tick } := rfl
  have hdesired : desiredHeight .answering DbEnv.calm h.endHeight h =
      .ok 0 { h with world := h.world.tick } :=
    (congrArg (fun e => desiredHeight .answering DbEnv.calm e h) hbound).trans htip
  have hrest : harvest P .answering DbEnv.calm fuel h =
      (processFirst P .answering DbEnv.calm 0 >>= fun _ =>
        catchUp P .answering DbEnv.calm 0 fuel) { h with world := h.world.tick } :=
    harvest_of_none hcursor hdesired
  have hfirst : ∃ entry, (final (processFirst P .answering DbEnv.calm 0
      { h with world := h.world.tick })).history = h.history ++ [entry] := by
    have hjob : ∃ block w, processFirst P .answering DbEnv.calm 0
        { h with world := h.world.tick } = runJob P DbEnv.calm (.first block)
          { h with world := w, lastProcessedBlock := some block } := ⟨_, _, rfl⟩
    obtain ⟨block, w, hjob⟩ := hjob
    rw [hjob]
    simp only [runJob]
    cases (Job.first block).run P DbEnv.calm w <;> exact ⟨_, rfl⟩
  obtain ⟨entry, hentry⟩ := hfirst
  refine ⟨entry, ?_⟩
  rw [hrest]
  cases hrun : processFirst P .answering DbEnv.calm 0 { h with world := h.world.tick } with
  | error e k =>
      rw [bind_of_error hrun, final_error]
      rw [hrun, final_error] at hentry
      exact hentry ▸ List.prefix_refl _
  | ok a k =>
      rw [bind_of_ok hrun]
      rw [hrun, final_ok] at hentry
      rw [← hentry]
      exact (history_respected P DbEnv.calm).catchUp 0 fuel k

/-- From the handling of a pause to the next command that lifts it nothing is processed,
whatever the node does, exactly if the harvester has a cursor when it is paused. -/
theorem pause_untouched_iff (P : Processor) (h : Harvester) :
    (∀ (node : Node) (env : DbEnv) (turns : List Turn),
      (∀ turn ∈ turns, turn.resumes = false) →
        Untouched h (final (start P node env (.command .pause :: turns) h))) ↔
      h.lastProcessedBlock.isSome := by
  have hpause : ∀ node env turns, start P node env (.command .pause :: turns) h =
      start P node env turns h.paused := fun _ _ _ => rfl
  constructor
  · intro huntouched
    by_contra hcursor
    have hcursor : h.lastProcessedBlock = none := by simpa using hcursor
    have hbound : h.paused.endHeight = none := by rw [Harvester.paused, hcursor]; rfl
    have hsame := (huntouched .answering DbEnv.calm [.harvest 0] (by simp [Turn.resumes])).history
    obtain ⟨entry, hgrows⟩ := round_calls P (h := h.paused) hcursor hbound 0
    have hround : final (start P .answering DbEnv.calm [.harvest 0] h.paused) =
        final (harvestRetrying P .answering DbEnv.calm 0 h.paused) := by
      change final ((harvestRetrying P .answering DbEnv.calm 0 >>= fun _ => pure ()) h.paused) = _
      rw [bind_pure_unit]
    rw [hpause, hround] at hsame
    rw [hsame] at hgrows
    have hlength : (h.history ++ [entry]).length ≤ h.history.length := hgrows.length_le
    rw [List.length_append, List.length_singleton] at hlength
    omega
  · intro hcursor node env turns hturns
    rw [hpause, (paused_idle hcursor).start P node env turns hturns]
    exact ⟨rfl, rfl, rfl⟩

/-- A pause that arrives before the first round: both blocks are stored all the same. -/
theorem pause_ignored : ∃ (node : Node) (env : DbEnv) (turns : List Turn),
    (∀ turn ∈ turns, turn.resumes = false) ∧
      (final (start Processor.mainnet node env (.command .pause :: turns)
        freshHarvester)).world.store.blocks.map BlockRow.number = [1, 2] ∧
      freshHarvester.world.store.blocks = [] := by
  refine ⟨Node.ofBlocks paidChain, DbEnv.calm, [.harvest 5], by decide, ?_, rfl⟩
  decide +kernel

end BtcIndexer
