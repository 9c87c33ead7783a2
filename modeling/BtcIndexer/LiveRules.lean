import BtcIndexer.Cancellation

/-! Rules for a loop whose rounds may be dropped. A property that the four steps of a round keep,
the commands, and the commits that take effect after a drop, is kept by every run of the loop;
and if the loop fails, then one of its moments does, in a state that has the property. -/
namespace BtcIndexer
open Stateful Outbox Rows

/-- If the last call did not go through, the tables are those on which it was made, and the cursor
is where it was then. -/
def Harvester.Pending (node : Node) (h : Harvester) : Prop :=
  ∀ job before after, h.history.getLast? = some (.call job before after false) →
    h.world.store = before.store ∧ job.Handed node h.lastProcessedBlock before.store

/-- If a commit takes effect after the drop, it is that of a call of the given kind. -/
def Moment.LandsOnly (A : Job → Prop) (P : Processor) (node : Node) (env : DbEnv)
    (h : Harvester) : Moment → Prop
  | .dropped fuel await true _ => ∀ landed ∈ landing P env (h.world.clock + await)
      (final (harvestRetrying P node (env.cutAt (h.world.clock + await)) fuel h)), A landed.1
  | .dropped _ _ false _ | .between _ | .round _ => True

def LandsOnly (A : Job → Prop) (P : Processor) (node : Node) (env : DbEnv) :
    List Moment → Harvester → Prop
  | [], _ => True
  | moment :: rest, h => moment.LandsOnly A P node env h ∧
      (moment.ends = false → LandsOnly A P node env rest (final (moment.run P node env h)))

theorem landsOnly_of_all {A : Job → Prop} (hA : ∀ job, A job) (P : Processor) (node : Node)
    (env : DbEnv) (moments : List Moment) (h : Harvester) :
    LandsOnly A P node env moments h := by
  induction moments generalizing h with
  | nil => trivial
  | cons moment rest ih =>
      refine ⟨?_, fun _ => ih _⟩
      cases moment with
      | round fuel => trivial
      | between command => trivial
      | dropped fuel await lands command =>
          cases lands with
          | false => trivial
          | true => exact fun landed _ => hA landed.1

/-- Each moment that comes about, as the loop has not ended before it, meets the condition in the
state before it. -/
def Throughout (Q : Harvester → Moment → Prop) (P : Processor) (node : Node) (env : DbEnv) :
    List Moment → Harvester → Prop
  | [], _ => True
  | moment :: rest, h => Q h moment ∧ ∀ k, moment.run P node env h = .ok () k →
      moment.ends = false → Throughout Q P node env rest k

theorem Throughout.mono {Q Q' : Harvester → Moment → Prop} {P : Processor} {node : Node}
    {env : DbEnv} {moments : List Moment} {h : Harvester}
    (hall : Throughout Q P node env moments h) (hQ : ∀ h moment, Q h moment → Q' h moment) :
    Throughout Q' P node env moments h := by
  induction moments generalizing h with
  | nil => trivial
  | cons moment rest ih =>
      exact ⟨hQ h moment hall.1, fun k hrun hends => ih (hall.2 k hrun hends)⟩

instance Throughout.decidable (Q : Harvester → Moment → Prop) [∀ h m, Decidable (Q h m)]
    (P : Processor) (node : Node) (env : DbEnv) : (moments : List Moment) → (h : Harvester) →
      Decidable (Throughout Q P node env moments h)
  | [], _ => .isTrue trivial
  | moment :: rest, h =>
      match hrun : moment.run P node env h with
      | .error _ _ => decidable_of_iff (Q h moment)
          ⟨fun hq => ⟨hq, fun k hok => by rw [hrun] at hok; cases hok⟩, And.left⟩
      | .ok _ k =>
          have := Throughout.decidable Q P node env rest k
          decidable_of_iff (Q h moment ∧ (moment.ends = false → Throughout Q P node env rest k))
            ⟨fun hall => ⟨hall.1, fun k' hok => by rw [hrun] at hok; cases hok; exact hall.2⟩,
              fun hall => ⟨hall.1, hall.2 k hrun⟩⟩

def Moment.command : Moment → Option Command
  | .round _ => none
  | .between command | .dropped _ _ _ command => some command

/-- A property kept by the steps of a round and by the commits of given calls that take effect
after a drop. -/
structure Lively (A : Job → Prop) (P : Processor) (node : Node) (env : DbEnv)
    (K : Harvester → Prop) : Prop where
  stepwise : ∀ env', Stepwise P node env' 0 K
  landed : ∀ h entries job before after w, K h → A job →
    h.history = entries ++ [.call job before after false] → h.world.store = before.store →
    job.Handed node h.lastProcessedBlock before.store → job.run P env.attended before = .ok () w →
    K { h with world := w, history := entries ++ [.call job before w true] }

section Pending

variable {P : Processor} {node : Node} {env : DbEnv} {since : Nat}

theorem pending_of_last {h : Harvester} {entry : Entry} (hlast : h.history.getLast? = some entry)
    (hsettled : ∀ job before after, entry ≠ .call job before after false) : h.Pending node := by
  intro job before after hpending
  rw [hlast] at hpending
  exact absurd (Option.some.inj hpending) (hsettled job before after)

theorem pending_steady (node : Node) : Steady (Harvester.Pending node) := by
  intro h w hstore _ _ hpending job before after hlast
  obtain ⟨hsame, handed⟩ := hpending job before after hlast
  exact ⟨hstore.trans hsame, handed⟩

theorem pending_stepwise : Stepwise P node env since (Harvester.Pending node) where
  steady := pending_steady node
  first := by
    intro h desired block w committed _ _ _ hshows hsound job before after hlast
    have hentry : some (Entry.call (.first block) h.world w committed) =
        some (.call job before after false) := (List.getLast?_concat ..).symm.trans hlast
    cases hentry
    exact ⟨hsound.store_eq, rfl, hshows.seen, hshows.above⟩
  next := by
    intro h prevBlock block w _ _ _ _ _
    exact pending_of_last (List.getLast?_concat ..) (by simp)
  fork := by
    intro h prevBlock block blocks w _ _ _ _ _ _ _
    exact pending_of_last (List.getLast?_concat ..) (by simp)
  failed := by
    intro h job e w _ _ handed hrun job' before after hlast
    have hentry : some (Entry.call job h.world w false) =
        some (.call job' before after false) := (List.getLast?_concat ..).symm.trans hlast
    cases hentry
    exact ⟨Job.run_error hrun, handed⟩

theorem pending_new (node : Node) (world : World Store AggregatorMsg)
    (startHeight endHeight : Option Nat) :
    (Harvester.new world startHeight endHeight).Pending node := by
  intro job before after hlast
  cases hlast

theorem pending_boundless : Boundless (Harvester.Pending node) := fun _ _ _ hpending => hpending

theorem pending_obey (hnode : node.Consistent) (command : Command) :
    Triple (Harvester.Pending node) (obey node env command) (fun _ => Harvester.Pending node)
      (Harvester.Pending node) :=
  obey_command hnode (pending_steady node) pending_boundless (fun _ _ => Nat.zero_le _) command
    fun _ _ _ _ _ _ _ => pending_of_last (List.getLast?_concat ..) (by simp)

end Pending

section Lively

variable {A : Job → Prop} {P : Processor} {node : Node} {env : DbEnv} {K : Harvester → Prop}

theorem land_cases (P : Processor) (env : DbEnv) (tick : Nat) (h : Harvester) :
    land P env tick h = h ∨
    ∃ entries job before after w, h.history = entries ++ [.call job before after false] ∧
      landing P env tick h = some (job, before, w) ∧
      job.run P env.attended before = .ok () w ∧
      land P env tick h =
        { h with world := w, history := entries ++ [.call job before w true] } := by
  unfold land
  cases hlands : landing P env tick h with
  | none => exact .inl rfl
  | some landed =>
      obtain ⟨job, before, w⟩ := landed
      obtain ⟨after, hlast, hrun⟩ := landing_eq_some hlands
      obtain ⟨entries, hhistory⟩ := List.getLast?_eq_some_iff.mp hlast
      refine .inr ⟨entries, job, before, after, w, hhistory, rfl, hrun, ?_⟩
      rw [hhistory, List.dropLast_concat]

/-- The property together with what the rule itself needs. -/
def Alive (node : Node) (K : Harvester → Prop) (h : Harvester) : Prop := h.Pending node ∧ K h

theorem Lively.guarded (hK : Lively A P node env K) (env' : DbEnv) :
    Guarded P node env' 0 (Alive node K) where
  toStepwise := pending_stepwise.and (hK.stepwise env')
  since_le := fun _ _ => Nat.zero_le _

theorem Lively.round (hK : Lively A P node env K) (hnode : node.Consistent) (env' : DbEnv)
    (fuel : Nat) {h : Harvester} (halive : Alive node K h) :
    Alive node K (final (harvestRetrying P node env' fuel h)) :=
  ((hK.guarded env').harvestRetrying hnode fuel).final halive

theorem Lively.land (hK : Lively A P node env K) {tick : Nat} {h : Harvester}
    (halive : Alive node K h)
    (hlands : ∀ landed ∈ landing P env tick h, A landed.1) :
    Alive node K (BtcIndexer.land P env tick h) := by
  rcases land_cases P env tick h with
    hsame | ⟨entries, job, before, after, w, hhistory, hlanding, hrun, hland⟩
  · rw [hsame]
    exact halive
  · obtain ⟨hpending, hk⟩ := halive
    obtain ⟨hstore, handed⟩ := hpending job before after (by rw [hhistory, List.getLast?_concat])
    rw [hland]
    refine ⟨pending_of_last (List.getLast?_concat ..) (by simp), ?_⟩
    exact hK.landed h entries job before after w hk (hlands _ hlanding) hhistory hstore handed hrun

theorem Lively.cutRound (hK : Lively A P node env K) (hnode : node.Consistent) {fuel await : Nat}
    {lands : Bool} {command : Command} {h : Harvester} (halive : Alive node K h)
    (hlands : (Moment.dropped fuel await lands command).LandsOnly A P node env h) :
    Alive node K (final (BtcIndexer.cutRound P node env fuel await lands h)) := by
  have hround := hK.round hnode (env.cutAt (h.world.clock + await)) fuel halive
  have hcut : BtcIndexer.cutRound P node env fuel await lands h =
      (harvestRetrying P node (env.cutAt (h.world.clock + await)) fuel >>= fun _ =>
        if lands then modify (BtcIndexer.land P env (h.world.clock + await)) else pure ()) h := rfl
  rw [hcut]
  cases hrun : harvestRetrying P node (env.cutAt (h.world.clock + await)) fuel h with
  | error e k =>
      rw [hrun] at hround
      rw [bind_of_error hrun]
      exact hround
  | ok a k =>
      rw [hrun, final_ok] at hround
      rw [bind_of_ok hrun]
      cases lands with
      | false => exact hround
      | true =>
          have hlands : ∀ landed ∈ landing P env (h.world.clock + await)
              (final (harvestRetrying P node (env.cutAt (h.world.clock + await)) fuel h)),
              A landed.1 := hlands
          rw [hrun, final_ok] at hlands
          exact hK.land hround hlands

def Obeyed (node : Node) (env : DbEnv) (K : Harvester → Prop) (moment : Moment) : Prop :=
  ∀ command ∈ moment.command, Triple K (obey node env command) (fun _ => K) K

theorem Lively.moment (hK : Lively A P node env K) (hnode : node.Consistent) {moment : Moment}
    (hobey : Obeyed node env K moment) {h : Harvester} (halive : Alive node K h)
    (hlands : moment.LandsOnly A P node env h) :
    Alive node K (final (moment.run P node env h)) := by
  have hcommand : ∀ command ∈ moment.command, ∀ k, Alive node K k →
      Alive node K (final (obey node env command k)) := fun command hmem k hk =>
    ⟨(pending_obey hnode command).final hk.1, (hobey command hmem).final hk.2⟩
  cases moment with
  | round fuel => exact hK.round hnode env.attended fuel halive
  | between command => exact hcommand command rfl h halive
  | dropped fuel await lands command =>
      have hcut := hK.cutRound hnode halive hlands
      have hrun : (Moment.dropped fuel await lands command).run P node env h =
          (BtcIndexer.cutRound P node env fuel await lands >>= fun _ =>
            obey node env command) h := rfl
      rw [hrun]
      cases hround : BtcIndexer.cutRound P node env fuel await lands h with
      | error e k =>
          rw [bind_of_error hround]
          rw [hround] at hcut
          exact hcut
      | ok a k =>
          rw [bind_of_ok hround]
          rw [hround] at hcut
          exact hcommand command rfl k hcut

/-- A run of the loop, and the moment in which it fails if it does. -/
theorem Lively.live (hK : Lively A P node env K) (hnode : node.Consistent)
    (moments : List Moment) (hobey : ∀ moment ∈ moments, Obeyed node env K moment)
    {h : Harvester} (halive : Alive node K h) (hlands : LandsOnly A P node env moments h) :
    Alive node K (final (BtcIndexer.live P node env moments h)) ∧
      ∀ e k, BtcIndexer.live P node env moments h = .error e k →
        ∃ moment ∈ moments, ∃ h', Alive node K h' ∧ moment.run P node env h' = .error e k := by
  induction moments generalizing h with
  | nil => exact ⟨halive, fun _ _ herror => nomatch herror⟩
  | cons moment rest ih =>
      obtain ⟨hfirst, hlater⟩ := hlands
      have hnext := hK.moment hnode (hobey moment List.mem_cons_self) halive hfirst
      have hlive : BtcIndexer.live P node env (moment :: rest) h =
          (moment.run P node env >>= fun _ =>
            if moment.ends then pure () else BtcIndexer.live P node env rest) h := rfl
      rw [hlive]
      cases hrun : moment.run P node env h with
      | error e k =>
          rw [bind_of_error hrun]
          rw [hrun] at hnext
          refine ⟨hnext, fun e' k' herror => ?_⟩
          cases herror
          exact ⟨moment, List.mem_cons_self, h, halive, hrun⟩
      | ok a k =>
          rw [bind_of_ok hrun]
          rw [hrun, final_ok] at hnext hlater
          cases hends : moment.ends with
          | true => exact ⟨hnext, fun _ _ herror => nomatch herror⟩
          | false =>
              obtain ⟨hdone, hfails⟩ := ih (fun m hm => hobey m (List.mem_cons_of_mem moment hm))
                hnext (hlater hends)
              refine ⟨hdone, fun e k herror => ?_⟩
              obtain ⟨m, hm, hwhere⟩ := hfails e k herror
              exact ⟨m, List.mem_cons_of_mem moment hm, hwhere⟩

end Lively

structure Life where
  startHeight : Option Nat
  endHeight : Option Nat
  moments : List Moment
  deriving DecidableEq, Repr

/-- A new process on the tables left behind, and what its loop comes to. -/
def Life.run (P : Processor) (node : Node) (env : DbEnv) (life : Life)
    (world : World Store AggregatorMsg) : Harvester :=
  final (live P node env life.moments (Harvester.new world life.startHeight life.endHeight))

/-- The harvesters at the ends of their lives. -/
def ends (P : Processor) (node : Node) (env : DbEnv) :
    List Life → World Store AggregatorMsg → List Harvester
  | [], _ => []
  | life :: rest, world =>
      life.run P node env world :: ends P node env rest (life.run P node env world).world

def survive (P : Processor) (node : Node) (env : DbEnv) (lives : List Life)
    (world : World Store AggregatorMsg) : World Store AggregatorMsg :=
  lives.foldl (fun world life => (life.run P node env world).world) world

theorem Lively.life {A : Job → Prop} {P : Processor} {node : Node} {env : DbEnv}
    {K : Harvester → Prop} (hK : Lively A P node env K) (hnode : node.Consistent) (life : Life)
    (world : World Store AggregatorMsg)
    (hobey : ∀ moment ∈ life.moments, Obeyed node env K moment)
    (hnew : K (Harvester.new world life.startHeight life.endHeight))
    (hlands : LandsOnly A P node env life.moments
      (Harvester.new world life.startHeight life.endHeight)) :
    K (life.run P node env world) :=
  (hK.live hnode life.moments hobey
    ⟨pending_new node world life.startHeight life.endHeight, hnew⟩ hlands).1.2

/-- What each life keeps, given how it went, all of them keep. -/
theorem survive_keeps {P : Processor} {node : Node} {env : DbEnv}
    {J : World Store AggregatorMsg → Prop} {Q : Harvester → Prop}
    (hlife : ∀ (life : Life) world, J world → Q (life.run P node env world) →
      J (life.run P node env world).world) (lives : List Life)
    {world : World Store AggregatorMsg} (h : J world)
    (hends : ∀ k ∈ ends P node env lives world, Q k) : J (survive P node env lives world) := by
  induction lives generalizing world with
  | nil => exact h
  | cons life rest ih =>
      refine ih (hlife life world h (hends _ List.mem_cons_self)) fun k hk => ?_
      exact hends k (List.mem_cons_of_mem _ hk)

theorem ends_keep {P : Processor} {node : Node} {env : DbEnv}
    {J : World Store AggregatorMsg → Prop} {Q R : Harvester → Prop}
    (hlife : ∀ (life : Life) world, J world → Q (life.run P node env world) →
      R (life.run P node env world) ∧ J (life.run P node env world).world) (lives : List Life)
    {world : World Store AggregatorMsg} (h : J world)
    (hends : ∀ k ∈ ends P node env lives world, Q k) :
    ∀ k ∈ ends P node env lives world, R k := by
  induction lives generalizing world with
  | nil =>
      intro k hk
      cases hk
  | cons life rest ih =>
      obtain ⟨hend, hnext⟩ := hlife life world h (hends _ List.mem_cons_self)
      intro k hk
      rcases List.mem_cons.mp hk with rfl | hk
      · exact hend
      · exact ih hnext (fun k' hk' => hends k' (List.mem_cons_of_mem _ hk')) k hk

theorem Job.Handed.row_cases {P : Processor} {node : Node} {env : DbEnv}
    {cursor : Option BlockInfo} {job : Job} {w w' : World Store AggregatorMsg}
    (hnode : node.Consistent) (handed : job.Handed node cursor w.store)
    (hrun : job.run P env w = .ok () w') {row : BlockRow} (hrow : row ∈ w'.store.blocks) :
    row ∈ w.store.blocks ∨ ∃ b ∈ job.blocks, node.Seen b ∧ row.hash = b.header.hash ∧
      row.number = b.header.height ∧ row.previousHash = b.header.previousBlockHash := by
  cases job with
  | first block =>
      exact ((Processor.process_ok hrun).row_cases hrow).imp_right fun hown =>
        ⟨block, List.mem_cons_self, handed.2.1, hown⟩
  | next block =>
      obtain ⟨_, _, hseen, _⟩ := handed
      exact ((Processor.process_ok hrun).row_cases hrow).imp_right fun hown =>
        ⟨block, List.mem_cons_self, hseen, hown⟩
  | fork blocks =>
      obtain ⟨_, block, _, hseen, _, _, hwalk, hne⟩ := handed
      rcases Processor.processFork_rows hnode hwalk hseen (List.getLast?_eq_some_getLast hne) hrun
        hrow with ⟨hold, _⟩ | ⟨b, hb, hown⟩
      · exact .inl hold
      · exact .inr ⟨b, hb, (hwalk.member hnode hseen hb).1, hown⟩

theorem Job.Handed.knows {P : Processor} {node : Node} {env : DbEnv} {cursor : Option BlockInfo}
    {job : Job} {w w' : World Store AggregatorMsg} (hnode : node.Consistent)
    (handed : job.Handed node cursor w.store) (hknows : node.Knows w.store)
    (hrun : job.run P env w = .ok () w') : node.Knows w'.store := by
  intro row hrow
  rcases handed.row_cases hnode hrun hrow with hold | ⟨b, _, hseen, hhash, hnumber, hprev⟩
  · exact hknows row hold
  · obtain ⟨t, hheader⟩ := hseen.header
    exact ⟨t, b.header, hhash ▸ hheader, hnumber, hprev⟩

section Knows

variable {P : Processor} {node : Node} {env : DbEnv}

theorem knows_steady (node : Node) : Steady (fun h => node.Knows h.world.store) := by
  intro h w hstore _ _ hknows
  change node.Knows w.store
  rw [hstore]
  exact hknows

theorem knows_stepwise (hnode : node.Consistent) (env' : DbEnv) :
    Stepwise P node env' 0 (fun h => node.Knows h.world.store) where
  steady := knows_steady node
  first := by
    intro h desired block w committed hknows _ _ hshows hsound
    cases committed with
    | true => exact hsound.indexed.knows hshows.seen hknows
    | false => exact hsound.store_eq.symm ▸ hknows
  next := by
    intro h prevBlock block w hknows _ hshows _ hrun
    exact (Processor.process_ok hrun).knows hshows.seen hknows
  fork := by
    intro h prevBlock block blocks w hknows hcursor hshows hother hwalk hne hrun
    have handed : (Job.fork blocks).Handed node h.lastProcessedBlock h.world.store :=
      ⟨prevBlock, block, hcursor, hshows.seen, hshows.height, hother, hwalk, hne⟩
    exact handed.knows hnode hknows hrun
  failed := by
    intro h job e w hknows _ _ hrun
    exact (Job.run_error hrun).symm ▸ hknows

theorem knows_lively (hnode : node.Consistent) :
    Lively (fun _ => True) P node env (fun h => node.Knows h.world.store) where
  stepwise := knows_stepwise hnode
  landed := by
    intro h entries job before after w hknows _ _ hstore handed hrun
    exact handed.knows hnode (hstore ▸ hknows) hrun

theorem knows_boundless (node : Node) : Boundless (fun h => node.Knows h.world.store) :=
  fun _ _ _ hknows => hknows

theorem knows_obeyed (hnode : node.Consistent) (moment : Moment) :
    Obeyed node env (fun h => node.Knows h.world.store) moment := fun command _ =>
  obey_command hnode (knows_steady node) (knows_boundless node) (fun _ _ => Nat.zero_le _) command
    fun _ _ _ _ _ hknows _ => hknows

theorem survive_knows (P : Processor) (env : DbEnv) (hnode : node.Consistent) (lives : List Life)
    (clock : Nat) : node.Knows (survive P node env lives ⟨Store.empty, [], clock⟩).store := by
  have hlively : Lively (fun _ => True) P node env (fun h => node.Knows h.world.store) :=
    knows_lively hnode
  refine survive_keeps (J := fun w => node.Knows w.store) (Q := fun _ => True) ?_ lives ?_
    fun _ _ => trivial
  · intro life world hknows _
    exact hlively.life hnode life world (fun moment _ => knows_obeyed hnode moment) hknows
      (landsOnly_of_all (fun _ => trivial) P node env life.moments _)
  · intro row hrow
    cases hrow

end Knows

end BtcIndexer
