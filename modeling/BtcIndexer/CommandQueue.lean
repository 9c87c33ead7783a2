import BtcIndexer.Api
import BtcIndexer.Machines

/-! The channel of commands between the service and the harvester's loop. It has room for a
hundred commands; a request whose command finds no room waits, and is given up if its client
hangs up. The loop looks for a command before each round, obeys one at a time, and takes the
receiving end with it when it ends. -/
namespace BtcIndexer
open Machines Stateful

/-- A request, by its number, or the task that waits for the shutdown. -/
inductive Sender where
  | client (request : Nat)
  | shutdown
  deriving DecidableEq, Repr

def Sender.request? : Sender → Option Nat
  | .client request => some request
  | .shutdown => none

inductive LoopStage where
  | running
  | returned
  | failed (e : HarvesterError)
  deriving DecidableEq, Repr

/-- The last three fields are for statements about runs: the requests whose clients hung up, the
commands that were put on the channel, and the turns of the loop. Nothing reads them. -/
structure Control where
  harvester : Harvester
  stage : LoopStage
  signalled : Bool
  queue : List Command
  waiting : List (Sender × Command)
  answers : List (Nat × Api.Reply)
  hungUp : List Nat
  entered : List (Sender × Command)
  turns : List Turn

def capacity : Nat := 100

namespace Control

/-- What happens at the channel. A request comes with the database as its handler finds it. -/
inductive Act where
  | request (id : Nat) (request : Api.Request) (db : Api.Database)
  | signal
  /-- A send that waits goes through. -/
  | enter (i : Nat)
  | hangUp (i : Nat)
  | obey
  | round (fuel : Nat)

def new (h : Harvester) : Control := ⟨h, .running, false, [], [], [], [], [], []⟩

def requests (senders : List (Sender × Command)) : List Nat :=
  senders.filterMap fun p => p.1.request?

def answersTo (reply : Api.Reply) (senders : List (Sender × Command)) : List (Nat × Api.Reply) :=
  senders.filterMap fun p => p.1.request?.map fun id => (id, reply)

/-- Without a receiver every send fails. -/
def close (stage : LoopStage) (s : Control) : Control :=
  { s with
    stage := stage
    waiting := []
    answers := s.answers ++ answersTo Api.unsent s.waiting }

def offer (sender : Sender) (command : Command) (s : Control) : Control :=
  if s.stage = .running then { s with waiting := s.waiting ++ [(sender, command)] }
  else { s with answers := s.answers ++ answersTo Api.unsent [(sender, command)] }

section Step

variable (L : Api.Libraries) (P : Processor) (node : Node) (env : DbEnv)

def request (id : Nat) (r : Api.Request) (db : Api.Database) (s : Control) : Control :=
  match r.handled L db with
  | .reply reply => { s with answers := s.answers ++ [(id, reply)] }
  | .send command => s.offer (.client id) command

def signal (s : Control) : Option Control :=
  if s.signalled then none else some { s.offer .shutdown .terminate with signalled := true }

def enter (i : Nat) (s : Control) : Option Control :=
  match s.waiting[i]? with
  | none => none
  | some (sender, command) =>
      if s.queue.length < capacity then some { s with
        queue := s.queue ++ [command]
        waiting := s.waiting.eraseIdx i
        answers := s.answers ++ answersTo Api.sent [(sender, command)]
        entered := s.entered ++ [(sender, command)] }
      else none

def hangUp (i : Nat) (s : Control) : Option Control :=
  match s.waiting[i]? with
  | some (.client id, _) => some { s with
      waiting := s.waiting.eraseIdx i
      hungUp := s.hungUp ++ [id] }
  | _ => none

def turn (turn : Turn) (s : Control) : Control :=
  match start P node env [turn] s.harvester with
  | .error e h => { s with harvester := h, turns := s.turns ++ [turn] }.close (.failed e)
  | .ok () h =>
      if turn = .command .terminate then
        { s with harvester := h, turns := s.turns ++ [turn] }.close .returned
      else { s with harvester := h, turns := s.turns ++ [turn] }

/-- A round is begun only where no command is on the channel. -/
def step (s : Control) : Act → Option Control
  | .request id r db => some (s.request L id r db)
  | .signal => s.signal
  | .enter i => s.enter i
  | .hangUp i => s.hangUp i
  | .obey => match s.queue with
      | [] => none
      | command :: rest => if s.stage = .running then
          some ({ s with queue := rest }.turn P node env (.command command)) else none
  | .round fuel => if s.stage = .running ∧ s.queue = [] then
      some (s.turn P node env (.harvest fuel)) else none

end Step

def Act.request? : Act → Option Nat
  | .request id _ _ => some id
  | _ => none

def asked (acts : List Act) : List Nat := acts.filterMap Act.request?

end Control

def Turn.command? : Turn → Option Command
  | .command c => some c
  | .harvest _ => none

namespace Control

/-- A command with a sender comes from a post to its path, or from the shutdown. -/
def Origin (L : Api.Libraries) (past : List Act) : Sender × Command → Prop
  | (.client id, command) => ∃ r db, Act.request id r db ∈ past ∧ r.method = .post ∧
      r.Names L command
  | (.shutdown, command) => command = .terminate ∧ .signal ∈ past

/-- The channel after a list of acts. The commands that were put on it have been taken by the loop
or are still on it, in order; a request is answered OK exactly if its command was put on it; and
every request is answered once, waits, or was given up by its client. -/
structure Kept (L : Api.Libraries) (past : List Act) (s : Control) : Prop where
  bounded : s.queue.length ≤ capacity
  ordered : s.entered.map Prod.snd = s.turns.filterMap Turn.command? ++ s.queue
  origin : ∀ p ∈ s.entered ++ s.waiting, Origin L past p
  confirmed : ∀ id, (id, Api.sent) ∈ s.answers ↔ ∃ command, (.client id, command) ∈ s.entered
  answered : ∀ id, (asked past).count id = (s.answers.map Prod.fst).count id +
    (requests s.waiting).count id + s.hungUp.count id
  closed : s.stage ≠ .running → s.waiting = []

theorem requests_append (xs ys : List (Sender × Command)) :
    requests (xs ++ ys) = requests xs ++ requests ys := List.filterMap_append

theorem requests_one (sender : Sender) (command : Command) :
    requests [(sender, command)] = sender.request?.toList := by
  cases sender <;> rfl

theorem mem_answersTo {id : Nat} {reply answer : Api.Reply}
    {senders : List (Sender × Command)} : (id, answer) ∈ answersTo reply senders ↔
      answer = reply ∧ ∃ command, (.client id, command) ∈ senders := by
  simp only [answersTo, List.mem_filterMap, Option.map_eq_some_iff, Prod.mk.injEq]
  constructor
  · rintro ⟨⟨sender, command⟩, hmem, other, hrequest, rfl, rfl⟩
    cases sender with
    | shutdown => cases hrequest
    | client request =>
        cases hrequest
        exact ⟨rfl, command, hmem⟩
  · rintro ⟨rfl, command, hmem⟩
    exact ⟨_, hmem, id, rfl, rfl, rfl⟩

theorem map_fst_answersTo (reply : Api.Reply) (senders : List (Sender × Command)) :
    (answersTo reply senders).map Prod.fst = requests senders := by
  simp only [answersTo, requests, List.map_filterMap, Option.map_map]
  congr 1
  funext p
  cases p.1.request? <;> rfl

theorem sent_notMem_unsent {id : Nat} {senders : List (Sender × Command)} :
    (id, Api.sent) ∉ answersTo Api.unsent senders := by
  rw [mem_answersTo]
  rintro ⟨hsame, _⟩
  cases hsame

theorem Origin.mono {L : Api.Libraries} {past : List Act} {act : Act} {p : Sender × Command}
    (h : Origin L past p) : Origin L (past ++ [act]) p := by
  obtain ⟨sender, command⟩ := p
  cases sender with
  | client id =>
      obtain ⟨r, db, hmem, hnames⟩ := h
      exact ⟨r, db, List.mem_append_left _ hmem, hnames⟩
  | shutdown => exact ⟨h.1, List.mem_append_left _ h.2⟩

theorem kept_new (L : Api.Libraries) (h : Harvester) : Kept L [] (new h) where
  bounded := Nat.zero_le _
  ordered := rfl
  origin := fun _ hp => absurd hp List.not_mem_nil
  confirmed := fun _ => by simp [new]
  answered := fun _ => rfl
  closed := fun _ => rfl

theorem perm_eraseIdx {α : Type} {xs : List α} {i : Nat} {a : α} (h : xs[i]? = some a) :
    xs.Perm (a :: xs.eraseIdx i) := by
  obtain ⟨hlt, rfl⟩ := List.getElem?_eq_some_iff.mp h
  exact (List.getElem_cons_eraseIdx_perm hlt).symm

section Steps

variable {L : Api.Libraries} {P : Processor} {node : Node} {env : DbEnv}
variable {past : List Act} {s : Control}

theorem Kept.offer (h : Kept L past s) {act : Act} {sender : Sender} {command : Command}
    (horigin : Origin L (past ++ [act]) (sender, command))
    (hasked : asked (past ++ [act]) = asked past ++ sender.request?.toList) :
    Kept L (past ++ [act]) (s.offer sender command) := by
  unfold Control.offer
  split
  · next hrunning =>
    refine ⟨h.bounded, h.ordered, ?_, h.confirmed, ?_, fun hstage => absurd hrunning hstage⟩
    · intro p hp
      rw [← List.append_assoc] at hp
      rcases List.mem_append.mp hp with hold | hnew
      · exact (h.origin p hold).mono
      · rw [List.mem_singleton.mp hnew]
        exact horigin
    · intro id
      have hbefore := h.answered id
      dsimp only
      rw [hasked, requests_append, requests_one, List.count_append, List.count_append]
      omega
  · next hstage =>
    refine ⟨h.bounded, h.ordered, fun p hp => (h.origin p hp).mono, ?_, ?_, h.closed⟩
    · intro id
      rw [← h.confirmed id, List.mem_append, or_iff_left sent_notMem_unsent]
    · intro id
      have hbefore := h.answered id
      dsimp only
      rw [hasked, List.map_append, map_fst_answersTo, requests_one, List.count_append,
        List.count_append]
      omega

theorem Kept.request (h : Kept L past s) (id : Nat) (r : Api.Request) (db : Api.Database) :
    Kept L (past ++ [.request id r db]) (s.request L id r db) := by
  have hasked : asked (past ++ [.request id r db]) = asked past ++ [id] :=
    List.filterMap_append
  unfold Control.request
  split
  · next reply hreply =>
    refine ⟨h.bounded, h.ordered, fun p hp => (h.origin p hp).mono, ?_, ?_, h.closed⟩
    · intro other
      have hother : (other, Api.sent) ≠ (id, reply) := fun hsame =>
        Api.handled_reply_ne_sent hreply (congrArg Prod.snd hsame).symm
      rw [← h.confirmed other, List.mem_append, List.mem_singleton, or_iff_left hother]
    · intro other
      have hbefore := h.answered other
      dsimp only
      rw [hasked, List.map_append, List.count_append, List.count_append]
      change _ + [id].count other = _ + [id].count other + _ + _
      omega
  · next command hsend =>
    obtain ⟨hmethod, hnames⟩ := (Api.target_iff command).mp (Api.handled_target_iff.mp hsend)
    exact h.offer ⟨r, db, List.mem_append_right _ List.mem_cons_self, hmethod, hnames⟩ hasked

theorem Kept.later (h : Kept L past s) {act : Act} (hact : act.request? = none) :
    Kept L (past ++ [act]) s := by
  have hasked : asked (past ++ [act]) = asked past := by
    rw [asked, List.filterMap_append, List.filterMap_cons_none hact]
    exact List.append_nil _
  exact ⟨h.bounded, h.ordered, fun p hp => (h.origin p hp).mono, h.confirmed,
    hasked ▸ h.answered, h.closed⟩

theorem Kept.signal (h : Kept L past s) {s' : Control} (hstep : s.signal = some s') :
    Kept L (past ++ [.signal]) s' := by
  unfold Control.signal at hstep
  split at hstep
  · cases hstep
  · cases hstep
    have hoffer : Kept L (past ++ [.signal]) (s.offer .shutdown .terminate) := by
      refine h.offer ⟨rfl, List.mem_append_right _ List.mem_cons_self⟩ ?_
      exact List.filterMap_append
    exact ⟨hoffer.bounded, hoffer.ordered, hoffer.origin, hoffer.confirmed, hoffer.answered,
      hoffer.closed⟩

theorem Kept.enter (h : Kept L past s) {i : Nat} {s' : Control} (hstep : s.enter i = some s') :
    Kept L past s' := by
  unfold Control.enter at hstep
  split at hstep
  · cases hstep
  · next sender command hget =>
    obtain ⟨hroom, hs'⟩ := Option.ite_none_right_eq_some.mp hstep
    cases hs'
    have hwaiting : s.waiting.Perm ((sender, command) :: s.waiting.eraseIdx i) :=
      perm_eraseIdx hget
    have hmem : (sender, command) ∈ s.waiting := hwaiting.symm.subset List.mem_cons_self
    refine ⟨?_, ?_, fun p hp => h.origin p ?_, fun id => ?_, fun id => ?_, fun hstage => ?_⟩
    · rw [List.length_append]
      exact hroom
    · rw [List.map_append, h.ordered, List.append_assoc]
      rfl
    · rw [List.mem_append, List.mem_append] at hp
      rcases hp with (hentered | hnew) | hwait
      · exact List.mem_append_left _ hentered
      · exact List.mem_append_right _ (List.mem_singleton.mp hnew ▸ hmem)
      · exact List.mem_append_right _ (List.mem_of_mem_eraseIdx hwait)
    · rw [List.mem_append, h.confirmed id, mem_answersTo]
      simp only [true_and, List.mem_append, exists_or]
    · have hbefore := h.answered id
      have hcount := (hwaiting.filterMap (fun p => p.1.request?)).count_eq id
      change (requests _).count id = (requests ([(sender, command)] ++ _)).count id at hcount
      rw [requests_append, List.count_append] at hcount
      dsimp only
      rw [List.map_append, map_fst_answersTo, List.count_append]
      omega
    · rw [h.closed hstage] at hget
      cases hget

theorem Kept.hangUp (h : Kept L past s) {i : Nat} {s' : Control} (hstep : s.hangUp i = some s') :
    Kept L past s' := by
  unfold Control.hangUp at hstep
  split at hstep
  · next id command hget =>
    cases hstep
    have hwaiting := perm_eraseIdx hget
    refine ⟨h.bounded, h.ordered, fun p hp => h.origin p ?_, h.confirmed, fun other => ?_,
      fun hstage => ?_⟩
    · rcases List.mem_append.mp hp with hentered | hwait
      · exact List.mem_append_left _ hentered
      · exact List.mem_append_right _ (List.mem_of_mem_eraseIdx hwait)
    · have hbefore := h.answered other
      have hcount := (hwaiting.filterMap (fun p => p.1.request?)).count_eq other
      change (requests _).count other = (requests ([(.client id, command)] ++ _)).count other
        at hcount
      rw [requests_append, List.count_append, requests_one] at hcount
      change _ = [id].count other + _ at hcount
      dsimp only
      rw [List.count_append]
      omega
    · rw [h.closed hstage] at hget
      cases hget
  · cases hstep

theorem Kept.close (h : Kept L past s) (stage : LoopStage) : Kept L past (s.close stage) where
  bounded := h.bounded
  ordered := h.ordered
  origin := fun p hp => h.origin p (List.mem_append_left _ (by
    rw [Control.close, List.append_nil] at hp
    exact hp))
  confirmed := fun id => by
    change (id, Api.sent) ∈ s.answers ++ answersTo Api.unsent s.waiting ↔ _
    rw [List.mem_append, or_iff_left sent_notMem_unsent]
    exact h.confirmed id
  answered := fun id => by
    have hbefore := h.answered id
    rw [Control.close, List.map_append, map_fst_answersTo, List.count_append]
    change _ = _ + _ + 0 + _
    exact hbefore
  closed := fun _ => rfl

theorem Kept.turn (h : Kept L past s) {turn : Turn} {rest : List Command}
    (hqueue : s.queue = turn.command?.toList ++ rest) :
    Kept L past ({ s with queue := rest }.turn P node env turn) := by
  have htaken : ∀ h' : Harvester, Kept L past { s with
      queue := rest
      harvester := h'
      turns := s.turns ++ [turn] } := fun h' => by
    refine ⟨?_, ?_, h.origin, h.confirmed, h.answered, h.closed⟩
    · have hbounded := h.bounded
      rw [hqueue, List.length_append] at hbounded
      exact Nat.le_trans (Nat.le_add_left _ _) hbounded
    · rw [h.ordered, hqueue, List.filterMap_append, List.append_assoc]
      cases turn <;> rfl
  unfold Control.turn
  split
  · exact (htaken _).close _
  · split
    · exact (htaken _).close _
    · exact htaken _

theorem Kept.step (h : Kept L past s) {act : Act} {s' : Control}
    (hstep : s.step L P node env act = some s') : Kept L (past ++ [act]) s' := by
  cases act with
  | request id r db =>
      cases hstep
      exact h.request id r db
  | signal => exact h.signal hstep
  | enter i => exact (h.enter hstep).later rfl
  | hangUp i => exact (h.hangUp hstep).later rfl
  | obey =>
      rw [Control.step] at hstep
      split at hstep
      · cases hstep
      · next command rest hqueue =>
        obtain ⟨_, hs'⟩ := Option.ite_none_right_eq_some.mp hstep
        cases hs'
        exact (h.turn hqueue).later rfl
  | round fuel =>
      obtain ⟨⟨_, hempty⟩, hs'⟩ := Option.ite_none_right_eq_some.mp hstep
      cases hs'
      have hqueue : s.queue = (Turn.harvest fuel).command?.toList ++ s.queue := rfl
      exact (h.turn hqueue).later rfl

/-- After turns that the loop went through, the next is taken where they ended. -/
theorem start_snoc {turns : List Turn} {h₀ h : Harvester}
    (hopen : .command .terminate ∉ turns) (hrun : start P node env turns h₀ = .ok () h)
    (turn : Turn) : start P node env (turns ++ [turn]) h₀ = start P node env [turn] h := by
  induction turns generalizing h₀ with
  | nil =>
      cases hrun
      rfl
  | cons first rest ih =>
      rw [List.mem_cons, not_or] at hopen
      obtain ⟨hfirst, hrest⟩ := hopen
      rw [start_cons (Ne.symm hfirst)] at hrun
      obtain ⟨_, mid, hone, hmore⟩ := bind_eq_ok.mp hrun
      rw [List.cons_append, start_cons (Ne.symm hfirst), bind_of_ok hone]
      exact ih hrest hmore

def outcome (s : Control) : EStateM.Result HarvesterError Harvester Unit :=
  match s.stage with
  | .running | .returned => .ok () s.harvester
  | .failed e => .error e s.harvester

/-- The turns taken are a run of the loop, and it goes on until it is told to end. No turn follows
a command to terminate or an error. -/
structure Looped (P : Processor) (node : Node) (env : DbEnv) (h₀ : Harvester) (s : Control) :
    Prop where
  result : start P node env s.turns h₀ = s.outcome
  going : s.stage = .running → .command .terminate ∉ s.turns
  unended : ∀ taken later, s.turns = taken ++ later → later ≠ [] →
    .command .terminate ∉ taken ∧ ∃ h, start P node env taken h₀ = .ok () h

variable {h₀ : Harvester}

theorem looped_new : Looped P node env h₀ (new h₀) where
  result := rfl
  going := fun _ => List.not_mem_nil
  unended := fun _ _ hturns hlater => absurd (List.append_eq_nil_iff.mp hturns.symm).2 hlater

theorem Looped.congr (h : Looped P node env h₀ s) {s' : Control}
    (hharvester : s'.harvester = s.harvester) (hstage : s'.stage = s.stage)
    (hturns : s'.turns = s.turns) : Looped P node env h₀ s' := by
  have houtcome : s'.outcome = s.outcome := by rw [outcome, outcome, hharvester, hstage]
  exact ⟨by rw [hturns, houtcome, h.result], hstage ▸ hturns ▸ h.going, hturns ▸ h.unended⟩

theorem Looped.turn (h : Looped P node env h₀ s) (hrunning : s.stage = .running) (turn : Turn) :
    Looped P node env h₀ (s.turn P node env turn) := by
  have hgoing := h.going hrunning
  have hrun : start P node env s.turns h₀ = .ok () s.harvester := by
    rw [h.result, outcome, hrunning]
  have hnext := start_snoc hgoing hrun turn
  have hunended : ∀ taken later, s.turns ++ [turn] = taken ++ later → later ≠ [] →
      .command .terminate ∉ taken ∧ ∃ h, start P node env taken h₀ = .ok () h := by
    intro taken later hturns hlater
    obtain ⟨before, last, rfl⟩ := (List.eq_nil_or_concat' later).resolve_left hlater
    rw [← List.append_assoc] at hturns
    obtain ⟨hbefore, _⟩ := List.append_inj' hturns rfl
    by_cases hnone : before = []
    · rw [hnone, List.append_nil] at hbefore
      exact hbefore ▸ ⟨hgoing, _, hrun⟩
    · exact h.unended taken before hbefore hnone
  unfold Control.turn
  split
  · next e h' herror => exact ⟨hnext.trans herror, (fun hstage => by cases hstage), hunended⟩
  · next h' hok =>
    split
    · exact ⟨hnext.trans hok, (fun hstage => by cases hstage), hunended⟩
    · next hturn =>
      refine ⟨?_, fun _ => ?_, hunended⟩
      · rw [outcome, hrunning]
        exact hnext.trans hok
      · intro hmem
        rcases List.mem_append.mp hmem with hold | hnew
        · exact hgoing hold
        · exact hturn (List.mem_singleton.mp hnew).symm

theorem offer_loop (sender : Sender) (command : Command) (s : Control) :
    (s.offer sender command).harvester = s.harvester ∧
      (s.offer sender command).stage = s.stage ∧ (s.offer sender command).turns = s.turns := by
  unfold Control.offer
  split
  · exact ⟨rfl, rfl, rfl⟩
  · exact ⟨rfl, rfl, rfl⟩

theorem Looped.step (h : Looped P node env h₀ s) {act : Act} {s' : Control}
    (hstep : s.step L P node env act = some s') : Looped P node env h₀ s' := by
  cases act with
  | request id r db =>
      cases hstep
      unfold Control.request
      split
      · exact h.congr rfl rfl rfl
      · obtain ⟨hharvester, hstage, hturns⟩ := offer_loop (.client id) _ s
        exact h.congr hharvester hstage hturns
  | signal =>
      rw [Control.step, Control.signal] at hstep
      split at hstep
      · cases hstep
      · cases hstep
        obtain ⟨hharvester, hstage, hturns⟩ := offer_loop .shutdown .terminate s
        exact h.congr hharvester hstage hturns
  | enter i =>
      rw [Control.step, Control.enter] at hstep
      split at hstep
      · cases hstep
      · obtain ⟨_, hs'⟩ := Option.ite_none_right_eq_some.mp hstep
        cases hs'
        exact h.congr rfl rfl rfl
  | hangUp i =>
      rw [Control.step, Control.hangUp] at hstep
      split at hstep
      · cases hstep
        exact h.congr rfl rfl rfl
      · cases hstep
  | obey =>
      rw [Control.step] at hstep
      split at hstep
      · cases hstep
      · next command rest hqueue =>
        obtain ⟨hrunning, hs'⟩ := Option.ite_none_right_eq_some.mp hstep
        cases hs'
        have htaken : Looped P node env h₀ { s with queue := rest } := h.congr rfl rfl rfl
        exact htaken.turn hrunning _
  | round fuel =>
      obtain ⟨⟨hrunning, _⟩, hs'⟩ := Option.ite_none_right_eq_some.mp hstep
      cases hs'
      exact h.turn hrunning _

end Steps

theorem kept_run {L : Api.Libraries} {P : Processor} {node : Node} {env : DbEnv}
    {h₀ : Harvester} {acts : List Act} {s : Control}
    (hrun : run (step L P node env) acts (new h₀) = some s) : Kept L acts s :=
  run_records (I := Kept L) (fun _ _ _ _ hs hact => hs.step hact) (kept_new L h₀) hrun

theorem looped_run {L : Api.Libraries} {P : Processor} {node : Node} {env : DbEnv}
    {h₀ : Harvester} {acts : List Act} {s : Control}
    (hrun : run (step L P node env) acts (new h₀) = some s) : Looped P node env h₀ s :=
  run_keeps (fun _ _ _ hs hact => hs.step hact) looped_new hrun

/-- Whatever is asked of the service and however the sends, the turns of the loop, a shutdown and
the clients that hang up fall between each other: the channel keeps its commands, and the loop
has run over the turns that it took. -/
theorem commands_kept (L : Api.Libraries) (P : Processor) (node : Node) (env : DbEnv)
    (h₀ : Harvester) (acts : List Act) (s : Control)
    (hrun : run (step L P node env) acts (new h₀) = some s) :
    Kept L acts s ∧ Looped P node env h₀ s := ⟨kept_run hrun, looped_run hrun⟩

/-- A scan that its client gives up, a pause that overtakes it, and a shutdown. -/
def overtaken : List Act :=
  [.request 1 (Api.Subcommand.request (.scanBlock 1 2)) .down,
    .request 2 (Api.Subcommand.request .pause) .down, .enter 1, .hangUp 0, .obey, .round 3, .signal,
    .enter 0, .obey, .request 3 (Api.Subcommand.request .resume) .down]

theorem overtaken_kept : ∃ s, run (step (.ofTextForms .mainnet "invalid") Processor.mainnet
      (Node.ofBlocks spaced) DbEnv.calm) overtaken
        (new (.new ⟨Store.empty, [], 0⟩ (some 1) none)) = some s ∧
    Kept (.ofTextForms .mainnet "invalid") overtaken s ∧
    Looped Processor.mainnet (Node.ofBlocks spaced) DbEnv.calm
      (.new ⟨Store.empty, [], 0⟩ (some 1) none) s := by
  have hruns : (run (step (.ofTextForms .mainnet "invalid") Processor.mainnet
      (Node.ofBlocks spaced) DbEnv.calm) overtaken
        (new (.new ⟨Store.empty, [], 0⟩ (some 1) none))).isSome = true := by decide +kernel
  obtain ⟨s, hs⟩ := Option.isSome_iff_exists.mp hruns
  exact ⟨s, hs, commands_kept _ _ _ _ _ _ s hs⟩

/-- An answer is that of a send, and of one that failed only where the loop is over, or the
handler has given it by itself. -/
def Told (L : Api.Libraries) (past : List Act) (s : Control) (p : Nat × Api.Reply) : Prop :=
  p.2 = Api.sent ∨ (p.2 = Api.unsent ∧ s.stage ≠ .running) ∨
    ∃ r db, .request p.1 r db ∈ past ∧ r.handled L db = .reply p.2

section Told

variable {L : Api.Libraries} {P : Processor} {node : Node} {env : DbEnv}
variable {past : List Act} {act : Act} {s s' : Control}

theorem Told.later {p : Nat × Api.Reply} (h : Told L past s p)
    (hstage : s.stage ≠ .running → s'.stage ≠ .running) : Told L (past ++ [act]) s' p := by
  rcases h with hsent | ⟨hunsent, hover⟩ | ⟨r, db, hmem, hreply⟩
  · exact .inl hsent
  · exact .inr (.inl ⟨hunsent, hstage hover⟩)
  · exact .inr (.inr ⟨r, db, List.mem_append_left _ hmem, hreply⟩)

theorem told_unsent {p : Nat × Api.Reply} {senders : List (Sender × Command)}
    (hp : p ∈ answersTo Api.unsent senders) (hstage : s.stage ≠ .running) : Told L past s p :=
  .inr (.inl ⟨(mem_answersTo.mp hp).1, hstage⟩)

theorem told_offer (h : ∀ p ∈ s.answers, Told L past s p) (sender : Sender) (command : Command) :
    ∀ p ∈ (s.offer sender command).answers,
      Told L (past ++ [act]) (s.offer sender command) p := by
  unfold Control.offer
  split
  · exact fun p hp => (h p hp).later fun hstage => hstage
  · next hover =>
    intro p hp
    rcases List.mem_append.mp hp with hold | hnew
    · exact (h p hold).later fun hstage => hstage
    · exact told_unsent hnew hover

theorem told_close (h : ∀ p ∈ s.answers, Told L past s p) {stage : LoopStage}
    (hstage : stage ≠ .running) :
    ∀ p ∈ (s.close stage).answers, Told L (past ++ [act]) (s.close stage) p := by
  intro p hp
  rcases List.mem_append.mp hp with hold | hnew
  · exact (h p hold).later fun _ => hstage
  · exact told_unsent hnew hstage

theorem told_turn (h : ∀ p ∈ s.answers, Told L past s p) (turn : Turn) :
    ∀ p ∈ (s.turn P node env turn).answers,
      Told L (past ++ [act]) (s.turn P node env turn) p := by
  have hmoved : ∀ h' : Harvester, ∀ p ∈ s.answers,
      Told L past { s with harvester := h', turns := s.turns ++ [turn] } p := fun _ => h
  unfold Control.turn
  split
  · next e h' _ => exact told_close (hmoved h') fun hstage => by cases hstage
  · next h' _ =>
    split
    · exact told_close (hmoved h') fun hstage => by cases hstage
    · exact fun p hp => (hmoved h' p hp).later fun hstage => hstage

theorem told_step (h : ∀ p ∈ s.answers, Told L past s p)
    (hstep : s.step L P node env act = some s') :
    ∀ p ∈ s'.answers, Told L (past ++ [act]) s' p := by
  cases act with
  | request id r db =>
      cases hstep
      unfold Control.request
      split
      · next reply hreply =>
        intro p hp
        rcases List.mem_append.mp hp with hold | hnew
        · exact (h p hold).later fun hstage => hstage
        · rw [List.mem_singleton.mp hnew]
          exact .inr (.inr ⟨r, db, List.mem_append_right _ List.mem_cons_self, hreply⟩)
      · exact told_offer h _ _
  | signal =>
      rw [Control.step, Control.signal] at hstep
      split at hstep
      · cases hstep
      · cases hstep
        exact told_offer h .shutdown .terminate
  | enter i =>
      rw [Control.step, Control.enter] at hstep
      split at hstep
      · cases hstep
      · obtain ⟨_, hs'⟩ := Option.ite_none_right_eq_some.mp hstep
        cases hs'
        intro p hp
        rcases List.mem_append.mp hp with hold | hnew
        · exact (h p hold).later fun hstage => hstage
        · exact .inl (mem_answersTo.mp hnew).1
  | hangUp i =>
      rw [Control.step, Control.hangUp] at hstep
      split at hstep
      · cases hstep
        exact fun p hp => (h p hp).later fun hstage => hstage
      · cases hstep
  | obey =>
      rw [Control.step] at hstep
      split at hstep
      · cases hstep
      · next command rest hqueue =>
        obtain ⟨_, hs'⟩ := Option.ite_none_right_eq_some.mp hstep
        cases hs'
        exact told_turn (s := { s with queue := rest }) h _
  | round fuel =>
      obtain ⟨_, hs'⟩ := Option.ite_none_right_eq_some.mp hstep
      cases hs'
      exact told_turn h _

theorem told_run {h₀ : Harvester} {acts : List Act}
    (hrun : run (step L P node env) acts (new h₀) = some s) :
    ∀ p ∈ s.answers, Told L acts s p := by
  have hnew : ∀ p ∈ (new h₀).answers, Told L [] (new h₀) p :=
    fun p hp => absurd hp List.not_mem_nil
  exact run_records (I := fun past s => ∀ p ∈ s.answers, Told L past s p)
    (fun _ _ _ _ hs hact => told_step hs hact) hnew hrun

end Told

/-- The tool is told of success exactly if its command has been put on the channel, and it then has
the same place among the commands that the loop has taken or is to find there; it is told of a
failure only if it asked for a scan that runs backwards, or the loop is over. -/
theorem tool_told (L : Api.Libraries) (P : Processor) (node : Node) (env : DbEnv)
    (h₀ : Harvester) (acts : List Act) (s : Control) (id : Nat) (sub : Api.Subcommand)
    (htyped : sub.Typed) (htool : ∀ r db, .request id r db ∈ acts → r = sub.request)
    (hrun : run (step L P node env) acts (new h₀) = some s) :
    ((∃ reply, (id, reply) ∈ s.answers ∧ Api.Subcommand.succeeds reply = true) ↔
      ∃ command, ∃ i : Nat, sub.command = .ok command ∧
        s.entered[i]? = some (.client id, command) ∧
        (s.turns.filterMap Turn.command? ++ s.queue)[i]? = some command) ∧
      ((∃ reply, (id, reply) ∈ s.answers ∧ Api.Subcommand.succeeds reply = false) →
        (∃ e, sub.command = .error e) ∨ s.stage ≠ .running) := by
  have hkept := kept_run hrun
  have hrefused : ∀ {reply}, (∃ r db, .request id r db ∈ acts ∧ r.handled L db = .reply reply) →
      ∃ e, sub.command = .error e ∧ reply = .of (.error e) := by
    rintro reply ⟨r, db, hmem, hreply⟩
    rw [htool r db hmem, Api.Subcommand.handled_request L db sub htyped] at hreply
    exact Api.Handled.of_eq_reply hreply
  refine ⟨⟨?_, ?_⟩, ?_⟩
  · rintro ⟨reply, hmem, hsucceeds⟩
    have hsent : reply = Api.sent := by
      rcases told_run hrun _ hmem with hsent | ⟨hunsent, _⟩ | hown
      · exact hsent
      · obtain rfl : reply = Api.unsent := hunsent
        cases hsucceeds
      · obtain ⟨e, _, rfl⟩ := hrefused hown
        rw [Api.Subcommand.succeeds_error] at hsucceeds
        cases hsucceeds
    rw [hsent] at hmem
    obtain ⟨command, hentered⟩ := (hkept.confirmed id).mp hmem
    obtain ⟨r, db, hasked, hmethod, hnames⟩ := hkept.origin _ (List.mem_append_left _ hentered)
    have hsend : r.handled L db = .send command :=
      Api.handled_target_iff.mpr ((Api.target_iff command).mpr ⟨hmethod, hnames⟩)
    rw [htool r db hasked, Api.Subcommand.handled_request L db sub htyped] at hsend
    obtain ⟨i, hplace⟩ := List.mem_iff_getElem?.mp hentered
    refine ⟨command, i, Api.Handled.of_eq_send.mp hsend, hplace, ?_⟩
    rw [← hkept.ordered, List.getElem?_map, hplace]
    rfl
  · rintro ⟨command, i, _, hplace, _⟩
    exact ⟨Api.sent, (hkept.confirmed id).mpr ⟨command, List.mem_of_getElem? hplace⟩, rfl⟩
  · rintro ⟨reply, hmem, hfails⟩
    rcases told_run hrun _ hmem with hsent | ⟨_, hover⟩ | hown
    · obtain rfl : reply = Api.sent := hsent
      cases hfails
    · exact .inr hover
    · obtain ⟨e, herror, _⟩ := hrefused hown
      exact .inl ⟨e, herror⟩

theorem overtaken_told : ∃ s, run (step (.ofTextForms .mainnet "invalid") Processor.mainnet
      (Node.ofBlocks spaced) DbEnv.calm) overtaken
        (new (.new ⟨Store.empty, [], 0⟩ (some 1) none)) = some s ∧
    ((∃ reply, (2, reply) ∈ s.answers ∧ Api.Subcommand.succeeds reply = true) ↔
      ∃ command, ∃ i : Nat, Api.Subcommand.pause.command = .ok command ∧
        s.entered[i]? = some (.client 2, command) ∧
        (s.turns.filterMap Turn.command? ++ s.queue)[i]? = some command) ∧
    ((∃ reply, (2, reply) ∈ s.answers ∧ Api.Subcommand.succeeds reply = false) →
      (∃ e, Api.Subcommand.pause.command = .error e) ∨ s.stage ≠ .running) := by
  have hruns : (run (step (.ofTextForms .mainnet "invalid") Processor.mainnet
      (Node.ofBlocks spaced) DbEnv.calm) overtaken
        (new (.new ⟨Store.empty, [], 0⟩ (some 1) none))).isSome = true := by decide +kernel
  obtain ⟨s, hs⟩ := Option.isSome_iff_exists.mp hruns
  have htool : ∀ r db, .request 2 r db ∈ overtaken → r = Api.Subcommand.pause.request := by
    intro r db hmem
    simp only [overtaken, List.mem_cons, Act.request.injEq, List.not_mem_nil, reduceCtorEq,
      Nat.reduceEqDiff, OfNat.ofNat_ne_one, false_and, true_and, false_or, or_false] at hmem
    exact hmem.1
  exact ⟨s, hs, tool_told _ _ _ _ _ _ s 2 .pause trivial htool hs⟩

end Control

def Command.Lawful : Command → Prop
  | .scanBlock first last => first ≤ last ∧ last < 2 ^ 64
  | .terminate | .pause | .autoScan => True

theorem Api.Request.Names.lawful {L : Api.Libraries} {r : Api.Request} {c : Command}
    (h : r.Names L c) : c.Lawful := by
  cases c with
  | terminate => trivial
  | pause => trivial
  | autoScan => trivial
  | scanBlock first last =>
      obtain ⟨_, _, _, _, hlast, hle⟩ := h
      exact ⟨hle, Routing.fromStr_lt hlast⟩

def Command.subcommand : Command → Api.Subcommand
  | .scanBlock first last => .scanBlock first last
  | .terminate => .terminate
  | .pause => .pause
  | .autoScan => .resume

theorem Command.Lawful.handled {c : Command} (h : c.Lawful) (L : Api.Libraries)
    (db : Api.Database) : c.subcommand.request.handled L db = .send c := by
  cases c with
  | terminate => exact Api.Subcommand.handled_request L db .terminate trivial
  | pause => exact Api.Subcommand.handled_request L db .pause trivial
  | autoScan => exact Api.Subcommand.handled_request L db .resume trivial
  | scanBlock first last =>
      have hhandled := Api.Subcommand.handled_request L db (.scanBlock first last)
        ⟨Nat.lt_of_le_of_lt h.1 h.2, h.2⟩
      rw [Api.Subcommand.command, if_neg (Nat.not_lt.mpr h.1)] at hhandled
      exact hhandled

namespace Control

variable {L : Api.Libraries} {P : Processor} {node : Node} {env : DbEnv} {h₀ : Harvester}

/-- The acts that bring a turn about, one request for each command. -/
def actsOf : Turn → List Act
  | .command c => [.request 0 c.subcommand.request .down, .enter 0, .obey]
  | .harvest fuel => [.round fuel]

theorem run_actsOf (L : Api.Libraries) (P : Processor) (node : Node) (env : DbEnv) {s : Control}
    (hrunning : s.stage = .running) (hqueue : s.queue = []) (hwaiting : s.waiting = [])
    {turn : Turn} (hlawful : ∀ c ∈ turn.command?, c.Lawful) :
    ∃ s₁ : Control, run (step L P node env) (actsOf turn) s = some (s₁.turn P node env turn) ∧
      s₁.harvester = s.harvester ∧ s₁.stage = .running ∧ s₁.queue = [] ∧ s₁.waiting = [] := by
  cases turn with
  | harvest fuel =>
      refine ⟨s, ?_, rfl, hrunning, hqueue, hwaiting⟩
      have hstep : step L P node env s (.round fuel) = some (s.turn P node env (.harvest fuel)) :=
        if_pos ⟨hrunning, hqueue⟩
      exact run_cons_eq_some.mpr ⟨_, hstep, rfl⟩
  | command c =>
      have hhandled := (hlawful c rfl).handled L .down
      have hrequest : s.request L 0 c.subcommand.request .down =
          { s with waiting := [(.client 0, c)] } := by
        simp only [Control.request, hhandled, Control.offer, hrunning, if_true, hwaiting,
          List.nil_append]
      have henter : ({ s with waiting := [(.client 0, c)] } : Control).enter 0 = some { s with
          queue := [c]
          waiting := []
          answers := s.answers ++ [(0, Api.sent)]
          entered := s.entered ++ [(.client 0, c)] } := by
        simp only [Control.enter, List.getElem?_cons_zero, hqueue, List.nil_append]
        rfl
      refine ⟨{ s with
        queue := []
        waiting := []
        answers := s.answers ++ [(0, Api.sent)]
        entered := s.entered ++ [(.client 0, c)] }, ?_, rfl, hrunning, rfl, rfl⟩
      refine run_cons_eq_some.mpr ⟨_, congrArg some hrequest, ?_⟩
      refine run_cons_eq_some.mpr ⟨_, henter, ?_⟩
      exact run_cons_eq_some.mpr ⟨_, if_pos hrunning, rfl⟩

theorem run_turns (turns : List Turn)
    (hlawful : ∀ turn ∈ turns, ∀ c ∈ turn.command?, c.Lawful) {s : Control}
    (hrunning : s.stage = .running) (hqueue : s.queue = []) (hwaiting : s.waiting = []) :
    ∃ acts, ∃ s' : Control, run (step L P node env) acts s = some s' ∧
      s'.outcome = start P node env turns s.harvester := by
  induction turns generalizing s with
  | nil => exact ⟨[], s, rfl, by rw [outcome, hrunning]; rfl⟩
  | cons turn rest ih =>
      obtain ⟨hturn, hrest⟩ := List.forall_mem_cons.mp hlawful
      obtain ⟨s₁, hfirst, hharvester, hrunning₁, hqueue₁, hwaiting₁⟩ :=
        run_actsOf L P node env hrunning hqueue hwaiting hturn
      by_cases hend : turn = .command .terminate
      · subst hend
        refine ⟨_, _, hfirst, ?_⟩
        rw [← hharvester]
        rfl
      · rw [start_cons hend, ← hharvester]
        cases hone : start P node env [turn] s₁.harvester with
        | error e h =>
            refine ⟨_, _, hfirst, ?_⟩
            rw [bind_of_error hone, Control.turn, hone]
            rfl
        | ok _ h =>
            have hnext : s₁.turn P node env turn =
                { s₁ with harvester := h, turns := s₁.turns ++ [turn] } := by
              rw [Control.turn, hone]
              exact if_neg hend
            have hrunning' : (s₁.turn P node env turn).stage = .running := hnext ▸ hrunning₁
            have hqueue' : (s₁.turn P node env turn).queue = [] := hnext ▸ hqueue₁
            have hwaiting' : (s₁.turn P node env turn).waiting = [] := hnext ▸ hwaiting₁
            obtain ⟨acts, s', hacts, houtcome⟩ := ih hrest hrunning' hqueue' hwaiting'
            rw [hnext] at houtcome
            refine ⟨actsOf turn ++ acts, s', run_append_eq_some.mpr ⟨_, hfirst, hacts⟩, ?_⟩
            rw [bind_of_ok hone]
            exact houtcome

theorem Kept.lawful {past : List Act} {s : Control} (h : Kept L past s) {turn : Turn}
    (hturn : turn ∈ s.turns) {c : Command} (hc : c ∈ turn.command?) : c.Lawful := by
  have hobeyed : c ∈ s.entered.map Prod.snd := by
    rw [h.ordered]
    exact List.mem_append_left _ (List.mem_filterMap.mpr ⟨turn, hturn, hc⟩)
  obtain ⟨⟨sender, command⟩, hmem, rfl⟩ := List.mem_map.mp hobeyed
  have horigin := h.origin _ (List.mem_append_left _ hmem)
  cases sender with
  | client id =>
      obtain ⟨_, _, _, _, hnames⟩ := horigin
      exact hnames.lawful
  | shutdown =>
      obtain ⟨rfl, _⟩ := horigin
      trivial

/-- What the harvester can come to while the service runs is what its loop can come to over turns
whose scans run forwards and have machine numbers. -/
theorem outcome_iff (L : Api.Libraries) (P : Processor) (node : Node) (env : DbEnv)
    (h₀ : Harvester) (result : EStateM.Result HarvesterError Harvester Unit) :
    (∃ acts, ∃ s : Control,
      run (step L P node env) acts (new h₀) = some s ∧ s.outcome = result) ↔
      ∃ turns, (∀ turn ∈ turns, ∀ c ∈ turn.command?, c.Lawful) ∧
        start P node env turns h₀ = result := by
  constructor
  · rintro ⟨acts, s, hrun, rfl⟩
    exact ⟨s.turns, fun _ hturn _ hc => (kept_run hrun).lawful hturn hc, (looped_run hrun).result⟩
  · rintro ⟨turns, hlawful, rfl⟩
    exact run_turns turns hlawful rfl rfl rfl

end Control
end BtcIndexer
