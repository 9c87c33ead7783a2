import Mathlib.Data.List.Basic

/-! Machines whose moves may be impossible. A run is a list of moves, each of them possible
where it is made. What one move keeps or adds up, a whole run keeps or adds up. -/
namespace Machines

variable {σ α : Type} {step : σ → α → Option σ}

def run (step : σ → α → Option σ) : List α → σ → Option σ
  | [], s => some s
  | move :: rest, s => (step s move).bind (run step rest)

theorem run_cons_eq_some {move : α} {rest : List α} {s s' : σ} :
    run step (move :: rest) s = some s' ↔
      ∃ mid, step s move = some mid ∧ run step rest mid = some s' :=
  Option.bind_eq_some_iff

theorem run_append_eq_some {moves rest : List α} {s s' : σ} :
    run step (moves ++ rest) s = some s' ↔
      ∃ mid, run step moves s = some mid ∧ run step rest mid = some s' := by
  induction moves generalizing s with
  | nil =>
      constructor
      · intro h
        exact ⟨s, rfl, h⟩
      · rintro ⟨mid, hmid, h⟩
        cases hmid
        exact h
  | cons move moves ih =>
      rw [List.cons_append, run_cons_eq_some]
      constructor
      · rintro ⟨s₁, hstep, h⟩
        obtain ⟨mid, hmoves, hrest⟩ := ih.mp h
        exact ⟨mid, run_cons_eq_some.mpr ⟨s₁, hstep, hmoves⟩, hrest⟩
      · rintro ⟨mid, hmoves, hrest⟩
        obtain ⟨s₁, hstep, h⟩ := run_cons_eq_some.mp hmoves
        exact ⟨s₁, hstep, ih.mpr ⟨mid, h, hrest⟩⟩

theorem run_snoc_eq_some {moves : List α} {move : α} {s s' : σ} :
    run step (moves ++ [move]) s = some s' ↔
      ∃ mid, run step moves s = some mid ∧ step mid move = some s' := by
  rw [run_append_eq_some]
  constructor
  · rintro ⟨mid, hmoves, hlast⟩
    obtain ⟨last, hstep, hnil⟩ := run_cons_eq_some.mp hlast
    cases hnil
    exact ⟨mid, hmoves, hstep⟩
  · rintro ⟨mid, hmoves, hstep⟩
    exact ⟨mid, hmoves, run_cons_eq_some.mpr ⟨s', hstep, rfl⟩⟩

/-- What every move keeps, a run keeps. -/
theorem run_keeps {I : σ → Prop} (hstep : ∀ s move s', I s → step s move = some s' → I s')
    {moves : List α} {s s' : σ} (hs : I s) (hrun : run step moves s = some s') : I s' := by
  induction moves generalizing s with
  | nil =>
      cases hrun
      exact hs
  | cons move rest ih =>
      obtain ⟨mid, hfirst, hrest⟩ := run_cons_eq_some.mp hrun
      exact ih (hstep s move mid hs hfirst) hrest

def Along (step : σ → α → Option σ) (A : σ → α → Prop) : List α → σ → Prop
  | [], _ => True
  | move :: rest, s => A s move ∧ ∀ s', step s move = some s' → Along step A rest s'

instance Along.decidable (step : σ → α → Option σ) (A : σ → α → Prop)
    [∀ s move, Decidable (A s move)] : ∀ moves s, Decidable (Along step A moves s)
  | [], _ => inferInstanceAs (Decidable True)
  | move :: rest, s =>
      match hstep : step s move with
      | none => decidable_of_iff (A s move) (by simp [Along, hstep])
      | some s' =>
          have := Along.decidable step A rest s'
          decidable_of_iff (A s move ∧ Along step A rest s') (by simp [Along, hstep])

theorem Along.of_forall {A : σ → α → Prop} {moves : List α} (h : ∀ move ∈ moves, ∀ s, A s move)
    (s : σ) : Along step A moves s := by
  induction moves generalizing s with
  | nil => trivial
  | cons move rest ih =>
      obtain ⟨hfirst, hrest⟩ := List.forall_mem_cons.mp h
      exact ⟨hfirst s, fun s' _ => ih hrest s'⟩

theorem Along.and {A B : σ → α → Prop} {moves : List α} {s : σ} (ha : Along step A moves s)
    (hb : Along step B moves s) : Along step (fun s move => A s move ∧ B s move) moves s := by
  induction moves generalizing s with
  | nil => trivial
  | cons move rest ih =>
      exact ⟨⟨ha.1, hb.1⟩, fun s' hstep => ih (ha.2 s' hstep) (hb.2 s' hstep)⟩

/-- What the moves keep under a condition, a run along which it is met keeps. -/
theorem Along.keeps {A : σ → α → Prop} {I : σ → Prop}
    (hstep : ∀ s move s', A s move → I s → step s move = some s' → I s')
    {moves : List α} {s s' : σ} (halong : Along step A moves s) (hs : I s)
    (hrun : run step moves s = some s') : I s' := by
  induction moves generalizing s with
  | nil =>
      cases hrun
      exact hs
  | cons move rest ih =>
      obtain ⟨mid, hfirst, hrest⟩ := run_cons_eq_some.mp hrun
      exact ih (halong.2 mid hfirst) (hstep s move mid halong.1 hs hfirst) hrest

/-- What the moves do to a state together with the list of moves made so far. -/
theorem run_records {I : List α → σ → Prop}
    (hstep : ∀ past s move s', I past s → step s move = some s' → I (past ++ [move]) s')
    {past moves : List α} {s s' : σ} (hs : I past s) (hrun : run step moves s = some s') :
    I (past ++ moves) s' := by
  induction moves generalizing past s with
  | nil =>
      cases hrun
      rw [List.append_nil]
      exact hs
  | cons move rest ih =>
      obtain ⟨mid, hfirst, hrest⟩ := run_cons_eq_some.mp hrun
      have hnext := ih (hstep past s move mid hs hfirst) hrest
      rwa [List.append_assoc] at hnext

/-- Of two parties each moves its own part. The moves of one, made alone, lead it where it gets
among the moves of the other. `Like` compares its part. -/
theorem Along.filter {A : σ → α → Prop} {mine : α → Bool} {Like : σ → σ → Prop}
    (hmine : ∀ s t move s', A s move → mine move = true → Like s t → step s move = some s' →
      ∃ t', step t move = some t' ∧ Like s' t')
    (hother : ∀ s t move s', A s move → mine move = false → Like s t → step s move = some s' →
      Like s' t)
    {moves : List α} {s s' t : σ} (halong : Along step A moves s) (hlike : Like s t)
    (hrun : run step moves s = some s') :
    ∃ t', run step (moves.filter mine) t = some t' ∧ Like s' t' := by
  induction moves generalizing s t with
  | nil =>
      cases hrun
      exact ⟨t, rfl, hlike⟩
  | cons move rest ih =>
      obtain ⟨mid, hfirst, hrest⟩ := run_cons_eq_some.mp hrun
      cases hmove : mine move with
      | true =>
          obtain ⟨t₁, hstep, hmid⟩ := hmine s t move mid halong.1 hmove hlike hfirst
          obtain ⟨t', hrun', hlike'⟩ := ih (halong.2 mid hfirst) hmid hrest
          refine ⟨t', ?_, hlike'⟩
          rw [List.filter_cons_of_pos hmove]
          exact run_cons_eq_some.mpr ⟨t₁, hstep, hrun'⟩
      | false =>
          have hmid := hother s t move mid halong.1 hmove hlike hfirst
          rw [List.filter_cons_of_neg (by rw [hmove]; exact Bool.false_ne_true)]
          exact ih (halong.2 mid hfirst) hmid hrest

/-- If every move brings a measure down, the measure bounds the length of a run. -/
theorem Along.length_le {A : σ → α → Prop} {I : σ → Prop} (measure : σ → Nat)
    (hstep : ∀ s move s', A s move → I s → step s move = some s' →
      I s' ∧ measure s' < measure s)
    {moves : List α} {s s' : σ} (halong : Along step A moves s) (hs : I s)
    (hrun : run step moves s = some s') : I s' ∧ moves.length + measure s' ≤ measure s := by
  induction moves generalizing s with
  | nil =>
      cases hrun
      exact ⟨hs, by simp⟩
  | cons move rest ih =>
      obtain ⟨mid, hfirst, hrest⟩ := run_cons_eq_some.mp hrun
      obtain ⟨hmid, hlt⟩ := hstep s move mid halong.1 hs hfirst
      obtain ⟨hs', hlength⟩ := ih (halong.2 mid hfirst) hmid hrest
      refine ⟨hs', ?_⟩
      rw [List.length_cons]
      omega

end Machines
