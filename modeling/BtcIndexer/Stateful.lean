/-! Computations with an error and a state that survives it: `EStateM` read backwards, and
the relations between the state before and the state after that a computation respects. -/
namespace Stateful

variable {ε σ α β : Type}

theorem bind_eq_ok {x : EStateM ε σ α} {f : α → EStateM ε σ β} {s s' : σ} {b : β} :
    (x >>= f) s = .ok b s' ↔ ∃ a s₁, x s = .ok a s₁ ∧ f a s₁ = .ok b s' := by
  change EStateM.bind x f s = _ ↔ _
  unfold EStateM.bind
  cases x s with
  | ok a s₁ =>
      constructor
      · intro h
        exact ⟨a, s₁, rfl, h⟩
      · rintro ⟨_, _, ⟨⟩, h⟩
        exact h
  | error e s₁ => simp

theorem bind_eq_error {x : EStateM ε σ α} {f : α → EStateM ε σ β} {s s' : σ} {e : ε} :
    (x >>= f) s = .error e s' ↔
      x s = .error e s' ∨ ∃ a s₁, x s = .ok a s₁ ∧ f a s₁ = .error e s' := by
  change EStateM.bind x f s = _ ↔ _
  unfold EStateM.bind
  cases x s with
  | ok a s₁ =>
      constructor
      · intro h
        exact .inr ⟨a, s₁, rfl, h⟩
      · rintro (h | ⟨_, _, ⟨⟩, h⟩)
        · cases h
        · exact h
  | error e s₁ => simp

theorem bind_of_ok {x : EStateM ε σ α} {f : α → EStateM ε σ β} {s s₁ : σ} {a : α}
    (h : x s = .ok a s₁) : (x >>= f) s = f a s₁ := by
  change EStateM.bind x f s = _
  simp only [EStateM.bind, h]

theorem bind_returns {x : EStateM ε σ α} {f : α → EStateM ε σ β} {s s₁ : σ} {a : α}
    (h : x s = .ok a s₁) (hf : ∃ b s', f a s₁ = .ok b s') : ∃ b s', (x >>= f) s = .ok b s' := by
  rw [bind_of_ok h]
  exact hf

theorem bind_raises {x : EStateM ε σ α} {f : α → EStateM ε σ β} {s s₁ : σ} {a : α} {e : ε}
    (h : x s = .ok a s₁) (hf : ∃ s', f a s₁ = .error e s') : ∃ s', (x >>= f) s = .error e s' := by
  rw [bind_of_ok h]
  exact hf

theorem bind_of_error {x : EStateM ε σ α} {f : α → EStateM ε σ β} {s s₁ : σ} {e : ε}
    (h : x s = .error e s₁) : (x >>= f) s = .error e s₁ := by
  change EStateM.bind x f s = _
  simp only [EStateM.bind, h]

/-- Continuations need to agree only on the results that occur. -/
theorem bind_congr_of_ok {x : EStateM ε σ α} {f g : α → EStateM ε σ β} {s : σ}
    (h : ∀ a s₁, x s = .ok a s₁ → f a s₁ = g a s₁) : (x >>= f) s = (x >>= g) s := by
  change EStateM.bind x f s = EStateM.bind x g s
  unfold EStateM.bind
  cases hx : x s with
  | ok a s₁ => exact h a s₁ hx
  | error e s₁ => rfl

theorem bind_congr_head {x y : EStateM ε σ α} {f : α → EStateM ε σ β} {s : σ} (h : x s = y s) :
    (x >>= f) s = (y >>= f) s := by
  change EStateM.bind x f s = EStateM.bind y f s
  simp only [EStateM.bind, h]

/-- The state a computation leaves behind, whether it returned or failed. -/
def final : EStateM.Result ε σ α → σ
  | .ok _ s => s
  | .error _ s => s

def returned : EStateM.Result ε σ α → Bool
  | .ok _ _ => true
  | .error _ _ => false

@[simp] theorem final_ok (a : α) (s : σ) : final (.ok a s : EStateM.Result ε σ α) = s := rfl
@[simp] theorem final_error (e : ε) (s : σ) : final (.error e s : EStateM.Result ε σ α) = s := rfl

theorem eq_ok_of_returned {r : EStateM.Result ε σ Unit} (h : returned r = true) :
    r = .ok () (final r) := by
  cases r with
  | ok a w => rfl
  | error e w => cases h

def raised : EStateM.Result ε σ α → Option ε
  | .ok _ _ => none
  | .error e _ => some e

theorem eq_error_of_raised {r : EStateM.Result ε σ α} {e : ε} (h : raised r = some e) :
    r = .error e (final r) := by
  cases r with
  | ok a w => cases h
  | error e' w =>
      cases h
      rfl

/-- What a computation that returned has answered. -/
def answered : EStateM.Result ε σ α → Option α
  | .ok a _ => some a
  | .error _ _ => none

theorem eq_ok_of_answered {r : EStateM.Result ε σ α} {p : α → Bool}
    (h : (answered r).any p = true) : ∃ a, r = .ok a (final r) ∧ p a = true := by
  cases r with
  | ok a w => exact ⟨a, rfl, h⟩
  | error e w => cases h

theorem forM_snoc {f : α → EStateM ε σ Unit} {as : List α} {s s₁ : σ}
    (h : forM as f s = .ok () s₁) (a : α) : forM (as ++ [a]) f s = f a s₁ := by
  rw [List.forM_append, bind_of_ok h, List.forM_cons, List.forM_nil]
  exact congrFun (bind_pure (f a)) s₁

/-- Certain errors are passed over, the state they leave behind stays. -/
def retrying (again : ε → Bool) (x : EStateM ε σ Unit) : EStateM ε σ Unit := fun s =>
  match x s with
  | .ok () s' => .ok () s'
  | .error e s' => if again e then .ok () s' else .error e s'

theorem final_retrying (again : ε → Bool) (x : EStateM ε σ Unit) (s : σ) :
    final (retrying again x s) = final (x s) := by
  unfold retrying
  cases x s with
  | ok a s' => rfl
  | error e s' =>
      simp only
      cases again e <;> rfl

/-- Whatever a computation does to the state stays within a relation. -/
def Moves (R : σ → σ → Prop) (x : EStateM ε σ α) : Prop := ∀ s, R s (final (x s))

section Moves

variable {R : σ → σ → Prop}

theorem Moves.of_ok {x : EStateM ε σ α} (hx : Moves R x) {s s' : σ} {a : α}
    (h : x s = .ok a s') : R s s' := by
  have hmoved := hx s
  rw [h] at hmoved
  exact hmoved

theorem Moves.of_error {x : EStateM ε σ α} (hx : Moves R x) {s s' : σ} {e : ε}
    (h : x s = .error e s') : R s s' := by
  have hmoved := hx s
  rw [h] at hmoved
  exact hmoved

theorem Moves.pure (hrefl : ∀ s, R s s) (a : α) : Moves R (pure a : EStateM ε σ α) := hrefl

theorem Moves.throw (hrefl : ∀ s, R s s) (e : ε) : Moves R (throw e : EStateM ε σ α) := hrefl

theorem Moves.get (hrefl : ∀ s, R s s) : Moves R (get : EStateM ε σ σ) := hrefl

theorem Moves.modify {f : σ → σ} (h : ∀ s, R s (f s)) :
    Moves R (modify f : EStateM ε σ Unit) := h

theorem Moves.bind (htrans : ∀ a b c, R a b → R b c → R a c) {x : EStateM ε σ α}
    {f : α → EStateM ε σ β} (hx : Moves R x) (hf : ∀ a, Moves R (f a)) : Moves R (x >>= f) := by
  intro s
  cases h : x s with
  | ok a s₁ =>
      rw [bind_of_ok h]
      exact htrans s s₁ _ (hx.of_ok h) (hf a s₁)
  | error e s₁ =>
      rw [bind_of_error h]
      exact hx.of_error h

theorem Moves.retrying {again : ε → Bool} {x : EStateM ε σ Unit} (hx : Moves R x) :
    Moves R (retrying again x) := by
  intro s
  rw [final_retrying]
  exact hx s

end Moves

/-- From a state with the first property, a computation that returns ends in one with the
second, and one that fails in one with the third. -/
def Triple (pre : σ → Prop) (x : EStateM ε σ α) (post : α → σ → Prop) (fail : σ → Prop) : Prop :=
  ∀ s, pre s → match x s with
    | .ok a s' => post a s'
    | .error _ s' => fail s'

namespace Triple

variable {pre : σ → Prop} {post : α → σ → Prop} {fail : σ → Prop}

theorem of_ok {x : EStateM ε σ α} (hx : Triple pre x post fail) {s s' : σ} {a : α}
    (hs : pre s) (h : x s = .ok a s') : post a s' := by
  have hrun := hx s hs
  rw [h] at hrun
  exact hrun

theorem of_error {x : EStateM ε σ α} (hx : Triple pre x post fail) {s s' : σ} {e : ε}
    (hs : pre s) (h : x s = .error e s') : fail s' := by
  have hrun := hx s hs
  rw [h] at hrun
  exact hrun

theorem pure {a : α} (h : ∀ s, pre s → post a s) :
    Triple pre (pure a : EStateM ε σ α) post fail := h

theorem throw {e : ε} (h : ∀ s, pre s → fail s) :
    Triple pre (throw e : EStateM ε σ α) post fail := h

theorem get {post : σ → σ → Prop} (h : ∀ s, pre s → post s s) :
    Triple pre (get : EStateM ε σ σ) post fail := h

theorem modify {f : σ → σ} {post : Unit → σ → Prop} (h : ∀ s, pre s → post () (f s)) :
    Triple pre (modify f : EStateM ε σ Unit) post fail := h

theorem bind {mid : α → σ → Prop} {post : β → σ → Prop} {x : EStateM ε σ α}
    {f : α → EStateM ε σ β} (hx : Triple pre x mid fail)
    (hf : ∀ a, Triple (mid a) (f a) post fail) : Triple pre (x >>= f) post fail := by
  intro s hs
  cases h : x s with
  | ok a s₁ =>
      rw [bind_of_ok h]
      exact hf a s₁ (hx.of_ok hs h)
  | error e s₁ =>
      rw [bind_of_error h]
      exact hx.of_error hs h

theorem weaken {pre' fail' : σ → Prop} {post' : α → σ → Prop} {x : EStateM ε σ α}
    (h : Triple pre x post fail) (hpre : ∀ s, pre' s → pre s)
    (hpost : ∀ a s, post a s → post' a s) (hfail : ∀ s, fail s → fail' s) :
    Triple pre' x post' fail' := by
  intro s hs
  cases hx : x s with
  | ok a s₁ => exact hpost a s₁ (h.of_ok (hpre s hs) hx)
  | error e s₁ => exact hfail s₁ (h.of_error (hpre s hs) hx)

theorem final {x : EStateM ε σ α} (h : Triple pre x (fun _ => fail) fail) {s : σ} (hs : pre s) :
    fail (Stateful.final (x s)) := by
  cases hx : x s with
  | ok a s₁ => exact h.of_ok hs hx
  | error e s₁ => exact h.of_error hs hx

theorem retrying {again : ε → Bool} {x : EStateM ε σ Unit}
    (h : Triple pre x (fun _ => fail) fail) :
    Triple pre (Stateful.retrying again x) (fun _ => fail) fail := by
  intro s hs
  unfold Stateful.retrying
  cases hx : x s with
  | ok a s₁ => exact h.of_ok hs hx
  | error e s₁ =>
      simp only
      cases again e <;> exact h.of_error hs hx

end Triple

/-- With a clock in the state and faults at some of its ticks: a computation that returns has
met no fault, and one that fails has met one, unless its error is excused. -/
def Accounts (clock : σ → Nat) (faulty : Nat → Bool) (excused : ε → Prop)
    (x : EStateM ε σ α) : Prop :=
  ∀ s, clock s ≤ clock (final (x s)) ∧ match x s with
    | .ok _ s' => ∀ t, clock s ≤ t → t < clock s' → faulty t = false
    | .error e s' => excused e ∨ ∃ t, clock s ≤ t ∧ t < clock s' ∧ faulty t = true

namespace Accounts

variable {clock : σ → Nat} {faulty : Nat → Bool} {excused : ε → Prop}

theorem of_ok {x : EStateM ε σ α} (hx : Accounts clock faulty excused x) {s s' : σ} {a : α}
    (h : x s = .ok a s') :
    clock s ≤ clock s' ∧ ∀ t, clock s ≤ t → t < clock s' → faulty t = false := by
  have hrun := hx s
  rw [h] at hrun
  exact hrun

theorem of_error {x : EStateM ε σ α} (hx : Accounts clock faulty excused x) {s s' : σ} {e : ε}
    (h : x s = .error e s') : clock s ≤ clock s' ∧
      (excused e ∨ ∃ t, clock s ≤ t ∧ t < clock s' ∧ faulty t = true) := by
  have hrun := hx s
  rw [h] at hrun
  exact hrun

theorem modify {f : σ → σ} (hf : ∀ s, clock (f s) = clock s) :
    Accounts clock faulty excused (modify f : EStateM ε σ Unit) := by
  intro s
  refine ⟨Nat.le_of_eq (hf s).symm, fun t hle hlt => ?_⟩
  rw [hf s] at hlt
  omega

theorem pure (a : α) : Accounts clock faulty excused (pure a : EStateM ε σ α) :=
  fun s => ⟨Nat.le_refl _, fun t hle hlt => by omega⟩

theorem get : Accounts clock faulty excused (get : EStateM ε σ σ) :=
  fun s => ⟨Nat.le_refl _, fun t hle hlt => by omega⟩

theorem throw {e : ε} (he : excused e) :
    Accounts clock faulty excused (throw e : EStateM ε σ α) :=
  fun _ => ⟨Nat.le_refl _, .inl he⟩

theorem bind {x : EStateM ε σ α} {f : α → EStateM ε σ β}
    (hx : Accounts clock faulty excused x) (hf : ∀ a, Accounts clock faulty excused (f a)) :
    Accounts clock faulty excused (x >>= f) := by
  intro s
  cases h : x s with
  | error e s₁ =>
      rw [bind_of_error h]
      exact hx.of_error h
  | ok a s₁ =>
      obtain ⟨hle, hclean⟩ := hx.of_ok h
      rw [bind_of_ok h]
      cases h' : f a s₁ with
      | ok b s₂ =>
          obtain ⟨hle', hclean'⟩ := (hf a).of_ok h'
          refine ⟨Nat.le_trans hle hle', fun t hlow hhigh => ?_⟩
          by_cases ht : t < clock s₁
          · exact hclean t hlow ht
          · exact hclean' t (Nat.le_of_not_lt ht) hhigh
      | error e s₂ =>
          obtain ⟨hle', herror⟩ := (hf a).of_error h'
          refine ⟨Nat.le_trans hle hle', herror.imp_right ?_⟩
          rintro ⟨t, hlow, hhigh, hfault⟩
          exact ⟨t, Nat.le_trans hle hlow, hhigh, hfault⟩

end Accounts

/-- From a state with the property, a computation that fails does so with such an error, in such
a state. -/
def Blames (pre : σ → Prop) (x : EStateM ε σ α) (blame : ε → σ → Prop) : Prop :=
  ∀ s, pre s → ∀ e s', x s = .error e s' → blame e s'

namespace Blames

variable {pre : σ → Prop} {blame : ε → σ → Prop}

theorem pure (a : α) : Blames pre (pure a : EStateM ε σ α) blame := fun _ _ _ _ herror =>
  nomatch herror

theorem get : Blames pre (get : EStateM ε σ σ) blame := fun _ _ _ _ herror => nomatch herror

theorem modify (f : σ → σ) : Blames pre (modify f : EStateM ε σ Unit) blame :=
  fun _ _ _ _ herror => nomatch herror

theorem throw {e : ε} (h : ∀ s, pre s → blame e s) :
    Blames pre (throw e : EStateM ε σ α) blame := by
  intro s hs e' s' herror
  cases herror
  exact h s hs

/-- What the second part is blamed for starts from what the first one leaves. -/
theorem bind {mid : α → σ → Prop} {fail : σ → Prop} {x : EStateM ε σ α}
    {f : α → EStateM ε σ β} (hx : Blames pre x blame) (hmid : Triple pre x mid fail)
    (hf : ∀ a, Blames (mid a) (f a) blame) : Blames pre (x >>= f) blame := by
  intro s hs e s' herror
  rcases bind_eq_error.mp herror with hfirst | ⟨a, s₁, hfirst, hrest⟩
  · exact hx s hs e s' hfirst
  · exact hf a s₁ (hmid.of_ok hs hfirst) e s' hrest

theorem bind_of_any {x : EStateM ε σ α} {f : α → EStateM ε σ β}
    (hx : Blames (fun _ => True) x blame) (hf : ∀ a, Blames (fun _ => True) (f a) blame) :
    Blames (fun _ => True) (x >>= f) blame := by
  have hmid : Triple (fun _ => True) x (fun _ _ => True) (fun _ => True) := fun s _ => by
    cases x s <;> trivial
  exact bind hx hmid hf

theorem weaken {pre' : σ → Prop} {x : EStateM ε σ α} (h : Blames pre x blame)
    (hpre : ∀ s, pre' s → pre s) : Blames pre' x blame := fun s hs => h s (hpre s hs)

theorem retrying {again : ε → Bool} {x : EStateM ε σ Unit} (h : Blames pre x blame) :
    Blames pre (Stateful.retrying again x) blame := by
  intro s hs e s' herror
  unfold Stateful.retrying at herror
  cases hx : x s with
  | ok a s₁ => rw [hx] at herror; cases herror
  | error e₁ s₁ =>
      rw [hx] at herror
      simp only at herror
      split at herror
      · cases herror
      · cases herror
        exact h s hs e s' hx

end Blames

end Stateful
