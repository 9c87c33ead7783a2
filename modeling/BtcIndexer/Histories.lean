import Mathlib.Algebra.BigOperators.Group.List.Basic
import Mathlib.Algebra.Group.Basic
import Mathlib.Order.Lattice
import Mathlib.Order.MinMax

/-! Amounts by height. A history gives for every bound what is held below it. Posting adds an
amount at a height, cutting takes back whatever stands at a height or above it. Two parties that
start alike and replay the same changes agree at every bound, and what a replay leaves is the
sum of the posts that no later cut has taken back. -/
namespace Histories

variable {ι M : Type} [LinearOrder ι] [AddCommMonoid M]

inductive Change (ι M : Type) where
  | post (height : ι) (amount : M)
  | cut (height : ι)

def post (height : ι) (amount : M) (h : ι → M) : ι → M := fun bound =>
  h bound + if height < bound then amount else 0

def cut (height : ι) (h : ι → M) : ι → M := fun bound => h (min bound height)

def Change.apply : Change ι M → (ι → M) → ι → M
  | .post height amount, h => Histories.post height amount h
  | .cut height, h => Histories.cut height h

def replay : List (Change ι M) → (ι → M) → ι → M
  | [], h => h
  | c :: rest, h => replay rest (c.apply h)

theorem replay_append (xs ys : List (Change ι M)) (h : ι → M) :
    replay (xs ++ ys) h = replay ys (replay xs h) := by
  induction xs generalizing h with
  | nil => rfl
  | cons c rest ih => exact ih (c.apply h)

theorem post_zero (height : ι) (h : ι → M) : post height 0 h = h := by
  funext bound
  rw [post, ite_self, add_zero]

theorem post_post (height : ι) (x y : M) (h : ι → M) :
    post height y (post height x h) = post height (x + y) h := by
  funext bound
  by_cases hb : height < bound
  · simp only [post, hb, if_true, add_assoc]
  · simp only [post, hb, if_false, add_zero]

theorem post_comm (k l : ι) (x y : M) (h : ι → M) :
    post l y (post k x h) = post k x (post l y h) := by
  funext bound
  exact add_right_comm _ _ _

theorem cut_post_of_le {height k : ι} (hle : height ≤ k) (x : M) (h : ι → M) :
    cut height (post k x h) = cut height h := by
  funext bound
  have hnot : ¬ k < min bound height := fun hlt =>
    absurd (lt_of_lt_of_le hlt (min_le_right bound height)) (not_lt.mpr hle)
  rw [cut, post, if_neg hnot, add_zero, cut]

theorem cut_post_of_lt {height k : ι} (hlt : k < height) (x : M) (h : ι → M) :
    cut height (post k x h) = post k x (cut height h) := by
  funext bound
  simp only [cut, post, lt_min_iff, hlt, and_true]

theorem replay_posts {β : Type} (amount : β → M) (height : ι) (xs : List β) (h : ι → M) :
    replay (xs.map fun x => .post height (amount x)) h =
      post height (xs.map amount).sum h := by
  induction xs generalizing h with
  | nil => exact (post_zero height h).symm
  | cons x rest ih =>
      rw [List.map_cons, List.map_cons, List.sum_cons, ← post_post]
      exact ih (post height (amount x) h)

/-- A later cut takes back what stands at the height. -/
def Change.cuts (k : ι) : Change ι M → Bool
  | .post _ _ => false
  | .cut height => decide (height ≤ k)

/-- The posts that no later cut takes back. -/
def survivors : List (Change ι M) → List (ι × M)
  | [] => []
  | .cut _ :: rest => survivors rest
  | .post k x :: rest =>
      if rest.any (Change.cuts k) then survivors rest else (k, x) :: survivors rest

/-- A post at the beginning can be made at the end, or not at all. -/
theorem replay_post (k : ι) (x : M) (changes : List (Change ι M)) (h : ι → M) :
    replay changes (post k x h) =
      if changes.any (Change.cuts k) then replay changes h
      else post k x (replay changes h) := by
  induction changes generalizing h with
  | nil => rfl
  | cons c rest ih =>
      cases c with
      | post l y =>
          change replay rest (post l y (post k x h)) = _
          rw [post_comm, ih (post l y h)]
          rfl
      | cut height =>
          change replay rest (cut height (post k x h)) = _
          by_cases hle : height ≤ k
          · have hcuts : (Change.cut height : Change ι M).cuts k = true := decide_eq_true hle
            rw [cut_post_of_le hle, List.any_cons, hcuts, Bool.true_or, if_pos rfl]
            rfl
          · have hcuts : (Change.cut height : Change ι M).cuts k = false := decide_eq_false hle
            rw [cut_post_of_lt (not_le.mp hle), ih, List.any_cons, hcuts, Bool.false_or]
            rfl

/-- Below every bound a replay leaves the posts that survive it. -/
theorem replay_survivors (changes : List (Change ι M)) (bound : ι) :
    replay changes (fun _ => 0) bound =
      (((survivors changes).filter (fun p => decide (p.1 < bound))).map Prod.snd).sum := by
  induction changes with
  | nil => rfl
  | cons c rest ih =>
      cases c with
      | cut height => exact ih
      | post k x =>
          change replay rest (post k x fun _ => 0) bound = _
          rw [replay_post, survivors]
          split
          · exact ih
          · by_cases hk : k < bound
            · rw [post, ih, if_pos hk, List.filter_cons_of_pos (by simpa using hk), List.map_cons,
                List.sum_cons, add_comm]
            · rw [post, ih, if_neg hk, List.filter_cons_of_neg (by simpa using hk), add_zero]

end Histories
