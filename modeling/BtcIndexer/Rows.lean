import Mathlib.Algebra.BigOperators.Group.List.Basic
import Mathlib.Algebra.Order.BigOperators.Group.List
import Mathlib.Algebra.Ring.Int.Defs
import Mathlib.Data.List.Nodup

/-! Tables as lists of rows, a key being a function of the row. The order of the list has no
meaning: two tables with the same rows are equal up to a permutation. -/
namespace Rows

variable {ρ κ : Type}

/-- No two rows share a key, as a primary key or unique constraint promises. -/
def Keyed (key : ρ → κ) (rows : List ρ) : Prop := (rows.map key).Nodup

instance [DecidableEq κ] (key : ρ → κ) (rows : List ρ) : Decidable (Keyed key rows) :=
  inferInstanceAs (Decidable (rows.map key).Nodup)

theorem Keyed.nil (key : ρ → κ) : Keyed key [] := List.nodup_nil

theorem Keyed.filter {key : ρ → κ} {rows : List ρ} (h : Keyed key rows) (p : ρ → Bool) :
    Keyed key (rows.filter p) := List.Nodup.sublist (List.filter_sublist.map key) h

theorem Keyed.snoc {key : ρ → κ} {rows : List ρ} {row : ρ} (h : Keyed key rows)
    (fresh : key row ∉ rows.map key) : Keyed key (rows ++ [row]) := by
  unfold Keyed
  rw [List.map_append]
  refine List.Nodup.append h (by simp) ?_
  intro k hk hrow
  rw [List.map_singleton, List.mem_singleton] at hrow
  exact fresh (hrow ▸ hk)

theorem Keyed.update {key : ρ → κ} {rows : List ρ} {g : ρ → ρ} (h : Keyed key rows)
    (stable : ∀ row, key (g row) = key row) : Keyed key (rows.map g) := by
  unfold Keyed
  rw [List.map_map, show key ∘ g = key from funext stable]
  exact h

theorem Keyed.rows_nodup {key : ρ → κ} {rows : List ρ} (h : Keyed key rows) : rows.Nodup :=
  List.Nodup.of_map key h

theorem Keyed.eq_of_key {key : ρ → κ} {rows : List ρ} (h : Keyed key rows) {r s : ρ}
    (hr : r ∈ rows) (hs : s ∈ rows) (same : key r = key s) : r = s :=
  List.inj_on_of_nodup_map h hr hs same

theorem Keyed.perm {key : ρ → κ} {rows rows' : List ρ} (h : Keyed key rows)
    (same : rows.Perm rows') : Keyed key rows' := (same.map key).nodup_iff.mp h

theorem Keyed.left {key : ρ → κ} {xs ys : List ρ} (h : Keyed key (xs ++ ys)) : Keyed key xs :=
  List.Nodup.sublist ((List.sublist_append_left xs ys).map key) h

theorem Keyed.right {key : ρ → κ} {xs ys : List ρ} (h : Keyed key (xs ++ ys)) : Keyed key ys :=
  List.Nodup.sublist ((List.sublist_append_right xs ys).map key) h

theorem Keyed.ne_of_append {key : ρ → κ} {xs ys : List ρ} (h : Keyed key (xs ++ ys)) {x y : ρ}
    (hx : x ∈ xs) (hy : y ∈ ys) : key x ≠ key y := by
  unfold Keyed at h
  rw [List.map_append] at h
  intro same
  exact List.disjoint_of_nodup_append h (List.mem_map_of_mem hx)
    (same ▸ List.mem_map_of_mem hy)

theorem Keyed.filter_eq_singleton {key : ρ → κ} {rows : List ρ} (h : Keyed key rows) {r : ρ}
    (hr : r ∈ rows) {p : ρ → Bool} (hp : ∀ s ∈ rows, p s = true ↔ key s = key r) :
    rows.filter p = [r] := by
  have hself : p r = true := (hp r hr).mpr rfl
  refine List.perm_singleton.mp ((List.perm_ext_iff_of_nodup (h.rows_nodup.filter p)
    (List.nodup_singleton r)).mpr fun s => ?_)
  rw [List.mem_filter, List.mem_singleton]
  constructor
  · rintro ⟨hs, hps⟩
    exact h.eq_of_key hs hr ((hp s hs).mp hps)
  · rintro rfl
    exact ⟨hr, hself⟩

theorem filter_append_eq_left {p : ρ → Bool} {old new : List ρ} (hold : ∀ r ∈ old, p r = true)
    (hnew : ∀ r ∈ new, p r = false) : (old ++ new).filter p = old := by
  have hnone : new.filter p = [] :=
    List.filter_eq_nil_iff.mpr fun r hr => Bool.eq_false_iff.mp (hnew r hr)
  rw [List.filter_append, List.filter_eq_self.mpr hold, hnone, List.append_nil]

/-- An enumeration whose order nobody promises: a hash map walked by its iterator, or the
rows of a query without `ORDER BY`. -/
structure ScanOrder (ρ : Type) where
  order : List ρ → List ρ
  perm : ∀ rows, (order rows).Perm rows

def ScanOrder.asStored (ρ : Type) : ScanOrder ρ := ⟨id, fun _ => List.Perm.refl _⟩

section Upsert

variable [DecidableEq κ]

def upsert (key : ρ → κ) (merge : ρ → ρ) (row : ρ) (rows : List ρ) : List ρ :=
  if key row ∈ rows.map key then rows.map (fun r => if key r = key row then merge r else r)
  else rows ++ [row]

theorem Keyed.upsert {key : ρ → κ} {merge : ρ → ρ} {row : ρ} {rows : List ρ}
    (h : Keyed key rows) (stable : ∀ r, key (merge r) = key r) :
    Keyed key (upsert key merge row rows) := by
  unfold Rows.upsert
  split
  · apply h.update
    intro r
    split
    · exact stable r
    · rfl
  · next hnew => exact h.snoc hnew

def valueAt (key : ρ → κ) (val : ρ → Int) (rows : List ρ) (k : κ) : Int :=
  ((rows.find? (fun r => key r = k)).map val).getD 0

theorem find?_key_some {key : ρ → κ} {rows : List ρ} {k : κ} {r : ρ}
    (h : rows.find? (fun s => key s = k) = some r) : r ∈ rows ∧ key r = k :=
  ⟨List.mem_of_find?_eq_some h, by simpa using List.find?_some h⟩

theorem find?_key_none {key : ρ → κ} {rows : List ρ} {k : κ} :
    rows.find? (fun s => key s = k) = none ↔ k ∉ rows.map key := by
  rw [List.find?_eq_none]
  constructor
  · intro h hk
    obtain ⟨r, hr, hkey⟩ := List.mem_map.mp hk
    exact h r hr (decide_eq_true hkey)
  · intro h r hr hkey
    exact h (of_decide_eq_true hkey ▸ List.mem_map_of_mem hr)

theorem valueAt_eq_zero {key : ρ → κ} {val : ρ → Int} {rows : List ρ} {k : κ}
    (h : k ∉ rows.map key) : valueAt key val rows k = 0 := by
  rw [valueAt, find?_key_none.mpr h]
  rfl

theorem Keyed.find?_eq_some_iff {key : ρ → κ} {rows : List ρ} (h : Keyed key rows) {k : κ}
    {r : ρ} : rows.find? (fun s => key s = k) = some r ↔ r ∈ rows ∧ key r = k := by
  constructor
  · exact find?_key_some
  · rintro ⟨hr, rfl⟩
    cases hf : rows.find? (fun s => key s = key r) with
    | none => exact absurd (List.mem_map_of_mem hr) (find?_key_none.mp hf)
    | some s =>
        obtain ⟨hs, hkey⟩ := find?_key_some hf
        rw [h.eq_of_key hs hr hkey]

theorem valueAt_of_mem {key : ρ → κ} {val : ρ → Int} {rows : List ρ} (h : Keyed key rows)
    {r : ρ} (hr : r ∈ rows) : valueAt key val rows (key r) = val r := by
  rw [valueAt, h.find?_eq_some_iff.mpr ⟨hr, rfl⟩]
  rfl

/-- An upsert touches the row of its own key, which it merges into or puts there. -/
theorem find?_upsert {key : ρ → κ} {merge : ρ → ρ} {row : ρ} {rows : List ρ}
    (stable : ∀ r, key (merge r) = key r) (k : κ) :
    (upsert key merge row rows).find? (fun r => key r = k) =
      if key row = k then some (((rows.find? (fun r => key r = k)).map merge).getD row)
      else rows.find? (fun r => key r = k) := by
  by_cases hin : key row ∈ rows.map key
  · have hpred : ∀ r, (key (if key r = key row then merge r else r) = k) ↔ key r = k := by
      intro r
      split
      · rw [stable]
      · rfl
    have hfind : (rows.map (fun r => if key r = key row then merge r else r)).find?
        (fun r => key r = k) =
        (rows.find? (fun r => key r = k)).map
          (fun r => if key r = key row then merge r else r) := by
      rw [List.find?_map]
      congr 1
      simp only [Function.comp_def, hpred]
    rw [upsert, if_pos hin, hfind]
    cases hf : rows.find? (fun r => key r = k) with
    | none =>
        have hk : key row ≠ k := fun hk => find?_key_none.mp hf (hk ▸ hin)
        rw [if_neg hk, Option.map_none]
    | some r =>
        have hr : key r = k := (find?_key_some hf).2
        simp only [Option.map_some, Option.getD_some, hr, eq_comm (a := k)]
        split <;> rfl
  · rw [upsert, if_neg hin, List.find?_append]
    by_cases hk : key row = k
    · have hnone : rows.find? (fun r => key r = k) = none := find?_key_none.mpr (hk ▸ hin)
      simp [hnone, hk]
    · simp [hk]

theorem valueAt_upsert {key : ρ → κ} {val : ρ → Int} {merge : ρ → ρ} {row : ρ}
    {rows : List ρ} (stable : ∀ r, key (merge r) = key r)
    (adds : ∀ r, val (merge r) = val r + val row) (k : κ) :
    valueAt key val (upsert key merge row rows) k =
      valueAt key val rows k + if key row = k then val row else 0 := by
  simp only [valueAt, find?_upsert stable]
  split
  · cases rows.find? (fun r => key r = k) with
    | none => simp
    | some r => simp [adds]
  · exact (Int.add_zero _).symm

end Upsert

def total (f : ρ → Int) (rows : List ρ) : Int := (rows.map f).sum

@[simp] theorem total_nil (f : ρ → Int) : total f [] = 0 := rfl

@[simp] theorem total_cons (f : ρ → Int) (r : ρ) (rows : List ρ) :
    total f (r :: rows) = f r + total f rows := by
  simp only [total, List.map_cons, List.sum_cons]

@[simp] theorem total_append (f : ρ → Int) (xs ys : List ρ) :
    total f (xs ++ ys) = total f xs + total f ys := by
  simp only [total, List.map_append, List.sum_append]

theorem total_perm (f : ρ → Int) {xs ys : List ρ} (h : xs.Perm ys) : total f xs = total f ys :=
  (h.map f).sum_eq

theorem total_congr {f g : ρ → Int} {rows : List ρ} (h : ∀ r ∈ rows, f r = g r) :
    total f rows = total g rows := by
  unfold total
  rw [List.map_congr_left h]

theorem total_map {τ : Type} (f : ρ → Int) (g : τ → ρ) (rows : List τ) :
    total f (rows.map g) = total (fun r => f (g r)) rows := by
  simp only [total, List.map_map, Function.comp_def]

theorem total_add (f g : ρ → Int) (rows : List ρ) :
    total (fun r => f r + g r) rows = total f rows + total g rows := by
  simp only [total, List.sum_map_add]

theorem total_neg (f : ρ → Int) (rows : List ρ) :
    total (fun r => -f r) rows = -total f rows := by
  induction rows with
  | nil => rfl
  | cons r rows ih => simp only [total_cons, ih]; omega

theorem total_eq_zero {f : ρ → Int} {rows : List ρ} (h : ∀ r ∈ rows, f r = 0) :
    total f rows = 0 := by
  rw [total_congr h]
  simp [total]

theorem total_nonneg {f : ρ → Int} {rows : List ρ} (h : ∀ r ∈ rows, 0 ≤ f r) :
    0 ≤ total f rows := by
  apply List.sum_nonneg
  intro x hx
  obtain ⟨r, hr, rfl⟩ := List.mem_map.mp hx
  exact h r hr

theorem total_filter (f : ρ → Int) (p : ρ → Bool) (rows : List ρ) :
    total f (rows.filter p) = total (fun r => if p r then f r else 0) rows := by
  induction rows with
  | nil => rfl
  | cons r rows ih =>
      cases hp : p r <;> simp [hp, ih]

theorem Keyed.total_at [DecidableEq κ] {key : ρ → κ} {rows : List ρ} (h : Keyed key rows)
    (val : ρ → Int) (k : κ) :
    total (fun r => if key r = k then val r else 0) rows = valueAt key val rows k := by
  induction rows with
  | nil => rfl
  | cons r rows ih =>
      have hrest : Keyed key rows := (List.nodup_cons.mp h).2
      have hnew : key r ∉ rows.map key := (List.nodup_cons.mp h).1
      rw [total_cons, ih hrest]
      by_cases hk : key r = k
      · rw [if_pos hk, valueAt_eq_zero (hk ▸ hnew)]
        simp [valueAt, hk]
      · rw [if_neg hk]
        simp [valueAt, hk]

/-- Merging adds the new row to the sum, whether or not its key is there. -/
theorem total_upsert [DecidableEq κ] {key : ρ → κ} (f : ρ → Int) (merge : ρ → ρ) (row : ρ)
    {rows : List ρ} (h : Keyed key rows) (adds : ∀ r, key r = key row → f (merge r) = f r + f row) :
    total f (upsert key merge row rows) = total f rows + f row := by
  unfold upsert
  split
  · next hin =>
      obtain ⟨old, hold, hkey⟩ := List.mem_map.mp hin
      have hstep : ∀ r ∈ rows, f (if key r = key row then merge r else r) =
          f r + if key r = key row then f row else 0 := by
        intro r _
        split
        · next hk => exact adds r hk
        · exact (Int.add_zero _).symm
      have hone : total (fun r => if key r = key row then f row else 0) rows = f row := by
        rw [h.total_at (fun _ => f row), ← hkey]
        exact valueAt_of_mem h hold
      rw [total_map, total_congr hstep, total_add, hone]
  · rw [total_append, total_cons, total_nil, Int.add_zero]

theorem Keyed.total_sublist [DecidableEq κ] {key : ρ → κ} {part rows : List ρ}
    (h : Keyed key rows) (hpart : part.Sublist rows) (val : ρ → Int) (k : κ) :
    total (fun r => if key r = k then val r else 0) part = 0 ∨
      total (fun r => if key r = k then val r else 0) part =
        total (fun r => if key r = k then val r else 0) rows := by
  have hkeyed : Keyed key part := List.Nodup.sublist (hpart.map key) h
  rw [hkeyed.total_at, h.total_at]
  by_cases hk : k ∈ part.map key
  · obtain ⟨r, hr, rfl⟩ := List.mem_map.mp hk
    right
    rw [valueAt_of_mem hkeyed hr, valueAt_of_mem h (hpart.subset hr)]
  · left
    exact valueAt_eq_zero hk

theorem total_le_of_subset {f : ρ → Int} {xs ys : List ρ} (hnodup : xs.Nodup)
    (hsub : ∀ r ∈ xs, r ∈ ys) (hpos : ∀ r ∈ ys, 0 ≤ f r) : total f xs ≤ total f ys := by
  obtain ⟨zs, hperm, hzs⟩ := List.subperm_of_subset hnodup hsub
  rw [← total_perm f hperm]
  exact List.Sublist.sum_le_sum (hzs.map f) fun x hx => by
    obtain ⟨r, hr, rfl⟩ := List.mem_map.mp hx
    exact hpos r hr

end Rows
