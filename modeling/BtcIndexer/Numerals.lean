import Mathlib.Algebra.Ring.Nat
import Mathlib.Data.List.Nodup

/-! Numbers written with a fixed number of digits, the highest digit first, and digits written
as the symbols of an alphabet. -/
namespace Numerals

/-- The lowest digits of a number, as many as asked for. -/
def digits (base : Nat) : Nat → Nat → List Nat
  | 0, _ => []
  | width + 1, n => digits base width (n / base) ++ [n % base]

def value (base : Nat) (ds : List Nat) : Nat := ds.foldl (fun n d => n * base + d) 0

@[simp] theorem length_digits (base width n : Nat) : (digits base width n).length = width := by
  induction width generalizing n with
  | zero => rfl
  | succ width ih => rw [digits, List.length_append, ih, List.length_singleton]

theorem digits_lt {base : Nat} (hbase : 0 < base) (width n : Nat) :
    ∀ d ∈ digits base width n, d < base := by
  induction width generalizing n with
  | zero => exact fun _ hd => absurd hd List.not_mem_nil
  | succ width ih =>
      intro d hd
      rcases List.mem_append.mp hd with hhigh | hlow
      · exact ih _ d hhigh
      · rw [List.mem_singleton.mp hlow]
        exact Nat.mod_lt n hbase

theorem value_digits (base width n : Nat) :
    value base (digits base width n) = n % base ^ width := by
  induction width generalizing n with
  | zero => rw [Nat.pow_zero, Nat.mod_one]; rfl
  | succ width ih =>
      have hsnoc : value base (digits base (width + 1) n) =
          value base (digits base width (n / base)) * base + n % base := by
        rw [digits, value, List.foldl_append]
        rfl
      rw [hsnoc, ih, Nat.pow_succ', Nat.mod_mul, Nat.mul_comm base, Nat.add_comm]

/-- The symbols of the digits, one for each. -/
structure Alphabet (α : Type) (base : Nat) where
  symbols : List α
  size : symbols.length = base
  distinct : symbols.Nodup

namespace Alphabet

variable {α : Type} {base : Nat}

def spell (A : Alphabet α base) (ds : List Nat) : List α := ds.filterMap (fun d => A.symbols[d]?)

def read [DecidableEq α] (A : Alphabet α base) : List α → Option (List Nat)
  | [] => some []
  | symbol :: rest =>
      if symbol ∈ A.symbols then (A.read rest).map (A.symbols.idxOf symbol :: ·) else none

theorem spell_cons {A : Alphabet α base} {d : Nat} (h : d < A.symbols.length) (ds : List Nat) :
    A.spell (d :: ds) = A.symbols.get ⟨d, h⟩ :: A.spell ds :=
  List.filterMap_cons_some (List.getElem?_eq_getElem h)

theorem length_spell {A : Alphabet α base} {ds : List Nat} (h : ∀ d ∈ ds, d < base) :
    (A.spell ds).length = ds.length := by
  induction ds with
  | nil => rfl
  | cons d ds ih =>
      have hd : d < A.symbols.length := Nat.lt_of_lt_of_eq (h d List.mem_cons_self) A.size.symm
      rw [spell_cons hd, List.length_cons, List.length_cons,
        ih fun e he => h e (List.mem_cons_of_mem _ he)]

theorem read_spell [DecidableEq α] {A : Alphabet α base} {ds : List Nat}
    (h : ∀ d ∈ ds, d < base) : A.read (A.spell ds) = some ds := by
  induction ds with
  | nil => rfl
  | cons d ds ih =>
      have hd : d < A.symbols.length := Nat.lt_of_lt_of_eq (h d List.mem_cons_self) A.size.symm
      have hidx : A.symbols.idxOf (A.symbols.get ⟨d, hd⟩) = d := A.distinct.idxOf_getElem d hd
      rw [spell_cons hd, read, if_pos (List.get_mem _ _), hidx,
        ih fun e he => h e (List.mem_cons_of_mem _ he)]
      rfl

theorem mem_of_mem_spell {A : Alphabet α base} {ds : List Nat} {symbol : α}
    (h : symbol ∈ A.spell ds) : symbol ∈ A.symbols := by
  obtain ⟨d, _, hd⟩ := List.mem_filterMap.mp h
  exact List.mem_of_getElem? hd

def write (A : Alphabet α base) (width n : Nat) : List α := A.spell (digits base width n)

def number [DecidableEq α] (A : Alphabet α base) (width : Nat) (text : List α) : Option Nat :=
  if text.length = width then (A.read text).map (value base) else none

theorem length_write (A : Alphabet α base) (hbase : 0 < base) (width n : Nat) :
    (A.write width n).length = width := by
  rw [write, length_spell (digits_lt hbase width n), length_digits]

theorem number_write [DecidableEq α] (A : Alphabet α base) (hbase : 0 < base) {width n : Nat}
    (h : n < base ^ width) : A.number width (A.write width n) = some n := by
  rw [number, if_pos (A.length_write hbase width n), write,
    read_spell (digits_lt hbase width n), Option.map_some, value_digits, Nat.mod_eq_of_lt h]

end Alphabet

end Numerals
