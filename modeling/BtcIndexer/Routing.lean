import Mathlib.Algebra.Ring.Nat
import Mathlib.Data.List.Nodup

/-! Paths, patterns and tables of routes. A pattern has one piece for each segment of a path: a
text that the segment must be, or a place that takes any segment. A request goes to the first
route of the table that fits. -/
namespace Routing

inductive Piece where
  | literal (text : List Char)
  | dynamic
  deriving DecidableEq, Repr

abbrev Pattern := List Piece

/-- What the dynamic pieces take from the segments of a path. None of it is empty. -/
def Pattern.arguments : Pattern → List (List Char) → Option (List (List Char))
  | [], [] => some []
  | .literal text :: pieces, segment :: rest =>
      if segment = text then Pattern.arguments pieces rest else none
  | .dynamic :: pieces, segment :: rest =>
      if segment = [] then none else (Pattern.arguments pieces rest).map (segment :: ·)
  | [], _ :: _ | _ :: _, [] => none

/-- The segments with texts put in for the dynamic pieces, if there are as many. -/
def Pattern.fill : Pattern → List (List Char) → Option (List (List Char))
  | [], [] => some []
  | .literal text :: pieces, args => (Pattern.fill pieces args).map (text :: ·)
  | .dynamic :: pieces, arg :: args => (Pattern.fill pieces args).map (arg :: ·)
  | [], _ :: _ | .dynamic :: _, [] => none

theorem Pattern.arguments_eq_some_iff {pattern : Pattern} {segments args : List (List Char)} :
    pattern.arguments segments = some args ↔
      pattern.fill args = some segments ∧ [] ∉ args := by
  induction pattern generalizing segments args with
  | nil => cases segments <;> cases args <;> simp [arguments, fill]
  | cons piece pieces ih =>
      cases piece with
      | literal text =>
          cases segments with
          | nil => simp [arguments, fill]
          | cons segment rest =>
              by_cases hsame : segment = text
              · simp [arguments, fill, hsame, ih]
              · simp [arguments, fill, hsame, Ne.symm hsame]
      | dynamic =>
          cases segments with
          | nil => cases args <;> simp [arguments, fill]
          | cons segment rest =>
              by_cases hempty : segment = []
              · cases args with
                | nil => simp [arguments, fill, hempty]
                | cons arg args => simp +contextual [arguments, fill, hempty]
              · cases args with
                | nil => simp [arguments, fill, hempty]
                | cons arg args =>
                    simp only [arguments, fill, hempty, if_false, Option.map_eq_some_iff, ih,
                      List.cons.injEq, List.mem_cons, not_or]
                    constructor
                    · rintro ⟨_, ⟨hfill, hargs⟩, rfl, rfl⟩
                      exact ⟨⟨rest, hfill, rfl, rfl⟩, Ne.symm hempty, hargs⟩
                    · rintro ⟨⟨_, hfill, rfl, rfl⟩, _, hargs⟩
                      exact ⟨args, ⟨hfill, hargs⟩, rfl, rfl⟩

/-- Two patterns of different lengths, or with different texts in one place. -/
def Pattern.apart : Pattern → Pattern → Bool
  | [], [] => false
  | [], _ :: _ | _ :: _, [] => true
  | .literal text :: pieces, .literal other :: others =>
      decide (text ≠ other) || Pattern.apart pieces others
  | _ :: pieces, _ :: others => Pattern.apart pieces others

theorem Pattern.arguments_of_apart {pattern other : Pattern} {segments args : List (List Char)}
    (h : pattern.apart other = true) (hfits : pattern.arguments segments = some args) :
    other.arguments segments = none := by
  induction pattern, other using Pattern.apart.induct generalizing segments args with
  | case1 => cases h
  | case2 piece pieces =>
      cases segments with
      | nil => cases piece <;> rfl
      | cons _ _ => cases hfits
  | case3 piece pieces =>
      cases segments with
      | nil => cases piece <;> cases hfits
      | cons _ _ => rfl
  | case4 text pieces other others ih =>
      cases segments with
      | nil => rfl
      | cons segment rest =>
          obtain ⟨rfl, hrest⟩ := Option.ite_none_right_eq_some.mp hfits
          rw [arguments]
          split
          · next hsame =>
            rw [apart, hsame, decide_eq_false (not_not.mpr rfl), Bool.false_or] at h
            exact ih h hrest
          · rfl
  | case5 piece pieces next others hliterals ih =>
      cases segments with
      | nil => cases next <;> rfl
      | cons segment rest =>
          have hapart : Pattern.apart pieces others = true := by
            rw [apart] at h
            · exact h
            · exact hliterals
          have hothers : Pattern.arguments others rest = none := by
            cases piece with
            | literal text => exact ih hapart (Option.ite_none_right_eq_some.mp hfits).2
            | dynamic =>
                rw [arguments] at hfits
                split at hfits
                · cases hfits
                · obtain ⟨_, hrest, _⟩ := Option.map_eq_some_iff.mp hfits
                  exact ih hapart hrest
          cases next with
          | literal text => simp [arguments, hothers]
          | dynamic => simp [arguments, hothers]

theorem intercalate_two (slash : List Char) (segments : List (List Char)) (a b : List Char) :
    slash.intercalate (segments ++ [a, b]) =
      slash.intercalate (segments ++ [[]]) ++ a ++ slash ++ b := by
  induction segments with
  | nil => simp [List.intercalate_cons_cons]
  | cons segment rest ih =>
      cases rest with
      | nil => simp [List.intercalate_cons_cons]
      | cons next rest =>
          simp only [List.cons_append, List.intercalate_cons_cons] at ih ⊢
          simp only [ih, List.append_assoc]

structure Route (μ ε : Type) where
  method : μ
  pattern : Pattern
  endpoint : ε

section Tables

variable {μ ε : Type} [DecidableEq μ]

def Route.fits (route : Route μ ε) (method : μ) (segments : List (List Char)) :
    Option (ε × List (List Char)) :=
  if route.method = method then
    (route.pattern.arguments segments).map fun args => (route.endpoint, args)
  else none

def dispatch (table : List (Route μ ε)) (method : μ) (segments : List (List Char)) :
    Option (ε × List (List Char)) :=
  table.findSome? fun route => route.fits method segments

theorem Route.fits_eq_some_iff {route : Route μ ε} {method : μ} {segments : List (List Char)}
    {endpoint : ε} {args : List (List Char)} :
    route.fits method segments = some (endpoint, args) ↔ route.method = method ∧
      route.endpoint = endpoint ∧ route.pattern.fill args = some segments ∧ [] ∉ args := by
  unfold Route.fits
  split
  · next hmethod =>
    simp only [hmethod, true_and, Option.map_eq_some_iff, Prod.mk.injEq,
      Pattern.arguments_eq_some_iff]
    constructor
    · rintro ⟨_, hfill, rfl, rfl⟩
      exact ⟨rfl, hfill⟩
    · rintro ⟨rfl, hfill⟩
      exact ⟨args, hfill, rfl, rfl⟩
  · next hmethod => simp [hmethod]

theorem Route.fits_of_apart {route other : Route μ ε} {args segments : List (List Char)}
    (hapart : route.method = other.method → route.pattern.apart other.pattern = true)
    (hfill : route.pattern.fill args = some segments) (hargs : [] ∉ args) :
    other.fits route.method segments = none := by
  unfold Route.fits
  split
  · next hmethod =>
    have hfits := Pattern.arguments_eq_some_iff.mpr ⟨hfill, hargs⟩
    rw [Pattern.arguments_of_apart (hapart hmethod.symm) hfits]
    rfl
  · rfl

theorem dispatch_eq_some {table later earlier : List (Route μ ε)} {route : Route μ ε}
    (htable : table = earlier ++ route :: later) {args segments : List (List Char)}
    (hskipped : ∀ other ∈ earlier, other.fits route.method segments = none)
    (hfill : route.pattern.fill args = some segments) (hargs : [] ∉ args) :
    dispatch table route.method segments = some (route.endpoint, args) := by
  have hfits : route.fits route.method segments = some (route.endpoint, args) :=
    Route.fits_eq_some_iff.mpr ⟨rfl, rfl, hfill, hargs⟩
  have hearlier : earlier.findSome? (fun other => other.fits route.method segments) = none :=
    List.findSome?_eq_none_iff.mpr hskipped
  rw [dispatch, htable, List.findSome?_append, hearlier, Option.none_or, List.findSome?_cons,
    hfits]

theorem dispatch_some_mem {table : List (Route μ ε)} {method : μ} {segments : List (List Char)}
    {endpoint : ε} {args : List (List Char)}
    (h : dispatch table method segments = some (endpoint, args)) :
    ∃ route ∈ table, route.method = method ∧ route.endpoint = endpoint ∧
      route.pattern.fill args = some segments ∧ [] ∉ args := by
  obtain ⟨route, hmem, hfits⟩ := List.exists_of_findSome?_eq_some h
  exact ⟨route, hmem, Route.fits_eq_some_iff.mp hfits⟩

/-- Where no two routes have one endpoint, only its own paths reach it. -/
theorem dispatch_eq_some_iff {table later earlier : List (Route μ ε)} {route : Route μ ε}
    (htable : table = earlier ++ route :: later)
    (hapart : ∀ other ∈ earlier, route.method = other.method →
      route.pattern.apart other.pattern = true)
    (hendpoints : (table.map Route.endpoint).Nodup) {method : μ}
    {args segments : List (List Char)} :
    dispatch table method segments = some (route.endpoint, args) ↔
      route.method = method ∧ route.pattern.fill args = some segments ∧ [] ∉ args := by
  constructor
  · intro h
    obtain ⟨other, hother, hmethod, hendpoint, hfill⟩ := dispatch_some_mem h
    have hroute : route ∈ table := by simp [htable]
    have hsame : other = route := List.inj_on_of_nodup_map hendpoints hother hroute hendpoint
    rw [hsame] at hmethod hfill
    exact ⟨hmethod, hfill⟩
  · rintro ⟨rfl, hfill, hargs⟩
    exact dispatch_eq_some htable
      (fun other hother => Route.fits_of_apart (hapart other hother) hfill hargs) hfill hargs

/-- What a server can count on in a router that it does not own. The path is decoded before it is
cut into segments, the first route that fits takes it, and what its dynamic pieces stand for is
decoded once more. How escapes are decoded is left open; a text without any stays as it is. -/
structure Router (table : List (Route μ ε)) where
  requote : List Char → List Char
  unquote : List Char → List Char
  recognize : μ → List Char → Option (ε × List (List Char))
  requote_plain : ∀ text, '%' ∉ text → requote text = text
  unquote_plain : ∀ text, '%' ∉ text → unquote text = text
  recognize_eq : ∀ method path, recognize method path =
    (dispatch table method ((requote path).splitOn '/')).map fun target =>
      (target.1, target.2.map unquote)

namespace Router

variable {table : List (Route μ ε)} (router : Router table)

def segments (path : List Char) : List (List Char) := (router.requote path).splitOn '/'

theorem segments_plain {path : List Char} (h : '%' ∉ path) :
    router.segments path = path.splitOn '/' := by
  rw [segments, router.requote_plain path h]

theorem recognize_of_dispatch {method : μ} {path : List Char} {endpoint : ε}
    {args : List (List Char)}
    (h : dispatch table method (router.segments path) = some (endpoint, args)) :
    router.recognize method path = some (endpoint, args.map router.unquote) := by
  rw [router.recognize_eq]
  exact congrArg (Option.map _) h

theorem recognize_eq_some_iff {later earlier : List (Route μ ε)} {route : Route μ ε}
    (htable : table = earlier ++ route :: later)
    (hapart : ∀ other ∈ earlier, route.method = other.method →
      route.pattern.apart other.pattern = true)
    (hendpoints : (table.map Route.endpoint).Nodup) {method : μ} {path : List Char}
    {args : List (List Char)} :
    router.recognize method path = some (route.endpoint, args) ↔ route.method = method ∧
      ∃ texts, route.pattern.fill texts = some (router.segments path) ∧ [] ∉ texts ∧
        texts.map router.unquote = args := by
  rw [router.recognize_eq, Option.map_eq_some_iff]
  constructor
  · rintro ⟨⟨endpoint, texts⟩, hdispatch, htarget⟩
    obtain ⟨rfl, rfl⟩ := Prod.mk.inj htarget
    obtain ⟨hmethod, hfill, hargs⟩ :=
      (dispatch_eq_some_iff htable hapart hendpoints).mp hdispatch
    exact ⟨hmethod, texts, hfill, hargs, rfl⟩
  · rintro ⟨hmethod, texts, hfill, hargs, rfl⟩
    exact ⟨_, (dispatch_eq_some_iff htable hapart hendpoints).mpr ⟨hmethod, hfill, hargs⟩, rfl⟩

end Router

end Tables

def hexDigit (c : Char) : Option Nat :=
  if '0' ≤ c ∧ c ≤ '9' then some (c.toNat - '0'.toNat)
  else if 'a' ≤ c ∧ c ≤ 'f' then some (c.toNat - 'a'.toNat + 10)
  else if 'A' ≤ c ∧ c ≤ 'F' then some (c.toNat - 'A'.toNat + 10)
  else none

/-- The character of an escape: one of ASCII that is not kept as it is written. -/
def escaped (kept : List Char) (hi lo : Char) : Option Char :=
  match hexDigit hi, hexDigit lo with
  | some h, some l =>
      if 16 * h + l < 128 ∧ Char.ofNat (16 * h + l) ∉ kept then some (Char.ofNat (16 * h + l))
      else none
  | _, _ => none

def percentDecode (kept : List Char) : List Char → List Char
  | [] => []
  | [c] => [c]
  | [c, d] => [c, d]
  | c :: hi :: lo :: rest =>
      if c = '%' then
        match escaped kept hi lo with
        | some d => d :: percentDecode kept rest
        | none => c :: percentDecode kept (hi :: lo :: rest)
      else c :: percentDecode kept (hi :: lo :: rest)

theorem percentDecode_plain (kept : List Char) {text : List Char} (h : '%' ∉ text) :
    percentDecode kept text = text := by
  induction text using percentDecode.induct kept with
  | case1 => rfl
  | case2 c => rfl
  | case3 c d => rfl
  | case4 hi lo rest d hescaped ih => exact absurd List.mem_cons_self h
  | case5 hi lo rest hescaped ih => exact absurd List.mem_cons_self h
  | case6 c hi lo rest hc ih =>
      rw [percentDecode, if_neg hc, ih fun hmem => h (List.mem_cons_of_mem c hmem)]

example : percentDecode [] "%2B1".toList = "+1".toList := by decide

/-- A slash, a plus and a percent sign are left in the path, where they could be mistaken. -/
def Router.percent {μ ε : Type} [DecidableEq μ] (table : List (Route μ ε)) : Router table where
  requote := percentDecode ['%', '/', '+']
  unquote := percentDecode []
  recognize := fun method path =>
    (dispatch table method ((percentDecode ['%', '/', '+'] path).splitOn '/')).map fun target =>
      (target.1, target.2.map (percentDecode []))
  requote_plain := fun _ h => percentDecode_plain _ h
  unquote_plain := fun _ h => percentDecode_plain _ h
  recognize_eq := fun _ _ => rfl

def withoutPlus : List Char → List Char
  | '+' :: digits => digits
  | digits => digits

/-- A leading plus is accepted, and leading zeros are. -/
def fromStr (bits : Nat) (text : List Char) : Option Nat :=
  if withoutPlus text ≠ [] ∧ (withoutPlus text).all Char.isDigit = true ∧
      Nat.ofDigitChars 10 (withoutPlus text) 0 < 2 ^ bits then
    some (Nat.ofDigitChars 10 (withoutPlus text) 0)
  else none

theorem fromStr_lt {bits n : Nat} {text : List Char} (h : fromStr bits text = some n) :
    n < 2 ^ bits := by
  unfold fromStr at h
  obtain ⟨⟨_, _, hlt⟩, hn⟩ := Option.ite_none_right_eq_some.mp h
  rw [← Option.some.inj hn]
  exact hlt

theorem isDigit_of_mem {n : Nat} {c : Char} (h : c ∈ Nat.toDigits 10 n) : c.isDigit = true :=
  Nat.isDigit_of_mem_toDigits (by decide) (by decide) h

theorem notMem_toDigits {c : Char} (h : c.isDigit = false) (n : Nat) : c ∉ Nat.toDigits 10 n := by
  intro hmem
  rw [isDigit_of_mem hmem] at h
  cases h

@[simp] theorem fromStr_nil (bits : Nat) : fromStr bits [] = none := rfl

/-- The digits of a number are read as the number, if it has room. -/
theorem fromStr_toDigits (bits n : Nat) :
    fromStr bits (Nat.toDigits 10 n) = if n < 2 ^ bits then some n else none := by
  have hsign : withoutPlus (Nat.toDigits 10 n) = Nat.toDigits 10 n := by
    unfold withoutPlus
    split
    · next digits hplus =>
      have hmem : '+' ∈ Nat.toDigits 10 n := hplus ▸ List.mem_cons_self
      exact absurd hmem (notMem_toDigits (by decide) n)
    · rfl
  have hdigits : (Nat.toDigits 10 n).all Char.isDigit = true :=
    List.all_eq_true.mpr fun _ hc => isDigit_of_mem hc
  unfold fromStr
  rw [hsign, Nat.ofDigitChars_ten_toDigits]
  simp only [ne_eq, Nat.toDigits_ne_nil, not_false_eq_true, hdigits, true_and]

end Routing
