import Mathlib.Algebra.Ring.Int.Defs
import Mathlib.Algebra.Ring.Nat
import Mathlib.Algebra.Divisibility.Basic
import Mathlib.Data.List.Basic

/-! Rows of a relational table as a client meets them. A table declares its columns in order, an
insert names some of them, a projection lists some of them, and the client reads the cells that
come back by position and by type. -/
namespace Columns

/-- A value on its way to a column or back. A `NUMERIC` is taken to be whole. -/
inductive Cell where
  | null
  | varchar (text : List Char)
  | smallint (n : Int)
  | int (n : Int)
  | bigint (n : Int)
  | numeric (n : Int)
  | boolean (b : Bool)
  | timestamptz (instant : Nat)
  deriving DecidableEq, Repr

inductive ColumnType where
  | varchar (limit : Nat)
  | smallint
  | int
  | bigint
  | numeric
  | boolean
  | timestamptz
  deriving DecidableEq, Repr

structure Column (κ : Type) where
  name : κ
  type : ColumnType
  nullable : Bool

def InWidth (bits : Nat) (n : Int) : Prop := -2 ^ (bits - 1) ≤ n ∧ n < 2 ^ (bits - 1)

instance (bits : Nat) (n : Int) : Decidable (InWidth bits n) := inferInstanceAs (Decidable (_ ∧ _))

/-- `as` to a signed type: the low bits, read as two's complement. -/
def asSigned (bits : Nat) (n : Int) : Int := n.bmod (2 ^ bits)

def asUnsigned (bits : Nat) (n : Int) : Nat := (n % 2 ^ bits).toNat

theorem asUnsigned_natCast {bits n : Nat} (h : n < 2 ^ bits) : asUnsigned bits n = n := by
  have hcast : (n : Int) < 2 ^ bits := by exact_mod_cast h
  rw [asUnsigned, Int.emod_eq_of_lt (Int.natCast_nonneg n) hcast, Int.toNat_natCast]

theorem asUnsigned_asSigned {bits width : Nat} (h : bits ≤ width) (n : Nat) :
    asUnsigned bits (asSigned width n) = n % 2 ^ bits := by
  have hdvd : ((2 : Int) ^ bits) ∣ ((2 ^ width : Nat) : Int) := by
    rw [Int.natCast_pow]
    exact pow_dvd_pow _ h
  have hsame : asSigned width n % 2 ^ bits = (n : Int) % 2 ^ bits := by
    rw [asSigned, ← Int.emod_emod_of_dvd _ hdvd, Int.bmod_emod, Int.emod_emod_of_dvd _ hdvd]
  rw [asUnsigned, hsame]
  norm_cast

def Cell.number : Cell → Option Int
  | .smallint n | .int n | .bigint n | .numeric n => some n
  | .null | .varchar _ | .boolean _ | .timestamptz _ => none

/-- Numbers of any type go to a column that has their range, texts to one that has their length,
everything else to a column of its own type. -/
def ColumnType.admits : ColumnType → Cell → Bool
  | _, .null => true
  | .varchar limit, .varchar text => decide (text.length ≤ limit)
  | .smallint, cell => cell.number.any (InWidth 16)
  | .int, cell => cell.number.any (InWidth 32)
  | .bigint, cell => cell.number.any (InWidth 64)
  | .numeric, cell => cell.number.isSome
  | .boolean, .boolean _ => true
  | .timestamptz, .timestamptz _ => true
  | .varchar _, _ | .boolean, _ | .timestamptz, _ => false

theorem admits_varchar {limit : Nat} {text : List Char} :
    (ColumnType.varchar limit).admits (.varchar text) = true ↔ text.length ≤ limit :=
  decide_eq_true_iff

theorem admits_bigint {n : Int} :
    ColumnType.bigint.admits (.numeric n) = true ↔ InWidth 64 n := decide_eq_true_iff

/-- Assignment to a column changes the type of a number and nothing else. -/
def ColumnType.cast : ColumnType → Cell → Cell
  | .smallint, cell => (cell.number.map .smallint).getD cell
  | .int, cell => (cell.number.map .int).getD cell
  | .bigint, cell => (cell.number.map .bigint).getD cell
  | .numeric, cell => (cell.number.map .numeric).getD cell
  | .varchar _, cell | .boolean, cell | .timestamptz, cell => cell

/-- The cells of a row, in the order in which the table or the projection has them. -/
abbrev Row := List Cell

/-- The columns of a table in the order of their declaration. -/
abbrev Table (κ : Type) := List (Column κ)

section Tables

variable {κ : Type}

def Column.take (column : Column κ) (cell : Cell) : Option Cell :=
  if column.type.admits cell ∧ (cell = .null → column.nullable) then some (column.type.cast cell)
  else none

def Table.store : Table κ → Row → Option Row
  | column :: rest, cell :: cells => do
      let cell ← column.take cell
      let cells ← Table.store rest cells
      some (cell :: cells)
  | _, _ => some []

theorem Column.take_eq {column : Column κ} {cell stored : Cell}
    (h : column.take cell = some stored) :
    column.type.admits cell = true ∧ stored = column.type.cast cell := by
  obtain ⟨⟨hadmits, _⟩, hcast⟩ := Option.ite_none_right_eq_some.mp h
  exact ⟨hadmits, (Option.some.inj hcast).symm⟩

theorem Table.store_eq {table : Table κ} {cells row : Row} (h : table.store cells = some row) :
    row = List.zipWith (fun column cell => column.type.cast cell) table cells := by
  induction table generalizing cells row with
  | nil => exact (Option.some.inj h).symm
  | cons column rest ih =>
      cases cells with
      | nil => exact (Option.some.inj h).symm
      | cons cell cells =>
          obtain ⟨stored, hstored, h⟩ := Option.bind_eq_some_iff.mp h
          obtain ⟨others, hothers, h⟩ := Option.bind_eq_some_iff.mp h
          cases h
          rw [List.zipWith_cons_cons, ← ih hothers, (Column.take_eq hstored).2]

theorem Table.store_admits {table : Table κ} {cells row : Row} (h : table.store cells = some row)
    {i : Nat} {column : Column κ} {cell : Cell} (hcolumn : table[i]? = some column)
    (hcell : cells[i]? = some cell) : column.type.admits cell = true := by
  induction table generalizing cells row i with
  | nil => cases hcolumn
  | cons first rest ih =>
      cases cells with
      | nil => cases hcell
      | cons head cells =>
          obtain ⟨stored, hstored, h⟩ := Option.bind_eq_some_iff.mp h
          obtain ⟨others, hothers, _⟩ := Option.bind_eq_some_iff.mp h
          cases i with
          | zero =>
              cases hcolumn
              cases hcell
              exact (Column.take_eq hstored).1
          | succ i => exact ih hothers hcolumn hcell

variable [DecidableEq κ]

/-- The parameters in the order of the columns, a null for a column that is not named. -/
def Table.align (table : Table κ) (names : List κ) (params : List Cell) : Row :=
  table.map fun column => ((names.zip params).lookup column.name).getD .null

/-- `INSERT INTO table (names) VALUES (params)`. -/
def Table.insert (table : Table κ) (names : List κ) (params : List Cell) : Option Row :=
  table.store (table.align names params)

/-- `UPDATE table SET name = cell` on a row. -/
def Table.update (table : Table κ) (name : κ) (cell : Cell) (row : Row) : Option Row :=
  table.store ((table.zip row).map fun (column, old) => if column.name = name then cell else old)

def Table.column (table : Table κ) (row : Row) (name : κ) : Cell :=
  (((table.map Column.name).zip row).lookup name).getD .null

/-- `SELECT names`. -/
def Table.project (table : Table κ) (names : List κ) (row : Row) : Row :=
  names.map (table.column row)

end Tables

/-- The errors of a client: of the driver, and those its own decoding adds. -/
inductive RowError (δ : Type) where
  | rowNotFound
  | columnIndexOutOfBounds (index : Nat)
  | columnDecode (index : Nat)
  | decode (cause : δ)
  /-- The panic of the access to a cell that unwraps. -/
  | panic (index : Nat)
  deriving DecidableEq, Repr

/-- The types that a cell can be read at. A null is an error at each of them. -/
abbrev Reading (α : Type) := Cell → Option α

namespace Reading

@[simp] def text : Reading (List Char)
  | .varchar text => some text
  | _ => none

@[simp] def i16 : Reading Int
  | .smallint n => some n
  | _ => none

@[simp] def i32 : Reading Int
  | .int n => some n
  | _ => none

@[simp] def i64 : Reading Int
  | .bigint n => some n
  | _ => none

@[simp] def decimal : Reading Int
  | .numeric n => some n
  | _ => none

@[simp] def bool : Reading Bool
  | .boolean b => some b
  | _ => none

@[simp] def dateTime : Reading Nat
  | .timestamptz instant => some instant
  | _ => none

/-- At `Option` a null is no error. -/
@[simp] def option {α : Type} (read : Reading α) : Reading (Option α)
  | .null => some none
  | cell => (read cell).map some

end Reading

section Access

variable {α β ρ δ : Type}

def Row.tryGet (row : Row) (read : Reading α) (index : Nat) : Except (RowError δ) α :=
  match row[index]? with
  | none => .error (.columnIndexOutOfBounds index)
  | some cell => match read cell with
      | none => .error (.columnDecode index)
      | some a => .ok a

/-- `try_get` unwrapped. -/
def Row.get (row : Row) (read : Reading α) (index : Nat) : Except (RowError δ) α :=
  (row.tryGet read index).mapError fun _ : RowError δ => .panic index

@[simp] theorem ok_bind (a : α) (f : α → Except (RowError δ) β) :
    (Except.ok a >>= f) = f a := rfl

@[simp] theorem error_bind (e : RowError δ) (f : α → Except (RowError δ) β) :
    (Except.error e >>= f) = .error e := rfl

/-- A cell that can be read at the type is what `get` answers, anything else is its panic. -/
theorem Row.get_eq (row : Row) (read : Reading α) (index : Nat) :
    (row.get read index : Except (RowError δ) α) =
      ((row[index]?.bind read).map .ok).getD (.error (.panic index)) := by
  unfold Row.get Row.tryGet
  cases row[index]? with
  | none => rfl
  | some cell =>
      simp only [Option.bind_some]
      cases read cell <;> rfl

/-- The rows of a table, each with the cells that the database holds for it. -/
structure Image (Stores : ρ → Row → Prop) (rows : List ρ) where
  held : List (ρ × Row)
  rows_eq : held.map Prod.fst = rows
  stored : ∀ r ∈ held, Stores r.1 r.2

variable {Stores : ρ → Row → Prop} {rows : List ρ}

/-- `fetch_one` of the row that a condition picks. -/
def Image.fetchOne (image : Image Stores rows) (picks : ρ → Bool)
    (tryFrom : Row → Except (RowError δ) β) : Except (RowError δ) β :=
  match image.held.find? (fun r => picks r.1) with
  | none => .error .rowNotFound
  | some r => tryFrom r.2

/-- `fetch_all` of the rows that a condition picks: one row that fails fails them all. -/
def Image.fetchAll (image : Image Stores rows) (picks : ρ → Bool)
    (tryFrom : Row → Except (RowError δ) β) : Except (RowError δ) (List β) :=
  (image.held.filter (fun r => picks r.1)).mapM fun r => tryFrom r.2

theorem mapM_ok {γ : Type} {f : α → Except (RowError δ) β} {view : β → γ} {g : α → γ}
    {as : List α} (h : ∀ a ∈ as, ∃ b, f a = .ok b ∧ view b = g a) :
    ∃ bs, as.mapM f = .ok bs ∧ bs.map view = as.map g := by
  induction as with
  | nil => exact ⟨[], rfl, rfl⟩
  | cons a as ih =>
      obtain ⟨b, hb, hview⟩ := h a List.mem_cons_self
      obtain ⟨bs, hbs, hviews⟩ := ih fun c hc => h c (List.mem_cons_of_mem _ hc)
      refine ⟨b :: bs, ?_, ?_⟩
      · rw [List.mapM_cons, hb, hbs]
        rfl
      · rw [List.map_cons, hview, hviews, List.map_cons]

theorem Image.mem (image : Image Stores rows) {row : ρ} (h : row ∈ rows) :
    ∃ cells, (row, cells) ∈ image.held ∧ Stores row cells := by
  rw [← image.rows_eq] at h
  obtain ⟨⟨row, cells⟩, hheld, rfl⟩ := List.mem_map.mp h
  exact ⟨cells, hheld, image.stored _ hheld⟩

/-- Where every stored row reads as something, a query reads as what its rows read as. -/
theorem Image.fetchAll_ok {γ : Type} (image : Image Stores rows) (picks : ρ → Bool)
    {tryFrom : Row → Except (RowError δ) β} {view : β → γ} {g : ρ → γ}
    (h : ∀ row cells, Stores row cells → ∃ b, tryFrom cells = .ok b ∧ view b = g row) :
    ∃ bs, image.fetchAll picks tryFrom = .ok bs ∧ bs.map view = (rows.filter picks).map g := by
  have hreads : ∀ r ∈ image.held.filter (fun r => picks r.1),
      ∃ b, tryFrom r.2 = .ok b ∧ view b = g r.1 :=
    fun r hr => h r.1 r.2 (image.stored r (List.mem_filter.mp hr).1)
  obtain ⟨bs, hbs, hview⟩ := mapM_ok hreads
  refine ⟨bs, hbs, hview.trans ?_⟩
  simp only [← image.rows_eq, List.filter_map, List.map_map]
  rfl

theorem Image.fetchOne_eq (image : Image Stores rows) {picks : ρ → Bool} {row : ρ}
    (hfind : rows.find? picks = some row) :
    ∃ cells, Stores row cells ∧ ∀ tryFrom : Row → Except (RowError δ) β,
      image.fetchOne picks tryFrom = tryFrom cells := by
  rw [← image.rows_eq, List.find?_map] at hfind
  obtain ⟨r, hr, rfl⟩ := Option.map_eq_some_iff.mp hfind
  refine ⟨r.2, image.stored r (List.mem_of_find?_eq_some hr), fun tryFrom => ?_⟩
  have hsame : image.held.find? (fun r => picks r.1) = some r := hr
  rw [fetchOne, hsame]

theorem Image.fetchOne_none (image : Image Stores rows) {picks : ρ → Bool}
    (hfind : rows.find? picks = none) (tryFrom : Row → Except (RowError δ) β) :
    image.fetchOne picks tryFrom = .error .rowNotFound := by
  rw [← image.rows_eq, List.find?_map] at hfind
  have hnone : image.held.find? (fun r => picks r.1) = none := Option.map_eq_none_iff.mp hfind
  rw [fetchOne, hnone]

/-- The rows as a writer leaves them. -/
def Image.ofWrites (Stores : ρ → Row → Prop) {rows : List ρ} (write : ρ → Option Row)
    (h : ∀ row ∈ rows, (write row).isSome)
    (stored : ∀ row cells, write row = some cells → Stores row cells) : Image Stores rows where
  held := rows.map fun row => (row, (write row).getD [])
  rows_eq := by rw [List.map_map]; exact List.map_id rows
  stored := by
    intro r hr
    obtain ⟨row, hrow, rfl⟩ := List.mem_map.mp hr
    obtain ⟨cells, hcells⟩ := Option.isSome_iff_exists.mp (h row hrow)
    rw [hcells]
    exact stored row cells hcells

end Access

end Columns
