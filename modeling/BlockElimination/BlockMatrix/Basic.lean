import BlockElimination.Keyed
import BlockElimination.LinearMap.Arithmetic
import BlockElimination.LinearMap.Equality

/-!
# Block matrices

Linear maps keyed by a row name and a column name, stored column by column; what is absent is zero. All
blocks of a column have one column count, which insertion checks. Row counts are not checked on insertion.
-/
namespace BlockElimination

/-- The columns by name, each with its blocks by row name. -/
structure BlockMatrix (F : Type) where
  columns : Keyed (Keyed (LinearMap F))

namespace BlockMatrix

variable {F : Type}

def empty : BlockMatrix F := ⟨∅⟩

/-- The blocks of a column by row name. -/
def column? (A : BlockMatrix F) (col : String) : Option (Keyed (LinearMap F)) := A.columns.get? col

def get? (A : BlockMatrix F) (row col : String) : Option (LinearMap F) :=
  (A.column? col).bind fun column => column.get? row

def contains (A : BlockMatrix F) (row col : String) : Bool := (A.get? row col).isSome

def isEmpty (A : BlockMatrix F) : Bool := A.columns.isEmpty

/-- All blocks with their row and column names, column by column. -/
def blocks (A : BlockMatrix F) : List (String × String × LinearMap F) :=
  A.columns.entries.flatMap fun (col, column) => column.entries.map fun (row, a) => (row, col, a)

def colKeys (A : BlockMatrix F) : List String := A.columns.keys

/-- The first block of every row, by row name. -/
def rowHeads (A : BlockMatrix F) : Keyed (LinearMap F) :=
  A.blocks.foldl (fun heads (row, _, a) => if heads.contains row then heads else heads.insert row a) ∅

def rowKeys (A : BlockMatrix F) : List String := A.rowHeads.keys

/-- Looks a column up, and makes it where there is none. -/
def openColumn (A : BlockMatrix F) (col : String) : BlockMatrix F :=
  ⟨A.columns.insert col ((A.column? col).getD ∅)⟩

/-- Puts a block in its place, whatever was there. -/
def set (A : BlockMatrix F) (row col : String) (value : LinearMap F) : BlockMatrix F :=
  ⟨A.columns.insert col (((A.column? col).getD ∅).insert row value)⟩

/-- Takes a block away, and its column with it if that is left without blocks. -/
def erase (A : BlockMatrix F) (row col : String) : BlockMatrix F :=
  match A.column? col with
  | none => A
  | some column =>
    if (column.erase row).isEmpty then ⟨A.columns.erase col⟩ else ⟨A.columns.insert col (column.erase row)⟩

@[simp] theorem get?_empty (row col : String) : (empty : BlockMatrix F).get? row col = none := rfl

@[simp] theorem get?_set (A : BlockMatrix F) (row col r c : String) (value : LinearMap F) :
    (A.set row col value).get? r c = if r = row ∧ c = col then some value else A.get? r c := by
  by_cases hc : c = col
  · subst hc
    by_cases hr : r = row <;> cases h : A.columns.get? c <;> simp [set, get?, column?, hr, h]
  · simp [set, get?, column?, hc]

/-- Nothing but the block itself goes. -/
@[simp] theorem get?_erase (A : BlockMatrix F) (row col r c : String) :
    (A.erase row col).get? r c = if r = row ∧ c = col then none else A.get? r c := by
  by_cases hc : c = col
  · subst hc
    cases h : A.column? c with
    | none => simp [erase, get?, h]
    | some column =>
      have hrest := Keyed.get?_erase column row r
      by_cases hempty : (column.erase row).isEmpty
      · rw [Keyed.get?_of_isEmpty hempty] at hrest
        by_cases hr : r = row <;> simp_all [erase, get?, column?]
      · by_cases hr : r = row <;> simp_all [erase, get?, column?]
  · unfold erase
    split
    · simp [hc]
    · split <;> simp [get?, column?, hc]

/-- The number of rows over all row names. -/
def rowCount (A : BlockMatrix F) : Except Fault Nat := do
  let counts ← A.rowHeads.values.mapM LinearMap.rowCount
  Size.sum counts

/-- The first block of every column, by column name. -/
def colHeads (A : BlockMatrix F) : List (String × LinearMap F) :=
  A.columns.entries.filterMap fun (col, column) => column.first?.map fun (_, a) => (col, a)

/-- The number of columns over all column names. -/
def colCount (A : BlockMatrix F) : Except Fault Nat := do
  let counts ← A.colHeads.mapM fun (_, a) => a.colCount
  Size.sum counts

/-- Marks the storage of every block that has no mark, with marks from `next` on. -/
def share (A : BlockMatrix F) (next : Nat) : BlockMatrix F × Nat :=
  A.blocks.foldl
    (fun (A, next) (row, col, a) =>
      let (a, next) := a.share next
      (A.set row col a, next))
    (A, next)

variable [Arith F]

instance : BEq (BlockMatrix F) := ⟨fun A B => A.columns.isEqv (Keyed.isEqv (· == ·)) B.columns⟩

/-- Refuses a block whose column count is not that of the blocks in its column. -/
def checkColumn (column : Keyed (LinearMap F)) (col : String) (value : LinearMap F) : Except Fault Unit :=
  match column.first? with
  | none => .ok ()
  | some (_, a) => do
    let present ← a.colCount
    let given ← value.colCount
    if present = given then return () else .error (.columnCount given col present)

/-- Inserts a block, or adds it to the one that is there. -/
def insertOrAdd (A : BlockMatrix F) (row col : String) (value : LinearMap F) : Except Fault (BlockMatrix F) := do
  checkColumn ((A.column? col).getD ∅) col value
  match A.get? row col with
  | some a =>
    let sum ← a.add value
    return A.set row col sum
  | none => return A.set row col value

/-- Insertion in place: the matrix that is left, and the fault that ended the insertion, if any. The column is
opened before anything is checked. -/
def insertInPlace (A : BlockMatrix F) (row col : String) (value : LinearMap F) :
    BlockMatrix F × Except Fault Unit :=
  let opened := A.openColumn col
  match checkColumn ((opened.column? col).getD ∅) col value with
  | .error f => (opened, .error f)
  | .ok () =>
    match opened.get? row col with
    | some a =>
      match a.add value with
      | .ok sum => (opened.set row col sum, .ok ())
      | .error f => (opened, .error f)
    | none => (opened.set row col value, .ok ())

def insertAll (A : BlockMatrix F) (items : List (String × String × LinearMap F)) :
    Except Fault (BlockMatrix F) :=
  items.foldlM (fun A (row, col, a) => A.insertOrAdd row col a) A

end BlockMatrix

end BlockElimination
