import BlockElimination.Kernel.Vector
import BlockElimination.Keyed
import BlockElimination.Text.Scientific

/-!
# Block vectors

Dense segments keyed by the names of blocks. Inserting at a name that is present adds to its segment.
-/
namespace BlockElimination

structure BlockVector (F : Type) where
  segments : Keyed (Array F)

namespace BlockVector

variable {F : Type}

def empty : BlockVector F := ⟨∅⟩

def get? (v : BlockVector F) (key : String) : Option (Array F) := v.segments.get? key

def contains (v : BlockVector F) (key : String) : Bool := v.segments.contains key

def keys (v : BlockVector F) : List String := v.segments.keys

def erase (v : BlockVector F) (key : String) : BlockVector F := ⟨v.segments.erase key⟩

def isEmpty (v : BlockVector F) : Bool := v.segments.isEmpty

/-- The number of segments. -/
def size (v : BlockVector F) : Nat := v.segments.size

/-- The number of elements of all segments. -/
def dim (v : BlockVector F) : Nat := (v.segments.values.map Array.size).foldr (· + ·) 0

@[simp] theorem get?_empty (key : String) : (empty : BlockVector F).get? key = none := rfl

@[simp] theorem get?_erase (v : BlockVector F) (key k : String) :
    (v.erase key).get? k = if k = key then none else v.get? k :=
  Keyed.get?_erase v.segments key k

/-- Sets every element of a segment, if there is one. -/
def fill (v : BlockVector F) (key : String) (value : F) : BlockVector F :=
  match v.get? key with
  | some s => ⟨v.segments.insert key (s.map fun _ => value)⟩
  | none => v

variable [Arith F]

/-- Inserts a segment, or adds it to the one that is there, of the same length. -/
def insertOrAdd (v : BlockVector F) (key : String) (value : Array F) : Except Fault (BlockVector F) :=
  match v.get? key with
  | some s =>
    if s.size = value.size then .ok ⟨v.segments.insert key (Kernel.accumulate 1 value s)⟩
    else .error (.segmentLength value.size key s.size)
  | none => .ok ⟨v.segments.insert key value⟩

def insertAll (v : BlockVector F) (items : List (String × Array F)) : Except Fault (BlockVector F) :=
  items.foldlM (fun v item => v.insertOrAdd item.1 item.2) v

def scale (alpha : F) (v : BlockVector F) : BlockVector F := ⟨v.segments.map (Kernel.scale alpha)⟩

@[simp] theorem get?_scale (alpha : F) (v : BlockVector F) (key : String) :
    (v.scale alpha).get? key = (v.get? key).map (Kernel.scale alpha) :=
  Keyed.get?_map _ v.segments key

/-- Adds `α` times each entry in turn. A segment of another length ends the sum, and the vector keeps what has
been added before it. -/
def accumulateEntries (alpha : F) : List (String × Array F) → BlockVector F → BlockVector F × Except Fault Unit
  | [], u => (u, .ok ())
  | (key, v) :: rest, u =>
    match u.get? key with
    | some s =>
      if s.size = v.size then accumulateEntries alpha rest ⟨u.segments.insert key (Kernel.accumulate alpha v s)⟩
      else (u, .error (.segmentLength v.size key s.size))
    | none => accumulateEntries alpha rest ⟨u.segments.insert key (Kernel.scale alpha v)⟩

/-- `u + α v` in place: the vector that is left, and the fault that ended the sum, if any. -/
def accumulate (alpha : F) (u v : BlockVector F) : BlockVector F × Except Fault Unit :=
  accumulateEntries alpha v.segments.entries u

def add (u v : BlockVector F) : Except Fault (BlockVector F) :=
  match accumulate 1 u v with
  | (w, done) => done.map fun _ => w

def sub (u v : BlockVector F) : Except Fault (BlockVector F) :=
  match accumulate (-1) u v with
  | (w, done) => done.map fun _ => w

/-- The Euclidean norm over all segments. -/
def norm [SquareRoot F] (v : BlockVector F) : F :=
  SquareRoot.sqrt (v.segments.values.foldl (fun acc s => acc + Kernel.innerProduct s s) 0)

/-- The inner product over the names that both vectors have. -/
def dot (u v : BlockVector F) : Except Fault F :=
  u.segments.entries.foldlM
    (fun acc entry =>
      match v.get? entry.1 with
      | some s => (acc + ·) <$> Kernel.dot entry.2 s
      | none => .ok acc) 0

instance : BEq (BlockVector F) := ⟨fun u v => u.segments.isEqv (· == ·) v.segments⟩

def text [HasBinaryValue F] (v : BlockVector F) : String :=
  let lines := v.segments.entries.map fun (key, s) =>
    "\n" ++ key ++ ": [" ++ String.join (s.toList.map fun x => " " ++ Scientific.text x) ++ " ]"
  s!"block vector {v.dim}" ++ String.join lines

end BlockVector

end BlockElimination
