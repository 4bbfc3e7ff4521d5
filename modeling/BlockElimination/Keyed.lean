/-!
# Keyed values

A finite map from names to values, held as a list that strictly increases in the names by code points. Two
maps with the same look-ups are therefore the same map, and a traversal visits the names in order.
-/
namespace BlockElimination

structure Keyed (α : Type) where
  entries : List (String × α)
  sorted : entries.Pairwise fun a b => a.1 < b.1

namespace Keyed

variable {α β : Type}

def empty : Keyed α := ⟨[], .nil⟩

instance : EmptyCollection (Keyed α) := ⟨empty⟩

/-- The value at a key in a list of entries. -/
def lookup (key : String) : List (String × α) → Option α
  | [] => none
  | (k, v) :: rest => if key = k then some v else lookup key rest

def get? (m : Keyed α) (key : String) : Option α := lookup key m.entries

def contains (m : Keyed α) (key : String) : Bool := (m.get? key).isSome

def keys (m : Keyed α) : List String := m.entries.map Prod.fst

def values (m : Keyed α) : List α := m.entries.map Prod.snd

def size (m : Keyed α) : Nat := m.entries.length

def isEmpty (m : Keyed α) : Bool := m.entries.isEmpty

/-- Puts a value in its place, or in the place of the value that its key has. -/
def insertEntry (key : String) (value : α) : List (String × α) → List (String × α)
  | [] => [(key, value)]
  | (k, v) :: rest =>
    if key < k then (key, value) :: (k, v) :: rest
    else if key = k then (key, value) :: rest
    else (k, v) :: insertEntry key value rest

theorem fst_mem_of_mem_insertEntry {key : String} {value : α} {p : String × α} :
    ∀ {l : List (String × α)}, p ∈ insertEntry key value l → p.1 = key ∨ p ∈ l
  | [], h => by simp_all [insertEntry]
  | (k, v) :: rest, h => by
    unfold insertEntry at h
    split at h
    · grind
    · split at h
      · grind
      · rcases List.mem_cons.mp h with h | h
        · simp [h]
        · exact (fst_mem_of_mem_insertEntry h).imp_right (List.mem_cons_of_mem _)

theorem pairwise_insertEntry {key : String} {value : α} :
    ∀ {l : List (String × α)}, l.Pairwise (fun a b => a.1 < b.1) →
      (insertEntry key value l).Pairwise fun a b => a.1 < b.1
  | [], _ => by simp [insertEntry]
  | (k, v) :: rest, h => by
    have hrest := List.pairwise_cons.mp h
    unfold insertEntry
    split
    case isTrue hlt =>
      refine List.pairwise_cons.mpr ⟨fun p hp => ?_, h⟩
      rcases List.mem_cons.mp hp with rfl | hp
      · exact hlt
      · exact String.lt_trans hlt (hrest.1 p hp)
    case isFalse hlt =>
      split
      case isTrue heq => exact List.pairwise_cons.mpr ⟨heq ▸ hrest.1, hrest.2⟩
      case isFalse hne =>
        have hgt : k < key := String.not_le.mp fun h' => hne (String.le_antisymm h' (String.not_lt.mp hlt))
        refine List.pairwise_cons.mpr ⟨fun p hp => ?_, pairwise_insertEntry hrest.2⟩
        rcases fst_mem_of_mem_insertEntry hp with hp | hp
        · exact hp ▸ hgt
        · exact hrest.1 p hp

/-- The map with `value` at `key`, whatever was there. -/
def insert (m : Keyed α) (key : String) (value : α) : Keyed α :=
  ⟨insertEntry key value m.entries, pairwise_insertEntry m.sorted⟩

def erase (m : Keyed α) (key : String) : Keyed α :=
  ⟨m.entries.filter (·.1 != key), m.sorted.filter _⟩

def map (f : α → β) (m : Keyed α) : Keyed β :=
  ⟨m.entries.map fun p => (p.1, f p.2), by
    rw [List.pairwise_map]
    exact m.sorted⟩

/-- The entry of the least key. -/
def first? (m : Keyed α) : Option (String × α) := m.entries.head?

/-- The same keys, with values that are pairwise equal in the sense of `eq`. -/
def isEqv (eq : α → α → Bool) (m n : Keyed α) : Bool :=
  m.size == n.size && (m.entries.zip n.entries).all fun (p, q) => p.1 == q.1 && eq p.2 q.2

@[simp] theorem entries_empty : (∅ : Keyed α).entries = [] := rfl

@[simp] theorem get?_empty (key : String) : (∅ : Keyed α).get? key = none := rfl

theorem get?_of_isEmpty {m : Keyed α} (h : m.isEmpty) (key : String) : m.get? key = none := by
  simp [get?, List.isEmpty_iff.mp h, lookup]

theorem lookup_insertEntry (key k : String) (value : α) (l : List (String × α)) :
    lookup k (insertEntry key value l) = if k = key then some value else lookup k l := by
  induction l with
  | nil => simp [insertEntry, lookup]
  | cons p rest ih =>
    unfold insertEntry
    split
    · simp [lookup]
    · split <;> grind [lookup]

@[simp] theorem get?_insert (m : Keyed α) (key k : String) (value : α) :
    (m.insert key value).get? k = if k = key then some value else m.get? k :=
  lookup_insertEntry key k value m.entries

theorem lookup_filter_ne (key k : String) (l : List (String × α)) :
    lookup k (l.filter (·.1 != key)) = if k = key then none else lookup k l := by
  induction l with
  | nil => simp [lookup]
  | cons p rest ih =>
    by_cases hk : p.1 = key <;> grind [lookup]

@[simp] theorem get?_erase (m : Keyed α) (key k : String) :
    (m.erase key).get? k = if k = key then none else m.get? k :=
  lookup_filter_ne key k m.entries

theorem lookup_map (f : α → β) (k : String) (l : List (String × α)) :
    lookup k (l.map fun p => (p.1, f p.2)) = (lookup k l).map f := by
  induction l with
  | nil => rfl
  | cons p rest ih => simp only [List.map_cons, lookup, ih]; split <;> rfl

@[simp] theorem get?_map (f : α → β) (m : Keyed α) (k : String) : (m.map f).get? k = (m.get? k).map f :=
  lookup_map f k m.entries

theorem mem_iff_lookup_eq_some {k : String} {v : α} {l : List (String × α)}
    (hl : l.Pairwise fun a b => a.1 < b.1) : (k, v) ∈ l ↔ lookup k l = some v := by
  induction l with
  | nil => simp [lookup]
  | cons p rest ih =>
    have hrest := List.pairwise_cons.mp hl
    by_cases h : k = p.1
    · subst h
      have hnot : (p.1, v) ∉ rest := fun hm => String.lt_irrefl _ (hrest.1 (p.1, v) hm)
      simp [lookup, hnot, Prod.ext_iff, eq_comm]
    · have hne : (k, v) ≠ p := fun e => h (e ▸ rfl)
      simp [lookup, h, hne, ih hrest.2]

theorem mem_entries_iff (m : Keyed α) (k : String) (v : α) : (k, v) ∈ m.entries ↔ m.get? k = some v :=
  mem_iff_lookup_eq_some m.sorted

theorem ext_get? {m n : Keyed α} (h : ∀ k, m.get? k = n.get? k) : m = n := by
  have hmem : ∀ p : String × α, p ∈ m.entries ↔ p ∈ n.entries := fun ⟨k, v⟩ => by
    rw [mem_entries_iff, mem_entries_iff, h]
  have hperm : ∀ {l l' : List (String × α)}, l.Pairwise (fun a b => a.1 < b.1) →
      l'.Pairwise (fun a b => a.1 < b.1) → (∀ p, p ∈ l ↔ p ∈ l') → l = l' := by
    intro l
    induction l with
    | nil =>
      intro l' _ _ hl
      cases l' with
      | nil => rfl
      | cons q rest => exact absurd ((hl q).mpr List.mem_cons_self) (by simp)
    | cons p rest ih =>
      intro l' hl hl' hm
      cases l' with
      | nil => exact absurd ((hm p).mp List.mem_cons_self) (by simp)
      | cons q rest' =>
        have h1 := List.pairwise_cons.mp hl
        have h2 := List.pairwise_cons.mp hl'
        have hpq : p = q := by
          rcases List.mem_cons.mp ((hm p).mp List.mem_cons_self) with hp | hp
          · exact hp
          · rcases List.mem_cons.mp ((hm q).mpr List.mem_cons_self) with hq | hq
            · exact hq.symm
            · exact absurd (String.lt_trans (h2.1 p hp) (h1.1 q hq)) (String.lt_irrefl _)
        subst hpq
        congr 1
        refine ih h1.2 h2.2 fun r => ?_
        have := hm r
        simp only [List.mem_cons] at this
        constructor
        · intro hr
          rcases this.mp (.inr hr) with rfl | h'
          · exact absurd (h1.1 _ hr) (String.lt_irrefl _)
          · exact h'
        · intro hr
          rcases this.mpr (.inr hr) with rfl | h'
          · exact absurd (h2.1 _ hr) (String.lt_irrefl _)
          · exact h'
  have := hperm m.sorted n.sorted hmem
  cases m; cases n; simp_all

end Keyed

end BlockElimination
