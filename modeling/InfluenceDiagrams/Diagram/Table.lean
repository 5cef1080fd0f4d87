import InfluenceDiagrams.Path.Basic

/-!
# `InfluenceDiagrams.Diagram.Table` — rectangular tables of any number of dimensions

Probabilities, utilities and strategies are tables indexed by states. A table keeps its entries in one
list, the last index varying fastest; a table without dimensions has one entry.

## Contents
- **`Table`** — shape and entries, as many entries as the shape has `Table.places`.
- **`Table.place?`, `Table.get?`** — the entry at an index; a negative index counts from the back.
- **`Selection`, `Table.select?`** — what an index selects that may have too few positions.
- **`stretch?`** — the shape of the sum of two tables.
- **`Table.rows`, `Table.row?`, `Table.setRow`** — the lines along the last dimension.
- **`Nested`, `Nested.rectangle?`** — the table that nested lists describe if they are not ragged.
-/

namespace InfluenceDiagrams

/-- The number of places of a shape, one if it has no dimensions. -/
def Table.places : List Nat → Nat
  | [] => 1
  | n :: shape => n * Table.places shape

/-- A rectangular table in row-major order. -/
structure Table (β : Type) where
  shape : List Nat
  entries : List β
  size_eq : entries.length = Table.places shape

namespace Table

variable {β : Type}

@[simp] theorem places_nil : places [] = 1 := rfl

@[simp] theorem places_cons (n : Nat) (shape : List Nat) : places (n :: shape) = n * places shape := rfl

theorem places_append (lead shape : List Nat) : places (lead ++ shape) = places lead * places shape := by
  induction lead with
  | nil => rw [List.nil_append, places_nil, Nat.one_mul]
  | cons n lead ih => rw [List.cons_append, places_cons, ih, places_cons, Nat.mul_assoc]

/-- Number of dimensions. -/
def rank (t : Table β) : Nat := t.shape.length

/-- The place of an index in row-major order. The index needs one position for each dimension. -/
def place? : List Nat → List State → Option Nat
  | [], [] => some 0
  | n :: shape, k :: index =>
      (position? n k).bind fun i => (place? shape index).map (i * places shape + ·)
  | _, _ => none

theorem place?_lt : ∀ {shape : List Nat} {index : List State} {i : Nat},
    place? shape index = some i → i < places shape
  | [], [], i, h => by
      obtain rfl : 0 = i := Option.some.inj h
      exact Nat.one_pos
  | n :: shape, k :: index, i, h => by
      obtain ⟨a, ha, h⟩ := Option.bind_eq_some_iff.1 h
      obtain ⟨b, hb, rfl⟩ := Option.map_eq_some_iff.1 h
      have hb := place?_lt hb
      calc a * places shape + b < a * places shape + places shape := Nat.add_lt_add_left hb _
        _ = (a + 1) * places shape := (Nat.succ_mul _ _).symm
        _ ≤ n * places shape := Nat.mul_le_mul_right _ (position?_lt ha)

/-- The entry at an index. -/
def get? (t : Table β) (index : List State) : Option β :=
  (place? t.shape index).bind (t.entries[·]?)

/-! ## Partial indices -/

/-- What an index selects from a table. -/
inductive Selection (β : Type) where
  /-- One entry. -/
  | entry (x : β)
  /-- A table of the dimensions that are left over, of which only the shape is looked at. -/
  | part (shape : List Nat)
  deriving Repr, DecidableEq

/-- The dimensions left over by an index, each of whose positions has to be in range. -/
def rest? : List Nat → List State → Option (List Nat)
  | shape, [] => some shape
  | n :: shape, k :: index => (position? n k).bind fun _ => rest? shape index
  | [], _ :: _ => none

/-- What an index selects: an entry if it has a position for each dimension, otherwise a part of the
table. -/
def select? (t : Table β) (index : List State) : Option (Selection β) :=
  if index.length = t.rank then (t.get? index).map .entry else (rest? t.shape index).map .part

/-- The shape of the sum of tables of two reversed shapes. Dimensions are matched from the last one on;
a dimension of one place is stretched, and one that is missing counts as one of one place. -/
def stretchReversed? : List Nat → List Nat → Option (List Nat)
  | [], b => some b
  | a, [] => some a
  | n :: a, m :: b =>
      if n = m ∨ m = 1 then (stretchReversed? a b).map (n :: ·)
      else if n = 1 then (stretchReversed? a b).map (m :: ·)
      else none

/-- The shape of the sum of tables of two shapes; none when they do not match. -/
def stretch? (a b : List Nat) : Option (List Nat) :=
  (stretchReversed? a.reverse b.reverse).map List.reverse

/-- The table with a function applied to every entry. -/
def map {γ : Type} (f : β → γ) (t : Table β) : Table γ :=
  ⟨t.shape, t.entries.map f, (List.length_map _).trans t.size_eq⟩

/-! ## Lines along the last dimension -/

/-- All dimensions but the last. -/
def rowShape (t : Table β) : List Nat := t.shape.dropLast

/-- The last dimension; zero for a table without dimensions. -/
def width (t : Table β) : Nat := t.shape.getLast?.getD 0

/-- The line at a place in row-major order of all dimensions but the last. -/
def rowAt (t : Table β) (i : Nat) : List β := (t.entries.drop (i * t.width)).take t.width

/-- All lines, in row-major order. -/
def rows (t : Table β) : List (List β) := (List.range (places t.rowShape)).map t.rowAt

/-- The line at an index over all dimensions but the last. -/
def row? (t : Table β) (index : List State) : Option (List β) :=
  (place? t.rowShape index).map t.rowAt

/-- The indices over all dimensions of a shape, in row-major order. -/
def indices (shape : List Nat) : List (List State) :=
  choices (shape.map fun n => (List.range n).map Int.ofNat)

/-- Replace entries from a place on. -/
def overwrite (entries : List β) (start : Nat) (new : List β) : List β :=
  entries.zipIdx.map fun (x, i) => if start ≤ i then (new[i - start]?).getD x else x

theorem length_overwrite (entries : List β) (start : Nat) (new : List β) :
    (overwrite entries start new).length = entries.length := by
  rw [overwrite, List.length_map, List.length_zipIdx]

/-- The table with the line at a place replaced. Entries of `row` beyond the last dimension are not
used. -/
def setRow (t : Table β) (i : Nat) (row : List β) : Table β :=
  ⟨t.shape, overwrite t.entries (i * t.width) (row.take t.width),
    (length_overwrite _ _ _).trans t.size_eq⟩

/-- The entries of so many lines of one length, given by a function of line and place. -/
def lineEntries (lines width : Nat) (f : Nat → Nat → β) : List β :=
  (List.range lines).flatMap fun i => (List.range width).map (f i)

theorem length_lineEntries (lines width : Nat) (f : Nat → Nat → β) :
    (lineEntries lines width f).length = lines * width := by
  induction lines with
  | zero => rw [Nat.zero_mul]; rfl
  | succ n ih =>
      unfold lineEntries at ih
      rw [lineEntries, List.range_succ, List.flatMap_append, List.length_append, ih,
        List.flatMap_singleton, List.length_map, List.length_range, Nat.succ_mul]

theorem length_lineEntries_eq_places (lead : List Nat) (width : Nat) (f : Nat → Nat → β) :
    (lineEntries (places lead) width f).length = places (lead ++ [width]) := by
  rw [length_lineEntries, places_append, places_cons, places_nil, Nat.mul_one]

/-- The table of a shape whose line at each place of the leading dimensions is given by a function of
the place and of the last index. -/
def ofRows (lead : List Nat) (width : Nat) (f : Nat → Nat → β) : Table β :=
  ⟨lead ++ [width], lineEntries (places lead) width f, length_lineEntries_eq_places lead width f⟩

/-! ## Stacking -/

theorem length_flatMap_entries (shape : List Nat) (ts : List (Table β))
    (h : ∀ t ∈ ts, t.shape = shape) :
    (ts.flatMap Table.entries).length = places (ts.length :: shape) := by
  induction ts with
  | nil => rw [places_cons, List.length_nil, Nat.zero_mul]; rfl
  | cons t ts ih =>
      have ih := ih fun u hu => h u (List.mem_cons_of_mem _ hu)
      rw [List.flatMap_cons, List.length_append, ih, t.size_eq, h t List.mem_cons_self, places_cons,
        places_cons, List.length_cons, Nat.succ_mul, Nat.add_comm]

/-- Put tables of one shape below each other. Nothing stacks to a line without entries. -/
def stack? : List (Table β) → Option (Table β)
  | [] => some ⟨[0], [], rfl⟩
  | t :: ts =>
      if h : ∀ u ∈ t :: ts, u.shape = t.shape then
        some ⟨(t :: ts).length :: t.shape, (t :: ts).flatMap Table.entries,
          length_flatMap_entries t.shape (t :: ts) h⟩
      else none

end Table

/-- Nested lists as they are written: a bare entry or a list. -/
inductive Nested (β : Type) where
  | leaf (x : β)
  | list (xs : List (Nested β))

namespace Nested

variable {β : Type}

mutual

/-- The table that nested lists describe; none when the lists are ragged. -/
def rectangle? : Nested β → Option (Table β)
  | .leaf x => some ⟨[], [x], rfl⟩
  | .list xs => (rectangles? xs).bind Table.stack?

/-- The tables of a list of nested lists. -/
def rectangles? : List (Nested β) → Option (List (Table β))
  | [] => some []
  | x :: xs => (rectangle? x).bind fun t => (rectangles? xs).map (t :: ·)

end

end Nested
end InfluenceDiagrams
