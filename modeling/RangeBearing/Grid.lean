import RangeBearing.Direction

/-!
# Grids of one value for each emitter and sensor

`Grid α` has a row for each emitter and in it a cell for each sensor.  A grid is determined by its
cells (`Grid.ext_get`); `Grid.cells` lists them by emitter and then by sensor.
-/

namespace RangeBearing

universe u v

/-- what the six sensors gave while one emitter was lit -/
abbrev Row (α : Type u) := Table α

/-- a row for each emitter -/
structure Grid (α : Type u) where
  rows : Table (Row α)
  deriving DecidableEq

namespace Grid

variable {α : Type u} {β : Type v}

def get (g : Grid α) (e s : Direction) : α := (g.rows.entry e).entry s

def ofFn (f : Direction → Direction → α) : Grid α :=
  ⟨.ofFn fun e => .ofFn fun s => f e s⟩

/-- the grid with one value everywhere -/
def const (a : α) : Grid α := ⟨.replicate 6 (.replicate 6 a)⟩

def setRow (g : Grid α) (e : Direction) (row : Row α) : Grid α := ⟨g.rows.update e row⟩

def set (g : Grid α) (e s : Direction) (a : α) : Grid α := g.setRow e ((g.rows.entry e).update s a)

def map (f : α → β) (g : Grid α) : Grid β := ⟨g.rows.map fun row => row.map f⟩

/-- the pairs of an emitter and a sensor, by emitter and then by sensor -/
def pairs : List (Direction × Direction) :=
  Direction.all.flatMap fun e => Direction.all.map fun s => (e, s)

/-- a value with its emitter and its sensor -/
structure Cell (α : Type u) where
  emitter : Direction
  sensor : Direction
  value : α

def cells (g : Grid α) : List (Cell α) := pairs.map fun (e, s) => ⟨e, s, g.get e s⟩

def values (g : Grid α) : List α := g.cells.map (·.value)

theorem get_ofFn (f : Direction → Direction → α) (e s : Direction) : (ofFn f).get e s = f e s := by
  simp only [get, ofFn, Table.entry_ofFn]

theorem get_const (a : α) (e s : Direction) : (const a).get e s = a := by
  simp only [get, const, Table.entry_replicate]

theorem get_map (f : α → β) (g : Grid α) (e s : Direction) : (g.map f).get e s = f (g.get e s) := by
  simp only [get, map, Table.entry_map]

theorem get_setRow (g : Grid α) (e e' s : Direction) (row : Row α) :
    (g.setRow e row).get e' s = if e = e' then row.entry s else g.get e' s := by
  simp only [get, setRow, Table.entry_update]
  split <;> rfl

theorem get_set (g : Grid α) (e s e' s' : Direction) (a : α) :
    (g.set e s a).get e' s' = if e = e' ∧ s = s' then a else g.get e' s' := by
  unfold set
  rw [get_setRow]
  by_cases he : e = e'
  · subst he
    simp only [get, Table.entry_update, true_and, if_true]
  · simp only [he, false_and, if_false]

theorem ext_get {g h : Grid α} (hc : ∀ e s, g.get e s = h.get e s) : g = h := by
  cases g
  cases h
  congr
  exact Table.ext_entry fun e => Table.ext_entry fun s => hc e s

theorem mem_pairs (e s : Direction) : (e, s) ∈ pairs := by
  simp [pairs, Direction.mem_all]

theorem length_pairs : pairs.length = 36 := rfl

theorem length_cells (m : Grid α) : m.cells.length = 36 := by
  unfold cells
  rw [List.length_map, length_pairs]

end Grid

end RangeBearing
