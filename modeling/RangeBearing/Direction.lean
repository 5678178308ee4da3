/-!
# The six directions

Six emitter/sensor pairs sit on a ring, numbered clockwise.  A `Table` holds one value for each of
them.

* `Direction.turn k n`     `n` steps clockwise;
* `Table.entry`, `Table.update`   reading and replacing the value of a direction.
-/

namespace RangeBearing

universe u v

/-- one of the six directions of the ring -/
abbrev Direction := Fin 6

namespace Direction

theorem lt (k : Direction) : k.val < 6 := k.isLt

def all : List Direction := List.finRange 6

def first : Direction := ⟨0, by decide⟩

/-- an integer modulo six -/
def ofInt (i : Int) : Direction := ⟨(i % 6).toNat, by omega⟩

/-- the direction `n` steps clockwise -/
def turn (k : Direction) (n : Nat) : Direction := ofInt (k.val + n)

theorem mem_all (k : Direction) : k ∈ all := List.mem_finRange k

theorem nodup_all : all.Nodup := List.nodup_finRange 6

theorem turn_val (k : Direction) (n : Nat) : (k.turn n).val = (k.val + n) % 6 := by
  simp only [turn, ofInt]; omega

end Direction

/-- one value for each direction -/
abbrev Table (α : Type u) := Vector α 6

namespace Table

variable {α : Type u} {β : Type v}

/-- the value of a direction -/
def entry (t : Table α) (k : Direction) : α := getElem t k.val (Direction.lt k)

/-- the table with another value for one direction -/
def update (t : Table α) (k : Direction) (a : α) : Table α := t.set k.val a (Direction.lt k)

theorem entry_update (t : Table α) (k k' : Direction) (a : α) :
    (t.update k a).entry k' = if k = k' then a else t.entry k' := by
  simp [entry, update, Vector.getElem_set, Fin.ext_iff]

theorem entry_ofFn (f : Direction → α) (k : Direction) : entry (.ofFn f) k = f k := by
  simp [entry]

theorem entry_replicate (a : α) (k : Direction) : entry (.replicate 6 a) k = a := by
  simp [entry]

theorem entry_map (f : α → β) (t : Table α) (k : Direction) :
    entry (Vector.map f t) k = f (t.entry k) := by
  simp [entry]

theorem map_entry_all (t : Table α) : Direction.all.map t.entry = t.toList := by
  apply List.ext_getElem
  · simp [Direction.all]
  · intro i hi hi'
    simp [Direction.all, entry]

theorem ext_entry {t t' : Table α} (h : ∀ k, t.entry k = t'.entry k) : t = t' := by
  ext i hi
  exact h ⟨i, hi⟩

end Table

end RangeBearing
