import RangeBearing.Brightness.Basic

/-!
# The home of the newest matrix

A matrix is put in whole and handed out at most once; the one put in last stays readable.  What
each operation does to a later `take` is in `take_put`, `take_drop` and `take_take`.
-/

namespace RangeBearing

namespace Brightness

/-- the matrix put in last, and whether it can be taken -/
structure Store where
  matrix : Brightness
  /-- put in, and neither taken nor dropped since -/
  fresh : Bool
  deriving DecidableEq

namespace Store

/-- nothing to take until a matrix is put in -/
def empty : Store := ⟨dark, false⟩

def put (_ : Store) (m : Brightness) : Store := ⟨m, true⟩

def drop (store : Store) : Store := { store with fresh := false }

/-- the matrix, if it has not been handed out yet -/
def take (store : Store) : Option Brightness × Store :=
  if store.fresh then (some store.matrix, store.drop) else (none, store)

/-- the matrix put in last, handed out or not -/
def last (store : Store) : Brightness := store.matrix

theorem take_put (store : Store) (m : Brightness) :
    (store.put m).take = (some m, (store.put m).drop) := rfl

theorem take_drop (store : Store) : store.drop.take = (none, store.drop) := rfl

theorem snd_take (store : Store) : store.take.2 = store.drop := by
  cases store with
  | mk matrix fresh => cases fresh <;> rfl

theorem take_take (store : Store) : store.take.2.take.1 = none := by
  rw [snd_take, take_drop]

theorem last_take (store : Store) : store.take.2.last = store.last := by
  rw [snd_take]
  rfl

end Store

end Brightness

end RangeBearing
