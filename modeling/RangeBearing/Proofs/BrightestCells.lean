import Mathlib.Data.List.Induction
import Mathlib.Data.List.Nodup
import RangeBearing.Brightness.Basic

/-!
# The first of the brightest cells

The scan for the brightest cell starts from the least reading there is, and only a brighter one
replaces the best so far.  The first cell is the answer until a brighter one comes, so the start
makes no difference even to a matrix of the least readings, and ties go to the first cell.

* `Brightness.Before`           the order of the cells, by emitter and then by sensor;
* `Brightness.FirstBrightest`   the first of the brightest among some cells, kept by every step of
                                the scan (`FirstBrightest.step`);
* `Brightness.InOrder`          every cell is visited once, in this order;
* `Brightness.Scan`, `Brightness.scan_brightest`   what the scan of a matrix comes to.
-/

namespace RangeBearing

/-- the emitter and the sensor of a cell -/
def Grid.Cell.place {α : Type} (c : Grid.Cell α) : Direction × Direction := (c.emitter, c.sensor)

namespace Brightness

/-- an earlier place: of an earlier emitter, or of the same one and an earlier sensor -/
def Before (p q : Direction × Direction) : Prop := p.1 < q.1 ∨ p.1 = q.1 ∧ p.2 < q.2

instance : DecidableRel Before := fun _ _ => inferInstanceAs (Decidable (_ ∨ _))

def reading (m : Brightness) (p : Direction × Direction) : Int16 := m.get p.1 p.2

/-- the first of the brightest among some cells -/
structure FirstBrightest (m : Brightness) (ps : List (Direction × Direction))
    (p : Direction × Direction) : Prop where
  among : p ∈ ps
  greatest : ∀ q ∈ ps, m.reading q ≤ m.reading p
  first : ∀ q ∈ ps, Before q p → m.reading q < m.reading p

/-- the brighter one of two cells, the first one if they are equal -/
def brighter (m : Brightness) (p q : Direction × Direction) : Direction × Direction :=
  if m.reading p < m.reading q then q else p

variable {m : Brightness} {ps : List (Direction × Direction)} {p q : Direction × Direction}

/-! ## the order of the cells -/

theorem before_iff : Before p q ↔ p.1.val < q.1.val ∨ p.1.val = q.1.val ∧ p.2.val < q.2.val := by
  unfold Before
  rw [Fin.lt_def, Fin.lt_def, Fin.ext_iff]

theorem Before.asymm (h : Before p q) : ¬ Before q p := by
  rw [before_iff] at h ⊢
  omega

theorem before_or_before (h : p ≠ q) : Before p q ∨ Before q p := by
  have hplaces : ¬ (p.1.val = q.1.val ∧ p.2.val = q.2.val) := fun heq =>
    h (Prod.ext (Fin.ext heq.1) (Fin.ext heq.2))
  rw [before_iff, before_iff]
  omega

theorem pairwise_pairs : Grid.pairs.Pairwise Before := by decide

theorem count_pairs (p : Direction × Direction) : Grid.pairs.count p = 1 := by
  have hnodup : Grid.pairs.Nodup :=
    pairwise_pairs.imp fun hbefore heq => (heq ▸ hbefore).asymm (heq ▸ hbefore)
  exact List.count_eq_one_of_mem hnodup (Grid.mem_pairs p.1 p.2)

theorem places_cells (m : Brightness) : m.cells.map Grid.Cell.place = Grid.pairs := by
  unfold Grid.cells
  rw [List.map_map]
  exact List.map_id _

theorem value_of_mem_cells {c : Grid.Cell Int16} (h : c ∈ m.cells) :
    c.value = m.get c.emitter c.sensor := by
  obtain ⟨p, -, rfl⟩ := List.mem_map.mp h
  rfl

/-! ## the scan -/

/-- one step of the scan -/
def scanStep (best : (Direction × Direction) × Int16) (c : Grid.Cell Int16) :
    (Direction × Direction) × Int16 :=
  if best.2 < c.value then (c.place, c.value) else best

theorem brightest_eq (m : Brightness) :
    m.brightest =
      (m.cells.foldl scanStep ((Direction.first, Direction.first), Int16.minValue)).1 := rfl

theorem scanStep_reading (m : Brightness) (p q : Direction × Direction) :
    scanStep (p, m.reading p) ⟨q.1, q.2, m.reading q⟩ =
      (m.brighter p q, m.reading (m.brighter p q)) := by
  unfold scanStep brighter
  by_cases hbrighter : m.reading p < m.reading q
  · rw [if_pos hbrighter, if_pos hbrighter]
    rfl
  · rw [if_neg hbrighter, if_neg hbrighter]

/-- the first cell takes the place of the least reading, or is as dark as that -/
theorem scanStep_start (m : Brightness) (p : Direction × Direction) :
    scanStep (p, Int16.minValue) ⟨p.1, p.2, m.reading p⟩ = (p, m.reading p) := by
  unfold scanStep
  by_cases hbrighter : Int16.minValue < m.reading p
  · exact if_pos hbrighter
  · rw [if_neg hbrighter,
      Int16.le_antisymm (Int16.minValue_le _) (Int16.not_lt.mp hbrighter)]

theorem foldl_scanStep (m : Brightness) (ps : List (Direction × Direction))
    (p : Direction × Direction) :
    (ps.map fun q => ⟨q.1, q.2, m.get q.1 q.2⟩).foldl scanStep (p, m.reading p) =
      (ps.foldl m.brighter p, m.reading (ps.foldl m.brighter p)) := by
  induction ps generalizing p with
  | nil => rfl
  | cons q ps ih =>
    rw [List.map_cons, List.foldl_cons, List.foldl_cons]
    have hstep := scanStep_reading m p q
    unfold reading at hstep ih ⊢
    rw [hstep]
    exact ih _

/-- the brighter of the best so far and a cell after all that were visited -/
theorem FirstBrightest.step (h : m.FirstBrightest ps p) (hq : ∀ p' ∈ ps, Before p' q) :
    m.FirstBrightest (ps ++ [q]) (m.brighter p q) := by
  unfold brighter
  by_cases hbrighter : m.reading p < m.reading q
  · rw [if_pos hbrighter]
    have hless : ∀ p' ∈ ps, m.reading p' < m.reading q := fun p' hp' =>
      Int16.lt_of_le_of_lt (h.greatest p' hp') hbrighter
    refine ⟨List.mem_concat_self, fun p' hp' => ?_, fun p' hp' hbefore => ?_⟩
    · rcases List.mem_append.mp hp' with hp' | hp'
      · exact Int16.le_of_lt (hless p' hp')
      · rw [List.mem_singleton.mp hp']
        exact Int16.le_refl _
    · rcases List.mem_append.mp hp' with hp' | hp'
      · exact hless p' hp'
      · obtain rfl := List.mem_singleton.mp hp'
        exact absurd hbefore hbefore.asymm
  · rw [if_neg hbrighter]
    refine ⟨List.mem_append_left _ h.among, fun p' hp' => ?_, fun p' hp' hbefore => ?_⟩
    · rcases List.mem_append.mp hp' with hp' | hp'
      · exact h.greatest p' hp'
      · rw [List.mem_singleton.mp hp']
        exact Int16.not_lt.mp hbrighter
    · rcases List.mem_append.mp hp' with hp' | hp'
      · exact h.first p' hp' hbefore
      · rw [List.mem_singleton.mp hp'] at hbefore
        exact absurd hbefore (hq p h.among).asymm

/-- a scan of cells that come one after another -/
theorem firstBrightest_foldl (m : Brightness) (p : Direction × Direction)
    {qs : List (Direction × Direction)} (horder : (p :: qs).Pairwise Before) :
    m.FirstBrightest (p :: qs) (qs.foldl m.brighter p) := by
  induction qs using List.reverseRecOn with
  | nil =>
    refine ⟨List.mem_singleton_self p, fun q hq => ?_, fun q hq hbefore => ?_⟩
    · rw [List.mem_singleton.mp hq]
      exact Int16.le_refl _
    · rw [List.mem_singleton.mp hq] at hbefore
      exact absurd hbefore hbefore.asymm
  | append_singleton qs q ih =>
    rw [← List.cons_append, List.pairwise_append] at horder
    obtain ⟨hqs, -, hlast⟩ := horder
    rw [List.foldl_append]
    exact (ih hqs).step fun p' hp' => hlast p' hp' q (List.mem_singleton_self q)

theorem firstBrightest_brightest (m : Brightness) : m.FirstBrightest Grid.pairs m.brightest := by
  obtain ⟨qs, hqs⟩ : ∃ qs, Grid.pairs = (Direction.first, Direction.first) :: qs := ⟨_, rfl⟩
  have hscan : m.brightest = qs.foldl m.brighter (Direction.first, Direction.first) := by
    rw [brightest_eq]
    unfold Grid.cells
    rw [hqs, List.map_cons, List.foldl_cons]
    have hstart := scanStep_start m (Direction.first, Direction.first)
    have hrest := foldl_scanStep m qs (Direction.first, Direction.first)
    rw [← hstart] at hrest
    exact congrArg Prod.fst hrest
  have horder := pairwise_pairs
  rw [hqs] at horder ⊢
  rw [hscan]
  exact firstBrightest_foldl m _ horder

theorem FirstBrightest.unique (h : m.FirstBrightest ps p) (h' : m.FirstBrightest ps q) :
    p = q := by
  by_contra hne
  rcases before_or_before hne with hbefore | hbefore
  · exact absurd (h'.first p h.among hbefore) (Int16.not_lt.mpr (h.greatest q h'.among))
  · exact absurd (h.first q h'.among hbefore) (Int16.not_lt.mpr (h'.greatest p h.among))

/-! ## every matrix -/

/-- the cells are visited in order -/
structure InOrder (m : Brightness) : Prop where
  /-- each of the thirty-six places once -/
  count : m.cells.length = 36
  once : ∀ p, (m.cells.map Grid.Cell.place).count p = 1
  order : (m.cells.map Grid.Cell.place).Pairwise Before
  /-- with the reading that is there -/
  value : ∀ c ∈ m.cells, c.value = m.get c.emitter c.sensor

/-- what the scan of a matrix comes to -/
structure Scan (m : Brightness) : Prop where
  greatest : ∀ e s, m.get e s ≤ m.get m.brightest.1 m.brightest.2
  first : ∀ e s, Before (e, s) m.brightest → m.get e s < m.get m.brightest.1 m.brightest.2
  /-- there is no other such cell -/
  only : ∀ p : Direction × Direction, (∀ e s, m.get e s ≤ m.get p.1 p.2) →
    (∀ e s, Before (e, s) p → m.get e s < m.get p.1 p.2) → p = m.brightest
  cells : m.InOrder

/-- the brightest cell is the first of the cells with the greatest reading -/
theorem scan_brightest (m : Brightness) : m.Scan where
  greatest e s := (firstBrightest_brightest m).greatest (e, s) (Grid.mem_pairs e s)
  first e s := (firstBrightest_brightest m).first (e, s) (Grid.mem_pairs e s)
  only p hgreatest hfirst := by
    have hp : m.FirstBrightest Grid.pairs p :=
      ⟨Grid.mem_pairs p.1 p.2, fun q _ => hgreatest q.1 q.2, fun q _ => hfirst q.1 q.2⟩
    exact hp.unique (firstBrightest_brightest m)
  cells := {
    count := Grid.length_cells m
    once := fun p => by rw [places_cells, count_pairs]
    order := by rw [places_cells]; exact pairwise_pairs
    value := fun _ => value_of_mem_cells }

example : brightest (((Grid.const (-7)).set 2 3 (-5)).set 4 1 (-5)) = (2, 3) := by decide +kernel

example : brightest (.const Int16.minValue) = (0, 0) := by decide +kernel

end Brightness

end RangeBearing
