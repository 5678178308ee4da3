import Mathlib.Data.List.Basic
import RangeBearing.Estimation.Refinement

/-!
# The refined range is a matter of nine cells

The refinement traces all lit cells into a list with room for thirty-six candidates, and then looks
up those of the nine cells around the brightest one.  The list is never full, a cell has at most
one candidate and is looked up under its own place, so the detour makes no difference.

* `Estimation.positionOf?`   the position that a single reading implies;
* `Estimation.ninePairs`     the nine cells, in the order in which they are visited;
* `Estimation.directRange`   the refined range from nine readings, without a list of candidates;
* `Estimation.candidates_eq`, `Estimation.find?_candidates`   no candidate is dropped, and each is
  found by its own cell alone;
* `Estimation.NineCells`, `Estimation.refine_nineCells`   what this makes of a refinement.
-/

namespace RangeBearing

namespace Estimation

/-- the position of the other robot's centre that a reading implies, if the reading is positive,
its ray is in view from the guess, the gain along the ray is positive and the intensity can be
inverted -/
def positionOf? (guess : Displacement) (heading : Binary32) (e s : Direction) (reading : Int16) :
    Option Displacement :=
  let ray := Ray.trace guess heading e s
  let gain := Photometry.sensorGain ray.alpha * Photometry.emitterGain ray.beta
  if 0 < reading ∧ ray.inView = true ∧ 0 < gain then
    match Photometry.distance (Brightness.number reading / gain) with
    | .ok length => some (impliedCentre e s heading length (ray.alpha + Ring.boresight s))
    | .error _ => none
  else none

/-- the nine cells around a cell: from one step before to one step after it in either direction -/
def ninePairs (e s : Direction) : List (Direction × Direction) :=
  (List.range 3).flatMap fun de => (List.range 3).map fun ds => (e.turn (de + 5), s.turn (ds + 5))

/-- the range averaged over the nine cells around a cell, from the readings alone -/
def directRange (e s : Direction) (reading : Direction × Direction → Int16)
    (seedRange bearing heading weightFloor : Binary32) : Except Fault Binary32 :=
  let guess := Displacement.polar seedRange bearing
  let square (p : Direction × Direction) : Binary32 :=
    Brightness.number (reading p) * Brightness.number (reading p)
  let energy := ((ninePairs e s).map square).foldl (fun sum x => sum + x) 0
  if ¬ weightFloor < energy then .error (.faintNeighbourhood 0)
  else
    let found := (ninePairs e s).filterMap fun p =>
      (positionOf? guess heading p.1 p.2 (reading p)).map fun centre => (centre, square p / energy)
    let weight := (found.map (·.2)).foldl (fun sum w => sum + w) 0
    if ¬ weightFloor < weight then .error (.faintNeighbourhood weight)
    else
      let total := found.foldl (fun sum x => sum + x.1 * x.2) Displacement.zero
      .ok (total * (1 / weight)).length

/-! ## the list of candidates -/

theorem candidate?_eq (guess : Displacement) (heading : Binary32) (c : Grid.Cell Int16) :
    candidate? guess heading c =
      (positionOf? guess heading c.emitter c.sensor c.value).map fun centre =>
        ⟨c.emitter, c.sensor, centre⟩ := by
  unfold candidate? positionOf?
  -- only these two are taken out: to reduce what is below them is to compute with the ray
  extract_lets +onlyGivenNames ray gain
  by_cases hlit : c.value ≤ 0
  · rw [if_pos hlit, if_neg fun h => absurd h.1 (Int16.not_lt.mpr hlit)]
    rfl
  · rw [if_neg hlit]
    by_cases hview : ray.inView = true
    · rw [if_neg (not_not_intro hview)]
      by_cases hgain : 0 < gain
      · rw [if_neg (not_not_intro hgain), if_pos ⟨Int16.not_le.mp hlit, hview, hgain⟩]
        cases Photometry.distance (Brightness.number c.value / gain) with
        | error cause => rfl
        | ok length => rfl
      · rw [if_pos hgain, if_neg fun h => hgain h.2.2]
        rfl
    · rw [if_pos hview, if_neg fun h => hview h.2.1]
      rfl

theorem place_of_candidate? {guess : Displacement} {heading : Binary32} {c : Grid.Cell Int16}
    {found : Candidate} (h : candidate? guess heading c = some found) :
    found.emitter = c.emitter ∧ found.sensor = c.sensor := by
  rw [candidate?_eq] at h
  obtain ⟨_, -, rfl⟩ := Option.map_eq_some_iff.mp h
  exact ⟨rfl, rfl⟩

section
variable (m : Brightness) (guess : Displacement) (heading : Binary32)

/-- there is room for a candidate of every cell -/
theorem candidates_eq :
    candidates m guess heading = m.cells.filterMap (candidate? guess heading) := by
  have hlen : m.cells.length = capacity := Grid.length_cells m
  unfold candidates
  apply List.take_of_length_le
  rw [← hlen]
  exact List.length_filterMap_le _ _

/-- a candidate in the list is that of the cell whose place it names -/
theorem candidate?_of_mem {c : Candidate} (hc : c ∈ candidates m guess heading) :
    candidate? guess heading ⟨c.emitter, c.sensor, m.get c.emitter c.sensor⟩ = some c := by
  rw [candidates_eq] at hc
  obtain ⟨cell, hcell, hfound⟩ := List.mem_filterMap.mp hc
  obtain ⟨⟨e, s⟩, -, rfl⟩ := List.mem_map.mp hcell
  obtain ⟨he, hs⟩ := place_of_candidate? hfound
  rw [he, hs]
  exact hfound

theorem mem_of_candidate? {e s : Direction} {c : Candidate}
    (h : candidate? guess heading ⟨e, s, m.get e s⟩ = some c) : c ∈ candidates m guess heading := by
  rw [candidates_eq]
  exact List.mem_filterMap.mpr ⟨_, List.mem_map.mpr ⟨(e, s), Grid.mem_pairs e s, rfl⟩, h⟩

theorem find?_candidates (e s : Direction) :
    (candidates m guess heading).find? (fun c => decide (c.emitter = e ∧ c.sensor = s)) =
      candidate? guess heading ⟨e, s, m.get e s⟩ := by
  cases hfind : (candidates m guess heading).find?
      (fun c => decide (c.emitter = e ∧ c.sensor = s)) with
  | none =>
    cases hown : candidate? guess heading ⟨e, s, m.get e s⟩ with
    | none => rfl
    | some c =>
      have hplace : c.emitter = e ∧ c.sensor = s := place_of_candidate? hown
      have hmissed := List.find?_eq_none.mp hfind c (mem_of_candidate? m guess heading hown)
      exact absurd (decide_eq_true hplace) hmissed
  | some c =>
    have hplace := List.find?_some hfind
    obtain ⟨rfl, rfl⟩ : c.emitter = e ∧ c.sensor = s := of_decide_eq_true hplace
    exact (candidate?_of_mem m guess heading (List.mem_of_find?_eq_some hfind)).symm

/-- no cell has two candidates -/
theorem nodup_candidates :
    ((candidates m guess heading).map fun c => (c.emitter, c.sensor)).Nodup := by
  have hplaces : ∀ ps : List (Direction × Direction),
      ((ps.filterMap fun p => candidate? guess heading ⟨p.1, p.2, m.get p.1 p.2⟩).map
        fun c => (c.emitter, c.sensor)).Sublist ps := by
    intro ps
    induction ps with
    | nil => exact .slnil
    | cons p ps ih =>
      rw [List.filterMap_cons]
      cases hfound : candidate? guess heading ⟨p.1, p.2, m.get p.1 p.2⟩ with
      | none => exact ih.cons p
      | some c =>
        have hplace : (c.emitter, c.sensor) = p := Prod.ext (place_of_candidate? hfound).1
          (place_of_candidate? hfound).2
        dsimp only
        rw [List.map_cons, hplace]
        exact ih.cons_cons p
  have hpairs : Grid.pairs.Nodup := by decide
  rw [candidates_eq]
  unfold Grid.cells
  rw [List.filterMap_map]
  exact (hplaces Grid.pairs).nodup hpairs

end

/-! ## the refinement -/

theorem neighbourhood_eq (e s : Direction) : neighbourhood e s = ninePairs e s := by
  revert e s
  decide

theorem nodup_ninePairs (e s : Direction) : (ninePairs e s).Nodup := by
  revert e s
  decide

section
variable (m : Brightness) (seedRange bearing heading weightFloor : Binary32)

/-- a mean over some cells is a sum over those of them that imply a position -/
theorem foldl_add_found (position? : Direction × Direction → Option Displacement)
    (weight : Direction × Direction → Binary32) (ps : List (Direction × Direction)) (mean : Mean) :
    ps.foldl
        (fun mean p => match position? p with
          | some centre => mean.add centre (weight p)
          | none => mean) mean =
      let found := ps.filterMap fun p => (position? p).map fun centre => (centre, weight p)
      ⟨found.foldl (fun sum x => sum + x.1 * x.2) mean.total,
        (found.map (·.2)).foldl (fun sum w => sum + w) mean.weight⟩ := by
  induction ps generalizing mean with
  | nil => rfl
  | cons p ps ih =>
    rw [List.foldl_cons, ih]
    cases hp : position? p with
    | none => simp [hp]
    | some centre => simp [hp, Mean.add]

theorem foldl_add_candidates (guess : Displacement)
    (weight : Direction × Direction → Binary32) (ps : List (Direction × Direction)) (mean : Mean) :
    ps.foldl
        (fun mean p => match (candidates m guess heading).find?
            fun c => decide (c.emitter = p.1 ∧ c.sensor = p.2) with
          | some c => mean.add c.centre (weight p)
          | none => mean) mean =
      let found := ps.filterMap fun p =>
        (positionOf? guess heading p.1 p.2 (m.get p.1 p.2)).map fun centre => (centre, weight p)
      ⟨found.foldl (fun sum x => sum + x.1 * x.2) mean.total,
        (found.map (·.2)).foldl (fun sum w => sum + w) mean.weight⟩ := by
  rw [← foldl_add_found]
  refine List.foldl_ext _ _ _ fun mean p _ => ?_
  rw [find?_candidates, candidate?_eq]
  cases positionOf? guess heading p.1 p.2 (m.get p.1 p.2) with
  | none => rfl
  | some centre => rfl

/-- the detour over the list of candidates makes no difference -/
theorem refine_range :
    (refine m seedRange bearing heading weightFloor).map (·.range) =
      directRange m.brightest.1 m.brightest.2 (fun p => m.get p.1 p.2) seedRange bearing heading
        weightFloor := by
  unfold refine directRange
  extract_lets found cells square energy mean finish weigh guess square' energy' found' weight total
  have hcells : cells = ninePairs m.brightest.1 m.brightest.2 := neighbourhood_eq _ _
  have henergy : energy = energy' := by
    show cells.foldl (fun sum p => sum + square' p) 0 = _
    rw [hcells, ← List.foldl_map]
  have hmean : mean = ⟨total, weight⟩ := by
    have hdirect := foldl_add_candidates m heading guess (fun p => square' p / energy')
      (ninePairs m.brightest.1 m.brightest.2) ⟨.zero, 0⟩
    refine Eq.trans ?_ hdirect
    show cells.foldl (fun (mean : Mean) p => match found.find?
        fun c => decide (c.emitter = p.1 ∧ c.sensor = p.2) with
      | some c => mean.add c.centre (square' p / energy)
      | none => mean) _ = _
    rw [hcells, henergy]
  clear_value energy energy' mean total weight
  subst henergy hmean
  by_cases hfaint : weightFloor < energy
  · rw [if_neg (not_not_intro hfaint), if_neg (not_not_intro hfaint)]
    show Except.map _ (if ¬ weightFloor < weight then _ else _) = _
    by_cases hlight : weightFloor < weight
    · rw [if_neg (not_not_intro hlight), if_neg (not_not_intro hlight)]
      rfl
    · rw [if_pos hlight, if_pos hlight]
      rfl
  · rw [if_pos hfaint, if_pos hfaint]
    rfl

/-- no other reading counts -/
theorem directRange_congr {e s : Direction} {reading reading' : Direction × Direction → Int16}
    (h : ∀ p ∈ ninePairs e s, reading' p = reading p) :
    directRange e s reading' seedRange bearing heading weightFloor =
      directRange e s reading seedRange bearing heading weightFloor := by
  have hsquares : ((ninePairs e s).map fun p =>
        Brightness.number (reading' p) * Brightness.number (reading' p)) =
      (ninePairs e s).map fun p =>
        Brightness.number (reading p) * Brightness.number (reading p) :=
    List.map_congr_left fun p hp => by rw [h p hp]
  have hfound : ∀ energy guess, ((ninePairs e s).filterMap fun p =>
        (positionOf? guess heading p.1 p.2 (reading' p)).map fun centre =>
          (centre, Brightness.number (reading' p) * Brightness.number (reading' p) / energy)) =
      (ninePairs e s).filterMap fun p =>
        (positionOf? guess heading p.1 p.2 (reading p)).map fun centre =>
          (centre, Brightness.number (reading p) * Brightness.number (reading p) / energy) :=
    fun energy guess => List.filterMap_congr fun p hp => by rw [h p hp]
  unfold directRange
  simp only [hsquares, hfound]

/-- the refinement of the range as a matter of nine cells -/
structure NineCells : Prop where
  /-- it gives what the nine readings give without a list of candidates, failures included -/
  direct : (refine m seedRange bearing heading weightFloor).map (·.range) =
    directRange m.brightest.1 m.brightest.2 (fun p => m.get p.1 p.2) seedRange bearing heading
      weightFloor
  /-- every cell that implies a position is in the list of candidates -/
  kept : candidates m (.polar seedRange bearing) heading =
    m.cells.filterMap (candidate? (.polar seedRange bearing) heading)
  /-- at most once -/
  once :
    ((candidates m (.polar seedRange bearing) heading).map fun c => (c.emitter, c.sensor)).Nodup
  /-- and what is found under a cell's place is what this cell's reading implies -/
  own : ∀ e s, ((candidates m (.polar seedRange bearing) heading).find?
      fun c => decide (c.emitter = e ∧ c.sensor = s)).map (·.centre) =
    positionOf? (.polar seedRange bearing) heading e s (m.get e s)
  /-- the nine cells are nine -/
  distinct : (ninePairs m.brightest.1 m.brightest.2).Nodup
  /-- the other readings do not matter -/
  elsewhere : ∀ m' : Brightness, m'.brightest = m.brightest →
    (∀ p ∈ ninePairs m.brightest.1 m.brightest.2, m'.get p.1 p.2 = m.get p.1 p.2) →
    (refine m' seedRange bearing heading weightFloor).map (·.range) =
      (refine m seedRange bearing heading weightFloor).map (·.range)

theorem refine_nineCells : NineCells m seedRange bearing heading weightFloor where
  direct := refine_range m seedRange bearing heading weightFloor
  kept := candidates_eq m (.polar seedRange bearing) heading
  once := nodup_candidates m (.polar seedRange bearing) heading
  own e s := by
    rw [find?_candidates, candidate?_eq, Option.map_map]
    exact Option.map_id'
  distinct := nodup_ninePairs m.brightest.1 m.brightest.2
  elsewhere m' hbrightest hnine := by
    rw [refine_range, refine_range, hbrightest]
    exact directRange_congr seedRange bearing heading weightFloor hnine

end

/-- two lit cells next to each other -/
def twoCells : Brightness := ((Grid.const 0).set 0 0 382).set 1 0 24

/-- the same with a stray reading on the far side -/
def twoCellsAndStray : Brightness := Grid.set twoCells 3 3 100

/-- for example, a stray reading makes no difference to a range -/
theorem refine_nineCells_stray : NineCells twoCells 10 0 3 0 ∧
    twoCellsAndStray.get 3 3 ≠ twoCells.get 3 3 ∧
    (refine twoCells 10 0 3 0).toOption.isSome = true ∧
    (refine twoCellsAndStray 10 0 3 0).map (·.range) =
      (refine twoCells 10 0 3 0).map (·.range) := by
  have nine : NineCells twoCells 10 0 3 0 := refine_nineCells twoCells 10 0 3 0
  have hbright : twoCellsAndStray.brightest = twoCells.brightest := by decide +kernel
  have hnear : ∀ p ∈ ninePairs twoCells.brightest.1 twoCells.brightest.2,
      twoCellsAndStray.get p.1 p.2 = twoCells.get p.1 p.2 := by decide +kernel
  have hrange : (refine twoCells 10 0 3 0).toOption.isSome = true := by decide +kernel
  exact ⟨nine, by decide +kernel, hrange, nine.elsewhere twoCellsAndStray hbright hnear⟩

end Estimation

end RangeBearing
