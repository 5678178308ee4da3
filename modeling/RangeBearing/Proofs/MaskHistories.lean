import Mathlib.Algebra.Order.Ring.Int
import RangeBearing.Proofs.SilentSensors

/-!
# The counters over a list of cycles

The counters share a word, and yet each of them counts as if it were alone: whatever masks are
recorded one after another, the counter of a sensor is the number of the newest masks in a row
that hold it, modulo fifteen, and it is reported when that number has grown by fifteen.

* `SensorHealth.recordAll`, `SensorHealth.sweepAll`   masks, or matrices, one after another;
* `SensorHealth.Alone`         an addition that changes the digit of one sensor and nothing else;
* `SensorHealth.Counted`       what a list of cycles makes of the word and of the last report;
* `Brightness.Swept`           what is said of a single matrix;
* `SensorHealth.six_counters`  every list of masks and every list of matrices.
-/

namespace RangeBearing

/-! ## the report of a record -/

namespace SensorHealth

theorem testBit_or_bit (mask : SensorMask) (s : Direction) {i : Nat} (hi : 6 ≤ i) :
    (mask ||| SensorMask.bit s).toNat.testBit i = mask.toNat.testBit i := by
  have hne : ¬ s.val = i := by
    have hs := s.lt
    omega
  rw [UInt8.toNat_or, SensorMask.toNat_bit, Nat.testBit_or, Nat.testBit_two_pow,
    decide_eq_false hne, Bool.or_false]

/-- only the bits of the sensors are ever set in a report -/
theorem testBit_recordSteps (silent : SensorMask) (ds : List Direction)
    (acc : SensorHealth × SensorMask) {i : Nat} (hi : 6 ≤ i) :
    (ds.foldl (recordStep silent) acc).2.toNat.testBit i = acc.2.toNat.testBit i := by
  induction ds generalizing acc with
  | nil => rfl
  | cons s ds ih =>
    obtain ⟨h, faulted⟩ := acc
    rw [List.foldl_cons, ih, recordStep_eq]
    split
    · exact testBit_or_bit faulted s hi
    · rfl

theorem testBit_record (h : SensorHealth) (silent : SensorMask) {i : Nat} (hi : 6 ≤ i) :
    (h.record silent).2.toNat.testBit i = false := by
  rw [record_eq, testBit_recordSteps silent Direction.all (h, 0) hi]
  exact Nat.zero_testBit i

/-! ## masks, one after another -/

/-- the counters after some masks, and the report of the last of them -/
def recordAll (masks : List SensorMask) : SensorHealth × SensorMask :=
  masks.foldl (fun after mask => after.1.record mask) (new, 0)

theorem recordAll_nil : recordAll [] = (new, 0) := rfl

theorem recordAll_concat (masks : List SensorMask) (mask : SensorMask) :
    recordAll (masks ++ [mask]) = (recordAll masks).1.record mask := by
  unfold recordAll
  rw [List.foldl_append, List.foldl_cons, List.foldl_nil]

/-- how many of the newest masks in a row hold a sensor -/
def maskRun (masks : List SensorMask) (s : Direction) : Nat :=
  trailing (fun mask => mask.toNat.testBit s.val) masks

theorem bump_maskRun (masks : List SensorMask) (mask : SensorMask) (s : Direction) :
    bump (mask.mem s) (maskRun masks s % 15) = maskRun (masks ++ [mask]) s % 15 := by
  rw [SensorMask.mem_eq_testBit]
  exact bump_trailing (fun mask : SensorMask => mask.toNat.testBit s.val) masks mask

theorem maskRun_limit_iff (masks : List SensorMask) (mask : SensorMask) (s : Direction) :
    (mask.mem s = true ∧ maskRun masks s % 15 = 14) ↔
      0 < maskRun (masks ++ [mask]) s ∧ maskRun (masks ++ [mask]) s % 15 = 0 := by
  rw [SensorMask.mem_eq_testBit]
  exact trailing_limit_iff (fun mask : SensorMask => mask.toNat.testBit s.val) masks mask

/-- the counter of a sensor is counted up in the word without a carry: the word grows by one unit
of its place, and no other digit changes -/
structure Alone (h : SensorHealth) (s : Direction) : Prop where
  word : (h.count s).counters.toNat = h.counters.toNat + 16 ^ s.val
  fits : (h.count s).counters.toNat < 2 ^ 24
  digit : ((h.count s).silence s).toNat = (h.silence s).toNat + 1
  others : ∀ t, t ≠ s → ((h.count s).silence t).toNat = (h.silence t).toNat

theorem Sound.alone {h : SensorHealth} (sound : h.Sound) (s : Direction) : Alone h s where
  word := counters_count (sound.silence s)
  fits := counters_count_lt sound s
  digit := by
    rw [silence_count (sound.silence s), if_pos rfl]
  others t ht := by
    rw [silence_count (sound.silence s), if_neg (Ne.symm ht)]

/-- what a list of cycles makes of the counters, when `run s` of the newest ones in a row were
silent for a sensor `s`, and of the report of the last cycle -/
structure Counted (run : Direction → Nat) (h : SensorHealth) (faulted : SensorMask) : Prop where
  silence : ∀ s, (h.silence s).toNat = run s % 15
  reported : ∀ s : Direction, faulted.toNat.testBit s.val = true ↔ 0 < run s ∧ run s % 15 = 0
  sensors : ∀ i, 6 ≤ i → faulted.toNat.testBit i = false
  digits : ∀ i, h.counters.toNat / 16 ^ i % 16 ≤ 14
  word : h.counters.toNat < 2 ^ 24
  /-- the next mask is recorded sensor by sensor, and no addition on the way carries -/
  additions : ∀ mask before s after, Direction.all = before ++ s :: after →
    Alone (before.foldl (recordStep mask) (h, 0)).1 s

theorem Sound.digit_le {h : SensorHealth} (sound : h.Sound) (i : Nat) :
    h.counters.toNat / 16 ^ i % 16 ≤ 14 := by
  by_cases hi : i < 6
  · have hs := sound.silence ⟨i, hi⟩
    rw [silence_toNat] at hs
    exact Nat.le_of_lt_succ hs
  · -- there is nothing above the six digits
    have hle : 16 ^ 6 ≤ 16 ^ i := Nat.pow_le_pow_right (by decide) (Nat.le_of_not_lt hi)
    rw [Nat.div_eq_of_lt (Nat.lt_of_lt_of_le sound.counters hle)]
    exact Nat.zero_le _

theorem Sound.additions {h : SensorHealth} (sound : h.Sound) (mask : SensorMask)
    {before after : List Direction} {s : Direction} (hall : Direction.all = before ++ s :: after) :
    Alone (before.foldl (recordStep mask) (h, 0)).1 s := by
  have hnodup := Direction.nodup_all
  rw [hall] at hnodup
  have hbefore : before.Nodup := (List.nodup_append.mp hnodup).1
  exact (recorded_foldl mask hbefore sound 0).sound.alone s

theorem recordAll_sound (masks : List SensorMask) : (recordAll masks).1.Sound := by
  induction masks using List.reverseRecOn with
  | nil => exact sound_new
  | append_singleton masks mask ih =>
    rw [recordAll_concat]
    exact (recorded_record mask ih).sound

theorem recordAll_silence (masks : List SensorMask) (s : Direction) :
    ((recordAll masks).1.silence s).toNat = maskRun masks s % 15 := by
  induction masks using List.reverseRecOn with
  | nil =>
    revert s
    decide
  | append_singleton masks mask ih =>
    have recorded := recorded_record mask (recordAll_sound masks)
    rw [recordAll_concat, (recorded.counts s (Direction.mem_all s)).1, ih, bump_maskRun]

theorem recordAll_reported (masks : List SensorMask) (s : Direction) :
    (recordAll masks).2.toNat.testBit s.val = true ↔
      0 < maskRun masks s ∧ maskRun masks s % 15 = 0 := by
  rcases List.eq_nil_or_concat masks with rfl | ⟨masks, mask, rfl⟩
  · revert s
    decide
  · have recorded := recorded_record mask (recordAll_sound masks)
    rw [List.concat_eq_append, recordAll_concat, ← SensorMask.mem_eq_testBit,
      (recorded.counts s (Direction.mem_all s)).2, SensorMask.mem_zero, Bool.false_or,
      Bool.and_eq_true, decide_eq_true_iff, recordAll_silence]
    exact maskRun_limit_iff masks mask s

theorem recordAll_sensors (masks : List SensorMask) {i : Nat} (hi : 6 ≤ i) :
    (recordAll masks).2.toNat.testBit i = false := by
  rcases List.eq_nil_or_concat masks with rfl | ⟨masks, mask, rfl⟩
  · exact Nat.zero_testBit i
  · rw [List.concat_eq_append, recordAll_concat]
    exact testBit_record _ mask hi

theorem recordAll_counted (masks : List SensorMask) :
    Counted (maskRun masks) (recordAll masks).1 (recordAll masks).2 where
  silence := recordAll_silence masks
  reported := recordAll_reported masks
  sensors _ := recordAll_sensors masks
  digits := (recordAll_sound masks).digit_le
  word := (recordAll_sound masks).counters
  additions mask _ _ _ := (recordAll_sound masks).additions mask

/-! ## matrices, one after another -/

/-- the counters after some matrices, and the sweep of the last of them -/
def sweepAll (ms : List Brightness) : SensorHealth × Sweep :=
  ms.foldl (fun after m => after.1.sweep m) (new, ⟨0, 0, 0⟩)

/-- the sensors that read nothing in a matrix -/
def silentMask (m : Brightness) : SensorMask := .ofPred m.isSilent

theorem sweepAll_eq (ms : List Brightness) :
    ((sweepAll ms).1, (sweepAll ms).2.faulted) = recordAll (ms.map silentMask) := by
  induction ms using List.reverseRecOn with
  | nil => rfl
  | append_singleton ms m ih =>
    have hhealth : (sweepAll ms).1 = (recordAll (ms.map silentMask)).1 := by rw [← ih]
    have hsweep : sweepAll (ms ++ [m]) = (sweepAll ms).1.sweep m := by
      unfold sweepAll
      rw [List.foldl_append, List.foldl_cons, List.foldl_nil]
    rw [hsweep, fst_sweep, faulted_sweep, hhealth, List.map_append, List.map_singleton,
      recordAll_concat]
    rfl

theorem maskRun_silentMask (ms : List Brightness) :
    maskRun (ms.map silentMask) = silentRun ms := by
  funext s
  have hmask : (fun m => (silentMask m).toNat.testBit s.val) = fun m => m.isSilent s := by
    funext m
    rw [← SensorMask.mem_eq_testBit]
    exact SensorMask.mem_ofPred m.isSilent s
  rw [silentRun_eq, ← hmask]
  unfold maskRun trailing
  rw [← List.map_reverse, List.takeWhile_map, List.length_map]
  rfl

theorem sweepAll_counted (ms : List Brightness) :
    Counted (silentRun ms) (sweepAll ms).1 (sweepAll ms).2.faulted := by
  have hcounted := recordAll_counted (ms.map silentMask)
  rw [← sweepAll_eq, maskRun_silentMask] at hcounted
  exact hcounted

end SensorHealth

/-! ## one matrix -/

namespace Brightness

/-- the sum of some readings in 32 bits -/
def sumOf (cells : List (Grid.Cell Int16)) : Int32 :=
  cells.foldl (fun sum c => sum + c.value.toInt32) 0

theorem total_eq (m : Brightness) : m.total = sumOf m.cells := rfl

theorem sumOf_concat (cells : List (Grid.Cell Int16)) (c : Grid.Cell Int16) :
    sumOf (cells ++ [c]) = sumOf cells + c.value.toInt32 := by
  unfold sumOf
  rw [List.foldl_append, List.foldl_cons, List.foldl_nil]

/-- thirty-six readings of sixteen bits leave room in thirty-two -/
theorem toInt_sumOf {cells : List (Grid.Cell Int16)} (hlen : cells.length ≤ 36) :
    (sumOf cells).toInt = (cells.map fun c : Grid.Cell Int16 => c.value.toInt).sum ∧
      (cells.map fun c : Grid.Cell Int16 => c.value.toInt).sum.natAbs ≤ cells.length * 2 ^ 15 := by
  induction cells using List.reverseRecOn with
  | nil => exact ⟨rfl, Nat.le_refl 0⟩
  | append_singleton cells c ih =>
    rw [List.length_append, List.length_singleton] at hlen ⊢
    obtain ⟨hsum, hbound⟩ := ih (by omega)
    have hlow := c.value.le_toInt
    have hhigh := c.value.toInt_lt
    rw [sumOf_concat, Int32.toInt_add, Int16.toInt_toInt32, hsum, List.map_append,
      List.map_singleton, List.sum_append, List.sum_singleton]
    constructor
    · exact Int.bmod_eq_of_le (by omega) (by omega)
    · omega

/-- what the sweep of a matrix says about it -/
structure Swept (m : Brightness) (sweep : Sweep) : Prop where
  silent : ∀ s : Direction, sweep.silent.toNat.testBit s.val = true ↔ ∀ e, m.get e s = 0
  energy : sweep.energy.toInt = (m.values.map Int16.toInt).sum
  /-- the sum of the first readings, however many, has not left the 32-bit integers either -/
  partialSums : ∀ n,
    (sumOf (m.cells.take n)).toInt = ((m.values.take n).map Int16.toInt).sum

theorem swept_sweep (h : SensorHealth) (m : Brightness) : Swept m (h.sweep m).2 where
  silent s := by
    have hsilent : (h.sweep m).2.silent = SensorHealth.silentMask m := by
      simp only [SensorHealth.sweep, SensorHealth.silentMask]
    rw [hsilent, ← SensorMask.mem_eq_testBit, SensorHealth.silentMask, SensorMask.mem_ofPred,
      isSilent_eq, decide_eq_true_iff]
  energy := by
    rw [Controller.sweep_energy, total_eq, (toInt_sumOf (Nat.le_of_eq (Grid.length_cells m))).1]
    unfold Grid.values
    rw [List.map_map]
    rfl
  partialSums n := by
    have hlen : (m.cells.take n).length ≤ 36 :=
      Nat.le_trans (List.length_take_le' n m.cells) (Nat.le_of_eq (Grid.length_cells m))
    rw [(toInt_sumOf hlen).1]
    unfold Grid.values
    rw [← List.map_take, List.map_map]
    rfl

end Brightness

namespace SensorHealth

/-- the counters that share a word count each sensor alone, whatever masks or matrices follow one
another -/
theorem six_counters :
    (∀ masks, Counted (maskRun masks) (recordAll masks).1 (recordAll masks).2) ∧
      (∀ ms, Counted (silentRun ms) (sweepAll ms).1 (sweepAll ms).2.faulted) ∧
        ∀ (h : SensorHealth) m, Brightness.Swept m (h.sweep m).2 :=
  ⟨recordAll_counted, sweepAll_counted, Brightness.swept_sweep⟩

end SensorHealth

end RangeBearing
