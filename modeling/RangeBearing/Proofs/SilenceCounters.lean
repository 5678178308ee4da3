import Mathlib.Data.Nat.Bitwise
import RangeBearing.SensorHealth

/-!
# Six counters in one word

The word of `SensorHealth` is written to base sixteen, and the counter of a sensor is its digit.  A
digit that is counted up stays below sixteen, and is cleared when it reaches the limit, so no
digit ever carries into the next one.

* `SensorMask.mem_or_bit`, `SensorMask.mem_ofPred`      masks as sets;
* `SensorHealth.silence_count`, `SensorHealth.silence_clear`   one counter changes, no other does;
* `SensorHealth.Sound`          every counter lies below the limit, and the bits above are clear;
* `trailing`                    the newest entries in a row with a property; `SensorHealth.bump` keeps
  its length modulo fifteen;
* `SensorHealth.recorded_record`    what recording the sensors of a cycle makes of them;
* `SensorHealth.sweep_silence`, `SensorHealth.sweep_faulted`   a cycle counts each sensor alone.
-/

namespace RangeBearing

/-! ## masks -/

namespace SensorMask

theorem toNat_bit (s : Direction) : (bit s).toNat = 2 ^ s.val := by
  revert s
  decide

theorem mem_eq_testBit (mask : SensorMask) (s : Direction) :
    mask.mem s = mask.toNat.testBit s.val := by
  have hand : (mask &&& bit s).toNat = (mask.toNat.testBit s.val).toNat * 2 ^ s.val := by
    rw [UInt8.toNat_and, toNat_bit, Nat.and_two_pow]
  unfold mem
  cases htest : mask.toNat.testBit s.val with
  | true =>
    have hne : mask &&& bit s ≠ 0 := by
      intro hzero
      rw [hzero, htest] at hand
      have hpos := Nat.two_pow_pos s.val
      simp at hand
      omega
    simp [hne]
  | false =>
    rw [htest] at hand
    have hzero : mask &&& bit s = 0 := by
      apply UInt8.toNat_inj.mp
      simpa using hand
    simp [hzero]

theorem mem_zero (s : Direction) : mem 0 s = false := by
  rw [mem_eq_testBit]
  exact Nat.zero_testBit _

theorem mem_or_bit (mask : SensorMask) (s t : Direction) :
    (mask ||| bit s).mem t = (mask.mem t || decide (s = t)) := by
  rw [mem_eq_testBit, mem_eq_testBit, UInt8.toNat_or, toNat_bit, Nat.testBit_or,
    Nat.testBit_two_pow]
  simp [Fin.ext_iff]

/-- the mask of a property holds the sensors that have it -/
theorem mem_ofPred (p : Direction → Bool) (t : Direction) : (ofPred p).mem t = p t := by
  have hfold : ∀ (ds : List Direction) (mask : SensorMask),
      (ds.foldl (fun mask s => if p s then mask ||| bit s else mask) mask).mem t =
        (mask.mem t || (decide (t ∈ ds) && p t)) := by
    intro ds
    induction ds with
    | nil => simp
    | cons s ds ih =>
      intro mask
      rw [List.foldl_cons, ih]
      by_cases hs : p s = true
      · rw [if_pos hs, mem_or_bit]
        by_cases hst : s = t
        · subst hst
          simp [hs]
        · simp [hst, Ne.symm hst]
      · rw [if_neg hs]
        by_cases hst : s = t
        · subst hst
          simp [hs]
        · simp [Ne.symm hst]
  unfold ofPred
  rw [hfold, mem_zero]
  simp [Direction.mem_all]

end SensorMask

/-! ## runs -/

/-- how many of the newest entries in a row have a property -/
def trailing {α : Type} (p : α → Bool) (l : List α) : Nat := (l.reverse.takeWhile p).length

theorem trailing_concat {α : Type} (p : α → Bool) (l : List α) (a : α) :
    trailing p (l ++ [a]) = if p a then trailing p l + 1 else 0 := by
  unfold trailing
  rw [List.reverse_append, List.reverse_singleton, List.singleton_append, List.takeWhile_cons]
  split
  · rw [List.length_cons]
  · rfl

/-! ## digits -/

/-- nothing is carried when a digit below fifteen is counted up -/
theorem add_digit_div (n : Nat) {s t : Nat} (h : n / 16 ^ s % 16 < 15) (hst : s < t) :
    (n + 16 ^ s) / 16 ^ t = n / 16 ^ t := by
  have hpow : 16 ^ t = 16 ^ s * (16 * 16 ^ (t - s - 1)) := by
    rw [← Nat.pow_succ', ← Nat.pow_add]
    congr 1
    omega
  have hsucc : (n + 16 ^ s) / 16 ^ s = n / 16 ^ s + 1 :=
    Nat.add_div_right n (Nat.pow_pos (by decide))
  have habove : (n / 16 ^ s + 1) / 16 = n / 16 ^ s / 16 := by omega
  rw [hpow, ← Nat.div_div_eq_div_mul, ← Nat.div_div_eq_div_mul, hsucc, habove,
    Nat.div_div_eq_div_mul, Nat.div_div_eq_div_mul]

/-- counting a digit below fifteen up changes no other digit -/
theorem add_digit (n : Nat) {s t : Nat} (h : n / 16 ^ s % 16 < 15) :
    (n + 16 ^ s) / 16 ^ t % 16 = if s = t then n / 16 ^ s % 16 + 1 else n / 16 ^ t % 16 := by
  rcases Nat.lt_trichotomy s t with hlt | rfl | hlt
  · rw [if_neg (Nat.ne_of_lt hlt), add_digit_div n h hlt]
  · rw [if_pos rfl, Nat.add_div_right n (Nat.pow_pos (by decide))]
    omega
  · -- to the digits below a multiple of sixteen is added
    have hpow : 16 ^ s = 16 ^ t * (16 * 16 ^ (s - t - 1)) := by
      rw [← Nat.pow_succ', ← Nat.pow_add]
      congr 1
      omega
    rw [if_neg (Nat.ne_of_gt hlt), hpow, Nat.add_mul_div_left _ _ (Nat.pow_pos (by decide)),
      Nat.add_mul_mod_self_left]

theorem testBit_digit (n t i : Nat) :
    (n / 16 ^ t % 16).testBit i = (decide (i < 4) && n.testBit (4 * t + i)) := by
  have hpow : 16 ^ t = 2 ^ (4 * t) := by
    rw [Nat.pow_mul]
  have hmod : n / 2 ^ (4 * t) % 16 = n / 2 ^ (4 * t) % 2 ^ 4 := rfl
  rw [hpow, hmod, Nat.testBit_mod_two_pow, Nat.testBit_div_two_pow, Nat.add_comm i]

namespace SensorHealth

/-! ## one counter -/

variable {h : SensorHealth} {s t : Direction}

theorem toNat_shift (s : Direction) : (shift s).toNat = 4 * s.val := by
  revert s
  decide

theorem silence_toNat (h : SensorHealth) (s : Direction) :
    (h.silence s).toNat = h.counters.toNat / 16 ^ s.val % 16 := by
  have hs := s.lt
  have hshift : 4 * s.val % 32 = 4 * s.val := Nat.mod_eq_of_lt (by omega)
  have hpow : 2 ^ (4 * s.val) = 16 ^ s.val := by
    rw [Nat.pow_mul]
  have hmask : ∀ n : Nat, n &&& 15 = n % 16 := fun n => Nat.and_two_pow_sub_one_eq_mod n 4
  unfold silence
  rw [UInt32.toNat_toUInt8, UInt32.toNat_and, UInt32.toNat_shiftRight, toNat_shift, hshift,
    Nat.shiftRight_eq_div_pow, hpow]
  show (_ &&& 15) % 256 = _
  rw [hmask]
  omega

theorem counters_count (hs : (h.silence s).toNat < 15) :
    (h.count s).counters.toNat = h.counters.toNat + 16 ^ s.val := by
  rw [silence_toNat] at hs
  have hone : ∀ s, ((1 : UInt32) <<< shift s).toNat = 16 ^ s.val := by decide
  -- the word has eight digits, and none is carried out of it
  have hword : h.counters.toNat < 16 ^ 8 := h.counters.toNat_lt
  have hlast := add_digit_div h.counters.toNat hs (t := 8) (by omega)
  rw [Nat.div_eq_of_lt hword, Nat.div_eq_zero_iff] at hlast
  unfold count
  rw [UInt32.toNat_add, hone]
  exact Nat.mod_eq_of_lt (hlast.resolve_left (by decide))

theorem silence_count (hs : (h.silence s).toNat < 15) :
    ((h.count s).silence t).toNat =
      if s = t then (h.silence s).toNat + 1 else (h.silence t).toNat := by
  have hdigit := hs
  rw [silence_toNat] at hdigit
  rw [silence_toNat, counters_count hs, add_digit _ hdigit, silence_toNat, silence_toNat]
  simp only [Fin.ext_iff]

theorem testBit_clear (h : SensorHealth) (s : Direction) (i : Nat) :
    (h.clear s).counters.toNat.testBit i =
      (h.counters.toNat.testBit i && !(decide (4 * s.val ≤ i) && decide (i < 4 * s.val + 4))) := by
  have hdigit : ((0xf : UInt32) <<< shift s).toNat = (2 ^ 4 - 1) <<< (4 * s.val) := by
    revert s
    decide
  have hbit : ((0xf : UInt32) <<< shift s).toNat.testBit i =
      (decide (4 * s.val ≤ i) && decide (i < 4 * s.val + 4)) := by
    rw [hdigit, Nat.testBit_shiftLeft, Nat.testBit_two_pow_sub_one]
    by_cases hle : 4 * s.val ≤ i
    · simp [hle]
      omega
    · simp [hle]
  have hnot : (~~~((0xf : UInt32) <<< shift s)).toNat =
      2 ^ 32 - (((0xf : UInt32) <<< shift s).toNat + 1) := by
    rw [UInt32.toNat_not, Nat.sub_sub, Nat.add_comm 1]
    rfl
  unfold clear
  rw [UInt32.toNat_and, Nat.testBit_and, hnot,
    Nat.testBit_two_pow_sub_succ (UInt32.toNat_lt _), hbit]
  -- there are no bits above the word
  by_cases hi : i < 32
  · simp [hi]
  · have hnone : h.counters.toNat.testBit i = false := by
      apply Nat.testBit_lt_two_pow
      exact Nat.lt_of_lt_of_le h.counters.toNat_lt (Nat.pow_le_pow_right (by decide) (by omega))
    simp [hnone]

theorem silence_clear (h : SensorHealth) (s t : Direction) :
    ((h.clear s).silence t).toNat = if s = t then 0 else (h.silence t).toNat := by
  rw [silence_toNat, silence_toNat]
  apply Nat.eq_of_testBit_eq
  intro i
  rw [testBit_digit, testBit_clear]
  by_cases hi : i < 4
  · by_cases hst : s = t
    · subst hst
      simp [hi]
    · have hne : s.val ≠ t.val := fun h => hst (Fin.ext h)
      have hout : (decide (4 * s.val ≤ 4 * t.val + i) &&
          decide (4 * t.val + i < 4 * s.val + 4)) = false := by
        rw [Bool.and_eq_false_iff, decide_eq_false_iff_not, decide_eq_false_iff_not]
        omega
      rw [hout, if_neg hst, testBit_digit]
      simp
  · split
    · simp [hi]
    · rw [testBit_digit]
      simp [hi]

/-! ## one cycle -/

/-- the count of silent cycles after one more cycle; the fifteenth starts over -/
def bump (silent : Bool) (n : Nat) : Nat := if silent then (n + 1) % 15 else 0

theorem bump_trailing {α : Type} (p : α → Bool) (l : List α) (a : α) :
    bump (p a) (trailing p l % 15) = trailing p (l ++ [a]) % 15 := by
  rw [trailing_concat]
  unfold bump
  split
  · omega
  · rfl

/-- the row has just grown by fifteen when the count before was fourteen -/
theorem trailing_limit_iff {α : Type} (p : α → Bool) (l : List α) (a : α) :
    (p a = true ∧ trailing p l % 15 = 14) ↔
      0 < trailing p (l ++ [a]) ∧ trailing p (l ++ [a]) % 15 = 0 := by
  rw [trailing_concat]
  split
  case isTrue hp =>
    simp only [hp, true_and]
    omega
  case isFalse hp => simp [hp]

/-- every counter lies below the limit, and there is nothing above the counters -/
structure Sound (h : SensorHealth) : Prop where
  counters : h.counters.toNat < 16 ^ 6
  silence : ∀ s, (h.silence s).toNat < 15

theorem sound_new : new.Sound where
  counters := by decide
  silence := by decide

theorem counters_clear_le (h : SensorHealth) (s : Direction) :
    (h.clear s).counters.toNat ≤ h.counters.toNat := by
  unfold clear
  rw [UInt32.toNat_and]
  exact Nat.and_le_left

theorem Sound.clear (sound : h.Sound) (s : Direction) : (h.clear s).Sound where
  counters := Nat.lt_of_le_of_lt (counters_clear_le h s) sound.counters
  silence t := by
    rw [silence_clear]
    split
    · decide
    · exact sound.silence t

theorem counters_count_lt (sound : h.Sound) (s : Direction) :
    (h.count s).counters.toNat < 16 ^ 6 := by
  have hs := sound.silence s
  have hlast := add_digit_div h.counters.toNat (silence_toNat h s ▸ hs) s.lt
  rw [Nat.div_eq_of_lt sound.counters, Nat.div_eq_zero_iff] at hlast
  rw [counters_count hs]
  exact hlast.resolve_left (by decide)

theorem limit_le_iff (n : UInt8) : silenceLimit ≤ n ↔ 15 ≤ n.toNat := UInt8.le_iff_toNat_le

theorem recordSensor_of_reading (h : SensorHealth) (s : Direction) :
    h.recordSensor s false = (h.clear s, false) := by
  unfold recordSensor
  rw [if_neg Bool.false_ne_true, if_neg]
  rw [limit_le_iff, silence_clear, if_pos rfl]
  decide

theorem recordSensor_of_silent (sound : h.Sound) (s : Direction) :
    h.recordSensor s true =
      if (h.silence s).toNat = 14 then ((h.count s).clear s, true) else (h.count s, false) := by
  have hs := sound.silence s
  unfold recordSensor
  rw [if_pos rfl]
  simp only [limit_le_iff, silence_count hs, if_true]
  by_cases hfull : (h.silence s).toNat = 14
  · rw [if_pos (by omega), if_pos hfull]
  · rw [if_neg (by omega), if_neg hfull]

/-- the counter of one sensor is counted up or cleared, and no other counter changes -/
theorem recordSensor_silence (sound : h.Sound) (s t : Direction) (silent : Bool) :
    ((h.recordSensor s silent).1.silence t).toNat =
      if s = t then bump silent (h.silence s).toNat else (h.silence t).toNat := by
  have hs := sound.silence s
  cases silent with
  | false =>
    rw [recordSensor_of_reading]
    exact silence_clear h s t
  | true =>
    rw [recordSensor_of_silent sound]
    have hcount := silence_count (t := t) hs
    by_cases hfull : (h.silence s).toNat = 14
    · rw [if_pos hfull, silence_clear, hcount, hfull]
      split
      · rfl
      · rfl
    · have hmod : bump true (h.silence s).toNat = (h.silence s).toNat + 1 :=
        Nat.mod_eq_of_lt (by omega)
      rw [if_neg hfull, hcount, hmod]

theorem recordSensor_full (sound : h.Sound) (s : Direction) (silent : Bool) :
    (h.recordSensor s silent).2 = (silent && decide ((h.silence s).toNat = 14)) := by
  cases silent with
  | false => rw [recordSensor_of_reading, Bool.false_and]
  | true =>
    rw [recordSensor_of_silent sound]
    by_cases hfull : (h.silence s).toNat = 14
    · simp [hfull]
    · simp [hfull]

theorem Sound.recordSensor (sound : h.Sound) (s : Direction) (silent : Bool) :
    (h.recordSensor s silent).1.Sound where
  counters := by
    cases silent with
    | false =>
      rw [recordSensor_of_reading]
      exact (sound.clear s).counters
    | true =>
      have hcount := counters_count_lt sound s
      rw [recordSensor_of_silent sound]
      split
      · exact Nat.lt_of_le_of_lt (counters_clear_le _ s) hcount
      · exact hcount
  silence t := by
    rw [recordSensor_silence sound]
    split
    · unfold bump
      split
      · exact Nat.mod_lt _ (by decide)
      · decide
    · exact sound.silence t

/-- one step of `record` -/
def recordStep (silent : SensorMask) (acc : SensorHealth × SensorMask) (s : Direction) :
    SensorHealth × SensorMask :=
  let (h, full) := acc.1.recordSensor s (silent.mem s)
  (h, if full then acc.2 ||| SensorMask.bit s else acc.2)

theorem recordStep_eq (silent : SensorMask) (h : SensorHealth) (faulted : SensorMask)
    (s : Direction) : recordStep silent (h, faulted) s =
      ((h.recordSensor s (silent.mem s)).1,
        if (h.recordSensor s (silent.mem s)).2 then faulted ||| SensorMask.bit s else faulted) := rfl

theorem record_eq (h : SensorHealth) (silent : SensorMask) :
    h.record silent = Direction.all.foldl (recordStep silent) (h, 0) := rfl

/-- what recording some sensors makes of the counters and of the sensors at the limit -/
structure Recorded (silent : SensorMask) (ds : List Direction) (h : SensorHealth)
    (faulted : SensorMask) (after : SensorHealth × SensorMask) : Prop where
  sound : after.1.Sound
  counts : ∀ t ∈ ds, (after.1.silence t).toNat = bump (silent.mem t) (h.silence t).toNat ∧
    SensorMask.mem after.2 t =
      (faulted.mem t || (silent.mem t && decide ((h.silence t).toNat = 14)))
  keeps : ∀ t, t ∉ ds → (after.1.silence t).toNat = (h.silence t).toNat ∧
    SensorMask.mem after.2 t = faulted.mem t

theorem recorded_nil (silent : SensorMask) (sound : h.Sound) (faulted : SensorMask) :
    Recorded silent [] h faulted (h, faulted) where
  sound := sound
  counts _ ht := absurd ht List.not_mem_nil
  keeps _ _ := ⟨rfl, rfl⟩

theorem recorded_singleton (silent : SensorMask) (sound : h.Sound) (faulted : SensorMask)
    (s : Direction) : Recorded silent [s] h faulted (recordStep silent (h, faulted) s) where
  sound := sound.recordSensor s _
  counts t ht := by
    obtain rfl := List.mem_singleton.mp ht
    rw [recordStep_eq, recordSensor_silence sound, if_pos rfl, recordSensor_full sound]
    refine ⟨rfl, ?_⟩
    split
    case isTrue hfull =>
      rw [hfull, SensorMask.mem_or_bit]
      simp
    case isFalse hfull => simp [hfull]
  keeps t ht := by
    have hst : ¬ s = t := fun h => ht (List.mem_singleton.mpr h.symm)
    rw [recordStep_eq, recordSensor_silence sound, if_neg hst]
    refine ⟨rfl, ?_⟩
    split
    · rw [SensorMask.mem_or_bit]
      simp [hst]
    · rfl

/-- the sensors are recorded one after another, each once -/
theorem recorded_foldl (silent : SensorMask) {ds : List Direction} (hds : ds.Nodup)
    (sound : h.Sound) (faulted : SensorMask) :
    Recorded silent ds h faulted (ds.foldl (recordStep silent) (h, faulted)) := by
  induction ds generalizing h faulted with
  | nil => exact recorded_nil silent sound faulted
  | cons s ds ih =>
    obtain ⟨hnew, hrest⟩ := List.nodup_cons.mp hds
    have first := recorded_singleton silent sound faulted s
    have rest := ih hrest first.sound (recordStep silent (h, faulted) s).2
    rw [List.foldl_cons]
    refine ⟨rest.sound, fun t ht => ?_, fun t ht => ?_⟩
    · rcases List.mem_cons.mp ht with rfl | hlater
      · obtain ⟨hsilence, hmem⟩ := first.counts t List.mem_cons_self
        rw [← hsilence, ← hmem]
        exact rest.keeps t hnew
      · have hts : t ∉ [s] := by
          intro hts
          obtain rfl := List.mem_singleton.mp hts
          exact hnew hlater
        obtain ⟨hsilence, hmem⟩ := first.keeps t hts
        rw [← hsilence, ← hmem]
        exact rest.counts t hlater
    · obtain ⟨hts, hlater⟩ := not_or.mp (mt List.mem_cons.mpr ht)
      obtain ⟨hsilence, hmem⟩ := first.keeps t (mt List.mem_singleton.mp hts)
      rw [← hsilence, ← hmem]
      exact rest.keeps t hlater

theorem recorded_record (silent : SensorMask) (sound : h.Sound) :
    Recorded silent Direction.all h 0 (h.record silent) := by
  rw [record_eq]
  exact recorded_foldl silent Direction.nodup_all sound 0

theorem fst_sweep (h : SensorHealth) (m : Brightness) :
    (h.sweep m).1 = (h.record (.ofPred m.isSilent)).1 := by
  simp only [sweep]

theorem faulted_sweep (h : SensorHealth) (m : Brightness) :
    (h.sweep m).2.faulted = (h.record (.ofPred m.isSilent)).2 := by
  simp only [sweep]

theorem Sound.sweep (sound : h.Sound) (m : Brightness) : (h.sweep m).1.Sound := by
  rw [fst_sweep]
  exact (recorded_record _ sound).sound

/-- a cycle counts each sensor on its own -/
theorem sweep_silence (sound : h.Sound) (m : Brightness) (s : Direction) :
    ((h.sweep m).1.silence s).toNat = bump (m.isSilent s) (h.silence s).toNat := by
  have hcount := ((recorded_record (.ofPred m.isSilent) sound).counts s (Direction.mem_all s)).1
  rw [fst_sweep, hcount, SensorMask.mem_ofPred]

/-- a sensor has just reached the limit when this is its fifteenth silent cycle -/
theorem sweep_faulted (sound : h.Sound) (m : Brightness) (s : Direction) :
    (h.sweep m).2.faulted.mem s = (m.isSilent s && decide ((h.silence s).toNat = 14)) := by
  have hfull := ((recorded_record (.ofPred m.isSilent) sound).counts s (Direction.mem_all s)).2
  rw [faulted_sweep, hfull, SensorMask.mem_zero, SensorMask.mem_ofPred, Bool.false_or]

end SensorHealth

end RangeBearing
