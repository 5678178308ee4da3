import RangeBearing.Proofs.EndedCycles
import RangeBearing.Proofs.SilenceCounters

/-!
# Every cycle counts its silent sensors once

The health of the sensors is a matter of the matrices of the cycles that have ended, whether an
estimate came out of them or not: the counter of a sensor is the number of the newest ones in a row
in which it read nothing, modulo fifteen, and each time that number has grown by fifteen the sensor
is reported.

* `silentRun`        the newest matrices in a row in which a sensor read nothing;
* `Tally`            what the calls of a history tell about the matrices;
* `SilenceCounted`   what holds of the health after every history;
* `Station.History.silenceCounted`.
-/

namespace RangeBearing

open Controller Program

/-- how many of the newest matrices in a row have nothing but zeros in the column of a sensor -/
def silentRun (ms : List Brightness) (s : Direction) : Nat :=
  (ms.reverse.takeWhile fun m => decide (∀ e, m.get e s = 0)).length

theorem isSilent_eq (m : Brightness) (s : Direction) :
    m.isSilent s = decide (∀ e, m.get e s = 0) := by
  unfold Brightness.isSilent
  rw [Bool.eq_iff_iff, List.all_eq_true, decide_eq_true_iff]
  simp [Direction.mem_all]

theorem silentRun_eq (ms : List Brightness) (s : Direction) :
    silentRun ms s = trailing (fun m => m.isSilent s) ms := by
  unfold silentRun trailing
  simp only [isSilent_eq]

/-- a counter that is kept modulo fifteen keeps up with the run -/
theorem bump_silentRun (ms : List Brightness) (m : Brightness) (s : Direction) :
    SensorHealth.bump (m.isSilent s) (silentRun ms s % 15) = silentRun (ms ++ [m]) s % 15 := by
  rw [silentRun_eq, silentRun_eq]
  exact SensorHealth.bump_trailing (fun m => m.isSilent s) ms m

theorem silent_limit_iff (ms : List Brightness) (m : Brightness) (s : Direction) :
    (m.isSilent s = true ∧ silentRun ms s % 15 = 14) ↔
      0 < silentRun (ms ++ [m]) s ∧ silentRun (ms ++ [m]) s % 15 = 0 := by
  rw [silentRun_eq, silentRun_eq]
  exact SensorHealth.trailing_limit_iff (fun m => m.isSilent s) ms m

namespace Controller

/-- what the calls tell about the matrices -/
structure Tally where
  /-- the robot whose request was accepted last -/
  source : UInt16
  /-- the matrix whose rows were read last -/
  sampled : Brightness
  /-- the matrices of the cycles that have ended, in their order -/
  ended : List Brightness

namespace Tally

def start : Tally := ⟨0, .dark, []⟩

def after (t : Tally) (r : Answered) : Tally :=
  let sampled := sampledAfter t.sampled (readings r.steps)
  { source := r.source?.getD t.source
    sampled
    ended := if r.ended?.isSome then t.ended ++ [sampled] else t.ended }

def of (past : List Answered) : Tally := past.foldl after start

theorem of_concat (past : List Answered) (r : Answered) : of (past ++ [r]) = (of past).after r := by
  unfold of
  rw [List.foldl_append, List.foldl_cons, List.foldl_nil]

end Tally

/-! ## over a history -/

section
variable {c : Config} {st st' : Station} {r : Answered}

/-- the cells that the tally of a history keeps up with -/
structure Tally.Matches (t : Tally) (st : Station) : Prop where
  source : ∀ request, st.slot.request = some request → t.source = request.source
  sampled : t.sampled = st.store.matrix
  sound : st.health.Sound
  counts : ∀ s, (st.health.silence s).toNat = silentRun t.ended s % 15

theorem Tally.matches_start : Tally.start.Matches .new where
  source request hrequest := by cases hrequest
  sampled := rfl
  sound := SensorHealth.sound_new
  counts := by decide

theorem Tally.Matches.getD_source {t : Tally} {request : Request} (ht : t.Matches st)
    (h : r.source? = some request.source ∨ r.source? = none ∧ st.slot.request = some request) :
    r.source?.getD t.source = request.source := by
  rcases h with hsome | ⟨hnone, hrequest⟩
  · rw [hsome, Option.getD_some]
  · rw [hnone, Option.getD_none, ht.source request hrequest]

theorem Answered.Ends.tally {t : Tally} {request : Request} {result : Except Fault Estimate}
    (h : r.Ends c st st' request result) (moves : r.Moves c st st') (ht : t.Matches st) :
    t.after r = ⟨request.source, st'.store.matrix, t.ended ++ [st'.store.matrix]⟩ := by
  unfold Tally.after
  rw [ht.getD_source h.source, h.ended, ht.sampled, ← moves.sampled]
  rfl

theorem Tally.Matches.step {t : Tally} (ht : t.Matches st) (moves : r.Moves c st st')
    (settled : st.Settled) : (t.after r).Matches st' where
  source _ hrequest := ht.getD_source (moves.source hrequest)
  sampled := by
    show sampledAfter t.sampled (readings r.steps) = st'.store.matrix
    rw [ht.sampled, moves.sampled]
  sound := by
    rcases moves.passes_or_ends settled with hpasses | ⟨_, _, hends⟩
    · rw [hpasses.health]
      exact ht.sound
    · rw [hends.health]
      exact ht.sound.sweep _
  counts s := by
    rcases moves.passes_or_ends settled with hpasses | ⟨_, _, hends⟩
    · have hended : (t.after r).ended = t.ended := by
        unfold Tally.after
        rw [hpasses.ended]
        rfl
      rw [hpasses.health, hended]
      exact ht.counts s
    · rw [hends.health, SensorHealth.sweep_silence ht.sound, ht.counts s, bump_silentRun,
        hends.tally moves ht]

/-- on an idle robot any six rows can become the matrix of one more cycle -/
theorem Tally.of_serve (c : Config) (past : List Answered) (idle : st.slot.state = .idle)
    (request : Request) (rows : Table (Row Int16)) :
    ∃ r st', r.Moves c st st' ∧ st'.slot.state = .idle ∧ r.ended?.isSome ∧
      (Tally.of (past ++ [r])).ended = (Tally.of past).ended ++ [⟨rows⟩] := by
  obtain ⟨steps, result, st', hserve, hrows⟩ := serve_reads c request idle rows
  have moves : Answered.Moves ⟨.serve request, steps, result⟩ c st st' := hserve
  rcases serve_performs hserve with ⟨-, m, -, hresult, hst'⟩ | ⟨busy, -⟩
  · rw [verdict_eq] at hresult
    have hended : Answered.ended? ⟨.serve request, steps, result⟩ = some result :=
      if_neg (not_refused_of_eq hresult)
    refine ⟨_, st', moves, by rw [hst']; rfl, by rw [hended]; rfl, ?_⟩
    rw [Tally.of_concat]
    unfold Tally.after
    rw [hended, hrows, sampledAfter_rows _ ⟨rows⟩]
    rfl
  · exact absurd idle busy

/-- the health counts the matrices of the cycles that have ended -/
structure SilenceCounted (c : Config) (past : List Answered) (st : Station) : Prop where
  /-- the counters are those of the newest matrices in a row in which a sensor read nothing -/
  health : ∃ steps h, sensorHealth.Performs st steps h st
  counts : ∀ {steps h st'}, sensorHealth.Performs st steps h st' →
    st' = st ∧ ∀ s, (h.silence s).toNat = silentRun (Tally.of past).ended s % 15
  /-- a sensor is reported once when the row has grown by fifteen, in the call that ends the
  cycle -/
  reported : ∀ {r : Answered} {st'}, r.Moves c st st' → silenced (reports r.steps) =
    if r.ended?.isSome then
      Direction.all.filter fun s =>
        0 < silentRun (Tally.of (past ++ [r])).ended s ∧
          silentRun (Tally.of (past ++ [r])).ended s % 15 = 0
    else []
  /-- a call that ends no cycle changes nothing of it -/
  kept : ∀ {r : Answered} {st'}, r.Moves c st st' → r.ended? = none → st'.health = st.health
  /-- what a cycle gives is a matter of its matrix alone -/
  judged : ∀ {r : Answered} {st' result}, r.Moves c st st' → r.ended? = some result →
    result = Estimate.ofMatrix c (Tally.of (past ++ [r])).source (Tally.of (past ++ [r])).sampled

end
end Controller

namespace Station.History

variable {c : Config} {past : List Answered} {st : Station}

theorem tally (h : History c past st) : (Tally.of past).Matches st := by
  induction h with
  | new => exact Tally.matches_start
  | snoc before moves ih =>
    rw [Tally.of_concat]
    exact ih.step moves before.settled

/-- any number of dark cycles can follow one another -/
theorem darkness (c : Config) (n : Nat) : ∃ past st, History c past st ∧
    st.slot.state = .idle ∧ (Tally.of past).ended = List.replicate n .dark := by
  induction n with
  | zero => exact ⟨[], .new, .new, rfl, rfl⟩
  | succ n ih =>
    obtain ⟨past, st, history, idle, hended⟩ := ih
    obtain ⟨r, st', moves, idle', -, hr⟩ :=
      Tally.of_serve c past idle ⟨7, 1, 5⟩ Brightness.dark.rows
    refine ⟨past ++ [r], st', history.snoc moves, idle', ?_⟩
    rw [hr, hended, List.replicate_succ']

/-- over every history the health counts each matrix that was estimated once -/
theorem silenceCounted (h : History c past st) : SilenceCounted c past st where
  health := ⟨_, _, performs_shared_iff.mpr ⟨rfl, rfl, rfl⟩⟩
  counts performs := by
    obtain ⟨-, rfl, rfl⟩ := performs_shared_iff.mp performs
    exact ⟨rfl, h.tally.counts⟩
  reported {r st'} moves := by
    rcases moves.passes_or_ends h.settled with hpasses | ⟨_, _, hends⟩
    · rw [hpasses.reported, hpasses.ended]
      rfl
    · rw [hends.reported, hends.ended, Tally.of_concat, hends.tally moves h.tally]
      rw [if_pos Option.isSome_some]
      unfold SensorMask.toList
      refine List.filter_congr fun s _ => ?_
      rw [SensorHealth.sweep_faulted h.tally.sound, h.tally.counts s, Bool.eq_iff_iff,
        Bool.and_eq_true, decide_eq_true_iff, decide_eq_true_iff]
      exact silent_limit_iff _ _ s
  kept moves hended := by
    rcases moves.passes_or_ends h.settled with hpasses | ⟨_, _, hends⟩
    · exact hpasses.health
    · rw [hends.ended] at hended
      cases hended
  judged moves hended := by
    rcases moves.passes_or_ends h.settled with hpasses | ⟨_, _, hends⟩
    · rw [hpasses.ended] at hended
      cases hended
    · rw [hends.ended] at hended
      obtain rfl := Option.some.inj hended
      rw [Tally.of_concat, hends.tally moves h.tally]
      exact hends.judged

/-- for example, after fourteen dark cycles the fifteenth reports all six sensors -/
theorem silenceCounted_of_darkness : ∃ (past : List Answered) (r : Answered) (st st' : Station)
    (steps : List Step) (h : SensorHealth),
    History .default past st ∧ SilenceCounted .default past st ∧ r.Moves .default st st' ∧
      silenced (reports r.steps) = Direction.all ∧
      sensorHealth.Performs st steps h st ∧ ∀ s, (h.silence s).toNat = 14 := by
  obtain ⟨past, st, history, idle, hended⟩ := darkness .default 14
  obtain ⟨r, st', moves, -, hcounted, hr⟩ :=
    Tally.of_serve .default past idle ⟨7, 1, 5⟩ Brightness.dark.rows
  have counted := history.silenceCounted
  obtain ⟨steps, h, performs⟩ := counted.health
  refine ⟨past, r, st, st', steps, h, history, counted, moves, ?_, performs, fun s => ?_⟩
  · rw [counted.reported moves, if_pos hcounted, hr, hended]
    decide
  · rw [(counted.counts performs).2 s, hended]
    revert s
    decide

end Station.History

end RangeBearing
