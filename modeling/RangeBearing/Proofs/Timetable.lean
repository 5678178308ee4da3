import RangeBearing.Acquisition
import RangeBearing.Proofs.Timeline

/-!
# The two sides of an acquisition on their clocks

With a poll step of a millisecond at most, both sides always come to an end, and in which ticks
they ask what of their transceivers is a matter of the timetable and of the tick they start in.

* `Timing.windowAt`           the tick at which a window begins;
* `Acquisition.lights`, `Acquisition.reads`   what is asked in the windows;
* `Acquisition.sampled`       the matrix of a list of reads;
* `Acquisition.broadcast_on`  the illumination sequence of a request that is sent;
* `Acquisition.receive_on`    the reads of a receiver.
-/

namespace RangeBearing

open Program

namespace Timing

/-- the tick at which the window of an emitter begins -/
def windowAt (t : Timing) (origin : Nat) (e : Direction) : Nat :=
  origin + e.val * (t.window.toNat + t.gap.toNat)

theorem less_toNat (a b : UInt32) : (less a b).toNat = a.toNat - b.toNat := by
  unfold less
  by_cases h : b ≤ a
  · rw [if_pos h, UInt32.toNat_sub_of_le a b h]
  · rw [if_neg h]
    have hlt : a.toNat < b.toNat := UInt32.lt_iff_toNat_lt.mp (UInt32.not_le.mp h)
    rw [Nat.sub_eq_zero_of_le (Nat.le_of_lt hlt)]
    rfl

theorem readOffset_toNat (t : Timing) :
    t.readOffset.toNat = (t.window.toNat - t.readTime.toNat) / 2 := by
  unfold readOffset
  rw [UInt32.toNat_div, less_toNat]
  rfl

theorem arrivalSettle_toNat (t : Timing) :
    t.arrivalSettle.toNat = t.settle.toNat - t.latency.toNat := less_toNat _ _

theorem readOffset_le_window (t : Timing) : t.readOffset.toNat ≤ t.window.toNat := by
  rw [readOffset_toNat]
  omega

end Timing

namespace Acquisition

/-- what is asked of the transceiver in the windows of some emitters, the first of them from
tick `x` on -/
def lights (t : Timing) : Nat → List Direction → List Moment
  | _, [] => []
  | x, d :: ds => ⟨x, .emitterOn d⟩ :: ⟨x + t.window.toNat, .emitterOff d⟩ ::
      lights t (x + t.window.toNat + t.gap.toNat) ds

/-- the reads in the windows of some emitters, the first of them from tick `x` on -/
def reads (t : Timing) : Nat → List Direction → List Moment
  | _, [] => []
  | x, _ :: ds => ⟨x + t.readOffset.toNat, .readSensors⟩ ::
      reads t (x + t.window.toNat + t.gap.toNat) ds

/-- a matrix with the rows of some emitters as the driver answers the reads -/
def sampled (t : Timing) (driver : Driver) :
    Nat → List Direction → List Moment → Brightness → Brightness
  | _, [], _, m => m
  | x, d :: ds, past, m =>
    sampled t driver (x + t.window.toNat + t.gap.toNat) ds
      (past ++ [⟨x + t.readOffset.toNat, .readSensors⟩]) (m.setRow d (driver past .readSensors))

variable {t : Timing}

section
variable (hpos : 0 < t.pollStepUs.toNat) (hstep : t.pollStepUs.toNat ≤ 1000) (driver : Driver)
include hpos hstep

theorem wait_from_now (c : Clock) (budget : UInt32) :
    ∃ d, c.wait c.reading budget t.pollStepUs = some d ∧ d.tick = c.tick + budget.toNat := by
  have hturn : c.tick - c.tick < UInt32.size := by
    rw [Nat.sub_self]
    decide
  obtain ⟨d, hd, htick⟩ :=
    Clock.wait_tick (c := c) (s := c.tick) budget hpos hstep (Nat.le_refl _) hturn
  exact ⟨d, hd, by omega⟩

theorem lightWindow_on (st : Station) (c : Clock) (past : List Moment) (d : Direction) :
    ∃ c', (lightWindow t d).on driver ⟨st, c, past⟩ =
        some ((), ⟨st, c', past ++ lights t c.tick [d]⟩) ∧
      c'.tick = c.tick + t.window.toNat + t.gap.toNat := by
  obtain ⟨lit, hwait, hlit⟩ := wait_from_now hpos hstep c t.window
  refine ⟨lit.afterMs t.gap, ?_, by rw [Clock.tick_afterMs, hlit]⟩
  unfold lightWindow emitterOn emitterOff
  rw [on_readClock_bind, on_radio_bind, on_wait_bind hwait, on_radio_bind, on_pause, hlit,
    List.append_assoc]
  rfl

theorem lightWindows_on (ds : List Direction) (st : Station) (c : Clock) (past : List Moment) :
    ∃ c', (ds.forM (lightWindow t)).on driver ⟨st, c, past⟩ =
        some ((), ⟨st, c', past ++ lights t c.tick ds⟩) ∧
      c'.tick = c.tick + ds.length * (t.window.toNat + t.gap.toNat) := by
  induction ds generalizing c past with
  | nil =>
    refine ⟨c, ?_, by simp⟩
    rw [lights, List.append_nil]
    rfl
  | cons d ds ih =>
    obtain ⟨dark, hfirst, hdark⟩ := lightWindow_on hpos hstep driver st c past d
    obtain ⟨c', hrest, hc'⟩ := ih dark (past ++ lights t c.tick [d])
    refine ⟨c', ?_, ?_⟩
    · show (lightWindow t d >>= fun _ => ds.forM (lightWindow t)).on driver ⟨st, c, past⟩ = _
      rw [on_bind_of hfirst, hrest, hdark, List.append_assoc]
      rfl
    · rw [hc', hdark, List.length_cons, Nat.add_mul]
      omega

/-- the emitters are lit one after another, from the end of the power-set phase on -/
theorem illuminate_on (power : UInt16) (st : Station) (c : Clock) (past : List Moment) :
    ∃ c', (illuminate t c.reading power).on driver ⟨st, c, past⟩ =
        some ((), ⟨st, c', past ++ ⟨c.tick + t.settle.toNat, .setPower power⟩ ::
          lights t (c.tick + t.settle.toNat + t.powerSettle.toNat) Direction.all⟩) ∧
      c'.tick = c.tick + t.settle.toNat + t.powerSettle.toNat +
        6 * (t.window.toNat + t.gap.toNat) := by
  obtain ⟨c₁, hwait₁, hc₁⟩ := wait_from_now hpos hstep c t.settle
  obtain ⟨c₂, hwait₂, hc₂⟩ := wait_from_now hpos hstep c₁ t.powerSettle
  obtain ⟨c₃, hlit, hc₃⟩ := lightWindows_on hpos hstep driver Direction.all st c₂
    (past ++ [⟨c₁.tick, .setPower power⟩])
  refine ⟨c₃, ?_, ?_⟩
  · unfold illuminate setPower
    rw [on_wait_bind hwait₁, on_readClock_bind, on_radio_bind]
    have hatomic := on_atomically ((on_wait_bind hwait₂ (f := fun _ => Direction.all.forM
      (lightWindow t))).trans hlit)
    rw [hatomic, List.append_assoc, hc₂, hc₁]
    rfl
  · rw [hc₃, hc₂, hc₁]
    rfl

/-- the tag of a cycle that is announced at a clock reading -/
def tagOf (sentAt : UInt32) : UInt16 := (sentAt &&& tagMask).toUInt16

/-- a broadcast whose request is sent, tick by tick -/
theorem broadcast_on (power : UInt16) (st : Station) (c : Clock) (past : List Moment)
    (sent : driver past (.broadcast requestCode (tagOf c.reading)) = true) :
    ∃ c', (Acquisition.broadcast t power).on driver ⟨st, c, past⟩ =
        some (.ok (tagOf c.reading), ⟨st, c', past ++
          ⟨c.tick, .broadcast requestCode (tagOf c.reading)⟩ :: ⟨c.tick, .setBlocked true⟩ ::
          ⟨c.tick + t.settle.toNat, .setPower power⟩ ::
          lights t (c.tick + t.settle.toNat + t.powerSettle.toNat) Direction.all ++
          [⟨c'.tick, .setBlocked false⟩]⟩) ∧
      c'.tick = c.tick + t.settle.toNat + t.powerSettle.toNat +
        6 * (t.window.toNat + t.gap.toNat) := by
  obtain ⟨c', hlit, hc'⟩ := illuminate_on hpos hstep driver power st c
    (past ++ [⟨c.tick, .broadcast requestCode (tagOf c.reading)⟩] ++ [⟨c.tick, .setBlocked true⟩])
  refine ⟨c', ?_, hc'⟩
  unfold Acquisition.broadcast send setBlocked
  rw [on_readClock_bind, on_radio_bind]
  unfold tagOf at sent hlit ⊢
  rw [if_pos sent, on_radio_bind, on_bind_of hlit, on_radio_bind, on_log_bind, on_pure]
  simp only [List.append_assoc, List.cons_append, List.nil_append]

/-! ## the receiving side -/

theorem readWindow_on (m : Brightness) (e : Direction) (st : Station) (c : Clock)
    (past : List Moment) :
    ∃ c', (readWindow t m e).on driver ⟨st, c, past⟩ =
        some (m.setRow e (driver past .readSensors), ⟨st, c', past ++ reads t c.tick [e]⟩) ∧
      c'.tick = c.tick + t.window.toNat + t.gap.toNat := by
  obtain ⟨c₁, hwait₁, hc₁⟩ := wait_from_now hpos hstep c t.readOffset
  have hlate := t.readOffset_le_window
  have hturn : c₁.tick - c.tick < UInt32.size := by
    have := t.window.toNat_lt_size
    omega
  obtain ⟨c₂, hwait₂, hc₂⟩ := Clock.wait_tick (c := c₁) (s := c.tick) t.window hpos
    hstep (by omega) hturn
  rw [← Clock.reading_eq] at hwait₂
  refine ⟨c₂.afterMs t.gap, ?_, ?_⟩
  · unfold readWindow readSensors
    rw [on_readClock_bind, on_wait_bind hwait₁, on_radio_bind, on_wait_bind hwait₂, on_pause_bind,
      on_pure, hc₁]
    rfl
  · rw [Clock.tick_afterMs, hc₂]
    omega

theorem readWindows_on (ds : List Direction) (m : Brightness) (st : Station) (c : Clock)
    (past : List Moment) :
    ∃ c', (ds.foldlM (readWindow t) m).on driver ⟨st, c, past⟩ =
        some (sampled t driver c.tick ds past m, ⟨st, c', past ++ reads t c.tick ds⟩) ∧
      c'.tick = c.tick + ds.length * (t.window.toNat + t.gap.toNat) := by
  induction ds generalizing c past m with
  | nil =>
    refine ⟨c, ?_, by simp⟩
    rw [reads, List.append_nil]
    rfl
  | cons d ds ih =>
    obtain ⟨c₁, hfirst, hc₁⟩ := readWindow_on hpos hstep driver m d st c past
    obtain ⟨c', hrest, hc'⟩ :=
      ih (m.setRow d (driver past .readSensors)) c₁ (past ++ reads t c.tick [d])
    refine ⟨c', ?_, ?_⟩
    · rw [List.foldlM_cons, on_bind_of hfirst, hrest, hc₁, List.append_assoc]
      rfl
    · rw [hc', hc₁, List.length_cons, Nat.add_mul]
      omega

/-- the reads of a receiver for a request that arrived at tick `s`: the windows begin when the
settle time has passed since then, or at once after a late call -/
theorem receive_on {s : Nat} (st : Station) (c : Clock) (past : List Moment) (hs : s ≤ c.tick)
    (hturn : c.tick - s < UInt32.size) :
    ∃ c' origin, (receive t (.ofNat s)).on driver ⟨st, c, past⟩ =
        some (sampled t driver origin Direction.all past .dark,
          ⟨st, c', past ++ reads t origin Direction.all⟩) ∧
      origin = max c.tick (s + t.arrivalSettle.toNat) + t.powerSettle.toNat ∧
      c'.tick = origin + 6 * (t.window.toNat + t.gap.toNat) := by
  obtain ⟨c₁, hwait₁, hc₁⟩ := Clock.wait_tick t.arrivalSettle hpos hstep hs hturn
  obtain ⟨c₂, hwait₂, hc₂⟩ := wait_from_now hpos hstep c₁ t.powerSettle
  obtain ⟨c', hread, hc'⟩ := readWindows_on hpos hstep driver Direction.all .dark st c₂ past
  refine ⟨c', c₂.tick, ?_, by rw [hc₂, hc₁], hc'⟩
  unfold receive
  rw [on_wait_bind hwait₁]
  apply on_atomically
  rw [on_readClock_bind, on_wait_bind hwait₂, hread]

end

end Acquisition

end RangeBearing
