import RangeBearing.Proofs.Timetable

/-!
# Broadcaster and receiver in lock-step

Nothing passes between the two robots after the request, and yet each read of the receiver falls
into the window of its emitter: no tick is lost over the six windows, whatever the phases of the
two clocks and wherever their readings wrap around.

* `litAt`                    whether an emitter is lit in a tick;
* `litAt_lights_iff`         when the emitters of an illumination sequence are;
* `Acquisition.LockStep`     what the two sides of a cycle have to do with each other;
* `Acquisition.lock_step`    every timetable, every pair of clocks and every receiver that is
                             called less than a turn of the readings after the request.
-/

namespace RangeBearing

open Program

/-- an emitter after a call of the transceiver -/
def switched (d : Direction) (lit : Bool) : Radio → Bool
  | .emitterOn d' => if d' = d then true else lit
  | .emitterOff d' => if d' = d then false else lit
  | _ => lit

/-- whether an emitter is lit in a tick -/
def litAt (past : List Moment) (d : Direction) (x : Nat) : Bool :=
  past.foldl (fun lit m => if m.tick ≤ x then switched d lit m.call else lit) false

namespace Timing

/-- the tick in which an emitter lights up after a request that was sent in tick `x` -/
def onset (t : Timing) (x : Nat) (e : Direction) : Nat :=
  t.windowAt (x + t.settle.toNat + t.powerSettle.toNat) e

/-- how long after the onsets a receiver reads that was called in tick `y`: by as much as the call
came after the settle time, and half of what the read leaves of the window -/
def lag (t : Timing) (x y : Nat) : Nat :=
  y - (x + t.settle.toNat) + (t.window.toNat - t.readTime.toNat) / 2

end Timing

namespace Acquisition

variable {t : Timing}

theorem lights_all (origin : Nat) :
    lights t origin Direction.all = Direction.all.flatMap fun e =>
      [⟨t.windowAt origin e, .emitterOn e⟩,
        ⟨t.windowAt origin e + t.window.toNat, .emitterOff e⟩] := by
  have hall : Direction.all = [0, 1, 2, 3, 4, 5] := rfl
  rw [hall]
  simp [lights, Timing.windowAt]
  omega

theorem reads_all (origin : Nat) :
    reads t origin Direction.all =
      Direction.all.map fun e => ⟨t.windowAt origin e + t.readOffset.toNat, .readSensors⟩ := by
  have hall : Direction.all = [0, 1, 2, 3, 4, 5] := rfl
  rw [hall]
  simp [reads, Timing.windowAt]
  omega

/-! ## when an emitter is lit -/

theorem foldl_unswitched {past : List Moment} {d : Direction} {x : Nat}
    (h : ∀ m ∈ past, ∀ lit, switched d lit m.call = lit) (b : Bool) :
    past.foldl (fun lit m => if m.tick ≤ x then switched d lit m.call else lit) b = b := by
  induction past generalizing b with
  | nil => rfl
  | cons m past ih =>
    have hm : (if m.tick ≤ x then switched d b m.call else b) = b := by
      rw [h m List.mem_cons_self, ite_self]
    rw [List.foldl_cons, hm]
    exact ih (fun m' hm' => h m' (List.mem_cons_of_mem _ hm')) b

theorem foldl_windows_of_not_mem {ds : List Direction} {d : Direction} (hd : d ∉ ds)
    (starts : Direction → Nat) (w x : Nat) (b : Bool) :
    (ds.flatMap fun e => [(⟨starts e, .emitterOn e⟩ : Moment), ⟨starts e + w, .emitterOff e⟩]).foldl
        (fun lit m => if m.tick ≤ x then switched d lit m.call else lit) b = b := by
  refine foldl_unswitched ?_ b
  intro m hm lit
  obtain ⟨e, he, hm⟩ := List.mem_flatMap.mp hm
  have hne : e ≠ d := fun h => hd (h ▸ he)
  rcases List.mem_cons.mp hm with rfl | hm
  · exact if_neg hne
  · obtain rfl := List.mem_singleton.mp hm
    exact if_neg hne

/-- the windows of other emitters leave an emitter alone, its own lights it and darkens it again -/
theorem foldl_windows {ds : List Direction} (hds : ds.Nodup) {d : Direction} (hd : d ∈ ds)
    (starts : Direction → Nat) (w x : Nat) (b : Bool) :
    (ds.flatMap fun e => [(⟨starts e, .emitterOn e⟩ : Moment), ⟨starts e + w, .emitterOff e⟩]).foldl
        (fun lit m => if m.tick ≤ x then switched d lit m.call else lit) b =
      if starts d ≤ x then decide (x < starts d + w) else b := by
  induction ds generalizing b with
  | nil => exact absurd hd List.not_mem_nil
  | cons e ds ih =>
    obtain ⟨hnew, hrest⟩ := List.nodup_cons.mp hds
    rw [List.flatMap_cons, List.foldl_append]
    by_cases he : e = d
    · subst he
      rw [foldl_windows_of_not_mem hnew]
      simp only [List.foldl_cons, List.foldl_nil, switched, if_true]
      by_cases hon : starts e ≤ x
      · by_cases hoff : starts e + w ≤ x
        · rw [if_pos hoff, if_pos hon, decide_eq_false (Nat.not_lt.mpr hoff)]
        · rw [if_neg hoff, if_pos hon, if_pos hon, decide_eq_true (Nat.lt_of_not_le hoff)]
      · have hoff : ¬ starts e + w ≤ x := fun h => hon (Nat.le_trans (Nat.le_add_right _ _) h)
        rw [if_neg hoff, if_neg hon, if_neg hon]
    · have hd : d ∈ ds := by
        rcases List.mem_cons.mp hd with h | h
        · exact absurd h.symm he
        · exact h
      rw [ih hrest hd]
      simp only [List.foldl_cons, List.foldl_nil, switched, if_neg he, ite_self]

/-- an emitter of an illumination sequence is lit in its window and at no other time -/
theorem litAt_lights_iff (first last : List Moment) {origin : Nat} {d : Direction} {x : Nat}
    (hfirst : ∀ m ∈ first, ∀ lit, switched d lit m.call = lit)
    (hlast : ∀ m ∈ last, ∀ lit, switched d lit m.call = lit) :
    litAt (first ++ lights t origin Direction.all ++ last) d x = true ↔
      t.windowAt origin d ≤ x ∧ x < t.windowAt origin d + t.window.toNat := by
  have hnodup : Direction.all.Nodup := List.nodup_finRange 6
  unfold litAt
  rw [List.foldl_append, List.foldl_append, foldl_unswitched hfirst, foldl_unswitched hlast,
    lights_all, foldl_windows hnodup d.mem_all (t.windowAt origin)]
  by_cases hon : t.windowAt origin d ≤ x
  · rw [if_pos hon, decide_eq_true_iff]
    exact ⟨fun h => ⟨hon, h⟩, fun h => h.2⟩
  · rw [if_neg hon]
    exact ⟨fun h => absurd h Bool.false_ne_true, fun h => absurd h.1 hon⟩

/-! ## the rows of the matrix -/

theorem sampled_entry_of_not_mem {driver : Driver} {ds : List Direction} {e : Direction}
    (he : e ∉ ds) (x : Nat) (past : List Moment) (m : Brightness) :
    (sampled t driver x ds past m).rows.entry e = m.rows.entry e := by
  induction ds generalizing x past m with
  | nil => rfl
  | cons d ds ih =>
    have hne : e ≠ d := fun h => he (h ▸ List.mem_cons_self)
    have hrest : e ∉ ds := fun h => he (List.mem_cons_of_mem _ h)
    unfold sampled
    rw [ih hrest]
    unfold Grid.setRow
    rw [Table.entry_update, if_neg (Ne.symm hne)]

/-- a row of the matrix is the answer to the read in its window -/
theorem sampled_entry (driver : Driver) {ds : List Direction} (hds : ds.Nodup) (x : Nat)
    (past : List Moment) (m : Brightness) {i : Nat} (hi : i < ds.length) :
    (sampled t driver x ds past m).rows.entry ds[i] =
      driver (past ++ (reads t x ds).take i) .readSensors := by
  induction ds generalizing x past m i with
  | nil => cases hi
  | cons d ds ih =>
    obtain ⟨hnew, hrest⟩ := List.nodup_cons.mp hds
    unfold sampled reads
    cases i with
    | zero =>
      rw [List.getElem_cons_zero, sampled_entry_of_not_mem hnew]
      unfold Grid.setRow
      rw [Table.entry_update, if_pos rfl, List.take_zero, List.append_nil]
    | succ i =>
      rw [List.getElem_cons_succ, ih hrest _ _ _ (Nat.lt_of_succ_lt_succ hi), List.append_assoc]
      rfl

theorem sampled_all_entry (driver : Driver) (origin : Nat) (past : List Moment) (m : Brightness)
    (e : Direction) :
    (sampled t driver origin Direction.all past m).rows.entry e =
      driver (past ++ (reads t origin Direction.all).take e.val) .readSensors := by
  have hnodup : Direction.all.Nodup := List.nodup_finRange 6
  have hlt : e.val < Direction.all.length := e.lt
  have hentry := sampled_entry (t := t) driver hnodup origin past m hlt
  have he : Direction.all[e.val] = e := by simp [Direction.all]
  rw [he] at hentry
  exact hentry

/-! ## the two sides together -/

/-- what a broadcaster that sends its request in tick `x`, and a receiver that is called in tick
`y` of its own clock, have to do with each other -/
structure LockStep (t : Timing) (x y : Nat) (receiver : Driver) (lit heard : List Moment)
    (m : Brightness) : Prop where
  /-- each emitter is lit in its window and at no other time -/
  emitters : ∀ e z, litAt lit e z = true ↔
    t.onset x e ≤ z ∧ z < t.onset x e + t.window.toNat
  /-- all that the receiver asks for is a read for each window -/
  reads : heard = Direction.all.map fun e => ⟨t.onset x e + t.lag x y, .readSensors⟩
  /-- which gives the row of its emitter -/
  rows : ∀ e : Direction, m.rows.entry e = receiver (heard.take e.val) .readSensors
  /-- and finds the emitter lit unless the call came too late -/
  caught : ∀ e, litAt lit e (t.onset x e + t.lag x y) = true ↔ t.lag x y < t.window.toNat

theorem origin_eq (x y : Nat) (arrived : x + t.latency.toNat ≤ y) (e : Direction) :
    t.windowAt (max y (x + t.latency.toNat + t.arrivalSettle.toNat) + t.powerSettle.toNat) e +
      t.readOffset.toNat = t.onset x e + t.lag x y := by
  rw [t.arrivalSettle_toNat, t.readOffset_toNat]
  unfold Timing.onset Timing.lag Timing.windowAt
  omega

/-- broadcaster and receiver come to an end, and are in lock-step: for every timetable with a poll
step of a millisecond at most, wherever the request is sent, and for every receiver that is called
after the arrival of the request and before its clock has turned round since then -/
theorem lock_step (hpos : 1 ≤ t.pollStepUs.toNat) (hstep : t.pollStepUs.toNat ≤ 1000)
    (power : UInt16) {sender receiver : Driver} (st st' : Station) {c c' : Clock}
    (sends : ∀ past code tag, sender past (.broadcast code tag) = true)
    (arrived : c.tick + t.latency.toNat ≤ c'.tick)
    (hturn : c'.tick - (c.tick + t.latency.toNat) < UInt32.size) :
    ∃ tag m lit heard,
      (Acquisition.broadcast t power).on sender ⟨st, c, []⟩ = some (.ok tag, lit) ∧
      (receive t (.ofNat (c.tick + t.latency.toNat))).on receiver ⟨st', c', []⟩ =
        some (m, heard) ∧
      LockStep t c.tick c'.tick receiver lit.past heard.past m := by
  obtain ⟨d, hbroadcast, -⟩ := broadcast_on hpos hstep sender power st c [] (sends _ _ _)
  obtain ⟨d', origin, hreceive, horigin, -⟩ :=
    receive_on hpos hstep receiver st' c' [] arrived hturn
  have hlit : ∀ e z, litAt ([] ++ ⟨c.tick, .broadcast requestCode (tagOf c.reading)⟩ ::
      ⟨c.tick, .setBlocked true⟩ :: ⟨c.tick + t.settle.toNat, .setPower power⟩ ::
      lights t (c.tick + t.settle.toNat + t.powerSettle.toNat) Direction.all ++
      [⟨d.tick, .setBlocked false⟩]) e z = true ↔
      t.onset c.tick e ≤ z ∧ z < t.onset c.tick e + t.window.toNat := by
    intro e z
    refine litAt_lights_iff [⟨c.tick, .broadcast requestCode (tagOf c.reading)⟩,
      ⟨c.tick, .setBlocked true⟩, ⟨c.tick + t.settle.toNat, .setPower power⟩] _ ?_ ?_
    · simp [switched]
    · simp [switched]
  have hreads : reads t origin Direction.all =
      Direction.all.map fun e => ⟨t.onset c.tick e + t.lag c.tick c'.tick, .readSensors⟩ := by
    rw [reads_all]
    congr 1
    funext e
    rw [horigin, origin_eq c.tick c'.tick arrived e]
  refine ⟨_, _, _, _, hbroadcast, hreceive, ⟨hlit, hreads, ?_, ?_⟩⟩
  · exact sampled_all_entry receiver origin [] .dark
  · intro e
    rw [hlit]
    omega

/-- for example, with the default timetable and a broadcaster whose readings wrap around between
the request and the first window -/
theorem lock_step_across_wrap :
    ∃ tag m lit heard,
      (Acquisition.broadcast .default 500).on (Simulation.Script.driver ⟨[], false, false⟩)
        ⟨.new, ⟨4294967290123⟩, []⟩ = some (.ok tag, lit) ∧
      (receive .default (.ofNat 4294967298)).on (Simulation.Script.driver ⟨[], false, false⟩)
        ⟨.new, ⟨4294967300999⟩, []⟩ = some (m, heard) ∧
      LockStep .default 4294967290 4294967300 (Simulation.Script.driver ⟨[], false, false⟩)
        lit.past heard.past m :=
  lock_step (t := .default) (c := ⟨4294967290123⟩) (by decide) (by decide) 500 .new .new
    (fun _ _ _ => rfl) (by decide) (by decide)

end Acquisition

end RangeBearing
