import RangeBearing.Proofs.FailedCalls
import RangeBearing.Proofs.LockStep
import RangeBearing.Proofs.Surroundings

/-!
# The trace of a broadcast

With any scheduler and any transceiver a broadcast asks for the same calls in the same order, and
lights its emitters one at a time with interrupts kept out.  On a clock that moves with the delays
alone it also keeps its timetable to the tick, and takes the time of a full cycle.

* `Acquisition.flashes`         emitters lit and darkened one after another;
* `Acquisition.OneByOne`        calls that never light two emitters at once and leave all dark;
* `Acquisition.Refusal`, `Acquisition.Illumination`   a broadcast that is not sent, and one that is;
* `Timing.duration?_eq`         the time of a full cycle by four operations that may overflow;
* `Acquisition.BroadcastExactly`, `Acquisition.broadcast_exactly`.
-/

namespace RangeBearing

open Program

/-! ## the time of a full cycle -/

namespace Timing

/-- a number as a 32-bit number, if it is one -/
def word? (n : Nat) : Option UInt32 := if n < UInt32.size then some (.ofNat n) else none

def add? (a b : UInt32) : Option UInt32 := word? (a.toNat + b.toNat)

def mul? (a b : UInt32) : Option UInt32 := word? (a.toNat * b.toNat)

theorem word?_eq_some_iff {n : Nat} {d : UInt32} : word? n = some d ↔ d.toNat = n := by
  unfold word?
  constructor
  · intro h
    by_cases hn : n < UInt32.size
    · rw [if_pos hn] at h
      rw [← Option.some.inj h, UInt32.toNat_ofNat', Nat.mod_eq_of_lt hn]
    · rw [if_neg hn] at h
      cases h
  · rintro rfl
    rw [if_pos d.toNat_lt_size, UInt32.ofNat_toNat]

/-- no step of the sum overflows unless the sum does -/
theorem duration?_eq (t : Timing) :
    t.duration? = (do
      let each ← add? t.window t.gap
      let lead ← add? t.settle t.powerSettle
      let windows ← mul? each 6
      add? lead windows) := by
  refine Option.ext fun d => ?_
  have hduration : t.duration? = some d ↔ d.toNat = t.durationMs := word?_eq_some_iff
  rw [hduration]
  simp only [Option.bind_eq_bind, Option.bind_eq_some_iff, add?, mul?, word?_eq_some_iff]
  have hlt := d.toNat_lt_size
  unfold durationMs
  constructor
  · intro h
    rw [h] at hlt
    have hword : ∀ n < UInt32.size, (UInt32.ofNat n).toNat = n := fun n hn => by
      rw [UInt32.toNat_ofNat', Nat.mod_eq_of_lt hn]
    have heach := hword (t.window.toNat + t.gap.toNat) (by omega)
    have hsix : (6 : UInt32).toNat = 6 := rfl
    refine ⟨_, heach, _, hword (t.settle.toNat + t.powerSettle.toNat) (by omega), _,
      hword _ ?_, ?_⟩
    · rw [heach, hsix]
      omega
    · rw [heach, hsix, hword _ (by omega), hword _ (by omega)]
      exact h
  · rintro ⟨each, heach, lead, hlead, windows, hwindows, h⟩
    have hsix : (6 : UInt32).toNat = 6 := rfl
    rw [h, hlead, hwindows, heach, hsix]

example : default.duration? = some 188 := by decide

end Timing

namespace Acquisition

/-! ## emitters lit one by one -/

/-- whether an emitter is lit after some calls, if it was dark before them -/
def litAfter (calls : List Radio) (d : Direction) : Bool := calls.foldl (switched d) false

theorem litAfter_append {first : List Radio} (second : List Radio) {d : Direction}
    (h : litAfter first d = false) : litAfter (first ++ second) d = litAfter second d := by
  unfold litAfter at h ⊢
  rw [List.foldl_append, h]

/-- calls that never light two emitters at once and leave all of them dark, if all were dark
before -/
structure OneByOne (calls : List Radio) : Prop where
  alone : ∀ before, before <+: calls → ∀ d d',
    litAfter before d = true → litAfter before d' = true → d = d'
  dark : ∀ d, litAfter calls d = false

theorem OneByOne.nil : OneByOne [] where
  alone before hbefore d d' hd := by
    rw [List.prefix_nil.mp hbefore] at hd
    cases hd
  dark d := rfl

theorem OneByOne.append {first second : List Radio} (h₁ : OneByOne first) (h₂ : OneByOne second) :
    OneByOne (first ++ second) where
  alone before hbefore d d' hd hd' := by
    rcases List.prefix_or_prefix_of_prefix hbefore (List.prefix_append first second)
      with hshort | ⟨rest, rfl⟩
    · exact h₁.alone before hshort d d' hd hd'
    · -- all were dark again when the second calls began
      have hrest := (List.prefix_append_right_inj first).mp hbefore
      rw [litAfter_append rest (h₁.dark _)] at hd hd'
      exact h₂.alone rest hrest d d' hd hd'
  dark d := by
    rw [litAfter_append second (h₁.dark d)]
    exact h₂.dark d

theorem prefix_pair {a b : Radio} {before : List Radio} (h : before <+: [a, b]) :
    before = [] ∨ before = [a] ∨ before = [a, b] := by
  rcases List.prefix_cons_iff.mp h with rfl | ⟨rest, rfl, hrest⟩
  · exact .inl rfl
  · rcases List.prefix_cons_iff.mp hrest with rfl | ⟨last, rfl, hlast⟩
    · exact .inr (.inl rfl)
    · rw [List.prefix_nil.mp hlast]
      exact .inr (.inr rfl)

theorem OneByOne.other {r : Radio} (h : ∀ d lit, switched d lit r = lit) : OneByOne [r] where
  alone before hbefore d d' hd := by
    have hdark : litAfter before d = false := by
      rcases List.prefix_cons_iff.mp hbefore with rfl | ⟨rest, rfl, hrest⟩
      · rfl
      · rw [List.prefix_nil.mp hrest]
        exact h d false
    rw [hdark] at hd
    cases hd
  dark d := h d false

theorem OneByOne.flash (e : Direction) : OneByOne [.emitterOn e, .emitterOff e] where
  alone before hbefore d d' hd hd' := by
    have hlit : ∀ d, litAfter before d = true → e = d := by
      intro d hd
      rcases prefix_pair hbefore with rfl | rfl | rfl
      · cases hd
      · simpa [litAfter, switched] using hd
      · simp [litAfter, switched] at hd
    rw [← hlit d hd, ← hlit d' hd']
  dark d := by simp [litAfter, switched]

/-- emitters lit and darkened one after another -/
def flashes (ds : List Direction) : List Radio :=
  ds.flatMap fun d => [.emitterOn d, .emitterOff d]

theorem flashes_cons (d : Direction) (ds : List Direction) :
    flashes (d :: ds) = [.emitterOn d, .emitterOff d] ++ flashes ds := List.flatMap_cons

theorem OneByOne.flashes (ds : List Direction) : OneByOne (flashes ds) := by
  induction ds with
  | nil => exact .nil
  | cons d ds ih =>
    rw [flashes_cons]
    exact (OneByOne.flash d).append ih

theorem foldl_flashes {ds : List Direction} {d : Direction} (hd : d ∈ ds) (lit : Bool) :
    (flashes ds).foldl (switched d) lit = false := by
  induction ds generalizing lit with
  | nil => cases hd
  | cons e ds ih =>
    rw [flashes_cons, List.foldl_append]
    by_cases hds : d ∈ ds
    · -- a later flash leaves it dark as well
      exact ih hds _
    · obtain rfl : d = e := (List.mem_cons.mp hd).resolve_right hds
      have hflash : [Radio.emitterOn d, .emitterOff d].foldl (switched d) lit = false := by
        simp [switched]
      rw [hflash]
      exact (OneByOne.flashes ds).dark d

/-! ## the steps of a broadcast -/

/-- whether incoming traffic is ignored after a call of the transceiver -/
def blocked (before : Bool) : Radio → Bool
  | .setBlocked b => b
  | _ => before

/-- what a broadcast asks of the transceiver when its request is sent -/
def announced (power tag : UInt16) : List Radio :=
  [.broadcast requestCode tag, .setBlocked true, .setPower power] ++ flashes Direction.all ++
    [.setBlocked false]

theorem oneByOne_announced (power tag : UInt16) : OneByOne (announced power tag) := by
  have hbefore : OneByOne [.broadcast requestCode tag, .setBlocked true, .setPower power] :=
    ((OneByOne.other fun _ _ => rfl).append (.other fun _ _ => rfl)).append (.other fun _ _ => rfl)
  exact (hbefore.append (.flashes Direction.all)).append (.other fun _ _ => rfl)

theorem foldl_announced (power tag : UInt16) (d : Direction) (lit : Bool) :
    (announced power tag).foldl (switched d) lit = false := by
  have hflashes := foldl_flashes d.mem_all lit
  unfold announced
  rw [List.foldl_append, List.foldl_append]
  exact hflashes

theorem blocked_announced (power tag : UInt16) (before : Bool) :
    (announced power tag).foldl blocked before = false := by
  unfold announced
  rw [List.foldl_append]
  rfl

theorem tagOf_toNat (now : UInt32) : (tagOf now).toNat = now.toNat % UInt16.size := by
  have hmask : tagMask.toNat = 2 ^ 16 - 1 := rfl
  unfold tagOf
  rw [UInt32.toNat_toUInt16, UInt32.toNat_and, hmask, Nat.and_two_pow_sub_one_eq_mod]
  exact Nat.mod_mod _ _

/-- a step into a critical section of the scheduler, or out of it -/
def Masks : Action → Prop
  | .enterCritical | .leaveCritical => True
  | _ => False

section
variable {t : Timing} {power : UInt16} {st st' : Station} {steps : List Step} {u : Unit}

theorem lightWindow_unmasked (t : Timing) (d : Direction) :
    (lightWindow t d).Each fun action => ¬ Masks action :=
  (Each.perform id).bind fun _ => (Each.perform id).bind fun _ =>
    (Each.perform id).bind fun _ => (Each.perform id).bind fun _ => Each.perform id

theorem lightWindow_radio {d : Direction} (h : (lightWindow t d).Performs st steps u st') :
    steps.filterMap Step.radio? = [.emitterOn d, .emitterOff d] := by
  obtain ⟨_, _, _, -, hlight, rfl⟩ := performs_perform_bind_iff.mp h
  obtain ⟨_, _, _, -, hwait, rfl⟩ := performs_perform_bind_iff.mp hlight
  obtain ⟨_, _, _, -, hdark, rfl⟩ := performs_perform_bind_iff.mp hwait
  obtain ⟨_, _, _, -, hgap, rfl⟩ := performs_perform_bind_iff.mp hdark
  cases hgap with
  | act _ rest =>
    obtain ⟨rfl, -, -⟩ := performs_done_iff.mp rest
    rfl

theorem lightWindows_radio {ds : List Direction}
    (h : (ds.forM (lightWindow t)).Performs st steps u st') :
    steps.filterMap Step.radio? = flashes ds := by
  induction ds generalizing st steps with
  | nil =>
    obtain ⟨rfl, -, -⟩ := performs_pure_iff.mp h
    rfl
  | cons d ds ih =>
    obtain ⟨first, _, _, rest, hfirst, hrest, rfl⟩ := performs_bind_iff.mp h
    rw [List.filterMap_append, lightWindow_radio hfirst, ih hrest, flashes_cons]

theorem illuminate_performs {sentAt : UInt32}
    (h : (illuminate t sentAt power).Performs st steps u st') :
    ∃ before inside, steps = before ++ ⟨.enterCritical, ()⟩ :: (inside ++ [⟨.leaveCritical, ()⟩]) ∧
      before.filterMap Step.radio? = [.setPower power] ∧
      inside.filterMap Step.radio? = flashes Direction.all ∧
      ∀ s ∈ before ++ inside, ¬ Masks s.action := by
  obtain ⟨_, _, _, -, hsettled, rfl⟩ := performs_perform_bind_iff.mp h
  obtain ⟨set, _, _, -, hread, rfl⟩ := performs_perform_bind_iff.mp hsettled
  obtain ⟨_, _, _, -, hset, rfl⟩ := performs_perform_bind_iff.mp hread
  obtain ⟨_, _, _, -, hentered, rfl⟩ := performs_perform_bind_iff.mp hset
  obtain ⟨inside, _, _, rest, hinside, hleave, rfl⟩ := performs_bind_iff.mp hentered
  obtain ⟨_, _, _, -, hleft, rfl⟩ := performs_perform_bind_iff.mp hleave
  obtain ⟨rfl, -, -⟩ := performs_pure_iff.mp hleft
  refine ⟨[⟨.wait sentAt t.settle t.pollStepUs, ()⟩, ⟨.readClock, set⟩,
    ⟨.radio (.setPower power), ()⟩], inside, rfl, rfl, ?_, ?_⟩
  · obtain ⟨_, _, _, -, hwindows, rfl⟩ := performs_perform_bind_iff.mp hinside
    have hflashes := lightWindows_radio hwindows
    exact hflashes
  · intro s hs
    rcases List.mem_append.mp hs with hs | hs
    · have hplain : ∀ s ∈ [(⟨.wait sentAt t.settle t.pollStepUs, ()⟩ : Step), ⟨.readClock, set⟩,
          ⟨.radio (.setPower power), ()⟩], ¬ Masks s.action := by simp [Masks]
      exact hplain s hs
    · refine Each.steps (P := fun action => ¬ Masks action) ?_ hinside s hs
      exact (Each.perform id).bind fun _ => Each.forM (lightWindow_unmasked t) Direction.all

end

/-! ## a broadcast among any surroundings -/

section
variable {σ : Type}

/-- the reading of the clock that a broadcast begins with -/
def sentAt (env : Surroundings σ) (x : σ) : UInt32 := (env.clock x).1

/-- the answer to the request of a broadcast, and the world after it -/
def request (env : Surroundings σ) (x : σ) : Bool × σ :=
  env.radio (.broadcast requestCode (tagOf (sentAt env x))) (env.clock x).2

/-- a broadcast whose request is not sent -/
structure Refusal (env : Surroundings σ) (x : σ) (steps : List Step)
    (result : Except Fault UInt16) (x' : σ) : Prop where
  result : result = .error .refused
  /-- the request is all that was asked of the transceiver -/
  asked : steps.filterMap Step.radio? = [.broadcast requestCode (tagOf (sentAt env x))]
  /-- and nothing was delayed -/
  prompt : ∀ s ∈ steps, ¬ s.action.Delays
  after : x' = (request env x).2

/-- a broadcast whose request is sent at a reading of the clock -/
structure Illumination (power : UInt16) (now : UInt32) (steps : List Step)
    (result : Except Fault UInt16) : Prop where
  result : result = .ok (tagOf now)
  tag : (tagOf now).toNat = now.toNat % UInt16.size
  asked : steps.filterMap Step.radio? = announced power (tagOf now)
  /-- at no moment two emitters are lit, if none was before -/
  oneByOne : OneByOne (steps.filterMap Step.radio?)
  /-- all are dark at the end -/
  dark : ∀ d lit, (steps.filterMap Step.radio?).foldl (switched d) lit = false
  /-- and reception is not blocked any more -/
  unblocked : ∀ before, (steps.filterMap Step.radio?).foldl blocked before = false
  /-- the emitters are lit and darkened in the one critical section, and nothing else is asked for
  there -/
  masked : ∃ before inside after,
    steps = before ++ ⟨.enterCritical, ()⟩ :: inside ++ ⟨.leaveCritical, ()⟩ :: after ∧
      before.filterMap Step.radio? =
        [.broadcast requestCode (tagOf now), .setBlocked true, .setPower power] ∧
      inside.filterMap Step.radio? = flashes Direction.all ∧
      after.filterMap Step.radio? = [.setBlocked false] ∧
      ∀ s ∈ before ++ inside ++ after, ¬ Masks s.action

theorem Illumination.of_asked {power : UInt16} {now : UInt32}
    {before inside after : List Step}
    (hbefore : before.filterMap Step.radio? =
      [.broadcast requestCode (tagOf now), .setBlocked true, .setPower power])
    (hinside : inside.filterMap Step.radio? = flashes Direction.all)
    (hafter : after.filterMap Step.radio? = [.setBlocked false])
    (unmasked : ∀ s ∈ before ++ inside ++ after, ¬ Masks s.action) :
    Illumination power now
      (before ++ ⟨.enterCritical, ()⟩ :: inside ++ ⟨.leaveCritical, ()⟩ :: after)
      (.ok (tagOf now)) := by
  have hasked : (before ++ ⟨.enterCritical, ()⟩ :: inside ++
      ⟨.leaveCritical, ()⟩ :: after).filterMap Step.radio? = announced power (tagOf now) := by
    rw [List.filterMap_append, List.filterMap_append, hbefore]
    show _ ++ inside.filterMap Step.radio? ++ after.filterMap Step.radio? = _
    rw [hinside, hafter]
    rfl
  exact
    { result := rfl
      tag := tagOf_toNat now
      asked := hasked
      oneByOne := by
        rw [hasked]
        exact oneByOne_announced power (tagOf now)
      dark := fun d lit => by
        rw [hasked]
        exact foldl_announced power (tagOf now) d lit
      unblocked := fun b => by
        rw [hasked]
        exact blocked_announced power (tagOf now) b
      masked := ⟨before, inside, after, rfl, hbefore, hinside, hafter, unmasked⟩ }

variable {t : Timing} {power : UInt16} {env : Surroundings σ} {st st' : Station} {x x' : σ}
  {steps : List Step} {result : Except Fault UInt16}

theorem Illumination.of_illuminate {now : UInt32} {u : Unit}
    (h : (illuminate t now power).Performs st steps u st') :
    Illumination power now
      ([⟨.readClock, now⟩, ⟨.radio (.broadcast requestCode (tagOf now)), true⟩,
          ⟨.radio (.setBlocked true), ()⟩] ++ steps ++
        [⟨.radio (.setBlocked false), ()⟩, ⟨.log (.illuminated (tagOf now)), ()⟩])
      (.ok (tagOf now)) := by
  obtain ⟨before, inside, rfl, hbefore, hinside, unmasked⟩ := illuminate_performs h
  generalize hfirst : [(⟨.readClock, now⟩ : Step),
    ⟨.radio (.broadcast requestCode (tagOf now)), true⟩, ⟨.radio (.setBlocked true), ()⟩] = first
  generalize hlast : [(⟨.radio (.setBlocked false), ()⟩ : Step),
    ⟨.log (.illuminated (tagOf now)), ()⟩] = last
  have hplain : ∀ s ∈ first ++ last, ¬ Masks s.action := by simp [← hfirst, ← hlast, Masks]
  have hsteps : first ++ (before ++ ⟨.enterCritical, ()⟩ :: (inside ++ [⟨.leaveCritical, ()⟩])) ++
      last = first ++ before ++ ⟨.enterCritical, ()⟩ :: inside ++ ⟨.leaveCritical, ()⟩ :: last := by
    simp only [List.append_assoc, List.cons_append, List.nil_append]
  rw [hsteps]
  refine .of_asked ?_ hinside ?_ ?_
  · rw [List.filterMap_append, hbefore, ← hfirst]
    rfl
  · rw [← hlast]
    rfl
  · intro s hs
    simp only [List.mem_append] at hs
    rcases hs with ((hs | hs) | hs) | hs
    · exact hplain s (List.mem_append_left _ hs)
    · exact unmasked s (List.mem_append_left _ hs)
    · exact unmasked s (List.mem_append_right _ hs)
    · exact hplain s (List.mem_append_right _ hs)

/-- the answer to the request decides what a broadcast is -/
theorem broadcast_runs (h : env.Runs (Acquisition.broadcast t power) st x steps result st' x') :
    if (request env x).1 then Illumination power (sentAt env x) steps result
    else Refusal env x steps result x' := by
  obtain ⟨now, _, x₁, _, -, hnow, hsend, rfl⟩ := Surroundings.runs_perform_bind_iff.mp h
  obtain ⟨sent, _, x₂, _, -, hsent, hrest, rfl⟩ := Surroundings.runs_perform_bind_iff.mp hsend
  have hclock : env.clock x = (now, x₁) := hnow
  have hanswer : request env x = (sent, x₂) := by
    unfold request sentAt
    rw [hclock]
    exact hsent
  have hread : sentAt env x = now := congrArg Prod.fst hclock
  rw [hanswer, hread]
  cases sent with
  | true =>
    rw [if_pos rfl]
    obtain ⟨_, _, _, -, hblocked, rfl⟩ := performs_perform_bind_iff.mp hrest.performs
    obtain ⟨_, _, _, _, hlit, hunblock, rfl⟩ := performs_bind_iff.mp hblocked
    obtain ⟨_, _, _, -, hlog, rfl⟩ := performs_perform_bind_iff.mp hunblock
    obtain ⟨_, hend, rfl⟩ := performs_log_bind_iff.mp hlog
    obtain ⟨rfl, rfl, -⟩ := performs_pure_iff.mp hend
    exact .of_illuminate hlit
  | false =>
    rw [if_neg Bool.false_ne_true]
    obtain ⟨rfl, rfl, -, rfl⟩ := Surroundings.runs_pure_iff.mp hrest
    refine ⟨rfl, ?_, by simp [Action.Delays], ?_⟩
    · rw [hread]
      rfl
    · rw [hanswer]

end

/-! ## on a clock -/

/-- the calls of a broadcast with a request that is sent in tick `x` -/
def moments (t : Timing) (power : UInt16) (x : Nat) (tag : UInt16) : List Moment :=
  [⟨x, .broadcast requestCode tag⟩, ⟨x, .setBlocked true⟩,
      ⟨x + t.settle.toNat, .setPower power⟩] ++
    Direction.all.flatMap (fun e =>
      [⟨t.onset x e, .emitterOn e⟩, ⟨t.onset x e + t.window.toNat, .emitterOff e⟩]) ++
    [⟨x + t.durationMs, .setBlocked false⟩]

section
variable (t : Timing) (power : UInt16)

theorem broadcast_moments (hpos : 1 ≤ t.pollStepUs.toNat) (hstep : t.pollStepUs.toNat ≤ 1000)
    {driver : Driver} (st : Station) (c : Clock) (past : List Moment)
    (sent : driver past (.broadcast requestCode (tagOf c.reading)) = true) :
    ∃ steps c', (Surroundings.ofClock driver).Runs (Acquisition.broadcast t power) st (c, past)
        steps (.ok (tagOf c.reading)) st
        (c', past ++ moments t power c.tick (tagOf c.reading)) ∧
      c'.tick = c.tick + t.durationMs := by
  obtain ⟨c', hon, hc'⟩ := broadcast_on hpos hstep driver power st c past sent
  have hend : c'.tick = c.tick + t.durationMs := by
    rw [hc']
    unfold Timing.durationMs
    omega
  obtain ⟨steps, hruns⟩ := Surroundings.runs_of_on hon
  refine ⟨steps, c', ?_, hend⟩
  rw [lights_all, hend, List.append_assoc] at hruns
  exact hruns

/-- a broadcast is known to the call and to the tick -/
structure BroadcastExactly : Prop where
  /-- with any scheduler on which every wait that it comes to ends it returns, and what it has done
  is a matter of whether the request was sent -/
  traced : ∀ {σ : Type} (env : Surroundings σ) (st : Station) (x : σ),
    env.Ends (Acquisition.broadcast t power) st x →
    ∃ steps result x', env.Runs (Acquisition.broadcast t power) st x steps result st x' ∧
      if (request env x).1 then Illumination power (sentAt env x) steps result
      else Refusal env x steps result x'
  /-- on a clock that moves with the delays alone all its waits end, and every call is in its
  tick -/
  timed : 1 ≤ t.pollStepUs.toNat → t.pollStepUs.toNat ≤ 1000 →
    ∀ (driver : Driver) (st : Station) (c : Clock) (past : List Moment),
    (request (.ofClock driver) (c, past)).1 = true →
    ∃ steps c', (Surroundings.ofClock driver).Runs (Acquisition.broadcast t power) st (c, past)
        steps (.ok (tagOf c.reading)) st
        (c', past ++ moments t power c.tick (tagOf c.reading)) ∧
      c'.tick = c.tick + t.durationMs ∧
      ∀ d, t.duration? = some d → c'.tick = c.tick + d.toNat
  /-- the time of a full cycle is computed in four steps that may overflow -/
  checked : t.duration? = (do
    let each ← Timing.add? t.window t.gap
    let lead ← Timing.add? t.settle t.powerSettle
    let windows ← Timing.mul? each 6
    Timing.add? lead windows)
  /-- and is there unless it has no 32-bit number -/
  overflows : t.duration? = none ↔ UInt32.size ≤ t.durationMs

theorem broadcast_exactly : BroadcastExactly t power where
  traced env st x ends := by
    obtain ⟨steps, result, st', x', hruns⟩ := Surroundings.ends_iff.mp ends
    obtain rfl : st' = st :=
      (broadcast_each t power).station_eq (fun _ h => h.local) hruns.performs
    exact ⟨steps, result, x', hruns, broadcast_runs hruns⟩
  timed hpos hstep driver st c past sent := by
    obtain ⟨steps, c', hruns, hend⟩ := broadcast_moments t power hpos hstep st c past sent
    refine ⟨steps, c', hruns, hend, fun d hd => ?_⟩
    rw [hend, Timing.word?_eq_some_iff.mp hd]
  checked := t.duration?_eq
  overflows := by
    unfold Timing.duration?
    by_cases hfits : t.durationMs < UInt32.size
    · rw [if_pos hfits]
      exact ⟨fun h => absurd h (Option.some_ne_none _), fun h => absurd hfits (Nat.not_lt.mpr h)⟩
    · rw [if_neg hfits]
      exact ⟨fun _ => Nat.not_lt.mp hfits, fun _ => rfl⟩

end

/-- for example, the default timetable from a moment at which the readings are about to wrap
around: the emitters are lit one by one, and reception is unblocked 188 ticks later -/
theorem broadcast_exactly_across_wrap :
    let env := Surroundings.ofClock (Simulation.Script.driver ⟨[], false, false⟩)
    ∃ steps c', env.Ends (Acquisition.broadcast .default 500) .new (⟨4294967290123⟩, []) ∧
      env.Runs (Acquisition.broadcast .default 500) .new (⟨4294967290123⟩, []) steps
        (.ok 65530) .new (c', moments .default 500 4294967290 65530) ∧
      Illumination 500 4294967290 steps (.ok 65530) ∧
      c'.tick = 4294967290 + 188 := by
  intro env
  have exactly := broadcast_exactly .default 500
  obtain ⟨steps, c', hruns, hend, -⟩ := exactly.timed (by decide) (by decide)
    (Simulation.Script.driver ⟨[], false, false⟩) .new ⟨4294967290123⟩ [] rfl
  have ends := Surroundings.ends_iff.mpr ⟨_, _, _, _, hruns⟩
  obtain ⟨_, _, _, hruns', hlit⟩ := exactly.traced env .new (⟨4294967290123⟩, []) ends
  obtain ⟨rfl, rfl, -, -⟩ := hruns.unique hruns'
  exact ⟨_, c', ends, hruns, hlit, hend⟩

end Acquisition

end RangeBearing
