import Mathlib.Data.List.Basic
import RangeBearing.Proofs.CallsAlone

/-!
# What a receiver has read

The sensors are read six times in a collection, once for each emitter, and the rows that were read
are the rows of the matrix that is stored.  Any six rows can be read, and a call that needs neither
the transceiver nor the scheduler always returns.

* `readings`                        the rows that were read, in their order;
* `Acquisition.receive_readings`, `Acquisition.receive_reads`   the matrix of a receiver;
* `Controller.collect_readings`, `Controller.collect_reads`     that of a collection;
* `Controller.serve_readings`, `Controller.serve_reads`         that of a request served whole;
* `Program.Each.completes`          a program of sections and diagnostics returns.
-/

namespace RangeBearing

open Program

namespace Step

/-- the row that a step has read -/
def row? : Step → Option (Row Int16)
  | ⟨.radio .readSensors, row⟩ => some row
  | _ => none

end Step

/-- the rows that were read, in their order -/
def readings (steps : List Step) : List (Row Int16) := steps.filterMap Step.row?

theorem readings_append (first second : List Step) :
    readings (first ++ second) = readings first ++ readings second := List.filterMap_append

section
variable {α β : Type} {st st' : Station} {steps : List Step} {b : β}

theorem readings_perform_bind {action : Action} {f : action.Answer → Program β}
    (h : (perform action >>= f).Performs st steps b st') :
    ∃ answer st₁ rest, (f answer).Performs st₁ rest b st' ∧
      readings steps = readings [⟨action, answer⟩] ++ readings rest := by
  obtain ⟨answer, st₁, rest, -, h, hsteps⟩ := performs_perform_bind_iff.mp h
  exact ⟨answer, st₁, rest, h, by rw [hsteps, ← readings_append, List.singleton_append]⟩

theorem readings_bind {p : Program α} {f : α → Program β}
    (h : (p >>= f).Performs st steps b st') :
    ∃ first a st₁ second, p.Performs st first a st₁ ∧ (f a).Performs st₁ second b st' ∧
      readings steps = readings first ++ readings second := by
  obtain ⟨first, a, st₁, second, hp, hf, hsteps⟩ := performs_bind_iff.mp h
  exact ⟨first, a, st₁, second, hp, hf, by rw [hsteps, readings_append]⟩

end

namespace Action

/-- a step that reads no sensor -/
def Blind : Action → Prop
  | radio .readSensors => False
  | _ => True

theorem Blind.row? {step : Step} (h : step.action.Blind) : step.row? = none := by
  obtain ⟨action, answer⟩ := step
  cases action with
  | radio r =>
    cases r with
    | readSensors => exact False.elim h
    | _ => rfl
  | _ => rfl

variable {action : Action}

theorem blind_of_not_local (h : ¬ action.Local) : action.Blind := by
  obtain ⟨s, rfl⟩ := exists_shared h
  exact trivial

theorem Quiet.blind (h : action.Quiet) : action.Blind := by
  cases action with
  | radio r => exact False.elim h
  | _ => exact trivial

theorem Estimates.quiet (h : action.Estimates) : action.Quiet := by
  cases action with
  | shared s => exact trivial
  | log d => exact trivial
  | _ => exact False.elim h

end Action

theorem Acquisition.Lighting.blind {action : Action} (h : Lighting action) : action.Blind := by
  cases action with
  | radio r =>
    cases r with
    | readSensors => exact False.elim h
    | _ => exact trivial
  | _ => exact trivial

theorem readings_of_blind {steps : List Step} (h : ∀ s ∈ steps, s.action.Blind) :
    readings steps = [] := by
  unfold readings
  rw [List.filterMap_eq_nil_iff]
  intro s hs
  exact (h s hs).row?

/-! ## calls that need neither the transceiver nor the scheduler -/

namespace Program.Each

variable {α : Type} {p : Program α}

/-- nothing outside has to answer, so the program returns -/
theorem completes (hp : p.Each Action.Quiet) (st : Station) :
    ∃ steps a st', p.Performs st steps a st' := by
  induction p generalizing st with
  | done a => exact ⟨[], a, st, .done a st⟩
  | act action next ih =>
    obtain ⟨hquiet, hnext⟩ := hp
    cases action with
    | shared s =>
      obtain ⟨steps, a, st', h⟩ := ih (s.run st).1 (hnext _) (s.run st).2
      exact ⟨_, a, st', .act rfl h⟩
    | log d =>
      obtain ⟨steps, a, st', h⟩ := ih () (hnext ()) st
      exact ⟨_, a, st', .act rfl h⟩
    | _ => exact False.elim hquiet

end Program.Each

/-! ## acquisitions -/

namespace Acquisition

variable {t : Timing} {st st' : Station} {steps : List Step} {m m' : Brightness}

def replaceRows (rows : Table (Row Int16)) (ds : List Direction) (m : Brightness) : Brightness :=
  ds.foldl (fun m d => m.setRow d (rows.entry d)) m

theorem replaceRows_cons (rows : Table (Row Int16)) (d : Direction) (ds : List Direction)
    (m : Brightness) :
    replaceRows rows (d :: ds) m = replaceRows rows ds (m.setRow d (rows.entry d)) := rfl

theorem entry_replaceRows_of_not_mem (rows : Table (Row Int16)) {ds : List Direction}
    (m : Brightness) {e : Direction} (he : e ∉ ds) :
    (replaceRows rows ds m).rows.entry e = m.rows.entry e := by
  induction ds generalizing m with
  | nil => rfl
  | cons d ds ih =>
    obtain ⟨hd, hds⟩ := not_or.mp (mt List.mem_cons.mpr he)
    rw [replaceRows_cons, ih _ hds]
    unfold Grid.setRow
    rw [Table.entry_update, if_neg (Ne.symm hd)]

theorem entry_replaceRows (rows : Table (Row Int16)) {ds : List Direction} (m : Brightness)
    {e : Direction} (he : e ∈ ds) :
    (replaceRows rows ds m).rows.entry e = rows.entry e := by
  induction ds generalizing m with
  | nil => exact absurd he List.not_mem_nil
  | cons d ds ih =>
    rw [replaceRows_cons]
    by_cases hds : e ∈ ds
    · exact ih _ hds
    · obtain rfl := (List.mem_cons.mp he).resolve_right hds
      rw [entry_replaceRows_of_not_mem rows _ hds]
      unfold Grid.setRow
      rw [Table.entry_update, if_pos rfl]

theorem replaceRows_all (rows : Table (Row Int16)) (m : Brightness) :
    replaceRows rows Direction.all m = ⟨rows⟩ := by
  apply Grid.ext_get
  intro e s
  unfold Grid.get
  rw [entry_replaceRows rows m (Direction.mem_all e)]

theorem readWindow_readings {e : Direction} (h : (readWindow t m e).Performs st steps m' st') :
    ∃ row, readings steps = [row] ∧ m' = m.setRow e row := by
  obtain ⟨_, _, _, h, hnow⟩ := readings_perform_bind h
  obtain ⟨_, _, _, h, hbefore⟩ := readings_perform_bind h
  obtain ⟨row, _, _, h, hrow⟩ := readings_perform_bind h
  obtain ⟨_, _, _, h, hafter⟩ := readings_perform_bind h
  obtain ⟨_, _, _, h, hgap⟩ := readings_perform_bind h
  obtain ⟨hend, hm, -⟩ := performs_pure_iff.mp h
  refine ⟨row, ?_, hm⟩
  rw [hnow, hbefore, hrow, hafter, hgap, hend]
  rfl

theorem readWindow_reads (t : Timing) (m : Brightness) (e : Direction) (row : Row Int16)
    (st : Station) :
    ∃ steps, (readWindow t m e).Performs st steps (m.setRow e row) st ∧ readings steps = [row] := by
  refine ⟨[⟨.readClock, (0 : UInt32)⟩, ⟨.wait 0 t.readOffset t.pollStepUs, ()⟩,
    ⟨.radio .readSensors, row⟩, ⟨.wait 0 t.window t.pollStepUs, ()⟩, ⟨.pause t.gap, ()⟩], ?_, rfl⟩
  exact .act rfl (.act rfl (.act rfl (.act rfl (.act rfl (.done _ _)))))

/-- the windows of different emitters fill different rows, each with what was read in it -/
theorem readWindows_readings {ds : List Direction} (hds : ds.Nodup)
    (h : (ds.foldlM (readWindow t) m).Performs st steps m' st') :
    ∃ rows : Table (Row Int16), readings steps = ds.map rows.entry ∧
      m' = replaceRows rows ds m := by
  induction ds generalizing m st steps with
  | nil =>
    obtain ⟨rfl, rfl, -⟩ := performs_pure_iff.mp h
    exact ⟨.replicate 6 (.replicate 6 0), rfl, rfl⟩
  | cons d ds ih =>
    obtain ⟨hnew, hrest⟩ := List.nodup_cons.mp hds
    rw [List.foldlM_cons] at h
    obtain ⟨first, m₁, st₁, second, hfirst, h, rfl⟩ := performs_bind_iff.mp h
    obtain ⟨row, hrow, rfl⟩ := readWindow_readings hfirst
    obtain ⟨rows, hrows, rfl⟩ := ih hrest h
    -- the later windows leave the row of `d` alone
    have hentry : ∀ e ∈ ds, (rows.update d row).entry e = rows.entry e := by
      intro e he
      have hne : d ≠ e := by
        rintro rfl
        exact hnew he
      rw [Table.entry_update, if_neg hne]
    have hd : (rows.update d row).entry d = row := by
      rw [Table.entry_update, if_pos rfl]
    refine ⟨rows.update d row, ?_, ?_⟩
    · rw [readings_append, hrow, hrows, List.map_cons, hd, List.map_congr_left hentry]
      rfl
    · unfold replaceRows
      rw [List.foldl_cons, hd]
      exact (List.foldl_ext _ _ _ fun m e he => by rw [hentry e he]).symm

theorem readWindows_reads (t : Timing) (rows : Table (Row Int16)) (ds : List Direction)
    (m : Brightness) (st : Station) :
    ∃ steps, (ds.foldlM (readWindow t) m).Performs st steps (replaceRows rows ds m) st ∧
      readings steps = ds.map rows.entry := by
  induction ds generalizing m with
  | nil => exact ⟨[], .done _ _, rfl⟩
  | cons d ds ih =>
    obtain ⟨first, hfirst, hrow⟩ := readWindow_reads t m d (rows.entry d) st
    obtain ⟨second, hsecond, hrows⟩ := ih (m.setRow d (rows.entry d))
    refine ⟨first ++ second, ?_, ?_⟩
    · rw [List.foldlM_cons]
      exact hfirst.bind hsecond
    · rw [readings_append, hrow, hrows]
      rfl

/-- a receiver gives back the matrix of the six rows that it has read -/
theorem receive_readings {arrival : UInt32} (h : (receive t arrival).Performs st steps m st') :
    readings steps = m.rows.toList := by
  obtain ⟨_, _, _, h, hsettled⟩ := readings_perform_bind h
  obtain ⟨_, _, _, h, henter⟩ := readings_perform_bind h
  obtain ⟨_, _, _, _, hsampled, h, hsplit⟩ := readings_bind h
  obtain ⟨_, _, _, h, hleave⟩ := readings_perform_bind h
  obtain ⟨hend, rfl, -⟩ := performs_pure_iff.mp h
  obtain ⟨_, _, _, h, hnow⟩ := readings_perform_bind hsampled
  obtain ⟨_, _, _, h, hpower⟩ := readings_perform_bind h
  obtain ⟨rows, hrows, rfl⟩ := readWindows_readings Direction.nodup_all h
  rw [hsettled, henter, hsplit, hnow, hpower, hrows, hleave, hend, Table.map_entry_all,
    replaceRows_all]
  exact List.append_nil _

/-- a receiver reads any six rows -/
theorem receive_reads (t : Timing) (arrival : UInt32) (rows : Table (Row Int16)) (st : Station) :
    ∃ steps, (receive t arrival).Performs st steps ⟨rows⟩ st ∧ readings steps = rows.toList := by
  obtain ⟨steps, hsteps, hrows⟩ := readWindows_reads t rows Direction.all .dark st
  rw [replaceRows_all] at hsteps
  rw [Table.map_entry_all] at hrows
  have hpower : (readClock >>= fun now => wait now t.powerSettle t.pollStepUs >>= fun _ =>
      Direction.all.foldlM (readWindow t) .dark).Performs st
      (⟨.readClock, (0 : UInt32)⟩ :: ⟨.wait 0 t.powerSettle t.pollStepUs, ()⟩ :: steps) ⟨rows⟩ st :=
    .act rfl (.act rfl hsteps)
  have hleave : (perform .leaveCritical >>= fun _ => pure (⟨rows⟩ : Brightness)).Performs st
      [⟨.leaveCritical, ()⟩] ⟨rows⟩ st := .act rfl (.done _ _)
  refine ⟨⟨.wait arrival t.arrivalSettle t.pollStepUs, ()⟩ :: ⟨.enterCritical, ()⟩ ::
    ((⟨.readClock, (0 : UInt32)⟩ :: ⟨.wait 0 t.powerSettle t.pollStepUs, ()⟩ :: steps) ++
      [⟨.leaveCritical, ()⟩]), .act rfl (.act rfl (hpower.bind hleave)), ?_⟩
  show readings (steps ++ [⟨.leaveCritical, ()⟩]) = rows.toList
  rw [readings_append, hrows]
  exact List.append_nil _

end Acquisition

/-! ## the calls of a receiver -/

namespace Controller

variable {c : Config} {st st' : Station} {steps : List Step} {request : Request}

theorem use_quiet (c : Config) : (use c).Each Action.Quiet := by
  rw [use_eq]
  refine (Each.perform trivial).bind fun slot => ?_
  cases slot.requestIn .estimating with
  | error fault => exact Each.pure _
  | ok request =>
    refine (Each.perform trivial).bind fun taken => ?_
    refine ((estimate_each c request taken).mono fun _ h => h.quiet).bind fun result => ?_
    exact (Each.perform trivial).bind fun _ => (Each.perform trivial).bind fun _ => Each.pure _

theorem accept_readings {result : Except Fault Unit}
    (h : (accept request).Performs st steps result st') : readings steps = [] :=
  readings_of_blind (((accept_quiet request).mono fun _ h => h.blind).steps h)

theorem use_readings {result : Except Fault Estimate}
    (h : (use c).Performs st steps result st') : readings steps = [] :=
  readings_of_blind (((use_quiet c).mono fun _ h => h.blind).steps h)

theorem broadcast_readings {result : Except Fault UInt16}
    (h : (broadcast c).Performs st steps result st') : readings steps = [] := by
  refine readings_of_blind (Each.steps ?_ h)
  refine (Each.perform trivial).bind fun entered => ?_
  cases entered with
  | error fault => exact Each.pure _
  | ok u =>
    have hlight := (Acquisition.broadcast_each c.timing c.power).mono fun _ h => h.blind
    refine hlight.bind fun result => ?_
    cases result with
    | ok tag => exact (Each.perform trivial).bind fun _ => Each.pure _
    | error fault =>
      exact (Each.perform trivial).bind fun _ => (Each.perform trivial).bind fun _ => Each.pure _

/-- a collection stores the matrix of the six rows that it has read -/
theorem collect_readings (h : (collect c).Performs st steps (.ok ()) st') :
    readings steps = st'.store.matrix.rows.toList := by
  obtain ⟨_, hcollect, hsteps⟩ := performs_shared_bind_iff.mp h
  simp only [Section.run] at hcollect
  rcases st.slot.requestIn_cases .acquiring with ⟨request, hslot, hdue⟩ | ⟨-, hdue⟩
  · rw [hdue] at hcollect
    obtain ⟨received, m, st₁, rest, hreceive, hput, hrest⟩ := performs_bind_iff.mp hcollect
    obtain ⟨_, hproceed, hlast⟩ := performs_shared_bind_iff.mp hput
    obtain ⟨hend, -, hst'⟩ := performs_shared_iff.mp hproceed
    have hst₁ : st₁ = st := (Acquisition.receive_each c.timing request.arrival).station_eq
      (fun _ h => h.local) hreceive
    simp only [Section.run, hst₁, hslot, if_true] at hst'
    rw [hsteps, hrest, hlast, hend, hst']
    show readings (received ++ _) = m.rows.toList
    rw [readings_append, Acquisition.receive_readings hreceive]
    exact List.append_nil _
  · rw [hdue] at hcollect
    obtain ⟨-, hresult, -⟩ := performs_pure_iff.mp hcollect
    cases hresult

theorem collect_reads (c : Config) (hslot : st.slot = ⟨.acquiring, some request⟩)
    (rows : Table (Row Int16)) :
    ∃ steps, (collect c).Performs st steps (.ok ())
        { st with slot := ⟨.estimating, some request⟩, store := ⟨⟨rows⟩, true⟩ } ∧
      readings steps = rows.toList := by
  obtain ⟨received, hreceive, hrows⟩ :=
    Acquisition.receive_reads c.timing request.arrival rows st
  have hdue : st.slot.requestIn .acquiring = .ok request := CycleSlot.requestIn_eq_ok.mpr hslot
  have hput : (putMatrix ⟨rows⟩ >>= fun _ => proceed .acquiring .estimating).Performs st
      [⟨.shared (.putMatrix ⟨rows⟩), ()⟩, ⟨.shared (.proceed .acquiring .estimating), .ok ()⟩]
      (.ok ()) { st with slot := ⟨.estimating, some request⟩, store := ⟨⟨rows⟩, true⟩ } := by
    refine .act rfl (.act ?_ (.done _ _))
    show (Section.proceed .acquiring .estimating).run _ = _
    simp only [Section.run, hslot, if_true]
    rfl
  have hcollect : (collect c).Performs st (⟨.shared .readSlot, st.slot⟩ :: (received ++
      [⟨.shared (.putMatrix ⟨rows⟩), ()⟩, ⟨.shared (.proceed .acquiring .estimating), .ok ()⟩]))
      (.ok ()) { st with slot := ⟨.estimating, some request⟩, store := ⟨⟨rows⟩, true⟩ } := by
    refine performs_shared_bind_iff.mpr ⟨_, ?_, rfl⟩
    simp only [Section.run]
    rw [hdue]
    exact hreceive.bind hput
  refine ⟨_, hcollect, ?_⟩
  show readings (received ++ _) = rows.toList
  rw [readings_append, hrows]
  exact List.append_nil _

theorem use_matrix {result : Except Fault Estimate} (h : (use c).Performs st steps result st') :
    st'.store.matrix = st.store.matrix := by
  rcases use_performs h with ⟨_, _, -, hservice, -⟩ | ⟨-, -, rfl, -⟩
  · rcases serviceOf_performs hservice with ⟨-, -, rfl⟩ | ⟨-, -, rfl⟩
    · rfl
    · rfl
  · rfl

theorem serve_readings {result : Except Fault Estimate} (idle : st.slot.state = .idle)
    (h : (serve c request).Performs st steps result st') :
    readings steps = st'.store.matrix.rows.toList := by
  obtain ⟨first, accepted, st₁, rest, haccept, hserve, hsteps⟩ := performs_bind_iff.mp h
  rcases accept_performs haccept with ⟨-, rfl, hst₁⟩ | ⟨busy, -⟩
  · obtain ⟨second, collected, st₂, third, hcollect, huse, hrest⟩ := performs_bind_iff.mp hserve
    have hslot : st₁.slot = ⟨.acquiring, some request⟩ := by rw [hst₁]
    rcases collect_performs hcollect with ⟨_, m, -, rfl, hst₂, -⟩ | ⟨hslot', -⟩
    · have hfirst := accept_readings haccept
      have hthird := use_readings huse
      have hmatrix : st'.store.matrix = st₂.store.matrix := use_matrix huse
      rw [hsteps, hrest, readings_append, readings_append, hfirst, hthird,
        collect_readings hcollect, hmatrix]
      exact List.append_nil _
    · exact absurd hslot (hslot' request)
  · exact absurd idle busy

/-- on an idle station a request can be accepted, any six rows read for it, and their matrix
used -/
theorem calls_read (c : Config) (request : Request) (idle : st.slot.state = .idle)
    (rows : Table (Row Int16)) : ∃ first second third st₁ st₂ result st',
      (accept request).Performs st first (.ok ()) st₁ ∧
      (collect c).Performs st₁ second (.ok ()) st₂ ∧ readings second = rows.toList ∧
      (use c).Performs st₂ third result st' := by
  have haccept := accept_of_idle idle request
  have hslot : ({ st with slot := ⟨.acquiring, some request⟩, store := st.store.drop } :
      Station).slot = ⟨.acquiring, some request⟩ := rfl
  obtain ⟨second, hcollect, hrows⟩ := collect_reads c hslot rows
  obtain ⟨third, result, st', huse⟩ := (use_quiet c).completes
    { st with slot := ⟨.estimating, some request⟩, store := ⟨⟨rows⟩, true⟩ }
  exact ⟨_, second, third, _, _, result, st', haccept, hcollect, hrows, huse⟩

theorem serve_reads (c : Config) (request : Request) (idle : st.slot.state = .idle)
    (rows : Table (Row Int16)) :
    ∃ steps result st', (serve c request).Performs st steps result st' ∧
      readings steps = rows.toList := by
  obtain ⟨_, _, _, _, _, result, st', haccept, hcollect, hrows, huse⟩ :=
    calls_read c request idle rows
  refine ⟨_, result, st', haccept.bind (hcollect.bind huse), ?_⟩
  rw [readings_append, readings_append, accept_readings haccept, hrows, use_readings huse,
    List.append_nil, List.nil_append]

end Controller

end RangeBearing
