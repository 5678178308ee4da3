import RangeBearing.Json.Codec
import RangeBearing.Proofs.JsonRecords

/-!
# The texts of the published types

* `Json.Codec.Reads`          which values are read as what; what is written is one of them;
* `Json.Codec.Faithful`       what follows for the texts;
* `Json.Codec.RecordTexts`    what follows for the texts of a record, `Json.Codec.StateTexts` for
                              those of a state;
* `Json.Codec.estimate_reads`, `Json.Codec.brightness_reads`, `Json.Codec.cycleState_reads`;
* `Json.Codec.texts_faithful`    the three types together.
-/

namespace RangeBearing

namespace Json

variable {α : Type} {v : Value} {vs : List Value} {ms : List Member} {cs : List Char}

/-! ## integers -/

namespace Value

theorem intIn?_eq_some_iff {lo hi i : Int} :
    v.intIn? lo hi = some i ↔ v.int? = some i ∧ lo ≤ i ∧ i ≤ hi := by
  unfold intIn?
  rw [Option.bind_eq_bind, Option.bind_eq_some_iff]
  constructor
  · rintro ⟨j, hj, h⟩
    split at h
    case isTrue hrange =>
      obtain rfl := Option.some.inj h
      exact ⟨hj, hrange⟩
    case isFalse => cases h
  · rintro ⟨hi, hrange⟩
    exact ⟨i, hi, if_pos hrange⟩

/-- no integer between two bounds -/
def Outside (lo hi : Int) (v : Value) : Prop := ∀ i, v.int? = some i → ¬ (lo ≤ i ∧ i ≤ hi)

theorem not_outside_ofInt {i lo hi : Int} (h : lo ≤ i ∧ i ≤ hi) : ¬ Outside lo hi (ofInt i) :=
  fun houtside => houtside i (int?_ofInt i) h

end Value

namespace Codec

open Value

/-- reading an integer that a type holds exactly -/
theorem map_intIn?_eq_some_iff {β : Type} (f : Int → β) (g : β → Int) {lo hi : Int} {n : β}
    (h : v.Written) (range : ∀ n, lo ≤ g n ∧ g n ≤ hi) (left : ∀ n, f (g n) = n)
    (right : ∀ i, lo ≤ i → i ≤ hi → g (f i) = i) :
    (v.intIn? lo hi).map f = some n ↔ v = ofInt (g n) := by
  rw [Option.map_eq_some_iff]
  constructor
  · rintro ⟨i, hi, rfl⟩
    obtain ⟨hint, hlo, hhi⟩ := intIn?_eq_some_iff.mp hi
    rw [right i hlo hhi]
    exact eq_ofInt h hint
  · rintro rfl
    exact ⟨g n, intIn?_eq_some_iff.mpr ⟨int?_ofInt _, range n⟩, left n⟩

theorem uint8?_eq_some_iff (h : v.Written) {n : UInt8} :
    uint8? v = some n ↔ v = ofInt n.toNat := by
  refine map_intIn?_eq_some_iff (fun i => UInt8.ofNat i.toNat) (fun n => n.toNat) h (fun n => ?_)
    (fun n => UInt8.ofNat_toNat) fun i hlo hhi => ?_
  · have hlt := n.toNat_lt
    omega
  · rw [UInt8.toNat_ofNat']
    omega

theorem uint16?_eq_some_iff (h : v.Written) {n : UInt16} :
    uint16? v = some n ↔ v = ofInt n.toNat := by
  refine map_intIn?_eq_some_iff (fun i => UInt16.ofNat i.toNat) (fun n => n.toNat) h (fun n => ?_)
    (fun n => UInt16.ofNat_toNat) fun i hlo hhi => ?_
  · have hlt := n.toNat_lt
    omega
  · rw [UInt16.toNat_ofNat']
    omega

theorem int16?_eq_some_iff (h : v.Written) {n : Int16} :
    int16? v = some n ↔ v = ofInt n.toInt := by
  refine map_intIn?_eq_some_iff .ofInt Int16.toInt h (fun n => ?_) Int16.ofInt_toInt
    fun i hlo hhi => ?_
  · have hle := n.le_toInt
    have hlt := n.toInt_lt
    omega
  · exact Int16.toInt_ofInt_of_le hlo (by omega)

theorem uint8?_ofInt (n : UInt8) : uint8? (ofInt n.toNat) = some n :=
  (uint8?_eq_some_iff (written_ofInt _)).mpr rfl

theorem uint16?_ofInt (n : UInt16) : uint16? (ofInt n.toNat) = some n :=
  (uint16?_eq_some_iff (written_ofInt _)).mpr rfl

theorem int16?_ofInt (n : Int16) : int16? (ofInt n.toInt) = some n :=
  (int16?_eq_some_iff (written_ofInt _)).mpr rfl

/-! ## codecs -/

/-- which values a codec reads, and as what -/
structure Reads (codec : Codec α) (Means : Value → α → Prop) : Prop where
  decode : ∀ {v a}, v.Written → (codec.decode v = some a ↔ Means v a)
  written : ∀ a, (codec.encode a).Written
  encode : ∀ a, Means (codec.encode a) a
  /-- no number is the value of a published type -/
  number : ∀ {ds a}, ¬ Means (.number ds) a

/-- what holds of the texts of a published type -/
structure Faithful (codec : Codec α) : Prop where
  /-- decoding undoes encoding, whatever blanks are put around the text -/
  written : ∀ a {b b'}, Blank b → Blank b' →
    codec.read? (.ofList (b ++ (codec.write a).toList ++ b')) = some a
  /-- what has been accepted is written so that it is accepted again -/
  rewritten : ∀ {t a}, codec.read? t = some a → codec.read? (codec.write a) = some a
  /-- no text is accepted in which anything but blanks stands after the value -/
  trailing : ∀ {v cs junk}, Document v cs → ¬ Blank junk →
    codec.read? (.ofList (cs ++ junk)) = none

namespace Reads

variable {codec : Codec α} {Means : Value → α → Prop} {a : α}

theorem of_document (reads : codec.Reads Means) (h : Document v cs) :
    codec.read? (.ofList cs) = some a ↔ Means v a := by
  unfold read?
  rw [String.toList_ofList, parse?_eq_some_iff.mpr h]
  exact reads.decode h.written

theorem read?_eq_some_iff (reads : codec.Reads Means) :
    codec.read? (.ofList cs) = some a ↔ ∃ v, Document v cs ∧ Means v a := by
  constructor
  · intro h
    obtain ⟨v, hparse, -⟩ := Option.bind_eq_some_iff.mp h
    rw [String.toList_ofList, parse?_eq_some_iff] at hparse
    exact ⟨v, hparse, (reads.of_document hparse).mp h⟩
  · rintro ⟨v, hv, hmeans⟩
    exact (reads.of_document hv).mpr hmeans

theorem refused (reads : codec.Reads Means) (h : Document v cs) (hnone : ∀ a, ¬ Means v a) :
    codec.read? (.ofList cs) = none := by
  rw [Option.eq_none_iff_forall_ne_some]
  exact fun a ha => hnone a ((reads.of_document h).mp ha)

theorem faithful (reads : codec.Reads Means) : codec.Faithful := by
  have written (a : α) {b b' : List Char} (hb : Blank b) (hb' : Blank b') :
      codec.read? (.ofList (b ++ (codec.write a).toList ++ b')) = some a := by
    unfold write
    rw [String.toList_ofList]
    exact (reads.of_document ((reads.written a).document hb hb')).mpr (reads.encode a)
  refine ⟨written, fun {t a} _ => ?_, fun {v cs junk} h hjunk => ?_⟩
  · have hread := written a .nil .nil
    rwa [List.nil_append, List.append_nil, String.ofList_toList] at hread
  · unfold read?
    rw [String.toList_ofList]
    cases hparse : parse? (cs ++ junk) with
    | none => rfl
    | some v' =>
      obtain ⟨ds, rfl⟩ := h.trailing hjunk hparse
      rw [Option.bind_eq_bind, Option.bind_some, Option.eq_none_iff_forall_ne_some]
      exact fun a ha => reads.number ((reads.decode (parse?_eq_some_iff.mp hparse).written).mp ha)

end Reads

/-! ## codecs of records -/

/-- what holds of the texts of a record with some fields; `faults` says what is wrong with a value
for each of them -/
structure RecordTexts (codec : Codec α) (names : List String) (values : α → List Value)
    (faults : List (Value → Prop)) : Prop where
  faithful : codec.Faithful
  /-- the texts that are accepted -/
  accepted : ∀ a {cs}, codec.read? (.ofList cs) = some a ↔
    ∃ v, Document v cs ∧ IsRecord (named names (values a)) v
  /-- the fields in any order, with members of other names in between; all names are texts -/
  members : ∀ a {ms cs}, Document (.object ms) cs → (∀ m ∈ ms, m.1.isSome) →
    (ms.filter fun m => m.1 ∈ names.map fun name => some name.toList).Perm
      (named names (values a)) → codec.read? (.ofList cs) = some a
  /-- the array of the fields in their order -/
  items : ∀ a {cs}, Document (.array (values a)) cs → codec.read? (.ofList cs) = some a
  /-- a field is missing or repeated -/
  once : ∀ {ms cs name}, Document (.object ms) cs → name ∈ names →
    (ms.filter fun m => m.1 = some name.toList).length ≠ 1 → codec.read? (.ofList cs) = none
  arity : ∀ {vs cs}, Document (.array vs) cs → vs.length ≠ names.length →
    codec.read? (.ofList cs) = none
  /-- a field has a value that it cannot hold -/
  field : ∀ {ms cs name fault v}, Document (.object ms) cs → (name, fault) ∈ names.zip faults →
    (some name.toList, v) ∈ ms → fault v → codec.read? (.ofList cs) = none
  item : ∀ {vs cs fault v}, Document (.array vs) cs → (v, fault) ∈ vs.zip faults → fault v →
    codec.read? (.ofList cs) = none

section
variable {codec : Codec α} {names : List String} {values : α → List Value}
  {faults : List (Value → Prop)}

theorem Reads.recordTexts (reads : codec.Reads fun v a => IsRecord (named names (values a)) v)
    (distinct : (names.map fun name => some name.toList).Nodup)
    (complete : ∀ a, (values a).length = names.length)
    (sound : ∀ a, ∀ p ∈ (values a).zip faults, ¬ p.2 p.1) :
    RecordTexts codec names values faults where
  faithful := reads.faithful
  accepted _ _ := reads.read?_eq_some_iff
  members a ms cs h hnames hperm := by
    refine (reads.of_document h).mpr (.of_perm hnames ?_ ?_)
    · rwa [named_names (complete a)]
    · rwa [named_names (complete a)]
  items a cs h := by
    refine (reads.of_document h).mpr ?_
    have hrecord : IsRecord (named names (values a))
        (array ((named names (values a)).map Prod.snd)) := .array
    rwa [named_values (complete a)] at hrecord
  once {ms cs name} h hname hcount := by
    refine reads.refused h fun a hrecord => hcount ?_
    have hmem : some name.toList ∈ (named names (values a)).map Prod.fst := by
      rw [named_names (complete a)]
      exact List.mem_map_of_mem hname
    obtain ⟨f, hf, hfirst⟩ := List.mem_map.mp hmem
    rw [← hfirst, hrecord.once f hf]
    rfl
  arity {vs cs} h hlength := by
    refine reads.refused h fun a hrecord => hlength ?_
    rw [hrecord.items, named_values (complete a), complete a]
  field {ms cs name fault v} h hfault hv hwrong := by
    refine reads.refused h fun a hrecord => ?_
    obtain ⟨w, hname, hvalue⟩ := exists_mem_zip hfault (complete a)
    have hfilter := hrecord.once (some name.toList, w) (List.mem_map_of_mem hname)
    have hmember : (some name.toList, v) ∈ ms.filter fun m => m.1 = some name.toList :=
      List.mem_filter.mpr ⟨hv, decide_eq_true rfl⟩
    rw [hfilter, List.mem_singleton] at hmember
    obtain rfl := (Prod.mk.inj hmember).2
    exact sound a _ hvalue hwrong
  item {vs cs fault v} h hfault hwrong := by
    refine reads.refused h fun a hrecord => ?_
    rw [hrecord.items, named_values (complete a)] at hfault
    exact sound a _ hfault hwrong

end

/-! ## estimates -/

/-- the values of the fields of an estimate -/
def estimateValues (e : Estimate) : List Value :=
  [.ofInt e.source.toNat, .ofInt e.rangeMm.toNat, .ofInt e.bearingDeg.toInt,
    .ofInt e.headingDeg.toInt, .ofInt e.confidence.toNat]

/-- what is wrong with a value for each field -/
def estimateFaults : List (Value → Prop) :=
  [Outside 0 0xffff, Outside 0 0xffff, Outside (-0x8000) 0x7fff, Outside (-0x8000) 0x7fff,
    Outside 0 0xff]

theorem nodup_estimateFields : (estimateFields.map fun name => some name.toList).Nodup := by
  decide

theorem estimateValues_sound (e : Estimate) :
    ∀ p ∈ (estimateValues e).zip estimateFaults, ¬ p.2 p.1 := by
  have hsource := e.source.toNat_lt
  have hrange := e.rangeMm.toNat_lt
  have hbearing := And.intro e.bearingDeg.le_toInt e.bearingDeg.toInt_lt
  have hheading := And.intro e.headingDeg.le_toInt e.headingDeg.toInt_lt
  have hconfidence := e.confidence.toNat_lt
  intro p hp
  simp only [estimateValues, estimateFaults, List.zip_cons_cons, List.zip_nil_left,
    List.mem_cons, List.not_mem_nil, or_false] at hp
  rcases hp with rfl | rfl | rfl | rfl | rfl
  all_goals exact not_outside_ofInt (by omega)

theorem estimate_decode {e : Estimate} (h : v.Written) :
    estimate.decode v = some e ↔ IsRecord (named estimateFields (estimateValues e)) v := by
  show (v.fields? estimateFields >>= _) = some e ↔ _
  rw [Option.bind_eq_bind, Option.bind_eq_some_iff]
  constructor
  · rintro ⟨vs, hfields, hvalues⟩
    obtain ⟨hlength, hrecord⟩ := fields?_eq_some_iff.mp hfields
    have hwritten := hrecord.written_values h hlength
    split at hvalues
    case h_1 source rangeMm bearingDeg headingDeg confidence =>
      simp only [Option.bind_eq_bind, Option.bind_eq_some_iff] at hvalues
      obtain ⟨n, hsource, r, hrange, b, hbearing, d, hheading, c, hconfidence, he⟩ := hvalues
      obtain rfl := Option.some.inj he
      rw [uint16?_eq_some_iff (hwritten _ (by simp))] at hsource hrange
      rw [int16?_eq_some_iff (hwritten _ (by simp))] at hbearing hheading
      rw [uint8?_eq_some_iff (hwritten _ (by simp))] at hconfidence
      rw [hsource, hrange, hbearing, hheading, hconfidence] at hrecord
      exact hrecord
    case h_2 => cases hvalues
  · intro hrecord
    refine ⟨_, fields?_eq_some_iff.mpr ⟨rfl, hrecord⟩, ?_⟩
    simp [estimateValues, uint16?_ofInt, int16?_ofInt, uint8?_ofInt]

theorem estimate_reads :
    estimate.Reads fun v e => IsRecord (named estimateFields (estimateValues e)) v where
  decode := estimate_decode
  written e := by
    refine written_named fun v hv => ?_
    simp only [List.mem_cons, List.not_mem_nil, or_false] at hv
    rcases hv with rfl | rfl | rfl | rfl | rfl <;> exact written_ofInt _
  encode e := .of_named nodup_estimateFields
  number := nofun

theorem estimate_texts :
    RecordTexts estimate estimateFields estimateValues estimateFaults :=
  estimate_reads.recordTexts nodup_estimateFields (fun _ => rfl) estimateValues_sound

example : estimate.read? ("\x7b\"heading_deg\":180, \"x\" : null, \"bearing_deg\":-30 ,"
    ++ "\"source_id\":1,\"range_mm\":100,\"confidence\":255\x7d") =
      some ⟨1, 100, -30, 180, 255⟩ := by
  decide +kernel

/-! ## matrices -/

def rowValue (row : Row Int16) : Value := .array (row.toList.map fun x => .ofInt x.toInt)

def cellsValue (m : Brightness) : Value := .array (m.rows.toList.map rowValue)

/-- not six rows of six readings -/
inductive Ragged : Value → Prop
  | rows {rows : List Value} : rows.length ≠ 6 → Ragged (.array rows)
  | row {rows row : List Value} : .array row ∈ rows → row.length ≠ 6 → Ragged (.array rows)
  | reading {rows row : List Value} {v : Value} : .array row ∈ rows → v ∈ row →
      Outside (-0x8000) 0x7fff v → Ragged (.array rows)

theorem not_ragged (m : Brightness) : ¬ Ragged (cellsValue m) := by
  intro h
  cases h with
  | rows hlength => exact hlength (by rw [List.length_map, Vector.length_toList])
  | row hrow hlength =>
    obtain ⟨row, -, hvalue⟩ := List.mem_map.mp hrow
    obtain rfl := array.inj hvalue
    exact hlength (by rw [List.length_map, Vector.length_toList])
  | reading hrow hv houtside =>
    obtain ⟨row, -, hvalue⟩ := List.mem_map.mp hrow
    obtain rfl := array.inj hvalue
    obtain ⟨x, -, rfl⟩ := List.mem_map.mp hv
    have hle := x.le_toInt
    have hlt := x.toInt_lt
    exact not_outside_ofInt (by omega) houtside

theorem six?_eq_some_iff {β : Type} {f : Value → Option β} {enc : β → Value} {t : Table β}
    (hf : ∀ {w b}, w.Written → (f w = some b ↔ w = enc b)) (h : v.Written) :
    six? f v = some t ↔ v = .array (t.toList.map enc) := by
  unfold six?
  rw [Option.bind_eq_bind, Option.bind_eq_some_iff]
  simp only [items?_eq_some_iff]
  constructor
  · rintro ⟨ws, ⟨rfl, -⟩, hread⟩
    obtain ⟨bs, hbs, ht⟩ := Option.bind_eq_some_iff.mp hread
    split at ht
    case isTrue hlength =>
      obtain rfl := Option.some.inj ht
      have hws := written_array_iff.mp h
      exact congrArg array ((mapM_eq_some_iff_map fun w hw b => hf (hws w hw)).mp hbs)
    case isFalse => cases ht
  · rintro rfl
    have hlength : t.toList.length = 6 := t.length_toList
    have hws := written_array_iff.mp h
    have hread := (mapM_eq_some_iff_map fun w hw b => hf (hws w hw)).mpr rfl
    refine ⟨_, ⟨rfl, by rw [List.length_map, hlength]⟩, ?_⟩
    show (List.mapM f _).bind _ = _
    rw [hread]
    exact dif_pos hlength

theorem written_rowValue (row : Row Int16) : (rowValue row).Written :=
  written_array (List.forall_mem_map.mpr fun _ _ => written_ofInt _)

theorem written_cellsValue (m : Brightness) : (cellsValue m).Written :=
  written_array (List.forall_mem_map.mpr fun _ _ => written_rowValue _)

theorem six?_int16?_eq_some_iff {row : Row Int16} (h : v.Written) :
    six? int16? v = some row ↔ v = rowValue row :=
  six?_eq_some_iff (fun hw => int16?_eq_some_iff hw) h

theorem brightness_decode {m : Brightness} (h : v.Written) :
    brightness.decode v = some m ↔ IsRecord (named ["cells"] [cellsValue m]) v := by
  show (v.fields? ["cells"] >>= _) = some m ↔ _
  rw [Option.bind_eq_bind, Option.bind_eq_some_iff]
  constructor
  · rintro ⟨vs, hfields, hvalues⟩
    obtain ⟨hlength, hrecord⟩ := fields?_eq_some_iff.mp hfields
    have hwritten := hrecord.written_values h hlength
    split at hvalues
    case h_1 cells =>
      obtain ⟨rows, hcells, hm⟩ := Option.bind_eq_some_iff.mp hvalues
      obtain rfl := Option.some.inj hm
      rw [six?_eq_some_iff six?_int16?_eq_some_iff (hwritten _ (by simp))] at hcells
      rw [hcells] at hrecord
      exact hrecord
    case h_2 => cases hvalues
  · intro hrecord
    refine ⟨_, fields?_eq_some_iff.mpr ⟨rfl, hrecord⟩, ?_⟩
    have hcells := (six?_eq_some_iff six?_int16?_eq_some_iff (written_cellsValue m)).mpr rfl
    simp [hcells]

theorem brightness_reads :
    brightness.Reads fun v m => IsRecord (named ["cells"] [cellsValue m]) v where
  decode := brightness_decode
  written m := by
    have hwritten : (object (named ["cells"] [cellsValue m])).Written :=
      written_named (List.forall_mem_singleton.mpr (written_cellsValue m))
    exact hwritten
  encode _ := .of_named (List.pairwise_singleton _ _)
  number := nofun

theorem brightness_texts :
    RecordTexts brightness ["cells"] (fun m => [cellsValue m]) [Ragged] :=
  brightness_reads.recordTexts (List.pairwise_singleton _ _) (fun _ => rfl) fun m =>
    List.forall_mem_singleton.mpr (not_ragged m)

/-! ## states -/

/-- the values of a state -/
inductive IsState (s : CycleState) : Value → Prop
  | name : IsState s (.ofString s.name)
  /-- the only member has the name and no value -/
  | member : IsState s (.object [(some s.name.toList, .null)])

theorem state?_eq_some_iff {k : Option (List Char)} {s : CycleState} :
    state? k = some s ↔ k = some s.name.toList := by
  unfold state?
  rw [Option.bind_eq_some_iff]
  constructor
  · rintro ⟨cs, rfl, hname⟩
    unfold CycleState.ofName? at hname
    have hcs := List.find?_some hname
    rw [eq_of_beq hcs, String.toList_ofList]
  · rintro rfl
    refine ⟨_, rfl, ?_⟩
    rw [String.ofList_toList]
    exact CycleState.ofName?_name s

theorem cycleState_decode {s : CycleState} : cycleState.decode v = some s ↔ IsState s v := by
  constructor
  · intro h
    unfold cycleState at h
    simp only at h
    split at h
    case h_1 =>
      rw [state?_eq_some_iff.mp h]
      exact .name
    case h_2 =>
      rw [state?_eq_some_iff.mp h]
      exact .member
    case h_3 => cases h
  · rintro (_ | _)
    · exact state?_eq_some_iff.mpr rfl
    · exact state?_eq_some_iff.mpr rfl

theorem cycleState_reads : cycleState.Reads fun v s => IsState s v where
  decode _ := cycleState_decode
  written _ := written_string _
  encode _ := .name
  number := nofun

/-- what holds of the texts of a state -/
structure StateTexts : Prop where
  faithful : cycleState.Faithful
  /-- the texts that are accepted -/
  accepted : ∀ s {cs}, cycleState.read? (.ofList cs) = some s ↔ ∃ v, Document v cs ∧ IsState s v
  /-- an object has one member -/
  once : ∀ {ms cs}, Document (.object ms) cs → ms.length ≠ 1 →
    cycleState.read? (.ofList cs) = none

theorem state_texts : StateTexts where
  faithful := cycleState_reads.faithful
  accepted _ _ := cycleState_reads.read?_eq_some_iff
  once h hlength := by
    refine cycleState_reads.refused h fun s hstate => hlength ?_
    cases hstate
    rfl

/-! ## all types -/

/-- for each of the three types decoding undoes encoding, and no text is accepted that does not say
what the type holds -/
theorem texts_faithful :
    RecordTexts estimate estimateFields estimateValues estimateFaults ∧
      RecordTexts brightness ["cells"] (fun m => [cellsValue m]) [Ragged] ∧ StateTexts :=
  ⟨estimate_texts, brightness_texts, state_texts⟩

end Codec

end Json

end RangeBearing
