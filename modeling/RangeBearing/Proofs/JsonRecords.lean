import Mathlib.Data.List.Forall2
import Mathlib.Data.List.Perm.Basic
import RangeBearing.Proofs.CompactTexts

/-!
# Records in JSON

A record is read from an object in which each of its fields occurs once, wherever it stands and
whatever other members there are, and from the array of its fields in their order.

* `Json.IsRecord`                       the values of a record;
* `Json.Value.fields?_eq_some_iff`      which are just those that are read as it;
* `Json.IsRecord.of_perm`               an object with the fields in any order.
-/

namespace RangeBearing

namespace Json

variable {v : Value} {vs : List Value} {ms fields : List Member}

/-! ## values read one by one -/

theorem mapM_eq_some_iff {α β : Type} {f : α → Option β} {as : List α} {bs : List β} :
    as.mapM f = some bs ↔ List.Forall₂ (fun a b => f a = some b) as bs := by
  induction as generalizing bs with
  | nil =>
    rw [List.forall₂_nil_left_iff]
    exact ⟨fun h => (Option.some.inj h).symm, fun h => congrArg some h.symm⟩
  | cons a as ih =>
    rw [List.mapM_cons, List.forall₂_cons_left_iff]
    constructor
    · intro h
      obtain ⟨b, hb, h⟩ := Option.bind_eq_some_iff.mp h
      obtain ⟨bs', hbs, h⟩ := Option.bind_eq_some_iff.mp h
      exact ⟨b, bs', hb, ih.mp hbs, (Option.some.inj h).symm⟩
    · rintro ⟨b, bs', hb, hbs, rfl⟩
      rw [hb, ih.mpr hbs]
      rfl

/-- the values that are read as `bs` are no others than those which `enc` gives -/
theorem mapM_eq_some_iff_map {α β : Type} {f : α → Option β} {enc : β → α} {as : List α}
    {bs : List β} (h : ∀ a ∈ as, ∀ b, f a = some b ↔ a = enc b) :
    as.mapM f = some bs ↔ as = bs.map enc := by
  have heq : List.Forall₂ (fun a b => a = enc b) as bs ↔ as = bs.map enc := by
    rw [← List.forall₂_map_right_iff, List.forall₂_eq_eq_eq]
  rw [← heq, mapM_eq_some_iff, List.forall₂_iff_zip, List.forall₂_iff_zip]
  refine and_congr_right fun _ => forall₂_congr fun a b => ?_
  exact imp_congr_right fun hab => h a (List.of_mem_zip hab).1 b

theorem Value.items?_eq_some_iff {n : Nat} :
    v.items? n = some vs ↔ v = .array vs ∧ vs.length = n := by
  unfold items?
  split
  case h_1 items =>
    rw [Option.ite_none_right_eq_some, Option.some_inj, array.injEq]
    constructor
    · rintro ⟨hlength, rfl⟩
      exact ⟨rfl, hlength⟩
    · rintro ⟨rfl, hlength⟩
      exact ⟨hlength, rfl⟩
  case h_2 hother =>
    constructor
    · exact nofun
    · rintro ⟨rfl, -⟩
      exact absurd rfl (hother vs)

/-- what is paired with the same item as another one -/
theorem exists_mem_zip {α β γ : Type} {as : List α} {bs : List β} {cs : List γ} {a : α} {c : γ}
    (h : (a, c) ∈ as.zip cs) (hlength : bs.length = as.length) :
    ∃ b, (a, b) ∈ as.zip bs ∧ (b, c) ∈ bs.zip cs := by
  obtain ⟨i, hi, hpair⟩ := List.mem_iff_getElem.mp h
  rw [List.length_zip] at hi
  rw [List.getElem_zip] at hpair
  obtain ⟨rfl, rfl⟩ := Prod.mk.inj hpair
  refine ⟨bs[i], List.mem_iff_getElem.mpr ⟨i, ?_, List.getElem_zip⟩,
    List.mem_iff_getElem.mpr ⟨i, ?_, List.getElem_zip⟩⟩
  all_goals
    rw [List.length_zip]
    omega

/-! ## records -/

/-- a value of the record with some fields -/
inductive IsRecord (fields : List Member) : Value → Prop
  /-- each field is the only member with its name; all names are texts -/
  | object {ms : List Member} : (∀ m ∈ ms, m.1.isSome) →
      (∀ f ∈ fields, ms.filter (fun m => m.1 = f.1) = [f]) → IsRecord fields (.object ms)
  | array : IsRecord fields (.array (fields.map Prod.snd))

/-- the members that are written for names and values -/
def named (names : List String) (vs : List Value) : List Member :=
  (names.zip vs).map fun m => (some m.1.toList, m.2)

theorem named_values {names : List String} (h : vs.length = names.length) :
    (named names vs).map Prod.snd = vs := by
  unfold named
  rw [List.map_map]
  exact List.map_snd_zip h.le

theorem named_names {names : List String} (h : vs.length = names.length) :
    (named names vs).map Prod.fst = names.map fun name => some name.toList := by
  calc (named names vs).map Prod.fst
      = ((names.zip vs).map Prod.fst).map fun name => some name.toList := by
        simp only [named, List.map_map, Function.comp_def]
    _ = names.map fun name => some name.toList := by rw [List.map_fst_zip h.ge]

theorem IsRecord.items (h : IsRecord fields (.array vs)) : vs = fields.map Prod.snd := by
  cases h
  rfl

theorem IsRecord.once (h : IsRecord fields (.object ms)) :
    ∀ f ∈ fields, ms.filter (fun m => m.1 = f.1) = [f] := by
  cases h with
  | object _ hfields => exact hfields

theorem Value.member?_eq_some_iff {name : String} :
    member? name ms = some v ↔
      ms.filter (fun m => m.1 = some name.toList) = [(some name.toList, v)] := by
  unfold member?
  constructor
  · intro h
    split at h
    case h_1 m hfilter =>
      obtain rfl := Option.some.inj h
      have hname := List.of_mem_filter (hfilter ▸ List.mem_singleton_self m)
      rw [hfilter, ← of_decide_eq_true hname]
    case h_2 => cases h
  · intro h
    rw [h]

/-- a record is read from the values of the record with the same names, and from nothing else -/
theorem Value.fields?_eq_some_iff {names : List String} :
    v.fields? names = some vs ↔ vs.length = names.length ∧ IsRecord (named names vs) v := by
  cases v with
  | object ms =>
    have hall : (ms.all fun m => m.1.isSome) = true ↔ ∀ m ∈ ms, m.1.isSome := List.all_eq_true
    unfold fields?
    simp only
    rw [Option.ite_none_right_eq_some, hall, mapM_eq_some_iff, List.forall₂_iff_zip]
    simp only [member?_eq_some_iff]
    constructor
    · rintro ⟨hnames, hlength, hfields⟩
      refine ⟨hlength.symm, .object hnames fun f hf => ?_⟩
      obtain ⟨m, hm, rfl⟩ := List.mem_map.mp hf
      exact hfields hm
    · rintro ⟨hlength, ⟨hnames, hfields⟩⟩
      exact ⟨hnames, hlength.symm, fun hm => hfields _ (List.mem_map_of_mem hm)⟩
  | array items =>
    show (array items).items? names.length = _ ↔ _
    rw [items?_eq_some_iff, array.injEq]
    constructor
    · rintro ⟨rfl, hlength⟩
      have hrecord : IsRecord (named names items) (array ((named names items).map Prod.snd)) :=
        .array
      rw [named_values hlength] at hrecord
      exact ⟨hlength, hrecord⟩
    · rintro ⟨hlength, hrecord⟩
      have hitems := hrecord.items
      rw [named_values hlength] at hitems
      exact ⟨hitems, hlength⟩
  | _ =>
    constructor
    · exact nofun
    · rintro ⟨-, ⟨⟩⟩

theorem filter_name (distinct : (fields.map Prod.fst).Nodup) {f : Member} (hf : f ∈ fields) :
    fields.filter (fun m => m.1 = f.1) = [f] := by
  induction fields with
  | nil => cases hf
  | cons g fields ih =>
    rw [List.map_cons, List.nodup_cons] at distinct
    obtain ⟨hnew, distinct⟩ := distinct
    rcases List.mem_cons.mp hf with rfl | hf
    · have hnone : fields.filter (fun m => m.1 = f.1) = [] := by
        rw [List.filter_eq_nil_iff]
        intro m hm hname
        exact hnew (of_decide_eq_true hname ▸ List.mem_map_of_mem hm)
      rw [List.filter_cons_of_pos (by simp), hnone]
    · have hother : ¬ g.1 = f.1 := by
        intro hname
        exact hnew (hname ▸ List.mem_map_of_mem hf)
      rw [List.filter_cons_of_neg (by simpa using hother)]
      exact ih distinct hf

namespace IsRecord

theorem of_perm (names : ∀ m ∈ ms, m.1.isSome) (distinct : (fields.map Prod.fst).Nodup)
    (h : (ms.filter fun m => m.1 ∈ fields.map Prod.fst).Perm fields) :
    IsRecord fields (.object ms) := by
  refine .object names fun f hf => ?_
  have hfilter : ms.filter (fun m => m.1 = f.1) =
      (ms.filter fun m => m.1 ∈ fields.map Prod.fst).filter (fun m => m.1 = f.1) := by
    rw [List.filter_filter]
    refine List.filter_congr fun m _ => ?_
    by_cases hname : m.1 = f.1
    · simp [hname, List.mem_map_of_mem hf]
    · simp [hname]
  rw [hfilter, ← List.perm_singleton, ← filter_name distinct hf]
  exact h.filter _

/-- the fields of a record are parts of its values -/
theorem written (h : IsRecord fields v) (hv : v.Written) : ∀ f ∈ fields, f.2.Written := by
  intro f hf
  cases h with
  | @object ms _ hfields =>
    have hmember : f ∈ ms.filter fun m => m.1 = f.1 := by
      rw [hfields f hf]
      exact List.mem_singleton_self f
    exact Value.written_object_iff.mp hv f (List.mem_of_mem_filter hmember)
  | array => exact Value.written_array_iff.mp hv f.2 (List.mem_map_of_mem hf)

/-- the values of a record whose parts have texts -/
theorem written_values {names : List String} (h : IsRecord (named names vs) v) (hv : v.Written)
    (hlength : vs.length = names.length) : ∀ w ∈ vs, w.Written := by
  rw [← named_values hlength]
  exact List.forall_mem_map.mpr (h.written hv)

/-- a record is one of its values, written with its fields in their order -/
theorem of_named {names : List String} (distinct : ((named names vs).map Prod.fst).Nodup) :
    IsRecord (named names vs) (.object (named names vs)) := by
  refine .object (fun m hm => ?_) fun _ => filter_name distinct
  obtain ⟨m, -, rfl⟩ := List.mem_map.mp hm
  rfl

end IsRecord

theorem written_named {names : List String} (h : ∀ w ∈ vs, w.Written) :
    (Value.object (named names vs)).Written := by
  refine Value.written_object fun m hm => ?_
  obtain ⟨m', hm', rfl⟩ := List.mem_map.mp hm
  exact h _ (List.of_mem_zip hm').2

end Json

end RangeBearing
