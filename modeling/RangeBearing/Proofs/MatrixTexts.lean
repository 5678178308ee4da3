import RangeBearing.Brightness.Basic
import RangeBearing.Proofs.CompactTexts

/-!
# The text of a matrix

The readings stand in the text by row and in decimal, with commas and braces around them.  What
such a text looks like is said here without a printer, and the integers are read back by a reader
that knows nothing of rows: it takes the digits and minus signs that stand together.

* `Decimal`, `InBraces`    an integer in decimal; items in braces, with commas between them;
* `Brightness.Dump`        six lists of six integers, all in braces;
* `integers`               the integers of a text in their order;
* `inBraces_iff`, `integers_inBraces`   items in braces as they are written, and as they are read;
* `Brightness.Legible`, `Brightness.text_legible`   what follows for the text of a matrix.
-/

namespace RangeBearing

open Json

universe u

/-- an integer in decimal: no zeros in front, and no negative zero -/
inductive Decimal : Int → List Char → Prop
  | natural {ds : List Char} (h : Whole ds) : Decimal (ofDigits ds) ds
  | negative {ds : List Char} (h : Whole ds) (hzero : ds ≠ ['0']) :
      Decimal (-(ofDigits ds)) ('-' :: ds)

section
variable {α : Type u}

/-- items with commas between them, and none after the last -/
inductive Commas (Item : α → List Char → Prop) : List α → List Char → Prop
  | last {a : α} {cs : List Char} (h : Item a cs) : Commas Item [a] cs
  | more {a : α} {as : List α} {cs ds : List Char} (h : Item a cs) (rest : Commas Item as ds) :
      Commas Item (a :: as) (cs ++ ',' :: ds)

/-- items in braces -/
inductive InBraces (Item : α → List Char → Prop) : List α → List Char → Prop
  | braces {as : List α} {cs : List Char} (h : Commas Item as cs) :
      InBraces Item as ('\x7b' :: (cs ++ ['\x7d']))

end

/-- what an integer is written with -/
def isNumeral (c : Char) : Bool := c.isDigit || c = '-'

/-- the integers of a text: the numerals that stand together, and nothing else -/
def integers (cs : List Char) : List Int :=
  ((cs.splitOnP fun c => !isNumeral c).filter fun ds => ds ≠ []).filterMap fun ds =>
    (Value.number ds).int?

variable {cs ds : List Char} {i : Int}

/-! ## a single integer -/

theorem toList_toString_natCast (n : Nat) : (toString (n : Int)).toList = Nat.toDigits 10 n :=
  Nat.toList_repr

theorem toList_toString_neg {n : Nat} (h : 0 < n) :
    (toString (-(n : Int))).toList = '-' :: Nat.toDigits 10 n := by
  obtain ⟨k, rfl⟩ := Nat.exists_eq_add_one_of_ne_zero (Nat.ne_of_gt h)
  have hrepr : toString (-((k + 1 : Nat) : Int)) = "-" ++ (k + 1).repr := rfl
  rw [hrepr, String.toList_append, Nat.toList_repr]
  rfl

theorem decimal_iff : Decimal i cs ↔ cs = (toString i).toList := by
  constructor
  · intro h
    cases h with
    | natural h => rw [toList_toString_natCast, toDigits_ofDigits h]
    | negative h hzero =>
      rw [toList_toString_neg (ofDigits_pos h hzero), toDigits_ofDigits h]
  · rintro rfl
    rcases Int.lt_or_le i 0 with hneg | hpos
    · obtain ⟨n, rfl⟩ : ∃ n : Nat, i = -n := ⟨i.natAbs, by omega⟩
      have hpos : 0 < n := by omega
      have hzero : Nat.toDigits 10 n ≠ ['0'] := fun heq => head?_toDigits hpos (by rw [heq]; rfl)
      have hdecimal := Decimal.negative (whole_toDigits n) hzero
      rwa [ofDigits_toDigits, ← toList_toString_neg hpos] at hdecimal
    · obtain ⟨n, rfl⟩ := Int.eq_ofNat_of_zero_le hpos
      have hdecimal := Decimal.natural (whole_toDigits n)
      rwa [ofDigits_toDigits, ← toList_toString_natCast] at hdecimal

theorem Decimal.int? (h : Decimal i cs) : (Value.number cs).int? = some i := by
  cases h with
  | natural h => exact Value.int?_digits h
  | negative h hzero => exact Value.int?_negative h hzero

theorem Decimal.numeral (h : Decimal i cs) : cs ≠ [] ∧ ∀ c ∈ cs, isNumeral c = true := by
  have hdigit : ∀ {ds}, Whole ds → ∀ c ∈ ds, isNumeral c = true := by
    intro ds hwhole c hc
    unfold isNumeral
    rw [hwhole.digit c hc, Bool.true_or]
  cases h with
  | natural h => exact ⟨h.nonempty, hdigit h⟩
  | negative h _ => exact ⟨List.cons_ne_nil _ _, List.forall_mem_cons.mpr ⟨rfl, hdigit h⟩⟩

/-! ## reading -/

theorem integers_nil : integers [] = [] := rfl

theorem integers_append {c : Char} (hc : isNumeral c = false) (cs ds : List Char) :
    integers (cs ++ c :: ds) = integers cs ++ integers ds := by
  unfold integers
  rw [List.splitOnP_append_cons _ _ (by rw [hc]; rfl), List.filter_append, List.filterMap_append]

theorem integers_decimal (h : Decimal i cs) : integers cs = [i] := by
  obtain ⟨hnonempty, hnumeral⟩ := h.numeral
  have hsplit : cs.splitOnP (fun c => !isNumeral c) = [cs] :=
    List.splitOnP_eq_singleton fun c hc => by rw [hnumeral c hc]; rfl
  unfold integers
  rw [hsplit]
  simp [hnonempty, h.int?]

section
variable {α : Type u} {Item : α → List Char → Prop} {as : List α}

theorem integers_commas {read : α → List Int} (hitem : ∀ a cs, Item a cs → integers cs = read a)
    (h : Commas Item as cs) : integers cs = as.flatMap read := by
  induction h with
  | last h => rw [hitem _ _ h, List.flatMap_singleton]
  | more h _ ih => rw [integers_append rfl, hitem _ _ h, ih, List.flatMap_cons]

/-- the integers between braces are those of the items -/
theorem integers_inBraces {read : α → List Int} (hitem : ∀ a cs, Item a cs → integers cs = read a)
    (h : InBraces Item as cs) : integers cs = as.flatMap read := by
  cases h with
  | @braces cs h =>
    have hopen := integers_append (c := '\x7b') rfl [] (cs ++ ['\x7d'])
    rw [List.nil_append, integers_nil, List.nil_append] at hopen
    rw [hopen, integers_append rfl, integers_nil, List.append_nil]
    exact integers_commas hitem h

/-! ## writing -/

theorem commas_iff {write : α → List Char} (hitem : ∀ a ∈ as, ∀ cs, Item a cs ↔ cs = write a)
    (hne : as ≠ []) : Commas Item as cs ↔ cs = ((as.map write).intersperse [',']).flatten := by
  induction as generalizing cs with
  | nil => exact absurd rfl hne
  | cons a as ih =>
    have ha := hitem a List.mem_cons_self
    cases as with
    | nil =>
      rw [List.map_singleton, List.intersperse_singleton, List.flatten_singleton, ← ha]
      constructor
      · intro h
        cases h with
        | last h => exact h
        | more _ rest => cases rest
      · exact .last
    | cons b as =>
      have hrest : ∀ ds, Commas Item (b :: as) ds ↔
          ds = (((b :: as).map write).intersperse [',']).flatten := fun ds =>
        ih (fun b hb => hitem b (List.mem_cons_of_mem _ hb)) (List.cons_ne_nil b as)
      constructor
      · intro h
        cases h with
        | more h rest =>
          rw [(ha _).mp h, (hrest _).mp rest]
          rfl
      · rintro rfl
        exact .more ((ha _).mpr rfl) ((hrest _).mpr rfl)

/-- items are put in braces in one way only -/
theorem inBraces_iff {write : α → List Char} (hitem : ∀ a ∈ as, ∀ cs, Item a cs ↔ cs = write a)
    (hne : as ≠ []) : InBraces Item as cs ↔ cs = Brightness.braced (as.map write) := by
  constructor
  · intro h
    cases h with
    | braces h =>
      rw [(commas_iff hitem hne).mp h]
      rfl
  · rintro rfl
    exact .braces ((commas_iff hitem hne).mpr rfl)

end

/-! ## the readings of a matrix -/

theorem Grid.values_eq_flatten {α : Type u} (g : Grid α) :
    g.values = (g.rows.toList.map Vector.toList).flatten := by
  have hrow : ∀ e, Direction.all.map (fun s => g.get e s) = (g.rows.entry e).toList := fun e =>
    Table.map_entry_all _
  calc g.values
      = Direction.all.flatMap fun e => Direction.all.map fun s => g.get e s := by
        unfold values cells pairs
        rw [List.map_map, List.map_flatMap]
        simp only [List.map_map]
        rfl
    _ = Direction.all.flatMap fun e => (g.rows.entry e).toList := by simp only [hrow]
    _ = (g.rows.toList.map Vector.toList).flatten := by
        rw [← Table.map_entry_all g.rows, List.map_map, List.flatMap_def]
        rfl

namespace Brightness

/-- six lists of six integers, each in braces and all of them in braces -/
structure Dump (rows : List (List Int)) (cs : List Char) : Prop where
  six : rows.length = 6
  wide : ∀ row ∈ rows, row.length = 6
  spelled : InBraces (InBraces Decimal) rows cs

/-- the readings by row -/
def integerRows (m : Brightness) : List (List Int) :=
  m.rows.toList.map fun row => row.toList.map Int16.toInt

variable {m m' : Brightness} {rows rows' : List (List Int)}

theorem length_integerRows (m : Brightness) : m.integerRows.length = 6 := by
  unfold integerRows
  rw [List.length_map, Vector.length_toList]

theorem length_of_mem_integerRows {row : List Int} (h : row ∈ m.integerRows) :
    row.length = 6 := by
  obtain ⟨readings, -, rfl⟩ := List.mem_map.mp h
  rw [List.length_map, Vector.length_toList]

theorem integerRows_inj (h : m.integerRows = m'.integerRows) : m = m' := by
  have hrow : ∀ row row' : Row Int16,
      row.toList.map Int16.toInt = row'.toList.map Int16.toInt → row = row' := by
    intro row row' heq
    rw [List.map_inj_right fun _ _ => Int16.toInt_inj.mp] at heq
    exact Vector.toList_inj.mp heq
  unfold integerRows at h
  rw [List.map_inj_right hrow, Vector.toList_inj] at h
  cases m
  cases m'
  exact congrArg Grid.mk h

theorem flatten_integerRows (m : Brightness) :
    m.integerRows.flatten = m.values.map Int16.toInt := by
  unfold integerRows
  rw [Grid.values_eq_flatten, List.map_flatten, List.map_map]
  rfl

theorem integers_dump (h : Dump rows cs) : integers cs = rows.flatten := by
  have hrow : ∀ (row : List Int) (cs : List Char), InBraces Decimal row cs → integers cs = row := by
    intro row cs hbraces
    have hitem : ∀ i cs, Decimal i cs → integers cs = [i] := fun _ _ => integers_decimal
    rw [integers_inBraces hitem hbraces, List.flatMap_singleton']
  rw [integers_inBraces hrow h.spelled, List.flatMap_id']

/-- no text is the dump of two lists of rows -/
theorem Dump.unique (h : Dump rows cs) (h' : Dump rows' cs) : rows = rows' := by
  have hlengths : ∀ {rows : List (List Int)}, Dump rows cs →
      rows.map List.length = List.replicate 6 6 := by
    intro rows hdump
    rw [List.eq_replicate_iff, List.length_map]
    exact ⟨hdump.six, List.forall_mem_map.mpr hdump.wide⟩
  rw [List.eq_iff_flatten_eq, ← integers_dump h, ← integers_dump h', hlengths h, hlengths h']
  exact ⟨rfl, rfl⟩

theorem dump_iff (m : Brightness) (cs : List Char) :
    Dump m.integerRows cs ↔ cs = m.text.toList := by
  have hrow : ∀ row ∈ m.integerRows, ∀ cs, InBraces Decimal row cs ↔
      cs = braced (row.map fun i => (toString i).toList) := by
    intro row hmem cs
    refine inBraces_iff (fun i _ cs => decimal_iff) fun hempty => ?_
    have hlength := length_of_mem_integerRows hmem
    rw [hempty] at hlength
    cases hlength
  have hne : m.integerRows ≠ [] := by
    intro hempty
    have hlength := length_integerRows m
    rw [hempty] at hlength
    cases hlength
  have htext : m.text.toList = braced (m.integerRows.map fun row =>
      braced (row.map fun i => (toString i).toList)) := by
    unfold text integerRows
    rw [String.toList_ofList, List.map_map]
    simp only [Function.comp_def, List.map_map]
  rw [htext, ← inBraces_iff hrow hne]
  exact ⟨Dump.spelled, fun h => ⟨length_integerRows m, fun _ => length_of_mem_integerRows, h⟩⟩

/-! ## every matrix -/

/-- what can be told from the text of a matrix -/
structure Legible (m : Brightness) : Prop where
  /-- it is the dump of the readings, which has no other form -/
  spelled : ∀ cs, Dump m.integerRows cs ↔ cs = m.text.toList
  /-- and of nothing else -/
  only : ∀ rows, Dump rows m.text.toList → rows = m.integerRows
  /-- the integers in it are the readings, by emitter and then by sensor -/
  read : integers m.text.toList = m.values.map Int16.toInt
  /-- no other matrix has this text -/
  injective : ∀ m' : Brightness, m'.text = m.text → m' = m

/-- nothing is lost in the text of a matrix -/
theorem text_legible (m : Brightness) : m.Legible := by
  have hdump : ∀ m : Brightness, Dump m.integerRows m.text.toList := fun m =>
    (dump_iff m _).mpr rfl
  exact {
    spelled := dump_iff m
    only := fun rows h => h.unique (hdump m)
    read := by rw [integers_dump (hdump m), flatten_integerRows]
    injective := fun m' htext => by
      have hm' := hdump m'
      rw [htext] at hm'
      exact integerRows_inj (hm'.unique (hdump m)) }

end Brightness

end RangeBearing
