import RangeBearing.Proofs.JsonGrammar

/-!
# Compact JSON texts

Whatever has been read from some text is read again from its compact text, and so is every value
that is put together from values of which this holds.  An integer has just one literal.

* `Json.Value.Written`             the compact text of a value is one of its texts;
* `Json.Document.written`          every value that has a text;
* `Json.Value.int?_ofInt`, `Json.Value.eq_ofInt`    the literal of an integer.
-/

namespace RangeBearing

namespace Json

variable {cs ds : List Char} {v : Value} {vs : List Value} {ms : List Member}

/-! ## strings -/

theorem hexDigit?_digitChar {n : Nat} (h : n < 16) : hexDigit? (Nat.digitChar n) = some n := by
  revert n
  decide

/-- the number of a control character, in four digits -/
theorem unit?_control {n : Nat} (h : n < 32) :
    unit? '0' '0' (Nat.digitChar (n / 16)) (Nat.digitChar (n % 16)) = some (.unit n) := by
  have hzero : hexDigit? '0' = some 0 := by decide
  unfold unit?
  rw [hzero, hexDigit?_digitChar (by omega), hexDigit?_digitChar (by omega)]
  show some (Piece.unit (0 * 256 + (n / 16 * 16 + n % 16))) = _
  rw [Nat.zero_mul, Nat.zero_add, Nat.div_add_mod']

theorem chars?_control {n : Nat} (h : n < 32) (ps : List Piece) :
    chars? (.unit n :: ps) = (chars? ps).map (Char.ofNat n :: ·) := by
  have hlow : isLowSurrogate n = false := by
    simp [isLowSurrogate]
    omega
  have hhigh : isHighSurrogate n = false := by
    simp [isHighSurrogate]
    omega
  rw [chars?.eq_def]
  simp [hlow, hhigh]

theorem exists_spells (cs : List Char) :
    ∃ ps, Spells ps (cs.flatMap Value.escape) ∧ chars? ps = some cs := by
  induction cs with
  | nil => exact ⟨[], .nil, rfl⟩
  | cons c cs ih =>
    obtain ⟨ps, hps, hchars⟩ := ih
    rw [List.flatMap_cons, Value.escape]
    split
    case isTrue h =>
      refine ⟨.char c :: ps, .escaped ?_ hps, by simp [chars?, hchars]⟩
      rcases h with rfl | rfl <;> rfl
    case isFalse h =>
      obtain ⟨hquote, hslash⟩ := not_or.mp h
      split
      case isTrue hcontrol =>
        refine ⟨.unit c.toNat :: ps, .unit (unit?_control hcontrol) hps, ?_⟩
        simp [chars?_control hcontrol, hchars]
      case isFalse hcontrol =>
        exact ⟨.char c :: ps, .char (Nat.not_lt.mp hcontrol) hquote hslash hps,
          by simp [chars?, hchars]⟩

theorem quoted_quote (k : Option (List Char)) : Quoted k (Value.quote k) := by
  cases k with
  | none =>
    have hunit : unit? 'd' '8' '0' '0' = some (.unit 0xd800) := rfl
    exact .mk (.unit hunit .nil)
  | some cs =>
    obtain ⟨ps, hps, hchars⟩ := exists_spells cs
    have hquoted : Quoted (chars? ps) (Value.quote (some cs)) := .mk hps
    rwa [hchars] at hquoted

/-! ## values -/

namespace Value

/-- the compact text of a value is one of its texts -/
def Written (v : Value) : Prop := Spelled (.value v) v.text

theorem spelled_itemsText (h : ∀ v ∈ vs, v.Written) : Spelled (.items vs) (itemsText vs) := by
  induction vs with
  | nil => exact .lastItem .nil
  | cons v vs ih =>
    exact .item .nil .nil (h v List.mem_cons_self) (ih fun v hv => h v (List.mem_cons_of_mem _ hv))

theorem written_array (h : ∀ v ∈ vs, v.Written) : (array vs).Written := by
  cases vs with
  | nil => exact .emptyArray .nil
  | cons v vs =>
    exact .array .nil (h v List.mem_cons_self)
      (spelled_itemsText fun v hv => h v (List.mem_cons_of_mem _ hv))

theorem named_quote (k : Option (List Char)) : Named k (quote k ++ [':']) := by
  have hnamed : Named k (quote k ++ [] ++ [':']) := .mk (quoted_quote k) .nil
  rwa [List.append_nil] at hnamed

theorem spelled_membersText (h : ∀ m ∈ ms, m.2.Written) :
    Spelled (.members ms) (membersText ms) := by
  induction ms with
  | nil => exact .lastMember .nil
  | cons m ms ih =>
    obtain ⟨k, v⟩ := m
    have hmember := Spelled.member .nil .nil (named_quote k) .nil (h _ List.mem_cons_self)
      (ih fun m hm => h m (List.mem_cons_of_mem _ hm))
    simpa [membersText] using hmember

theorem written_object (h : ∀ m ∈ ms, m.2.Written) : (object ms).Written := by
  cases ms with
  | nil => exact .emptyObject .nil
  | cons m ms =>
    obtain ⟨k, v⟩ := m
    have hobject := Spelled.object .nil (named_quote k) .nil (h _ List.mem_cons_self)
      (spelled_membersText fun m hm => h m (List.mem_cons_of_mem _ hm))
    simpa [Written, text] using hobject

theorem written_string (k : Option (List Char)) : (string k).Written := .string (quoted_quote k)

end Value

/-- what the parts of a form are -/
def Form.Written : Form → Prop
  | .value v => v.Written
  | .items vs => ∀ v ∈ vs, v.Written
  | .members ms => ∀ m ∈ ms, m.2.Written

theorem Spelled.written {f : Form} (h : Spelled f cs) : f.Written := by
  induction h with
  | null => exact .null
  | true => exact .true
  | false => exact .false
  | number h => exact .number h
  | string _ => exact Value.written_string _
  | emptyArray _ => exact Value.written_array nofun
  | array _ _ _ ihv ihvs => exact Value.written_array (List.forall_mem_cons.mpr ⟨ihv, ihvs⟩)
  | lastItem _ => exact nofun
  | item _ _ _ _ ihv ihvs => exact List.forall_mem_cons.mpr ⟨ihv, ihvs⟩
  | emptyObject _ => exact Value.written_object nofun
  | object _ _ _ _ _ ihv ihms => exact Value.written_object (List.forall_mem_cons.mpr ⟨ihv, ihms⟩)
  | lastMember _ => exact nofun
  | member _ _ _ _ _ _ ihv ihms => exact List.forall_mem_cons.mpr ⟨ihv, ihms⟩

theorem Document.written (h : Document v cs) : v.Written := by
  obtain ⟨-, hspelled, -⟩ := h
  exact hspelled.written

/-- the compact text of a value, with blanks around it -/
theorem Value.Written.document {b b' : List Char} (h : v.Written) (hb : Blank b) (hb' : Blank b') :
    Document v (b ++ v.text ++ b') := .mk hb h hb'

/-! ## parts of a value -/

theorem Spelled.items (h : Spelled (.value (.array vs)) cs) : ∀ v ∈ vs, v.Written := by
  cases h with
  | emptyArray _ => exact nofun
  | array _ hv hvs => exact List.forall_mem_cons.mpr ⟨hv.written, hvs.written⟩

theorem Spelled.members (h : Spelled (.value (.object ms)) cs) : ∀ m ∈ ms, m.2.Written := by
  cases h with
  | emptyObject _ => exact nofun
  | object _ _ _ hv hms => exact List.forall_mem_cons.mpr ⟨hv.written, hms.written⟩

theorem Value.written_array_iff : (array vs).Written ↔ ∀ v ∈ vs, v.Written :=
  ⟨Spelled.items, written_array⟩

theorem Value.written_object_iff : (object ms).Written ↔ ∀ m ∈ ms, m.2.Written :=
  ⟨Spelled.members, written_object⟩

/-! ## integers -/

theorem ofDigits_toDigits (n : Nat) : ofDigits (Nat.toDigits 10 n) = n :=
  Nat.ofDigitChars_toDigits (by decide) (by decide)

/-- only zero itself begins with a zero -/
theorem head?_toDigits {n : Nat} (h : 0 < n) : (Nat.toDigits 10 n).head? ≠ some '0' := by
  induction n using Nat.strongRecOn with
  | ind n ih =>
    rw [Nat.toDigits_eq_if (by decide)]
    split
    case isTrue hsmall =>
      intro hzero
      have hdigit := Nat.digitChar_eq_zero.mp (Option.some.inj hzero)
      omega
    case isFalse hlarge =>
      rw [List.head?_append_of_ne_nil _ Nat.toDigits_ne_nil]
      exact ih (n / 10) (by omega) (by omega)

theorem whole_toDigits (n : Nat) : Whole (Nat.toDigits 10 n) where
  nonempty := Nat.toDigits_ne_nil
  digit _ hd := Nat.isDigit_of_mem_toDigits (by decide) (by decide) hd
  leading hzero := by
    rcases Nat.eq_zero_or_pos n with rfl | hpos
    · rfl
    · exact absurd hzero (head?_toDigits hpos)

theorem Whole.unsigned (h : Whole ds) : Unsigned ds := by
  have hunsigned : Unsigned (ds ++ [] ++ []) := .mk h .none .none
  simpa using hunsigned

theorem digitChar_of_isDigit {d : Char} (h : d.isDigit) :
    d.toNat - '0'.toNat < 10 ∧ Nat.digitChar (d.toNat - '0'.toNat) = d := by
  obtain ⟨hlow, hhigh⟩ := Char.isDigit_iff_toNat.mp h
  have hzero : '0'.toNat = 48 := rfl
  have hnine : '9'.toNat = 57 := rfl
  have hsmall : d.toNat - '0'.toNat < 10 := by omega
  refine ⟨hsmall, Char.toNat_inj.mp ?_⟩
  rw [Nat.toNat_digitChar_of_lt_ten hsmall]
  omega

theorem ofDigits_append_singleton (ds : List Char) (d : Char) :
    ofDigits (ds ++ [d]) = 10 * ofDigits ds + (d.toNat - '0'.toNat) := by
  unfold ofDigits
  rw [List.foldl_append]
  rfl

/-- digits are those of their number -/
theorem toDigits_ofDigits (h : Whole ds) : Nat.toDigits 10 (ofDigits ds) = ds := by
  induction ds using List.reverseRecOn with
  | nil => exact absurd rfl h.nonempty
  | append_singleton ds d ih =>
    obtain ⟨hsmall, hd⟩ := digitChar_of_isDigit (h.digit d (by simp))
    rw [ofDigits_append_singleton]
    cases ds with
    | nil =>
      show Nat.toDigits 10 (0 + _) = [d]
      rw [Nat.zero_add, Nat.toDigits_of_lt_base hsmall, hd]
    | cons c ds =>
      -- more than one digit, so the first one is not zero
      have hfirst : c ≠ '0' := by
        rintro rfl
        have hlength := h.leading rfl
        simp at hlength
      have hwhole : Whole (c :: ds) :=
        ⟨⟨List.cons_ne_nil _ _, fun d' hd' => h.digit d' (List.mem_append_left _ hd')⟩,
          fun hzero => absurd (Option.some.inj hzero) hfirst⟩
      have hdigits := ih hwhole
      have hpos : 0 < ofDigits (c :: ds) := by
        refine Nat.pos_of_ne_zero fun hzero => ?_
        rw [hzero, Nat.toDigits_zero] at hdigits
        exact hfirst (List.cons.inj hdigits).1.symm
      rw [← Nat.toDigits_append_toDigits (by decide) hpos hsmall, hdigits,
        Nat.toDigits_of_lt_base hsmall, hd]

theorem ofDigits_pos (h : Whole ds) (hzero : ds ≠ ['0']) : 0 < ofDigits ds := by
  refine Nat.pos_of_ne_zero fun hvalue => hzero ?_
  rw [← toDigits_ofDigits h, hvalue, Nat.toDigits_zero]

/-- a literal of digits only has no fraction and no exponent -/
theorem Unsigned.whole (h : Unsigned ds) (digits : ∀ d ∈ ds, d.isDigit) : Whole ds := by
  obtain @⟨whole, fraction, exponent, hwhole, hfraction, hexponent⟩ := h
  have hpoint : fraction = [] := by
    cases hfraction with
    | none => rfl
    | some _ => exact absurd (digits '.' (by simp)) (by decide)
  have hpower : exponent = [] := by
    cases hexponent with
    | none => rfl
    | @some e _ _ he _ _ =>
      have hdigit := digits e (by simp)
      rcases he with rfl | rfl <;> cases hdigit
  rw [hpoint, hpower, List.append_nil, List.append_nil]
  exact hwhole

theorem Unsigned.not_minus (h : Unsigned ds) (rest : List Char) : ds ≠ '-' :: rest := by
  rintro rfl
  obtain ⟨d, ds, hds, hd⟩ := h.first
  rw [← (List.cons.inj hds).1] at hd
  cases hd

namespace Value

theorem int?_digits (h : Whole ds) : (number ds).int? = some (ofDigits ds : Int) := by
  unfold int?
  split
  case h_1 digits hnumber =>
    exact absurd (number.inj hnumber) (h.unsigned.not_minus _)
  case h_2 digits _ hnumber =>
    obtain rfl := number.inj hnumber
    exact if_pos (List.all_eq_true.mpr h.digit)
  case h_3 hnumber => exact absurd rfl (hnumber _)

theorem int?_negative (h : Whole ds) (hzero : ds ≠ ['0']) :
    (number ('-' :: ds)).int? = some (-(ofDigits ds : Int)) := by
  refine if_pos ?_
  rw [Bool.and_eq_true, bne_iff_ne]
  exact ⟨List.all_eq_true.mpr h.digit, hzero⟩

theorem written_ofInt (i : Int) : (ofInt i).Written := by
  refine .number ?_
  split
  · exact .negative (whole_toDigits _).unsigned
  · exact .positive (whole_toDigits _).unsigned

theorem ofInt_negative {n : Nat} (h : 0 < n) : ofInt (-n) = number ('-' :: Nat.toDigits 10 n) := by
  unfold ofInt
  rw [if_pos (by omega), Int.natAbs_neg, Int.natAbs_natCast]

theorem ofInt_natCast (n : Nat) : ofInt n = number (Nat.toDigits 10 n) := by
  unfold ofInt
  rw [if_neg (by omega), Int.natAbs_natCast]

theorem int?_ofInt (i : Int) : (ofInt i).int? = some i := by
  rcases Int.lt_or_le i 0 with hneg | hpos
  · obtain ⟨n, rfl⟩ : ∃ n : Nat, i = -n := ⟨i.natAbs, by omega⟩
    have hzero : Nat.toDigits 10 n ≠ ['0'] := by
      intro h
      have hvalue := ofDigits_toDigits n
      rw [h] at hvalue
      change 0 = n at hvalue
      omega
    rw [ofInt_negative (by omega), int?_negative (whole_toDigits n) hzero, ofDigits_toDigits]
  · obtain ⟨n, rfl⟩ := Int.eq_ofNat_of_zero_le hpos
    rw [ofInt_natCast, int?_digits (whole_toDigits n), ofDigits_toDigits]

/-- an integer has no other literal -/
theorem eq_ofInt {i : Int} (h : v.Written) (hi : v.int? = some i) : v = ofInt i := by
  unfold Written at h
  generalize v.text = cs at h
  unfold int? at hi
  split at hi
  case h_1 ds =>
    split at hi
    case isTrue hdigits =>
      obtain rfl := Option.some.inj hi
      rw [Bool.and_eq_true, List.all_eq_true, bne_iff_ne] at hdigits
      cases h with
      | number literal =>
        cases literal with
        | positive h => exact absurd rfl (h.not_minus ds)
        | negative h =>
          have hwhole := h.whole hdigits.1
          rw [ofInt_negative (ofDigits_pos hwhole hdigits.2), toDigits_ofDigits hwhole]
    case isFalse => cases hi
  case h_2 ds hminus =>
    split at hi
    case isTrue hdigits =>
      obtain rfl := Option.some.inj hi
      rw [List.all_eq_true] at hdigits
      cases h with
      | number literal =>
        cases literal with
        | positive h => rw [ofInt_natCast, toDigits_ofDigits (h.whole hdigits)]
        | negative h => exact absurd rfl (hminus _)
    case isFalse => cases hi
  case h_3 => cases hi

end Value

end Json

end RangeBearing
