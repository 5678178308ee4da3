import Mathlib.Data.List.DropRight
import Mathlib.Data.List.TakeWhile
import RangeBearing.Json.Reader

/-!
# Numbers and strings in JSON texts

What a number literal and a string are is said here without a reader, and each reader takes just
these from the front of a text.  A literal goes as far as it can, so what follows it must not go on
with it.

* `Json.Blank`      blanks and nothing else;
* `Json.Literal`    a number literal;
* `Json.Spells`     what stands between the quotes of a string;
* `Json.number?_append`, `Json.number?_sound`;
* `Json.pieces?_append`, `Json.pieces?_sound`.
-/

namespace RangeBearing

namespace Json

variable {b cs ds rest : List Char} {c : Char}

/-! ## blanks -/

/-- blanks and nothing else -/
def Blank (cs : List Char) : Prop := ∀ c ∈ cs, isBlank c

theorem Blank.nil : Blank [] := nofun

theorem skip_append (h : Blank b) : skip (b ++ cs) = skip cs :=
  List.dropWhile_append_of_pos h

theorem skip_of_blank (h : Blank b) : skip b = [] :=
  List.dropWhile_eq_nil_iff.mpr h

theorem skip_cons (h : ¬ isBlank c) : skip (c :: cs) = c :: cs :=
  List.dropWhile_cons_of_neg h

theorem skip_skip (cs : List Char) : skip (skip cs) = skip cs := List.dropWhile_idempotent _ _

theorem exists_blank (cs : List Char) : ∃ b, Blank b ∧ cs = b ++ skip cs :=
  ⟨cs.takeWhile isBlank, fun _ => List.mem_takeWhile_imp, List.takeWhile_append_dropWhile.symm⟩

/-! ## numbers -/

/-- one digit or more -/
structure Digits (ds : List Char) : Prop where
  nonempty : ds ≠ []
  digit : ∀ d ∈ ds, d.isDigit

/-- the digits before the point; only zero itself begins with a zero -/
structure Whole (ds : List Char) : Prop extends Digits ds where
  leading : ds.head? = some '0' → ds.length = 1

inductive Fraction : List Char → Prop
  | none : Fraction []
  | some {ds : List Char} : Digits ds → Fraction ('.' :: ds)

inductive Exponent : List Char → Prop
  | none : Exponent []
  | some {e : Char} {sign ds : List Char} : e = 'e' ∨ e = 'E' → sign ∈ [[], ['+'], ['-']] →
      Digits ds → Exponent (e :: sign ++ ds)

inductive Unsigned : List Char → Prop
  | mk {whole fraction exponent : List Char} : Whole whole → Fraction fraction →
      Exponent exponent → Unsigned (whole ++ fraction ++ exponent)

/-- a number literal -/
inductive Literal : List Char → Prop
  | positive {ds : List Char} : Unsigned ds → Literal ds
  | negative {ds : List Char} : Unsigned ds → Literal ('-' :: ds)

/-- what follows a literal does not go on with it -/
def Ends (rest : List Char) : Prop :=
  ∀ c ∈ rest.head?, c.isDigit = false ∧ c ≠ '.' ∧ c ≠ 'e' ∧ c ≠ 'E'

theorem digits?_append (h : Digits ds) (stop : ∀ c ∈ rest.head?, c.isDigit = false) :
    digits? (ds ++ rest) = some (ds, rest) := by
  have htake : (ds ++ rest).takeWhile Char.isDigit = ds := by
    rw [List.takeWhile_append_of_pos h.digit]
    cases rest with
    | nil => simp
    | cons c rest => simp [stop c rfl]
  have hdrop : (ds ++ rest).dropWhile Char.isDigit = rest := by
    rw [List.dropWhile_append_of_pos h.digit]
    cases rest with
    | nil => rfl
    | cons c rest => simp [stop c rfl]
  unfold digits?
  rw [htake, hdrop]
  cases ds with
  | nil => exact absurd rfl h.nonempty
  | cons d ds => rfl

theorem digits?_sound (h : digits? cs = some (ds, rest)) : Digits ds ∧ cs = ds ++ rest := by
  unfold digits? at h
  split at h
  · cases h
  case h_2 htake =>
    obtain ⟨rfl, rfl⟩ := Prod.mk.inj (Option.some.inj h)
    exact ⟨⟨htake, fun _ => List.mem_takeWhile_imp⟩, List.takeWhile_append_dropWhile.symm⟩

theorem whole?_append (h : Whole ds) (stop : ∀ c ∈ rest.head?, c.isDigit = false) :
    whole? (ds ++ rest) = some (ds, rest) := by
  unfold whole?
  rw [digits?_append h.toDigits stop]
  refine if_neg ?_
  rintro ⟨hzero, hlength⟩
  exact hlength (h.leading hzero)

theorem whole?_sound (h : whole? cs = some (ds, rest)) : Whole ds ∧ cs = ds ++ rest := by
  unfold whole? at h
  obtain ⟨⟨ds', rest'⟩, hdigits, h⟩ := Option.bind_eq_some_iff.mp h
  dsimp only at h
  split at h
  · cases h
  case isFalse hleading =>
    obtain ⟨rfl, rfl⟩ := Prod.mk.inj (Option.some.inj h)
    obtain ⟨digits, hcs⟩ := digits?_sound hdigits
    exact ⟨⟨digits, fun hzero => by_contra fun hne => hleading ⟨hzero, hne⟩⟩, hcs⟩

theorem fraction?_append (h : Fraction ds)
    (stop : ∀ c ∈ rest.head?, c.isDigit = false ∧ c ≠ '.') :
    fraction? (ds ++ rest) = some (ds, rest) := by
  cases h with
  | none =>
    cases rest with
    | nil => rfl
    | cons c rest =>
      obtain ⟨-, hpoint⟩ := stop c rfl
      simp [fraction?, hpoint]
  | some h =>
    show (digits? (_ ++ rest)).bind _ = _
    rw [digits?_append h fun c hc => (stop c hc).1]
    rfl

theorem fraction?_sound (h : fraction? cs = some (ds, rest)) : Fraction ds ∧ cs = ds ++ rest := by
  unfold fraction? at h
  split at h
  · obtain ⟨⟨ds', rest'⟩, hdigits, h⟩ := Option.bind_eq_some_iff.mp h
    obtain ⟨rfl, rfl⟩ := Prod.mk.inj (Option.some.inj h)
    obtain ⟨digits, rfl⟩ := digits?_sound hdigits
    exact ⟨.some digits, rfl⟩
  · obtain ⟨rfl, rfl⟩ := Prod.mk.inj (Option.some.inj h)
    exact ⟨.none, rfl⟩

theorem exponentSign_append {sign : List Char} (h : sign ∈ [[], ['+'], ['-']])
    (stop : ∀ c ∈ rest.head?, c.isDigit) : exponentSign (sign ++ rest) = (sign, rest) := by
  simp only [List.mem_cons, List.not_mem_nil, or_false] at h
  rcases h with rfl | rfl | rfl
  · cases rest with
    | nil => rfl
    | cons c rest =>
      have hdigit := stop c rfl
      show exponentSign (c :: rest) = _
      unfold exponentSign
      split <;> simp_all
  · rfl
  · rfl

theorem exponentSign_sound {sign : List Char} (h : exponentSign cs = (sign, rest)) :
    sign ∈ [[], ['+'], ['-']] ∧ cs = sign ++ rest := by
  unfold exponentSign at h
  split at h
  all_goals
    obtain ⟨rfl, rfl⟩ := Prod.mk.inj h
    simp

theorem exponent?_append (h : Exponent ds) (stop : Ends rest) :
    exponent? (ds ++ rest) = some (ds, rest) := by
  cases h with
  | none =>
    cases rest with
    | nil => rfl
    | cons c rest =>
      obtain ⟨-, -, hlower, hupper⟩ := stop c rfl
      simp [exponent?, hlower, hupper]
  | @some e sign ds he hsign hds =>
    have hfirst : ∀ c ∈ (ds ++ rest).head?, c.isDigit := by
      intro c hc
      obtain ⟨d, ds, rfl⟩ := List.exists_cons_of_ne_nil hds.nonempty
      obtain rfl := Option.some.inj hc
      exact hds.digit _ List.mem_cons_self
    rw [List.append_assoc, List.cons_append, exponent?, if_pos he,
      exponentSign_append hsign hfirst]
    dsimp only
    rw [digits?_append hds fun c hc => (stop c hc).1]
    rfl

theorem exponent?_sound (h : exponent? cs = some (ds, rest)) : Exponent ds ∧ cs = ds ++ rest := by
  unfold exponent? at h
  split at h
  case h_1 e cs =>
    split at h
    case isTrue he =>
      generalize hparts : exponentSign cs = parts at h
      obtain ⟨sign, rest'⟩ := parts
      obtain ⟨hsign, rfl⟩ := exponentSign_sound hparts
      obtain ⟨⟨ds', rest'⟩, hdigits, h⟩ := Option.bind_eq_some_iff.mp h
      obtain ⟨rfl, rfl⟩ := Prod.mk.inj (Option.some.inj h)
      obtain ⟨digits, rfl⟩ := digits?_sound hdigits
      exact ⟨.some he hsign digits, by simp⟩
    case isFalse =>
      obtain ⟨rfl, rfl⟩ := Prod.mk.inj (Option.some.inj h)
      exact ⟨.none, rfl⟩
  · obtain ⟨rfl, rfl⟩ := Prod.mk.inj (Option.some.inj h)
    exact ⟨.none, rfl⟩

theorem unsigned?_append (h : Unsigned ds) (stop : Ends rest) :
    unsigned? (ds ++ rest) = some (ds, rest) := by
  obtain @⟨whole, fraction, exponent, hw, hf, he⟩ := h
  have hexponent : ∀ c ∈ (exponent ++ rest).head?, c.isDigit = false ∧ c ≠ '.' := by
    cases he with
    | none => exact fun c hc => ⟨(stop c hc).1, (stop c hc).2.1⟩
    | some he _ _ =>
      intro c hc
      obtain rfl := Option.some.inj hc
      rcases he with rfl | rfl
      · decide
      · decide
  have hfraction : ∀ c ∈ (fraction ++ (exponent ++ rest)).head?, c.isDigit = false := by
    cases hf with
    | none => exact fun c hc => (hexponent c hc).1
    | some _ =>
      intro c hc
      obtain rfl := Option.some.inj hc
      decide
  unfold unsigned?
  rw [List.append_assoc, List.append_assoc, whole?_append hw hfraction]
  show (fraction? _).bind _ = _
  rw [fraction?_append hf hexponent]
  show (exponent? _).bind _ = _
  rw [exponent?_append he stop]
  show some _ = some _
  rw [List.append_assoc]

theorem unsigned?_sound (h : unsigned? cs = some (ds, rest)) : Unsigned ds ∧ cs = ds ++ rest := by
  unfold unsigned? at h
  obtain ⟨⟨whole, rest₁⟩, hwhole, h⟩ := Option.bind_eq_some_iff.mp h
  obtain ⟨⟨fraction, rest₂⟩, hfraction, h⟩ := Option.bind_eq_some_iff.mp h
  obtain ⟨⟨exponent, rest₃⟩, hexponent, h⟩ := Option.bind_eq_some_iff.mp h
  obtain ⟨rfl, rfl⟩ := Prod.mk.inj (Option.some.inj h)
  obtain ⟨hw, rfl⟩ := whole?_sound hwhole
  obtain ⟨hf, rfl⟩ := fraction?_sound hfraction
  obtain ⟨he, rfl⟩ := exponent?_sound hexponent
  exact ⟨.mk hw hf he, by simp only [List.append_assoc]⟩

theorem Unsigned.first (h : Unsigned ds) : ∃ d ds', ds = d :: ds' ∧ d.isDigit := by
  obtain ⟨hw, -, -⟩ := h
  obtain ⟨d, ds, rfl⟩ := List.exists_cons_of_ne_nil hw.nonempty
  exact ⟨d, _, rfl, hw.digit d List.mem_cons_self⟩

theorem Literal.first (h : Literal ds) : ∃ c ds', ds = c :: ds' ∧ (c = '-' ∨ c.isDigit) := by
  cases h with
  | positive h =>
    obtain ⟨d, ds', hds, hd⟩ := h.first
    exact ⟨d, ds', hds, .inr hd⟩
  | negative h => exact ⟨'-', _, rfl, .inl rfl⟩

theorem number?_append (h : Literal ds) (stop : Ends rest) :
    number? (ds ++ rest) = some (ds, rest) := by
  cases h with
  | positive h =>
    obtain ⟨d, ds', rfl, hd⟩ := h.first
    have hminus : d ≠ '-' := by
      rintro rfl
      cases hd
    rw [← unsigned?_append h stop]
    show number? (d :: (ds' ++ rest)) = unsigned? (d :: (ds' ++ rest))
    simp [number?, hminus]
  | negative h =>
    show (unsigned? (_ ++ rest)).bind _ = _
    rw [unsigned?_append h stop]
    rfl

theorem number?_sound (h : number? cs = some (ds, rest)) : Literal ds ∧ cs = ds ++ rest := by
  unfold number? at h
  split at h
  · obtain ⟨⟨ds', rest'⟩, hunsigned, h⟩ := Option.bind_eq_some_iff.mp h
    obtain ⟨rfl, rfl⟩ := Prod.mk.inj (Option.some.inj h)
    obtain ⟨unsigned, rfl⟩ := unsigned?_sound hunsigned
    exact ⟨.negative unsigned, rfl⟩
  · obtain ⟨unsigned, hcs⟩ := unsigned?_sound h
    exact ⟨.positive unsigned, hcs⟩

/-! ## strings -/

/-- pieces between the quotes of a string -/
inductive Spells : List Piece → List Char → Prop
  | nil : Spells [] []
  | char {c : Char} {ps : List Piece} {cs : List Char} : 32 ≤ c.toNat → c ≠ '"' → c ≠ '\\' →
      Spells ps cs → Spells (.char c :: ps) (c :: cs)
  | escaped {e c : Char} {ps : List Piece} {cs : List Char} : escaped? e = some c →
      Spells ps cs → Spells (.char c :: ps) ('\\' :: e :: cs)
  | unit {p : Piece} {a b c d : Char} {ps : List Piece} {cs : List Char} :
      unit? a b c d = some p → Spells ps cs →
        Spells (p :: ps) ('\\' :: 'u' :: a :: b :: c :: d :: cs)

theorem pieces?_append {ps : List Piece} (h : Spells ps cs) :
    pieces? (cs ++ '"' :: rest) = some (ps, rest) := by
  induction h with
  | nil => simp [pieces?]
  | char hcontrol hquote hslash _ ih =>
    simp [pieces?, hslash, Nat.not_lt.mpr hcontrol, ih]
  | @escaped e c ps cs he _ ih =>
    have hunit : e ≠ 'u' := by
      rintro rfl
      cases he
    simp [pieces?, hunit, he, ih]
  | unit hunit _ ih => simp [pieces?, hunit, ih]

theorem pieces?_sound {ps : List Piece} (h : pieces? cs = some (ps, rest)) :
    ∃ body, Spells ps body ∧ cs = body ++ '"' :: rest := by
  fun_induction pieces? cs generalizing ps rest with
  | case1 => cases h
  | case2 =>
    obtain ⟨rfl, rfl⟩ := Prod.mk.inj (Option.some.inj h)
    exact ⟨[], .nil, rfl⟩
  | case3 a b c d cs ih =>
    obtain ⟨p, hunit, h⟩ := Option.bind_eq_some_iff.mp h
    obtain ⟨⟨ps', rest'⟩, hpieces, h⟩ := Option.bind_eq_some_iff.mp h
    obtain ⟨rfl, rfl⟩ := Prod.mk.inj (Option.some.inj h)
    obtain ⟨body, hbody, rfl⟩ := ih hpieces
    exact ⟨_, .unit hunit hbody, rfl⟩
  | case4 e cs _ ih =>
    obtain ⟨c, hescaped, h⟩ := Option.bind_eq_some_iff.mp h
    obtain ⟨⟨ps', rest'⟩, hpieces, h⟩ := Option.bind_eq_some_iff.mp h
    obtain ⟨rfl, rfl⟩ := Prod.mk.inj (Option.some.inj h)
    obtain ⟨body, hbody, rfl⟩ := ih hpieces
    exact ⟨_, .escaped hescaped hbody, rfl⟩
  | case5 => cases h
  | case6 c cs hquote _ _ hallowed ih =>
    obtain ⟨⟨ps', rest'⟩, hpieces, h⟩ := Option.bind_eq_some_iff.mp h
    obtain ⟨rfl, rfl⟩ := Prod.mk.inj (Option.some.inj h)
    obtain ⟨body, hbody, rfl⟩ := ih hpieces
    obtain ⟨hcontrol, hslash⟩ := not_or.mp hallowed
    exact ⟨_, .char (Nat.not_lt.mp hcontrol) hquote hslash hbody, rfl⟩

/-- a string with its quotes, and the characters it stands for -/
inductive Quoted : Option (List Char) → List Char → Prop
  | mk {ps : List Piece} {cs : List Char} : Spells ps cs →
      Quoted (chars? ps) ('"' :: (cs ++ ['"']))

theorem string?_append {k : Option (List Char)} (h : Quoted k cs) (rest : List Char) :
    ∃ cs', cs = '"' :: cs' ∧ string? (cs' ++ rest) = some (k, rest) := by
  obtain ⟨hspells⟩ := h
  refine ⟨_, rfl, ?_⟩
  unfold string?
  rw [List.append_assoc]
  show (pieces? (_ ++ '"' :: rest)).bind _ = _
  rw [pieces?_append hspells]
  rfl

theorem string?_sound {k : Option (List Char)} (h : string? cs = some (k, rest)) :
    ∃ q, Quoted k ('"' :: q) ∧ cs = q ++ rest := by
  unfold string? at h
  obtain ⟨⟨ps, rest'⟩, hpieces, h⟩ := Option.bind_eq_some_iff.mp h
  obtain ⟨rfl, rfl⟩ := Prod.mk.inj (Option.some.inj h)
  obtain ⟨body, hbody, rfl⟩ := pieces?_sound hpieces
  exact ⟨_, .mk hbody, by simp⟩

end Json

end RangeBearing
