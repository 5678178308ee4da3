import RangeBearing.Proofs.JsonLexemes

/-!
# The grammar of JSON texts

* `Json.Spelled`    the texts of a value, of the rest of an array and of the rest of an object;
* `Json.Document`   the texts that hold one value, with blanks around it;
* `Json.Spelled.read`      a reader takes each of these texts from the front of a text;
* `Json.value?_sound`      and nothing else;
* `Json.parse?_eq_some_iff`.
-/

namespace RangeBearing

namespace Json

/-- a member of an object -/
abbrev Member := Option (List Char) × Value

variable {b cs ds rest : List Char} {fuel : Nat} {v : Value} {vs : List Value}
  {k : Option (List Char)} {ms : List Member}

/-! ## texts -/

/-- what a text can spell -/
inductive Form where
  | value (v : Value)
  /-- the items after the first one, up to the end of the array -/
  | items (vs : List Value)
  /-- the members after the first one, up to the end of the object -/
  | members (ms : List Member)

/-- a name and the colon after it -/
inductive Named : Option (List Char) → List Char → Prop
  | mk {k : Option (List Char)} {q b : List Char} : Quoted k q → Blank b → Named k (q ++ b ++ [':'])

/-- the texts of a form, without blanks around a value -/
inductive Spelled : Form → List Char → Prop
  | null : Spelled (.value .null) ['n', 'u', 'l', 'l']
  | true : Spelled (.value (.bool true)) ['t', 'r', 'u', 'e']
  | false : Spelled (.value (.bool false)) ['f', 'a', 'l', 's', 'e']
  | number {ds : List Char} : Literal ds → Spelled (.value (.number ds)) ds
  | string {k : Option (List Char)} {q : List Char} :
      Quoted k q → Spelled (.value (.string k)) q
  | emptyArray {b : List Char} : Blank b → Spelled (.value (.array [])) ('[' :: b ++ [']'])
  | array {b cs ds : List Char} {v : Value} {vs : List Value} :
      Blank b → Spelled (.value v) cs → Spelled (.items vs) ds →
        Spelled (.value (.array (v :: vs))) ('[' :: b ++ cs ++ ds)
  | lastItem {b : List Char} : Blank b → Spelled (.items []) (b ++ [']'])
  | item {b b' cs ds : List Char} {v : Value} {vs : List Value} :
      Blank b → Blank b' → Spelled (.value v) cs → Spelled (.items vs) ds →
        Spelled (.items (v :: vs)) (b ++ ',' :: b' ++ cs ++ ds)
  | emptyObject {b : List Char} :
      Blank b → Spelled (.value (.object [])) ('\x7b' :: b ++ ['\x7d'])
  | object {b b' ks cs ds : List Char} {k : Option (List Char)} {v : Value} {ms : List Member} :
      Blank b → Named k ks → Blank b' → Spelled (.value v) cs → Spelled (.members ms) ds →
        Spelled (.value (.object ((k, v) :: ms))) ('\x7b' :: b ++ ks ++ b' ++ cs ++ ds)
  | lastMember {b : List Char} : Blank b → Spelled (.members []) (b ++ ['\x7d'])
  | member {b b' b'' ks cs ds : List Char} {k : Option (List Char)} {v : Value}
      {ms : List Member} :
      Blank b → Blank b' → Named k ks → Blank b'' → Spelled (.value v) cs →
        Spelled (.members ms) ds →
          Spelled (.members ((k, v) :: ms)) (b ++ ',' :: b' ++ ks ++ b'' ++ cs ++ ds)

/-- a text that holds one value, with blanks around it -/
inductive Document : Value → List Char → Prop
  | mk {b b' cs : List Char} {v : Value} :
      Blank b → Spelled (.value v) cs → Blank b' → Document v (b ++ cs ++ b')

/-! ## blanks before what is read -/

theorem value?_skip (fuel : Nat) (cs : List Char) : value? fuel (skip cs) = value? fuel cs := by
  cases fuel with
  | zero => rfl
  | succ fuel => rw [value?, value?, skip_skip]

theorem value?_append (h : Blank b) : value? fuel (b ++ cs) = value? fuel cs := by
  rw [← value?_skip, skip_append h, value?_skip]

theorem key?_skip (cs : List Char) : key? (skip cs) = key? cs := by
  rw [key?, key?, skip_skip]

theorem key?_append (h : Blank b) : key? (b ++ cs) = key? cs := by
  rw [← key?_skip, skip_append h, key?_skip]

/-! ## the first character -/

theorem not_isBlank_of_number {c : Char} (h : c = '-' ∨ c.isDigit) : ¬ isBlank c := by
  intro hblank
  simp only [isBlank, Bool.or_eq_true, decide_eq_true_eq] at hblank
  rcases hblank with ((rfl | rfl) | rfl) | rfl <;> revert h <;> decide

/-- what a value begins with is neither a blank nor a closing bracket -/
theorem Spelled.first (h : Spelled (.value v) cs) : ∃ c cs', cs = c :: cs' ∧ ¬ isBlank c ∧
    c ≠ ']' := by
  cases h with
  | number h =>
    obtain ⟨c, cs', rfl, hc⟩ := h.first
    refine ⟨c, cs', rfl, not_isBlank_of_number hc, ?_⟩
    rintro rfl
    revert hc
    decide
  | string h =>
    obtain ⟨-⟩ := h
    exact ⟨'"', _, rfl, by decide, by decide⟩
  | _ => exact ⟨_, _, rfl, by decide, by decide⟩

theorem Named.first (h : Named k cs) : ∃ cs', cs = '"' :: cs' := by
  obtain ⟨⟨-⟩, -⟩ := h
  exact ⟨_, rfl⟩

theorem Ends.blank {c : Char} (h : isBlank c) : Ends (c :: rest) := by
  intro c' hc'
  obtain rfl := Option.some.inj hc'
  simp only [isBlank, Bool.or_eq_true, decide_eq_true_eq] at h
  rcases h with ((rfl | rfl) | rfl) | rfl <;> decide

theorem Ends.append (hb : Blank b) (h : Ends cs) : Ends (b ++ cs) := by
  cases b with
  | nil => exact h
  | cons c b => exact .blank (hb c List.mem_cons_self)

theorem Spelled.ends_items (h : Spelled (.items vs) ds) : Ends (ds ++ rest) := by
  cases h with
  | lastItem hb =>
    rw [List.append_assoc]
    exact .append hb (by rintro c ⟨⟩; decide)
  | item hb _ _ _ =>
    simp only [List.append_assoc]
    exact .append hb (by rintro c ⟨⟩; decide)

theorem Spelled.ends_members (h : Spelled (.members ms) ds) : Ends (ds ++ rest) := by
  cases h with
  | lastMember hb =>
    rw [List.append_assoc]
    exact .append hb (by rintro c ⟨⟩; decide)
  | member hb _ _ _ _ _ =>
    simp only [List.append_assoc]
    exact .append hb (by rintro c ⟨⟩; decide)

/-! ## every text is read -/

theorem key?_named (h : Named k cs) : key? (cs ++ rest) = some (k, rest) := by
  obtain @⟨q, b, hquoted, hb⟩ := h
  obtain ⟨q, rfl, hstring⟩ := string?_append hquoted (b ++ ':' :: rest)
  have htext : '"' :: q ++ b ++ [':'] ++ rest = '"' :: (q ++ (b ++ ':' :: rest)) := by simp
  rw [htext, key?, skip_cons (by decide)]
  simp only
  rw [hstring, Option.bind_eq_bind, Option.bind_some]
  simp only
  rw [skip_append hb, skip_cons (by decide)]
  rfl

theorem value?_array (h : ∀ cs', skip cs ≠ ']' :: cs') : value? (fuel + 1) ('[' :: cs) =
    do
      let (v, rest) ← value? fuel cs
      let (vs, rest) ← items? fuel rest
      return (.array (v :: vs), rest) := by
  rw [value?, skip_cons (by decide)]
  simp only
  rw [value?_skip]

theorem value?_object (h : ∀ cs', skip cs ≠ '\x7d' :: cs') : value? (fuel + 1) ('\x7b' :: cs) =
    do
      let (k, rest) ← key? cs
      let (v, rest) ← value? fuel rest
      let (ms, rest) ← members? fuel rest
      return (.object ((k, v) :: ms), rest) := by
  rw [value?, skip_cons (by decide)]
  simp only
  rw [key?_skip]

/-- a digit or a sign can only begin a number -/
theorem value?_number {c : Char} (h : c = '-' ∨ c.isDigit) : value? (fuel + 1) (c :: cs) =
    do
      let (literal, rest) ← number? (c :: cs)
      return (.number literal, rest) := by
  rw [value?, skip_cons (not_isBlank_of_number h)]
  split
  case h_7 => rfl
  all_goals
    next hcs =>
      obtain ⟨rfl, -⟩ := List.cons.inj hcs
      exact absurd h (by decide)

/-- what follows a number does not go on with it; anything may follow another value -/
def Value.Stops (v : Value) (rest : List Char) : Prop := ∀ ds, v = .number ds → Ends rest

/-- what a reader does with a text of a form -/
def Form.Read : Form → List Char → Prop
  | .value v, cs => ∀ {fuel rest}, cs.length ≤ fuel → v.Stops rest →
      value? (fuel + 1) (cs ++ rest) = some (v, rest)
  | .items vs, cs => ∀ {fuel rest}, cs.length ≤ fuel →
      items? (fuel + 1) (cs ++ rest) = some (vs, rest)
  | .members ms, cs => ∀ {fuel rest}, cs.length ≤ fuel →
      members? (fuel + 1) (cs ++ rest) = some (ms, rest)

theorem Spelled.read {f : Form} (h : Spelled f cs) : f.Read cs := by
  induction h with
  | null => intro fuel rest _ _; rfl
  | true => intro fuel rest _ _; rfl
  | false => intro fuel rest _ _; rfl
  | @number ds h =>
    intro fuel rest _ stop
    have hnumber := number?_append h (stop _ rfl)
    obtain ⟨c, ds, rfl, hc⟩ := h.first
    rw [List.cons_append] at hnumber ⊢
    rw [value?_number hc, hnumber]
    rfl
  | string h =>
    intro fuel rest _ _
    obtain ⟨q, rfl, hstring⟩ := string?_append h rest
    show (string? (q ++ rest)).bind _ = _
    rw [hstring]
    rfl
  | emptyArray hb =>
    intro fuel rest _ _
    rw [List.append_assoc, List.cons_append, value?, skip_cons (by decide)]
    simp only
    rw [skip_append hb]
    rfl
  | @array b cs ds v vs hb hv hvs ihv ihvs =>
    intro fuel rest hfuel _
    obtain ⟨c, cs', hcs, hblank, hbracket⟩ := hv.first
    simp only [List.length_append, List.length_cons] at hfuel
    obtain ⟨fuel, rfl⟩ : ∃ n, fuel = n + 1 := Nat.exists_eq_add_one.mpr (by omega)
    have hopen : ∀ cs'', skip (b ++ (cs ++ (ds ++ rest))) ≠ ']' :: cs'' := by
      rw [skip_append hb, hcs, List.cons_append, skip_cons hblank]
      exact fun cs'' hskip => hbracket (List.cons.inj hskip).1
    simp only [List.append_assoc, List.cons_append]
    rw [value?_array hopen, value?_append hb, ihv (by omega) fun _ _ => hvs.ends_items]
    show (items? _ _).bind _ = _
    rw [ihvs (by omega)]
    rfl
  | lastItem hb =>
    intro fuel rest _
    rw [List.append_assoc, items?, skip_append hb]
    rfl
  | @item b b' cs ds v vs hb hb' hv hvs ihv ihvs =>
    intro fuel rest hfuel
    simp only [List.length_append, List.length_cons] at hfuel
    obtain ⟨fuel, rfl⟩ : ∃ n, fuel = n + 1 := Nat.exists_eq_add_one.mpr (by omega)
    simp only [List.append_assoc, List.cons_append]
    rw [items?, skip_append hb, skip_cons (by decide)]
    simp only
    rw [value?_append hb', ihv (by omega) fun _ _ => hvs.ends_items]
    show (items? _ _).bind _ = _
    rw [ihvs (by omega)]
    rfl
  | emptyObject hb =>
    intro fuel rest _ _
    rw [List.append_assoc, List.cons_append, value?, skip_cons (by decide)]
    simp only
    rw [skip_append hb]
    rfl
  | @object b b' ks cs ds k v ms hb hk hb' hv hms ihv ihms =>
    intro fuel rest hfuel _
    obtain ⟨ks', hks⟩ := hk.first
    simp only [List.length_append, List.length_cons] at hfuel
    obtain ⟨fuel, rfl⟩ : ∃ n, fuel = n + 1 := Nat.exists_eq_add_one.mpr (by omega)
    have hopen : ∀ cs'', skip (b ++ (ks ++ (b' ++ (cs ++ (ds ++ rest))))) ≠ '\x7d' :: cs'' := by
      rw [skip_append hb, hks, List.cons_append, skip_cons (by decide)]
      exact fun cs'' hskip => absurd (List.cons.inj hskip).1 (by decide)
    simp only [List.append_assoc, List.cons_append]
    rw [value?_object hopen, key?_append hb, key?_named hk]
    show (value? _ _).bind _ = _
    rw [value?_append hb', ihv (by omega) fun _ _ => hms.ends_members]
    show (members? _ _).bind _ = _
    rw [ihms (by omega)]
    rfl
  | lastMember hb =>
    intro fuel rest _
    rw [List.append_assoc, members?, skip_append hb]
    rfl
  | @member b b' b'' ks cs ds k v ms hb hb' hk hb'' hv hms ihv ihms =>
    intro fuel rest hfuel
    simp only [List.length_append, List.length_cons] at hfuel
    obtain ⟨fuel, rfl⟩ : ∃ n, fuel = n + 1 := Nat.exists_eq_add_one.mpr (by omega)
    simp only [List.append_assoc, List.cons_append]
    rw [members?, skip_append hb, skip_cons (by decide)]
    simp only
    rw [key?_append hb', key?_named hk, Option.bind_eq_bind, Option.bind_some]
    show (value? _ _).bind _ = _
    rw [value?_append hb'', ihv (by omega) fun _ _ => hms.ends_members]
    show (members? _ _).bind _ = _
    rw [ihms (by omega)]
    rfl

/-! ## and nothing else -/

theorem key?_sound (h : key? cs = some (k, rest)) :
    ∃ b ks, Blank b ∧ Named k ks ∧ cs = b ++ ks ++ rest := by
  obtain ⟨b, hb, hcs⟩ := exists_blank cs
  unfold key? at h
  split at h
  case h_1 cs' hskip =>
    obtain ⟨⟨k', rest'⟩, hstring, hname⟩ := Option.bind_eq_some_iff.mp h
    obtain ⟨q, hquoted, rfl⟩ := string?_sound hstring
    obtain ⟨b', hb', hrest⟩ := exists_blank rest'
    dsimp only at hname
    split at hname
    case h_1 hcolon =>
      obtain ⟨rfl, rfl⟩ := Prod.mk.inj (Option.some.inj hname)
      refine ⟨b, _, hb, .mk hquoted hb', ?_⟩
      rw [hcs, hskip, hrest, hcolon]
      simp
    case h_2 => cases hname
  case h_2 => cases h

/-- what a reader with some fuel gives back has been spelled by what it has taken -/
structure Sound (fuel : Nat) : Prop where
  value : ∀ {cs v rest}, value? fuel cs = some (v, rest) →
    ∃ b body, Blank b ∧ Spelled (.value v) body ∧ cs = b ++ body ++ rest
  items : ∀ {cs vs rest}, items? fuel cs = some (vs, rest) →
    ∃ body, Spelled (.items vs) body ∧ cs = body ++ rest
  members : ∀ {cs ms rest}, members? fuel cs = some (ms, rest) →
    ∃ body, Spelled (.members ms) body ∧ cs = body ++ rest

theorem Sound.value_succ (sound : Sound fuel) (h : value? (fuel + 1) cs = some (v, rest)) :
    ∃ body, Spelled (.value v) body ∧ skip cs = body ++ rest := by
  rw [value?] at h
  split at h
  case h_1 hskip =>
    obtain ⟨rfl, rfl⟩ := Prod.mk.inj (Option.some.inj h)
    exact ⟨_, .null, hskip⟩
  case h_2 hskip =>
    obtain ⟨rfl, rfl⟩ := Prod.mk.inj (Option.some.inj h)
    exact ⟨_, .true, hskip⟩
  case h_3 hskip =>
    obtain ⟨rfl, rfl⟩ := Prod.mk.inj (Option.some.inj h)
    exact ⟨_, .false, hskip⟩
  case h_4 hskip =>
    obtain ⟨⟨k, rest'⟩, hstring, h⟩ := Option.bind_eq_some_iff.mp h
    obtain ⟨rfl, rfl⟩ := Prod.mk.inj (Option.some.inj h)
    obtain ⟨q, hquoted, rfl⟩ := string?_sound hstring
    exact ⟨_, .string hquoted, hskip⟩
  case h_5 cs' hskip =>
    obtain ⟨b, hb, hcs'⟩ := exists_blank cs'
    split at h
    case h_1 hclose =>
      obtain ⟨rfl, rfl⟩ := Prod.mk.inj (Option.some.inj h)
      refine ⟨_, .emptyArray hb, ?_⟩
      rw [hskip, hcs', hclose]
      simp
    case h_2 =>
      rw [value?_skip] at h
      obtain ⟨⟨v, rest₁⟩, hvalue, h⟩ := Option.bind_eq_some_iff.mp h
      obtain ⟨⟨vs, rest₂⟩, hitems, h⟩ := Option.bind_eq_some_iff.mp h
      obtain ⟨rfl, rfl⟩ := Prod.mk.inj (Option.some.inj h)
      obtain ⟨b', body, hb', hbody, rfl⟩ := sound.value hvalue
      obtain ⟨body', hbody', rfl⟩ := sound.items hitems
      exact ⟨_, .array hb' hbody hbody', by simp [hskip]⟩
  case h_6 cs' hskip =>
    obtain ⟨b, hb, hcs'⟩ := exists_blank cs'
    split at h
    case h_1 hclose =>
      obtain ⟨rfl, rfl⟩ := Prod.mk.inj (Option.some.inj h)
      refine ⟨_, .emptyObject hb, ?_⟩
      rw [hskip, hcs', hclose]
      simp
    case h_2 =>
      rw [key?_skip] at h
      obtain ⟨⟨k, rest₁⟩, hkey, h⟩ := Option.bind_eq_some_iff.mp h
      obtain ⟨⟨v, rest₂⟩, hvalue, h⟩ := Option.bind_eq_some_iff.mp h
      obtain ⟨⟨ms, rest₃⟩, hmembers, h⟩ := Option.bind_eq_some_iff.mp h
      obtain ⟨rfl, rfl⟩ := Prod.mk.inj (Option.some.inj h)
      obtain ⟨b', ks, hb', hk, rfl⟩ := key?_sound hkey
      obtain ⟨b'', body, hb'', hbody, rfl⟩ := sound.value hvalue
      obtain ⟨body', hbody', rfl⟩ := sound.members hmembers
      exact ⟨_, .object hb' hk hb'' hbody hbody', by simp [hskip]⟩
  case h_7 =>
    obtain ⟨⟨ds, rest'⟩, hnumber, h⟩ := Option.bind_eq_some_iff.mp h
    obtain ⟨rfl, rfl⟩ := Prod.mk.inj (Option.some.inj h)
    obtain ⟨literal, hskip⟩ := number?_sound hnumber
    exact ⟨_, .number literal, hskip⟩

theorem Sound.items_succ (sound : Sound fuel) (h : items? (fuel + 1) cs = some (vs, rest)) :
    ∃ body, Spelled (.items vs) body ∧ cs = body ++ rest := by
  obtain ⟨b, hb, hcs⟩ := exists_blank cs
  rw [items?] at h
  split at h
  case h_1 hskip =>
    obtain ⟨rfl, rfl⟩ := Prod.mk.inj (Option.some.inj h)
    refine ⟨_, .lastItem hb, ?_⟩
    rw [hcs, hskip]
    simp
  case h_2 hskip =>
    obtain ⟨⟨v, rest₁⟩, hvalue, h⟩ := Option.bind_eq_some_iff.mp h
    obtain ⟨⟨vs, rest₂⟩, hitems, h⟩ := Option.bind_eq_some_iff.mp h
    obtain ⟨rfl, rfl⟩ := Prod.mk.inj (Option.some.inj h)
    obtain ⟨b', body, hb', hbody, rfl⟩ := sound.value hvalue
    obtain ⟨body', hbody', rfl⟩ := sound.items hitems
    refine ⟨_, .item hb hb' hbody hbody', ?_⟩
    rw [hcs, hskip]
    simp
  case h_3 => cases h

theorem Sound.members_succ (sound : Sound fuel) (h : members? (fuel + 1) cs = some (ms, rest)) :
    ∃ body, Spelled (.members ms) body ∧ cs = body ++ rest := by
  obtain ⟨b, hb, hcs⟩ := exists_blank cs
  rw [members?] at h
  split at h
  case h_1 hskip =>
    obtain ⟨rfl, rfl⟩ := Prod.mk.inj (Option.some.inj h)
    refine ⟨_, .lastMember hb, ?_⟩
    rw [hcs, hskip]
    simp
  case h_2 hskip =>
    obtain ⟨⟨k, rest₁⟩, hkey, h⟩ := Option.bind_eq_some_iff.mp h
    obtain ⟨⟨v, rest₂⟩, hvalue, h⟩ := Option.bind_eq_some_iff.mp h
    obtain ⟨⟨ms, rest₃⟩, hmembers, h⟩ := Option.bind_eq_some_iff.mp h
    obtain ⟨rfl, rfl⟩ := Prod.mk.inj (Option.some.inj h)
    obtain ⟨b', ks, hb', hk, rfl⟩ := key?_sound hkey
    obtain ⟨b'', body, hb'', hbody, rfl⟩ := sound.value hvalue
    obtain ⟨body', hbody', rfl⟩ := sound.members hmembers
    refine ⟨_, .member hb hb' hk hb'' hbody hbody', ?_⟩
    rw [hcs, hskip]
    simp
  case h_3 => cases h

theorem sound (fuel : Nat) : Sound fuel := by
  induction fuel with
  | zero => exact ⟨nofun, nofun, nofun⟩
  | succ fuel ih =>
    refine ⟨fun {cs v rest} h => ?_, ih.items_succ, ih.members_succ⟩
    obtain ⟨b, hb, hcs⟩ := exists_blank cs
    obtain ⟨body, hbody, hskip⟩ := ih.value_succ h
    exact ⟨b, body, hb, hbody, by rw [List.append_assoc, ← hskip, ← hcs]⟩

/-! ## documents -/

/-- the texts that hold a value are those that are read as it -/
theorem parse?_eq_some_iff : parse? cs = some v ↔ Document v cs := by
  constructor
  · intro h
    unfold parse? at h
    split at h
    case h_1 v' rest hvalue =>
      split at h
      case isTrue hempty =>
        obtain rfl := Option.some.inj h
        obtain ⟨b, body, hb, hbody, rfl⟩ := (sound _).value hvalue
        obtain ⟨b', hb', hrest⟩ := exists_blank rest
        rw [List.isEmpty_iff.mp hempty, List.append_nil] at hrest
        exact .mk hb hbody (hrest ▸ hb')
      case isFalse => cases h
    case h_2 => cases h
  · rintro @⟨b, b', cs, v, hb, hspelled, hb'⟩
    have stop : v.Stops b' := by
      intro _ _
      cases b' with
      | nil => exact nofun
      | cons c b' => exact .blank (hb' c List.mem_cons_self)
    have hlength : cs.length ≤ (b ++ cs ++ b').length := by
      simp only [List.length_append]
      omega
    have hvalue := hspelled.read hlength stop
    rw [← value?_append hb, ← List.append_assoc] at hvalue
    unfold parse?
    rw [hvalue]
    simp only
    rw [skip_of_blank hb']
    rfl

/-- a text is read as one value at most -/
theorem Document.unique {v' : Value} (h : Document v cs) (h' : Document v' cs) : v = v' :=
  Option.some.inj ((parse?_eq_some_iff.mpr h).symm.trans (parse?_eq_some_iff.mpr h'))

/-- what follows the value is not skipped over; only a number may go on -/
theorem Document.trailing {junk : List Char} {v' : Value} (h : Document v cs)
    (hjunk : ¬ Blank junk) (h' : parse? (cs ++ junk) = some v') : ∃ ds, v' = .number ds := by
  obtain @⟨b, b', cs, _, hb, hspelled, hb'⟩ := h
  unfold parse? at h'
  rw [List.append_assoc, List.append_assoc, value?_append hb] at h'
  by_cases hnumber : ∃ ds, v = .number ds
  · obtain ⟨ds, rfl⟩ := hnumber
    cases hspelled with
    | number literal =>
      obtain ⟨c, ds, rfl, hc⟩ := literal.first
      rw [List.cons_append, value?_number hc] at h'
      cases hread : number? (c :: (ds ++ (b' ++ junk))) with
      | none =>
        rw [hread] at h'
        cases h'
      | some read =>
        rw [hread] at h'
        simp only [Option.bind_eq_bind, Option.bind_some, Option.pure_def] at h'
        split at h'
        case isTrue => exact ⟨_, (Option.some.inj h').symm⟩
        case isFalse => cases h'
  · have hlength : cs.length ≤ (b ++ (cs ++ (b' ++ junk))).length := by
      simp only [List.length_append]
      omega
    rw [hspelled.read hlength fun ds hds => absurd ⟨ds, hds⟩ hnumber] at h'
    simp only at h'
    split at h'
    case isTrue hempty =>
      rw [skip_append hb', List.isEmpty_iff] at hempty
      exact absurd (List.dropWhile_eq_nil_iff.mp hempty) hjunk
    case isFalse => cases h'

end Json

end RangeBearing
