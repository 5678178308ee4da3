import Mathlib.Data.Nat.Find
import RangeBearing.Proofs.Cycles

/-!
# Which estimates are read

The mailbox is a register with one place: what is taken out of it is what the newest cycle that
ended well has put there since it was emptied.  So an estimate is delivered at most once, estimates
are delivered in the order of their cycles, and one is lost only to a newer one.

* `Unread`           what the call at a place has published is still to be read;
* `Delivered`        what the call at a place has published is taken by the call at another;
* `OneUnread`        what holds of the mailbox after every history;
* `Station.History.oneUnread`.
-/

namespace RangeBearing

open Controller Program

namespace Controller

/-- a call that neither publishes an estimate nor takes one -/
def Answered.Spares (r : Answered) : Prop := r.estimate? = none ∧ r.call ≠ .takeEstimate

theorem estimate?_of_takes {r : Answered} (h : r.call = .takeEstimate) : r.estimate? = none := by
  obtain ⟨call, steps, result⟩ := r
  obtain rfl : call = .takeEstimate := h
  rfl

/-- what the call at place `j` has published is still to be read -/
structure Unread (past : List Answered) (j : Nat) (e : Estimate) : Prop where
  published : ∃ r, past[j]? = some r ∧ r.estimate? = some e
  since : ∀ k r, j < k → past[k]? = some r → r.Spares

/-- what the call at place `j` has published is taken by the call at place `i` -/
def Delivered (past : List Answered) (j i : Nat) : Prop :=
  ∃ steps e, past[i]? = some ⟨.takeEstimate, steps, some e⟩ ∧ Unread (past.take i) j e

/-- the estimate that the call at place `j` has published was overwritten: another one followed it
before anything was taken -/
def Overwritten (past : List Answered) (j : Nat) : Prop :=
  ∃ k r e, j < k ∧ past[k]? = some r ∧ r.estimate? = some e ∧
    ∀ i r', j < i → i < k → past[i]? = some r' → r'.Spares

section
variable {past : List Answered} {r : Answered} {i i' j j' : Nat} {e e' : Estimate}

theorem Unread.lt_length (h : Unread past j e) : j < past.length := by
  obtain ⟨r, hr, -⟩ := h.published
  exact (List.getElem?_eq_some_iff.mp hr).1

theorem not_unread_nil : ¬ Unread [] j e := by
  intro h
  exact absurd h.lt_length (Nat.not_lt_zero j)

theorem Unread.unique (h : Unread past j e) (h' : Unread past j' e') : j = j' ∧ e = e' := by
  obtain ⟨r, hr, hre⟩ := h.published
  obtain ⟨r', hr', hre'⟩ := h'.published
  have hj : j = j' := by
    rcases Nat.lt_trichotomy j j' with hlt | rfl | hlt
    · have hspares := (h.since j' r' hlt hr').1
      rw [hspares] at hre'
      cases hre'
    · rfl
    · have hspares := (h'.since j r hlt hr).1
      rw [hspares] at hre
      cases hre
  subst hj
  rw [hr] at hr'
  obtain rfl := Option.some.inj hr'
  rw [hre] at hre'
  exact ⟨rfl, Option.some.inj hre'⟩

theorem Unread.of_last (hr : r.estimate? = some e) : Unread (past ++ [r]) past.length e where
  published := ⟨r, List.getElem?_concat_length, hr⟩
  since k r' hk hr' := by
    have hlt := (List.getElem?_eq_some_iff.mp hr').1
    rw [List.length_append, List.length_singleton] at hlt
    omega

theorem Unread.snoc (h : Unread past j e) (hr : r.Spares) : Unread (past ++ [r]) j e where
  published := by
    obtain ⟨p, hp, hpe⟩ := h.published
    exact ⟨p, by rw [List.getElem?_append_left h.lt_length, hp], hpe⟩
  since k r' hk hr' := by
    rw [List.getElem?_append] at hr'
    split at hr'
    · exact h.since k r' hk hr'
    · obtain rfl := List.mem_singleton.mp (List.mem_of_getElem? hr')
      exact hr

/-- what is unread after a call was published by it, or left alone by it -/
theorem Unread.of_snoc (h : Unread (past ++ [r]) j e) :
    r.estimate? = some e ∨ r.Spares ∧ Unread past j e := by
  have hj := h.lt_length
  rw [List.length_append, List.length_singleton] at hj
  obtain ⟨p, hp, hpe⟩ := h.published
  rcases Nat.lt_or_eq_of_le (Nat.le_of_lt_succ hj) with hlt | rfl
  · refine .inr ⟨h.since past.length r hlt List.getElem?_concat_length, ?_, ?_⟩
    · rw [List.getElem?_append_left hlt] at hp
      exact ⟨p, hp, hpe⟩
    · intro k r' hk hr'
      have hlen := (List.getElem?_eq_some_iff.mp hr').1
      exact h.since k r' hk (by rw [List.getElem?_append_left hlen, hr'])
  · rw [List.getElem?_concat_length] at hp
    obtain rfl := Option.some.inj hp
    exact .inl hpe

theorem Delivered.lt (h : Delivered past j i) : j < i := by
  obtain ⟨_, _, -, hunread⟩ := h
  have hlt := hunread.lt_length
  rw [List.length_take] at hlt
  omega

/-- between the call that has published and the one that takes nothing else is published or taken -/
theorem Delivered.between (h : Delivered past j i) {k : Nat} {r : Answered} (hjk : j < k)
    (hki : k < i) (hr : past[k]? = some r) : r.Spares := by
  obtain ⟨_, _, -, hunread⟩ := h
  exact hunread.since k r hjk (by rw [List.getElem?_take_of_lt hki, hr])

/-- an earlier delivery is of an earlier publication -/
theorem Delivered.lt_of_lt (h : Delivered past j i) (h' : Delivered past j' i') (hlt : i < i') :
    j < j' := by
  by_contra hle
  -- the take at `i` would lie between a publication and the take of it
  have htake : ∃ steps e, past[i]? = some ⟨.takeEstimate, steps, some e⟩ := by
    obtain ⟨steps, e, hi, -⟩ := h
    exact ⟨steps, e, hi⟩
  obtain ⟨steps, e, hi⟩ := htake
  have hji := h.lt
  exact (h'.between (by omega) hlt hi).2 rfl

theorem Delivered.lt_iff (h : Delivered past j i) (h' : Delivered past j' i') :
    i < i' ↔ j < j' := by
  constructor
  · exact h.lt_of_lt h'
  · intro hj
    rcases Nat.lt_trichotomy i i' with hlt | rfl | hlt
    · exact hlt
    · -- a take delivers one estimate
      obtain ⟨_, _, hi, hunread⟩ := h
      obtain ⟨_, _, hi', hunread'⟩ := h'
      rw [hi] at hi'
      cases hi'
      have := (hunread.unique hunread').1
      omega
    · have := h'.lt_of_lt h hlt
      omega

/-- what became of an estimate: the first call after it that publishes or takes decides -/
theorem fate_of_estimate (hr : past[j]? = some r) (he : r.estimate? = some e) :
    Unread past j e ∨ Overwritten past j ∨
      ∃ i steps x, past[i]? = some ⟨.takeEstimate, steps, x⟩ ∧ Unread (past.take i) j e := by
  by_cases hspared : ∀ k r, j < k → past[k]? = some r → r.Spares
  · exact .inl ⟨⟨r, hr, he⟩, hspared⟩
  · have hex : ∃ k, j < k ∧ ∃ r, past[k]? = some r ∧ ¬ r.Spares := by
      by_contra hnone
      refine hspared fun k r hk hr => ?_
      by_contra hr'
      exact hnone ⟨k, hk, r, hr, hr'⟩
    classical
    obtain ⟨hjk, q, hq, hnot⟩ := Nat.find_spec hex
    generalize hk : Nat.find hex = k at *
    have hbetween : ∀ i r', j < i → i < k → past[i]? = some r' → r'.Spares := by
      intro i r' hji hik hr'
      by_contra hr''
      exact Nat.find_min hex (by omega) ⟨hji, r', hr', hr''⟩
    cases hqe : q.estimate? with
    | some e' => exact .inr (.inl ⟨k, q, e', hjk, hq, hqe, hbetween⟩)
    | none =>
      have htakes : q.call = .takeEstimate := by
        by_contra hother
        exact hnot ⟨hqe, hother⟩
      obtain ⟨call, steps, x⟩ := q
      obtain rfl : call = .takeEstimate := htakes
      refine .inr (.inr ⟨k, steps, x, hq, ⟨r, ?_, he⟩, ?_⟩)
      · rw [List.getElem?_take_of_lt hjk, hr]
      · intro i r' hji hr'
        have hik := (List.getElem?_eq_some_iff.mp hr').1
        rw [List.length_take] at hik
        have hik : i < k := by omega
        rw [List.getElem?_take_of_lt hik] at hr'
        exact hbetween i r' hji hik hr'

end

/-! ## what a call does to the mailbox -/

section
variable {c : Config} {st st' : Station} {r : Answered}

/-- a call leaves the mailbox alone, or fills it with the estimate of its cycle, or empties it -/
theorem Answered.Moves.mailbox (h : r.Moves c st st') :
    (r.Spares ∧ st'.mailbox = st.mailbox) ∨
      (∃ e, r.estimate? = some e ∧ st'.mailbox = ⟨some e⟩) ∨
      (r.call = .takeEstimate ∧ st'.mailbox = .empty) := by
  obtain ⟨call, steps, result⟩ := r
  cases call with
  | broadcast =>
    rcases broadcast_performs h with ⟨-, -, rfl, -⟩ | ⟨-, rfl, -⟩
    · exact .inl ⟨⟨rfl, nofun⟩, rfl⟩
    · exact .inl ⟨⟨rfl, nofun⟩, rfl⟩
  | accept request =>
    rcases accept_performs h with ⟨-, -, rfl⟩ | ⟨-, -, rfl, -⟩
    · exact .inl ⟨⟨rfl, nofun⟩, rfl⟩
    · exact .inl ⟨⟨rfl, nofun⟩, rfl⟩
  | collect =>
    rcases collect_performs h with ⟨_, _, -, -, rfl, -⟩ | ⟨-, -, rfl, -⟩
    · exact .inl ⟨⟨rfl, nofun⟩, rfl⟩
    · exact .inl ⟨⟨rfl, nofun⟩, rfl⟩
  | use =>
    rcases use_performs h with ⟨_, _, -, hservice, -⟩ | ⟨-, rfl, rfl, -⟩
    · rcases serviceOf_performs hservice with ⟨-, -, rfl⟩ | ⟨-, rfl, rfl⟩
      · cases result with
        | ok e => exact .inr (.inl ⟨e, rfl, rfl⟩)
        | error fault => exact .inl ⟨⟨rfl, nofun⟩, rfl⟩
      · exact .inl ⟨⟨rfl, nofun⟩, rfl⟩
    · exact .inl ⟨⟨rfl, nofun⟩, rfl⟩
  | serve request =>
    rcases serve_performs h with ⟨-, _, -, -, rfl⟩ | ⟨-, rfl, rfl, -⟩
    · cases result with
      | ok e => exact .inr (.inl ⟨e, rfl, rfl⟩)
      | error fault => exact .inl ⟨⟨rfl, nofun⟩, rfl⟩
    · exact .inl ⟨⟨rfl, nofun⟩, rfl⟩
  | takeEstimate =>
    obtain ⟨-, -, rfl⟩ := performs_shared_iff.mp h
    exact .inr (.inr ⟨rfl, rfl⟩)
  | _ =>
    obtain rfl := h.same trivial
    exact .inl ⟨⟨rfl, nofun⟩, rfl⟩

theorem Answered.Moves.mailbox_of_spares (h : r.Moves c st st') (hr : r.Spares) :
    st'.mailbox = st.mailbox := by
  rcases h.mailbox with ⟨-, hsame⟩ | ⟨e, he, -⟩ | ⟨htakes, -⟩
  · exact hsame
  · rw [hr.1] at he
    cases he
  · exact absurd htakes hr.2

theorem takeEstimate_performs {steps : List Step} {x : Option Estimate}
    (h : takeEstimate.Performs st steps x st') :
    x = st.mailbox.unread ∧ st' = { st with mailbox := .empty } := by
  obtain ⟨-, rfl, rfl⟩ := performs_shared_iff.mp h
  exact ⟨rfl, rfl⟩

theorem peekEstimate_performs {steps : List Step} {x : Option Estimate}
    (h : peekEstimate.Performs st steps x st') : x = st.mailbox.unread ∧ st' = st := by
  obtain ⟨-, rfl, rfl⟩ := performs_shared_iff.mp h
  exact ⟨rfl, rfl⟩

end

/-! ## the mailbox over a history -/

/-- the mailbox holds what was published last and not taken since -/
structure OneUnread (c : Config) (past : List Answered) (st : Station) : Prop where
  /-- a take gives back what is unread, and leaves nothing unread -/
  take : ∃ steps x st', takeEstimate.Performs st steps x st'
  take_eq : ∀ {steps x st'}, takeEstimate.Performs st steps x st' →
    ∀ e, x = some e ↔ ∃ j, Unread past j e
  /-- a peek gives back what a take would, and changes nothing -/
  peek : ∃ steps x, peekEstimate.Performs st steps x st
  peek_eq : ∀ {steps x st'}, peekEstimate.Performs st steps x st' →
    st' = st ∧ ∀ {steps' y st''}, takeEstimate.Performs st steps' y st'' → x = y
  /-- what a take has given back was published before it -/
  source : ∀ {i steps e}, past[i]? = some ⟨.takeEstimate, steps, some e⟩ →
    ∃ j, Delivered past j i
  /-- and is never given back again -/
  once : ∀ {j i i'}, Delivered past j i → Delivered past j i' → i = i'
  /-- later takes give back later publications -/
  ordered : ∀ {j i j' i'}, Delivered past j i → Delivered past j' i' → (i < i' ↔ j < j')
  /-- what is published is taken, unless it is overwritten or still unread -/
  fate : ∀ {j r e}, past[j]? = some r → r.estimate? = some e →
    (∃ i, Delivered past j i) ∨ Overwritten past j ∨ Unread past j e
  /-- no other call touches the mailbox -/
  spared : ∀ {r : Answered} {st' : Station}, r.Moves c st st' → r.Spares → st'.mailbox = st.mailbox

end Controller

namespace Station.History

variable {c : Config} {past : List Answered} {st : Station}

/-- what can be read is what was published last and not taken since -/
theorem mailbox (h : History c past st) (e : Estimate) :
    st.mailbox.unread = some e ↔ ∃ j, Unread past j e := by
  induction h with
  | new =>
    constructor
    · intro h
      cases h
    · intro h
      obtain ⟨j, hj⟩ := h
      exact absurd hj not_unread_nil
  | @snoc past st st' r before moves ih =>
    rcases moves.mailbox with ⟨hspares, hst'⟩ | ⟨e', he', hst'⟩ | ⟨htakes, hst'⟩
    · rw [hst', ih]
      constructor
      · intro h
        obtain ⟨j, hj⟩ := h
        exact ⟨j, hj.snoc hspares⟩
      · intro h
        obtain ⟨j, hj⟩ := h
        rcases hj.of_snoc with he | ⟨-, hj⟩
        · rw [hspares.1] at he
          cases he
        · exact ⟨j, hj⟩
    · rw [hst']
      constructor
      · intro h
        obtain rfl := Option.some.inj h
        exact ⟨past.length, .of_last he'⟩
      · intro h
        obtain ⟨j, hj⟩ := h
        rw [((Unread.of_last he').unique hj).2]
    · rw [hst']
      constructor
      · intro h
        cases h
      · intro h
        obtain ⟨j, hj⟩ := h
        rcases hj.of_snoc with he | ⟨hspares, -⟩
        · rw [estimate?_of_takes htakes] at he
          cases he
        · exact absurd htakes hspares.2

theorem taken {i : Nat} {steps : List Step} {x : Option Estimate} (h : History c past st)
    (hi : past[i]? = some ⟨.takeEstimate, steps, x⟩) (e : Estimate) :
    x = some e ↔ ∃ j, Unread (past.take i) j e := by
  obtain ⟨st₀, st₁, before, moves⟩ := h.at_place hi
  obtain ⟨hx, -⟩ := takeEstimate_performs moves
  rw [← before.mailbox e, ← hx]

/-- over every history the newest estimate wins, and is read at most once -/
theorem oneUnread (h : History c past st) : OneUnread c past st where
  take := ⟨_, _, _, performs_shared_iff.mpr ⟨rfl, rfl, rfl⟩⟩
  take_eq performs e := by
    obtain ⟨rfl, -⟩ := takeEstimate_performs performs
    exact h.mailbox e
  peek := ⟨_, _, performs_shared_iff.mpr ⟨rfl, rfl, rfl⟩⟩
  peek_eq performs := by
    obtain ⟨rfl, hst⟩ := peekEstimate_performs performs
    refine ⟨hst, fun performs' => ?_⟩
    obtain ⟨rfl, -⟩ := takeEstimate_performs performs'
    rfl
  source hi := by
    obtain ⟨j, hj⟩ := (h.taken hi _).mp rfl
    exact ⟨j, _, _, hi, hj⟩
  once hi hi' := by
    have hlt := hi.lt_iff hi'
    have hgt := hi'.lt_iff hi
    omega
  ordered hi hi' := hi.lt_iff hi'
  fate hr he := by
    rcases fate_of_estimate hr he with hunread | hover | ⟨i, steps, x, hi, hunread⟩
    · exact .inr (.inr hunread)
    · exact .inr (.inl hover)
    · obtain rfl := (h.taken hi _).mpr ⟨_, hunread⟩
      exact .inl ⟨i, steps, _, hi, hunread⟩
  spared moves hr := moves.mailbox_of_spares hr

/-- for example, after a cycle that has ended well and a take -/
theorem oneUnread_after_take : ∃ past st e steps,
    History .default past st ∧ OneUnread .default past st ∧
      past[3]? = some ⟨.takeEstimate, steps, some e⟩ ∧ ∃ j, Delivered past j 3 := by
  have fresh : Station.new.slot.state = .idle := rfl
  obtain ⟨result, st, cycle⟩ := Cycle.completes .default ⟨7, 1, 5⟩ headOn fresh
  obtain ⟨hresult, hst⟩ := cycle.performs fresh
  rw [ofMatrix_headOn] at hresult
  obtain ⟨first, second, third, history, -⟩ := cycle.history .new
  have unread : st.mailbox.unread = some ⟨7, 100, -30, 180, 255⟩ := by
    rw [hst, hresult]
    rfl
  have take : Controller.takeEstimate.Performs st [⟨.shared .takeEstimate, st.mailbox.unread⟩]
      (some ⟨7, 100, -30, 180, 255⟩) { st with mailbox := .empty } := by
    rw [← unread]
    exact performs_shared_iff.mpr ⟨rfl, rfl, rfl⟩
  have taken := history.call .takeEstimate take
  exact ⟨_, _, _, _, taken, taken.oneUnread, rfl, taken.oneUnread.source rfl⟩

end Station.History

end RangeBearing
