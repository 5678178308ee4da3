import Mathlib.Data.List.Basic
import Mathlib.Data.List.Induction
import RangeBearing.Brightness.Store

/-!
# A store over a list of operations

A matrix is handed out by the first operation after its `put` that does more than look, if that is
a `take`, and by no other one.  The rule goes by the places of the operations, so that it tells two
equal matrices apart.

* `Store.after`, `Store.given?`   operations on a new store, and what each of them gives back;
* `Store.Pending`        what was put in at a place can still be taken;
* `Store.Handed`         what was put in at a place is taken at another;
* `Store.HandsOutOnce`   what holds of every list of operations;
* `Store.handsOutOnce`.
-/

namespace RangeBearing

namespace Brightness

namespace Store

/-- what can be asked of a store -/
inductive Operation where
  | put (m : Brightness)
  | take
  | last
  | drop
  deriving DecidableEq

/-- the matrix that an operation puts in -/
def Operation.matrix? : Operation → Option Brightness
  | put m => some m
  | _ => none

/-- what an operation gives back, and the store after it -/
def perform (store : Store) : Operation → Option Brightness × Store
  | .put m => (none, store.put m)
  | .take => store.take
  | .last => (some store.last, store)
  | .drop => (none, store.drop)

/-- a new store after some operations -/
def after (ops : List Operation) : Store :=
  ops.foldl (fun store op => (store.perform op).2) .empty

/-- what the operation at a place gives back -/
def given? (ops : List Operation) (i : Nat) : Option Brightness :=
  ops[i]?.bind fun op => ((after (ops.take i)).perform op).1

/-- what the operation at a place gives back, if it is a `take` -/
def taken? (ops : List Operation) (i : Nat) : Option Brightness :=
  if ops[i]? = some .take then given? ops i else none

/-- the matrices that are taken, in the order of the operations -/
def taken (ops : List Operation) : List Brightness :=
  (List.range ops.length).filterMap (taken? ops)

/-- the matrices that are put in -/
def putIn (ops : List Operation) : List Brightness := ops.filterMap Operation.matrix?

/-- what was put in at place `j` can still be taken: since then the store was only looked at -/
structure Pending (ops : List Operation) (j : Nat) (m : Brightness) : Prop where
  put : ops[j]? = some (.put m)
  since : ∀ k op, j < k → ops[k]? = some op → op = .last

/-- what was put in at place `j` is taken at place `i` -/
def Handed (ops : List Operation) (j i : Nat) : Prop :=
  ∃ m, Pending (ops.take i) j m ∧ taken? ops i = some m

section
variable {ops : List Operation} {op : Operation} {m m' : Brightness} {i i' j j' : Nat}

/-! ## one more operation -/

theorem after_concat (ops : List Operation) (op : Operation) :
    after (ops ++ [op]) = ((after ops).perform op).2 := by
  unfold after
  rw [List.foldl_append]
  rfl

theorem taken?_concat_of_lt (op : Operation) (h : i < ops.length) :
    taken? (ops ++ [op]) i = taken? ops i := by
  unfold taken? given?
  rw [List.getElem?_append_left h, List.take_append_of_le_length (Nat.le_of_lt h)]

theorem taken_concat (ops : List Operation) (op : Operation) :
    taken (ops ++ [op]) = taken ops ++ (taken? (ops ++ [op]) ops.length).toList := by
  unfold taken
  rw [List.length_append, List.length_singleton, List.range_succ, List.filterMap_append]
  congr 1
  refine List.filterMap_congr fun i hi => taken?_concat_of_lt op ?_
  exact List.mem_range.mp hi

theorem putIn_concat (ops : List Operation) (op : Operation) :
    putIn (ops ++ [op]) = putIn ops ++ op.matrix?.toList := by
  unfold putIn
  rw [List.filterMap_append]
  cases op <;> rfl

/-! ## places -/

theorem Pending.lt_length (h : Pending ops j m) : j < ops.length :=
  (List.getElem?_eq_some_iff.mp h.put).1

theorem Pending.unique (h : Pending ops j m) (h' : Pending ops j' m') : j = j' ∧ m = m' := by
  have hj : j = j' := by
    rcases Nat.lt_trichotomy j j' with hlt | rfl | hlt
    · cases h.since j' _ hlt h'.put
    · rfl
    · cases h'.since j _ hlt h.put
  subst hj
  have hput := h.put.symm.trans h'.put
  cases hput
  exact ⟨rfl, rfl⟩

theorem pending_concat_iff : Pending (ops ++ [op]) j m ↔
    (op = .put m ∧ j = ops.length) ∨ (op = .last ∧ Pending ops j m) := by
  constructor
  · intro h
    have hj := h.lt_length
    rw [List.length_append, List.length_singleton] at hj
    rcases Nat.lt_or_eq_of_le (Nat.le_of_lt_succ hj) with hlt | rfl
    · refine .inr ⟨h.since ops.length op hlt List.getElem?_concat_length, ?_, ?_⟩
      · exact (List.getElem?_append_left hlt).symm.trans h.put
      · intro k op' hk hop
        have hlen := (List.getElem?_eq_some_iff.mp hop).1
        exact h.since k op' hk (by rw [List.getElem?_append_left hlen, hop])
    · have hput := h.put
      rw [List.getElem?_concat_length] at hput
      exact .inl ⟨Option.some.inj hput, rfl⟩
  · rintro (⟨rfl, rfl⟩ | ⟨rfl, h⟩)
    · refine ⟨List.getElem?_concat_length, fun k op hk hop => ?_⟩
      have hlen := (List.getElem?_eq_some_iff.mp hop).1
      rw [List.length_append, List.length_singleton] at hlen
      omega
    · refine ⟨by rw [List.getElem?_append_left h.lt_length, h.put], fun k op hk hop => ?_⟩
      rw [List.getElem?_append] at hop
      split at hop
      · exact h.since k op hk hop
      · exact List.mem_singleton.mp (List.mem_of_getElem? hop)

/-- what can be taken from the store is what is pending -/
theorem take_after_eq_some_iff (ops : List Operation) (m : Brightness) :
    (after ops).take.1 = some m ↔ ∃ j, Pending ops j m := by
  induction ops using List.reverseRecOn with
  | nil =>
    refine iff_of_false nofun fun ⟨j, hj⟩ => ?_
    exact absurd hj.lt_length (Nat.not_lt_zero j)
  | append_singleton ops op ih =>
    simp only [after_concat, pending_concat_iff]
    cases op with
    | put m' =>
      constructor
      · rintro ⟨⟩
        exact ⟨_, .inl ⟨rfl, rfl⟩⟩
      · rintro ⟨j, ⟨⟨⟩, -⟩ | ⟨⟨⟩, -⟩⟩
        rfl
    | take =>
      refine iff_of_false ?_ (by simp)
      show (after ops).take.2.take.1 ≠ _
      rw [take_take]
      exact nofun
    | last =>
      show (after ops).take.1 = some m ↔ _
      simpa using ih
    | drop => exact iff_of_false nofun (by simp)

theorem taken?_eq (h : ops[i]? = some .take) : taken? ops i = (after (ops.take i)).take.1 := by
  unfold taken? given?
  rw [if_pos h, h]
  rfl

theorem operation_of_taken? (h : taken? ops i = some m) : ops[i]? = some .take := by
  unfold taken? at h
  split at h
  · assumption
  · cases h

theorem Handed.take (h : Handed ops j i) : ops[i]? = some .take := by
  obtain ⟨m, -, htaken⟩ := h
  exact operation_of_taken? htaken

theorem handed_iff : Handed ops j i ↔ ops[i]? = some .take ∧ ∃ m, Pending (ops.take i) j m := by
  constructor
  · intro h
    obtain ⟨m, hpending, htaken⟩ := h
    exact ⟨operation_of_taken? htaken, m, hpending⟩
  · rintro ⟨htake, m, hpending⟩
    refine ⟨m, hpending, ?_⟩
    rw [taken?_eq htake]
    exact (take_after_eq_some_iff _ m).mpr ⟨j, hpending⟩

theorem handed_of_taken? (h : taken? ops i = some m) :
    ∃ j, Handed ops j i ∧ ops[j]? = some (.put m) := by
  have htake := operation_of_taken? h
  rw [taken?_eq htake, take_after_eq_some_iff] at h
  obtain ⟨j, hj⟩ := h
  have hlt := hj.lt_length
  rw [List.length_take] at hlt
  refine ⟨j, handed_iff.mpr ⟨htake, m, hj⟩, ?_⟩
  rw [← List.getElem?_take_of_lt (by omega : j < i)]
  exact hj.put

/-- in places: nothing but looks between the two -/
theorem handed_iff_between (hput : ops[j]? = some (.put m)) : Handed ops j i ↔
    j < i ∧ ops[i]? = some .take ∧ ∀ k op, j < k → k < i → ops[k]? = some op → op = .last := by
  rw [handed_iff]
  constructor
  · rintro ⟨htake, m', hpending⟩
    have hlt := hpending.lt_length
    rw [List.length_take] at hlt
    refine ⟨by omega, htake, fun k op hjk hki hop => hpending.since k op hjk ?_⟩
    rwa [List.getElem?_take_of_lt hki]
  · rintro ⟨hji, htake, hbetween⟩
    refine ⟨htake, m, by rwa [List.getElem?_take_of_lt hji], fun k op hjk hop => ?_⟩
    have hki := (List.getElem?_eq_some_iff.mp hop).1
    rw [List.length_take] at hki
    have hki : k < i := by omega
    rw [List.getElem?_take_of_lt hki] at hop
    exact hbetween k op hjk hki hop

theorem Handed.put (h : Handed ops j i) : ∃ m, ops[j]? = some (.put m) ∧ taken? ops i = some m := by
  obtain ⟨m, hpending, htaken⟩ := h
  have hlt := hpending.lt_length
  rw [List.length_take] at hlt
  have hput := hpending.put
  rw [List.getElem?_take_of_lt (by omega)] at hput
  exact ⟨m, hput, htaken⟩

/-- an earlier `take` hands out what was put in earlier -/
theorem Handed.lt_of_lt (h : Handed ops j i) (h' : Handed ops j' i') (hlt : i < i') : j < j' := by
  obtain ⟨m, hput, -⟩ := h.put
  obtain ⟨m', hput', -⟩ := h'.put
  obtain ⟨hji, htake, -⟩ := (handed_iff_between hput).mp h
  obtain ⟨-, -, hbetween⟩ := (handed_iff_between hput').mp h'
  by_contra hle
  -- the `take` at `i` would lie between a `put` and the `take` of it
  cases hbetween i _ (by omega) hlt htake

theorem Handed.lt_iff (h : Handed ops j i) (h' : Handed ops j' i') : i < i' ↔ j < j' := by
  refine ⟨h.lt_of_lt h', fun hj => ?_⟩
  rcases Nat.lt_trichotomy i i' with hlt | rfl | hlt
  · exact hlt
  · obtain ⟨-, m, hpending⟩ := handed_iff.mp h
    obtain ⟨-, m', hpending'⟩ := handed_iff.mp h'
    have := (hpending.unique hpending').1
    omega
  · have := h'.lt_of_lt h hlt
    omega

/-! ## the matrices taken and the matrix put in last -/

/-- what is taken was put in, in this order; a matrix that can be taken is the newest of those put
in, and has not been taken -/
theorem taken_sublist_before (ops : List Operation) :
    ∃ before, (taken ops).Sublist before ∧
      putIn ops = before ++ (after ops).take.1.toList := by
  induction ops using List.reverseRecOn with
  | nil => exact ⟨[], .slnil, rfl⟩
  | append_singleton ops op ih =>
    obtain ⟨before, hsublist, hput⟩ := ih
    have hnone : op ≠ .take → taken? (ops ++ [op]) ops.length = none := by
      intro hop
      unfold taken?
      rw [List.getElem?_concat_length, if_neg (fun h => hop (Option.some.inj h))]
    rw [taken_concat, putIn_concat, after_concat]
    cases op with
    | put m =>
      rw [hnone nofun]
      refine ⟨putIn ops, ?_, rfl⟩
      rw [hput]
      simpa using hsublist.trans (List.sublist_append_left _ _)
    | take =>
      rw [taken?_eq List.getElem?_concat_length, List.take_left]
      show ∃ _, _ ∧ _ = _ ++ (after ops).take.2.take.1.toList
      rw [take_take]
      exact ⟨_, hsublist.append_right _, by simpa [Operation.matrix?] using hput⟩
    | last =>
      rw [hnone nofun]
      show ∃ _, _ ∧ _ = _ ++ (after ops).take.1.toList
      exact ⟨before, by simpa using hsublist, by simpa [Operation.matrix?] using hput⟩
    | drop =>
      rw [hnone nofun]
      refine ⟨putIn ops, ?_, rfl⟩
      rw [hput]
      simpa using hsublist.trans (List.sublist_append_left _ _)

theorem last_after (ops : List Operation) :
    (after ops).last = (putIn ops).getLast?.getD dark := by
  induction ops using List.reverseRecOn with
  | nil => rfl
  | append_singleton ops op ih =>
    rw [after_concat, putIn_concat]
    cases op with
    | put m => simp [perform, put, last, Operation.matrix?]
    | take =>
      show (after ops).take.2.last = _
      rw [last_take, ih]
      simp [Operation.matrix?]
    | last => simpa [perform, Operation.matrix?] using ih
    | drop => simpa [perform, drop, last, Operation.matrix?] using ih

end

/-! ## every list of operations -/

/-- what holds of the operations on a new store -/
structure HandsOutOnce (ops : List Operation) : Prop where
  /-- a matrix is handed out exactly if the first operation after its `put` that is no `last` is a
  `take` -/
  handed_iff : ∀ {j m}, ops[j]? = some (.put m) → ∀ i, Handed ops j i ↔
    j < i ∧ ops[i]? = some .take ∧ ∀ k op, j < k → k < i → ops[k]? = some op → op = .last
  /-- the `take` gives back this matrix -/
  handed : ∀ {j i}, Handed ops j i →
    ∃ m, ops[j]? = some (.put m) ∧ given? ops i = some m
  /-- every other `take` gives nothing back -/
  others : ∀ {i}, ops[i]? = some .take → (¬ ∃ j, Handed ops j i) → given? ops i = none
  /-- it is the only `take` to give back a matrix that is put in once -/
  only : ∀ {j i m}, (∀ j', ops[j']? = some (.put m) ↔ j' = j) → ops[i]? = some .take →
    given? ops i = some m → Handed ops j i
  once : ∀ {j i i'}, Handed ops j i → Handed ops j i' → i = i'
  /-- no `take` hands out two matrices -/
  single : ∀ {j j' i}, Handed ops j i → Handed ops j' i → j = j'
  ordered : ∀ {j i j' i'}, Handed ops j i → Handed ops j' i' → (i < i' ↔ j < j')
  sublist : (taken ops).Sublist (putIn ops)
  /-- matrices that are put in once are taken at most once -/
  nodup : (putIn ops).Nodup → (taken ops).Nodup
  /-- a look shows the matrix put in last, whatever was taken or dropped since -/
  last : ∀ {i}, ops[i]? = some .last →
    given? ops i = some ((putIn (ops.take i)).getLast?.getD dark)

theorem taken_sublist (ops : List Operation) : (taken ops).Sublist (putIn ops) := by
  obtain ⟨before, hsublist, hput⟩ := taken_sublist_before ops
  rw [hput]
  exact hsublist.trans (List.sublist_append_left _ _)

theorem taken?_eq_given? {ops : List Operation} {i : Nat} (h : ops[i]? = some .take) :
    taken? ops i = given? ops i := if_pos h

/-- a store hands out each matrix at most once, in order, and keeps showing the newest -/
theorem handsOutOnce (ops : List Operation) : HandsOutOnce ops where
  handed_iff hput _ := handed_iff_between hput
  handed h := by
    obtain ⟨m, hput, htaken⟩ := h.put
    rw [taken?_eq_given? h.take] at htaken
    exact ⟨m, hput, htaken⟩
  others htake hnone := by
    rw [← taken?_eq_given? htake, Option.eq_none_iff_forall_ne_some]
    intro m hm
    obtain ⟨j, hj, -⟩ := handed_of_taken? hm
    exact hnone ⟨j, hj⟩
  only honce htake hgiven := by
    rw [← taken?_eq_given? htake] at hgiven
    obtain ⟨j, hj, hput⟩ := handed_of_taken? hgiven
    rwa [(honce j).mp hput] at hj
  once h h' := by
    have hlt := h.lt_iff h'
    have hgt := h'.lt_iff h
    omega
  single h h' := by
    have hlt := h.lt_iff h'
    have hgt := h'.lt_iff h
    omega
  ordered h h' := h.lt_iff h'
  sublist := taken_sublist ops
  nodup hput := hput.sublist (taken_sublist ops)
  last {i} h := by
    unfold given?
    rw [h, ← last_after]
    rfl

end Store

end Brightness

end RangeBearing
