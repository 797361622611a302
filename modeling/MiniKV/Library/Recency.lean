import Mathlib

/-!
# Recency lists

A bounded map as a list of pairs, most recently used first.  Stamps say when a
key was last used; a list of small capacity stays a part of a list of larger
capacity that sees the same uses.
-/

namespace MiniKV

namespace Recency

variable {Key Value : Type*} [DecidableEq Key]

/-- All pairs but the one of the key. -/
def without (key : Key) (pairs : List (Key × Value)) : List (Key × Value) :=
  pairs.filter fun pair => pair.1 ≠ key

/-- The pair of the key moves to the front. -/
def touch (key : Key) (pairs : List (Key × Value)) : List (Key × Value) :=
  pairs.filter (fun pair => pair.1 = key) ++ without key pairs

/-- A new pair goes to the front; what does not fit falls off the end. -/
def store (capacity : ℕ) (key : Key) (value : Value)
    (pairs : List (Key × Value)) : List (Key × Value) :=
  ((key, value) :: without key pairs).take capacity

variable {key : Key} {value : Value} {pairs : List (Key × Value)}

theorem mem_without {pair : Key × Value} :
    pair ∈ without key pairs ↔ pair ∈ pairs ∧ pair.1 ≠ key := by
  simp [without]

theorem without_eq_self (hmissing : ∀ pair ∈ pairs, pair.1 ≠ key) :
    without key pairs = pairs := by
  rw [without, List.filter_eq_self]
  intro pair hpair
  exact decide_eq_true (hmissing pair hpair)

theorem touch_eq_self (hmissing : ∀ pair ∈ pairs, pair.1 ≠ key) :
    touch key pairs = pairs := by
  have hnone : pairs.filter (fun pair => pair.1 = key) = [] := by
    rw [List.filter_eq_nil_iff]
    intro pair hpair
    simpa using hmissing pair hpair
  rw [touch, hnone, without_eq_self hmissing, List.nil_append]

theorem filter_key_eq (hkeys : (pairs.map Prod.fst).Nodup)
    (hpair : (key, value) ∈ pairs) :
    pairs.filter (fun pair => pair.1 = key) = [(key, value)] := by
  induction pairs with
  | nil => exact absurd hpair List.not_mem_nil
  | cons head tail ih =>
      rw [List.map_cons, List.nodup_cons] at hkeys
      rcases List.mem_cons.mp hpair with rfl | htail
      · have hnone : tail.filter (fun pair => pair.1 = key) = [] := by
          rw [List.filter_eq_nil_iff]
          intro pair hmem
          have hne : pair.1 ≠ key := by
            intro hsame
            apply hkeys.1
            exact List.mem_map.mpr ⟨pair, hmem, hsame⟩
          simpa using hne
        rw [List.filter_cons_of_pos (by simp), hnone]
      · have hne : head.1 ≠ key := by
          intro hsame
          apply hkeys.1
          exact List.mem_map.mpr ⟨(key, value), htail, hsame.symm⟩
        rw [List.filter_cons_of_neg (by simpa using hne)]
        exact ih hkeys.2 htail

/-- A touched pair stands in front of the others. -/
theorem touch_eq_cons (hkeys : (pairs.map Prod.fst).Nodup)
    (hpair : (key, value) ∈ pairs) :
    touch key pairs = (key, value) :: without key pairs := by
  rw [touch, filter_key_eq hkeys hpair, List.singleton_append]

theorem length_filter_add_without (key : Key) (pairs : List (Key × Value)) :
    (pairs.filter fun pair => pair.1 = key).length +
      (without key pairs).length = pairs.length := by
  have hsplit := List.length_eq_length_filter_add
    (l := pairs) fun pair => decide (pair.1 = key)
  rw [hsplit, without]
  simp

/-! ## The order of use -/

/-- Every pair was used after the ones behind it, and all before `time`. -/
structure Ordered (stamp : Key → ℕ) (time : ℕ)
    (pairs : List (Key × Value)) : Prop where
  recent : pairs.Pairwise fun recent older => stamp older.1 < stamp recent.1
  past : ∀ pair ∈ pairs, stamp pair.1 < time

namespace Ordered

variable {stamp : Key → ℕ} {time : ℕ}

omit [DecidableEq Key] in
theorem nil (stamp : Key → ℕ) (time : ℕ) :
    Ordered stamp time ([] : List (Key × Value)) :=
  ⟨List.Pairwise.nil, fun _ hpair => absurd hpair List.not_mem_nil⟩

omit [DecidableEq Key] in
theorem sublist (hordered : Ordered stamp time pairs)
    {fewer : List (Key × Value)} (hfewer : fewer.Sublist pairs) :
    Ordered stamp time fewer :=
  ⟨hordered.recent.sublist hfewer,
    fun pair hpair => hordered.past pair (hfewer.subset hpair)⟩

omit [DecidableEq Key] in
theorem tick (hordered : Ordered stamp time pairs) :
    Ordered stamp (time + 1) pairs :=
  ⟨hordered.recent, fun pair hpair =>
    (hordered.past pair hpair).trans (Nat.lt_succ_self time)⟩

/-- Using a key puts it in front of everything else. -/
theorem front (hordered : Ordered stamp time pairs) (key : Key)
    (value : Value) :
    Ordered (Function.update stamp key time) (time + 1)
      ((key, value) :: without key pairs) := by
  have hothers : Ordered stamp time (without key pairs) :=
    hordered.sublist List.filter_sublist
  have hstamp : ∀ pair ∈ without key pairs,
      Function.update stamp key time pair.1 = stamp pair.1 :=
    fun pair hpair => Function.update_of_ne (mem_without.mp hpair).2 _ _
  constructor
  · rw [List.pairwise_cons]
    constructor
    · intro pair hpair
      rw [hstamp pair hpair, Function.update_self]
      exact hothers.past pair hpair
    · apply hothers.recent.imp_of_mem
      intro recent older hrecent holder hlt
      rw [hstamp recent hrecent, hstamp older holder]
      exact hlt
  · intro pair hpair
    rcases List.mem_cons.mp hpair with rfl | hother
    · rw [Function.update_self]
      exact Nat.lt_succ_self time
    · rw [hstamp pair hother]
      exact (hothers.past pair hother).trans (Nat.lt_succ_self time)

omit [DecidableEq Key] in
/-- The last pair is the one that was not used for the longest time. -/
theorem last_lt (hordered : Ordered stamp time pairs)
    {front : List (Key × Value)} {last : Key × Value}
    (hsplit : pairs = front ++ [last]) {pair : Key × Value}
    (hpair : pair ∈ front) : stamp last.1 < stamp pair.1 := by
  have hrecent := hordered.recent
  rw [hsplit, List.pairwise_append] at hrecent
  exact hrecent.2.2 pair hpair last (List.mem_singleton_self last)

end Ordered

/-- A full list drops its last pair for a new one. -/
theorem store_full {front : List (Key × Value)} {last : Key × Value}
    {capacity : ℕ} (hmissing : ∀ pair ∈ front ++ [last], pair.1 ≠ key)
    (hfull : (front ++ [last]).length = capacity) :
    store capacity key value (front ++ [last]) = (key, value) :: front := by
  rw [store, without_eq_self hmissing, ← List.cons_append, ← hfull]
  rw [List.length_append, List.length_singleton]
  exact List.take_left' rfl

theorem store_room {capacity : ℕ}
    (hroom : (without key pairs).length < capacity) :
    store capacity key value pairs = (key, value) :: without key pairs :=
  List.take_of_length_le hroom

/-! ## Lists of different capacity -/

omit [DecidableEq Key] in
/-- Cutting two lists keeps the shorter one a part of the longer one as long as
the longer one may have the surplus that it has. -/
theorem take_sublist_take {Item : Type*} {small large : List Item}
    (hsublist : small.Sublist large) {few many : ℕ}
    (hsurplus : large.length + few ≤ small.length + many) :
    (small.take few).Sublist (large.take many) := by
  induction hsublist generalizing few many with
  | slnil => simp
  | @cons small large item hsublist ih =>
      cases many with
      | zero =>
          have hlength := hsublist.length_le
          rw [List.length_cons] at hsurplus
          omega
      | succ many =>
          rw [List.take_succ_cons]
          apply List.Sublist.cons
          apply ih
          rw [List.length_cons] at hsurplus
          omega
  | @cons_cons small large item hsublist ih =>
      rw [List.length_cons, List.length_cons] at hsurplus
      cases few with
      | zero => exact List.nil_sublist _
      | succ few =>
          cases many with
          | zero =>
              have hlength := hsublist.length_le
              omega
          | succ many =>
              rw [List.take_succ_cons, List.take_succ_cons]
              apply List.Sublist.cons_cons
              apply ih
              omega

/-- The small list is a part of the large one in the same order, and the large
one has no more surplus than its capacity gives it. -/
structure Covered (capacity larger : ℕ) (small large : List (Key × Value)) :
    Prop where
  sublist : small.Sublist large
  surplus : large.length + capacity ≤ small.length + larger

namespace Covered

variable {capacity larger : ℕ} {small large : List (Key × Value)}

omit [DecidableEq Key] in
theorem nil (hlarger : capacity ≤ larger) :
    Covered capacity larger ([] : List (Key × Value)) [] :=
  ⟨List.Sublist.refl _, Nat.add_le_add_left hlarger _⟩

theorem touch (hcovered : Covered capacity larger small large) (key : Key) :
    Covered capacity larger (touch key small) (touch key large) := by
  constructor
  · exact (hcovered.sublist.filter _).append (hcovered.sublist.filter _)
  · have hsurplus := hcovered.surplus
    rw [Recency.touch, Recency.touch, List.length_append, List.length_append,
      length_filter_add_without, length_filter_add_without]
    exact hsurplus

theorem without (hcovered : Covered capacity larger small large) (key : Key) :
    Covered capacity larger (without key small) (without key large) := by
  constructor
  · exact hcovered.sublist.filter _
  · have hsurplus := hcovered.surplus
    have hdropped := (hcovered.sublist.filter
      fun pair => decide (pair.1 = key)).length_le
    have hsmall := length_filter_add_without key small
    have hlarge := length_filter_add_without key large
    omega

theorem store (hcovered : Covered capacity larger small large) (key : Key)
    (value : Value) :
    Covered capacity larger (store capacity key value small)
      (store larger key value large) := by
  have hothers := hcovered.without key
  have hsurplus := hothers.surplus
  constructor
  · apply take_sublist_take (hothers.sublist.cons_cons _)
    rw [List.length_cons, List.length_cons]
    omega
  · rw [Recency.store, Recency.store, List.length_take, List.length_take,
      List.length_cons, List.length_cons]
    omega

end Covered

end Recency

end MiniKV
