import Mathlib

/-!
# Finite maps without an order of their own

A hash map is a lookup function with finitely many keys; the order in which it
hands its keys to a loop is an accident.  This file keeps the two apart: two
maps with equal lookups are equal, and an `Enumeration` is any duplicate-free
list of the keys.
-/

namespace MiniKV

/-- A lookup function together with the finite set of keys it answers. -/
structure FiniteMap (Key Value : Type*) where
  lookup : Key → Option Value
  support : Finset Key
  mem_support : ∀ key, key ∈ support ↔ (lookup key).isSome

namespace FiniteMap

variable {Key Value : Type*}

@[ext]
theorem ext {left right : FiniteMap Key Value}
    (hlookup : ∀ key, left.lookup key = right.lookup key) : left = right := by
  have hfun : left.lookup = right.lookup := funext hlookup
  have hsupport : left.support = right.support := by
    ext key
    rw [left.mem_support, right.mem_support, hlookup]
  cases left
  cases right
  subst hfun hsupport
  rfl

def empty : FiniteMap Key Value where
  lookup _ := none
  support := ∅
  mem_support _ := by simp

@[simp]
theorem lookup_empty (key : Key) :
    (empty : FiniteMap Key Value).lookup key = none := rfl

/-- How many keys the map has. -/
def size (map : FiniteMap Key Value) : ℕ := map.support.card

/-- Keep the entries that satisfy `keep`. -/
def filter (map : FiniteMap Key Value) (keep : Key → Value → Bool) :
    FiniteMap Key Value where
  lookup key := (map.lookup key).filter (keep key)
  support := map.support.filter fun key =>
    ((map.lookup key).filter (keep key)).isSome
  mem_support key := by
    rw [Finset.mem_filter, map.mem_support]
    cases map.lookup key <;> simp

@[simp]
theorem lookup_filter (map : FiniteMap Key Value)
    (keep : Key → Value → Bool) (key : Key) :
    (map.filter keep).lookup key = (map.lookup key).filter (keep key) := rfl

section Update

variable [DecidableEq Key]

/-- Write one key, whether it was there or not. -/
def insert (map : FiniteMap Key Value) (key : Key) (value : Value) :
    FiniteMap Key Value where
  lookup := Function.update map.lookup key (some value)
  support := Insert.insert key map.support
  mem_support other := by
    by_cases hother : other = key
    · simp [hother]
    · simp [hother, map.mem_support]

theorem lookup_insert (map : FiniteMap Key Value) (key other : Key)
    (value : Value) :
    (map.insert key value).lookup other =
      if other = key then some value else map.lookup other := by
  simp [insert, Function.update_apply]

@[simp]
theorem lookup_insert_self (map : FiniteMap Key Value) (key : Key)
    (value : Value) : (map.insert key value).lookup key = some value := by
  simp [lookup_insert]

theorem lookup_insert_of_ne (map : FiniteMap Key Value) {key other : Key}
    (value : Value) (hother : other ≠ key) :
    (map.insert key value).lookup other = map.lookup other := by
  simp [lookup_insert, hother]

/-- Forget one key. -/
def erase (map : FiniteMap Key Value) (key : Key) : FiniteMap Key Value where
  lookup := Function.update map.lookup key none
  support := map.support.erase key
  mem_support other := by
    by_cases hother : other = key
    · simp [hother]
    · simp [hother, map.mem_support]

theorem lookup_erase (map : FiniteMap Key Value) (key other : Key) :
    (map.erase key).lookup other =
      if other = key then none else map.lookup other := by
  simp [erase, Function.update_apply]

@[simp]
theorem lookup_erase_self (map : FiniteMap Key Value) (key : Key) :
    (map.erase key).lookup key = none := by
  simp [lookup_erase]

theorem lookup_erase_of_ne (map : FiniteMap Key Value) {key other : Key}
    (hother : other ≠ key) :
    (map.erase key).lookup other = map.lookup other := by
  simp [lookup_erase, hother]

theorem size_insert_of_missing {map : FiniteMap Key Value} {key : Key}
    (hmissing : map.lookup key = none) (value : Value) :
    (map.insert key value).size = map.size + 1 := by
  apply Finset.card_insert_of_notMem
  rw [map.mem_support, hmissing]
  exact Bool.false_ne_true

theorem size_insert_of_found {map : FiniteMap Key Value} {key : Key}
    {found : Value} (hfound : map.lookup key = some found) (value : Value) :
    (map.insert key value).size = map.size := by
  have hmem : key ∈ map.support := by
    rw [map.mem_support, hfound]
    rfl
  exact congrArg Finset.card (Finset.insert_eq_of_mem hmem)

theorem size_erase_of_found {map : FiniteMap Key Value} {key : Key}
    {found : Value} (hfound : map.lookup key = some found) :
    (map.erase key).size + 1 = map.size := by
  have hmem : key ∈ map.support := by
    rw [map.mem_support, hfound]
    rfl
  exact Finset.card_erase_add_one hmem

end Update

theorem size_eq_zero_iff {map : FiniteMap Key Value} :
    map.size = 0 ↔ ∀ key, map.lookup key = none := by
  rw [size, Finset.card_eq_zero, Finset.eq_empty_iff_forall_notMem]
  exact forall_congr' fun key => by
    rw [mem_support, Option.not_isSome_iff_eq_none]

/-- Maps with the same keys have the same size. -/
theorem size_congr {Other : Type*} {left : FiniteMap Key Value}
    {right : FiniteMap Key Other}
    (hkeys : ∀ key, (left.lookup key).isSome = (right.lookup key).isSome) :
    left.size = right.size := by
  have hsupport : left.support = right.support := by
    ext key
    rw [left.mem_support, right.mem_support, hkeys]
  exact congrArg Finset.card hsupport

/-- One order in which a loop over the map may visit its keys. -/
structure Enumeration (map : FiniteMap Key Value) where
  keys : List Key
  nodup : keys.Nodup
  mem_keys : ∀ key, key ∈ keys ↔ (map.lookup key).isSome

namespace Enumeration

variable {map : FiniteMap Key Value}

theorem card_eq (enumeration : Enumeration map) :
    enumeration.keys.length = map.size := by
  have hsupport : (⟨enumeration.keys, enumeration.nodup⟩ : Finset Key) =
      map.support := by
    ext key
    rw [map.mem_support, ← enumeration.mem_keys]
    exact Iff.rfl
  exact congrArg Finset.card hsupport

/-- What a filter keeps and what it drops, counted by a loop. -/
theorem size_filter_add (enumeration : Enumeration map)
    (keep : Key → Value → Bool) :
    (map.filter keep).size + (enumeration.keys.filter fun key =>
      (map.lookup key).any fun value => !keep key value).length =
        map.size := by
  have hkept : (map.filter keep).size = (enumeration.keys.filter fun key =>
      !(map.lookup key).any fun value => !keep key value).length := by
    have hsupport : (⟨enumeration.keys.filter fun key =>
        !(map.lookup key).any fun value => !keep key value,
        enumeration.nodup.filter _⟩ : Finset Key) =
          (map.filter keep).support := by
      ext key
      rw [(map.filter keep).mem_support, lookup_filter]
      change key ∈ enumeration.keys.filter _ ↔ _
      rw [List.mem_filter, enumeration.mem_keys]
      cases map.lookup key <;> simp
    exact (congrArg Finset.card hsupport).symm
  rw [hkept, ← enumeration.card_eq, Nat.add_comm, ← List.countP_eq_length_filter,
    ← List.countP_eq_length_filter, List.length_eq_countP_add_countP
      fun key => (map.lookup key).any fun value => !keep key value]
  simp only [Bool.not_eq_true, Bool.decide_eq_false]

end Enumeration

section Order

variable [LinearOrder Key]

/-- Sort the members of a multiset.  Insertion sort evaluates in the kernel,
which merge sort does not. -/
def sortMembers (members : Multiset Key) : List Key :=
  Quot.liftOn members (List.insertionSort (· ≤ ·)) fun left right hperm =>
    have hsorted : (left.insertionSort (· ≤ ·)).Perm
        (right.insertionSort (· ≤ ·)) :=
      (List.perm_insertionSort _ left).trans
        (hperm.trans (List.perm_insertionSort _ right).symm)
    hsorted.eq_of_pairwise' (List.pairwise_insertionSort _ _)
      (List.pairwise_insertionSort _ _)

theorem coe_sortMembers (members : Multiset Key) :
    (sortMembers members : Multiset Key) = members := by
  induction members using Quot.inductionOn with
  | h keys => exact Quot.sound (List.perm_insertionSort _ keys)

/-- The keys in ascending order. -/
def sortedKeys (map : FiniteMap Key Value) : List Key :=
  sortMembers map.support.val

theorem mem_sortedKeys (map : FiniteMap Key Value) (key : Key) :
    key ∈ map.sortedKeys ↔ (map.lookup key).isSome := by
  rw [sortedKeys, ← Multiset.mem_coe, coe_sortMembers, Finset.mem_val,
    map.mem_support]

theorem nodup_sortedKeys (map : FiniteMap Key Value) :
    map.sortedKeys.Nodup := by
  rw [sortedKeys, ← Multiset.coe_nodup, coe_sortMembers]
  exact map.support.nodup

/-- The ascending enumeration; the one to use where a concrete order is
needed. -/
def ascending (map : FiniteMap Key Value) : Enumeration map where
  keys := map.sortedKeys
  nodup := map.nodup_sortedKeys
  mem_keys := map.mem_sortedKeys

end Order

end FiniteMap

end MiniKV
