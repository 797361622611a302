import MiniKV.Cache.RecencyList

/-!
# A larger cache keeps every hit

The recency list of the smaller cache stays a part of the list of the larger
one, in the same order, although a `get` may reorder the larger cache only.
-/

namespace MiniKV

namespace LruCache

variable {Key Value : Type}

/-- Two well-formed caches of which the second covers the first. -/
structure Included (small large : LruCache Key Value) : Prop where
  smallFormed : small.WellFormed
  largeFormed : large.WellFormed
  covered : Recency.Covered small.capacity large.capacity small.pairs
    large.pairs

/-- What hits in the smaller cache hits in the larger one. -/
def Agrees (few many : Option Value) : Prop :=
  ∀ value, few = some value → many = some value

theorem included_new {capacity larger : ℕ} (hlarger : capacity ≤ larger) :
    Included (new capacity : LruCache Key Value) (new larger) where
  smallFormed := wellFormed_new capacity
  largeFormed := wellFormed_new larger
  covered := Recency.Covered.nil hlarger

variable {small large : LruCache Key Value}

theorem Included.holds (hincluded : Included small large) {key : Key}
    {value : Value} (hholds : small.Holds key value) :
    large.Holds key value := by
  rw [← mem_pairs_iff] at hholds ⊢
  exact hincluded.covered.sublist.subset hholds

theorem Included.get_agrees (hincluded : Included small large) (key : Key) :
    Agrees (small.get key).2 (large.get key).2 := by
  intro value hhit
  rw [get_hits_iff hincluded.smallFormed] at hhit
  rw [get_hits_iff hincluded.largeFormed]
  exact hincluded.covered.sublist.subset hhit

variable [DecidableEq Key]

theorem Included.covered_perform (hincluded : Included small large)
    (call : CacheCall Key Value) :
    Recency.Covered small.capacity large.capacity (small.perform call).1.pairs
      (large.perform call).1.pairs := by
  have hcovered := hincluded.covered
  cases call with
  | get key =>
      change Recency.Covered _ _ (small.get key).1.pairs (large.get key).1.pairs
      rw [pairs_get hincluded.smallFormed.toLinked,
        pairs_get hincluded.largeFormed.toLinked]
      exact hcovered.touch key
  | put key value =>
      change Recency.Covered _ _ (small.put key value).pairs
        (large.put key value).pairs
      rw [pairs_put hincluded.smallFormed, pairs_put hincluded.largeFormed]
      exact hcovered.store key value
  | erase key =>
      change Recency.Covered _ _ (small.erase key).pairs (large.erase key).pairs
      rw [pairs_erase hincluded.smallFormed.toLinked,
        pairs_erase hincluded.largeFormed.toLinked]
      exact hcovered.without key
  | clear => exact ⟨List.Sublist.refl _, by
      have hsurplus := hcovered.surplus
      have hlength := hcovered.sublist.length_le
      change 0 + small.capacity ≤ 0 + large.capacity
      omega⟩

/-- One call on both caches. -/
theorem Included.perform (hincluded : Included small large)
    (call : CacheCall Key Value) :
    Agrees (small.perform call).2 (large.perform call).2 ∧
      Included (small.perform call).1 (large.perform call).1 := by
  constructor
  · cases call with
    | get key => exact hincluded.get_agrees key
    | put key value => exact fun _ hhit => hhit
    | erase key => exact fun _ hhit => hhit
    | clear => exact fun _ hhit => hhit
  · refine ⟨wellFormed_perform hincluded.smallFormed call,
      wellFormed_perform hincluded.largeFormed call, ?_⟩
    rw [capacity_perform, capacity_perform]
    exact hincluded.covered_perform call

/-- Whatever the calls, every key of the smaller cache is in the larger one with
the same value, and every hit of the smaller cache is one of the larger. -/
theorem larger_cache_keeps_hits {capacity larger : ℕ}
    (hlarger : capacity ≤ larger) (calls : List (CacheCall Key Value)) :
    (∀ key value,
      (machine.run calls (new capacity)).1.Holds key value →
        (machine.run calls (new larger)).1.Holds key value) ∧
    (∀ key left right,
      (machine.run calls (new capacity)).1.Holds key left →
        (machine.run calls (new larger)).1.Holds key right → left = right) ∧
    List.Forall₂ Agrees (machine.run calls (new capacity)).2
      (machine.run calls (new larger)).2 := by
  have hstep : ∀ call ∈ calls, ∀ left right : LruCache Key Value,
      Included left right →
      Agrees (machine.step call left).2 (machine.step call right).2 ∧
        Included (machine.step call left).1 (machine.step call right).1 :=
    fun call _ _ _ hincluded => hincluded.perform call
  obtain ⟨hagree, hincluded⟩ :=
    Machine.run_related hstep (included_new hlarger)
  refine ⟨fun key value => hincluded.holds, ?_, hagree⟩
  intro key left right hleft hright
  exact hincluded.largeFormed.holds_unique (hincluded.holds hleft) hright

/-- A `get` that hits in the larger cache only, between puts that fill both. -/
theorem larger_cache_keeps_hits_behind_lone_hit :
    let calls : List (CacheCall ℕ ℕ) :=
      [.put 1 10, .put 2 20, .get 1, .put 3 30, .erase 3, .put 4 40, .get 4]
    List.Forall₂ Agrees (machine.run calls (new 1)).2
      (machine.run calls (new 3)).2 :=
  (larger_cache_keeps_hits (by decide) _).2.2

end LruCache

end MiniKV
