import MiniKV.Concrete.LruCache
import MiniKV.Library.Machine
import MiniKV.Library.Recency

/-!
# The cache as a recency list

Forgetting the node identities turns the entries of a well-formed cache into a
recency list, and each operation into the one of that list.
-/

namespace MiniKV

/-- The calls on a cache. -/
inductive CacheCall (Key Value : Type)
  | get (key : Key)
  | put (key : Key) (value : Value)
  | erase (key : Key)
  | clear

namespace LruCache

variable {Key Value : Type}

/-- The cached pairs, most recently used first. -/
def pairs (cache : LruCache Key Value) : List (Key × Value) :=
  cache.entries.map fun entry => (entry.key, entry.value)

variable {cache : LruCache Key Value}

theorem mem_pairs_iff (key : Key) (value : Value) :
    (key, value) ∈ cache.pairs ↔ cache.Holds key value := by
  simp [pairs, Holds]

theorem length_pairs (cache : LruCache Key Value) :
    cache.pairs.length = cache.entries.length :=
  List.length_map _

theorem keys_pairs (cache : LruCache Key Value) :
    cache.pairs.map Prod.fst = cache.entries.map Node.key :=
  List.map_map

theorem nodup_keys_pairs (hcache : cache.Linked) :
    (cache.pairs.map Prod.fst).Nodup := by
  rw [keys_pairs]
  exact hcache.keys_nodup

variable [DecidableEq Key]

/-- One call on the cache. -/
def perform (call : CacheCall Key Value) (cache : LruCache Key Value) :
    LruCache Key Value × Option Value :=
  match call with
  | .get key => cache.get key
  | .put key value => (cache.put key value, none)
  | .erase key => (cache.erase key, none)
  | .clear => (cache.clear, none)

/-- The cache as a machine. -/
def machine : Machine (CacheCall Key Value) (LruCache Key Value)
    (Option Value) := ⟨perform⟩

theorem wellFormed_perform (hcache : cache.WellFormed)
    (call : CacheCall Key Value) : (cache.perform call).1.WellFormed := by
  cases call with
  | get key => exact wellFormed_get hcache key
  | put key value => exact wellFormed_put hcache key value
  | erase key => exact wellFormed_erase hcache key
  | clear => exact wellFormed_clear cache

omit [DecidableEq Key] in
theorem pair_key_ne (hcache : cache.Linked) {key : Key}
    (hmiss : cache.index.lookup key = none) :
    ∀ pair ∈ cache.pairs, pair.1 ≠ key := by
  intro pair hpair
  obtain ⟨entry, hentry, rfl⟩ := List.mem_map.mp hpair
  exact hcache.key_ne_of_lookup_none hmiss hentry

/-- Among the entries of a cache, the node of a key is the one with that
key. -/
theorem filter_id_eq (hcache : cache.Linked) {target : Node Key Value}
    (htarget : target ∈ cache.entries) :
    cache.entries.filter (fun entry => decide (entry.id = target.id)) =
      cache.entries.filter fun entry => decide (entry.key = target.key) := by
  apply List.filter_congr
  intro entry hentry
  rw [decide_eq_decide]
  constructor
  · intro hid
    rw [hcache.eq_of_id hentry htarget hid]
  · intro hkey
    rw [hcache.eq_of_key hentry htarget hkey]

theorem filter_id_ne (hcache : cache.Linked) {target : Node Key Value}
    (htarget : target ∈ cache.entries) :
    cache.entries.filter (fun entry => decide (entry.id ≠ target.id)) =
      cache.entries.filter fun entry => decide (entry.key ≠ target.key) := by
  apply List.filter_congr
  intro entry hentry
  rw [decide_eq_decide, not_iff_not]
  constructor
  · intro hid
    rw [hcache.eq_of_id hentry htarget hid]
  · intro hkey
    rw [hcache.eq_of_key hentry htarget hkey]

theorem without_pairs (key : Key) (cache : LruCache Key Value) :
    Recency.without key cache.pairs =
      (cache.entries.filter fun entry => decide (entry.key ≠ key)).map
        fun entry => (entry.key, entry.value) := by
  rw [Recency.without, pairs, List.filter_map]
  rfl

/-- Splicing the node of a key touches the key. -/
theorem map_splice (hcache : cache.Linked) {target : Node Key Value}
    (htarget : target ∈ cache.entries) :
    (splice target.id cache.entries).map
        (fun entry => (entry.key, entry.value)) =
      Recency.touch target.key cache.pairs := by
  rw [Recency.touch, without_pairs, pairs, List.filter_map, splice,
    filter_id_eq hcache htarget, filter_id_ne hcache htarget, List.map_append]
  rfl

theorem pairs_get (hcache : cache.Linked) (key : Key) :
    (cache.get key).1.pairs = Recency.touch key cache.pairs := by
  cases hfound : cache.index.lookup key with
  | none =>
      rw [get, hfound, Recency.touch_eq_self (pair_key_ne hcache hfound)]
      rfl
  | some node =>
      obtain ⟨target, htarget, rfl, rfl⟩ := hcache.node_of_lookup hfound
      rw [get, hfound]
      exact map_splice hcache htarget

theorem pairs_erase (hcache : cache.Linked) (key : Key) :
    (cache.erase key).pairs = Recency.without key cache.pairs := by
  cases hfound : cache.index.lookup key with
  | none =>
      rw [erase, hfound, Recency.without_eq_self (pair_key_ne hcache hfound)]
  | some node =>
      obtain ⟨target, htarget, rfl, rfl⟩ := hcache.node_of_lookup hfound
      rw [erase, hfound, without_pairs]
      dsimp only
      rw [pairs, filter_id_ne hcache htarget]

/-- Writing through the iterator of a key leaves the other pairs alone. -/
theorem without_assign (hcache : cache.Linked) {target : Node Key Value}
    (htarget : target ∈ cache.entries) (value : Value) :
    Recency.without target.key
        { cache with entries := assign target.id value cache.entries }.pairs =
      Recency.without target.key cache.pairs := by
  rw [without_pairs, without_pairs, assign, List.filter_map, List.map_map]
  have hkey : ∀ entry : Node Key Value,
      (if entry.id = target.id then { entry with value := value }
        else entry).key = entry.key := by
    intro entry
    split <;> rfl
  have hfilter : (fun entry : Node Key Value =>
      decide (entry.key ≠ target.key)) ∘ (fun entry =>
        if entry.id = target.id then { entry with value := value }
        else entry) = fun entry => decide (entry.key ≠ target.key) := by
    funext entry
    rw [Function.comp_apply, hkey]
  rw [hfilter]
  apply List.map_congr_left
  intro entry hentry
  obtain ⟨hmem, hne⟩ := List.mem_filter.mp hentry
  have hid : entry.id ≠ target.id := by
    intro hsame
    rw [hcache.eq_of_id hmem htarget hsame] at hne
    simp at hne
  rw [Function.comp_apply, if_neg hid]

/-- A put on a cached key. -/
theorem pairs_put_found (hcache : cache.WellFormed) {key : Key} {node : ℕ}
    (hroom : cache.capacity ≠ 0) (hfound : cache.index.lookup key = some node)
    (value : Value) :
    (cache.put key value).pairs =
      (key, value) :: Recency.without key cache.pairs := by
  obtain ⟨target, htarget, rfl, rfl⟩ := hcache.node_of_lookup hfound
  have hassigned := wellFormed_assign hcache target.id value
  have hnew : ({ target with value := value } : Node Key Value) ∈
      assign target.id value cache.entries :=
    (mem_assign _ _ _ _).mpr ⟨target, htarget, rfl, rfl, (if_pos rfl).symm⟩
  rw [put, if_neg hroom, hfound]
  calc (splice target.id (assign target.id value cache.entries)).map
        (fun entry => (entry.key, entry.value))
      = Recency.touch target.key
          { cache with
            entries := assign target.id value cache.entries }.pairs :=
        map_splice hassigned.toLinked hnew
    _ = (target.key, value) :: Recency.without target.key
          { cache with
            entries := assign target.id value cache.entries }.pairs :=
        Recency.touch_eq_cons (nodup_keys_pairs hassigned.toLinked)
          ((mem_pairs_iff _ _).mpr ⟨_, hnew, rfl, rfl⟩)
    _ = (target.key, value) :: Recency.without target.key cache.pairs := by
        rw [without_assign hcache.toLinked htarget]

/-- A put on a key that is not cached keeps what fits the capacity, and counts
what does not. -/
theorem put_new (hcache : cache.WellFormed) {key : Key}
    (hroom : cache.capacity ≠ 0) (hmiss : cache.index.lookup key = none)
    (value : Value) :
    (cache.put key value).entries =
        ((⟨cache.nextNode, key, value⟩ : Node Key Value) ::
          cache.entries).take cache.capacity ∧
      (cache.put key value).evictions =
        if cache.entries.length < cache.capacity then cache.evictions
        else cache.evictions + 1 := by
  have hsize := hcache.size_le
  rw [put, if_neg hroom, hmiss]
  dsimp only
  by_cases hfull : (((⟨cache.nextNode, key, value⟩ : Node Key Value) ::
      cache.entries).length > cache.capacity)
  · rw [if_pos hfull, List.getLast?_eq_some_getLast (List.cons_ne_nil _ _)]
    rw [List.length_cons] at hfull
    have hlength : cache.entries.length = cache.capacity := by omega
    refine ⟨?_, (if_neg hlength.ge.not_gt).symm⟩
    rw [List.dropLast_eq_take, List.length_cons, Nat.add_sub_cancel, hlength]
  · rw [if_neg hfull]
    rw [List.length_cons] at hfull
    refine ⟨?_, (if_pos (by omega)).symm⟩
    rw [List.take_of_length_le]
    rw [List.length_cons]
    omega

theorem pairs_put (hcache : cache.WellFormed) (key : Key) (value : Value) :
    (cache.put key value).pairs =
      Recency.store cache.capacity key value cache.pairs := by
  by_cases hroom : cache.capacity = 0
  · have hsize := hcache.size_le
    rw [hroom, Nat.le_zero, List.length_eq_zero_iff] at hsize
    rw [put, if_pos hroom, Recency.store, hroom, List.take_zero, pairs, hsize]
    rfl
  · cases hfound : cache.index.lookup key with
    | none =>
        rw [Recency.store,
          Recency.without_eq_self (pair_key_ne hcache.toLinked hfound), pairs,
          (put_new hcache hroom hfound value).1, List.map_take]
        rfl
    | some node =>
        obtain ⟨target, htarget, rfl, rfl⟩ := hcache.node_of_lookup hfound
        rw [pairs_put_found hcache hroom hfound, Recency.store_room]
        have hpair : (target.key, target.value) ∈ cache.pairs :=
          (mem_pairs_iff _ _).mpr ⟨target, htarget, rfl, rfl⟩
        have hlength := Recency.length_filter_add_without target.key
          cache.pairs
        rw [Recency.filter_key_eq (nodup_keys_pairs hcache.toLinked) hpair,
          List.length_singleton, length_pairs] at hlength
        have hsize := hcache.size_le
        omega

omit [DecidableEq Key] in
/-- A lookup hits on the listed pairs. -/
theorem get_hits_iff (hcache : cache.WellFormed) (key : Key) (value : Value) :
    (cache.get key).2 = some value ↔ (key, value) ∈ cache.pairs := by
  rw [get_eq_some_iff hcache, mem_pairs_iff]

@[simp]
theorem capacity_perform (call : CacheCall Key Value)
    (cache : LruCache Key Value) :
    (cache.perform call).1.capacity = cache.capacity := by
  cases call with
  | get key =>
      rw [perform, get]
      split <;> rfl
  | put key value =>
      rw [perform, put]
      split
      · rfl
      split
      · rfl
      · dsimp only
        split
        · split <;> rfl
        · rfl
  | erase key =>
      rw [perform, erase]
      split <;> rfl
  | clear => rfl

end LruCache

end MiniKV
