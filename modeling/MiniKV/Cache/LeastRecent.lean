import MiniKV.Cache.RecencyList

/-!
# The cache evicts the least recently used entry

A history runs beside the cache: it stamps every key with its last put or hit
and remembers the last value put.  The list of a cache is ordered by these
stamps, so that the entry evicted is the one with the oldest stamp.
-/

namespace MiniKV

/-- What the calls on a cache have done so far. -/
structure History (Key Value : Type) where
  time : ℕ
  stamp : Key → ℕ
  written : Key → Option Value

namespace History

variable {Key Value : Type}

def start : History Key Value where
  time := 0
  stamp _ := 0
  written _ := none

variable [DecidableEq Key]

/-- The key is used now. -/
def use (key : Key) (history : History Key Value) : History Key Value where
  time := history.time + 1
  stamp := Function.update history.stamp key history.time
  written := history.written

/-- A call that uses no key. -/
def pass (history : History Key Value) : History Key Value :=
  { history with time := history.time + 1 }

/-- What one call on a cache adds. -/
def extend (call : CacheCall Key Value) (cache : LruCache Key Value)
    (history : History Key Value) : History Key Value :=
  match call with
  | .get key =>
      if (cache.get key).2.isSome then history.use key else history.pass
  | .put key value =>
      { history.use key with
        written := Function.update history.written key (some value) }
  | .erase _ => history.pass
  | .clear => history.pass

end History

namespace LruCache

variable {Key Value : Type}

/-- The key is cached. -/
def Caches (cache : LruCache Key Value) (key : Key) : Prop :=
  ∃ value, cache.Holds key value

variable [DecidableEq Key]

/-- A cache with its history. -/
def recorder : Machine (CacheCall Key Value)
    (LruCache Key Value × History Key Value) (Option Value) where
  step call state :=
    (((state.1.perform call).1, state.2.extend call state.1),
      (state.1.perform call).2)

/-- Recording does not change what the cache does. -/
theorem run_recorder (calls : List (CacheCall Key Value))
    (cache : LruCache Key Value) (history : History Key Value) :
    (recorder.run calls (cache, history)).1.1 = (machine.run calls cache).1 ∧
      (recorder.run calls (cache, history)).2 =
        (machine.run calls cache).2 := by
  induction calls generalizing cache history with
  | nil => exact ⟨rfl, rfl⟩
  | cons call calls ih =>
      obtain ⟨hcache, hanswers⟩ :=
        ih (cache.perform call).1 (history.extend call cache)
      exact ⟨hcache, congrArg (List.cons (cache.perform call).2) hanswers⟩

omit [DecidableEq Key] in
/-- The entry of the key is the one that was not used for the longest time. -/
structure Oldest (cache : LruCache Key Value) (history : History Key Value)
    (key : Key) : Prop where
  cached : cache.Caches key
  older : ∀ other, cache.Caches other → other ≠ key →
    history.stamp key < history.stamp other

omit [DecidableEq Key] in
/-- A put of this key must evict. -/
structure Overflows (cache : LruCache Key Value) (key : Key) : Prop where
  room : 0 < cache.capacity
  full : cache.entries.length = cache.capacity
  missing : ¬ cache.Caches key

/-- The cache behaves as a least-recently-used cache of this capacity. -/
structure LeastRecent (capacity : ℕ) (cache : LruCache Key Value)
    (history : History Key Value) : Prop where
  wellFormed : cache.WellFormed
  capacity_eq : cache.capacity = capacity
  hits : ∀ key value, (cache.get key).2 = some value ↔
    cache.Caches key ∧ history.written key = some value
  ordered : cache.entries.Pairwise fun recent older =>
    history.stamp older.key < history.stamp recent.key
  stored : 0 < cache.capacity → ∀ key value, (cache.put key value).Holds key value
  erased : ∀ key, ¬ (cache.erase key).Caches key
  cleared : ∀ key, ¬ cache.clear.Caches key
  held : ∀ call key value, (cache.perform call).1.Holds key value →
    cache.Holds key value ∨ call = .put key value
  stays : ∀ call key, cache.Caches key →
    (cache.perform call).1.Caches key ∨ call = .erase key ∨ call = .clear ∨
      ∃ new value, call = .put new value ∧ cache.Overflows new ∧
        cache.Oldest history key
  evicts : ∀ new value, cache.Overflows new → ∃ key,
    cache.Oldest history key ∧
      (cache.put new value).evictions = cache.evictions + 1 ∧
      (cache.put new value).pairs =
        (new, value) :: cache.pairs.filter fun pair => pair.1 ≠ key
  counts : ∀ call, (cache.perform call).1.evictions = cache.evictions ∨
    ∃ new value, call = .put new value ∧ cache.Overflows new
  unused : cache.capacity = 0 → ∀ key value, cache.put key value = cache

/-- What a history says about its cache. -/
structure Recorded (cache : LruCache Key Value) (history : History Key Value) :
    Prop where
  wellFormed : cache.WellFormed
  ordered : Recency.Ordered history.stamp history.time cache.pairs
  written : ∀ key value, cache.Holds key value →
    history.written key = some value

omit [DecidableEq Key] in
theorem recorded_new (capacity : ℕ) :
    Recorded (new capacity : LruCache Key Value) .start where
  wellFormed := wellFormed_new capacity
  ordered := Recency.Ordered.nil _ _
  written key value hholds := absurd hholds (not_holds_new capacity key value)

variable {cache : LruCache Key Value} {history : History Key Value}

theorem Recorded.ordered_extend (hrecorded : Recorded cache history)
    (call : CacheCall Key Value) :
    Recency.Ordered (history.extend call cache).stamp
      (history.extend call cache).time (cache.perform call).1.pairs := by
  have hordered := hrecorded.ordered
  have hcache := hrecorded.wellFormed
  cases call with
  | get key =>
      change Recency.Ordered _ _ (cache.get key).1.pairs
      rw [pairs_get hcache.toLinked, History.extend]
      cases hhit : (cache.get key).2 with
      | some value =>
          rw [get_hits_iff hcache] at hhit
          rw [Option.isSome_some, if_pos rfl,
            Recency.touch_eq_cons (nodup_keys_pairs hcache.toLinked) hhit]
          exact hordered.front key value
      | none =>
          have hmissing : ∀ pair ∈ cache.pairs, pair.1 ≠ key := by
            intro pair hpair hkey
            rw [← hkey, (get_hits_iff hcache pair.1 pair.2).mpr hpair] at hhit
            cases hhit
          rw [Option.isSome_none, if_neg Bool.false_ne_true,
            Recency.touch_eq_self hmissing]
          exact hordered.tick
  | put key value =>
      change Recency.Ordered _ _ (cache.put key value).pairs
      rw [pairs_put hcache]
      exact (hordered.front key value).sublist (List.take_sublist _ _)
  | erase key =>
      change Recency.Ordered _ _ (cache.erase key).pairs
      rw [pairs_erase hcache.toLinked]
      exact hordered.tick.sublist List.filter_sublist
  | clear => exact Recency.Ordered.nil _ _

theorem Recorded.written_extend (hrecorded : Recorded cache history)
    (call : CacheCall Key Value) {key : Key} {value : Value}
    (hholds : (cache.perform call).1.Holds key value) :
    (history.extend call cache).written key = some value := by
  have hwritten := hrecorded.written
  have hcache := hrecorded.wellFormed
  cases call with
  | get other =>
      have hold := hwritten key value ((holds_get other key value).mp hholds)
      rw [History.extend]
      split <;> exact hold
  | put other newest =>
      rcases holds_put_cases hcache hholds with ⟨rfl, rfl⟩ | ⟨hother, hheld⟩
      · exact Function.update_self _ _ _
      · exact (Function.update_of_ne hother _ _).trans (hwritten key value hheld)
  | erase other =>
      exact hwritten key value ((holds_erase hcache other key value).mp hholds).2
  | clear => exact absurd hholds (not_holds_clear cache key value)

/-- One call keeps the history true. -/
theorem Recorded.extend (hrecorded : Recorded cache history)
    (call : CacheCall Key Value) :
    Recorded (cache.perform call).1 (history.extend call cache) where
  wellFormed := wellFormed_perform hrecorded.wellFormed call
  ordered := hrecorded.ordered_extend call
  written _ _ hholds := hrecorded.written_extend call hholds

/-! ## Eviction -/

omit [DecidableEq Key] in
theorem caches_iff (key : Key) :
    cache.Caches key ↔ ∃ value, (key, value) ∈ cache.pairs :=
  exists_congr fun value => (mem_pairs_iff key value).symm

omit [DecidableEq Key] in
theorem lookup_none_of_not_caches (hcache : cache.Linked) {key : Key}
    (hmissing : ¬ cache.Caches key) : cache.index.lookup key = none := by
  cases hfound : cache.index.lookup key with
  | none => rfl
  | some node =>
      obtain ⟨entry, hentry, hkey, -⟩ := hcache.node_of_lookup hfound
      exact absurd ⟨entry.value, entry, hentry, hkey, rfl⟩ hmissing

omit [DecidableEq Key] in
theorem Recorded.unique (hrecorded : Recorded cache history) {key : Key}
    {left right : Value} (hleft : (key, left) ∈ cache.pairs)
    (hright : (key, right) ∈ cache.pairs) : left = right :=
  hrecorded.wellFormed.holds_unique ((mem_pairs_iff key left).mp hleft)
    ((mem_pairs_iff key right).mp hright)

/-- A put that overflows drops the last pair, which is the oldest. -/
theorem Recorded.overflow (hrecorded : Recorded cache history) {new : Key}
    (hoverflows : cache.Overflows new) (value : Value) :
    ∃ front last, cache.pairs = front ++ [last] ∧
      cache.Oldest history last.1 ∧
      (cache.put new value).pairs = (new, value) :: front ∧
      (cache.put new value).evictions = cache.evictions + 1 := by
  have hcache := hrecorded.wellFormed
  have hlength : cache.pairs.length = cache.capacity :=
    (length_pairs cache).trans hoverflows.full
  have hnonempty : cache.pairs ≠ [] := by
    intro hempty
    rw [hempty, List.length_nil] at hlength
    exact absurd hlength hoverflows.room.ne
  have hmissing : ∀ pair ∈ cache.pairs, pair.1 ≠ new := by
    intro pair hpair hkey
    apply hoverflows.missing
    exact (caches_iff new).mpr ⟨pair.2, hkey ▸ hpair⟩
  have hsplit := (List.dropLast_append_getLast hnonempty).symm
  refine ⟨_, _, hsplit, ⟨?_, ?_⟩, ?_, ?_⟩
  · exact (caches_iff _).mpr ⟨_, List.getLast_mem hnonempty⟩
  · intro other hother hne
    obtain ⟨found, hfound⟩ := (caches_iff other).mp hother
    rw [hsplit] at hfound
    rcases List.mem_append.mp hfound with hfront | hlast
    · exact hrecorded.ordered.last_lt hsplit hfront
    · exact absurd (congrArg Prod.fst (List.mem_singleton.mp hlast)) hne
  · rw [pairs_put hcache, hsplit]
    rw [hsplit] at hmissing hlength
    rw [Recency.store_full hmissing hlength, List.dropLast_concat]
  · have hmiss := lookup_none_of_not_caches hcache.toLinked hoverflows.missing
    rw [(put_new hcache hoverflows.room.ne' hmiss value).2,
      if_neg hoverflows.full.ge.not_gt]

/-- The pairs in front of the last one are those of other keys. -/
theorem Recorded.front_eq (hrecorded : Recorded cache history)
    {front : List (Key × Value)} {last : Key × Value}
    (hsplit : cache.pairs = front ++ [last]) :
    front = cache.pairs.filter fun pair => pair.1 ≠ last.1 := by
  have hkeys := nodup_keys_pairs hrecorded.wellFormed.toLinked
  rw [hsplit, List.map_append, List.nodup_append] at hkeys
  have hothers : ∀ pair ∈ front, pair.1 ≠ last.1 := fun pair hpair =>
    hkeys.2.2 _ (List.mem_map_of_mem hpair) _ (by simp)
  rw [hsplit, List.filter_append]
  have hfront := Recency.without_eq_self hothers
  rw [Recency.without] at hfront
  rw [hfront]
  simp

/-- A put that does not overflow finds room beside the other pairs. -/
theorem room_of_not_overflows (hcache : cache.WellFormed) {new : Key}
    (hroom : 0 < cache.capacity) (hoverflows : ¬ cache.Overflows new) :
    (Recency.without new cache.pairs).length < cache.capacity := by
  have hsize := hcache.size_le
  have hlength := Recency.length_filter_add_without new cache.pairs
  rw [length_pairs] at hlength
  by_cases hcached : cache.Caches new
  · obtain ⟨found, hfound⟩ := (caches_iff new).mp hcached
    rw [Recency.filter_key_eq (nodup_keys_pairs hcache.toLinked) hfound,
      List.length_singleton] at hlength
    omega
  · have hfull : cache.entries.length ≠ cache.capacity := fun hfull =>
      hoverflows ⟨hroom, hfull, hcached⟩
    omega

/-- A put keeps every key, unless it overflows and the key is the oldest. -/
theorem Recorded.caches_put (hrecorded : Recorded cache history) (new : Key)
    (value : Value) {key : Key} (hcached : cache.Caches key) :
    (cache.put new value).Caches key ∨
      cache.Overflows new ∧ cache.Oldest history key := by
  have hcache := hrecorded.wellFormed
  obtain ⟨found, hfound⟩ := (caches_iff key).mp hcached
  by_cases hoverflows : cache.Overflows new
  · obtain ⟨front, last, hsplit, holdest, hpairs, -⟩ :=
      hrecorded.overflow hoverflows value
    rw [hsplit] at hfound
    rcases List.mem_append.mp hfound with hfront | hlast
    · refine Or.inl ((caches_iff key).mpr ⟨found, ?_⟩)
      rw [hpairs]
      exact List.mem_cons_of_mem _ hfront
    · refine Or.inr ⟨hoverflows, ?_⟩
      rw [← List.mem_singleton.mp hlast] at holdest
      exact holdest
  · left
    have hlength := List.length_pos_of_mem hfound
    rw [length_pairs] at hlength
    have hroom := room_of_not_overflows hcache
      (hlength.trans_le hcache.size_le) hoverflows
    rw [caches_iff, pairs_put hcache, Recency.store_room hroom]
    by_cases hkey : key = new
    · exact ⟨value, hkey ▸ List.mem_cons_self⟩
    · exact ⟨found, List.mem_cons_of_mem _
        (Recency.mem_without.mpr ⟨hfound, hkey⟩)⟩

theorem Recorded.stays (hrecorded : Recorded cache history)
    (call : CacheCall Key Value) {key : Key} (hcached : cache.Caches key) :
    (cache.perform call).1.Caches key ∨ call = .erase key ∨ call = .clear ∨
      ∃ new value, call = .put new value ∧ cache.Overflows new ∧
        cache.Oldest history key := by
  cases call with
  | get other =>
      obtain ⟨value, hholds⟩ := hcached
      exact Or.inl ⟨value, (holds_get other key value).mpr hholds⟩
  | put new value =>
      rcases hrecorded.caches_put new value hcached with hstays | hevicted
      · exact Or.inl hstays
      · exact Or.inr (Or.inr (Or.inr ⟨new, value, rfl, hevicted⟩))
  | erase other =>
      by_cases hkey : key = other
      · exact Or.inr (Or.inl (hkey ▸ rfl))
      · obtain ⟨value, hholds⟩ := hcached
        exact Or.inl ⟨value, (holds_erase hrecorded.wellFormed other key
          value).mpr ⟨hkey, hholds⟩⟩
  | clear => exact Or.inr (Or.inr (Or.inl rfl))

/-- Where the capacity is positive a put caches its pair. -/
theorem holds_put (hcache : cache.WellFormed) (hroom : 0 < cache.capacity)
    (key : Key) (value : Value) : (cache.put key value).Holds key value := by
  obtain ⟨room, hcapacity⟩ := Nat.exists_eq_succ_of_ne_zero hroom.ne'
  rw [← mem_pairs_iff, pairs_put hcache, Recency.store, hcapacity,
    List.take_succ_cons]
  exact List.mem_cons_self

/-- Only a put brings a pair into the cache. -/
theorem holds_of_holds_perform (hcache : cache.WellFormed)
    (call : CacheCall Key Value) {key : Key} {value : Value}
    (hholds : (cache.perform call).1.Holds key value) :
    cache.Holds key value ∨ call = .put key value := by
  cases call with
  | get other => exact Or.inl ((holds_get other key value).mp hholds)
  | put other newest =>
      rcases holds_put_cases hcache hholds with ⟨rfl, rfl⟩ | ⟨-, hheld⟩
      · exact Or.inr rfl
      · exact Or.inl hheld
  | erase other => exact Or.inl ((holds_erase hcache other key value).mp hholds).2
  | clear => exact absurd hholds (not_holds_clear cache key value)

/-- Only a put that overflows is counted as an eviction. -/
theorem evictions_perform (hcache : cache.WellFormed)
    (call : CacheCall Key Value) :
    (cache.perform call).1.evictions = cache.evictions ∨
      ∃ new value, call = .put new value ∧ cache.Overflows new := by
  cases call with
  | get key =>
      left
      rw [perform, get]
      split <;> rfl
  | put new value =>
      by_cases hroom : cache.capacity = 0
      · left
        rw [perform, put, if_pos hroom]
      · cases hfound : cache.index.lookup new with
        | some node =>
            left
            rw [perform, put, if_neg hroom, hfound]
        | none =>
            change (cache.put new value).evictions = _ ∨ _
            rw [(put_new hcache hroom hfound value).2]
            by_cases hfits : cache.entries.length < cache.capacity
            · exact Or.inl (if_pos hfits)
            · have hmissing : ¬ cache.Caches new := by
                rintro ⟨found, entry, hentry, hkey, -⟩
                exact hcache.key_ne_of_lookup_none hfound hentry hkey
              have hfull := hcache.size_le.antisymm (Nat.not_lt.mp hfits)
              exact Or.inr ⟨new, value, rfl, Nat.pos_of_ne_zero hroom, hfull,
                hmissing⟩
  | erase key =>
      left
      rw [perform, erase]
      split <;> rfl
  | clear => exact Or.inl rfl

theorem Recorded.leastRecent (hrecorded : Recorded cache history) :
    LeastRecent cache.capacity cache history where
  wellFormed := hrecorded.wellFormed
  capacity_eq := rfl
  hits key value := by
    rw [get_eq_some_iff hrecorded.wellFormed]
    constructor
    · intro hholds
      exact ⟨⟨value, hholds⟩, hrecorded.written key value hholds⟩
    · intro hcached
      obtain ⟨⟨found, hfound⟩, hwritten⟩ := hcached
      rw [hrecorded.written key found hfound] at hwritten
      cases hwritten
      exact hfound
  ordered := List.pairwise_map.mp hrecorded.ordered.recent
  stored := holds_put hrecorded.wellFormed
  erased key := by
    rintro ⟨value, hholds⟩
    exact ((holds_erase hrecorded.wellFormed key key value).mp hholds).1 rfl
  cleared key := by
    rintro ⟨value, hholds⟩
    exact not_holds_clear cache key value hholds
  held call _ _ hholds :=
    holds_of_holds_perform hrecorded.wellFormed call hholds
  stays call _ hcached := hrecorded.stays call hcached
  evicts new value hoverflows := by
    obtain ⟨front, last, hsplit, holdest, hpairs, hcount⟩ :=
      hrecorded.overflow hoverflows value
    refine ⟨last.1, holdest, hcount, ?_⟩
    rw [hpairs, hrecorded.front_eq hsplit]
  counts call := evictions_perform hrecorded.wellFormed call
  unused hzero key value := by rw [put, if_pos hzero]

/-- After any calls the cache is a least-recently-used cache of its capacity,
whatever the next call is. -/
theorem cache_is_least_recently_used (capacity : ℕ)
    (calls : List (CacheCall Key Value)) :
    LeastRecent capacity (machine.run calls (new capacity)).1
      (recorder.run calls (new capacity, .start)).1.2 := by
  have hstep : ∀ call (state : LruCache Key Value × History Key Value),
      (Recorded state.1 state.2 ∧ state.1.capacity = capacity) → True →
      Recorded (recorder.step call state).1.1 (recorder.step call state).1.2 ∧
        (recorder.step call state).1.1.capacity = capacity :=
    fun call state hstate _ => ⟨hstate.1.extend call,
      (capacity_perform call state.1).trans hstate.2⟩
  have halong : recorder.Along (fun _ _ => True) calls
      ((new capacity : LruCache Key Value), .start) :=
    .of_forall (fun _ _ _ => trivial) _
  obtain ⟨hrecorded, hcapacity⟩ := Machine.run_invariant hstep halong
    ⟨recorded_new capacity, rfl⟩
  rw [(run_recorder calls (new capacity) .start).1] at hrecorded hcapacity
  have hleast := hrecorded.leastRecent
  rw [hcapacity] at hleast
  exact hleast

end LruCache

end MiniKV
