import MiniKV.Library.FiniteMap

/-!
# The least-recently-used cache

`entries_` is a list of nodes, most recent first, and `index_` maps a key to
the iterator of its node.  An iterator is the identity of a node, which
splicing does not change.  `WellFormed` says that the two structures describe
the same entries.
-/

namespace MiniKV

/-- A node of the `std::list`, with the identity an iterator has. -/
structure Node (Key Value : Type) where
  id : ℕ
  key : Key
  value : Value
  deriving DecidableEq

structure LruCache (Key Value : Type) where
  capacity : ℕ
  entries : List (Node Key Value)
  index : FiniteMap Key ℕ
  nextNode : ℕ
  hits : ℕ
  misses : ℕ
  evictions : ℕ

structure CacheStatistics where
  capacity : ℕ
  size : ℕ
  hits : ℕ
  misses : ℕ
  evictions : ℕ
  deriving DecidableEq

namespace LruCache

variable {Key Value : Type}

/-- The constructor `LruCache(capacity)`. -/
def new (capacity : ℕ) : LruCache Key Value where
  capacity := capacity
  entries := []
  index := .empty
  nextNode := 0
  hits := 0
  misses := 0
  evictions := 0

/-- `entries_.splice(entries_.begin(), entries_, node)`. -/
def splice (node : ℕ) (entries : List (Node Key Value)) :
    List (Node Key Value) :=
  entries.filter (fun entry => entry.id = node) ++
    entries.filter (fun entry => entry.id ≠ node)

/-- `node->second = value`. -/
def assign (node : ℕ) (value : Value) (entries : List (Node Key Value)) :
    List (Node Key Value) :=
  entries.map fun entry =>
    if entry.id = node then { entry with value := value } else entry

def get (key : Key) (cache : LruCache Key Value) :
    LruCache Key Value × Option Value :=
  match cache.index.lookup key with
  | none => ({ cache with misses := cache.misses + 1 }, none)
  | some found =>
      ({ cache with
          entries := splice found cache.entries
          hits := cache.hits + 1 },
        (cache.entries.find? fun entry => entry.id = found).map Node.value)

section Update

variable [DecidableEq Key]

def put (key : Key) (value : Value) (cache : LruCache Key Value) :
    LruCache Key Value :=
  if cache.capacity = 0 then
    cache
  else
    match cache.index.lookup key with
    | some found =>
        { cache with entries := splice found (assign found value cache.entries) }
    | none =>
        let entries := ⟨cache.nextNode, key, value⟩ :: cache.entries
        let inserted := { cache with
          entries := entries
          index := cache.index.insert key cache.nextNode
          nextNode := cache.nextNode + 1 }
        if entries.length > cache.capacity then
          match entries.getLast? with
          | some leastRecent =>
              { inserted with
                entries := entries.dropLast
                index := inserted.index.erase leastRecent.key
                evictions := cache.evictions + 1 }
          | none => inserted
        else
          inserted

def erase (key : Key) (cache : LruCache Key Value) : LruCache Key Value :=
  match cache.index.lookup key with
  | none => cache
  | some found =>
      { cache with
        entries := cache.entries.filter fun entry => entry.id ≠ found
        index := cache.index.erase key }

end Update

def clear (cache : LruCache Key Value) : LruCache Key Value :=
  { cache with entries := [], index := .empty }

def statistics (cache : LruCache Key Value) : CacheStatistics :=
  ⟨cache.capacity, cache.entries.length, cache.hits, cache.misses,
    cache.evictions⟩

/-- The list and the hash map describe the same entries. -/
structure Linked (cache : LruCache Key Value) : Prop where
  ids_nodup : (cache.entries.map Node.id).Nodup
  keys_nodup : (cache.entries.map Node.key).Nodup
  ids_lt : ∀ entry ∈ cache.entries, entry.id < cache.nextNode
  index_iff : ∀ key node, cache.index.lookup key = some node ↔
    ∃ entry ∈ cache.entries, entry.key = key ∧ entry.id = node

/-- Between two operations the entries also fit the capacity. -/
structure WellFormed (cache : LruCache Key Value) : Prop
    extends Linked cache where
  size_le : cache.entries.length ≤ cache.capacity

/-- The pair is cached. -/
def Holds (cache : LruCache Key Value) (key : Key) (value : Value) : Prop :=
  ∃ entry ∈ cache.entries, entry.key = key ∧ entry.value = value

theorem wellFormed_new (capacity : ℕ) :
    (new capacity : LruCache Key Value).WellFormed where
  ids_nodup := List.nodup_nil
  keys_nodup := List.nodup_nil
  ids_lt := by simp [new]
  index_iff := by simp [new]
  size_le := by simp [new]

@[simp]
theorem not_holds_new (capacity : ℕ) (key : Key) (value : Value) :
    ¬ (new capacity : LruCache Key Value).Holds key value := by
  simp [Holds, new]

namespace Linked

variable {cache : LruCache Key Value}

theorem eq_of_id (hcache : cache.Linked) {left right : Node Key Value}
    (hleft : left ∈ cache.entries) (hright : right ∈ cache.entries)
    (hid : left.id = right.id) : left = right :=
  List.inj_on_of_nodup_map hcache.ids_nodup hleft hright hid

theorem eq_of_key (hcache : cache.Linked) {left right : Node Key Value}
    (hleft : left ∈ cache.entries) (hright : right ∈ cache.entries)
    (hkey : left.key = right.key) : left = right :=
  List.inj_on_of_nodup_map hcache.keys_nodup hleft hright hkey

/-- A cached key has one value. -/
theorem holds_unique (hcache : cache.Linked) {key : Key}
    {left right : Value} (hleft : cache.Holds key left)
    (hright : cache.Holds key right) : left = right := by
  obtain ⟨first, hfirst, hfirstKey, rfl⟩ := hleft
  obtain ⟨second, hsecond, hsecondKey, rfl⟩ := hright
  rw [hcache.eq_of_key hfirst hsecond (hfirstKey.trans hsecondKey.symm)]

theorem node_of_lookup (hcache : cache.Linked) {key : Key} {node : ℕ}
    (hfound : cache.index.lookup key = some node) :
    ∃ entry ∈ cache.entries, entry.key = key ∧ entry.id = node :=
  (hcache.index_iff key node).mp hfound

/-- A key that the hash map does not have is not in the list. -/
theorem key_ne_of_lookup_none (hcache : cache.Linked) {key : Key}
    (hmiss : cache.index.lookup key = none) {entry : Node Key Value}
    (hentry : entry ∈ cache.entries) : entry.key ≠ key := by
  rintro rfl
  have hfound := (hcache.index_iff entry.key entry.id).mpr
    ⟨entry, hentry, rfl, rfl⟩
  rw [hmiss] at hfound
  cases hfound

end Linked

theorem splice_perm (node : ℕ) (entries : List (Node Key Value)) :
    (splice node entries).Perm entries := by
  have hperm := List.filter_append_perm
    (fun entry : Node Key Value => decide (entry.id = node)) entries
  simpa [splice] using hperm

@[simp]
theorem mem_splice (node : ℕ) (entries : List (Node Key Value))
    (entry : Node Key Value) :
    entry ∈ splice node entries ↔ entry ∈ entries :=
  (splice_perm node entries).mem_iff

/-- Rearranging the nodes keeps the two structures in step. -/
theorem WellFormed.of_perm {cache : LruCache Key Value}
    (hcache : cache.WellFormed) {entries : List (Node Key Value)}
    (hperm : entries.Perm cache.entries) (hits misses : ℕ) :
    { cache with
      entries := entries, hits := hits, misses := misses }.WellFormed where
  ids_nodup := (hperm.map Node.id).nodup_iff.mpr hcache.ids_nodup
  keys_nodup := (hperm.map Node.key).nodup_iff.mpr hcache.keys_nodup
  ids_lt := fun entry hentry => hcache.ids_lt entry (hperm.mem_iff.mp hentry)
  index_iff := by
    intro key node
    rw [hcache.index_iff]
    simp only [hperm.mem_iff]
  size_le := hperm.length_eq ▸ hcache.size_le

section Get

variable {cache : LruCache Key Value}

theorem wellFormed_get (hcache : cache.WellFormed) (key : Key) :
    (cache.get key).1.WellFormed := by
  unfold get
  split
  · exact hcache.of_perm (List.Perm.refl _) _ _
  · exact hcache.of_perm (splice_perm _ _) _ _

@[simp]
theorem holds_get (key other : Key) (value : Value) :
    (cache.get key).1.Holds other value ↔ cache.Holds other value := by
  unfold get
  split <;> simp [Holds]

/-- A lookup hits exactly on what is cached. -/
theorem get_eq_some_iff (hcache : cache.WellFormed) (key : Key)
    (value : Value) :
    (cache.get key).2 = some value ↔ cache.Holds key value := by
  unfold get
  split
  next hmiss =>
    constructor
    · intro h
      cases h
    · rintro ⟨entry, hentry, hkey, -⟩
      exact absurd hkey (hcache.key_ne_of_lookup_none hmiss hentry)
  next found hfound =>
    obtain ⟨entry, hentry, rfl, rfl⟩ := hcache.node_of_lookup hfound
    have hfind : cache.entries.find? (fun other => other.id = entry.id) =
        some entry := by
      cases hother : cache.entries.find? fun other => other.id = entry.id with
      | none =>
          rw [List.find?_eq_none] at hother
          exact absurd (decide_eq_true rfl) (hother entry hentry)
      | some other =>
          have hid : other.id = entry.id := by
            have h := List.find?_some hother
            simpa using h
          rw [hcache.eq_of_id (List.mem_of_find?_eq_some hother) hentry hid]
    simp only [hfind, Option.map_some, Option.some.injEq]
    constructor
    · rintro rfl
      exact ⟨entry, hentry, rfl, rfl⟩
    · intro hholds
      exact hcache.holds_unique ⟨entry, hentry, rfl, rfl⟩ hholds

end Get

section Erase

variable [DecidableEq Key] {cache : LruCache Key Value}

theorem wellFormed_erase (hcache : cache.WellFormed) (key : Key) :
    (cache.erase key).WellFormed := by
  unfold erase
  split
  · exact hcache
  next found hfound =>
    obtain ⟨erased, herased, rfl, rfl⟩ := hcache.node_of_lookup hfound
    have hsublist := List.filter_sublist
      (p := fun entry : Node Key Value => decide (entry.id ≠ erased.id))
      (l := cache.entries)
    refine ⟨⟨hcache.ids_nodup.sublist (hsublist.map _),
      hcache.keys_nodup.sublist (hsublist.map _), ?_, ?_⟩,
      hsublist.length_le.trans hcache.size_le⟩
    · intro entry hentry
      exact hcache.ids_lt entry (hsublist.subset hentry)
    · intro key node
      simp only [FiniteMap.lookup_erase, List.mem_filter]
      by_cases hkey : key = erased.key
      · subst hkey
        simp only [if_true, reduceCtorEq, false_iff]
        rintro ⟨entry, ⟨hentry, hid⟩, hkey, -⟩
        rw [hcache.eq_of_key hentry herased hkey] at hid
        simp at hid
      · rw [if_neg hkey, hcache.index_iff]
        constructor
        · rintro ⟨entry, hentry, hentryKey, hnode⟩
          refine ⟨entry, ⟨hentry, ?_⟩, hentryKey, hnode⟩
          simp only [ne_eq, decide_eq_true_eq]
          intro hid
          exact hkey (by rw [← hentryKey, hcache.eq_of_id hentry herased hid])
        · rintro ⟨entry, ⟨hentry, -⟩, hentryKey, hnode⟩
          exact ⟨entry, hentry, hentryKey, hnode⟩

theorem holds_erase (hcache : cache.WellFormed) (key other : Key)
    (value : Value) :
    (cache.erase key).Holds other value ↔
      other ≠ key ∧ cache.Holds other value := by
  unfold erase
  split
  next hmiss =>
    refine ⟨fun hholds => ⟨?_, hholds⟩, fun h => h.2⟩
    rintro rfl
    obtain ⟨entry, hentry, hkey, -⟩ := hholds
    exact hcache.key_ne_of_lookup_none hmiss hentry hkey
  next found hfound =>
    obtain ⟨erased, herased, rfl, rfl⟩ := hcache.node_of_lookup hfound
    simp only [Holds, List.mem_filter, ne_eq, decide_eq_true_eq]
    constructor
    · rintro ⟨entry, ⟨hentry, hid⟩, rfl, rfl⟩
      refine ⟨fun hkey => hid ?_, entry, hentry, rfl, rfl⟩
      rw [hcache.eq_of_key hentry herased hkey]
    · rintro ⟨hkey, entry, hentry, rfl, rfl⟩
      refine ⟨entry, ⟨hentry, fun hid => hkey ?_⟩, rfl, rfl⟩
      rw [hcache.eq_of_id hentry herased hid]

end Erase

section Put

variable {cache : LruCache Key Value}

@[simp]
theorem map_id_assign (node : ℕ) (value : Value)
    (entries : List (Node Key Value)) :
    (assign node value entries).map Node.id = entries.map Node.id := by
  rw [assign, List.map_map]
  apply List.map_congr_left
  intro entry _
  simp only [Function.comp_apply]
  split <;> rfl

@[simp]
theorem map_key_assign (node : ℕ) (value : Value)
    (entries : List (Node Key Value)) :
    (assign node value entries).map Node.key = entries.map Node.key := by
  rw [assign, List.map_map]
  apply List.map_congr_left
  intro entry _
  simp only [Function.comp_apply]
  split <;> rfl

/-- Writing a value through an iterator keeps keys and identities. -/
theorem mem_assign (node : ℕ) (value : Value) (entries : List (Node Key Value))
    (entry : Node Key Value) :
    entry ∈ assign node value entries ↔
      ∃ old ∈ entries, entry.id = old.id ∧ entry.key = old.key ∧
        entry.value = if old.id = node then value else old.value := by
  simp only [assign, List.mem_map]
  refine exists_congr fun old => and_congr_right fun _ => ?_
  constructor
  · rintro rfl
    split <;> exact ⟨rfl, rfl, rfl⟩
  · rintro ⟨hid, hkey, hvalue⟩
    cases entry
    split <;> simp_all

theorem wellFormed_assign (hcache : cache.WellFormed) (node : ℕ)
    (value : Value) :
    { cache with entries := assign node value cache.entries }.WellFormed where
  ids_nodup := by simpa using hcache.ids_nodup
  keys_nodup := by simpa using hcache.keys_nodup
  ids_lt := by
    intro entry hentry
    obtain ⟨old, hold, hid, -⟩ := (mem_assign _ _ _ _).mp hentry
    exact hid ▸ hcache.ids_lt old hold
  index_iff := by
    intro key found
    rw [hcache.index_iff]
    simp only [assign, List.mem_map, exists_exists_and_eq_and]
    refine exists_congr fun entry => and_congr_right fun _ => ?_
    split <;> rfl
  size_le := by simpa [assign] using hcache.size_le

variable [DecidableEq Key]

/-- A fresh node at the front, before anything is evicted. -/
theorem linked_insert (hcache : cache.Linked) {key : Key} (value : Value)
    (hmiss : cache.index.lookup key = none) :
    { cache with
      entries := ⟨cache.nextNode, key, value⟩ :: cache.entries
      index := cache.index.insert key cache.nextNode
      nextNode := cache.nextNode + 1 }.Linked where
  ids_nodup := by
    simp only [List.map_cons, List.nodup_cons, hcache.ids_nodup, and_true]
    intro hid
    obtain ⟨entry, hentry, hentryId⟩ := List.mem_map.mp hid
    exact absurd (hcache.ids_lt entry hentry) (by omega)
  keys_nodup := by
    simp only [List.map_cons, List.nodup_cons, hcache.keys_nodup, and_true]
    intro hkey
    obtain ⟨entry, hentry, hentryKey⟩ := List.mem_map.mp hkey
    exact hcache.key_ne_of_lookup_none hmiss hentry hentryKey
  ids_lt := by
    intro entry hentry
    rcases List.mem_cons.mp hentry with rfl | hentry
    · exact Nat.lt_succ_self _
    · exact (hcache.ids_lt entry hentry).trans (Nat.lt_succ_self _)
  index_iff := by
    intro other node
    rw [FiniteMap.lookup_insert]
    by_cases hother : other = key
    · subst hother
      simp only [if_true, Option.some.injEq, List.mem_cons,
        exists_eq_or_imp, true_and]
      constructor
      · exact Or.inl
      · rintro (hnode | ⟨entry, hentry, hkey, -⟩)
        · exact hnode
        · exact absurd hkey (hcache.key_ne_of_lookup_none hmiss hentry)
    · rw [if_neg hother, hcache.index_iff]
      simp [Ne.symm hother]

/-- Dropping the last node together with its key. -/
theorem linked_evict (hcache : cache.Linked) {leastRecent : Node Key Value}
    (hlast : cache.entries.getLast? = some leastRecent) (evictions : ℕ) :
    { cache with
      entries := cache.entries.dropLast
      index := cache.index.erase leastRecent.key
      evictions := evictions }.Linked := by
  have hsplit : cache.entries.dropLast ++ [leastRecent] = cache.entries :=
    List.dropLast_append_getLast? leastRecent hlast
  have hsublist := List.dropLast_sublist cache.entries
  have hleast : leastRecent ∈ cache.entries := List.mem_of_getLast? hlast
  refine ⟨hcache.ids_nodup.sublist (hsublist.map _),
    hcache.keys_nodup.sublist (hsublist.map _),
    fun entry hentry => hcache.ids_lt entry (hsublist.subset hentry), ?_⟩
  intro key node
  rw [FiniteMap.lookup_erase]
  have hkeys := hcache.keys_nodup
  rw [← hsplit, List.map_append, List.nodup_append] at hkeys
  have hdisjoint : ∀ entry ∈ cache.entries.dropLast,
      entry.key ≠ leastRecent.key := fun entry hentry =>
    hkeys.2.2 _ (List.mem_map_of_mem hentry) _ (by simp)
  by_cases hkey : key = leastRecent.key
  · subst hkey
    simp only [if_true, reduceCtorEq, false_iff]
    rintro ⟨entry, hentry, hentryKey, -⟩
    exact hdisjoint entry hentry hentryKey
  · rw [if_neg hkey, hcache.index_iff]
    constructor
    · rintro ⟨entry, hentry, hentryKey, hnode⟩
      rw [← hsplit, List.mem_append, List.mem_singleton] at hentry
      rcases hentry with hentry | rfl
      · exact ⟨entry, hentry, hentryKey, hnode⟩
      · exact absurd hentryKey.symm hkey
    · rintro ⟨entry, hentry, hentryKey, hnode⟩
      exact ⟨entry, hsublist.subset hentry, hentryKey, hnode⟩

theorem wellFormed_put (hcache : cache.WellFormed) (key : Key)
    (value : Value) : (cache.put key value).WellFormed := by
  unfold put
  split
  · exact hcache
  split
  · exact (wellFormed_assign hcache _ _).of_perm (splice_perm _ _) _ _
  next hcapacity hmiss =>
    have hinsert := linked_insert hcache.toLinked value hmiss
    have hsize := hcache.size_le
    dsimp only
    split
    next hfull =>
      rw [List.getLast?_eq_some_getLast (List.cons_ne_nil _ _)]
      refine ⟨linked_evict hinsert
        (List.getLast?_eq_some_getLast (List.cons_ne_nil _ _)) _, ?_⟩
      simpa using hsize
    next hroom =>
      exact ⟨hinsert, Nat.le_of_not_gt hroom⟩

/-- After `put` the written pair may be cached, and nothing else is new. -/
theorem holds_of_holds_put (hcache : cache.WellFormed) {key other : Key}
    {value found : Value} (hholds : (cache.put key value).Holds other found) :
    (other = key ∧ found = value ∧ cache.capacity ≠ 0) ∨
      (other ≠ key ∨ cache.capacity = 0) ∧ cache.Holds other found := by
  unfold put at hholds
  split at hholds
  next hcapacity => exact Or.inr ⟨Or.inr hcapacity, hholds⟩
  next hcapacity =>
  have hcons : ∀ entry : Node Key Value,
      entry ∈ (⟨cache.nextNode, key, value⟩ : Node Key Value) :: cache.entries →
      cache.index.lookup key = none →
      (entry.key = key ∧ entry.value = value ∧ cache.capacity ≠ 0) ∨
        (entry.key ≠ key ∨ cache.capacity = 0) ∧
          cache.Holds entry.key entry.value := by
    intro entry hentry hmiss
    rcases List.mem_cons.mp hentry with rfl | hentry
    · exact Or.inl ⟨rfl, rfl, hcapacity⟩
    · exact Or.inr ⟨Or.inl (hcache.key_ne_of_lookup_none hmiss hentry),
        entry, hentry, rfl, rfl⟩
  split at hholds
  next node hfound =>
    obtain ⟨target, htarget, rfl, rfl⟩ := hcache.node_of_lookup hfound
    obtain ⟨entry, hentry, rfl, rfl⟩ := hholds
    rw [mem_splice, mem_assign] at hentry
    obtain ⟨old, hold, -, hkey, hvalue⟩ := hentry
    by_cases hid : old.id = target.id
    · have hold := hcache.eq_of_id hold htarget hid
      subst hold
      exact Or.inl ⟨hkey, by simpa using hvalue, hcapacity⟩
    · refine Or.inr ⟨Or.inl fun hsame => hid ?_, old, hold, hkey.symm, ?_⟩
      · rw [hcache.eq_of_key hold htarget (hkey.symm.trans hsame)]
      · rw [hvalue, if_neg hid]
  next hmiss =>
    dsimp only at hholds
    split at hholds
    · rw [List.getLast?_eq_some_getLast (List.cons_ne_nil _ _)] at hholds
      obtain ⟨entry, hentry, rfl, rfl⟩ := hholds
      exact hcons entry (List.dropLast_subset _ hentry) hmiss
    · obtain ⟨entry, hentry, rfl, rfl⟩ := hholds
      exact hcons entry hentry hmiss

/-- After a put the cache holds the new pair and some of the other ones. -/
theorem holds_put_cases (hcache : cache.WellFormed) {key other : Key}
    {value found : Value} (hholds : (cache.put key value).Holds other found) :
    (other = key ∧ found = value) ∨
      (other ≠ key ∧ cache.Holds other found) := by
  rcases holds_of_holds_put hcache hholds with
    ⟨hother, hfound, -⟩ | ⟨hother | hzero, hheld⟩
  · exact Or.inl ⟨hother, hfound⟩
  · exact Or.inr ⟨hother, hheld⟩
  · obtain ⟨entry, hentry, -⟩ := hheld
    have hlength := List.length_pos_of_mem hentry
    have hsize := hcache.size_le
    omega

/-- Erasing key after key keeps exactly the pairs of the other keys. -/
theorem foldl_erase (keys : List Key) (hcache : cache.WellFormed) :
    (keys.foldl (fun cache key => cache.erase key) cache).WellFormed ∧
      ∀ key value,
        (keys.foldl (fun cache key => cache.erase key) cache).Holds key value ↔
          key ∉ keys ∧ cache.Holds key value := by
  induction keys generalizing cache with
  | nil => exact ⟨hcache, by simp⟩
  | cons erased keys ih =>
      obtain ⟨hwellFormed, hholds⟩ := ih (wellFormed_erase hcache erased)
      refine ⟨hwellFormed, fun key value => ?_⟩
      rw [List.foldl_cons, hholds, holds_erase hcache, List.mem_cons, not_or]
      exact ⟨fun ⟨hlater, hfirst, hheld⟩ => ⟨⟨hfirst, hlater⟩, hheld⟩,
        fun ⟨⟨hfirst, hlater⟩, hheld⟩ => ⟨hlater, hfirst, hheld⟩⟩

end Put

@[simp]
theorem not_holds_clear (cache : LruCache Key Value) (key : Key)
    (value : Value) : ¬ cache.clear.Holds key value := by
  simp [Holds, clear]

theorem wellFormed_clear (cache : LruCache Key Value) :
    cache.clear.WellFormed where
  ids_nodup := List.nodup_nil
  keys_nodup := List.nodup_nil
  ids_lt := by simp [clear]
  index_iff := by simp [clear]
  size_le := by simp [clear]

end LruCache

end MiniKV
