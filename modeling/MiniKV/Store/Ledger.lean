import MiniKV.Store.Effects

/-!
# The ledger behind a view

A ledger says which value and expiry were last stored under each key.  A view
tracks a ledger when it shows the same, except for entries that have expired
and may be gone already.
-/

namespace MiniKV

/-- The value and the expiry last stored under each key. -/
abbrev Ledger := Bytes → Option (Bytes × Int64)

namespace View

variable {view : View}

theorem contents_append (hcoherent : view.Coherent) {later : View}
    {rest : Bytes} (hbytes : later.bytes = view.bytes ++ rest) {key : Bytes}
    (hlookup : later.index.lookup key = view.index.lookup key) :
    later.contents key = view.contents key := by
  rw [contents, contents, hlookup]
  cases hfound : view.index.lookup key with
  | none => rfl
  | some metadata =>
      rw [Option.map_some, Option.map_some,
        hcoherent.valueAt_append hbytes hfound]

theorem contents_stray (hcoherent : view.Coherent) (rest held : Bytes) :
    View.contents { view with bytes := view.bytes ++ rest, pending := held } =
      view.contents := by
  funext key
  exact contents_append hcoherent rfl rfl

theorem contents_drained (hcoherent : view.Coherent) {later : View}
    (hdrained : view.Drained later) : later.contents = view.contents := by
  obtain ⟨rest, held, -, -, rfl⟩ := hdrained
  exact contents_stray hcoherent rest held

theorem contents_settled (hcoherent : view.Coherent) :
    view.settled.contents = view.contents :=
  contents_drained hcoherent (.settled view)

theorem coherent_reopened (nowMs : Int64) (entries : List LogEntry)
    (tail : Bytes) (view : View) :
    (view.reopened nowMs entries tail).Coherent :=
  ((coherent_ofLog nowMs entries view.cache).held _).settled

/-- What recovery shows is what the log says, whatever the put area adds. -/
theorem contents_reopened (nowMs : Int64) (entries : List LogEntry)
    (tail : Bytes) (view : View) :
    (view.reopened nowMs entries tail).contents =
      (ofLog nowMs entries view.cache).contents :=
  contents_settled ((coherent_ofLog nowMs entries view.cache).held _)

/-- The index is the same, and the file has grown at most. -/
structure Grows (view later : View) : Prop where
  index : later.index = view.index
  bytes : ∃ rest, later.bytes = view.bytes ++ rest

namespace Grows

variable {later : View}

theorem of_same (hindex : later.index = view.index)
    (hbytes : later.bytes = view.bytes) : view.Grows later :=
  ⟨hindex, [], hbytes.trans (List.append_nil _).symm⟩

theorem of_drained (hdrained : view.Drained later) : view.Grows later := by
  obtain ⟨rest, held, -, -, rfl⟩ := hdrained
  exact ⟨rfl, rest, rfl⟩

theorem valueAt_eq (hgrows : view.Grows later) (hcoherent : view.Coherent)
    {key : Bytes} {metadata : RecordMetadata}
    (hfound : view.index.lookup key = some metadata) :
    later.valueAt metadata = view.valueAt metadata := by
  obtain ⟨-, rest, hbytes⟩ := hgrows
  exact hcoherent.valueAt_append hbytes hfound

theorem contents_eq (hgrows : view.Grows later)
    (hcoherent : view.Coherent) : later.contents = view.contents := by
  funext key
  obtain ⟨hindex, rest, hbytes⟩ := hgrows
  exact contents_append hcoherent hbytes (by rw [hindex])

end Grows

/-- Upkeep changes nothing but expired entries, and those it only forgets. -/
theorem contents_upkeep (hcoherent : view.Coherent) {nowMs : Int64}
    {later : View} (hupkeep : Upkeep nowMs view later) (key : Bytes) :
    later.contents key = view.contents key ∨
      later.contents key = none ∧ ∃ value expiresAtMs,
        view.contents key = some (value, expiresAtMs) ∧
          isExpired expiresAtMs nowMs = true := by
  cases hupkeep with
  | drained hdrained =>
      exact Or.inl (congrFun (contents_drained hcoherent hdrained) key)
  | touched other => exact Or.inl rfl
  | filled other metadata hfound => exact Or.inl rfl
  | dropped other metadata hfound hexpired =>
      by_cases hkey : key = other
      · subst hkey
        refine Or.inr ⟨?_, view.valueAt metadata, metadata.expiresAtMs, ?_,
          hexpired⟩
        · simp [contents]
        · rw [contents, hfound]
          rfl
      · refine Or.inl ?_
        simp only [contents, FiniteMap.lookup_erase_of_ne _ hkey]
        rfl
  | purged keys hkeys =>
      cases hfound : view.index.lookup key with
      | none =>
          refine Or.inl ?_
          simp [contents, hfound]
      | some metadata =>
          by_cases hexpired : isExpired metadata.expiresAtMs nowMs = true
          · refine Or.inr ⟨?_, view.valueAt metadata, metadata.expiresAtMs,
              ?_, hexpired⟩
            · simp [contents, hfound, hexpired]
            · rw [contents, hfound]
              rfl
          · refine Or.inl ?_
            rw [contents, contents, FiniteMap.lookup_filter, hfound]
            simp [hexpired]
            rfl
  | compacted live hlive hvisible =>
      exact Or.inl (congrFun (hlive.contents_ofLog hvisible view.cache) key)

theorem contents_afterSet (hcoherent : view.Coherent) {record : Record}
    (hvalid : record.Valid) (hoperation : record.operation = .set) :
    (view.afterSet record hvalid).contents =
      Function.update view.contents record.key
        (some (record.value, record.expiresAtMs)) := by
  funext key
  by_cases hkey : key = record.key
  · subst hkey
    have hpoints := Coherent.pointsTo_afterSet view hvalid hoperation
    rw [Function.update_self, contents_eq_some_iff]
    exact ⟨_, FiniteMap.lookup_insert_self _ _ _, hpoints.valueAt_eq, rfl⟩
  · rw [Function.update_of_ne hkey]
    exact contents_append hcoherent rfl
      (FiniteMap.lookup_insert_of_ne _ _ hkey)

theorem contents_afterRemove (hcoherent : view.Coherent) (record : Record) :
    (view.afterRemove record).contents =
      Function.update view.contents record.key none := by
  funext key
  by_cases hkey : key = record.key
  · subst hkey
    rw [Function.update_self, contents_eq_none_iff]
    exact FiniteMap.lookup_erase_self _ _
  · rw [Function.update_of_ne hkey]
    exact contents_append hcoherent rfl (FiniteMap.lookup_erase_of_ne _ hkey)

/-- The view shows the ledger, up to entries that have expired. -/
def Tracks (nowMs : Int64) (view : View) (ledger : Ledger) : Prop :=
  ∀ key, view.contents key = ledger key ∨
    view.contents key = none ∧ ∃ value expiresAtMs,
      ledger key = some (value, expiresAtMs) ∧
        isExpired expiresAtMs nowMs = true

namespace Tracks

variable {nowMs : Int64} {ledger : Ledger}

theorem refl (nowMs : Int64) (view : View) : Tracks nowMs view view.contents :=
  fun _ => Or.inl rfl

theorem mono (htracks : Tracks nowMs view ledger) {laterMs : Int64}
    (hclock : nowMs ≤ laterMs) : Tracks laterMs view ledger := by
  intro key
  rcases htracks key with heq | ⟨hnone, value, expiresAtMs, hledger, hexpired⟩
  · exact Or.inl heq
  · exact Or.inr ⟨hnone, value, expiresAtMs, hledger,
      isExpired_mono hexpired hclock⟩

theorem upkeep {latestMs : Int64} (htracks : Tracks latestMs view ledger)
    (hcoherent : view.Coherent) (hclock : nowMs ≤ latestMs) {later : View}
    (hupkeep : Upkeep nowMs view later) : Tracks latestMs later ledger := by
  intro key
  rcases contents_upkeep hcoherent hupkeep key with
    hsame | ⟨hgone, value, expiresAtMs, hcontents, hexpired⟩
  · rw [hsame]
    exact htracks key
  · rcases htracks key with heq | ⟨hnone, -⟩
    · exact Or.inr ⟨hgone, value, expiresAtMs, heq ▸ hcontents,
        isExpired_mono hexpired hclock⟩
    · rw [hnone] at hcontents
      cases hcontents

theorem stray (htracks : Tracks nowMs view ledger)
    (hcoherent : view.Coherent) (rest held : Bytes) :
    Tracks nowMs { view with bytes := view.bytes ++ rest, pending := held }
      ledger := by
  intro key
  rw [contents_stray hcoherent]
  exact htracks key

/-- Storing the same under one key on both sides. -/
theorem update (htracks : Tracks nowMs view ledger) {later : View}
    {key : Bytes} {stored : Option (Bytes × Int64)}
    (hcontents : later.contents = Function.update view.contents key stored) :
    Tracks nowMs later (Function.update ledger key stored) := by
  intro other
  rw [hcontents]
  by_cases hother : other = key
  · subst hother
    rw [Function.update_self, Function.update_self]
    exact Or.inl rfl
  · rw [Function.update_of_ne hother, Function.update_of_ne hother]
    exact htracks other

/-- What is unexpired in the ledger is in the view, and the other way round. -/
theorem live_iff (htracks : Tracks nowMs view ledger) {laterMs : Int64}
    (hclock : nowMs ≤ laterMs) {key value : Bytes} {expiresAtMs : Int64}
    (hlive : isExpired expiresAtMs laterMs = false) :
    view.contents key = some (value, expiresAtMs) ↔
      ledger key = some (value, expiresAtMs) := by
  rcases htracks key with heq | ⟨hnone, gone, goneAtMs, hledger, hexpired⟩
  · rw [heq]
  · rw [hnone, hledger]
    constructor
    · intro hfound
      cases hfound
    · intro hfound
      cases hfound
      rw [isExpired_mono hexpired hclock] at hlive
      cases hlive

end Tracks

end View

end MiniKV
