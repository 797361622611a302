import MiniKV.Store.Faultless

/-!
# What lasts of a stored key

The file and the index of a view both keep what was last stored under a key, or
what was removed stays away, as long as nobody stores or removes the key again.
An entry that has expired may be gone from either.
-/

namespace MiniKV

namespace View

/-- What was stored is found, or it has expired and is gone. -/
def KeptUntil (laterMs : Int64) (stored found : Option (Bytes × Int64)) :
    Prop :=
  found = stored ∨ found = none ∧ ∃ value expiresAtMs,
    stored = some (value, expiresAtMs) ∧ isExpired expiresAtMs laterMs = true

variable {laterMs nowMs : Int64} {stored found : Option (Bytes × Int64)}

theorem KeptUntil.mono (hkept : KeptUntil nowMs stored found)
    (hclock : nowMs ≤ laterMs) : KeptUntil laterMs stored found :=
  hkept.imp_right fun ⟨hnone, value, expiresAtMs, hstored, hexpired⟩ =>
    ⟨hnone, value, expiresAtMs, hstored, isExpired_mono hexpired hclock⟩

/-- Losing what has expired. -/
theorem KeptUntil.trans (hkept : KeptUntil laterMs stored found)
    {later : Option (Bytes × Int64)} (hlater : KeptUntil laterMs found later) :
    KeptUntil laterMs stored later := by
  rcases hlater with hsame | ⟨hnone, value, expiresAtMs, hfound, hexpired⟩
  · rw [hsame]
    exact hkept
  · rcases hkept with hstored | ⟨hgone, -⟩
    · exact Or.inr ⟨hnone, value, expiresAtMs, hstored ▸ hfound, hexpired⟩
    · rw [hfound] at hgone
      cases hgone

/-- What has not expired is still there. -/
theorem KeptUntil.eq_of_fresh {value : Bytes} {expiresAtMs : Int64}
    (hkept : KeptUntil laterMs (some (value, expiresAtMs)) found)
    (hfresh : isExpired expiresAtMs laterMs = false) :
    found = some (value, expiresAtMs) := by
  rcases hkept with hsame | ⟨-, _, _, hstored, hexpired⟩
  · exact hsame
  · cases hstored
    rw [hfresh] at hexpired
    cases hexpired

/-- The file and the index both keep what was last stored under a key, at
readings up to `laterMs`. -/
structure Lasting (laterMs : Int64) (key : Bytes)
    (stored : Option (Bytes × Int64)) (view : View) : Prop where
  pending : view.pending = []
  coherent : view.Coherent
  file : ∃ entries, view.bytes = logFormat.imageAll entries ∧
    KeptUntil laterMs stored (ledgerOf entries key)
  shown : KeptUntil laterMs stored (view.contents key)

namespace Lasting

variable {key : Bytes} {view later : View}

theorem mono (hlasting : Lasting nowMs key stored view)
    (hclock : nowMs ≤ laterMs) : Lasting laterMs key stored view where
  pending := hlasting.pending
  coherent := hlasting.coherent
  file := hlasting.file.imp fun _ hfile => ⟨hfile.1, hfile.2.mono hclock⟩
  shown := hlasting.shown.mono hclock

theorem upkeep (hlasting : Lasting laterMs key stored view)
    (hclock : nowMs ≤ laterMs) (hupkeep : Upkeep nowMs view later) :
    Lasting laterMs key stored later := by
  obtain ⟨hpending, hcoherent, hfile, hshown⟩ := hlasting
  obtain ⟨hnothing, hlog⟩ := log_upkeep hpending hupkeep
  refine ⟨hnothing, hcoherent.upkeep hupkeep, ?_, ?_⟩
  · rcases hlog with hsame | ⟨live, hlive, hbytes⟩
    · rw [hsame]
      exact hfile
    · refine ⟨live, hbytes, ?_⟩
      rw [hlive.ledgerOf_eq]
      exact hshown
  · have hkept : KeptUntil nowMs (view.contents key) (later.contents key) :=
      contents_upkeep hcoherent hupkeep key
    exact hshown.trans (hkept.mono hclock)

theorem upkeeps (hlasting : Lasting laterMs key stored view)
    (hclock : nowMs ≤ laterMs) (hupkeeps : Upkeeps nowMs view later) :
    Lasting laterMs key stored later := by
  induction hupkeeps with
  | refl => exact hlasting
  | tail _ hlast ih => exact ih.upkeep hclock hlast

section AfterRecord

variable {record : Record} (hvalid : record.Valid)

include hvalid

/-- A record of another key. -/
theorem afterRecord (hlasting : Lasting laterMs key stored view)
    (hother : record.key ≠ key) :
    Lasting laterMs key stored (view.afterRecord record hvalid) := by
  obtain ⟨hpending, hcoherent, ⟨entries, himage, hledger⟩, hshown⟩ := hlasting
  refine ⟨(pending_afterRecord hvalid).trans hpending,
    hcoherent.afterRecord hvalid,
    ⟨entries ++ [.ofRecord record hvalid], ?_, ?_⟩, ?_⟩
  · rw [imageAll_concat_ofRecord, ← himage, bytes_afterRecord]
  · rw [ledgerOf_concat, if_neg hother]
    exact hledger
  · rw [contents_afterRecord hvalid hcoherent,
      Function.update_of_ne hother.symm]
    exact hshown

/-- What a record stores or removes lasts from then on. -/
theorem of_record (hpending : view.pending = []) (hcoherent : view.Coherent)
    {entries : List LogEntry} (himage : view.bytes = logFormat.imageAll entries)
    (laterMs : Int64) :
    Lasting laterMs record.key record.stored
      (view.afterRecord record hvalid) := by
  refine ⟨(pending_afterRecord hvalid).trans hpending,
    hcoherent.afterRecord hvalid,
    ⟨entries ++ [.ofRecord record hvalid], ?_, Or.inl ?_⟩, Or.inl ?_⟩
  · rw [imageAll_concat_ofRecord, ← himage, bytes_afterRecord]
  · rw [ledgerOf_concat, if_pos rfl]
  · rw [contents_afterRecord hvalid hcoherent, Function.update_self]

end AfterRecord

/-- A restart reads what the file keeps. -/
theorem reopened {entries : List LogEntry} (hclock : nowMs ≤ laterMs)
    (hledger : KeptUntil laterMs stored (ledgerOf entries key))
    (cache : LruCache Bytes Bytes) :
    Lasting laterMs key stored (ofLog nowMs entries cache) := by
  have hkept : KeptUntil nowMs (ledgerOf entries key)
      ((ofLog nowMs entries cache).contents key) :=
    tracks_ofLog nowMs entries cache key
  exact ⟨rfl, coherent_ofLog _ _ _, ⟨entries, rfl, hledger⟩,
    hledger.trans (hkept.mono hclock)⟩

end Lasting

end View

end MiniKV
