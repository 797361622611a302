import MiniKV.Recovery.Crash
import MiniKV.Store.Runs

/-!
# The put area and restarts

What a failed append leaves in the put area is a part of one record.  The next
seek writes it behind whatever the file holds then, and so does the end of the
process, unless the process dies.
-/

namespace MiniKV

open AppendOnlyStore (recordBytes drained)

/-- A file of whole records. -/
def WholeLog (bytes : Bytes) : Prop :=
  ∃ entries, bytes = logFormat.imageAll entries

/-- Bytes that come behind whole records, or leave the end of the file an
unfinished tail. -/
def Fits (bytes rest : Bytes) : Prop :=
  rest ≠ [] → WholeLog bytes ∨ ∃ entries tail,
    LogWithTail entries tail bytes ∧ UnfinishedTail (tail ++ rest)

/-- The front part of a record of this kind, or nothing. -/
def RecordPart (kind : Record → Prop) (bytes : Bytes) : Prop :=
  bytes ≠ [] → ∃ record, record.Valid ∧ kind record ∧
    bytes <+: recordBytes record

/-- Records of this kind have come behind the others. -/
def GrownBy (kind : Record → Prop) (entries grown : List LogEntry) : Prop :=
  ∃ added, grown = entries ++ added ∧ ∀ entry ∈ added, kind entry.record

/-! ## Parts of records behind a log -/

/-- A cut record behind a whole log is a tail, unless nothing is cut off. -/
theorem logWithTail_torn (entries : List LogEntry) {record : Record}
    (hvalid : record.Valid) (left : ℕ) :
    ∃ grown tail, LogWithTail grown tail
        (logFormat.imageAll entries ++ (recordBytes record).take left) ∧
      (grown = entries ∨ grown = entries ++ [.ofRecord record hvalid]) := by
  obtain ⟨leading, tail, ⟨-, following, hsplit, -⟩, hlog⟩ :=
    take_encodeAll [⟨record, hvalid⟩] left
  have hsingle : encodeAll [⟨record, hvalid⟩] = recordBytes record :=
    List.append_nil _
  rw [hsingle] at hlog
  refine ⟨entries ++ entriesOf leading, tail,
    logWithTail_append_iff.mpr ⟨_, rfl, hlog⟩, ?_⟩
  cases leading with
  | nil => exact Or.inl (List.append_nil _)
  | cons first rest =>
      rw [List.cons_append, List.cons.injEq] at hsplit
      obtain ⟨rfl, hnil⟩ := hsplit
      rw [(List.append_eq_nil_iff.mp hnil.symm).1]
      exact Or.inr rfl

/-- More bytes of an unfinished tail. -/
theorem LogWithTail.append {entries : List LogEntry} {tail bytes rest : Bytes}
    (hlog : LogWithTail entries tail bytes)
    (hunfinished : UnfinishedTail (tail ++ rest)) :
    LogWithTail entries (tail ++ rest) (bytes ++ rest) :=
  ⟨by rw [hlog.1, List.append_assoc], hunfinished⟩

/-- A whole file is a log without a tail. -/
theorem WholeLog.eq_imageAll {bytes : Bytes} (hwhole : WholeLog bytes)
    {entries : List LogEntry} {tail : Bytes}
    (hlog : LogWithTail entries tail bytes) :
    bytes = logFormat.imageAll entries := by
  obtain ⟨others, rfl⟩ := hwhole
  rw [((logWithTail_imageAll others).unique hlog).1]

namespace GrownBy

variable {kind : Record → Prop} {entries grown : List LogEntry}

theorem refl (entries : List LogEntry) : GrownBy kind entries entries :=
  ⟨[], (List.append_nil _).symm, nofun⟩

theorem concat (hgrown : GrownBy kind entries grown) {entry : LogEntry}
    (hkind : kind entry.record) : GrownBy kind entries (grown ++ [entry]) := by
  obtain ⟨added, rfl, hadded⟩ := hgrown
  refine ⟨added ++ [entry], List.append_assoc _ _ _, fun other hother => ?_⟩
  rcases List.mem_append.mp hother with hold | hnew
  · exact hadded other hold
  · rw [List.mem_singleton.mp hnew]
    exact hkind

/-- Records of other keys leave the last one of a key. -/
theorem lastEntry_eq {key : Bytes}
    (hgrown : GrownBy (fun record => record.key ≠ key) entries grown) :
    lastEntry key grown = lastEntry key entries := by
  obtain ⟨added, rfl, hadded⟩ := hgrown
  induction added using List.reverseRecOn with
  | nil => rw [List.append_nil]
  | append_singleton added entry ih =>
      have hkey : entry.record.key ≠ key := hadded entry (by simp)
      rw [← List.append_assoc, lastEntry_concat, if_neg hkey]
      exact ih fun other hother => hadded other (List.mem_append_left _ hother)

end GrownBy

namespace RecordPart

variable {kind : Record → Prop} {bytes rest : Bytes}

theorem nil : RecordPart kind [] := fun hne => absurd rfl hne

theorem of_prefix (hpart : RecordPart kind bytes) (hleads : rest <+: bytes) :
    RecordPart kind rest := by
  intro hne
  have hbytes : bytes ≠ [] := by
    rintro rfl
    exact hne (List.prefix_nil.mp hleads)
  obtain ⟨record, hvalid, hkind, hrecord⟩ := hpart hbytes
  exact ⟨record, hvalid, hkind, hleads.trans hrecord⟩

theorem take {record : Record} (hvalid : record.Valid) (hkind : kind record)
    (count : ℕ) : RecordPart kind ((recordBytes record).take count) :=
  fun _ => ⟨record, hvalid, hkind, List.take_prefix _ _⟩

/-- Where it fits, the part of a record keeps the file a log. -/
theorem logWithTail (hpart : RecordPart kind rest) {entries : List LogEntry}
    {tail : Bytes} (hlog : LogWithTail entries tail bytes)
    (hfits : Fits bytes rest) :
    ∃ grown remains, LogWithTail grown remains (bytes ++ rest) ∧
      GrownBy kind entries grown := by
  by_cases hnothing : rest = []
  · rw [hnothing, List.append_nil]
    exact ⟨entries, tail, hlog, .refl entries⟩
  rcases hfits hnothing with hwhole | ⟨others, remains, hothers, hunfinished⟩
  · obtain ⟨record, hvalid, hkind, hleads⟩ := hpart hnothing
    obtain ⟨grown, remains, hgrown, hcases⟩ :=
      logWithTail_torn entries hvalid rest.length
    rw [← hwhole.eq_imageAll hlog, ← List.prefix_iff_eq_take.mp hleads]
      at hgrown
    refine ⟨grown, remains, hgrown, ?_⟩
    rcases hcases with rfl | rfl
    · exact .refl grown
    · exact (GrownBy.refl entries).concat hkind
  · obtain ⟨rfl, rfl⟩ := hothers.unique hlog
    exact ⟨others, remains ++ rest, hlog.append hunfinished, .refl others⟩

end RecordPart

/-! ## Opening a store again -/

/-- How a store comes to be opened again: the process closes it, or another
process starts on its files behind the death or the end of the first one.  Only
the end writes the put area, and `drain` is the fault of that write. -/
inductive Restart
  | closed
  | died (config : StoreConfig)
  | exited (config : StoreConfig) (drain : Option ℕ)

/-- What a restart writes of the put area before the store opens. -/
def Restart.written (restart : Restart) (pending : Bytes) : Bytes :=
  match restart with
  | .closed => []
  | .died _ => []
  | .exited _ drain => drained drain pending

namespace KeyValueStore

variable {store : KeyValueStore}

/-- The store that is opened behind a restart. -/
def restart (restart : Restart) (store : KeyValueStore) : KeyValueStore :=
  match restart with
  | .closed => store.close.1
  | .died config => new config store.storage.data store.storage.temporary
  | .exited config drain =>
      new config (store.storage.closeFile drain).data store.storage.temporary

theorem opened_restart (how : Restart) (store : KeyValueStore) :
    (store.restart how).opened = false := by
  cases how with
  | closed => exact opened_close store
  | died config => rfl
  | exited config drain => rfl

theorem bytes_restart (how : Restart) (store : KeyValueStore) :
    (store.restart how).storage.bytes =
      store.storage.bytes ++ how.written store.storage.pending := by
  cases how with
  | closed =>
      have hbytes := congrArg View.bytes (view_close store)
      exact hbytes.trans (List.append_nil _).symm
  | died config => exact (List.append_nil _).symm
  | exited config drain => exact store.storage.bytes_closeFile drain

theorem pending_restart (how : Restart) (store : KeyValueStore) :
    (store.restart how).storage.pending = [] ∨
      (store.restart how).storage.pending = store.storage.pending := by
  cases how with
  | closed => exact Or.inr (congrArg View.pending (view_close store))
  | died config => exact Or.inl rfl
  | exited config drain => exact Or.inl rfl

end KeyValueStore

end MiniKV
