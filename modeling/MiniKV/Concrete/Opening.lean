import MiniKV.Concrete.AppendOnlyStore

/-!
# Opening and closing the data file

Whatever `ensureOpenLocked` is told, the contents of the data file and of the
put area stay as they are; without a failure it leaves an open stream behind.
A seek and a close move the put area behind the file, as far as they get.
-/

namespace MiniKV

/-- How a call fails that cannot get at its file: with an I/O error, or with the
exception of `std::filesystem::exists`. -/
def OpenAnswers.Fails (answers : OpenAnswers) (status : Status) : Prop :=
  status.code = .ioError ∨
    status.code = .thrown ∧ answers.fileExists ≠ none

theorem OpenAnswers.Fails.code_eq {answers : OpenAnswers} {status : Status}
    (hfails : answers.Fails status) (hexists : answers.fileExists = none) :
    status.code = .ioError :=
  hfails.resolve_right fun hthrown => hthrown.2 hexists

namespace AppendOnlyStore

variable (store : AppendOnlyStore)

/-! ## The put area -/

@[simp]
theorem bytes_withBytes (data : Bytes) : (store.withBytes data).bytes = data :=
  rfl

@[simp]
theorem pending_withBytes (data : Bytes) :
    (store.withBytes data).pending = store.pending := rfl

@[simp]
theorem drained_none (pending : Bytes) : drained none pending = pending := rfl

@[simp]
theorem drained_nil (fault : Option ℕ) : drained fault [] = [] := by
  cases fault with
  | none => rfl
  | some count => exact List.take_nil

/-- What a fault lets through comes first in the put area. -/
theorem drained_prefix (fault : Option ℕ) (pending : Bytes) :
    drained fault pending <+: pending := by
  cases fault with
  | none => exact List.prefix_refl _
  | some count => exact List.take_prefix _ _

theorem drain_of_pending (hpending : store.pending = []) (fault : Option ℕ) :
    store.drain fault = (store, true) := if_pos hpending

@[simp]
theorem bytes_drain (fault : Option ℕ) : (store.drain fault).1.bytes =
    store.bytes ++ drained fault store.pending := by
  unfold drain
  split
  next hpending => rw [hpending, drained_nil, List.append_nil]
  · dsimp only
    split <;> rfl

@[simp]
theorem pending_drain (fault : Option ℕ) : (store.drain fault).1.pending =
    if fault = none then [] else store.pending := by
  unfold drain
  split
  next hpending => rw [hpending, ite_self]
  · dsimp only
    split <;> rfl

/-- A seek fails when it has something to write and cannot. -/
theorem snd_drain_iff (fault : Option ℕ) : (store.drain fault).2 = true ↔
    store.pending = [] ∨ fault = none := by
  unfold drain
  split
  next hpending => simp [hpending]
  next hpending =>
    dsimp only
    split
    next hfault => simp [hfault]
    next hfault => simp [hpending, hfault]

theorem snd_drain (fault : Option ℕ) : (store.drain fault).2 =
    (decide (store.pending = []) || fault.isNone) := by
  rw [Bool.eq_iff_iff, snd_drain_iff]
  simp

theorem drain_none : store.drain none =
    ((store.drain none).1, true) :=
  Prod.ext rfl ((store.snd_drain_iff none).mpr (Or.inr rfl))

/-- Only an open stream holds bytes. -/
theorem fileOpen_of_pending (hpending : store.pending ≠ []) :
    store.fileOpen = true := by
  rw [pending] at hpending
  rw [fileOpen]
  cases hstream : store.stream with
  | none => exact absurd (by rw [hstream]; rfl) hpending
  | some held => rfl

@[simp]
theorem fileOpen_drain (fault : Option ℕ) :
    (store.drain fault).1.fileOpen = store.fileOpen := by
  unfold drain
  split
  · rfl
  next hpending =>
    have hopen := store.fileOpen_of_pending hpending
    dsimp only
    split
    · exact hopen.symm
    · rfl

@[simp]
theorem temporary_drain (fault : Option ℕ) :
    (store.drain fault).1.temporary = store.temporary := by
  unfold drain
  split
  · rfl
  · dsimp only
    split <;> rfl

@[simp]
theorem dataPath_drain (fault : Option ℕ) :
    (store.drain fault).1.dataPath = store.dataPath := by
  unfold drain
  split
  · rfl
  · dsimp only
    split <;> rfl

@[simp]
theorem bytes_closeFile (fault : Option ℕ) : (store.closeFile fault).bytes =
    store.bytes ++ drained fault store.pending :=
  store.bytes_drain fault

@[simp]
theorem pending_closeFile (fault : Option ℕ) :
    (store.closeFile fault).pending = [] := rfl

@[simp]
theorem fileOpen_closeFile (fault : Option ℕ) :
    (store.closeFile fault).fileOpen = false := rfl

@[simp]
theorem temporary_closeFile (fault : Option ℕ) :
    (store.closeFile fault).temporary = store.temporary :=
  store.temporary_drain fault

@[simp]
theorem dataPath_closeFile (fault : Option ℕ) :
    (store.closeFile fault).dataPath = store.dataPath :=
  store.dataPath_drain fault

/-- Closing a closed stream does nothing. -/
theorem closeFile_of_closed (hclosed : store.stream = none)
    (fault : Option ℕ) : store.closeFile fault = store := by
  have hpending : store.pending = [] := by rw [pending, hclosed]; rfl
  rw [closeFile, drain_of_pending store hpending]
  dsimp only
  rw [← hclosed]

/-! ## Opening -/

/-- The store behind a successful `ensureOpenLocked`. -/
def opened (store : AppendOnlyStore) : AppendOnlyStore :=
  if store.fileOpen then store
  else { store.withBytes store.bytes with stream := some [] }

theorem opened_of_closed (hclosed : store.fileOpen = false) :
    store.opened =
      { store.withBytes store.bytes with stream := some [] } := by
  rw [opened, if_neg (by rw [hclosed]; exact Bool.false_ne_true)]

@[simp]
theorem bytes_opened : store.opened.bytes = store.bytes := by
  unfold opened
  split <;> rfl

theorem pending_of_closed (hclosed : ¬ store.fileOpen = true) :
    store.pending = [] :=
  not_not.mp fun hpending => hclosed (store.fileOpen_of_pending hpending)

@[simp]
theorem pending_opened : store.opened.pending = store.pending := by
  unfold opened
  split
  · rfl
  next hclosed => exact (store.pending_of_closed hclosed).symm

@[simp]
theorem fileOpen_opened : store.opened.fileOpen = true := by
  unfold opened
  split
  · assumption
  · rfl

@[simp]
theorem temporary_opened : store.opened.temporary = store.temporary := by
  unfold opened
  split <;> rfl

@[simp]
theorem dataPath_opened : store.opened.dataPath = store.dataPath := by
  unfold opened
  split <;> rfl

@[simp]
theorem ensureOpenLocked_faultless :
    store.ensureOpenLocked {} = (store.opened, .success) := by
  unfold ensureOpenLocked opened
  split
  · rfl
  · simp

/-- An open stream is not opened again, whatever the file system would say. -/
theorem ensureOpenLocked_of_open (answers : OpenAnswers)
    (hopen : store.fileOpen = true) :
    store.ensureOpenLocked answers = (store, .success) := by
  rw [ensureOpenLocked, if_pos hopen]

@[simp]
theorem bytes_ensureOpenLocked (answers : OpenAnswers) :
    (store.ensureOpenLocked answers).1.bytes = store.bytes := by
  unfold ensureOpenLocked
  repeat' split
  all_goals rfl

@[simp]
theorem pending_ensureOpenLocked (answers : OpenAnswers) :
    (store.ensureOpenLocked answers).1.pending = store.pending := by
  unfold ensureOpenLocked
  split
  · rfl
  next hclosed =>
    have hpending := store.pending_of_closed hclosed
    split
    · rfl
    · rfl
    · split
      · rfl
      · dsimp only
        split
        · exact hpending.symm
        · rfl

/-- A stream that has written its put area opens as it did before. -/
theorem ensureOpenLocked_drain (answers : OpenAnswers) (fault : Option ℕ) :
    ((store.drain fault).1.ensureOpenLocked answers).2 =
      (store.ensureOpenLocked answers).2 := by
  by_cases hopen : store.fileOpen = true
  · have hdrained : (store.drain fault).1.fileOpen = true := by
      rwa [fileOpen_drain]
    rw [ensureOpenLocked_of_open store answers hopen,
      ensureOpenLocked_of_open _ _ hdrained]
  · rw [drain_of_pending _ (store.pending_of_closed hopen)]

/-- Opening twice is opening once. -/
theorem ensureOpenLocked_idem (answers : OpenAnswers) :
    (store.ensureOpenLocked answers).1.ensureOpenLocked answers =
      store.ensureOpenLocked answers := by
  by_cases hopen : store.fileOpen = true
  · rw [ensureOpenLocked_of_open store answers hopen,
      ensureOpenLocked_of_open store answers hopen]
  · unfold ensureOpenLocked
    rw [if_neg hopen]
    cases answers.createDirectories with
    | some message => simp [hopen]
    | none =>
        cases answers.fileExists with
        | some what => simp [hopen]
        | none =>
            cases hcreate : store.data.isNone && !answers.createFile with
            | true => simp [hopen, hcreate]
            | false =>
                cases answers.openFile with
                | true => simp [fileOpen]
                | false =>
                    have hclosed : store.stream.isSome = false :=
                      Bool.not_eq_true _ ▸ hopen
                    simp [hclosed, fileOpen, withBytes, bytes]

/-- Opening fails with an I/O error or with the exception. -/
theorem fails_ensureOpenLocked {answers : OpenAnswers}
    (hfailed : ¬ (store.ensureOpenLocked answers).2.ok = true) :
    answers.Fails (store.ensureOpenLocked answers).2 := by
  unfold ensureOpenLocked at hfailed ⊢
  split
  next hopen => simp [hopen] at hfailed
  next hclosed =>
    rw [if_neg hclosed] at hfailed
    split
    · exact Or.inl rfl
    next what hdirectories hexists =>
      exact Or.inr ⟨rfl, by rw [hexists]; exact Option.some_ne_none what⟩
    next hdirectories hexists =>
      rw [hdirectories, hexists] at hfailed
      split
      · exact Or.inl rfl
      next hcreate =>
        dsimp only at hfailed ⊢
        rw [if_neg hcreate] at hfailed
        split
        next hopenFile => simp [hopenFile] at hfailed
        · exact Or.inl rfl

theorem bytes_reopenLocked (answers : OpenAnswers) (store : AppendOnlyStore) :
    (store.reopenLocked answers).1.bytes = store.bytes ++ store.pending := by
  rw [reopenLocked, bytes_ensureOpenLocked, bytes_closeFile, drained_none]

theorem pending_reopenLocked (answers : OpenAnswers)
    (store : AppendOnlyStore) :
    (store.reopenLocked answers).1.pending = [] := by
  rw [reopenLocked, pending_ensureOpenLocked, pending_closeFile]

end AppendOnlyStore

end MiniKV
