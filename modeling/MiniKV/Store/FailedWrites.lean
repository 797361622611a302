import MiniKV.Store.Compaction
import MiniKV.Store.InStep

/-!
# Failed writes and the next restart

A restart behind a failed `set` or `remove` shows what the running store showed
as long as what comes into the file is harmless, and the clock does not go
back.
-/

namespace MiniKV

open AppendOnlyStore (recordBytes)

/-- The same is unexpired on both sides, at this reading and at later ones. -/
def Alike : Standing := fun nowMs stored shown =>
  ∀ laterMs, nowMs ≤ laterMs → unexpired laterMs stored = unexpired laterMs shown

theorem lawful_alike : Standing.Lawful Alike where
  refl _ _ _ _ := rfl
  forget hstands hexpired laterMs hclock := by
    have hlater := isExpired_mono hexpired hclock
    rw [hstands laterMs hclock, unexpired, Option.filter_some, hlater]
    rfl

theorem Alike.mono {nowMs laterMs : Int64} {stored shown : Option (Bytes × Int64)}
    (halike : Alike nowMs stored shown) (hclock : nowMs ≤ laterMs) :
    Alike laterMs stored shown :=
  fun lastMs hlast => halike lastMs (Int64.le_trans hclock hlast)

namespace View

variable {nowMs laterMs : Int64} {view later : View}

/-- What a restart reads. -/
theorem InStep.contents_reopened (hinStep : view.InStep Alike nowMs)
    (hclock : nowMs ≤ laterMs) :
    ∃ entries tail, LogWithTail entries tail view.bytes ∧
      ∀ cache, (View.ofLog laterMs entries cache).contents =
        view.live laterMs := by
  obtain ⟨-, entries, tail, hlog, halike⟩ := hinStep
  refine ⟨entries, tail, hlog, fun cache => ?_⟩
  funext key
  rw [contents_ofLog_eq]
  exact halike key laterMs hclock

/-- Upkeep forgets nothing that is unexpired from then on. -/
theorem live_upkeep (hcoherent : view.Coherent)
    (hupkeep : Upkeep nowMs view later) (hclock : nowMs ≤ laterMs) :
    later.live laterMs = view.live laterMs := by
  funext key
  rcases contents_upkeep hcoherent hupkeep key with
    hsame | ⟨hgone, value, expiresAtMs, hcontents, hexpired⟩
  · rw [live, live, hsame]
  · have hlater := isExpired_mono hexpired hclock
    rw [live, live, hgone, hcontents, Option.filter_some, hlater]
    rfl

theorem live_upkeeps (hcoherent : view.Coherent)
    (hupkeeps : Upkeeps nowMs view later) (hclock : nowMs ≤ laterMs) :
    later.live laterMs = view.live laterMs := by
  induction hupkeeps with
  | refl => rfl
  | tail hearlier hlast ih =>
      exact (live_upkeep (hcoherent.upkeeps hearlier) hlast hclock).trans ih

end View

namespace KeyValueStore

variable {store : KeyValueStore} {request : Request}

theorem inStep_run {requests : List Request} {startMs : Int64}
    (hpaced : Machine.Paced Request.nowMs startMs requests)
    (halong : machine.Along (Contained Alike) requests store)
    (hclosed : store.opened = false)
    (hopened : (machine.run requests store).1.opened = true) :
    (machine.run requests store).1.view.InStep Alike
      (Machine.lastReading Request.nowMs startMs requests) := by
  have hstep : ∀ beforeMs request before,
      (before.opened = true → before.view.InStep Alike beforeMs) →
      beforeMs ≤ request.nowMs → Contained Alike request before →
      ((machine.step request before).1.opened = true →
        (machine.step request before).1.view.InStep Alike request.nowMs) :=
    fun _ _ _ hbefore hclock => inStep_perform lawful_alike hbefore
      fun _ _ halike => halike.mono hclock
  have hstart : store.opened = true → store.view.InStep Alike startMs := by
    intro hopen
    rw [hclosed] at hopen
    cases hopen
  exact Machine.timed_invariant hstep hpaced halong hstart hopened

/-- A failed call changes nothing that the store shows from then on. -/
theorem live_of_failed {record : Record} {after : KeyValueStore}
    {status : Status} (hcoherent : store.view.Coherent)
    (hwritten : Written request record store after (.status status))
    (hfailed : status.ok = false) {laterMs : Int64}
    (hclock : request.nowMs ≤ laterMs) :
    after.view.live laterMs = store.view.live laterMs := by
  cases hwritten with
  | refused _ _ _ _ hupkeeps =>
      exact View.live_upkeeps hcoherent hupkeeps hclock
  | failed _ _ _ hfailure =>
      obtain ⟨rest, held, hview⟩ := hfailure.stray
      rw [hview]
      exact View.live_congr (View.contents_stray hcoherent rest held) laterMs
  | written => cases hfailed

/-- In every run whose calls are contained, on a clock that does not go back: a
`set` or `remove` that fails changes nothing that the store shows, and the next
restart shows the same, unless it writes more of the put area than is
harmless. -/
theorem failed_write_stays_invisible (config : StoreConfig)
    (data temporary : Option Bytes) (requests : List Request)
    (startMs : Int64) (hpaced : Machine.Paced Request.nowMs startMs requests)
    (halong : machine.Along (Contained Alike) requests (new config data temporary))
    (failing : Request)
    (hcontained : Contained Alike failing
      (machine.run requests (new config data temporary)).1)
    (hclock : Machine.lastReading Request.nowMs startMs requests ≤
      failing.nowMs) :
    let before := (machine.run requests (new config data temporary)).1
    let after := (before.perform failing).1
    before.opened = true → failing.record.isSome →
    ∀ status, (before.perform failing).2 = .status status →
    status.ok = false →
    ∀ later : Environment, later.Reliable → failing.nowMs ≤ later.nowMs →
    ∀ how : Restart, after.view.Harmless Alike failing.nowMs
      (how.written after.storage.pending) →
    0 < (after.restart how).config.cleanupIntervalMs →
    after.view.live later.nowMs = before.view.live later.nowMs ∧
      ∃ reopened, (after.restart how).openStore later = (reopened, .success) ∧
        reopened.view.contents = after.view.live later.nowMs := by
  intro before after hopened hwrites status hreply hfailed later hlater hnext
    how hharmless hinterval
  obtain ⟨record, hrecord⟩ := Option.isSome_iff_exists.mp hwrites
  have hbefore : before.view.InStep Alike failing.nowMs :=
    (inStep_run hpaced halong rfl hopened).mono
      fun _ _ halike => halike.mono hclock
  have hstays : after.opened = true :=
    (opened_perform (operates_of_record hrecord)).trans hopened
  have hafter : after.view.InStep Alike failing.nowMs :=
    inStep_perform lawful_alike (fun _ => hbefore) (fun _ _ halike => halike)
      hcontained hstays
  have hwritten := written_perform hopened hrecord
  rw [hreply] at hwritten
  obtain ⟨entries, tail, hlog, hshows⟩ :=
    (hafter.stray hharmless []).contents_reopened hnext
  have hrestarted : LogWithTail entries tail
      (after.restart how).storage.bytes := by
    rw [bytes_restart]
    exact hlog
  obtain ⟨reopened, hresult, hview, -, -⟩ :=
    openStore_log hlater (opened_restart how after) hinterval hrestarted
  refine ⟨live_of_failed hbefore.coherent hwritten hfailed hnext, reopened,
    hresult, ?_⟩
  rw [hview, View.contents_reopened, hshows]
  exact View.live_congr (View.contents_stray hafter.coherent _ []) later.nowMs

/-- A `set` whose put area holds all but the value when the process ends. -/
theorem failed_write_stays_invisible_behind_held_set :
    let requests : List Request :=
      [⟨.calm 1, .openStore⟩, ⟨.calm 2, .set [97] [98] none⟩]
    let failing : Request :=
      ⟨{ nowMs := 3, append := { flush := some ⟨0, 29⟩ } },
        .set [97] [99] none⟩
    let before := (machine.run requests (new .small none none)).1
    let after := (before.perform failing).1
    after.view.live 4 = before.view.live 4 ∧
      ∃ reopened, (after.restart (.exited .small none)).openStore (.calm 4) =
          (reopened, .success) ∧
        reopened.view.contents = after.view.live 4 := by
  intro requests failing before after
  have hpaced : Machine.Paced Request.nowMs 1 requests :=
    ⟨by decide, by decide, trivial⟩
  have halong : machine.Along (Contained Alike) requests (new .small none none) := by
    refine ⟨contained_quiet nofun rfl rfl, contained_set ?_ ⟨[], ?_⟩ nofun, trivial⟩
    · decide +kernel
    · decide +kernel
  have hbytes : before.storage.bytes =
      logFormat.imageAll [.ofRecord ⟨.set, [97], [98], 0⟩ (by decide)] := by
    decide +kernel
  have hcontained : Contained Alike failing before := by
    refine contained_set ?_ ⟨_, hbytes⟩ ?_
    · decide +kernel
    · rintro torn ⟨⟩
      decide +kernel
  have hreply : (before.perform failing).2 = .status
      (.ioError "failed to flush append-only record") :=
    congrArg Reply.status (by decide +kernel)
  have hharmless : after.view.Harmless Alike 3
      (Restart.written (.exited .small none) after.storage.pending) := by
    intro _
    have hlog := logWithTail_imageAll
      [.ofRecord ⟨.set, [97], [98], 0⟩ (by decide)]
    rw [← hbytes] at hlog
    have hsame : after.view.bytes = before.storage.bytes := by decide +kernel
    have hheld : Restart.written (.exited .small none) after.storage.pending =
        (recordBytes ⟨.set, [97], [99], 0⟩).take 29 := by decide +kernel
    rw [hheld]
    exact Or.inl ⟨_, [], hsame ▸ hlog, unfinishedTail_take (by decide)
      (by decide +kernel)⟩
  exact failed_write_stays_invisible .small none none requests 1 hpaced halong
    failing hcontained (by decide) (by decide +kernel) rfl _ hreply rfl
    (.calm 4) (Environment.faultless_calm 4).toReliable (by decide) _ hharmless
    (by decide)

/-- A `set` whose flush fails, and whose whole record is in the file, or comes
there from the put area as the process ends: the next restart shows the
value. -/
theorem failed_set_comes_back :
    let before := (machine.run [⟨.calm 1, .openStore⟩] (new .small none none)).1
    let failing (torn : Torn) := before.set
      { nowMs := 2, append := { flush := some torn } } [97] [98] none
    let reopened (torn : Torn) (how : Restart) :=
      (((failing torn).1.restart how).openStore (.calm 3)).1
    (∀ torn ∈ [⟨30, 0⟩, ⟨0, 30⟩], (failing torn).2.ok = false ∧
      ((failing torn).1.get (.calm 3) [97]).2 =
        .error (.notFound "key does not exist")) ∧
      ((reopened ⟨30, 0⟩ (.died .small)).get (.calm 3) [97]).2 = .ok [98] ∧
      ((reopened ⟨0, 30⟩ (.exited .small none)).get (.calm 3) [97]).2 =
        .ok [98] := by
  decide +kernel

end KeyValueStore

end MiniKV
