import Dir248.Proofs.Grace.Periods
import Mathlib.Data.List.Induction

/-!
# Who holds a grace period back

A writer waits for the readers that are late: those whose slot shows a token older than the one it
waits for. An offline reader shows zero and is never late. But a report of a reader stores the
newest token whatever the slot showed before, so one that reports while it is offline shows a token
afterwards, and from the next grace period on it is late like a reader that is online, until it
reports again or goes offline once more.

* **`Offline`**, **`Stirred`** — what a record says of a reader that was last told to be offline.
* **`Offline.not_idle_iff`** — it is idle, or it has reported in the meantime.
* **`Recorded.isLate_iff`** — which readers are late, by the record.
* **`Recorded.waited_for_iff`** — for which readers a wait waits.
* **`late_iff_not_reported`** — both, after every list of calls.
* **`late_while_offline`** — an offline reader that a writer waits for.
-/

namespace Dir248

variable {log : List Tick} {r : Nat} {x : Tick}

/-! ### Offline readers in the record -/

/-- The reader came or went offline, and has not gone online since. -/
def Offline (r : Nat) : List Tick → Prop :=
  Since (fun x => x = .came r ∨ x = .offline r) (· = .online r)

/-- The reader has reported quiescent, and has not gone offline since. -/
def Stirred (r : Nat) : List Tick → Prop :=
  Since (· = .quiescent r) fun x => x = .came r ∨ x = .offline r

theorem offline_concat : Offline r (log ++ [x]) ↔
    (x = .came r ∨ x = .offline r) ∨ (Offline r log ∧ x ≠ .online r) :=
  since_concat

theorem stirred_concat : Stirred r (log ++ [x]) ↔
    x = .quiescent r ∨ (Stirred r log ∧ ¬ (x = .came r ∨ x = .offline r)) :=
  since_concat

/-- An offline reader is not idle when it has reported in the meantime. -/
theorem Offline.not_idle_iff (h : Offline r log) : ¬ Idle r log ↔ Stirred r log := by
  induction log using List.reverseRecOn with
  | nil => exact absurd h not_since_nil
  | append_singleton log x ih =>
    rw [idle_concat, stirred_concat]
    by_cases hmark : x = .came r ∨ x = .offline r
    · have hne : x ≠ .quiescent r := by
        rcases hmark with rfl | rfl <;> exact nofun
      simp [hmark, hne]
    · obtain ⟨hlog, honline⟩ := (offline_concat.mp h).resolve_left hmark
      rw [and_iff_left hmark, or_iff_right hmark, ← ih hlog, Tick.Reports, or_iff_right honline,
        not_and_or, not_not]
      exact or_comm

namespace Tracker

variable {t : Tracker} {token : Nat} {before after : List Tick}

/-! ### Late readers -/

/-- A reader is late when it shows a token, and an older one. -/
theorem Sound.isLate_iff (h : t.Sound) :
    t.isLate token r = true ↔ ∃ c, t.seen? r = some c ∧ c ≠ 0 ∧ c < token := by
  unfold isLate
  split
  · next i hr =>
    obtain ⟨s, hs, htaken⟩ := h.taken hr
    have hseen : t.seen? r = some s.seen := seen?_eq_some.mpr ⟨i, s, hr, hs, rfl⟩
    simp [hseen, List.getD_eq_getElem?_getD, hs, ReaderSlot.past, htaken]
  · next hr => simp [seen?, hr]

/-- A grace period is over when no reader is late. -/
theorem Sound.check_iff_not_late (h : t.Sound) :
    t.check token = true ↔ ∀ r, t.isLate token r = false := by
  simp only [h.check_iff, ← Bool.not_eq_true, h.isLate_iff, not_exists, not_and, Nat.not_lt]
  exact forall₂_congr fun r c => forall_congr' fun _ => or_iff_not_imp_left

/-- The late readers are those that are there, are not idle, and have neither gone online nor
reported since the token was issued. -/
theorem Recorded.isLate_iff (h : Recorded t log) (hlog : log = before ++ .issued token :: after) :
    t.isLate token r = true ↔ Registered r log ∧ ¬ Idle r log ∧ ¬ Reported r after := by
  rw [h.sound.isLate_iff, h.registered]
  constructor
  · rintro ⟨c, hc, hne, hlt⟩
    refine ⟨⟨c, hc⟩, mt (h.idle hc).mp hne, fun hreported => ?_⟩
    exact Nat.not_le_of_lt hlt ((h.reported hc hne hlog).mpr hreported)
  · rintro ⟨⟨c, hc⟩, hidle, hreported⟩
    have hne : c ≠ 0 := mt (h.idle hc).mpr hidle
    exact ⟨c, hc, hne, Nat.lt_of_not_le (mt (h.reported hc hne hlog).mp hreported)⟩

/-! ### Readers that a wait waits for -/

/-- A reader keeps what it has seen while others take steps. -/
theorem Sound.seen?_foldl_advance (h : t.Sound) {c : Nat} (hc : t.seen? r = some c)
    {steps : List ReaderStep} (hsteps : ∀ step ∈ steps, step.by? ≠ some r) :
    (steps.foldl Tracker.advance t).seen? r = some c := by
  induction steps generalizing t with
  | nil => exact hc
  | cons step steps ih =>
    refine ih (h.advance step) ?_ fun step' hmem => hsteps step' (List.mem_cons_of_mem step hmem)
    obtain ⟨i, s, hr, hs, hseen⟩ := seen?_eq_some.mp hc
    obtain ⟨hr', hs'⟩ := h.advance_keeps hr (hsteps step List.mem_cons_self)
    exact seen?_eq_some.mpr ⟨i, s, hr', hs'.trans hs, hseen⟩

/-- A wait asks nothing of a reader that shows no token. -/
theorem Sound.not_waited_for (h : t.Sound) (hc : t.seen? r = some 0) {meanwhile : Meanwhile}
    (hsteps : ∀ step ∈ meanwhile t.start.token, step.by? ≠ some r) {step : ReaderStep}
    (hmem : .reader step ∈ (t.synchronize meanwhile).events) : step.by? ≠ some r := by
  have hwait : step ∈ t.start.waitSteps (meanwhile t.start.token) := by
    rcases List.mem_append.mp hmem with hmem | hnote
    · obtain ⟨step', hwait, heq⟩ := List.mem_map.mp hmem
      cases heq
      exact hwait
    · cases List.mem_singleton.mp hnote
  rcases List.mem_append.mp hwait with hfalls | hheld
  · exact hsteps step hfalls
  · obtain ⟨r', hlate, rfl⟩ := List.mem_map.mp hheld
    rintro ⟨⟩
    obtain ⟨c, hc', hne, -⟩ := (h.start.foldl_advance _).isLate_iff.mp (List.mem_filter.mp hlate).2
    rw [h.start.seen?_foldl_advance hc hsteps] at hc'
    exact hne (Option.some.inj hc').symm

/-- Where a reader takes no step by itself, a wait takes one of it unless it is idle. -/
theorem Recorded.waited_for_iff (h : Recorded t log) (hr : Registered r log)
    {meanwhile : Meanwhile} (hsteps : ∀ step ∈ meanwhile t.start.token, step.by? ≠ some r) :
    (∃ step, .reader step ∈ (t.synchronize meanwhile).events ∧ step.by? = some r) ↔
      ¬ Idle r log := by
  obtain ⟨c, hc⟩ := h.registered.mp hr
  rw [h.idle hc]
  constructor
  · rintro ⟨step, hmem, hby⟩ rfl
    exact h.sound.not_waited_for hc hsteps hmem hby
  · intro hne
    obtain ⟨i, s, hslot, hs, rfl⟩ := seen?_eq_some.mp hc
    obtain ⟨s', hs', htaken⟩ := h.sound.taken hslot
    obtain rfl := Option.some.inj (hs.symm.trans hs')
    have hinside : t.Inside r s.seen := ⟨Nat.pos_of_ne_zero hne, i, hslot, by rw [hs, ← htaken]⟩
    exact hinside.steps_in_wait h.sound meanwhile

/-! ### All calls -/

/-- After any calls a reader holds the grace period of a token back exactly when it is not idle and
has neither gone online nor reported since the token was issued; one that is offline does so exactly
when it has reported since it came or last went offline, and not since the token. A period is over
when nobody holds it back, and a wait in which the reader takes no step by itself waits for it
unless it is idle. -/
theorem late_iff_not_reported (maxReaders : Nat) (calls : List TrackerCall)
    {before after : List Tick} {token : Nat}
    (hissued : (new maxReaders).record calls = before ++ .issued token :: after) {r : Nat}
    (hr : Registered r ((new maxReaders).record calls)) :
    let t := calls.foldl serve (new maxReaders)
    let log := (new maxReaders).record calls
    (t.isLate token r = true ↔ ¬ Idle r log ∧ ¬ Reported r after) ∧
    (Offline r log → (t.isLate token r = true ↔ Stirred r log ∧ ¬ Reported r after)) ∧
    (t.check token = true ↔ ∀ r', t.isLate token r' = false) ∧
    ∀ meanwhile : Meanwhile, (∀ step ∈ meanwhile t.start.token, step.by? ≠ some r) →
      ((∃ step, .reader step ∈ (t.synchronize meanwhile).events ∧ step.by? = some r) ↔
        ¬ Idle r log) := by
  intro t log
  have hrecorded := recorded_serve maxReaders calls
  have hlate : t.isLate token r = true ↔ ¬ Idle r log ∧ ¬ Reported r after := by
    rw [hrecorded.isLate_iff hissued, and_iff_right hr]
  refine ⟨hlate, fun hoffline => ?_, hrecorded.sound.check_iff_not_late,
    fun meanwhile => hrecorded.waited_for_iff hr⟩
  rw [hlate, hoffline.not_idle_iff]

/-- Of two readers that went online the first has gone offline again. Only the second is late, and a
wait takes no step of the first. -/
theorem late_iff_not_reported_idle :
    let calls : List TrackerCall := [.reader .register, .reader .register, .reader (.online 0),
      .reader (.online 1), .reader (.offline 0), .start]
    let t := calls.foldl serve (new 2)
    t.isLate 2 0 = false ∧ t.isLate 2 1 = true ∧ t.check 2 = false ∧
      ∀ step, .reader step ∈ (t.synchronize fun _ => []).events → step.by? ≠ some 0 := by
  intro calls t
  have hissued : (new 2).record calls =
      [.came 0, .came 1, .online 0, .online 1, .offline 0] ++ .issued 2 :: [] := by decide
  have hidle : Idle 0 ((new 2).record calls) :=
    ⟨[.came 0, .came 1, .online 0, .online 1], .offline 0, [.issued 2], hissued, Or.inr rfl,
      by simp [Tick.Reports]⟩
  have hcame : Registered 0 ((new 2).record calls) :=
    ⟨[], .came 0, [.came 1, .online 0, .online 1, .offline 0, .issued 2], hissued, rfl, by simp⟩
  obtain ⟨hlate, -, hover, hwaited⟩ := late_iff_not_reported 2 calls hissued hcame
  have hheld : t.isLate 2 1 = true := by decide
  refine ⟨?_, hheld, ?_, fun step hmem hby => ?_⟩
  · rw [← Bool.not_eq_true]
    exact fun h => (hlate.mp h).1 hidle
  · rw [← Bool.not_eq_true]
    exact fun h => Bool.false_ne_true ((hover.mp h 1).symm.trans hheld)
  · have hnone : ∀ step ∈ ([] : List ReaderStep), step.by? ≠ some 0 :=
      fun step hstep => absurd hstep List.not_mem_nil
    exact (hwaited (fun _ => []) hnone).mp ⟨step, hmem, hby⟩ hidle

/-- A reader goes offline and then reports once more. It is offline by the record, and yet the
writer that comes next has to wait until it reports again. -/
theorem late_while_offline :
    let calls : List TrackerCall := [.reader .register, .reader (.online 0), .reader (.offline 0),
      .reader (.quiescent 0), .start]
    let t := calls.foldl serve (new 1)
    let log := (new 1).record calls
    Registered 0 log ∧ Offline 0 log ∧ .issued 2 ∈ log ∧
      t.isLate 2 0 = true ∧ t.check 2 = false ∧
      .reader (.quiescent 0) ∈ (t.synchronize fun _ => []).events := by
  intro calls t log
  have hlog : log = [.came 0, .online 0, .offline 0, .quiescent 0, .issued 2] := by decide
  refine ⟨⟨[], .came 0, _, hlog, rfl, by simp⟩, ?_, by simp [hlog], by decide, by decide,
    by decide⟩
  exact ⟨[.came 0, .online 0], .offline 0, [.quiescent 0, .issued 2], hlog, Or.inr rfl, by simp⟩

end Tracker

end Dir248
