import Dir248.Proofs.Grace.Readers
import Dir248.Proofs.Traces

/-!
# What the end of a grace period means

The tracker keeps one number for each slot and gives slots to one reader after the other. What
it answers is compared here with a record of the calls themselves, in which readers go by the
number they were given and slots do not occur.

* **`TrackerCall`**, **`Tracker.serve`**, **`Tracker.record`** — the calls on a tracker, and runs
  of them with their record.
* **`Registered`**, **`Idle`**, **`Reported`** — what a record says about a reader.
* **`Tracker.seen?`** — the token a reader has seen, and **`Sound.advance_shows`** how a step
  changes it.
* **`Recorded`** — the tokens that readers have seen agree with the record; **`Recorded.advance`**
  and **`Recorded.start`** are the steps and **`recorded_serve`** is the run.
* **`check_iff_reported`** — a grace period is over exactly when every registered reader is idle
  or has reported since it opened, and it stays over.
-/

namespace Dir248

/-! ### Calls and their record -/

/-- A call on a tracker. A wait is entered when it opens its grace period, so one that others
overtake is a `start`. -/
inductive TrackerCall where
  | reader (step : ReaderStep)
  | start
  | synchronize (meanwhile : Meanwhile)

/-- An entry of the record: a reader that was let in, a call of a reader, or a token that was
issued. -/
inductive Tick where
  | came (reader : Nat)
  | online (reader : Nat)
  | quiescent (reader : Nat)
  | offline (reader : Nat)
  | left (reader : Nat)
  | issued (token : Nat)
deriving Repr, DecidableEq

/-- The reader says that it holds nothing from before. -/
def Tick.Reports (r : Nat) (x : Tick) : Prop := x = .online r ∨ x = .quiescent r

/-- The reader was let in and has not left. -/
def Registered (r : Nat) : List Tick → Prop := Since (· = .came r) (· = .left r)

/-- The reader has not gone online nor reported since it came or last went offline. -/
def Idle (r : Nat) : List Tick → Prop :=
  Since (fun x => x = .came r ∨ x = .offline r) (Tick.Reports r)

/-- The reader has gone online or reported. -/
def Reported (r : Nat) (log : List Tick) : Prop := ∃ x ∈ log, x.Reports r

namespace Tracker

/-- The tracker after a call. -/
def serve (t : Tracker) : TrackerCall → Tracker
  | .reader step => (t.perform step).value
  | .start => t.start
  | .synchronize meanwhile => (t.synchronize meanwhile).value

/-- The entries of a reader step. A reader that is turned away makes none. -/
def ticks (t : Tracker) : ReaderStep → List Tick
  | .register =>
    match t.register.value.answer with
    | .ok r => [.came r]
    | .error _ => []
  | .online r => [.online r]
  | .offline r => [.offline r]
  | .quiescent r => [.quiescent r]
  | .leave r => [.left r]

/-- The entries of reader steps in a row. -/
def ticksAll (t : Tracker) : List ReaderStep → List Tick
  | [] => []
  | step :: steps => t.ticks step ++ (t.advance step).ticksAll steps

/-- The entries of a call. -/
def entries (t : Tracker) : TrackerCall → List Tick
  | .reader step => t.ticks step
  | .start => [.issued t.start.token]
  | .synchronize meanwhile =>
    .issued t.start.token :: t.start.ticksAll (t.start.waitSteps (meanwhile t.start.token))

/-- The record of calls in a row. -/
def record (t : Tracker) : List TrackerCall → List Tick
  | [] => []
  | call :: calls => t.entries call ++ (t.serve call).record calls

end Tracker

/-! ### One more entry -/

variable {log : List Tick} {r : Nat} {x : Tick}

theorem registered_concat :
    Registered r (log ++ [x]) ↔ x = .came r ∨ (Registered r log ∧ x ≠ .left r) :=
  since_concat

theorem idle_concat : Idle r (log ++ [x]) ↔
    (x = .came r ∨ x = .offline r) ∨ (Idle r log ∧ ¬ x.Reports r) :=
  since_concat

theorem reported_concat : Reported r (log ++ [x]) ↔ Reported r log ∨ x.Reports r := by
  simp only [Reported, List.mem_append, List.mem_singleton, or_and_right, exists_or,
    exists_eq_left]

/-- The token a reader has seen, once an entry was made while the tracker shows `token`. -/
def Tick.shows (x : Tick) (r token : Nat) (seen : Option Nat) : Option Nat :=
  match x with
  | .came r' => if r' = r then some 0 else seen
  | .online r' | .quiescent r' => if r' = r then seen.map fun _ => token else seen
  | .offline r' => if r' = r then seen.map fun _ => 0 else seen
  | .left r' => if r' = r then none else seen
  | .issued _ => seen

/-- An entry brings a reader to zero, or up to date, or it is not about that reader. -/
theorem Tick.shows_eq_some {token c : Nat} {seen : Option Nat}
    (h : x.shows r token seen = some c) :
    ((x = .came r ∨ x = .offline r) ∧ ¬ x.Reports r ∧ c = 0) ∨
      (¬ (x = .came r ∨ x = .offline r) ∧ x.Reports r ∧ c = token) ∨
        (¬ (x = .came r ∨ x = .offline r) ∧ ¬ x.Reports r ∧ seen = some c) := by
  cases x with
  | issued token' => exact Or.inr (Or.inr ⟨by simp, by simp [Reports], h⟩)
  | came r' =>
    rcases eq_or_ne r' r with rfl | hne
    · simp only [shows, if_true, Option.some.injEq] at h
      simp [Reports, ← h]
    · simp only [shows, if_neg hne] at h
      simp [Reports, hne, h]
  | online r' | quiescent r' | offline r' =>
    rcases eq_or_ne r' r with rfl | hne
    · simp only [shows, if_true, Option.map_eq_some_iff] at h
      obtain ⟨c', -, rfl⟩ := h
      simp [Reports]
    · simp only [shows, if_neg hne] at h
      simp [Reports, hne, h]
  | left r' =>
    rcases eq_or_ne r' r with rfl | hne
    · simp [shows] at h
    · simp only [shows, if_neg hne] at h
      simp [Reports, h]

/-- A reader is there after an entry if it came with it, or was there and did not leave. -/
theorem Tick.exists_shows_iff {token : Nat} {seen : Option Nat} :
    (∃ c, x.shows r token seen = some c) ↔
      x = .came r ∨ ((∃ c, seen = some c) ∧ x ≠ .left r) := by
  cases x with
  | issued token' => simp [shows]
  | came r' | online r' | quiescent r' | offline r' | left r' =>
    rcases eq_or_ne r' r with rfl | hne <;> simp [shows, *]

namespace Tracker

variable {t t' : Tracker} {token : Nat}

/-! ### The token a reader has seen -/

/-- The token in the slot of a reader, zero while it is offline. -/
def seen? (t : Tracker) (r : Nat) : Option Nat :=
  (t.slotOf? r).bind fun i => t.slots[i]?.map ReaderSlot.seen

theorem seen?_eq_some {c : Nat} : t.seen? r = some c ↔
    ∃ i s, t.slotOf? r = some i ∧ t.slots[i]? = some s ∧ s.seen = c := by
  simp [seen?, Option.bind_eq_some_iff, Option.map_eq_some_iff]

theorem Sound.seen?_le (h : t.Sound) {c : Nat} (hc : t.seen? r = some c) : c ≤ t.token := by
  obtain ⟨i, s, -, hs, rfl⟩ := seen?_eq_some.mp hc
  exact h.seen_le hs

/-- A grace period is over when every reader is offline or has seen its token. -/
theorem Sound.check_iff (h : t.Sound) :
    t.check token = true ↔ ∀ r c, t.seen? r = some c → c = 0 ∨ token ≤ c := by
  rw [check, List.all_eq_true]
  constructor
  · intro hall r c hc
    obtain ⟨i, s, hr, hs, rfl⟩ := seen?_eq_some.mp hc
    obtain ⟨s', hs', htaken⟩ := h.taken hr
    rw [hs] at hs'
    obtain rfl := Option.some.inj hs'
    simpa [ReaderSlot.past, htaken] using hall s (List.mem_of_getElem? hs)
  · intro hall s hmem
    obtain ⟨i, hi⟩ := List.getElem?_of_mem hmem
    cases htaken : s.taken with
    | false => simp [ReaderSlot.past, htaken]
    | true =>
      obtain ⟨r, hr⟩ := h.attended i s hi htaken
      simpa [ReaderSlot.past, htaken] using hall r s.seen (seen?_eq_some.mpr ⟨i, s, hr, hi, rfl⟩)

theorem seen?_start (t : Tracker) (r : Nat) : t.start.seen? r = t.seen? r := rfl

theorem Sound.seen?_see (h : t.Sound) (r₀ r c : Nat) :
    (t.updateSlot r₀ fun s => { s with seen := c }).seen? r =
      if r₀ = r then (t.seen? r).map fun _ => c else t.seen? r := by
  simp only [seen?, slotOf?_updateSlot]
  cases hr : t.slotOf? r with
  | none => simp
  | some i =>
    simp only [Option.bind_some, getElem?_updateSlot]
    rcases eq_or_ne r₀ r with rfl | hne
    · simp [hr, Function.comp_def]
    · rw [if_neg fun h₀ => hne (h.exclusive h₀ hr), if_neg hne]

theorem Sound.seen?_register (h : t.Sound) {j : Nat} (hj : t.freeSlot? = some j) (r : Nat) :
    (t.advance .register).seen? r = if t.readers.length = r then some 0 else t.seen? r := by
  simp only [seen?, slotOf?_register hj, getElem?_register hj]
  rcases eq_or_ne t.readers.length r with rfl | hne
  · simp
  · rw [if_neg (Ne.symm hne), if_neg hne]
    cases hr : t.slotOf? r with
    | none => rfl
    | some i =>
      have hij := h.ne_of_freeSlot? hr hj
      simp [hij]

theorem Sound.seen?_leave (h : t.Sound) (r₀ r : Nat) :
    (t.advance (.leave r₀)).seen? r = if r₀ = r then none else t.seen? r := by
  simp only [seen?, slotOf?_leave]
  rcases eq_or_ne r₀ r with rfl | hne
  · simp
  · rw [if_neg (Ne.symm hne), if_neg hne]
    cases hr : t.slotOf? r with
    | none => rfl
    | some i =>
      have hslot := getElem?_updateSlot t r₀ i fun _ => {}
      rw [if_neg fun h₀ => hne (h.exclusive h₀ hr)] at hslot
      simp only [Option.bind_some]
      exact congrArg (Option.map ReaderSlot.seen) hslot

theorem ticks_register {j : Nat} (hj : t.freeSlot? = some j) :
    t.ticks .register = [.came t.readers.length] := by
  simp [ticks, register, hj]

/-- A step makes one entry, and readers have seen what that entry says; or it turns a reader away
and does nothing. -/
theorem Sound.advance_shows (h : t.Sound) (step : ReaderStep) :
    (t.ticks step = [] ∧ t.advance step = t) ∨
      ∃ x, t.ticks step = [x] ∧ (∀ token, x ≠ .issued token) ∧
        ∀ r, (t.advance step).seen? r = x.shows r t.token (t.seen? r) := by
  cases step with
  | register =>
    cases hj : t.freeSlot? with
    | none => exact Or.inl ⟨by simp [ticks, Tracker.register, hj], by simp [Tracker.advance, hj]⟩
    | some j => exact Or.inr ⟨_, ticks_register hj, fun _ => by simp, h.seen?_register hj⟩
  | online r₀ => exact Or.inr ⟨_, rfl, fun _ => by simp, fun r => h.seen?_see r₀ r t.token⟩
  | quiescent r₀ => exact Or.inr ⟨_, rfl, fun _ => by simp, fun r => h.seen?_see r₀ r t.token⟩
  | offline r₀ => exact Or.inr ⟨_, rfl, fun _ => by simp, fun r => h.seen?_see r₀ r 0⟩
  | leave r₀ => exact Or.inr ⟨_, rfl, fun _ => by simp, h.seen?_leave r₀⟩

/-! ### Periods that are over -/

/-- Older grace periods end first. -/
theorem check_of_le {token' : Nat} (hle : token' ≤ token) (hover : t.check token = true) :
    t.check token' = true := by
  rw [check, List.all_eq_true] at hover ⊢
  intro s hs
  have hpast := hover s hs
  simp only [ReaderSlot.past, Bool.or_eq_true, decide_eq_true_eq] at hpast ⊢
  exact hpast.imp_right fun hseen => Nat.le_trans hle hseen

/-- What readers do does not reopen a grace period. -/
theorem Sound.check_advance (h : t.Sound) (ht : token ≤ t.token) (hover : t.check token = true)
    (step : ReaderStep) : (t.advance step).check token = true := by
  rcases h.advance_shows step with ⟨-, hsame⟩ | ⟨x, -, -, hseen⟩
  · rwa [hsame]
  · rw [(h.advance step).check_iff]
    intro r c hc
    rw [hseen] at hc
    rcases Tick.shows_eq_some hc with ⟨-, -, hzero⟩ | ⟨-, -, rfl⟩ | ⟨-, -, hbefore⟩
    · exact Or.inl hzero
    · exact Or.inr ht
    · exact h.check_iff.mp hover r c hbefore

theorem Sound.check_foldl_advance (h : t.Sound) (ht : token ≤ t.token)
    (hover : t.check token = true) (steps : List ReaderStep) :
    (steps.foldl Tracker.advance t).check token = true := by
  induction steps generalizing t with
  | nil => exact hover
  | cons step steps ih =>
    exact ih (h.advance step) ((token_advance t step).symm ▸ ht) (h.check_advance ht hover step)

theorem Sound.serve (h : t.Sound) (call : TrackerCall) : (t.serve call).Sound := by
  cases call with
  | reader step => exact h.advance step
  | start => exact h.start
  | synchronize meanwhile => exact h.synchronize meanwhile

theorem token_serve (t : Tracker) (call : TrackerCall) : t.token ≤ (t.serve call).token := by
  cases call with
  | reader step => exact Nat.le_of_eq (token_advance t step).symm
  | start => exact Nat.le_succ _
  | synchronize meanwhile =>
    simp only [serve, synchronize, token_foldl_advance]
    exact Nat.le_succ _

theorem Sound.check_serve (h : t.Sound) (ht : token ≤ t.token) (hover : t.check token = true)
    (call : TrackerCall) : (t.serve call).check token = true := by
  cases call with
  | reader step => exact h.check_advance ht hover step
  | start => exact hover
  | synchronize meanwhile =>
    exact h.start.check_foldl_advance (Nat.le_succ_of_le ht) hover _

/-- A grace period that is over stays over. -/
theorem Sound.check_foldl_serve (h : t.Sound) (ht : token ≤ t.token)
    (hover : t.check token = true) (calls : List TrackerCall) :
    (calls.foldl Tracker.serve t).check token = true := by
  induction calls generalizing t with
  | nil => exact hover
  | cons call calls ih =>
    exact ih (h.serve call) (Nat.le_trans ht (token_serve t call)) (h.check_serve ht hover call)

/-! ### A tracker and its record -/

/-- The tracker tells of its readers what the record tells: who is there, who is idle, and who
has reported since a token was issued. -/
structure Recorded (t : Tracker) (log : List Tick) : Prop where
  sound : t.Sound
  registered : ∀ {r}, Registered r log ↔ ∃ c, t.seen? r = some c
  idle : ∀ {r c}, t.seen? r = some c → (Idle r log ↔ c = 0)
  reported : ∀ {r c before token after}, t.seen? r = some c → c ≠ 0 →
    log = before ++ .issued token :: after → (token ≤ c ↔ Reported r after)
  issued : ∀ {token}, .issued token ∈ log → token ≤ t.token
  ordered : ∀ {before token after}, log = before ++ .issued token :: after →
    ∀ {token'}, .issued token' ∈ before → token' < token

theorem recorded_new (maxReaders : Nat) : Recorded (new maxReaders) [] := by
  have hnone : ∀ r, (new maxReaders).seen? r = none := fun _ => rfl
  refine ⟨sound_new maxReaders, ?_, ?_, ?_, nofun, ?_⟩
  · intro r
    simp [hnone, Registered, not_since_nil]
  · intro r c hc
    simp [hnone] at hc
  · intro r c before token after hc
    simp [hnone] at hc
  · intro before token after hsplit
    simp at hsplit

/-- One entry of a reader keeps the record. -/
theorem Recorded.tick (h : Recorded t log) (hsound : t'.Sound) (htoken : t'.token = t.token)
    (hx : ∀ token, x ≠ .issued token)
    (hseen : ∀ r, t'.seen? r = x.shows r t.token (t.seen? r)) : Recorded t' (log ++ [x]) := by
  refine ⟨hsound, ?_, ?_, ?_, ?_, ?_⟩
  · intro r
    rw [hseen, Tick.exists_shows_iff, registered_concat, h.registered]
  · intro r c hc
    rw [hseen] at hc
    rw [idle_concat]
    rcases Tick.shows_eq_some hc with ⟨hmark, -, rfl⟩ | ⟨hmark, hreports, rfl⟩ |
      ⟨hmark, hreports, hbefore⟩
    · simp [hmark]
    · have hpos := Nat.ne_of_gt h.sound.token_pos
      simp only [hmark, hreports, hpos, not_true_eq_false, and_false, or_false]
    · simp only [hmark, hreports, not_false_eq_true, and_true, false_or]
      exact h.idle hbefore
  · intro r c before token after hc hne hsplit
    rw [hseen] at hc
    rcases concat_eq_iff.mp hsplit with ⟨-, -, rfl⟩ | ⟨rest, rfl, hlog⟩
    · exact absurd rfl (hx token)
    · have hle : token ≤ t.token := h.issued (by rw [hlog]; simp)
      rw [reported_concat]
      rcases Tick.shows_eq_some hc with ⟨-, -, hzero⟩ | ⟨-, hreports, rfl⟩ |
        ⟨-, hreports, hbefore⟩
      · exact absurd hzero hne
      · simp [hle, hreports]
      · rw [h.reported hbefore hne hlog]
        simp [hreports]
  · intro token hmem
    rw [htoken]
    rcases List.mem_append.mp hmem with hmem | hmem
    · exact h.issued hmem
    · exact absurd (List.mem_singleton.mp hmem).symm (hx token)
  · intro before token after hsplit
    rcases concat_eq_iff.mp hsplit with ⟨-, -, rfl⟩ | ⟨rest, -, hlog⟩
    · exact absurd rfl (hx token)
    · exact h.ordered hlog

theorem Recorded.advance (h : Recorded t log) (step : ReaderStep) :
    Recorded (t.advance step) (log ++ t.ticks step) := by
  rcases h.sound.advance_shows step with ⟨hnil, hsame⟩ | ⟨x, hone, hx, hseen⟩
  · rwa [hnil, hsame, List.append_nil]
  · rw [hone]
    exact h.tick (h.sound.advance step) (token_advance t step) hx hseen

/-- A token that was just issued is newer than all others, and nobody has reported since. -/
theorem Recorded.start (h : Recorded t log) :
    Recorded t.start (log ++ [.issued t.start.token]) := by
  have hquiet : ∀ {r}, ¬ (Tick.issued t.start.token).Reports r := by simp [Tick.Reports]
  refine ⟨h.sound.start, ?_, ?_, ?_, ?_, ?_⟩
  · intro r
    rw [registered_concat, h.registered]
    simp [seen?_start]
  · intro r c hc
    rw [idle_concat]
    simpa [hquiet] using h.idle hc
  · intro r c before token after hc hne hsplit
    rcases concat_eq_iff.mp hsplit with ⟨rfl, -, htoken⟩ | ⟨rest, rfl, hlog⟩
    · have hlt : c < token := by
        obtain rfl := Tick.issued.inj htoken
        exact Nat.lt_succ_of_le (h.sound.seen?_le hc)
      simp [Reported, hlt]
    · rw [reported_concat, h.reported hc hne hlog]
      simp [hquiet]
  · intro token hmem
    rcases List.mem_append.mp hmem with hmem | hmem
    · exact Nat.le_succ_of_le (h.issued hmem)
    · exact Nat.le_of_eq (Tick.issued.inj (List.mem_singleton.mp hmem))
  · intro before token after hsplit
    rcases concat_eq_iff.mp hsplit with ⟨-, rfl, htoken⟩ | ⟨rest, -, hlog⟩
    · obtain rfl := Tick.issued.inj htoken
      exact fun hmem => Nat.lt_succ_of_le (h.issued hmem)
    · exact h.ordered hlog

theorem Recorded.foldl_advance (h : Recorded t log) (steps : List ReaderStep) :
    Recorded (steps.foldl Tracker.advance t) (log ++ t.ticksAll steps) := by
  induction steps generalizing t log with
  | nil => rwa [ticksAll, List.append_nil]
  | cons step steps ih =>
    rw [ticksAll, ← List.append_assoc]
    exact ih (h.advance step)

theorem Recorded.serve (h : Recorded t log) (call : TrackerCall) :
    Recorded (t.serve call) (log ++ t.entries call) := by
  cases call with
  | reader step => exact h.advance step
  | start => exact h.start
  | synchronize meanwhile =>
    have hwait := h.start.foldl_advance (t.start.waitSteps (meanwhile t.start.token))
    rwa [List.append_assoc] at hwait

theorem Recorded.foldl_serve (h : Recorded t log) (calls : List TrackerCall) :
    Recorded (calls.foldl Tracker.serve t) (log ++ t.record calls) := by
  induction calls generalizing t log with
  | nil => rwa [record, List.append_nil]
  | cons call calls ih =>
    rw [record, ← List.append_assoc]
    exact ih (h.serve call)

/-- The tracker agrees with the record of any calls. -/
theorem recorded_serve (maxReaders : Nat) (calls : List TrackerCall) :
    Recorded (calls.foldl Tracker.serve (new maxReaders)) ((new maxReaders).record calls) :=
  (recorded_new maxReaders).foldl_serve calls

/-- Whether a grace period is over can be read off the record alone. -/
theorem Recorded.check_iff (h : Recorded t log) {before after : List Tick}
    (hlog : log = before ++ .issued token :: after) :
    t.check token = true ↔ ∀ r, Registered r log → Idle r log ∨ Reported r after := by
  rw [h.sound.check_iff]
  constructor
  · intro hall r hr
    obtain ⟨c, hc⟩ := h.registered.mp hr
    rcases eq_or_ne c 0 with hzero | hne
    · exact Or.inl ((h.idle hc).mpr hzero)
    · exact Or.inr ((h.reported hc hne hlog).mp ((hall r c hc).resolve_left hne))
  · intro hall r c hc
    rcases eq_or_ne c 0 with hzero | hne
    · exact Or.inl hzero
    · refine Or.inr ((h.reported hc hne hlog).mpr ?_)
      exact (hall r (h.registered.mpr ⟨c, hc⟩)).resolve_left fun hidle =>
        hne ((h.idle hc).mp hidle)

/-- After any calls, the grace period of a token is over exactly when every registered reader is
idle or has gone online or reported since the token was issued. It then stays over, and so are
those of all tokens issued before. -/
theorem check_iff_reported (maxReaders : Nat) (calls : List TrackerCall) {before after : List Tick}
    {token : Nat} (hissued : (new maxReaders).record calls = before ++ .issued token :: after) :
    let t := calls.foldl serve (new maxReaders)
    (t.check token = true ↔ ∀ r, Registered r ((new maxReaders).record calls) →
      Idle r ((new maxReaders).record calls) ∨ Reported r after) ∧
    (t.check token = true → ∀ more : List TrackerCall, (more.foldl serve t).check token = true) ∧
    (t.check token = true → ∀ token', .issued token' ∈ before → t.check token' = true) := by
  intro t
  have hrecorded := recorded_serve maxReaders calls
  have hle : token ≤ t.token := hrecorded.issued (by rw [hissued]; simp)
  exact ⟨hrecorded.check_iff hissued, fun hover => hrecorded.sound.check_foldl_serve hle hover,
    fun hover token' hmem => check_of_le (Nat.le_of_lt (hrecorded.ordered hissued hmem)) hover⟩

/-- The only slot passes from a reader that was never idle to one that has reported. -/
theorem check_iff_reported_reused :
    let calls : List TrackerCall := [.reader .register, .reader (.online 0), .start,
      .reader (.leave 0), .reader .register, .start, .reader (.quiescent 1)]
    (new 1).record calls =
      [.came 0, .online 0, .issued 2, .left 0, .came 1] ++ .issued 3 :: [.quiescent 1] ∧
    ∀ more : List TrackerCall, (more.foldl serve (calls.foldl serve (new 1))).check 2 = true := by
  intro calls
  have hissued : (new 1).record calls =
      [.came 0, .online 0, .issued 2, .left 0, .came 1] ++ .issued 3 :: [.quiescent 1] := by decide
  obtain ⟨-, -, holder⟩ := check_iff_reported 1 calls hissued
  have hover : (calls.foldl serve (new 1)).check 2 = true := holder (by decide) 2 (by simp)
  have hfirst : (new 1).record calls =
      [.came 0, .online 0] ++ .issued 2 :: [.left 0, .came 1, .issued 3, .quiescent 1] := hissued
  obtain ⟨-, hstays, -⟩ := check_iff_reported 1 calls hfirst
  exact ⟨hissued, hstays hover⟩

end Tracker

end Dir248
