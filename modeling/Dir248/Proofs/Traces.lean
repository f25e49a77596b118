import Dir248.Trace

/-!
# Steps and their events

An operation is taken apart into steps, each with the events that belong to it. Events that
neither store nor tell of a reader or of a group handed out belong to no step in
particular; they are called quiet.

* **`Event.IsQuiet`**, **`Traced.Quiet`** — figures, faults and most notes.
* **`Chain`** — steps in a row, their events one after the other.
* **`Chain.keeps`**, **`Chain.keeps_under`** — what every step keeps is kept by a chain.
* **`Traced.Leads`** — a computation is a chain to the state its value shows.
* **`Traced.Faultless`** — every fact a computation relies on holds.
* **`Traced.metrics_bind`** — the figures of a sequence are those of its parts.
* **`Since`** — a record has an entry of one kind, and none of another kind behind it.
-/

namespace Dir248

/-! ### Quiet events -/

/-- An event that is no store, no reader step and no allocation. -/
def Event.IsQuiet : Event → Prop
  | .write _ => False
  | .reader _ => False
  | .note (.groupAllocated ..) => False
  | _ => True

namespace Traced

variable {α β : Type}

/-- A computation with quiet events only. -/
def Quiet (x : Traced α) : Prop := ∀ e ∈ x.events, e.IsQuiet

theorem quiet_pure (a : α) : (pure a : Traced α).Quiet := nofun

theorem quiet_emit {e : Event} (h : e.IsQuiet) : (emit e).Quiet := by
  intro e' he'
  rw [events_emit, List.mem_singleton] at he'
  subst he'
  exact h

theorem quiet_publish (m : Metric) : (publish m).Quiet := quiet_emit trivial

theorem quiet_log {n : Note} (h : (Event.note n).IsQuiet) : (log n).Quiet := quiet_emit h

theorem quiet_logIf {n : Note} (b : Bool) (h : (Event.note n).IsQuiet) : (logIf b n).Quiet := by
  cases b
  · exact quiet_pure ()
  · exact quiet_log h

theorem quiet_require (b : Bool) (f : Fault) : (require b f).Quiet := by
  cases b
  · exact quiet_emit trivial
  · exact quiet_pure ()

theorem Quiet.bind {x : Traced α} {f : α → Traced β} (hx : x.Quiet) (hf : (f x.value).Quiet) :
    (x >>= f).Quiet := by
  intro e he
  rw [events_bind, List.mem_append] at he
  exact he.elim (hx e) (hf e)

end Traced

/-! ### Computations without faults -/

namespace Traced

variable {α β : Type}

/-- Every fact the computation relies on holds. -/
def Faultless (x : Traced α) : Prop := x.faults = []

theorem faultless_pure (a : α) : (pure a : Traced α).Faultless := rfl

theorem faultless_log (n : Note) : (log n).Faultless := rfl

theorem faultless_publish (m : Metric) : (publish m).Faultless := rfl

theorem faultless_logIf (b : Bool) (n : Note) : (logIf b n).Faultless := by
  cases b
  · exact faultless_pure ()
  · exact faultless_log n

theorem faultless_require {b : Bool} (h : b = true) (f : Fault) : (require b f).Faultless := by
  rw [h]
  exact faultless_pure ()

theorem Faultless.bind {x : Traced α} {f : α → Traced β} (hx : x.Faultless)
    (hf : (f x.value).Faultless) : (x >>= f).Faultless := by
  unfold Faultless faults at hx hf ⊢
  rw [events_bind, List.filterMap_append, hx, hf]
  rfl

/-- The parts of a sequence without faults have none. -/
theorem Faultless.of_bind {x : Traced α} {f : α → Traced β} (h : (x >>= f).Faultless) :
    x.Faultless ∧ (f x.value).Faultless := by
  unfold Faultless faults at h ⊢
  rw [events_bind, List.filterMap_append] at h
  exact List.append_eq_nil_iff.mp h

end Traced

/-! ### Published figures -/

namespace Traced

variable {α β : Type}

@[simp] theorem metrics_pure (a : α) : (pure a : Traced α).metrics = [] := rfl

@[simp] theorem metrics_bind (x : Traced α) (f : α → Traced β) :
    (x >>= f).metrics = x.metrics ++ (f x.value).metrics := List.filterMap_append ..

@[simp] theorem metrics_map (f : α → β) (x : Traced α) : (f <$> x).metrics = x.metrics := by
  rw [metrics, metrics, events_map]

@[simp] theorem metrics_publish (m : Metric) : (publish m).metrics = [m] := rfl

@[simp] theorem metrics_log (n : Note) : (log n).metrics = [] := rfl

@[simp] theorem metrics_logIf (b : Bool) (n : Note) : (logIf b n).metrics = [] := by
  cases b <;> rfl

@[simp] theorem metrics_require (b : Bool) (f : Fault) : (require b f).metrics = [] := by
  cases b <;> rfl

@[simp] theorem metrics_fault (f : Fault) : (emit (.fault f)).metrics = [] := rfl

/-- A loop whose steps publish nothing publishes nothing. -/
theorem metrics_foldlM_eq_nil {f : β → α → Traced β} (h : ∀ b a, (f b a).metrics = [])
    (xs : List α) (b : β) : (xs.foldlM f b).metrics = [] := by
  induction xs generalizing b with
  | nil => rfl
  | cons x xs ih => rw [List.foldlM_cons, metrics_bind, h, ih, List.append_nil]

end Traced

/-! ### Chains of steps -/

/-- Steps in a row, with all their events. -/
inductive Chain {σ : Type} (R : σ → List Event → σ → Prop) : σ → List Event → σ → Prop
  | nil (s : σ) : Chain R s [] s
  | cons {s s' s'' : σ} {es es' : List Event} :
      R s es s' → Chain R s' es' s'' → Chain R s (es ++ es') s''

namespace Chain

variable {σ : Type} {R R' : σ → List Event → σ → Prop} {s s' s'' : σ} {es es' : List Event}

theorem single (h : R s es s') : Chain R s es s' := by
  have hc := Chain.cons h (.nil s')
  rwa [List.append_nil] at hc

theorem trans (h : Chain R s es s') (h' : Chain R s' es' s'') : Chain R s (es ++ es') s'' := by
  induction h with
  | nil s => exact h'
  | cons hstep _ ih =>
    rw [List.append_assoc]
    exact .cons hstep (ih h')

/-- A chain without events at the end. -/
theorem then_silent (h : Chain R s es s') (h' : Chain R s' [] s'') : Chain R s es s'' := by
  have hc := h.trans h'
  rwa [List.append_nil] at hc

theorem mono (hR : ∀ {s es s'}, R s es s' → R' s es s') (h : Chain R s es s') :
    Chain R' s es s' := by
  induction h with
  | nil s => exact .nil s
  | cons hstep _ ih => exact .cons (hR hstep) ih

/-- What every step keeps is kept by a chain. -/
theorem keeps {P : σ → Prop} (hP : ∀ {s es s'}, R s es s' → P s → P s') (h : Chain R s es s')
    (hs : P s) : P s' := by
  induction h with
  | nil s => exact hs
  | cons hstep _ ih => exact ih (hP hstep hs)

/-- What every step keeps where something else holds, which every step keeps too. -/
theorem keeps_under (h : Chain R s es s') {P Q : σ → Prop}
    (hP : ∀ {s es s'}, R s es s' → P s → P s')
    (hQ : ∀ {s es s'}, R s es s' → P s → Q s → Q s') (hs : P s) (hq : Q s) : Q s' := by
  induction h with
  | nil s => exact hq
  | cons hstep _ ih => exact ih (hP hstep hs) (hQ hstep hs hq)

/-- The step of a chain that a given event belongs to. -/
theorem split {es : List Event} (h : Chain R s es s') {before after : List Event} {e : Event}
    (hes : es = before ++ e :: after) : ∃ s₁ s₂ before₁ before₂ after₁ after₂,
      before = before₁ ++ before₂ ∧ after = after₁ ++ after₂ ∧ Chain R s before₁ s₁ ∧
        R s₁ (before₂ ++ e :: after₁) s₂ ∧ Chain R s₂ after₂ s' := by
  induction h generalizing before with
  | nil s => exact absurd hes.symm (List.append_ne_nil_of_right_ne_nil _ nofun)
  | @cons s s₁ s₂ es es' hstep hrest ih =>
    rcases List.append_eq_append_iff.mp hes with ⟨more, rfl, hes'⟩ | ⟨more, hes', hafter⟩
    · obtain ⟨t₁, t₂, b₁, b₂, a₁, a₂, rfl, ha, hchain, ht, htail⟩ := ih hes'
      exact ⟨t₁, t₂, es ++ b₁, b₂, a₁, a₂, (List.append_assoc ..).symm, ha, .cons hstep hchain, ht,
        htail⟩
    · cases more with
      | nil =>
        rw [List.append_nil] at hes'
        obtain ⟨t₁, t₂, b₁, b₂, a₁, a₂, hb, ha, hchain, ht, htail⟩ :=
          ih (show es' = [] ++ e :: after from hafter.symm)
        obtain ⟨rfl, rfl⟩ := List.append_eq_nil_iff.mp hb.symm
        exact ⟨t₁, t₂, es ++ [], [], a₁, a₂, by simp [hes'], ha, .cons hstep hchain, ht, htail⟩
      | cons e' more =>
        obtain ⟨rfl, rfl⟩ := List.cons.inj hafter
        exact ⟨s, s₁, [], before, more, es', rfl, rfl, .nil s, hes' ▸ hstep, hrest⟩

end Chain

/-! ### Computations as chains -/

namespace Traced

variable {σ α β : Type} {R R' : σ → List Event → σ → Prop} {s s' : σ}

/-- A computation is a chain from `s` to the state that its value shows. -/
def Leads (R : σ → List Event → σ → Prop) (s : σ) (x : Traced α) (f : α → σ) : Prop :=
  Chain R s x.events (f x.value)

theorem leads_pure {a : α} {f : α → σ} (h : s = f a) : Leads R s (pure a) f := by
  rw [h]
  exact .nil _

/-- The steps of a sequence are those of its parts. -/
theorem Leads.bind {x : Traced α} {k : α → Traced β} {f : α → σ} {h : β → σ}
    (hx : Leads R s x f) (hk : Leads R (f x.value) (k x.value) h) : Leads R s (x >>= k) h :=
  Chain.trans hx hk

theorem Leads.first {x : Traced α} {f : α → σ} (h : Chain R s [] s') (hx : Leads R s' x f) :
    Leads R s x f :=
  Chain.trans h hx

theorem Leads.last {x : Traced α} {f f' : α → σ} (hx : Leads R s x f)
    (h : Chain R (f x.value) [] (f' x.value)) : Leads R s x f' :=
  hx.then_silent h

theorem Leads.mono {x : Traced α} {f : α → σ} (hR : ∀ {s es s'}, R s es s' → R' s es s')
    (hx : Leads R s x f) : Leads R' s x f :=
  Chain.mono hR hx

end Traced

/-! ### Records -/

section Records

variable {α : Type} {mark stop : α → Prop} {xs before after : List α} {x y : α}

/-- An entry of one kind was made, and none of another kind since. -/
def Since (mark stop : α → Prop) (xs : List α) : Prop :=
  ∃ before x after, xs = before ++ x :: after ∧ mark x ∧ ∀ y ∈ after, ¬ stop y

/-- Where a record with one more entry can be split. -/
theorem concat_eq_iff : xs ++ [x] = before ++ y :: after ↔
    (after = [] ∧ xs = before ∧ x = y) ∨
      ∃ rest, after = rest ++ [x] ∧ xs = before ++ y :: rest := by
  rcases List.eq_nil_or_concat after with rfl | ⟨rest, z, rfl⟩
  · simp
  · rw [List.concat_eq_append, ← List.cons_append, ← List.append_assoc,
      List.append_singleton_inj]
    constructor
    · rintro ⟨rfl, rfl⟩
      exact Or.inr ⟨rest, rfl, rfl⟩
    · rintro (⟨hnil, -⟩ | ⟨rest', hrest, rfl⟩)
      · simp at hnil
      · obtain ⟨rfl, rfl⟩ := List.append_singleton_inj.mp hrest
        exact ⟨rfl, rfl⟩

theorem not_since_nil : ¬ Since mark stop [] := by
  rintro ⟨before, x, after, hsplit, -⟩
  simp at hsplit

theorem since_concat : Since mark stop (xs ++ [x]) ↔
    mark x ∨ (Since mark stop xs ∧ ¬ stop x) := by
  constructor
  · rintro ⟨before, y, after, hsplit, hmark, hstop⟩
    rcases concat_eq_iff.mp hsplit with ⟨-, -, rfl⟩ | ⟨rest, rfl, rfl⟩
    · exact Or.inl hmark
    · exact Or.inr ⟨⟨before, y, rest, rfl, hmark, fun z hz =>
        hstop z (List.mem_append_left _ hz)⟩, hstop x (by simp)⟩
  · rintro (hmark | ⟨⟨before, y, after, rfl, hmark, hafter⟩, hstop⟩)
    · exact ⟨xs, x, [], rfl, hmark, nofun⟩
    · refine ⟨before, y, after ++ [x], by simp, hmark, fun z hz => ?_⟩
      rcases List.mem_append.mp hz with hz | hz
      · exact hafter z hz
      · rwa [List.mem_singleton.mp hz]

end Records

end Dir248
