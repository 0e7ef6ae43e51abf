/-
Runs of a machine given by a partial step function, the invariant rule for them, and the rule for
machines that emit events: a step-by-step simulation by a second machine that reads the events
carries over to whole runs.
-/
import Mathlib.Data.List.Basic

namespace MiniOs.Library

/-- The state after a list of actions; `none` as soon as one of them is not enabled. -/
def run {σ α : Type} (step : σ → α → Option σ) : σ → List α → Option σ
  | s, [] => some s
  | s, a :: as => (step s a).bind fun s' => run step s' as

section

variable {σ α : Type} {step : σ → α → Option σ}

@[simp] theorem run_nil (s : σ) : run step s [] = some s := rfl

theorem run_cons {s : σ} {a : α} {as : List α} {t : σ} :
    run step s (a :: as) = some t ↔ ∃ s', step s a = some s' ∧ run step s' as = some t := by
  simp only [run, Option.bind_eq_some_iff]

/-- A property that holds at the start and that every step keeps holds after every run. -/
theorem run_invariant {P : σ → Prop} (hstep : ∀ s a s', P s → step s a = some s' → P s') :
    ∀ {as : List α} {s t : σ}, P s → run step s as = some t → P t
  | [], _, _, hs, h => by cases h; exact hs
  | a :: as, s, t, hs, h => by
    obtain ⟨s', h1, h2⟩ := run_cons.1 h
    exact run_invariant hstep (hstep s a s' hs h1) h2

/-- A property of every step of a run: of the state before it, its action and the state after it. -/
def along (step : σ → α → Option σ) (P : σ → α → σ → Prop) : σ → List α → Prop
  | _, [] => True
  | s, a :: as => ∀ s', step s a = some s' → P s a s' ∧ along step P s' as

theorem along_cons {P : σ → α → σ → Prop} {s s' : σ} {a : α} {as : List α} (hs : step s a = some s') (hp : P s a s')
    (h : along step P s' as) : along step P s (a :: as) := by
  intro t ht
  obtain rfl := Option.mem_unique hs ht
  exact ⟨hp, h⟩

/-- A property that the steps of the run keep, given what else holds along it. -/
theorem run_invariant_along {P : σ → α → σ → Prop} {I : σ → Prop}
    (hstep : ∀ s a s', I s → P s a s' → step s a = some s' → I s') :
    ∀ {as : List α} {s t : σ}, I s → along step P s as → run step s as = some t → I t
  | [], _, _, hs, _, h => by cases h; exact hs
  | a :: as, s, t, hs, halong, h => by
    obtain ⟨s', h1, h2⟩ := run_cons.1 h
    obtain ⟨hp, hrest⟩ := halong s' h1
    exact run_invariant_along hstep (hstep s a s' hs hp h1) hrest h2

theorem along_and {P R : σ → α → σ → Prop} : ∀ {as : List α} {s : σ}, along step P s as → along step R s as →
    along step (fun s a s' => P s a s' ∧ R s a s') s as
  | [], _, _, _ => trivial
  | _ :: _, _, hp, hr => fun s' hs => ⟨⟨(hp s' hs).1, (hr s' hs).1⟩, along_and (hp s' hs).2 (hr s' hs).2⟩

end

/-! ## Runs that emit events -/

/-- The state after a list of actions, and the events in order. -/
def runTrace {σ α ε : Type} (step : σ → α → Option (σ × ε)) : σ → List α → Option (σ × List ε)
  | s, [] => some (s, [])
  | s, a :: as =>
    match step s a with
    | none => none
    | some (s', e) => (runTrace step s' as).map fun (t, es) => (t, e :: es)

section

variable {σ ρ α ε : Type} {step : σ → α → Option (σ × ε)} {spec : ρ → ε → Option ρ}

theorem runTrace_cons {s t : σ} {a : α} {as : List α} {es : List ε} :
    runTrace step s (a :: as) = some (t, es) ↔
      ∃ s' e es', step s a = some (s', e) ∧ runTrace step s' as = some (t, es') ∧ es = e :: es' := by
  have heq : runTrace step s (a :: as) = match step s a with
      | none => none
      | some (s', e) => (runTrace step s' as).map fun (t, es) => (t, e :: es) := rfl
  rw [heq]
  cases h : step s a with
  | none => simp
  | some r =>
    obtain ⟨s', e⟩ := r
    simp only [Option.map_eq_some_iff, Prod.mk.injEq, Option.some.injEq]
    constructor
    · rintro ⟨⟨t', es'⟩, h1, rfl, rfl⟩
      exact ⟨s', e, es', ⟨rfl, rfl⟩, h1, rfl⟩
    · rintro ⟨s'', e', es', ⟨rfl, rfl⟩, h3, rfl⟩
      exact ⟨(t, es'), h3, rfl, rfl⟩

/-- If every step is matched by the second machine on the event it emits, so is every run. -/
theorem runTrace_simulates {R : σ → ρ → Prop}
    (hstep : ∀ s r a s' e, R s r → step s a = some (s', e) → ∃ r', spec r e = some r' ∧ R s' r') :
    ∀ {as : List α} {s t : σ} {r : ρ} {es : List ε}, R s r → runTrace step s as = some (t, es) →
      ∃ r', run spec r es = some r' ∧ R t r'
  | [], _, _, r, _, hs, h => by
    cases h
    exact ⟨r, rfl, hs⟩
  | a :: as, s, t, r, es, hs, h => by
    obtain ⟨s', e, es', h1, h2, rfl⟩ := runTrace_cons.1 h
    obtain ⟨r1, h3, h4⟩ := hstep s r a s' e hs h1
    obtain ⟨r2, h5, h6⟩ := runTrace_simulates hstep h4 h2
    exact ⟨r2, run_cons.2 ⟨r1, h3, h5⟩, h6⟩

/-- What every step keeps holds after a run, and what every step guarantees of its event holds of every
event of the run. -/
theorem runTrace_forall {P : σ → Prop} {Q : ε → Prop}
    (hstep : ∀ s a s' e, P s → step s a = some (s', e) → P s' ∧ Q e) :
    ∀ {as : List α} {s t : σ} {es : List ε}, P s → runTrace step s as = some (t, es) → P t ∧ ∀ e ∈ es, Q e
  | [], _, _, _, hs, h => by
    cases h
    exact ⟨hs, by simp⟩
  | a :: as, s, t, es, hs, h => by
    obtain ⟨s', e, es', h1, h2, rfl⟩ := runTrace_cons.1 h
    obtain ⟨hs', he⟩ := hstep s a s' e hs h1
    obtain ⟨ht, hes⟩ := runTrace_forall hstep hs' h2
    exact ⟨ht, List.forall_mem_cons.2 ⟨he, hes⟩⟩

end

end MiniOs.Library
