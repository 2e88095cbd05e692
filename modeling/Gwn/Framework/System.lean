import Mathlib.Data.List.Induction

/-! # Labelled transition systems with executable steps

    A system is an initial state and a step function: a label (which party
    moves, and the choice it makes) has at most one successor, so a run is a
    list of labels and can be evaluated. This module provides:

    - `System`, `Reachable`, `exec`: states reached by finitely many steps
    - `invariant`, `invariant_of`: the induction over runs, done once
    - `restrict`: the runs whose steps all meet a condition
    - `withHistory`: a history variable computed alongside the run
    - `Visits`, `Steps`: every state, and every step, of one given run
    - `visits_of_steps`, `visits_iff_steps`: when the first is a matter of the second
-/

universe u v w

namespace LTS

/-- A labelled transition system given by its initial state and step function. -/
structure System (State : Type u) (Label : Type v) where
  init : State
  step : State → Label → Option State

namespace System

variable {State : Type u} {Label : Type v} {H : Type w}

/-! ### Reachable states and runs -/

/-- States reached from `init` by finitely many steps. -/
inductive Reachable (sys : System State Label) : State → Prop where
  | init : Reachable sys sys.init
  | step : ∀ {s s'} (l : Label), Reachable sys s → sys.step s l = some s' → Reachable sys s'

/-- Run a list of labels from `s`; `none` if some label is not enabled. -/
def exec (sys : System State Label) (s : State) : List Label → Option State
  | [] => some s
  | l :: ls => (sys.step s l).bind fun s' => sys.exec s' ls

@[simp] theorem exec_nil (sys : System State Label) (s : State) : sys.exec s [] = some s := rfl

theorem exec_append (sys : System State Label) (s : State) (ls ls' : List Label) :
    sys.exec s (ls ++ ls') = (sys.exec s ls).bind fun s' => sys.exec s' ls' := by
  induction ls generalizing s with
  | nil => simp [exec]
  | cons l ls ih =>
    simp only [List.cons_append, exec, Option.bind_assoc]
    congr 1
    funext s'
    exact ih s'

theorem exec_snoc (sys : System State Label) (s : State) (ls : List Label) (l : Label) :
    sys.exec s (ls ++ [l]) = (sys.exec s ls).bind fun s' => sys.step s' l := by
  rw [exec_append]
  congr 1
  funext s'
  simp [exec]

theorem reachable_exec {sys : System State Label} {s s' : State} {ls : List Label}
    (hs : sys.Reachable s) (h : sys.exec s ls = some s') : sys.Reachable s' := by
  induction ls generalizing s with
  | nil =>
    simp only [exec_nil, Option.some.injEq] at h
    exact h ▸ hs
  | cons l ls ih =>
    simp only [exec, Option.bind_eq_some_iff] at h
    obtain ⟨t, ht, h⟩ := h
    exact ih (hs.step l ht) h

theorem reachable_iff_exec {sys : System State Label} {s : State} :
    sys.Reachable s ↔ ∃ ls, sys.exec sys.init ls = some s := by
  constructor
  · intro h
    induction h with
    | init => exact ⟨[], rfl⟩
    | @step s s' l _ hstep ih =>
      obtain ⟨ls, hls⟩ := ih
      exact ⟨ls ++ [l], by rw [exec_snoc, hls]; exact hstep⟩
  · rintro ⟨ls, hls⟩
    exact reachable_exec .init hls

/-- The state at the end of a run that is known to go through. -/
theorem reachable_get {sys : System State Label} (ls : List Label)
    (h : (sys.exec sys.init ls).isSome) : sys.Reachable ((sys.exec sys.init ls).get h) :=
  reachable_exec .init (Option.some_get h).symm

/-! ### Invariants -/

/-- A property of the initial state that every step preserves holds throughout. -/
theorem invariant {sys : System State Label} {Inv : State → Prop} (hinit : Inv sys.init)
    (hstep : ∀ s l s', Inv s → sys.step s l = some s' → Inv s') :
    ∀ s, sys.Reachable s → Inv s := by
  intro s h
  induction h with
  | init => exact hinit
  | step l _ hs ih => exact hstep _ l _ ih hs

/-- Induction relative to an invariant that is already known. -/
theorem invariant_of {sys : System State Label} {J Inv : State → Prop}
    (hJ : ∀ s, sys.Reachable s → J s) (hinit : Inv sys.init)
    (hstep : ∀ s l s', J s → Inv s → sys.step s l = some s' → Inv s') :
    ∀ s, sys.Reachable s → Inv s := by
  intro s h
  induction h with
  | init => exact hinit
  | step l hr hs ih => exact hstep _ l _ (hJ _ hr) ih hs

/-! ### Runs whose steps all meet a condition -/

/-- The system in which a step is taken only where `guard` holds of the state and the label. -/
def restrict (sys : System State Label) (guard : State → Label → Prop)
    [∀ s l, Decidable (guard s l)] : System State Label where
  init := sys.init
  step s l := if guard s l then sys.step s l else none

section restrict
variable {sys : System State Label} {guard : State → Label → Prop}
  [∀ s l, Decidable (guard s l)]

@[simp] theorem restrict_init : (sys.restrict guard).init = sys.init := rfl

theorem restrict_step {s s' : State} {l : Label} :
    (sys.restrict guard).step s l = some s' ↔ guard s l ∧ sys.step s l = some s' := by
  simp [restrict]

theorem exec_of_restrict {s s' : State} {ls : List Label}
    (h : (sys.restrict guard).exec s ls = some s') : sys.exec s ls = some s' := by
  induction ls generalizing s with
  | nil => exact h
  | cons l ls ih =>
    obtain ⟨t, ht, h⟩ := Option.bind_eq_some_iff.mp h
    exact Option.bind_eq_some_iff.mpr ⟨t, (restrict_step.mp ht).2, ih h⟩

theorem Reachable.of_restrict {s : State} (h : (sys.restrict guard).Reachable s) :
    sys.Reachable s := by
  induction h with
  | init => exact .init
  | step l _ hs ih => exact ih.step l (restrict_step.mp hs).2

/-- `invariant` for the restricted system, with the guard at hand in every step. -/
theorem restrict_invariant {Inv : State → Prop} (hinit : Inv sys.init)
    (hstep : ∀ s l s', Inv s → guard s l → sys.step s l = some s' → Inv s') :
    ∀ s, (sys.restrict guard).Reachable s → Inv s :=
  invariant hinit fun s l s' hi hs =>
    hstep s l s' hi (restrict_step.mp hs).1 (restrict_step.mp hs).2

end restrict

/-! ### History variables -/

/-- Run `sys` and keep a history `H`, updated from the state before each step and its label. -/
def withHistory (sys : System State Label) (h₀ : H) (upd : H → State → Label → H) :
    System (State × H) Label where
  init := (sys.init, h₀)
  step p l := (sys.step p.1 l).map fun s' => (s', upd p.2 p.1 l)

section history
variable {sys : System State Label} {h₀ : H} {upd : H → State → Label → H}

@[simp] theorem withHistory_init : (sys.withHistory h₀ upd).init = (sys.init, h₀) := rfl

theorem withHistory_step {p p' : State × H} {l : Label} :
    (sys.withHistory h₀ upd).step p l = some p' ↔
      sys.step p.1 l = some p'.1 ∧ p'.2 = upd p.2 p.1 l := by
  obtain ⟨s', h'⟩ := p'
  simp only [withHistory, Option.map_eq_some_iff, Prod.mk.injEq]
  constructor
  · rintro ⟨t, ht, rfl, rfl⟩
    exact ⟨ht, rfl⟩
  · rintro ⟨ht, rfl⟩
    exact ⟨s', ht, rfl, rfl⟩

/-- The history only watches: what it is attached to still is a run of the system. -/
theorem Reachable.of_history {p : State × H} (h : (sys.withHistory h₀ upd).Reachable p) :
    sys.Reachable p.1 := by
  induction h with
  | init => exact .init
  | step l _ hs ih => exact ih.step l (withHistory_step.mp hs).1

end history

/-! ### One run, state by state -/

/-- `P` holds in every state the run `ls` from `init` goes through, the last one included. -/
def Visits (sys : System State Label) (ls : List Label) (P : State → Prop) : Prop :=
  ∀ pre s, pre <+: ls → sys.exec sys.init pre = some s → P s

/-- Every step of the run `ls` from `init` meets `guard` in the state it is taken in. -/
def Steps (sys : System State Label) (ls : List Label) (guard : State → Label → Prop) : Prop :=
  ∀ pre l s, pre ++ [l] <+: ls → sys.exec sys.init pre = some s → guard s l

theorem visits_nil {sys : System State Label} {P : State → Prop} :
    sys.Visits [] P ↔ P sys.init := by
  constructor
  · intro h
    exact h [] _ List.prefix_rfl rfl
  · rintro h pre s hp hs
    rw [List.prefix_nil.mp hp, exec_nil, Option.some.injEq] at hs
    exact hs ▸ h

theorem visits_snoc {sys : System State Label} {ls : List Label} {l : Label} {P : State → Prop} :
    sys.Visits (ls ++ [l]) P ↔
      sys.Visits ls P ∧ ∀ s, sys.exec sys.init (ls ++ [l]) = some s → P s := by
  constructor
  · intro h
    exact ⟨fun pre s hp => h pre s (hp.trans (List.prefix_append _ _)),
      fun s => h _ s List.prefix_rfl⟩
  · rintro ⟨h₁, h₂⟩ pre s hp hs
    rcases List.prefix_concat_iff.mp hp with rfl | hp
    · exact h₂ s hs
    · exact h₁ pre s hp hs

theorem steps_snoc {sys : System State Label} {ls : List Label} {l : Label}
    {guard : State → Label → Prop} :
    sys.Steps (ls ++ [l]) guard ↔
      sys.Steps ls guard ∧ ∀ s, sys.exec sys.init ls = some s → guard s l := by
  constructor
  · intro h
    exact ⟨fun pre l' s hp => h pre l' s (hp.trans (List.prefix_append _ _)),
      fun s => h ls l s List.prefix_rfl⟩
  · rintro ⟨h₁, h₂⟩ pre l' s hp hs
    rcases List.prefix_concat_iff.mp hp with heq | hp
    · obtain ⟨hpre, hl⟩ := List.append_inj' heq rfl
      rw [List.singleton_inj] at hl
      exact hl ▸ h₂ s (hpre ▸ hs)
    · exact h₁ pre l' s hp hs

theorem steps_nil {sys : System State Label} {guard : State → Label → Prop} :
    sys.Steps [] guard := by
  intro pre l s hpre _
  have hlen := hpre.length_le
  simp at hlen

/-- A run that goes through when only steps that meet the condition are taken. -/
theorem steps_of_restrict {sys : System State Label} {guard : State → Label → Prop}
    [∀ s l, Decidable (guard s l)] {ls : List Label}
    (h : ((sys.restrict guard).exec sys.init ls).isSome = true) : sys.Steps ls guard := by
  induction ls using List.reverseRecOn with
  | nil => exact steps_nil
  | append_singleton ls l ih =>
    obtain ⟨s', hs'⟩ := Option.isSome_iff_exists.mp h
    rw [exec_snoc, Option.bind_eq_some_iff] at hs'
    obtain ⟨s, hs, hlast⟩ := hs'
    refine steps_snoc.mpr ⟨ih (Option.isSome_iff_exists.mpr ⟨s, hs⟩), fun t ht => ?_⟩
    rw [exec_of_restrict hs, Option.some.injEq] at ht
    exact ht ▸ (restrict_step.mp hlast).1

/-- An invariant that the steps which meet a condition preserve. -/
theorem visits_of_steps {sys : System State Label} {Inv : State → Prop}
    {guard : State → Label → Prop} (hinit : Inv sys.init)
    (hstep : ∀ s l s', Inv s → guard s l → sys.step s l = some s' → Inv s')
    {ls : List Label} (h : sys.Steps ls guard) : sys.Visits ls Inv := by
  induction ls using List.reverseRecOn with
  | nil => exact visits_nil.mpr hinit
  | append_singleton ls l ih =>
    obtain ⟨hsteps, hlast⟩ := steps_snoc.mp h
    refine visits_snoc.mpr ⟨ih hsteps, fun s' hs' => ?_⟩
    rw [exec_snoc, Option.bind_eq_some_iff] at hs'
    obtain ⟨s, hs, hs'⟩ := hs'
    exact hstep s l s' (ih hsteps ls s List.prefix_rfl hs) (hlast s hs) hs'

/-- An invariant that the steps which meet a condition preserve, and a property that it
    gives and that every other step breaks: the property holds throughout a run if and
    only if all its steps meet the condition. -/
theorem visits_iff_steps {sys : System State Label} {Inv P : State → Prop}
    {guard : State → Label → Prop} (hinit : Inv sys.init) (hP : ∀ s, Inv s → P s)
    (hstep : ∀ s l s', Inv s → guard s l → sys.step s l = some s' → Inv s')
    (hbreak : ∀ s l, Inv s → ¬ guard s l → ∃ s', sys.step s l = some s' ∧ ¬ P s')
    (ls : List Label) : sys.Visits ls P ↔ sys.Steps ls guard := by
  constructor
  · intro h
    induction ls using List.reverseRecOn with
    | nil => exact steps_nil
    | append_singleton ls l ih =>
      obtain ⟨hvisits, hlast⟩ := visits_snoc.mp h
      refine steps_snoc.mpr ⟨ih hvisits, fun s hs => ?_⟩
      by_contra hguard
      have hinv : Inv s := visits_of_steps hinit hstep (ih hvisits) ls s List.prefix_rfl hs
      obtain ⟨s', hs', hbad⟩ := hbreak s l hinv hguard
      refine hbad (hlast s' ?_)
      rw [exec_snoc, hs]
      exact hs'
  · exact fun h pre s hpre hs => hP s (visits_of_steps hinit hstep h pre s hpre hs)

end System

end LTS
