import Gwn.Framework.System

/-! # Refinement by a mapping of states

    A system is watched: of each step nothing is seen, or one observation. It refines
    another system, whose labels are the observations, if a mapping of the states takes
    a step that is seen to the step of that label and any other step to no step. This
    module provides:

    - `trace`: what is seen of a run
    - `Refines`, with `Refines.exec`: the trace is a run of the other system
    - `exists_seen`: by steps that count down, something is seen in the end -/

universe u v w x

namespace LTS.System

variable {State : Type u} {Label : Type v} {Abs : Type w} {Obs : Type x}

/-- What is seen of the run `ls` from `s`. -/
def trace (sys : System State Label) (observe : State → Label → Option Obs) (s : State) :
    List Label → List Obs
  | [] => []
  | l :: ls =>
    (observe s l).toList ++
      match sys.step s l with
      | some s' => sys.trace observe s' ls
      | none => []

variable {sys : System State Label} {spec : System Abs Obs}
  {observe : State → Label → Option Obs}

theorem trace_cons {s s' : State} {l : Label} (ls : List Label) (h : sys.step s l = some s') :
    sys.trace observe s (l :: ls) = (observe s l).toList ++ sys.trace observe s' ls := by
  simp [trace, h]

/-- In states that meet `Inv`, which all do that are reached, every step of `sys` is the
    step of `spec` that is seen of it, if any. -/
structure Refines (sys : System State Label) (spec : System Abs Obs)
    (observe : State → Label → Option Obs) (abs : State → Abs)
    (Inv : State → Prop) : Prop where
  init : abs sys.init = spec.init
  invariant : Inv sys.init
  step : ∀ s l s', Inv s → sys.step s l = some s' →
    Inv s' ∧ spec.exec (abs s) (observe s l).toList = some (abs s')

variable {abs : State → Abs} {Inv : State → Prop}

/-- A run of `sys`, as far as it is seen, is a run of `spec`. -/
theorem Refines.exec (h : Refines sys spec observe abs Inv) {ls : List Label} {s s' : State}
    (hs : Inv s) (hrun : sys.exec s ls = some s') :
    Inv s' ∧ spec.exec (abs s) (sys.trace observe s ls) = some (abs s') := by
  induction ls generalizing s with
  | nil =>
    cases hrun
    exact ⟨hs, rfl⟩
  | cons l ls ih =>
    obtain ⟨t, hstep, hrest⟩ := Option.bind_eq_some_iff.mp hrun
    obtain ⟨ht, hfirst⟩ := h.step s l t hs hstep
    obtain ⟨hs', hlast⟩ := ih ht hrest
    refine ⟨hs', ?_⟩
    rw [trace_cons ls hstep, exec_append, hfirst]
    exact hlast

/-- In every state that is `Good` some step of the kind `own` is seen and is `wanted`, or is
    not seen, leads to such a state again and brings `count` down. Then such steps lead to
    something that is `wanted`, and nothing is seen before. -/
theorem exists_seen {Good : State → Prop} {own : Label → Prop} {wanted : Obs → Prop}
    {count : State → Nat}
    (hstep : ∀ s, Good s → ∃ l s', own l ∧ sys.step s l = some s' ∧
      ((∃ o, observe s l = some o ∧ wanted o) ∨
        observe s l = none ∧ Good s' ∧ count s' < count s)) :
    ∀ s, Good s → ∃ ls s' o, (∀ l ∈ ls, own l) ∧ sys.exec s ls = some s' ∧
      sys.trace observe s ls = [o] ∧ wanted o := by
  suffices hcount : ∀ n s, count s < n → Good s → ∃ ls s' o, (∀ l ∈ ls, own l) ∧
      sys.exec s ls = some s' ∧ sys.trace observe s ls = [o] ∧ wanted o from
    fun s hs => hcount (count s + 1) s (Nat.lt_succ_self _) hs
  intro n
  induction n with
  | zero =>
    intro s hlt _
    omega
  | succ n ih =>
    intro s hlt hs
    obtain ⟨l, t, hown, ht, hseen | ⟨hsilent, hgood, hdown⟩⟩ := hstep s hs
    · obtain ⟨o, ho, hwanted⟩ := hseen
      refine ⟨[l], t, o, ?_, ?_, ?_, hwanted⟩
      · intro l' hl'
        rw [List.mem_singleton.mp hl']
        exact hown
      · simp [System.exec, ht]
      · rw [trace_cons [] ht, ho]
        rfl
    · obtain ⟨ls, s', o, howns, hrun, htrace, hwanted⟩ := ih t (by omega) hgood
      refine ⟨l :: ls, s', o, ?_, ?_, ?_, hwanted⟩
      · intro l' hl'
        rcases List.mem_cons.mp hl' with rfl | hl'
        · exact hown
        · exact howns l' hl'
      · simp [System.exec, ht, hrun]
      · rw [trace_cons ls ht, hsilent, htrace]
        rfl

end LTS.System
