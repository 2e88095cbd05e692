import Gwn.Log.Reload
import Mathlib.Data.List.Induction

/-! # Sequences of log configurations

    What loads of the variable "logs" make of the loggers, one after the other. A
    definition that gives no valid formatter leaves the logger with the one it had,
    also when the logger was removed in between, and one that differs from the last
    in its appenders only is passed over. So a configuration means different things
    after different ones before it (`not_conforms`); `conforms_iff` says when. -/

namespace Gwn.Log

open LTS

/-! ### Sequences of loads -/

/-- `setValue` for one value after the other. -/
def Logs.loadAll (s : Logs) (loads : List LogDefines) : Option Logs :=
  loads.foldlM Logs.setValue s

/-- Every logger of the value is what the value prescribes for a new logger. -/
def Conforms (D : LogDefines) (s : Logs) : Prop :=
  ∀ d ∈ D, (s.manager d.name).map Logger.view = some (d.prescribed (some defaultPattern))

/-- The definition of a name in the last value, and those introduced so far. -/
abbrev Trail := Option LogDefine × List LogDefine

/-- A definition is introduced unless the value before has one with the same level
    and formatter. -/
def introduce (t : Trail) (cur : Option LogDefine) : Trail :=
  match cur with
  | none => (none, t.2)
  | some d => (some d, if t.1.any fun d' => decide (d.Alike d') then t.2 else t.2 ++ [d])

def trail (n : String) (loads : List LogDefines) : Trail :=
  loads.foldl (fun t v => introduce t (v.find? n)) (none, [])

/-- The definitions of `n` that the values introduce. -/
def introductions (n : String) (loads : List LogDefines) : List LogDefine :=
  (trail n loads).2

/-- The formatter is neither empty nor invalid. -/
def LogDefine.setsFormatter (d : LogDefine) : Bool :=
  d.formatter ≠ "" && !(LogFormatter.new d.formatter).isError

/-- Nothing of these introductions survives `d`: it sets a formatter, or the last of
    them that sets one sets the default; and the last of them prescribes the same
    appenders as `d`. -/
def Overwritten (l : List LogDefine) (d : LogDefine) : Prop :=
  (d.setsFormatter = true ∨
    ∀ i, (l.filter LogDefine.setsFormatter).getLast? = some i →
      i.formatter = defaultPattern) ∧
  ∃ i, l.getLast? = some i ∧
    (i.prescribed (some defaultPattern)).appenders = (d.prescribed (some defaultPattern)).appenders

/-- The condition on the values `before` and then `D`. -/
def Regular (before : List LogDefines) (D : LogDefines) : Prop :=
  ∀ d ∈ D, Overwritten (introductions d.name (before ++ [D])) d

/-- The pattern of a logger after these introductions. -/
def patternOf (l : List LogDefine) : Option String :=
  l.foldl (fun p d => effective d.formatter p) (some defaultPattern)

/-! ### One logger through the loads -/

theorem effective_eq (d : LogDefine) (p : Option String) :
    effective d.formatter p = if d.setsFormatter = true then some d.formatter else p := by
  unfold effective LogDefine.setsFormatter
  simp

theorem patternOf_append (l : List LogDefine) (d : LogDefine) :
    patternOf (l ++ [d]) = effective d.formatter (patternOf l) := by
  unfold patternOf
  rw [List.foldl_append]
  rfl

/-- The last formatter that is set counts. -/
theorem patternOf_eq (l : List LogDefine) :
    patternOf l = some (((l.filter LogDefine.setsFormatter).getLast?.map (·.formatter)).getD
      defaultPattern) := by
  induction l using List.reverseRecOn with
  | nil => rfl
  | append_singleton l d ih =>
    rw [patternOf_append, effective_eq, List.filter_append]
    cases hsets : d.setsFormatter with
    | true => simp [hsets]
    | false => simp [hsets, ih]

/-- What a logger is after loads with this trail of its name. -/
structure Follows (n : String) (t : Trail) (s : Logs) : Prop where
  current : Option.Rel (fun d d' => d.Alike d') (s.val.find? n) t.1
  pattern : (getLogger (s.manager n)).pattern = patternOf t.2
  /-- A logger that is defined is as the last introduction left it. -/
  configured : ∀ d, t.1 = some d → ∃ i, t.2.getLast? = some i ∧ i.Alike d ∧
    (s.manager n).map Logger.view = some
      { level := i.level, pattern := patternOf t.2
        appenders := i.appenders.map (·.prescribed (patternOf t.2)) }

theorem follows_fresh (n : String) : Follows n (none, []) .fresh where
  current := .none
  pattern := by
    show (getLogger (LoggerManager.fresh n)).pattern = some defaultPattern
    unfold LoggerManager.fresh
    by_cases hroot : n = "root"
    · rw [hroot, Function.update_self]
      rfl
    · rw [Function.update_of_ne hroot]
      rfl
  configured := nofun

theorem LogDefine.Alike.trans {d d' d'' : LogDefine} (h : d.Alike d') (h' : d'.Alike d'') :
    d.Alike d'' :=
  ⟨h.1.trans h'.1, h.2.trans h'.2⟩

theorem LogDefine.Alike.symm {d d' : LogDefine} (h : d.Alike d') : d'.Alike d :=
  ⟨h.1.symm, h.2.symm⟩

theorem rel_trans {o o' o'' : Option LogDefine} (h : Option.Rel (fun d d' => d.Alike d') o o')
    (h' : Option.Rel (fun d d' => d.Alike d') o' o'') :
    Option.Rel (fun d d' => d.Alike d') o o'' := by
  cases h with
  | none => exact h'
  | some h =>
    cases h' with
    | some h' => exact .some (h.trans h')

theorem rel_refl (o : Option LogDefine) : Option.Rel (fun d d' => d.Alike d') o o := by
  cases o with
  | none => exact .none
  | some d => exact .some ⟨rfl, rfl⟩

theorem rel_symm {o o' : Option LogDefine} (h : Option.Rel (fun d d' => d.Alike d') o o') :
    Option.Rel (fun d d' => d.Alike d') o' o := by
  cases h with
  | none => exact .none
  | some h => exact .some h.symm

theorem rel_of_unchanged {old : LogDefines} {d : LogDefine} (h : ¬ Changed old d) :
    Option.Rel (fun d d' => d.Alike d') (some d) (old.find? d.name) := by
  simp only [Changed, not_forall, not_not] at h
  obtain ⟨d', hfind, halike⟩ := h
  rw [hfind]
  exact .some halike

@[simp] theorem introduce_fst (t : Trail) (cur : Option LogDefine) : (introduce t cur).1 = cur := by
  cases cur <;> rfl

theorem introduce_alike {t : Trail} {cur : Option LogDefine}
    (h : Option.Rel (fun d d' => d.Alike d') cur t.1) : (introduce t cur).2 = t.2 := by
  obtain ⟨last, l⟩ := t
  cases h with
  | none => rfl
  | some halike => simp [introduce, halike]

theorem introduce_changed {t : Trail} {d : LogDefine}
    (h : ∀ d', t.1 = some d' → ¬ d.Alike d') :
    (introduce t (some d)).2 = t.2 ++ [d] := by
  obtain ⟨last, l⟩ := t
  cases last with
  | none => rfl
  | some d' => simp [introduce, h d' rfl]

section load
variable {n : String} {t : Trail} {s s' : Logs}

/-- The definition is passed over and the logger left alone. -/
theorem Follows.keep (h : Follows n t s) {cur : Option LogDefine}
    (hcur : Option.Rel (fun d d' => d.Alike d') cur t.1)
    (hval : Option.Rel (fun d d' => d.Alike d') (s'.val.find? n) cur)
    (hm : s'.manager n = s.manager n) : Follows n (introduce t cur) s' where
  current := by
    rw [introduce_fst]
    exact hval
  pattern := by
    rw [hm, introduce_alike hcur]
    exact h.pattern
  configured := by
    intro d hd
    rw [introduce_fst] at hd
    rw [hm, introduce_alike hcur]
    rw [hd] at hcur
    generalize hlast : t.1 = last at hcur
    cases hcur with
    | @some _ d' halike =>
      obtain ⟨i, hi, hid, hview⟩ := h.configured d' hlast
      exact ⟨i, hi, hid.trans halike.symm, hview⟩

/-- The logger is removed, or was never defined. -/
theorem Follows.drop (h : Follows n t s) (hval : s'.val.find? n = none)
    (hpattern : (getLogger (s'.manager n)).pattern = (getLogger (s.manager n)).pattern) :
    Follows n (introduce t none) s' where
  current := by
    rw [hval]
    exact .none
  pattern := hpattern.trans h.pattern
  configured := nofun

/-- The definition is new, or has another level or formatter than the last one. -/
theorem Follows.configure (h : Follows n t s) {d : LogDefine}
    (hnew : ∀ d', t.1 = some d' → ¬ d.Alike d') (hval : s'.val.find? n = some d)
    (hm : (configure d (getLogger (s.manager n))).map some = some (s'.manager n)) :
    Follows n (introduce t (some d)) s' := by
  obtain ⟨lg, hlg, hm'⟩ := Option.map_eq_some_iff.mp hm
  have hview : lg.view = d.prescribed (patternOf t.2) := h.pattern ▸ configure_view hlg
  have hpattern : lg.pattern = patternOf (t.2 ++ [d]) := by
    rw [patternOf_append]
    exact congrArg LoggerView.pattern hview
  exact {
    current := by
      rw [hval, introduce_fst]
      exact rel_refl _
    pattern := by
      rw [introduce_changed hnew, ← hm']
      exact hpattern
    configured := by
      intro d' hd'
      rw [introduce_fst] at hd'
      cases hd'
      rw [introduce_changed hnew, ← hm']
      refine ⟨d, List.getLast?_concat, ⟨rfl, rfl⟩, ?_⟩
      rw [Option.map_some, hview, patternOf_append]
      rfl }

theorem follows_setValue (h : Follows n t s) {v : LogDefines} (hset : s.setValue v = some s') :
    Follows n (introduce t (v.find? n)) s' := by
  unfold Logs.setValue at hset
  split at hset
  · next hsame =>
    cases hset
    have hrel := find?_same hsame n
    exact h.keep (rel_trans hrel h.current) (rel_symm hrel) rfl
  · obtain ⟨m', hlistener, rfl⟩ := Option.map_eq_some_iff.mp hset
    have hspec := onLoggerConfChanged_spec hlistener
    cases hv : v.find? n with
    | none =>
      apply h.drop hv
      show (getLogger (m' n)).pattern = _
      cases hold : s.val.find? n with
      | none => rw [hspec.others n hold hv]
      | some d =>
        obtain ⟨hd, rfl⟩ := Ordered.find?_eq_some.mp hold
        rw [hspec.dropped d hd hv]
        rfl
    | some d =>
      obtain ⟨hd, rfl⟩ := Ordered.find?_eq_some.mp hv
      by_cases hchanged : Changed s.val d
      · apply h.configure _ hv (hspec.changed d hd hchanged)
        intro d' hlast halike
        have hcurrent := h.current
        rw [hlast] at hcurrent
        generalize hfind : s.val.find? d.name = found at hcurrent
        cases hcurrent with
        | some he => exact hchanged _ hfind (halike.trans he.symm)
      · have hrel := rel_of_unchanged hchanged
        have hval : Option.Rel (fun d d' => d.Alike d') (v.find? d.name) (some d) := by
          rw [hv]
          exact rel_refl _
        exact h.keep (rel_trans hrel h.current) hval (hspec.unchanged d hd hchanged)

end load

/-- What a logger is after a sequence of loads. -/
theorem follows_loadAll (n : String) {loads : List LogDefines} {s : Logs}
    (h : Logs.fresh.loadAll loads = some s) : Follows n (trail n loads) s := by
  induction loads using List.reverseRecOn generalizing s with
  | nil =>
    cases h
    exact follows_fresh n
  | append_singleton loads v ih =>
    unfold Logs.loadAll at h
    rw [List.foldlM_append] at h
    obtain ⟨s₁, hloads, hset⟩ := Option.bind_eq_some_iff.mp h
    rw [List.foldlM_cons] at hset
    obtain ⟨s₂, hset, hnil⟩ := Option.bind_eq_some_iff.mp hset
    cases hnil
    have htrail : trail n (loads ++ [v]) = introduce (trail n loads) (v.find? n) := by
      unfold trail
      rw [List.foldl_append]
      rfl
    rw [htrail]
    exact follows_setValue (ih hloads) hset

/-! ### What a logger is after the last load -/

/-- A definition that is alike the last introduction prescribes the pattern in use if
    it sets one, or else if the one that is still in use is the default. -/
theorem patternOf_iff {d i : LogDefine} {l : List LogDefine} (hi : l.getLast? = some i)
    (halike : i.Alike d) :
    patternOf l = effective d.formatter (some defaultPattern) ↔ d.setsFormatter = true ∨
      ∀ j, (l.filter LogDefine.setsFormatter).getLast? = some j →
        j.formatter = defaultPattern := by
  cases hsets : d.setsFormatter with
  | true =>
    obtain ⟨l', rfl⟩ := List.getLast?_eq_some_iff.mp hi
    rw [patternOf_append, halike.2, effective_eq, effective_eq, hsets]
    simp
  | false =>
    rw [patternOf_eq, effective_eq, hsets]
    cases hlast : (l.filter LogDefine.setsFormatter).getLast? with
    | none => simp
    | some j => simp

theorem trail_last (n : String) (before : List LogDefines) (D : LogDefines) :
    (trail n (before ++ [D])).1 = D.find? n := by
  unfold trail
  rw [List.foldl_append]
  exact introduce_fst _ _

/-- One sequence: its result is what the last value prescribes, or not. -/
theorem conforms_loadAll (before : List LogDefines) {D : LogDefines} {s : Logs}
    (h : Logs.fresh.loadAll (before ++ [D]) = some s) : Conforms D s ↔ Regular before D := by
  refine forall₂_congr fun d hd => ?_
  have hlast : (trail d.name (before ++ [D])).1 = some d := by
    rw [trail_last]
    exact Ordered.find?_eq_some.mpr ⟨hd, rfl⟩
  obtain ⟨i, hi, halike, hview⟩ := (follows_loadAll d.name h).configured d hlast
  have hi : (introductions d.name (before ++ [D])).getLast? = some i := hi
  have hview : (s.manager d.name).map Logger.view = some
      { level := i.level, pattern := patternOf (introductions d.name (before ++ [D]))
        appenders := i.appenders.map (·.prescribed
          (patternOf (introductions d.name (before ++ [D])))) } := hview
  have hprescribed : (i.prescribed (some defaultPattern)).appenders
      = i.appenders.map (·.prescribed (effective d.formatter (some defaultPattern))) := by
    rw [← halike.2]
    rfl
  rw [hview, Overwritten, ← patternOf_iff hi halike]
  constructor
  · intro heq
    have heq := Option.some.inj heq
    have hpattern : patternOf (introductions d.name (before ++ [D])) = _ :=
      congrArg LoggerView.pattern heq
    have happenders := congrArg LoggerView.appenders heq
    refine ⟨hpattern, i, hi, ?_⟩
    rw [hprescribed, ← happenders]
    exact congrArg (fun p => i.appenders.map (·.prescribed p)) hpattern.symm
  · intro ⟨hpattern, i', hi', happenders⟩
    cases hi.symm.trans hi'
    rw [hpattern, ← hprescribed, happenders, halike.1]
    rfl

/-- For all two sequences of loads into new loggers that end with the same value:
    every logger of that value is in both cases what the value prescribes, if and only
    if nothing in the two sequences survives the later loads. -/
theorem conforms_iff {before₁ before₂ : List LogDefines} {D : LogDefines} {s₁ s₂ : Logs}
    (h₁ : Logs.fresh.loadAll (before₁ ++ [D]) = some s₁)
    (h₂ : Logs.fresh.loadAll (before₂ ++ [D]) = some s₂) :
    (Conforms D s₁ ∧ Conforms D s₂) ↔ (Regular before₁ D ∧ Regular before₂ D) :=
  and_congr (conforms_loadAll before₁ h₁) (conforms_loadAll before₂ h₂)

def verbose : LogDefines :=
  Ordered.single (testDefine .DEBUG "%p: %m%n" [stdoutDefine ""])

/-- The configuration `verbose` by itself, and after another one. -/
theorem conforms_iff_verbose :
    ∃ s₁ s₂, Logs.fresh.loadAll ([] ++ [verbose]) = some s₁ ∧
      Logs.fresh.loadAll
        ([Ordered.single (testDefine .INFO "%m%n" [stdoutDefine "%m"])] ++ [verbose])
        = some s₂ ∧
      Conforms verbose s₁ ∧ Conforms verbose s₂ := by
  have h₁ : (Logs.fresh.loadAll ([] ++ [verbose])).isSome = true := by decide
  have h₂ : (Logs.fresh.loadAll ([Ordered.single (testDefine .INFO "%m%n" [stdoutDefine "%m"])] ++
      [verbose])).isSome = true := by decide
  obtain ⟨s₁, hs₁⟩ := Option.isSome_iff_exists.mp h₁
  obtain ⟨s₂, hs₂⟩ := Option.isSome_iff_exists.mp h₂
  refine ⟨s₁, s₂, hs₁, hs₂, (conforms_iff hs₁ hs₂).mpr ⟨?_, ?_⟩⟩
  · intro d hd
    rw [Ordered.mem_single.mp hd]
    exact ⟨.inl (by decide), _, rfl, rfl⟩
  · intro d hd
    rw [Ordered.mem_single.mp hd]
    exact ⟨.inl (by decide), _, rfl, rfl⟩

/-- A formatter that only the value before gives is still in use. -/
theorem not_conforms : ¬ ∀ before₁ before₂ D s₁ s₂,
    Logs.fresh.loadAll (before₁ ++ [D]) = some s₁ →
      Logs.fresh.loadAll (before₂ ++ [D]) = some s₂ →
      Conforms D s₁ ∧ Conforms D s₂ := by
  intro h
  have h₁ :
      (Logs.fresh.loadAll ([] ++ [Ordered.single (testDefine .DEBUG "" [])])).isSome = true := by
    decide
  have h₂ : (Logs.fresh.loadAll ([Ordered.single (testDefine .INFO "%m%n" [])] ++
      [Ordered.single (testDefine .DEBUG "" [])])).isSome = true := by decide
  obtain ⟨s₁, hs₁⟩ := Option.isSome_iff_exists.mp h₁
  obtain ⟨s₂, hs₂⟩ := Option.isSome_iff_exists.mp h₂
  have hlogger : (s₂.manager "test").map Logger.view
      = some ((testDefine .DEBUG "" []).prescribed (some defaultPattern)) :=
    (h _ _ _ _ _ hs₁ hs₂).2 _ (Ordered.mem_single.mpr rfl)
  have hview : (Logs.fresh.loadAll ([Ordered.single (testDefine .INFO "%m%n" [])] ++
      [Ordered.single (testDefine .DEBUG "" [])])).map (fun s => (s.manager "test").map Logger.view)
        = some (some ((testDefine .DEBUG "" []).prescribed (some defaultPattern))) := by
    rw [hs₂, Option.map_some, hlogger]
  exact absurd hview (by decide)

end Gwn.Log
