import Gwn.Framework.System
import Mathlib.Logic.Function.Basic

/-! # Sections under a lock

    Objects have data and a lock each. Threads change them in sections: a thread takes
    the lock of an object, makes its updates one by one, and gives the lock back. This
    module provides:

    - `Sections`: the data, who holds which lock, and what each thread has still to do
    - `enter`, `advance`, `leave`: the steps of a thread
    - `settled`: the data, as if each thread in a section had made its updates
    - `Owned.enter`, `Owned.advance`, `Owned.leave`: in these data a section is one step,
      taken with the lock -/

universe u

namespace LTS

/-- Threads `T` that change objects `X` with data `D` by updates `U`. -/
structure Sections (T X D U : Type u) where
  data : X → D
  /-- Who holds the lock of an object. -/
  owner : X → Option T
  /-- The object that a thread has locked, and the updates it has still to make. -/
  inside : T → Option (X × List U)

namespace Sections

variable {T X D U : Type u}

def initial (data : X → D) : Sections T X D U :=
  { data := data, owner := fun _ => none, inside := fun _ => none }

/-- The updates that are still to be made to an object. -/
def rest (s : Sections T X D U) (x : X) : List U :=
  (((s.owner x).bind s.inside).map Prod.snd).getD []

/-- The updates in their order. -/
def actAll (act : U → D → D) (d : D) (us : List U) : D :=
  us.foldl (fun d u => act u d) d

theorem actAll_snoc (act : U → D → D) (d : D) (us : List U) (u : U) :
    actAll act d (us ++ [u]) = act u (actAll act d us) := by
  unfold actAll
  rw [List.foldl_append]
  rfl

def settled (act : U → D → D) (s : Sections T X D U) (x : X) : D :=
  actAll act (s.data x) (s.rest x)

/-- A thread is in the sections of those objects whose locks it holds. -/
def Owned (s : Sections T X D U) : Prop :=
  ∀ t x, s.owner x = some t ↔ ∃ us, s.inside t = some (x, us)

section rest
variable {s : Sections T X D U}

theorem rest_free {x : X} (h : s.owner x = none) : s.rest x = [] := by
  rw [rest, h]
  rfl

theorem settled_free {act : U → D → D} {x : X} (h : s.owner x = none) :
    s.settled act x = s.data x := by
  rw [settled, rest_free h]
  rfl

theorem Owned.rest_eq (hs : s.Owned) {t : T} {x : X} {us : List U} (h : s.inside t = some (x, us)) :
    s.rest x = us := by
  rw [rest, (hs t x).mpr ⟨us, h⟩, Option.bind_some, h]
  rfl

/-- A lock has one owner. -/
theorem Owned.owner_unique (hs : s.Owned) {t t' : T} {x : X} {us us' : List U}
    (h : s.inside t = some (x, us)) (h' : s.inside t' = some (x, us')) : t = t' :=
  Option.some.inj (((hs t x).mpr ⟨us, h⟩).symm.trans ((hs t' x).mpr ⟨us', h'⟩))

theorem Owned.owner_ne (hs : s.Owned) {t : T} {x y : X} {us : List U}
    (h : s.inside t = some (x, us)) (hy : y ≠ x) : s.owner y ≠ some t := by
  intro howner
  obtain ⟨_, hother⟩ := (hs t y).mp howner
  rw [h] at hother
  cases hother
  exact hy rfl

theorem Owned.owner_ne_of_out (hs : s.Owned) {t : T} (h : s.inside t = none) (y : X) :
    s.owner y ≠ some t := by
  intro howner
  obtain ⟨_, hother⟩ := (hs t y).mp howner
  exact nomatch h.symm.trans hother

/-- Nothing changes for an object whose lock thread `t` neither holds nor takes or gives back. -/
theorem settled_frame [DecidableEq T] {act : U → D → D} {s' : Sections T X D U} {t : T} {y : X}
    {i : Option (X × List U)} (hdata : s'.data y = s.data y) (howner : s'.owner y = s.owner y)
    (hinside : s'.inside = Function.update s.inside t i) (ht : s.owner y ≠ some t) :
    s'.settled act y = s.settled act y := by
  have hrest : s'.rest y = s.rest y := by
    unfold rest
    rw [howner, hinside]
    cases hy : s.owner y with
    | none => rfl
    | some t' =>
      have hne : t' ≠ t := by
        rintro rfl
        exact ht hy
      simp only [Option.bind_some, Function.update_of_ne hne]
  unfold settled
  rw [hdata, hrest]

theorem owned_initial (data : X → D) : (initial data : Sections T X D U).Owned :=
  fun _ _ => ⟨nofun, nofun⟩

end rest

/-! ### Steps -/

variable [DecidableEq T] [DecidableEq X]

/-- Thread `t` locks `x`, which waits until nobody holds the lock, to make updates `us`. -/
def enter (s : Sections T X D U) (t : T) (x : X) (us : List U) : Option (Sections T X D U) :=
  if s.owner x = none ∧ s.inside t = none then
    some { s with
      owner := Function.update s.owner x (some t)
      inside := Function.update s.inside t (some (x, us)) }
  else none

/-- The next update of a section. -/
def advance (act : U → D → D) (s : Sections T X D U) (t : T) : Option (Sections T X D U) :=
  match s.inside t with
  | some (x, u :: us) =>
    some { s with
      data := Function.update s.data x (act u (s.data x))
      inside := Function.update s.inside t (some (x, us)) }
  | _ => none

/-- The end of a section. -/
def leave (s : Sections T X D U) (t : T) : Option (Sections T X D U) :=
  match s.inside t with
  | some (x, []) =>
    some { s with
      owner := Function.update s.owner x none
      inside := Function.update s.inside t none }
  | _ => none

section steps
variable {act : U → D → D} {s s' : Sections T X D U} {t : T}

theorem enter_eq_some {x : X} {us : List U} : s.enter t x us = some s' ↔
    s.owner x = none ∧ s.inside t = none ∧
      s' = { s with
        owner := Function.update s.owner x (some t)
        inside := Function.update s.inside t (some (x, us)) } := by
  unfold enter
  split
  · rename_i h
    exact ⟨fun hs => ⟨h.1, h.2, (Option.some.inj hs).symm⟩, fun hs => congrArg some hs.2.2.symm⟩
  · rename_i h
    exact ⟨nofun, fun hs => absurd ⟨hs.1, hs.2.1⟩ h⟩

theorem advance_eq_some : s.advance act t = some s' ↔
    ∃ x u us, s.inside t = some (x, u :: us) ∧
      s' = { s with
        data := Function.update s.data x (act u (s.data x))
        inside := Function.update s.inside t (some (x, us)) } := by
  unfold advance
  constructor
  · intro h
    split at h
    · rename_i x u us hinside
      exact ⟨x, u, us, hinside, (Option.some.inj h).symm⟩
    · exact nomatch h
  · rintro ⟨x, u, us, hinside, rfl⟩
    rw [hinside]

theorem leave_eq_some : s.leave t = some s' ↔
    ∃ x, s.inside t = some (x, []) ∧
      s' = { s with
        owner := Function.update s.owner x none, inside := Function.update s.inside t none } := by
  unfold leave
  constructor
  · intro h
    split at h
    · rename_i x hinside
      exact ⟨x, hinside, (Option.some.inj h).symm⟩
    · exact nomatch h
  · rintro ⟨x, hinside, rfl⟩
    rw [hinside]

/-! What a step leaves of the owners, and what it makes of the settled data. -/

theorem Owned.enter (hs : s.Owned) {x : X} {us : List U} (h : s.enter t x us = some s') :
    s'.Owned ∧
      s'.settled act = Function.update (s.settled act) x (actAll act (s.settled act x) us) := by
  obtain ⟨hfree, hout, rfl⟩ := enter_eq_some.mp h
  have howned : Owned { s with
      owner := Function.update s.owner x (some t)
      inside := Function.update s.inside t (some (x, us)) } := by
    intro t' y
    by_cases ht : t' = t
    · subst ht
      by_cases hy : y = x
      · subst hy
        simp
      · simp only [Function.update_of_ne hy, Function.update_self]
        rw [hs t' y, hout]
        constructor
        · rintro ⟨_, ⟨⟩⟩
        · rintro ⟨_, heq⟩
          cases heq
          exact absurd rfl hy
    · simp only [Function.update_of_ne ht]
      by_cases hy : y = x
      · subst hy
        rw [Function.update_self, ← hs t' y, hfree]
        exact ⟨fun heq => absurd (Option.some.inj heq).symm ht, nofun⟩
      · rw [Function.update_of_ne hy]
        exact hs t' y
  refine ⟨howned, ?_⟩
  funext y
  by_cases hy : y = x
  · subst hy
    rw [Function.update_self, settled_free hfree]
    unfold settled
    rw [howned.rest_eq (Function.update_self ..)]
  · rw [Function.update_of_ne hy]
    exact settled_frame rfl (Function.update_of_ne hy ..) rfl (hs.owner_ne_of_out hout y)

omit [DecidableEq X] in
/-- Only what thread `t` has to do changes. -/
theorem Owned.of_inside (hs : s.Owned) {x : X} {us : List U} (hinside : s.inside t = some (x, us))
    (us' : List U) (data : X → D) :
    Owned { s with data := data, inside := Function.update s.inside t (some (x, us')) } := by
  intro t' y
  by_cases ht : t' = t
  · subst ht
    simp only [Function.update_self]
    rw [hs t' y, hinside]
    constructor <;> rintro ⟨_, heq⟩ <;> cases heq <;> exact ⟨_, rfl⟩
  · simp only [Function.update_of_ne ht]
    exact hs t' y

theorem Owned.advance (hs : s.Owned) (h : s.advance act t = some s') :
    s'.Owned ∧ s'.settled act = s.settled act := by
  obtain ⟨x, u, us, hinside, rfl⟩ := advance_eq_some.mp h
  have howned := hs.of_inside hinside us (Function.update s.data x (act u (s.data x)))
  refine ⟨howned, ?_⟩
  funext y
  by_cases hy : y = x
  · subst hy
    unfold settled
    rw [howned.rest_eq (Function.update_self ..), hs.rest_eq hinside]
    simp only [Function.update_self]
    rfl
  · exact settled_frame (Function.update_of_ne hy ..) rfl rfl (hs.owner_ne hinside hy)

theorem Owned.leave (hs : s.Owned) (h : s.leave t = some s') :
    s'.Owned ∧ s'.settled act = s.settled act := by
  obtain ⟨x, hinside, rfl⟩ := leave_eq_some.mp h
  constructor
  · intro t' y
    by_cases ht : t' = t
    · subst ht
      simp only [Function.update_self]
      by_cases hy : y = x
      · subst hy
        simp
      · rw [Function.update_of_ne hy]
        exact ⟨fun howner => absurd howner (hs.owner_ne hinside hy), nofun⟩
    · simp only [Function.update_of_ne ht]
      by_cases hy : y = x
      · subst hy
        rw [Function.update_self]
        refine ⟨nofun, ?_⟩
        rintro ⟨us, hother⟩
        exact absurd (hs.owner_unique hother hinside) ht
      · rw [Function.update_of_ne hy]
        exact hs t' y
  · funext y
    by_cases hy : y = x
    · subst hy
      unfold settled
      rw [rest_free (Function.update_self ..), hs.rest_eq hinside]
    · exact settled_frame rfl (Function.update_of_ne hy ..) rfl (hs.owner_ne hinside hy)

end steps

end Sections

end LTS
