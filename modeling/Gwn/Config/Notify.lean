import Gwn.Framework.Ordered
import Gwn.Framework.System

/-! # Listeners that throw

    `ConfigVar::setValue` calls the listeners one after the other and stores the value
    behind the last call (gwn/config.h). A listener that throws ends the loop and the
    call; those before it have taken over a value by then that is never stored. This
    module follows the calls of one thread, in each of which any listener may throw:

    - `setValue`, `fromString`: the loop over `m_cbs`, and who catches what
    - `Settled`: every listener goes by the value that is stored
    - `not_settled`: a listener throws behind another
    - `settled_iff`: it holds after all calls if and only if this never happens
    - `result_tells`: what the caller can tell from the end of a call -/

namespace Gwn.Config.Notify

open LTS

variable {T : Type}

/-! ### Calls -/

/-- What a listener does in one call. -/
inductive Outcome where
  | accepts
  /-- It throws a `std::exception`. -/
  | throwsStd
  /-- It throws something else. -/
  | throwsOther
deriving DecidableEq, Repr

/-- The call `cb(old_value, new_value)` of the listener with this key, and whether it returned. -/
structure Told (T : Type) where
  key : Nat
  old : T
  new : T
  accepted : Bool
deriving DecidableEq

/-- How a call of the variable ended. -/
inductive Result where
  | returned
  /-- `fromString` returned false. -/
  | returnedFalse
  | threw
deriving DecidableEq, Repr

structure State (T : Type) where
  /-- `m_val`. -/
  val : T
  /-- The calls of listeners so far. -/
  told : List (Told T)
  /-- How the last call ended. -/
  result : Option Result

inductive Request (T : Type) where
  | setValue (v : T)
  | fromString (val : String)
deriving DecidableEq

/-- One call, and what each listener does should it be notified. -/
structure Label (T : Type) where
  request : Request T
  outcome : Nat → Outcome

/-- The loop over `m_cbs`, and how it ends. -/
def notify (outcome : Nat → Outcome) (old new : T) : List Nat → List (Told T) × Outcome
  | [] => ([], .accepts)
  | key :: keys =>
    match outcome key with
    | .accepts =>
      let rest := notify outcome old new keys
      (⟨key, old, new, true⟩ :: rest.1, rest.2)
    | thrown => ([⟨key, old, new, false⟩], thrown)

section calls
variable [BEq T] (cbs : Ordered (id : Nat → Nat)) (fromStr : String → Option T)

/-- `setValue`, with what it throws. -/
def setValue (s : State T) (v : T) (outcome : Nat → Outcome) : State T × Outcome :=
  if v == s.val then (s, .accepts)
  else
    let (told, ending) := notify outcome s.val v cbs.entries
    match ending with
    | .accepts => ({ s with val := v, told := s.told ++ told }, .accepts)
    | thrown => ({ s with told := s.told ++ told }, thrown)

/-- A call of `setValue`. -/
def callSetValue (s : State T) (v : T) (outcome : Nat → Outcome) : State T :=
  match setValue cbs s v outcome with
  | (s', .accepts) => { s' with result := some .returned }
  | (s', _) => { s' with result := some .threw }

/-- `fromString` catches what `FromStr` throws, and what derives from `std::exception`. -/
def fromString (s : State T) (val : String) (outcome : Nat → Outcome) : State T :=
  match fromStr val with
  | none => { s with result := some .returnedFalse }
  | some v =>
    match setValue cbs s v outcome with
    | (s', .accepts) => { s' with result := some .returned }
    | (s', .throwsStd) => { s' with result := some .returnedFalse }
    | (s', .throwsOther) => { s' with result := some .threw }

def step (s : State T) (l : Label T) : Option (State T) :=
  match l.request with
  | .setValue v => some (callSetValue cbs s v l.outcome)
  | .fromString val => some (fromString cbs fromStr s val l.outcome)

def State.initial (val : T) : State T :=
  { val := val, told := [], result := none }

/-- A variable with these listeners, as it is used by one thread. -/
def listened (initial : T) : System (State T) (Label T) where
  init := .initial initial
  step := step cbs fromStr

end calls

/-! ### What the listeners go by -/

/-- The values that a listener has been told of and has accepted. -/
def State.accepted (s : State T) (key : Nat) : List T :=
  (s.told.filter fun x => x.key = key && x.accepted).map (·.new)

/-- The value that every listener has last accepted is the one that is stored; if it has
    accepted none, this is the initial one. -/
def Settled (cbs : Ordered (id : Nat → Nat)) (initial : T) (s : State T) : Prop :=
  ∀ key ∈ cbs.entries, (s.accepted key).getLastD initial = s.val

/-- The value that a call is about. -/
def Request.value (fromStr : String → Option T) : Request T → Option T
  | .setValue v => some v
  | .fromString val => fromStr val

/-- No listener throws, or the first one does. -/
def AllOrNone (outcome : Nat → Outcome) : List Nat → Prop
  | [] => True
  | key :: keys => outcome key ≠ .accepts ∨ ∀ k ∈ keys, outcome k = .accepts

/-- In a call that changes the value, no listener throws behind another. -/
def WholeOrNothing [BEq T] (cbs : Ordered (id : Nat → Nat))
    (fromStr : String → Option T) (s : State T) (l : Label T) : Prop :=
  ∀ v, l.request.value fromStr = some v → (v == s.val) = false → v ≠ s.val →
    AllOrNone l.outcome cbs.entries

/-! ### One call -/

section calls
variable {outcome : Nat → Outcome} {old new : T}

theorem notify_all {keys : List Nat} (h : ∀ k ∈ keys, outcome k = .accepts) :
    notify outcome old new keys = (keys.map fun k => ⟨k, old, new, true⟩, .accepts) := by
  induction keys with
  | nil => rfl
  | cons key keys ih =>
    have hkey := h key List.mem_cons_self
    have hkeys := ih fun k hk => h k (List.mem_cons_of_mem _ hk)
    simp [notify, hkey, hkeys]

theorem notify_thrown {pre post : List Nat} {k : Nat} (hpre : ∀ j ∈ pre, outcome j = .accepts)
    (hk : outcome k ≠ .accepts) :
    notify outcome old new (pre ++ k :: post) =
      (pre.map (fun j => ⟨j, old, new, true⟩) ++ [⟨k, old, new, false⟩], outcome k) := by
  induction pre with
  | nil =>
    cases hout : outcome k with
    | accepts => exact absurd hout hk
    | _ => simp [notify, hout]
  | cons key pre ih =>
    have hkey := hpre key List.mem_cons_self
    have hrest := ih fun j hj => hpre j (List.mem_cons_of_mem _ hj)
    simp [notify, hkey, hrest]

/-- All listeners accept, or there is a first one that throws. -/
theorem all_or_first (outcome : Nat → Outcome) (keys : List Nat) :
    (∀ k ∈ keys, outcome k = .accepts) ∨ ∃ pre k post, keys = pre ++ k :: post ∧
      (∀ j ∈ pre, outcome j = .accepts) ∧ outcome k ≠ .accepts := by
  induction keys with
  | nil => exact .inl fun k hk => absurd hk List.not_mem_nil
  | cons key keys ih =>
    by_cases hkey : outcome key = .accepts
    · rcases ih with hall | ⟨pre, k, post, heq, hpre, hk⟩
      · exact .inl (List.forall_mem_cons.mpr ⟨hkey, hall⟩)
      · exact .inr ⟨key :: pre, k, post, by rw [heq, List.cons_append],
          List.forall_mem_cons.mpr ⟨hkey, hpre⟩, hk⟩
    · exact .inr ⟨[], key, keys, rfl, fun j hj => absurd hj List.not_mem_nil, hkey⟩

theorem AllOrNone.of_all {keys : List Nat} (h : ∀ k ∈ keys, outcome k = .accepts) :
    AllOrNone outcome keys := by
  cases keys with
  | nil => exact trivial
  | cons key keys => exact .inr fun k hk => h k (List.mem_cons_of_mem _ hk)

theorem allOrNone_of_first {keys pre post : List Nat} {k : Nat} (hkeys : keys = pre ++ k :: post)
    (hpre : ∀ j ∈ pre, outcome j = .accepts) (hk : outcome k ≠ .accepts) :
    AllOrNone outcome keys ↔ pre = [] := by
  subst hkeys
  cases pre with
  | nil =>
    constructor
    · intro _
      rfl
    · intro _
      exact .inl hk
  | cons key pre =>
    constructor
    · intro h
      rcases h with hkey | hall
      · exact absurd (hpre key List.mem_cons_self) hkey
      · exact absurd (hall k (List.mem_append_right _ List.mem_cons_self)) hk
    · intro h
      cases h

/-- Who is told and accepts goes by the new value, and nobody else does. -/
theorem accepted_getLastD {s s' : State T} {keys : List Nat} {tail : List (Told T)} {d : T}
    (htail : ∀ x ∈ tail, x.accepted = false)
    (h : s'.told = s.told ++ (keys.map (fun k => ⟨k, old, new, true⟩) ++ tail)) (key : Nat) :
    (s'.accepted key).getLastD d = if key ∈ keys then new else (s.accepted key).getLastD d := by
  have hnone : tail.filter (fun x => x.key = key && x.accepted) = [] := by
    rw [List.filter_eq_nil_iff]
    intro x hx
    simp [htail x hx]
  -- a listener is told once for each time that it is among `keys`
  have hsplit : s'.accepted key = s.accepted key ++
      List.replicate ((keys.filter (· = key)).length) new := by
    simp [State.accepted, h, hnone, List.filter_map, Function.comp_def, List.map_const']
  by_cases hkey : key ∈ keys
  · have hne : (keys.filter (· = key)).length ≠ 0 := by
      intro hzero
      have hempty := List.length_eq_zero_iff.mp hzero
      exact List.ne_nil_of_mem (List.mem_filter.mpr ⟨hkey, by simp⟩) hempty
    rw [if_pos hkey, List.getLastD_eq_getLast?, hsplit, List.getLast?_append,
      List.getLast?_replicate, if_neg hne]
    rfl
  · have hempty : keys.filter (· = key) = [] := by
      rw [List.filter_eq_nil_iff]
      intro k hk heq
      rw [decide_eq_true_eq] at heq
      exact hkey (heq ▸ hk)
    rw [if_neg hkey, hsplit, hempty, List.length_nil, List.replicate_zero, List.append_nil]

theorem settled_congr {s s' : State T} {cbs : Ordered (id : Nat → Nat)} {initial : T}
    (hval : s'.val = s.val) (htold : s'.told = s.told) :
    Settled cbs initial s' ↔ Settled cbs initial s := by
  simp [Settled, State.accepted, hval, htold]

theorem settled_initial {cbs : Ordered (id : Nat → Nat)} {initial : T} :
    Settled cbs initial (.initial initial) := by
  intro key _
  rfl

variable [BEq T] {cbs : Ordered (id : Nat → Nat)} {fromStr : String → Option T} {s s' : State T}
  {l : Label T} {v : T}

/-! ### One step -/

/-- What a call stores and whom it tells does not depend on who catches what. -/
theorem step_some (hv : l.request.value fromStr = some v) (h : step cbs fromStr s l = some s') :
    s'.val = (setValue cbs s v l.outcome).1.val ∧
      s'.told = (setValue cbs s v l.outcome).1.told := by
  obtain ⟨request, outcome⟩ := l
  cases request with
  | setValue w =>
    simp only [Request.value, Option.some.injEq] at hv
    subst hv
    simp only [step, callSetValue, Option.some.injEq] at h
    subst h
    split
    · next heq => simp [heq]
    · next heq => simp [heq]
  | fromString val =>
    simp only [Request.value] at hv
    simp only [step, fromString, hv, Option.some.injEq] at h
    subst h
    split
    · next heq => simp [heq]
    · next heq => simp [heq]
    · next heq => simp [heq]

theorem step_none (hv : l.request.value fromStr = none) (h : step cbs fromStr s l = some s') :
    s'.val = s.val ∧ s'.told = s.told := by
  obtain ⟨request, outcome⟩ := l
  cases request with
  | setValue w => cases hv
  | fromString val =>
    simp only [Request.value] at hv
    simp only [step, fromString, hv, Option.some.injEq] at h
    subst h
    exact ⟨rfl, rfl⟩

theorem setValue_same (h : (v == s.val) = true) : setValue cbs s v outcome = (s, .accepts) := by
  simp [setValue, h]

theorem setValue_all (h : (v == s.val) = false)
    (hall : ∀ k ∈ cbs.entries, outcome k = .accepts) :
    (setValue cbs s v outcome).1.val = v ∧ (setValue cbs s v outcome).1.told =
      s.told ++ cbs.entries.map fun k => ⟨k, s.val, v, true⟩ := by
  simp [setValue, h, notify_all hall]

theorem setValue_thrown {pre post : List Nat} {k : Nat} (h : (v == s.val) = false)
    (hkeys : cbs.entries = pre ++ k :: post) (hpre : ∀ j ∈ pre, outcome j = .accepts)
    (hk : outcome k ≠ .accepts) :
    (setValue cbs s v outcome).1.val = s.val ∧ (setValue cbs s v outcome).1.told =
      s.told ++ (pre.map (fun j => ⟨j, s.val, v, true⟩) ++ [⟨k, s.val, v, false⟩]) := by
  cases hout : outcome k with
  | accepts => exact absurd hout hk
  | _ => simp [setValue, h, hkeys, notify_thrown hpre hk, hout]

/-- `setValue` stores the value if no listener throws, and else leaves the old one. -/
theorem setValue_val (cbs : Ordered (id : Nat → Nat)) (s : State T) (v : T)
    (outcome : Nat → Outcome) :
    if (setValue cbs s v outcome).2 = .accepts then
      (setValue cbs s v outcome).1.val = if v == s.val then s.val else v
    else (setValue cbs s v outcome).1.val = s.val := by
  unfold setValue
  by_cases heq : (v == s.val) = true
  · simp [heq]
  · rw [if_neg heq]
    cases hout : (notify outcome s.val v cbs.entries).2 with
    | accepts => simp [hout, heq]
    | _ => simp [hout]

/-- How a call ends tells the caller whether its value is the one that is stored now. -/
theorem result_tells (h : step cbs fromStr s l = some s') :
    if s'.result = some .returned then
      ∃ v, l.request.value fromStr = some v ∧ s'.val = if v == s.val then s.val else v
    else s'.val = s.val := by
  obtain ⟨request, outcome⟩ := l
  cases request with
  | setValue v =>
    have hval := setValue_val cbs s v outcome
    simp only [step, callSetValue, Option.some.injEq] at h
    subst h
    rcases hset : setValue cbs s v outcome with ⟨t, ending⟩
    rw [hset] at hval
    cases ending with
    | accepts => simpa [Request.value] using hval
    | _ => simpa using hval
  | fromString val =>
    simp only [step, fromString, Option.some.injEq] at h
    subst h
    cases hfrom : fromStr val with
    | none => simp
    | some v =>
      have hval := setValue_val cbs s v outcome
      rcases hset : setValue cbs s v outcome with ⟨t, ending⟩
      rw [hset] at hval
      cases ending with
      | accepts => simpa [hset, Request.value, hfrom] using hval
      | _ => simpa [hset] using hval

end calls

/-! ### All calls -/

section runs
variable [BEq T] {cbs : Ordered (id : Nat → Nat)} {fromStr : String → Option T} {initial : T}
  {s s' : State T} {l : Label T}

/-- After a call the listeners go by what is stored, if and only if none threw behind another. -/
theorem settled_step (hs : Settled cbs initial s) (h : step cbs fromStr s l = some s') :
    Settled cbs initial s' ↔ WholeOrNothing cbs fromStr s l := by
  cases hv : l.request.value fromStr with
  | none =>
    obtain ⟨hval, htold⟩ := step_none hv h
    rw [settled_congr hval htold]
    constructor
    · intro _ v hsome
      rw [hv] at hsome
      cases hsome
    · intro _
      exact hs
  | some v =>
    obtain ⟨hval, htold⟩ := step_some hv h
    have hguard : WholeOrNothing cbs fromStr s l ↔
        ((v == s.val) = false → v ≠ s.val → AllOrNone l.outcome cbs.entries) := by
      simp [WholeOrNothing, hv]
    rw [hguard]
    by_cases heq : (v == s.val) = true
    · -- nobody is told
      rw [setValue_same heq] at hval htold
      rw [settled_congr hval htold]
      constructor
      · intro _ hne
        rw [heq] at hne
        cases hne
      · intro _
        exact hs
    · have hne : (v == s.val) = false := by simpa using heq
      rcases all_or_first l.outcome cbs.entries with hall | ⟨pre, k, post, hkeys, hpre, hk⟩
      · -- every listener accepts, and the value is stored
        obtain ⟨hval', htold'⟩ := setValue_all hne hall
        rw [htold', ← List.append_nil (List.map _ _)] at htold
        constructor
        · intro _ _ _
          exact .of_all hall
        · intro _ key hkey
          rw [accepted_getLastD (by simp) htold, if_pos hkey, hval, hval']
      · -- the listener `k` throws, behind those of `pre`
        obtain ⟨hval', htold'⟩ := setValue_thrown (s := s) hne hkeys hpre hk
        rw [htold'] at htold
        rw [allOrNone_of_first hkeys hpre hk]
        have hlast : ∀ key, (s'.accepted key).getLastD initial =
            if key ∈ pre then v else (s.accepted key).getLastD initial :=
          accepted_getLastD (by simp) htold
        constructor
        · intro hsettled _ hvs
          -- the first of `pre` goes by `v`
          rw [List.eq_nil_iff_forall_not_mem]
          intro first hfirst
          have hstored := hsettled first (by simp [hkeys, hfirst])
          rw [hlast, if_pos hfirst, hval, hval'] at hstored
          exact hvs hstored
        · intro hcond key hkey
          rw [hlast, hval, hval']
          by_cases hpre : key ∈ pre
          · -- there is nobody in `pre` unless `v` is what is stored
            rw [if_pos hpre]
            by_contra hvs
            rw [hcond hne hvs] at hpre
            cases hpre
          · -- the others have accepted nothing, and the old value is stored again
            rw [if_neg hpre]
            exact hs key hkey

/-- For every variable, all its listeners, and all calls of `setValue` and `fromString`, in
    which any listener may throw anything: after every call all listeners go by what is
    stored, if and only if in no call that changes the value a listener throws behind another. -/
theorem settled_iff (ls : List (Label T)) :
    (listened cbs fromStr initial).Visits ls (Settled cbs initial) ↔
      (listened cbs fromStr initial).Steps ls (WholeOrNothing cbs fromStr) := by
  apply System.visits_iff_steps settled_initial
  · intro s hs
    exact hs
  · intro s l s' hs hguard h
    exact (settled_step hs h).mpr hguard
  · intro s l hs hguard
    obtain ⟨s', hs'⟩ : ∃ s', step cbs fromStr s l = some s' := by
      obtain ⟨request, outcome⟩ := l
      cases request <;> exact ⟨_, rfl⟩
    exact ⟨s', hs', fun h => hguard ((settled_step hs hs').mp h)⟩

/-- The listener 1 accepts, the listener 2 throws: `fromString` returns false, and the
    listener 1 goes by the value that was rejected. -/
theorem not_settled : ¬ ∀ (cbs : Ordered (id : Nat → Nat)) (fromStr : String → Option String)
    (initial : String) (ls : List (Label String)),
    (listened cbs fromStr initial).Visits ls (Settled cbs initial) := by
  intro h
  let cbs : Ordered (id : Nat → Nat) := (Ordered.empty.insert 1).insert 2
  let call : Label String :=
    ⟨.fromString "new", fun key => if key = 1 then .accepts else .throwsStd⟩
  have hend := h cbs some "old" [call] [call] _ List.prefix_rfl rfl 1 (by decide)
  exact absurd hend (by decide)

end runs

end Gwn.Config.Notify
