import Gwn.Config.Cast
import Gwn.Config.Notify
import Gwn.Log.Cast

/-! # A scalar for a container

    The decoders of the containers (gwn/config.h) loop over what `Load` returns and do
    not ask for its kind. A scalar has no items, so that the loop ends at once:

    - `Container`: the six containers, and the set of log definitions behind "logs"
    - `ofText_scalar`: the text of any scalar is read as the empty container
    - `not_rejected_scalar`: `fromString` never turns it down -/

namespace Gwn.Config

open LTS Log Notify

/-! ### The set of log definitions -/

section logs
variable (Y : Yaml)

def logDefine : CastType where
  T := LogDefine
  eq := LogDefine.eq
  toText i := some (i.toText Y)
  ofText := LogDefine.ofText Y
  tree := LogDefine.node

/-- `std::set<LogDefine>`. -/
def logDefines : CastType where
  T := LogDefines
  eq a b := sameDefines a.entries b.entries
  toText v := elementsToText Y (logDefine Y) v.entries
  ofText v := (elementsOfText Y (logDefine Y) v).map fun l => l.foldl Ordered.insert Ordered.empty
  tree v := .sequence (v.entries.map LogDefine.node)

end logs

/-! ### Containers -/

/-- The types with a partial specialisation of `LexicalCast`, and `std::set<LogDefine>`. -/
inductive Container (Y : Yaml) : CastType → Prop where
  | vector (E : CastType) : Container Y (Config.vector Y E)
  | list (E : CastType) : Container Y (Config.list Y E)
  | set (E : OrderedType) : Container Y (Config.set Y E)
  | unordered_set (E : OrderedType) : Container Y (Config.unordered_set Y E)
  | map (E : CastType) : Container Y (Config.map Y E)
  | unordered_map (E : CastType) : Container Y (Config.unordered_map Y E)
  | logs : Container Y (logDefines Y)

instance (C : CastType) : BEq C.T := ⟨C.eq⟩

/-- `fromString` has returned false, and nothing else has happened. -/
def Rejected {T : Type} (s s' : Notify.State T) : Prop :=
  s'.result = some .returnedFalse ∧ s'.val = s.val ∧ s'.told = s.told

section scalar
variable {Y : Yaml} {text t : String}

theorem elementsOfText_scalar {E : CastType} (h : Y.load text = some (.scalar t)) :
    elementsOfText Y E text = some [] := by
  unfold elementsOfText
  rw [h]
  rfl

theorem pairsOfText_scalar {E : CastType} (h : Y.load text = some (.scalar t)) :
    pairsOfText Y E text = some [] := by
  unfold pairsOfText
  rw [h]
  rfl

/-- What is read has no items. -/
theorem ofText_scalar {C : CastType} (hC : Container Y C) (h : Y.load text = some (.scalar t)) :
    ∃ v, C.ofText text = some v ∧ (C.tree v).items = some [] := by
  -- whatever the elements are, the loop ends before the first one
  cases hC with
  | vector E => exact ⟨[], elementsOfText_scalar h, rfl⟩
  | list E => exact ⟨[], elementsOfText_scalar h, rfl⟩
  | set E => exact ⟨Ordered.empty, congrArg (Option.map _) (elementsOfText_scalar h), rfl⟩
  | unordered_set E =>
    exact ⟨⟨[], _⟩, congrArg (Option.map _) (elementsOfText_scalar h), rfl⟩
  | map E => exact ⟨Ordered.empty, congrArg (Option.map _) (pairsOfText_scalar h), rfl⟩
  | unordered_map E => exact ⟨⟨[], _⟩, congrArg (Option.map _) (pairsOfText_scalar h), rfl⟩
  | logs => exact ⟨Ordered.empty, congrArg (Option.map _) (elementsOfText_scalar h), rfl⟩

end scalar

/-! ### What `fromString` does with it -/

section fromString
variable {T : Type} [BEq T] {cbs : Ordered (id : Nat → Nat)} {fromStr : String → Option T}
  {s : Notify.State T} {v : T} {text : String} {outcome : Nat → Outcome}

/-- `setValue` throws after it has called a listener. -/
theorem told_of_thrown (h : (setValue cbs s v outcome).2 ≠ .accepts) :
    (setValue cbs s v outcome).1.told ≠ s.told := by
  by_cases hsame : (v == s.val) = true
  · rw [setValue_same hsame] at h
    exact absurd rfl h
  · have hne : (v == s.val) = false := by simpa using hsame
    rcases all_or_first outcome cbs.entries with hall | ⟨pre, k, post, hkeys, hpre, hk⟩
    · have haccepts : (setValue cbs s v outcome).2 = .accepts := by
        simp [setValue, hne, notify_all hall]
      exact absurd haccepts h
    · rw [(setValue_thrown hne hkeys hpre hk).2]
      simp

/-- A text that can be converted is not turned down before a listener has heard of it. -/
theorem not_rejected_of_some (h : fromStr text = some v) :
    ¬ Rejected s (fromString cbs fromStr s text outcome) := by
  intro ⟨hresult, _, htold⟩
  have hthrown :
      (setValue cbs s v outcome).2 ≠ .accepts → (setValue cbs s v outcome).1.told ≠ s.told :=
    told_of_thrown
  unfold fromString at hresult htold
  rw [h] at hresult htold
  simp only at hresult htold
  cases hset : setValue cbs s v outcome with
  | mk s' ending =>
    rw [hset] at hresult htold hthrown
    -- false is returned for a `std::exception` only, and then some listener has been called
    cases ending with
    | accepts => cases hresult
    | throwsStd => exact hthrown (by simp) htold
    | throwsOther => cases hresult

end fromString

/-- For every container, every value and listeners of the variable, and every text that
    `Load` reads as a scalar: the text is never rejected. -/
theorem not_rejected_scalar {Y : Yaml} {C : CastType} {text t : String} (hC : Container Y C)
    (hload : Y.load text = some (.scalar t)) (cbs : Ordered (id : Nat → Nat))
    (s : Notify.State C.T)
    (outcome : Nat → Outcome) : ¬ Rejected s (fromString cbs C.ofText s text outcome) := by
  obtain ⟨v, hv, _⟩ := ofText_scalar hC hload
  exact not_rejected_of_some hv

/-- A text form in which every text is a scalar. -/
def scalars : Yaml :=
  { load := fun text => some (.scalar text), emit := fun _ => "" }

/-- The loggers of "logs" and the text `off`. -/
theorem not_rejected_scalar_off :
    let s : Notify.State (logDefines scalars).T :=
      .initial (Ordered.empty.insert (rootDefine .INFO))
    ¬ Rejected s
      (fromString Ordered.empty (logDefines scalars).ofText s "off" fun _ => .accepts) :=
  not_rejected_scalar .logs rfl Ordered.empty _ _

/-- The value of an `std::vector<int>` is lost to the text `abc`. -/
theorem not_rejected : ¬ ∀ (Y : Yaml) (C : CastType) (text t : String), Container Y C →
    Y.load text = some (.scalar t) → ∀ (cbs : Ordered (id : Nat → Nat)) (s : Notify.State C.T)
    (outcome : Nat → Outcome), Rejected s (fromString cbs C.ofText s text outcome) := by
  intro h
  let I : LexicalInt := ⟨fun _ => "", fun _ => none⟩
  have hrejected := h scalars (vector scalars (int I).toCastType) "abc" "abc" (.vector _) rfl
    Ordered.empty (.initial [(7 : Int32)]) fun _ => .accepts
  have hvals : ([] : List Int32) = [7] := hrejected.2.1
  exact absurd hvals (by decide)

end Gwn.Config
