import Gwn.Framework.System
import Mathlib.Order.WellFounded

/-! # Just runs

    What a system is bound to do at some time it does in the runs in which every party
    that can move from some time on moves at some time. This module provides:

    - `Run`, `Run.Just`: endless runs, and justice towards the parties
    - `Helpful`: in every state short of the goal some party can move, its moves come
      nearer to the goal, and nobody else's lead away from it
    - `Helpful.reaches`: every just run gets to the goal -/

universe u v w x

namespace LTS

variable {State : Type u} {Label : Type v} {Party : Type w}

/-- One step, or a moment in which nobody moves. -/
def System.Goes (sys : System State Label) (s : State) : Option Label → State → Prop
  | some l, s' => sys.step s l = some s'
  | none, s' => s' = s

/-- An endless run. A run that comes to an end stays in its last state. -/
structure Run (sys : System State Label) where
  states : Nat → State
  labels : Nat → Option Label
  init : states 0 = sys.init
  next : ∀ n, sys.Goes (states n) (labels n) (states (n + 1))

/-- Some move of this party is possible. -/
def System.Enabled (sys : System State Label) (party : Label → Option Party) (a : Party)
    (s : State) : Prop :=
  ∃ l s', party l = some a ∧ sys.step s l = some s'

/-- A party that can move from some time on does so at some later time. Labels that
    belong to no party are never due. -/
def Run.Just {sys : System State Label} (r : Run sys) (party : Label → Option Party) : Prop :=
  ∀ a n, (∀ m, n ≤ m → sys.Enabled party a (r.states m)) →
    ∃ m l, n ≤ m ∧ r.labels m = some l ∧ party l = some a

section runs
variable {sys : System State Label} (r : Run sys)

theorem Run.reachable (n : Nat) : sys.Reachable (r.states n) := by
  induction n with
  | zero =>
    rw [r.init]
    exact .init
  | succ n ih =>
    have hnext := r.next n
    cases hl : r.labels n with
    | none =>
      rw [hl] at hnext
      exact hnext ▸ ih
    | some l =>
      rw [hl] at hnext
      exact ih.step l hnext

/-- What every step keeps stays. -/
theorem Run.stays {Inv : State → Prop}
    (hstep : ∀ s l s', Inv s → sys.step s l = some s' → Inv s')
    {n : Nat} (hn : Inv (r.states n)) {m : Nat} (hm : n ≤ m) : Inv (r.states m) := by
  induction m, hm using Nat.le_induction with
  | base => exact hn
  | succ m _ ih =>
    have hnext := r.next m
    cases hl : r.labels m with
    | none =>
      rw [hl] at hnext
      exact hnext ▸ ih
    | some l =>
      rw [hl] at hnext
      exact hstep _ l _ ih hnext

/-- A run that takes the steps `ls` and then stays where they lead. -/
def Run.finite (sys : System State Label) (ls : List Label)
    (h : (sys.exec sys.init ls).isSome) : Run sys where
  states n := (sys.exec sys.init (ls.take n)).getD ((sys.exec sys.init ls).get h)
  labels n := ls[n]?
  init := rfl
  next n := by
    have hruns : ∀ k, (sys.exec sys.init (ls.take k)).isSome := by
      intro k
      rw [← List.take_append_drop k ls, System.exec_append, Option.isSome_bind,
        Option.any_eq_true] at h
      obtain ⟨s, hs, -⟩ := h
      rw [hs]
      rfl
    obtain ⟨s, hs⟩ := Option.isSome_iff_exists.mp (hruns n)
    obtain ⟨s', hs'⟩ := Option.isSome_iff_exists.mp (hruns (n + 1))
    simp only [hs, hs', Option.getD_some]
    cases hl : ls[n]? with
    | none =>
      have hlen : ls.length ≤ n := List.getElem?_eq_none_iff.mp hl
      rw [List.take_of_length_le hlen] at hs
      rw [List.take_of_length_le (Nat.le_succ_of_le hlen), hs] at hs'
      exact (Option.some.inj hs').symm
    | some l =>
      rw [List.take_add_one, hl, Option.toList_some, System.exec_snoc, hs, Option.bind_some] at hs'
      exact hs'

/-- Behind its last step it is in its last state. -/
theorem Run.finite_states {ls : List Label} {h : (sys.exec sys.init ls).isSome} {n : Nat}
    (hn : ls.length ≤ n) : (Run.finite sys ls h).states n = (sys.exec sys.init ls).get h := by
  show (sys.exec sys.init (ls.take n)).getD _ = _
  rw [List.take_of_length_le hn]
  exact (Option.get_eq_getD _).symm

/-- Such a run is just if at its end no party can move. -/
theorem Run.finite_just {party : Label → Option Party} {ls : List Label}
    {h : (sys.exec sys.init ls).isSome}
    (hend : ∀ a, ¬ sys.Enabled party a ((sys.exec sys.init ls).get h)) :
    (Run.finite sys ls h).Just party := by
  intro a n henabled
  have hlast := henabled (n + ls.length) (Nat.le_add_right ..)
  rw [Run.finite_states (Nat.le_add_left ..)] at hlast
  exact absurd hlast (hend a)

end runs

/-! ### Getting there -/

/-- As long as `Inv` holds and `Goal` does not, the party `helper s` can move. A move of
    it makes `rank` smaller, any other one makes it smaller or leaves both alone. -/
structure Helpful {Rank : Type x} [LT Rank] (sys : System State Label)
    (party : Label → Option Party)
    (Inv Goal : State → Prop) (helper : State → Party) (rank : State → Rank) : Prop where
  keeps : ∀ s l s', Inv s → sys.step s l = some s' → Inv s'
  enabled : ∀ s, Inv s → ¬ Goal s → sys.Enabled party (helper s) s
  down : ∀ s l s', Inv s → ¬ Goal s → sys.step s l = some s' →
    Goal s' ∨ rank s' < rank s ∨
      rank s' = rank s ∧ helper s' = helper s ∧ party l ≠ some (helper s)

namespace Helpful

variable {Rank : Type x} [LT Rank] {sys : System State Label}
  {party : Label → Option Party} {Inv Goal : State → Prop} {helper : State → Party}
  {rank : State → Rank}

/-- Where a run neither gets to the goal nor comes nearer to it, the same party is waited
    for all the time, and does not move. -/
theorem waits (hH : Helpful sys party Inv Goal helper rank) {r : Run sys} {n : Nat}
    (hinv : Inv (r.states n)) (hgoal : ∀ m, n ≤ m → ¬ Goal (r.states m))
    (hrank : ∀ m, n ≤ m → ¬ rank (r.states m) < rank (r.states n)) {m : Nat} (hm : n ≤ m) :
    rank (r.states m) = rank (r.states n) ∧ helper (r.states m) = helper (r.states n) ∧
      ∀ l, r.labels m = some l → party l ≠ some (helper (r.states n)) := by
  have hnext : ∀ k, n ≤ k → rank (r.states k) = rank (r.states n) →
      helper (r.states k) = helper (r.states n) →
      rank (r.states (k + 1)) = rank (r.states n) ∧
        helper (r.states (k + 1)) = helper (r.states n) ∧
        ∀ l, r.labels k = some l → party l ≠ some (helper (r.states n)) := by
    intro k hk hsame hhelper
    have hgoes := r.next k
    cases hl : r.labels k with
    | none =>
      rw [hl] at hgoes
      have heq : r.states (k + 1) = r.states k := hgoes
      exact ⟨by rw [heq, hsame], by rw [heq, hhelper], nofun⟩
    | some l =>
      rw [hl] at hgoes
      rcases hH.down _ l _ (r.stays hH.keeps hinv hk)
        (hgoal k hk) hgoes with h | h | ⟨h₁, h₂, h₃⟩
      · exact absurd h (hgoal (k + 1) (Nat.le_succ_of_le hk))
      · rw [hsame] at h
        exact absurd h (hrank (k + 1) (Nat.le_succ_of_le hk))
      · refine ⟨h₁.trans hsame, h₂.trans hhelper, ?_⟩
        rintro l' ⟨⟩
        rw [← hhelper]
        exact h₃
  have hsame :
      rank (r.states m) = rank (r.states n) ∧ helper (r.states m) = helper (r.states n) := by
    induction m, hm using Nat.le_induction with
    | base => exact ⟨rfl, rfl⟩
    | succ k hk ih =>
      obtain ⟨h₁, h₂, -⟩ := hnext k hk ih.1 ih.2
      exact ⟨h₁, h₂⟩
  exact ⟨hsame.1, hsame.2, (hnext m hm hsame.1 hsame.2).2.2⟩

/-- Every just run gets to the goal. -/
theorem reaches [WellFoundedLT Rank] (hH : Helpful sys party Inv Goal helper rank) {r : Run sys}
    (hjust : r.Just party) {n : Nat} (hinv : Inv (r.states n)) :
    ∃ m, n ≤ m ∧ Goal (r.states m) := by
  -- by induction on the rank: where it does not fall any more, the helper is due
  generalize hv : rank (r.states n) = v
  induction v using WellFoundedLT.induction generalizing n with
  | ind v ih =>
    by_contra hnever
    have hgoal : ∀ m, n ≤ m → ¬ Goal (r.states m) := fun m hm h => hnever ⟨m, hm, h⟩
    have hrank : ∀ m, n ≤ m → ¬ rank (r.states m) < rank (r.states n) := by
      intro m hm hlt
      obtain ⟨k, hk, hgoal⟩ := ih _ (hv ▸ hlt) (r.stays hH.keeps hinv hm) rfl
      exact hnever ⟨k, Nat.le_trans hm hk, hgoal⟩
    have hwaits : ∀ m, n ≤ m → _ := fun m hm => hH.waits hinv hgoal hrank hm
    obtain ⟨m, l, hm, hl, hparty⟩ := hjust (helper (r.states n)) n fun m hm => by
      rw [← (hwaits m hm).2.1]
      exact hH.enabled _ (r.stays hH.keeps hinv hm) (hgoal m hm)
    exact (hwaits m hm).2.2 l hl hparty

end Helpful

end LTS
