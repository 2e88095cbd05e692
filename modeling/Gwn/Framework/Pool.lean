import Mathlib.Data.Multiset.AddSub
import Mathlib.Data.Multiset.UnionInter

/-! # A pool of jobs

    Jobs are numbered in the order in which they are submitted. A pending job has
    the events it has still to perform; a log records every event with the number
    of the job that performed it. `Pool.Sound` says that log and pool account for
    each other: what a job has performed, followed by what it has left, is its
    script. It is kept by submitting (`add`), performing (`perform`) and finishing
    (`finish`) jobs in any order. When the pool is empty every job has performed
    its script exactly once (`all_performed`). -/

universe u v

namespace LTS

/-- A job with the events it has left. -/
structure Job (E : Type v) where
  tag : Nat
  rest : List E

structure Pool (C : Type u) (E : Type v) where
  /-- The jobs submitted so far; job `t` is the `t`-th. -/
  jobs : List C
  log : List (Nat × E)
  pending : Multiset (Job E)

variable {C : Type u} {E : Type v}

/-- The events of job `t`, in the order of the log. -/
def performed (log : List (Nat × E)) (t : Nat) : List E :=
  (log.filter fun e => e.1 = t).map Prod.snd

theorem performed_self (log : List (Nat × E)) (t : Nat) (e : E) :
    performed (log ++ [(t, e)]) t = performed log t ++ [e] := by
  simp [performed]

theorem performed_other (log : List (Nat × E)) {t u : Nat} (e : E) (h : u ≠ t) :
    performed (log ++ [(t, e)]) u = performed log u := by
  simp [performed, h.symm]

namespace Pool

/-- Log and pending jobs account for every job submitted. -/
structure Sound (script : C → List E) (p : Pool C E) : Prop where
  nodup : (p.pending.map Job.tag).Nodup
  pending : ∀ j ∈ p.pending, ∃ c, p.jobs[j.tag]? = some c ∧
    performed p.log j.tag ++ j.rest = script c
  complete :
    ∀ t c, p.jobs[t]? = some c → t ∉ p.pending.map Job.tag → performed p.log t = script c
  /-- What is not submitted has performed nothing. -/
  future : ∀ t, p.jobs.length ≤ t → performed p.log t = []

variable {script : C → List E}

namespace Sound

theorem empty : Sound script ⟨[], [], 0⟩ where
  nodup := Multiset.nodup_zero
  pending j hj := absurd hj (Multiset.notMem_zero j)
  complete t c hc := by simp at hc
  future _ _ := rfl

/-- The number of a pending job has been given out. -/
theorem tag_lt {p : Pool C E} (h : Sound script p) {t : Nat} (ht : t ∈ p.pending.map Job.tag) :
    t < p.jobs.length := by
  obtain ⟨j, hj, rfl⟩ := Multiset.mem_map.mp ht
  obtain ⟨c, hc, -⟩ := h.pending j hj
  exact (List.getElem?_eq_some_iff.mp hc).1

theorem add {p : Pool C E} (h : Sound script p) (c : C) :
    Sound script ⟨p.jobs ++ [c], p.log, ⟨p.jobs.length, script c⟩ ::ₘ p.pending⟩ := by
  have hold : ∀ {t : Nat} {d : C}, p.jobs[t]? = some d → (p.jobs ++ [c])[t]? = some d := by
    intro t d hd
    have hlt := (List.getElem?_eq_some_iff.mp hd).1
    rw [List.getElem?_append_left hlt, hd]
  refine ⟨?_, fun j hj => ?_, fun t d hd ht => ?_, fun t ht => ?_⟩
  · show (Multiset.map _ (_ ::ₘ _)).Nodup
    rw [Multiset.map_cons, Multiset.nodup_cons]
    exact ⟨fun hmem => Nat.lt_irrefl _ (h.tag_lt hmem), h.nodup⟩
  · rcases Multiset.mem_cons.mp hj with rfl | hj
    · refine ⟨c, by simp, ?_⟩
      show performed p.log p.jobs.length ++ script c = script c
      rw [h.future _ (Nat.le_refl _), List.nil_append]
    · obtain ⟨d, hd, hrest⟩ := h.pending j hj
      exact ⟨d, hold hd, hrest⟩
  · have hne : t ≠ p.jobs.length ∧ t ∉ p.pending.map Job.tag := by
      simpa [not_or] using ht
    have hlt : t < p.jobs.length := by
      have := (List.getElem?_eq_some_iff.mp hd).1
      simp only [List.length_append, List.length_singleton] at this
      omega
    rw [List.getElem?_append_left hlt] at hd
    exact h.complete t d hd hne.2
  · have hle : (p.jobs ++ [c]).length ≤ t := ht
    simp only [List.length_append, List.length_singleton] at hle
    exact h.future t (by omega)

/-- The next event of a pending job is logged; the job keeps what is left. -/
theorem perform {jobs : List C} {log : List (Nat × E)} {t : Nat} {e : E} {r : List E}
    {m : Multiset (Job E)} (h : Sound script ⟨jobs, log, ⟨t, e :: r⟩ ::ₘ m⟩) :
    Sound script ⟨jobs, log ++ [(t, e)], ⟨t, r⟩ ::ₘ m⟩ := by
  have hnodup : t ∉ m.map Job.tag ∧ (m.map Job.tag).Nodup := by
    simpa using h.nodup
  obtain ⟨c, hc, hscript⟩ := h.pending ⟨t, e :: r⟩ (Multiset.mem_cons_self _ _)
  refine ⟨?_, fun j hj => ?_, fun u d hd hu => ?_, fun u hu => ?_⟩
  · simpa using hnodup
  · rcases Multiset.mem_cons.mp hj with rfl | hjm
    · refine ⟨c, hc, ?_⟩
      show performed (log ++ [(t, e)]) t ++ r = script c
      rw [performed_self, List.append_assoc]
      exact hscript
    · have hne : j.tag ≠ t := by
        intro heq
        exact hnodup.1 (heq ▸ Multiset.mem_map_of_mem Job.tag hjm)
      obtain ⟨d, hd, hrest⟩ := h.pending j (Multiset.mem_cons_of_mem hjm)
      exact ⟨d, hd, by rw [performed_other log e hne]; exact hrest⟩
  · have hmem : u ≠ t ∧ u ∉ m.map Job.tag := by simpa [not_or] using hu
    show performed (log ++ [(t, e)]) u = script d
    rw [performed_other log e hmem.1]
    exact h.complete u d hd (by simpa [not_or] using hmem)
  · have hlt : t < jobs.length := (List.getElem?_eq_some_iff.mp hc).1
    have hle : jobs.length ≤ u := hu
    show performed (log ++ [(t, e)]) u = []
    rw [performed_other log e (by omega)]
    exact h.future u hle

/-- A job that has nothing left can be dropped. -/
theorem drop {jobs : List C} {log : List (Nat × E)} {t : Nat} {m : Multiset (Job E)}
    (h : Sound script ⟨jobs, log, ⟨t, []⟩ ::ₘ m⟩) : Sound script ⟨jobs, log, m⟩ := by
  have hnodup : t ∉ m.map Job.tag ∧ (m.map Job.tag).Nodup := by
    simpa using h.nodup
  refine ⟨hnodup.2, fun j hj => h.pending j (Multiset.mem_cons_of_mem hj), fun u c hc hu => ?_,
    h.future⟩
  by_cases hut : u = t
  · obtain ⟨d, hd, hscript⟩ := h.pending ⟨t, []⟩ (Multiset.mem_cons_self _ _)
    have hdc : d = c := by
      have : jobs[u]? = some d := hut ▸ hd
      exact Option.some.inj (this.symm.trans hc)
    rw [List.append_nil] at hscript
    rw [hut, ← hdc]
    exact hscript
  · apply h.complete u c hc
    show u ∉ (⟨t, []⟩ ::ₘ m).map Job.tag
    rw [Multiset.map_cons, Multiset.mem_cons, not_or]
    exact ⟨hut, hu⟩

/-- The last event of a pending job is logged, and the job is done. -/
theorem finish {jobs : List C} {log : List (Nat × E)} {t : Nat} {e : E} {m : Multiset (Job E)}
    (h : Sound script ⟨jobs, log, ⟨t, [e]⟩ ::ₘ m⟩) :
    Sound script ⟨jobs, log ++ [(t, e)], m⟩ :=
  h.perform.drop

/-- Only jobs that have been submitted perform events. -/
theorem logged_lt {p : Pool C E} (h : Sound script p) {t : Nat} {e : E} (he : (t, e) ∈ p.log) :
    t < p.jobs.length := by
  apply Nat.lt_of_not_le
  intro hle
  have hmem : e ∈ performed p.log t :=
    List.mem_map.mpr ⟨(t, e), List.mem_filter.mpr ⟨he, by simp⟩, rfl⟩
  rw [h.future t hle] at hmem
  cases hmem

/-- When nothing is pending, every job has performed its script. -/
theorem all_performed {p : Pool C E} (h : Sound script p) (hp : p.pending = 0) {t : Nat} {c : C}
    (hc : p.jobs[t]? = some c) : performed p.log t = script c :=
  h.complete t c hc (by simp [hp])

end Sound

end Pool

end LTS
