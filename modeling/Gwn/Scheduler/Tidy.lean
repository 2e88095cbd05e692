import Gwn.Scheduler.Callbacks
import Gwn.Scheduler.Idle

/-! # The queue of callbacks

    As long as callbacks do not publish their fibers, a fiber is queued only by
    the worker that has it in hand and lets go of it. The queue then never holds
    a fiber twice, nor one that a worker has in hand or keeps as its `cb_fiber`,
    and every queued fiber is `READY` (`Tidy`). In particular no worker takes up a
    fiber that another one has in hand (`Tidy.takesFree`). -/

namespace Gwn.Scheduler

open LTS

variable {C : Type} {P : Prog (Cont C)}

/-- The fiber of an entry that is no callback. -/
def Task.fiber? {K : Type} : Task K → Option Nat
  | .fiber f => some f
  | .cb _ => none

theorem Task.fiber?_eq {K : Type} {t : Task K} {f : Nat} : t.fiber? = some f ↔ t = .fiber f := by
  cases t <;> simp [Task.fiber?]

/-- The fibers in the queue, in its order and as often as they stand there. -/
def queuedFibers {K : Type} (q : List (FiberAndThread K)) : List Nat :=
  q.filterMap fun e => e.task.fiber?

@[simp] theorem mem_queuedFibers {K : Type} {q : List (FiberAndThread K)} {f : Nat} :
    f ∈ queuedFibers q ↔ ∃ e ∈ q, e.task = .fiber f := by
  simp [queuedFibers, Task.fiber?_eq]

theorem queuedFibers_append {K : Type} (q : List (FiberAndThread K)) (t : Task K) (thread : Int) :
    queuedFibers (q ++ [⟨t, thread⟩]) = queuedFibers q ++ t.fiber?.toList := by
  cases t <;> simp [queuedFibers, Task.fiber?]

/-- The fiber in hand that came out of the queue. -/
def PC.loose {K : Type} : PC K → Option Nat
  | .check (some (.fiber f)) => some f
  | .on .task f _ => some f
  | _ => none

/-- The queue of a scheduler whose users schedule callbacks only: entries for any thread,
    each fiber once, `READY`, in nobody's hand and kept by no worker for a callback. The
    last field says the same of a fiber that was just taken out of it. -/
structure Tidy (s : State (Cont C)) : Prop where
  thread : ∀ e ∈ s.fibers, e.thread = -1
  nodup : (queuedFibers s.fibers).Nodup
  ready : ∀ e ∈ s.fibers, ∀ f, e.task = .fiber f → (s.heap f).state = .ready
  hand : ∀ e ∈ s.fibers, ∀ f, e.task = .fiber f → ∀ w, (s.workers w).pc.hand ≠ some f
  cbFiber : ∀ e ∈ s.fibers, ∀ f, e.task = .fiber f → ∀ w, (s.workers w).cbFiber ≠ some f
  loose : ∀ w f, (s.workers w).pc.loose = some f → ∀ v, (s.workers v).cbFiber ≠ some f

/-- Taken out of the queue, it is in hand. -/
theorem PC.hand_of_loose {K : Type} {pc : PC K} {f : Nat} (h : pc.loose = some f) :
    pc.hand = some f := by
  unfold loose at h
  split at h
  · exact h
  · exact h
  · cases h

/-- What stands around a dequeued entry does not mention its fiber. -/
theorem not_mem_of_nodup {pre post : List (FiberAndThread (Cont C))} {e : FiberAndThread (Cont C)}
    {f : Nat} (hnodup : (queuedFibers (pre ++ e :: post)).Nodup) (hf : e.task = .fiber f) :
    ∀ x ∈ pre ++ post, x.task ≠ .fiber f := by
  have hperm : (queuedFibers (pre ++ e :: post)).Perm (f :: queuedFibers (pre ++ post)) := by
    have hmiddle : (pre ++ e :: post).Perm (e :: (pre ++ post)) := List.perm_middle
    have hcons : queuedFibers (e :: (pre ++ post)) = f :: queuedFibers (pre ++ post) := by
      simp [queuedFibers, hf, Task.fiber?]
    exact hcons ▸ hmiddle.filterMap _
  have hnew := (List.nodup_cons.mp (hperm.nodup_iff.mp hnodup)).1
  intro x hx hxf
  exact hnew (mem_queuedFibers.mpr ⟨x, hx, hxf⟩)

/-- The code in a fiber: the loop of an idle fiber, or the callback that the
    fiber was prepared for. -/
theorem code_cases [DecidableEq C] {prog : C → Body C} {s : State (Cont C)}
    {owner : Nat → Option Nat} (hwf : WellFormed s)
    (hown : Owned (fun _ => True) none Employed s owner) (hidle : IdleOk true s) {w f : Nat}
    {b : Branch} {c c' : Code (Cont C)} {a : Act (Cont C)}
    (hpc : (s.workers w).pc = .on b f (.inside (.body c)))
    (hc : c.resume (callbacks prog) a = some c') :
    b = .idle ∧ (∀ k, c ≠ .user k) ∧
      (a = .yieldToHold ∨ (∃ v, a = .stopping v) ∨ a = .ret) ∨
      b ≠ .idle ∧ ∃ k k', c = .user k ∧ c' = .user k' ∧ owner f = some k.tag ∧
        k.resume prog a = some k' := by
  by_cases hb : b = .idle
  · have hk : (s.heap f).idle = true := (hwf.on_lt hpc).2.mpr hb
    -- the loop of `idle()` yields, asks `stopping()` and returns
    have hat := hidle.on w b f _ hk hpc hk
    refine .inl ⟨hb, fun k hk => ?_, ?_⟩
    · subst hk
      rcases hat.2 with ⟨h, -⟩ | h | h | ⟨-, h⟩ <;> cases h
    · rcases (hat.resume hc fun _ => rfl).1 with ⟨-, h⟩ | ⟨-, h⟩ | ⟨-, -, h | h⟩
      · exact .inl h
      · exact .inr (.inl ⟨_, h⟩)
      · exact .inr (.inl ⟨_, h⟩)
      · exact .inr (.inr h)
  · have hk : (s.heap f).idle = false := by simpa [hb] using (hwf.on_lt hpc).2
    -- a task fiber runs the callback that it is employed for
    obtain ⟨-, -, ⟨k, rfl, howner⟩, -⟩ := (hown.on w b f _ trivial hpc).2 hk
    obtain ⟨k', hk', rfl⟩ := Option.map_eq_some_iff.mp hc
    exact .inr ⟨hb, k, k', rfl, rfl, howner, hk'⟩

/-- Fibers schedule nothing but callbacks, for any thread. -/
theorem scheduled_cb [DecidableEq C] {prog : C → Body C} {s : State (Cont C)}
    {owner : Nat → Option Nat} (hwf : WellFormed s)
    (hown : Owned (fun _ => True) none Employed s owner) (hidle : IdleOk true s) {w f : Nat}
    {b : Branch} {c c' : Code (Cont C)} {fc : Option (Task (Cont C))} {thread : Int}
    (hpc : (s.workers w).pc = .on b f (.inside (.body c)))
    (hc : c.resume (callbacks prog) (.schedule fc thread) = some c') :
    ∃ k, fc = some (.cb k) ∧ thread = -1 := by
  rcases code_cases hwf hown hidle hpc hc with ⟨-, -, h | ⟨v, h⟩ | h⟩ |
    ⟨-, k, k', -, -, -, hk⟩
  · cases h
  · cases h
  · cases h
  -- a callback body schedules callbacks only, without a thread
  · rcases (resume_cases hk).2 with ⟨tag, d, h, -⟩ | ⟨h, -⟩ | ⟨h, -⟩ |
      ⟨h, -⟩ <;> cases h
    exact ⟨_, rfl, rfl⟩

namespace Tidy

/-- One worker moves; the queue loses at most entries. -/
theorem setWorker {s t : State (Cont C)} (h : Tidy s) (hwf : WellFormed s) {w : Nat}
    {y : Worker (Cont C)} (hqueue : t.fibers.Sublist s.fibers)
    (hworkers : t.workers = Function.update s.workers w y)
    (hstate : ∀ e ∈ t.fibers, ∀ f, e.task = .fiber f → (t.heap f).state = (s.heap f).state)
    (hhand : ∀ f, y.pc.hand = some f → ∀ e ∈ t.fibers, e.task ≠ .fiber f)
    (hcb : ∀ f, y.cbFiber = some f → (s.workers w).cbFiber = some f ∨ f = s.nfib)
    (hloose : ∀ f, y.pc.loose = some f →
      (s.workers w).pc.loose = some f ∨ ∃ e ∈ s.fibers, e.task = .fiber f) : Tidy t := by
  have hself : t.workers w = y := by rw [hworkers, Function.update_self]
  have hne : ∀ v, v ≠ w → t.workers v = s.workers v := by
    intro v hv
    rw [hworkers, Function.update_of_ne hv]
  have hmem : ∀ e ∈ t.fibers, e ∈ s.fibers := fun e he => hqueue.subset he
  -- a fiber that is no worker's `cb_fiber` stays so
  have hcbs : ∀ f, f < s.nfib → (∀ v, (s.workers v).cbFiber ≠ some f) →
      ∀ v, (t.workers v).cbFiber ≠ some f := by
    intro f hlt hf v hv
    by_cases hvw : v = w
    · rw [hvw, hself] at hv
      rcases hcb f hv with hold | hnew
      · exact hf w hold
      · omega
    · rw [hne v hvw] at hv
      exact hf v hv
  -- field by field: each entry of `t` is one of `s`
  refine ⟨fun e he => h.thread e (hmem e he), h.nodup.sublist (hqueue.filterMap _),
    fun e he f hf => ?_, fun e he f hf v hv => ?_, fun e he f hf => ?_, fun v f hf => ?_⟩
  · rw [hstate e he f hf]
    exact h.ready e (hmem e he) f hf
  · by_cases hvw : v = w
    · rw [hvw, hself] at hv
      exact hhand f hv e he hf
    · rw [hne v hvw] at hv
      exact h.hand e (hmem e he) f hf v hv
  · exact hcbs f (hwf.queue e (hmem e he) f hf).1 (h.cbFiber e (hmem e he) f hf)
  -- what was taken out of the queue before this step, or is taken now
  · have hold :
        (∃ u, (s.workers u).pc.loose = some f) ∨ ∃ e ∈ s.fibers, e.task = .fiber f := by
      by_cases hvw : v = w
      · rw [hvw, hself] at hf
        exact (hloose f hf).imp_left fun h => ⟨w, h⟩
      · rw [hne v hvw] at hf
        exact .inl ⟨v, hf⟩
    rcases hold with ⟨u, hu⟩ | ⟨e, he, hef⟩
    · exact hcbs f (hwf.hand_lt (PC.hand_of_loose hu)) (h.loose u f hu)
    · exact hcbs f (hwf.queue e he f hef).1 (h.cbFiber e he f hef)

/-- A callback is scheduled. -/
theorem schedule {s : State (Cont C)} (h : Tidy s) (k : Cont C) :
    Tidy (s.schedule (some (.cb k)) (-1)) := by
  have hold : ∀ {e : FiberAndThread (Cont C)} {f : Nat},
      e ∈ (s.schedule (some (.cb k)) (-1)).fibers → e.task = .fiber f → e ∈ s.fibers := by
    intro e f he hf
    rw [State.schedule_fibers, mem_scheduleNoLock] at he
    rcases he with he | ⟨t, ht, rfl⟩
    · exact he
    · cases ht
      cases hf
  refine ⟨fun e he => ?_, ?_, fun e he f hf => h.ready e (hold he hf) f hf,
    fun e he f hf => h.hand e (hold he hf) f hf, fun e he f hf => h.cbFiber e (hold he hf) f hf,
    h.loose⟩
  · rw [State.schedule_fibers, mem_scheduleNoLock] at he
    rcases he with he | ⟨t, -, rfl⟩
    · exact h.thread e he
    · rfl
  · show (queuedFibers (s.fibers ++ [⟨.cb k, -1⟩])).Nodup
    -- the new entry holds no fiber
    rw [queuedFibers_append]
    simpa [Task.fiber?] using h.nodup

/-- The worker that has fiber `f` in hand puts it back into the queue. -/
theorem requeue {s : State (Cont C)} {owner : Nat → Option Nat} (h : Tidy s) (hwf : WellFormed s)
    (hown : Owned (fun _ => True) none Employed s owner) {w : Nat} {b : Branch} {f : Nat}
    (hpc : (s.workers w).pc = .on b f .requeue) :
    Tidy ((s.schedule (some (.fiber f)) (-1)).setWorker w
      { s.workers w with
        pc := .scan, cbFiber := if b = .cb then none else (s.workers w).cbFiber }) := by
  generalize hy : ({ s.workers w with
    pc := .scan, cbFiber := if b = .cb then none else (s.workers w).cbFiber } : Worker (Cont C)) = y
  have hscan : y.pc = .scan := by rw [← hy]
  have hcbFiber : y.cbFiber = if b = .cb then none else (s.workers w).cbFiber := by rw [← hy]
  have hhand : (s.workers w).pc.hand = some f := by rw [hpc]; rfl
  have hready : (s.heap f).state = .ready := (hown.on w b f _ trivial hpc).1.2
  have hnew : ∀ e ∈ s.fibers, e.task ≠ .fiber f := fun e he hef => h.hand e he f hef w hhand
  -- nobody keeps `f` as `cb_fiber` after this step
  have hcb : ∀ v, (Function.update s.workers w y v).cbFiber ≠ some f := by
    intro v hv
    have hfits : b ≠ .idle := (hwf.worker w).fits b f _ hpc
    by_cases hvw : v = w
    · rw [hvw, Function.update_self, hcbFiber] at hv
      cases b with
      | task => exact h.loose w f (by rw [hpc]; rfl) w hv
      | cb => cases hv
      | idle => exact hfits rfl
    · rw [Function.update_of_ne hvw] at hv
      cases b with
      | task => exact h.loose w f (by rw [hpc]; rfl) v hv
      | cb => exact hvw (hwf.cb_inj v w f hv ((hwf.worker w).cbBranch f _ hpc))
      | idle => exact hfits rfl
  have hsub : ∀ v g, (Function.update s.workers w y v).cbFiber = some g →
      (s.workers v).cbFiber = some g := by
    intro v g hv
    by_cases hvw : v = w
    · rw [hvw, Function.update_self, hcbFiber] at hv
      split at hv
      · cases hv
      · rw [hvw]
        exact hv
    · rwa [Function.update_of_ne hvw] at hv
  -- `w` has nothing in hand after it
  have hands : ∀ v g, (Function.update s.workers w y v).pc.hand = some g →
      v ≠ w ∧ (s.workers v).pc.hand = some g := by
    intro v g hv
    by_cases hvw : v = w
    · rw [hvw, Function.update_self, hscan] at hv
      cases hv
    · rw [Function.update_of_ne hvw] at hv
      exact ⟨hvw, hv⟩
  have hmem : ∀ {e : FiberAndThread (Cont C)},
      e ∈ (s.schedule (some (.fiber f)) (-1)).fibers → e ∈ s.fibers ∨
        e = ⟨.fiber f, -1⟩ := by
    intro e he
    rw [State.schedule_fibers, mem_scheduleNoLock] at he
    rcases he with he | ⟨t, ht, rfl⟩
    · exact .inl he
    · cases ht
      exact .inr rfl
  refine ⟨fun e he => ?_, ?_, fun e he g hg => ?_, fun e he g hg v hv => ?_,
    fun e he g hg v hv => ?_, fun v g hg u hu => ?_⟩
  · rcases hmem he with he | rfl
    · exact h.thread e he
    · rfl
  · show (queuedFibers (s.fibers ++ [⟨.fiber f, -1⟩])).Nodup
    rw [queuedFibers_append]
    apply List.Nodup.append h.nodup (List.nodup_singleton f)
    intro g hg hgf
    obtain ⟨e, he, hef⟩ := mem_queuedFibers.mp hg
    rw [List.mem_singleton.mp hgf] at hef
    exact hnew e he hef
  · rcases hmem he with he | rfl
    · exact h.ready e he g hg
    · cases hg
      exact hready
  · obtain ⟨hvw, hv⟩ := hands v g hv
    rcases hmem he with he | rfl
    · exact h.hand e he g hg v hv
    · cases hg
      exact hvw (hown.inj v w f trivial hv hhand)
  · rcases hmem he with he | rfl
    · exact h.cbFiber e he g hg v (hsub v g hv)
    · cases hg
      exact hcb v hv
  · have hloose : (s.workers v).pc.loose = some g := by
      have hg : (Function.update s.workers w y v).pc.loose = some g := hg
      by_cases hvw : v = w
      · rw [hvw, Function.update_self, hscan] at hg
        cases hg
      · rwa [Function.update_of_ne hvw] at hg
    exact h.loose v g hloose u (hsub u g hu)

/-- The queue keeps to what the scheduler's own steps put into it. -/
theorem move [DecidableEq C] {prog : C → Body C} {s s' : State (Cont C)} {l : Label (Cont C)}
    {owner : Nat → Option Nat} (h : Tidy s) (hwf : WellFormed s)
    (hown : Owned (fun _ => True) none Employed s owner) (hidle : IdleOk true s)
    (hext : ∀ fc thread, l = .ext (.schedule fc thread) → thread = -1 ∧
      ∃ k, fc = some (.cb k))
    (hm : Move (callbacks prog) s l s') : Tidy s' := by
  -- a fiber in hand is not queued, and may change
  have away :
      ∀ {w f}, (s.workers w).pc.hand = some f → ∀ e ∈ s.fibers, e.task ≠ .fiber f :=
    fun hw e he hef => h.hand e he _ hef _ hw
  have same :
      ∀ e ∈ s.fibers, ∀ f, e.task = .fiber f → (s.heap f).state = (s.heap f).state :=
    fun _ _ _ _ => rfl
  have other : ∀ {f : Nat} (x : Fiber (Cont C)), (∀ e ∈ s.fibers, e.task ≠ .fiber f) →
      ∀ e ∈ s.fibers, ∀ g, e.task = .fiber g →
        ((s.setFiber f x).heap g).state = (s.heap g).state := by
    intro f x hf e he g hg
    rw [s.setFiber_ne f g x fun heq => hf e he (heq ▸ hg)]
  have alloc : ∀ (x : Fiber (Cont C)), ∀ e ∈ s.fibers, ∀ g, e.task = .fiber g →
      ((s.alloc x).heap g).state = (s.heap g).state := by
    intro x e he g hg
    rw [s.alloc_ne g x (Nat.ne_of_lt (hwf.queue e he g hg).1)]
  cases hm with
  | fails _ => exact ⟨h.thread, h.nodup, h.ready, h.hand, h.cbFiber, h.loose⟩
  | owner _ hf =>
    have hcbs : ∀ f, (∀ v, (s.workers v).cbFiber ≠ some f) →
        ∀ v, (s'.workers v).cbFiber ≠ some f :=
      fun f hcb v hv => hcb v (hf.of_worker Worker.cbFiber (fun _ => rfl) hv)
    refine ⟨?_, ?_, ?_, fun e he f hef v hv => ?_, fun e he f hef => ?_, fun w f hw => ?_⟩
    · rw [hf.fibers]
      exact h.thread
    · rw [hf.fibers]
      exact h.nodup
    · rw [hf.fibers, hf.heap]
      exact h.ready
    · rw [hf.fibers] at he
      exact h.hand e he f hef v (hf.of_worker (fun x => x.pc.hand) (fun _ => rfl) hv)
    · rw [hf.fibers] at he
      exact hcbs f (h.cbFiber e he f hef)
    · exact hcbs f (h.loose w f (hf.of_worker (fun x => x.pc.loose) (fun _ => rfl) hw))
  | @extSchedule fc thread _ =>
    -- by assumption the outside schedules callbacks only
    obtain ⟨rfl, k, rfl⟩ := hext fc thread rfl
    exact h.schedule k
  | @extNew k =>
    refine ⟨h.thread, h.nodup, fun e he f hef => ?_, h.hand, h.cbFiber, h.loose⟩
    rw [alloc _ e he f hef]
    exact h.ready e he f hef
  | @prelude w _ =>
    exact h.setWorker hwf (w := w) (List.Sublist.refl _) rfl (alloc _) nofun (fun f => .inl) nofun
  | @scanNone w _ _ =>
    exact h.setWorker hwf (w := w) (List.Sublist.refl _) rfl same nofun (fun f => .inl) nofun
  | @scanSome w e q _ hq =>
    obtain ⟨pre, post, hfib, rfl, -, -⟩ := scanQueue_some hq
    have hsub : (pre ++ post).Sublist s.fibers := by
      rw [hfib]
      exact (List.Sublist.refl pre).append (List.sublist_cons_self e post)
    have htask : ∀ {f}, (PC.check (some e.task)).hand = some f → e.task = .fiber f := by
      intro f hf
      match ht : e.task, hf with
      | .fiber g, hf => cases hf; rfl
    -- the entry taken is gone from the list, and stood in it once
    refine h.setWorker hwf (w := w) hsub rfl (fun _ _ _ _ => rfl) ?_ (fun f => .inl) ?_
    · intro f hf
      exact not_mem_of_nodup (hfib ▸ h.nodup) (htask hf)
    · intro f hf
      exact .inr ⟨e, by simp [hfib], htask (PC.hand_of_loose hf)⟩
  | @checkNone w _ =>
    exact h.setWorker hwf (w := w) (List.Sublist.refl _) rfl same nofun (fun f => .inl) nofun
  | @checkDone w f _ _ =>
    exact h.setWorker hwf (w := w) (List.Sublist.refl _) rfl same nofun (fun f => .inl) nofun
  | @checkFiber w f hpc _ =>
    refine h.setWorker hwf (w := w) (List.Sublist.refl _) rfl same ?_ (fun f => .inl) ?_
    · rintro g ⟨⟩
      exact away (by rw [hpc]; rfl)
    · rintro g ⟨⟩
      exact .inl (by rw [hpc]; rfl)
  | @checkCb w k _ =>
    exact h.setWorker hwf (w := w) (List.Sublist.refl _) rfl same nofun (fun f => .inl) nofun
  | @prepareOld w k g _ hg _ =>
    -- what a worker keeps for a callback is not queued
    have hfree : ∀ e ∈ s.fibers, e.task ≠ .fiber g :=
      fun e he hef => h.cbFiber e he g hef w hg
    refine h.setWorker hwf (w := w) (List.Sublist.refl _) rfl (other _ hfree) ?_
      (fun f => .inl) nofun
    rintro f ⟨⟩
    exact hfree
  | @prepareNew w k _ _ =>
    refine h.setWorker hwf (w := w) (List.Sublist.refl _) rfl (alloc _) ?_ ?_ nofun
    · rintro f ⟨⟩ e he hef
      exact Nat.lt_irrefl _ (hwf.queue e he _ hef).1
    · rintro f ⟨⟩
      exact .inr rfl
  | @idleExit w f _ _ _ =>
    exact h.setWorker hwf (w := w) (List.Sublist.refl _) rfl same nofun (fun f => .inl) nofun
  | @idleEnter w f _ hf _ =>
    refine h.setWorker hwf (w := w) (List.Sublist.refl _) rfl same ?_ (fun f => .inl) nofun
    -- an idle fiber is never queued
    rintro g ⟨⟩ e he hef
    have hkind := ((hwf.worker w).idle f hf).2
    rw [(hwf.queue e he f hef).2] at hkind
    cases hkind
  | @fiber w b f ph x ph' hpc _ =>
    have hfree := away (w := w) (f := f) (by rw [hpc]; rfl)
    refine h.setWorker hwf (w := w) (List.Sublist.refl _) rfl (other x hfree) ?_ (fun f => .inl) ?_
    · rintro g ⟨⟩
      exact hfree
    · intro g hg
      rw [hpc]
      cases b <;> exact .inl hg
  | @decrement w b f hpc _ =>
    refine h.setWorker hwf (w := w) (List.Sublist.refl _) rfl same ?_ (fun f => .inl) ?_
    · rintro g ⟨⟩
      exact away (by rw [hpc]; rfl)
    · intro g hg
      rw [hpc]
      cases b <;> exact .inl hg
  | requeue hpc => exact h.requeue hwf hown hpc
  | @leave w b f _ _ _ =>
    exact h.setWorker hwf (w := w) (List.Sublist.refl _) rfl same nofun (fun f => .inl) nofun
  | @setHold w b f hpc =>
    -- the fiber put on hold is not queued
    have hfree := away (w := w) (f := f) (by rw [hpc]; rfl)
    refine h.setWorker hwf (w := w) (List.Sublist.refl _) rfl (other _ hfree) nofun ?_ nofun
    intro g hg
    simp only at hg
    split at hg
    · cases hg
    · exact .inl hg
  | @recycle w b f hpc _ =>
    have hfree := away (w := w) (f := f) (by rw [hpc]; rfl)
    exact h.setWorker hwf (w := w) (List.Sublist.refl _) rfl (other _ hfree) nofun
      (fun f => .inl) nofun
  | @code w b f c c' a x ph' hpc _ _ _ =>
    have hfree := away (w := w) (f := f) (by rw [hpc]; rfl)
    refine h.setWorker hwf (w := w) (List.Sublist.refl _) rfl (other x hfree) ?_ (fun f => .inl) ?_
    · rintro g ⟨⟩
      exact hfree
    · intro g hg
      rw [hpc]
      cases b <;> exact .inl hg
  | @codeSchedule w b f c c' fc thread hpc hc _ =>
    -- first the worker goes on, then the callback is scheduled
    have hgo : Tidy (s.setPC w (.on b f (.inside (.body c')))) := by
      refine h.setWorker hwf (w := w) (List.Sublist.refl _) rfl same ?_ (fun f => .inl) ?_
      · rintro g ⟨⟩
        exact away (by rw [hpc]; rfl)
      · intro g hg
        rw [hpc]
        cases b <;> exact .inl hg
    obtain ⟨k, rfl, rfl⟩ := scheduled_cb hwf hown hidle hpc hc
    exact hgo.schedule k
  | @codeNew w b f c c' k hpc _ =>
    refine h.setWorker hwf (w := w) (List.Sublist.refl _) rfl (alloc _) ?_ (fun f => .inl) ?_
    · rintro g ⟨⟩
      exact away (by rw [hpc]; rfl)
    · intro g hg
      rw [hpc]
      cases b <;> exact .inl hg

/-- Nobody has the fiber in hand that a worker takes up. -/
theorem takesFree {s : State (Cont C)} (h : Tidy s) (hwf : WellFormed s) (l : Label (Cont C)) :
    TakesFree s l := by
  cases l with
  | work w =>
    intro f hf v _ hv
    have hf : s.takes w = some f := hf
    unfold State.takes at hf
    split at hf
    · next hpc =>
      split at hf
      · next g thread q hq =>
        cases hf
        -- what is queued is in nobody's hand
        obtain ⟨pre, post, hfib, -⟩ := scanQueue_some hq
        exact h.hand ⟨.fiber f, thread⟩ (by simp [hfib]) f rfl v hv
      · cases hf
    · next k hpc =>
      -- the `cb_fiber` of this worker
      match hpv : (s.workers v).pc, hv with
      | .check (some (.fiber g)), hv =>
        cases hv
        exact h.loose v f (by rw [hpv]; rfl) w hf
      | .on .task g ph, hv =>
        cases hv
        exact h.loose v f (by rw [hpv]; rfl) w hf
      | .on .cb g ph, hv =>
        cases hv
        -- it would be the `cb_fiber` of both, but `w` is not in its callback branch
        obtain rfl := hwf.cb_inj v w f ((hwf.worker v).cbBranch f ph hpv) hf
        rw [hpc] at hpv
        cases hpv
      | .on .idle g ph, hv =>
        cases hv
        have hkind := (hwf.on_lt hpv).2.mpr rfl
        rw [((hwf.worker w).cb f hf).2] at hkind
        cases hkind
    · cases hf
  | _ => trivial

/-- What is dequeued is `READY`. -/
theorem takesRipe {s : State (Cont C)} (h : Tidy s) (l : Label (Cont C)) :
    TakesRipe (fun x => x.state = .ready) s l := by
  intro f hf
  obtain ⟨w, e, q, -, -, hq, htask⟩ := event_take hf
  obtain ⟨pre, post, hfib, -⟩ := scanQueue_some hq
  exact h.ready e (by simp [hfib]) f htask

end Tidy

end Gwn.Scheduler
