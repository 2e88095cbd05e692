import Gwn.Scheduler.Exclusive

/-! # No lost fiber

    A fiber that yielded `READY`, or was scheduled since it was last dequeued,
    must be run again. The bookkeeping of `run` requeues it if it finds `READY`,
    and otherwise writes `HOLD` over whatever state it finds, without a lock: if
    the fiber has been taken up by a second worker in the meantime, that worker
    finds `HOLD` instead of the `READY` it was left in, and the fiber is lost
    (`not_nothingLost`). As long as only free fibers are taken up, none is. -/

namespace Gwn.Scheduler

open LTS

variable {K : Type} {P : Prog K}

/-! ### What a fiber is due -/

/-- Why a fiber has to be run again. -/
structure Due where
  /-- Its last yield was `YieldToReady`. -/
  lastReady : Bool
  /-- `schedule(f)` was called after it was last dequeued. -/
  pending : Bool
deriving DecidableEq

def Due.none : Due :=
  { lastReady := false, pending := false }

/-- A fiber that is reset has not yielded yet. -/
def Due.after : Due → Event K → Due
  | d, .schedule => { d with pending := true }
  | d, .take => { d with pending := false }
  | d, .prepare _ | d, .recycle | d, .yieldToHold => { d with lastReady := false }
  | d, .yieldToReady => { d with lastReady := true }

/-- The history agrees with the state of the fiber, by where it stands in `run`.
    Of an idle fiber only its branch is known: the idle branch never requeues. -/
def Kept : Pos K → Fiber K → Due → Prop
  | .free, x, d =>
    x.idle = false → d.lastReady = true → x.state.finished = false → d.pending = true
  | .checked, _, _ => True
  | .on b ph, x, d => (b = .idle → x.idle = true) ∧ match ph with
    | .yielding st _ => d.lastReady = true → st = .ready
    | .switchOut _ | .returned | .testReady | .requeue | .testDone | .setHold =>
      d.lastReady = true → x.state = .ready ∨ x.state.finished = true
    | _ => True

theorem Kept.fiberMove {b : Branch} {x x' : Fiber K} {ph ph' : Phase K} {d : Due}
    (h : Kept (.on b ph) x d) (hm : FiberMove b x ph x' ph') : Kept (.on b ph') x' d := by
  obtain ⟨hb, h⟩ := h
  refine ⟨hm.idle_eq ▸ hb, ?_⟩
  cases hm with
  | callEmpty _ => exact fun _ => .inr rfl
  | yield st c => exact fun hd => .inl (h hd)
  | save p => exact h
  | back _ => exact h
  | isReady _ => exact h
  | notReady _ => exact h
  | notDone _ => exact h
  | _ => trivial

theorem local_kept (P : Prog K) : Local P (fun _ _ => True) (fun _ => True) Due.none Due.after
    fun p x d => Consistent p x ∧ Kept p x d := by
  have hcons := local_consistent P (fun _ _ => True) (fun _ => True) Due.none Due.after
  exact {
    new k := ⟨hcons.new k, fun _ => nofun⟩
    newIdle := ⟨hcons.newIdle, nofun⟩
    schedule p x d h := by
      refine ⟨h.1, ?_⟩
      have hkept := h.2
      cases p with
      | free => exact fun _ _ _ => rfl
      | checked => trivial
      | on b ph => cases ph <;> exact hkept
    take x d h hidle hx hripe := ⟨hcons.take x d h.1 hidle hx hripe, trivial⟩
    checkDone x d h hx := by
      refine ⟨hcons.checkDone x d h.1 hx, fun _ _ hfin => ?_⟩
      rw [hx] at hfin
      cases hfin
    checkFiber x d h hx := ⟨hcons.checkFiber x d h.1 hx, nofun, trivial⟩
    prepareNew k := ⟨hcons.prepareNew k, nofun, trivial⟩
    prepareOld x k d h hidle hx := ⟨hcons.prepareOld x k d h.1 hidle hx, nofun, trivial⟩
    idleEnter x d h hidle hx := ⟨hcons.idleEnter x d h.1 hidle hx, fun _ => hidle, trivial⟩
    fiber b x ph x' ph' d h hm := ⟨hcons.fiber b x ph x' ph' d h.1 hm, h.2.fiberMove hm⟩
    decrement b x d h hb := ⟨hcons.decrement b x d h.1 hb, h.2⟩
    requeue b x d h := ⟨hcons.requeue b x d h.1, fun _ _ _ => rfl⟩
    leave b x d h hb hx := by
      refine ⟨hcons.leave b x d h.1 hb hx, fun _ _ hfin => ?_⟩
      rw [hx] at hfin
      cases hfin
    setHold b x d h := by
      refine ⟨hcons.setHold b x d h.1, fun hidle hd _ => ?_⟩
      -- a fiber in `HOLD` did not yield `READY`
      obtain ⟨⟨-, hst⟩, hb, hready⟩ := h
      rcases hst with hst | ⟨hb', -⟩
      · rcases hready hd with h' | h' <;> rw [hst] at h' <;> cases h'
      · have hx : x.idle = false := hidle
        rw [hb hb'] at hx
        cases hx
    recycle b x d h hx := ⟨hcons.recycle b x d h.1 hx, fun _ => nofun⟩
    goOn b c c' a x d h hc ha := ⟨hcons.goOn b c c' a x d h.1 hc ha, h.2⟩
    yieldToReady b c c' x d h hc ha hx :=
      ⟨hcons.yieldToReady b c c' x d h.1 hc ha hx, h.2.1, fun _ => rfl⟩
    yieldToHold b c c' x d h hc ha hx :=
      ⟨hcons.yieldToHold b c c' x d h.1 hc ha hx, h.2.1, nofun⟩
    ret b c c' x d h hc ha := ⟨hcons.ret b c c' x d h.1 hc ha, h.2.1, fun _ => .inr rfl⟩
    throw b c c' x d h hc ha := ⟨hcons.throw b c c' x d h.1 hc ha, h.2.1, fun _ => .inr rfl⟩ }

/-! ### The queue -/

/-- There is an entry for fiber `f`. -/
def State.Queued (s : State K) (f : Nat) : Prop :=
  ∃ e ∈ s.fibers, e.task = .fiber f

/-- Entries for `f` only leave the queue when `f` is dequeued. -/
theorem Move.queued {s s' : State K} {l : Label K} (hm : Move P s l s') {f : Nat}
    (hf : s.Queued f) (hl : s.event l ≠ some (f, .take)) : s'.Queued f := by
  obtain ⟨e, he, hef⟩ := hf
  have hadd : ∀ fc thread, ∃ x ∈ scheduleNoLock s.fibers fc thread, x.task = .fiber f :=
    fun fc thread => ⟨e, mem_scheduleNoLock.mpr (.inl he), hef⟩
  cases hm with
  | owner _ hframe => exact ⟨e, hframe.fibers ▸ he, hef⟩
  | extSchedule _ => exact hadd _ _
  | codeSchedule _ _ _ => exact hadd _ _
  | @requeue w b g _ => exact hadd (some (.fiber g)) (-1)
  | @scanSome w x q hpc hq =>
    obtain ⟨pre, post, hfib, rfl, -, -⟩ := scanQueue_some hq
    have hne : e ≠ x := by
      rintro rfl
      obtain ⟨task, thread⟩ := e
      cases hef
      exact hl (by simp [State.event, hpc, hq])
    rw [hfib] at he
    refine ⟨e, ?_, hef⟩
    show e ∈ pre ++ post
    simpa [hne] using he
  | _ => exact ⟨e, he, hef⟩

/-- The three places that call `schedule(f)`. -/
theorem event_schedule {s : State K} {l : Label K} {f : Nat}
    (hl : s.event l = some (f, .schedule)) :
    (∃ thread, l = .ext (.schedule (some (.fiber f)) thread) ∨
      ∃ w, l = .act w (.schedule (some (.fiber f)) thread)) ∨
    ∃ w b, l = .work w ∧ (s.workers w).pc = .on b f .requeue := by
  unfold State.event at hl
  split at hl
  · cases hl
    exact .inl ⟨_, .inl rfl⟩
  · cases hl
    exact .inl ⟨_, .inr ⟨_, rfl⟩⟩
  · split at hl
    · split at hl <;> cases hl
    · cases hl
  · split at hl
    · split at hl <;> cases hl
    · cases hl
  · next w =>
    split at hl
    · split at hl <;> cases hl
    · split at hl
      · split at hl <;> cases hl
      · cases hl
    · next b g hpc =>
      cases hl
      exact .inr ⟨w, b, rfl, hpc⟩
    · split at hl <;> cases hl
    · cases hl
  · cases hl

/-- `schedule(f)` leaves an entry for `f`. -/
theorem step_scheduled {s s' : State K} {l : Label K} (hstep : step P s l = some s') {f : Nat}
    (hl : s.event l = some (f, .schedule)) : s'.Queued f := by
  have hlast : ∀ thread, (⟨.fiber f, thread⟩ : FiberAndThread K) ∈
      scheduleNoLock s.fibers (some (.fiber f)) thread := by
    intro thread
    simp
  obtain ⟨hnone, hm⟩ := step_move hstep
  rcases event_schedule hl with ⟨thread, rfl | ⟨w, rfl⟩⟩ | ⟨w, b, rfl, hpc⟩
  · cases hm with
    | fails hf => cases hf
    | owner hown _ => simp at hown
    | extSchedule _ => exact ⟨_, hlast thread, rfl⟩
  · cases hm with
    | fails hf => cases hf with | yieldNotExec _ ha _ => simp at ha
    | owner hown _ => simp at hown
    | code _ _ hx _ => cases hx
    | codeSchedule _ _ _ => exact ⟨_, hlast thread, rfl⟩
  · have hfib : s'.fibers = scheduleNoLock s.fibers (some (.fiber f)) (-1) := by
      cases b <;> simp [step, hnone, workStep, hpc, phaseStep] at hstep <;> rw [← hstep] <;> rfl
    exact ⟨_, hfib ▸ hlast (-1), rfl⟩

/-- A fiber with a call of `schedule` pending is queued. -/
theorem step_pending {s s' : State K} {l : Label K} {due : Nat → Due}
    (hstep : step P s l = some s') (h : ∀ f, (due f).pending = true → s.Queued f) (f : Nat)
    (hf : (advance Due.after due s l f).pending = true) : s'.Queued f := by
  by_cases hsched : s.event l = some (f, .schedule)
  · exact step_scheduled hstep hsched
  · -- nothing but `schedule` makes it pending, and the dequeue ends it
    have hkeep : (due f).pending = true ∧ s.event l ≠ some (f, .take) := by
      cases hl : s.event l with
      | none =>
        rw [advance_none hl] at hf
        exact ⟨hf, nofun⟩
      | some ge =>
        obtain ⟨g, e⟩ := ge
        rw [advance_some hl] at hf
        by_cases hfg : f = g
        · subst hfg
          rw [Function.update_self] at hf
          cases e <;> simp_all [Due.after]
        · rw [Function.update_of_ne hfg] at hf
          refine ⟨hf, ?_⟩
          intro heq
          cases heq
          exact hfg rfl
    exact (step_move hstep).2.queued (h f hkeep.1) hkeep.2

/-! ### Nothing is lost -/

/-- The worker is running `f`, or about to run it or to requeue it. -/
def PC.carries (f : Nat) : PC K → Prop
  | .check (some (.fiber g)) => g = f
  | .on _ _ .testDone | .on _ _ .setHold | .on _ _ .recycle => False
  | .on _ g _ => g = f
  | _ => False

structure NothingLost (s : State K) (due : Nat → Due) : Prop where
  /-- A fiber that is due is queued, or carried by a worker and in no other hand. -/
  kept : ∀ f, f < s.nfib → (s.heap f).idle = false → (s.heap f).state.finished = false →
    (due f).lastReady = true ∨ (due f).pending = true →
    s.Queued f ∨ ∃ w, (s.workers w).pc.carries f ∧
      ∀ w', (s.workers w').pc.hand = some f → w' = w
  /-- `setState(HOLD)` overwrites nothing but `HOLD`. -/
  hold : ∀ w b f, (s.workers w).pc = .on b f .setHold → b ≠ .idle → (s.heap f).state = .hold

theorem Owned.nothingLost {s : State K} {due : Nat → Due}
    (h : Owned (fun _ => True) Due.none (fun p x d => Consistent p x ∧ Kept p x d) s due)
    (hqueue : ∀ f, (due f).pending = true → s.Queued f) : NothingLost s due := by
  constructor
  · intro f hlt hidle hfin hdue
    by_cases hpending : (due f).pending = true
    · exact .inl (hqueue f hpending)
    have hready : (due f).lastReady = true := hdue.resolve_right hpending
    by_cases hfree : ∀ w, (s.workers w).pc.hand ≠ some f
    · exact absurd ((h.free f trivial hlt hfree).2 hidle hready hfin) hpending
    · -- in the hand of `w`: the phases that do not carry it have seen another state
      rw [not_forall_not] at hfree
      obtain ⟨w, hw⟩ := hfree
      refine .inr ⟨w, ?_, fun w' hw' => h.inj w' w f trivial hw' hw⟩
      match hpc : (s.workers w).pc, hw with
      | .check (some (.fiber g)), hw => exact Option.some.inj hw
      | .on b g ph, hw =>
        obtain rfl : g = f := Option.some.inj hw
        obtain ⟨hcons, hb, hkept⟩ := h.on w b g ph trivial hpc
        have hne : b ≠ .idle := by
          rintro rfl
          rw [hb rfl] at hidle
          cases hidle
        cases ph with
        | testDone =>
          rcases hkept hready with hst | hst
          · exact hcons.2.2 hne hst
          · exact absurd (hfin.symm.trans hst) nofun
        | setHold =>
          have hst := hcons.2.resolve_right fun h => hne h.1
          rcases hkept hready with h' | h' <;> rw [hst] at h' <;> cases h'
        | recycle => exact absurd (hfin.symm.trans hcons.2) nofun
        | _ => rfl
  · intro w b f hpc hb
    exact (h.on w b f _ trivial hpc).1.2.resolve_right fun h => hb h.1

/-- The scheduler with the history of every fiber. -/
def withDue (sys : System (State K) (Label K)) : System (State K × (Nat → Due)) (Label K) :=
  sys.withHistory (fun _ => .none) (advance Due.after)

/-- For any number of workers, any code and any interleaving: as long as no worker
    takes up a fiber that another one has in hand, no fiber is lost. -/
theorem nothing_lost {threads : Nat} {useCaller : Bool} {caller : Int}
    {p : State K × (Nat → Due)}
    (h : (withDue ((scheduler P threads useCaller caller).restrict TakesFree)).Reachable p) :
    NothingLost p.1 p.2 := by
  have hinv :
      ∀ p, (withDue ((scheduler P threads useCaller caller).restrict TakesFree)).Reachable p →
      Owned (fun _ => True) Due.none (fun p x d => Consistent p x ∧ Kept p x d) p.1 p.2 ∧
        ∀ f, (p.2 f).pending = true → p.1.Queued f := by
    refine System.invariant_of (J := fun p => WellFormed p.1) ?_ ⟨Owned.initial _ _ _, nofun⟩ ?_
    · intro p hp
      exact wellFormed_reachable hp.of_history.of_restrict
    · rintro ⟨s, due⟩ l ⟨s', due'⟩ hwf ⟨hown, hqueue⟩ hstep
      obtain ⟨hstep, rfl⟩ := System.withHistory_step.mp hstep
      obtain ⟨hfree, hstep⟩ := System.restrict_step.mp hstep
      have hm := (step_move hstep).2
      have hown' := hown.move (local_kept P) hwf (fun _ => hfree) (fun _ => takesRipe_true s l)
        (keeps_true s l) hm
      exact ⟨hown', step_pending hstep hqueue⟩
  obtain ⟨hown, hqueue⟩ := hinv p h
  exact hown.nothingLost hqueue

/-- Worker 0 has run a fiber up to its `YieldToHold` and is about to write `HOLD`;
    the fiber is scheduled, worker 1 runs it up to its `YieldToReady`; the `HOLD`
    is written; worker 1 does its bookkeeping. -/
def overwritten : List (Label Script) :=
  [.start [7, 8], .ext (.newFiber (.yieldToHold (.yieldToReady .ret)) 0),
    .ext (.schedule (some (.fiber 0)) (-1)), .work 0, .work 0, .work 0, .work 0, .work 0, .work 0,
    .work 0, .act 0 .yieldToHold, .work 0, .work 0, .work 0, .work 0, .work 0,
    .ext (.schedule (some (.fiber 0)) (-1)), .work 1, .work 1, .work 1, .work 1, .work 1, .work 1,
    .act 1 .yieldToReady, .work 1, .work 1, .work 1, .work 0, .work 1, .work 1, .work 1]

/-- Worker 1 finds `HOLD` and does not requeue: the fiber is in no queue and no hand. -/
theorem not_nothingLost :
    ¬ ∀ p, (withDue (scheduler scripted 2 false 0)).Reachable p → NothingLost p.1 p.2 := by
  intro h
  have hrun : ((withDue (scheduler scripted 2 false 0)).exec
      (withDue (scheduler scripted 2 false 0)).init overwritten).isSome := by decide
  have hreach := System.reachable_get overwritten hrun
  have hdue := (h _ hreach).kept 0 (Nat.succ_pos 2) rfl rfl (.inl rfl)
  rcases hdue with ⟨e, he, -⟩ | ⟨w, hw, -⟩
  · exact absurd he List.not_mem_nil
  · -- of the two workers one is at the top of its loop, the other one has let go as well
    have hwf : WellFormed _ := wellFormed_reachable hreach.of_history
    have hlt : w < 2 := hwf.lt_nworkers fun hpc => by rw [hpc] at hw; exact hw
    match w, hlt, hw with
    | 0, _, hw => exact hw
    | 1, _, hw => exact hw

theorem nothing_lost_handedOver :
    ∃ p, (withDue ((scheduler scripted 2 false 0).restrict TakesFree)).exec
        (.initial 2 false 0, fun _ => .none) handedOver = some p ∧
      (p.2 0).lastReady = true ∧ NothingLost p.1 p.2 := by
  have hrun : ((withDue ((scheduler scripted 2 false 0).restrict TakesFree)).exec
      (.initial 2 false 0, fun _ => .none) handedOver).isSome := by decide
  exact ⟨_, (Option.some_get hrun).symm, rfl,
    nothing_lost (P := scripted) (System.reachable_get handedOver hrun)⟩

end Gwn.Scheduler
