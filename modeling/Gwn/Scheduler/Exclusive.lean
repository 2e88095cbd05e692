import Gwn.Scheduler.Owned

/-! # Mutual exclusion of fibers

    In a run that only takes up free fibers (`TakesFree`), state and context of
    every fiber are what `run`, `swapIn` and `swapOut` take them to be
    (`Consistent`), and so no two workers execute one context and the assertions
    on `EXEC` hold. Without the condition two workers can be in one fiber
    (`not_mutual_exclusion`). -/

namespace Gwn.Scheduler

open LTS

variable {K : Type} {P : Prog K}

/-! ### States and contexts -/

/-- The states in which a context is left. -/
def FiberState.left : FiberState → Bool
  | .ready | .hold | .term | .except => true
  | _ => false

/-- State and context of a fiber, by where it stands in `run`. In the idle branch
    a fiber that yielded `READY` is not told from one that yielded `HOLD`. -/
def Consistent : Pos K → Fiber K → Prop
  | .free, x | .checked, x => x.saved = true ∧ x.state ≠ .exec
  | .on b ph, x => match ph with
    | .assertNotExec | .setExec => x.saved = true ∧ x.state ≠ .exec
    | .switchIn => x.saved = true ∧ x.state = .exec
    | .inside _ => x.saved = false ∧ x.state = .exec
    | .yielding st _ => x.saved = false ∧ x.state = .exec ∧ (st = .ready ∨ st = .hold)
    | .switchOut _ => x.saved = false ∧ x.state.left = true
    | .returned | .testReady => x.saved = true ∧ x.state.left = true
    | .requeue => x.saved = true ∧ x.state = .ready
    | .testDone => x.saved = true ∧ x.state.left = true ∧ (b ≠ .idle → x.state ≠ .ready)
    | .setHold => x.saved = true ∧ (x.state = .hold ∨ b = .idle ∧ x.state = .ready)
    | .recycle => x.saved = true ∧ x.state.finished = true

theorem FiberState.left.not_exec {st : FiberState} (h : st.left = true) : st ≠ .exec := by
  rintro rfl
  cases h

/-- A fiber that is not finished when the bookkeeping tests it has yielded. -/
theorem FiberState.hold_or_ready {st : FiberState} (h : st.left = true)
    (hfin : st.finished = false) : st = .hold ∨ st = .ready := by
  cases st with
  | hold => exact .inl rfl
  | ready => exact .inr rfl
  | _ => simp_all [left, finished]

theorem Consistent.fiberMove {b : Branch} {x x' : Fiber K} {ph ph' : Phase K}
    (h : Consistent (.on b ph) x) (hm : FiberMove b x ph x' ph') :
    Consistent (.on b ph') x' := by
  cases hm with
  | assertNotExec _ => exact h
  | setExec => exact ⟨h.1, rfl⟩
  | switchIn => exact ⟨rfl, h.2⟩
  | call c _ => exact h
  | callEmpty _ => exact ⟨h.1, rfl⟩
  | yield st c =>
    obtain ⟨hsaved, -, hst⟩ := h
    refine ⟨hsaved, ?_⟩
    rcases hst with rfl | rfl <;> rfl
  | save p => exact ⟨rfl, h.2⟩
  | back hb => exact ⟨h.1, h.2, fun hne => absurd hb hne⟩
  | isReady hx => exact ⟨h.1, hx⟩
  | notReady hx => exact ⟨h.1, h.2, fun _ => hx⟩
  | notDone hx =>
    obtain ⟨hsaved, hleft, hready⟩ := h
    refine ⟨hsaved, ?_⟩
    rcases FiberState.hold_or_ready hleft hx with hst | hst
    · exact .inl hst
    · by_cases hb : b = .idle
      · exact .inr ⟨hb, hst⟩
      · exact absurd hst (hready hb)
  | isDone _ hx => exact ⟨h.1, hx⟩

/-- Whatever the code does and whatever is recorded of it. -/
theorem local_consistent {Γ : Type} (P : Prog K) (allowed : Branch → Act K → Prop)
    (ripe : Fiber K → Prop) (g₀ : Γ) (after : Γ → Event K → Γ) :
    Local P allowed ripe g₀ after fun p x _ => Consistent p x where
  new _ := ⟨rfl, nofun⟩
  newIdle := ⟨rfl, nofun⟩
  schedule _ _ _ h := h
  take _ _ h _ _ _ := h
  checkDone _ _ h _ := h
  checkFiber _ _ h _ := h
  prepareNew _ := ⟨rfl, nofun⟩
  prepareOld _ _ _ _ _ _ := ⟨rfl, nofun⟩
  idleEnter _ _ h _ _ := h
  fiber _ _ _ _ _ _ h hm := h.fiberMove hm
  decrement _ _ _ h _ := h
  requeue _ _ _ h := ⟨h.1, by rw [h.2]; exact nofun⟩
  leave _ _ _ h _ _ := ⟨h.1, FiberState.left.not_exec h.2.1⟩
  setHold _ _ _ h := ⟨h.1, nofun⟩
  recycle _ _ _ _ _ := ⟨rfl, nofun⟩
  goOn _ _ _ _ _ _ h _ _ := h
  yieldToReady _ _ _ _ _ h _ _ _ := ⟨h.1, h.2, .inl rfl⟩
  yieldToHold _ _ _ _ _ h _ _ _ := ⟨h.1, h.2, .inr rfl⟩
  ret _ _ _ _ _ h _ _ := ⟨h.1, rfl⟩
  throw _ _ _ _ _ h _ _ := ⟨h.1, rfl⟩

theorem takesRipe_true (s : State K) (l : Label K) : TakesRipe (fun _ => True) s l :=
  fun _ _ => trivial

theorem keeps_true (s : State K) (l : Label K) : Keeps (fun _ _ => True) s l :=
  fun _ _ _ _ _ _ _ => trivial

/-- In every run that only takes up free fibers, each fiber is in one hand at most
    and its state is what `run` and `swapIn` take it to be. -/
theorem owned_reachable {threads : Nat} {useCaller : Bool} {caller : Int} :
    ∀ s, ((scheduler P threads useCaller caller).restrict TakesFree).Reachable s →
      Owned (fun _ => True) () (fun p x _ => Consistent p x) s fun _ => () := by
  refine System.invariant_of (J := WellFormed) ?_ (Owned.initial threads useCaller caller) ?_
  · intro s hs
    exact wellFormed_reachable hs.of_restrict
  intro s l s' hwf hs hstep
  obtain ⟨hfree, hstep⟩ := System.restrict_step.mp hstep
  exact hs.move (local_consistent P _ _ () fun _ _ => ()) hwf (fun _ => hfree)
    (fun _ => takesRipe_true s l) (keeps_true s l) (step_move hstep).2

/-! ### Mutual exclusion -/

/-- The fiber whose context this worker executes: after the switch into it, until
    `swapOut` has saved it. -/
def PC.executing : PC K → Option Nat
  | .on _ f (.inside _) | .on _ f (.yielding _ _) | .on _ f (.switchOut _) => some f
  | _ => none

structure MutualExclusion (s : State K) : Prop where
  /-- No context is executed by two workers. -/
  context : ∀ w w' f, (s.workers w).pc.executing = some f →
    (s.workers w').pc.executing = some f → w = w'
  /-- A worker about to switch finds the context saved. -/
  saved : ∀ w b f, (s.workers w).pc = .on b f .switchIn → (s.heap f).saved = true
  /-- The assertions of `swapIn` and of the yields have not failed. -/
  asserts : ∀ f, s.fault ≠ some (.swapInExec f) ∧ s.fault ≠ some (.yieldNotExec f)

theorem PC.hand_of_executing {pc : PC K} {f : Nat} (h : pc.executing = some f) :
    pc.hand = some f := by
  unfold executing at h
  split at h
  · exact h
  · exact h
  · exact h
  · cases h

/-- The two assertions hold where they are evaluated. -/
theorem Owned.not_fails {s : State K} {past : Nat → Unit}
    (h : Owned (fun _ => True) () (fun p x _ => Consistent p x) s past) (l : Label K) (f : Nat) :
    ¬ Fails s l (.swapInExec f) ∧ ¬ Fails s l (.yieldNotExec f) := by
  constructor
  · intro hf
    cases hf with
    | swapInExec hpc hexec => exact (h.on _ _ f _ trivial hpc).2 hexec
  · intro hf
    cases hf with
    | yieldNotExec hpc _ hexec => exact hexec (h.on _ _ f _ trivial hpc).2

/-- For any number of workers, any code and any interleaving: as long as no worker
    takes up a fiber that another one has in hand, no context is executed twice or
    switched into before it is saved, and the assertions on `EXEC` hold. -/
theorem mutual_exclusion {threads : Nat} {useCaller : Bool} {caller : Int} {s : State K}
    (h : ((scheduler P threads useCaller caller).restrict TakesFree).Reachable s) :
    MutualExclusion s := by
  have howned := owned_reachable s h
  refine ⟨fun w w' f h₁ h₂ => ?_, fun w b f hpc => (howned.on w b f _ trivial hpc).1, ?_⟩
  · exact howned.inj w w' f trivial (PC.hand_of_executing h₁) (PC.hand_of_executing h₂)
  · -- the last step would have failed the assertion in a state that is owned as well
    intro f
    cases h with
    | init => exact ⟨nofun, nofun⟩
    | step l hr hstep =>
      have hbefore := owned_reachable _ hr
      obtain ⟨hnone, hmove⟩ := step_move (System.restrict_step.mp hstep).2
      constructor <;> intro hfault <;> have hfails := hmove.fault hnone hfault rfl
      · exact (hbefore.not_fails l f).1 hfails
      · exact (hbefore.not_fails l f).2 hfails

/-- Two workers take the two entries of a fiber that is still `INIT`. -/
def takenTwice : List (Label Script) :=
  [.start [7, 8], .ext (.newFiber .ret 0), .ext (.schedule (some (.fiber 0)) (-1)),
    .ext (.schedule (some (.fiber 0)) (-1)), .work 0, .work 0, .work 1, .work 1, .work 0, .work 1,
    .work 0, .work 1, .work 0, .work 1, .work 0, .work 1]

/-- Both scans and both assertions come before the first write of `EXEC`: the
    context of the fiber is executed by both workers. -/
theorem not_mutual_exclusion :
    ¬ ∀ s, (scheduler scripted 2 false 0).Reachable s → MutualExclusion s := by
  intro h
  have hexcl := h _ (System.reachable_get takenTwice (by decide))
  have heq : (0 : Nat) = 1 := hexcl.context 0 1 0 (by decide) (by decide)
  cases heq

/-- A fiber that another worker takes up again once the first one has let go of it. -/
def handedOver : List (Label Script) :=
  [.start [7, 8], .ext (.newFiber (.yieldToReady .ret) 0),
    .ext (.schedule (some (.fiber 0)) (-1)), .work 0, .work 0, .work 0, .work 0, .work 0, .work 0,
    .work 0, .act 0 .yieldToReady, .work 0, .work 0, .work 0, .work 0, .work 0, .work 1, .work 1,
    .work 1, .work 1, .work 1, .work 1]

theorem mutual_exclusion_handedOver :
    ∃ s, ((scheduler scripted 2 false 0).restrict TakesFree).exec (.initial 2 false 0) handedOver
        = some s ∧ (s.workers 1).pc.executing = some 0 ∧ MutualExclusion s := by
  have hrun : (((scheduler scripted 2 false 0).restrict TakesFree).exec (.initial 2 false 0)
      handedOver).isSome := by decide
  exact ⟨_, (Option.some_get hrun).symm, rfl,
    mutual_exclusion (System.reachable_get handedOver hrun)⟩

end Gwn.Scheduler
