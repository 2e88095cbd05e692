import Gwn.Scheduler.WellFormed

/-! # One worker at a time

    `run` tests a fiber against `EXEC` under the queue lock, but the fiber is
    marked `EXEC` only later, in `swapIn`, and unmarked by the yield before its
    context is saved and before `run` has done its bookkeeping. Between its
    dequeue and the end of the bookkeeping a fiber can therefore be taken up a
    second time. `TakesFree` is the condition that it is not. This module provides:

    - `takes`, `TakesFree`: the steps that take up a fiber, and the condition
    - `Event`, `advance`: what happens to one fiber, and a history made of it
    - `Local`, `Owned`: facts about a fiber that depend only on where in `run`
      the one worker that has it stands and on the fiber's history
    - `Owned.move`: the induction step, done once for all such facts -/

namespace Gwn.Scheduler

open LTS

variable {K : Type} {P : Prog K} {Γ : Type}

/-! ### Taking up a fiber -/

/-- The fiber that the next step of worker `w` takes up: out of the queue, or
    its own `cb_fiber` for another callback. -/
def State.takes (s : State K) (w : Nat) : Option Nat :=
  match (s.workers w).pc with
  | .scan =>
    match scanQueue s.heap (s.workers w).tid s.fibers with
    | some (⟨.fiber f, _⟩, _) => some f
    | _ => none
  | .prepare _ => (s.workers w).cbFiber
  | _ => none

/-- No worker has fiber `f` in hand. -/
def State.Free (s : State K) (f : Nat) : Prop :=
  ∀ w, w < s.nworkers → (s.workers w).pc.hand ≠ some f

instance (s : State K) (f : Nat) : Decidable (s.Free f) :=
  inferInstanceAs (Decidable (∀ w, w < s.nworkers → (s.workers w).pc.hand ≠ some f))

/-- The step takes up a fiber only if no worker has it in hand. -/
def TakesFree (s : State K) : Label K → Prop
  | .work w => ∀ f ∈ s.takes w, s.Free f
  | _ => True

instance (s : State K) (l : Label K) : Decidable (TakesFree s l) :=
  match l with
  | .work w => inferInstanceAs (Decidable (∀ f ∈ s.takes w, s.Free f))
  | .start _ | .stop | .ctl | .act _ _ | .ext _ => .isTrue trivial

/-- The test looks at the workers there are; the others have nothing in hand. -/
theorem WellFormed.free {s : State K} (h : WellFormed s) {f : Nat} (hf : s.Free f) (w : Nat) :
    (s.workers w).pc.hand ≠ some f := by
  intro hhand
  have hlt : w < s.nworkers := by
    apply h.lt_nworkers
    intro hpc
    rw [hpc] at hhand
    cases hhand
  exact hf w hlt hhand

/-! ### What happens to one fiber -/

/-- What a step does to one fiber, as far as histories record it. -/
inductive Event (K : Type) where
  /-- `schedule(f)`: by other threads, by code in a fiber, or by `run`. -/
  | schedule
  /-- A worker takes it out of the queue. -/
  | take
  /-- It gets a new callback as `cb_fiber`. -/
  | prepare (k : K)
  | yieldToReady
  | yieldToHold
  /-- `reset(nullptr)`. -/
  | recycle

/-- The fiber that a step happens to, and what happens to it. -/
def State.event (s : State K) : Label K → Option (Nat × Event K)
  | .ext (.schedule (some (.fiber f)) _) => some (f, .schedule)
  | .act _ (.schedule (some (.fiber f)) _) => some (f, .schedule)
  | .act w .yieldToReady =>
    match (s.workers w).pc with
    | .on _ f (.inside (.body _)) =>
      if (s.heap f).state = .exec then some (f, .yieldToReady) else none
    | _ => none
  | .act w .yieldToHold =>
    match (s.workers w).pc with
    | .on _ f (.inside (.body _)) =>
      if (s.heap f).state = .exec then some (f, .yieldToHold) else none
    | _ => none
  | .work w =>
    match (s.workers w).pc with
    | .scan =>
      match scanQueue s.heap (s.workers w).tid s.fibers with
      | some (⟨.fiber f, _⟩, _) => some (f, .take)
      | _ => none
    | .prepare k =>
      match (s.workers w).cbFiber with
      | some g => if (s.heap g).state.resettable then some (g, .prepare k) else none
      | none => some (s.nfib, .prepare k)
    | .on _ f .requeue => some (f, .schedule)
    | .on _ f .recycle => if (s.heap f).state.resettable then some (f, .recycle) else none
    | _ => none
  | _ => none

/-- A fiber is taken by a scan that has found it. -/
theorem event_take {s : State K} {l : Label K} {f : Nat} (h : s.event l = some (f, .take)) :
    ∃ w e q, l = .work w ∧ (s.workers w).pc = .scan ∧
      scanQueue s.heap (s.workers w).tid s.fibers = some (e, q) ∧ e.task = .fiber f := by
  match l, h with
  | .work w, h =>
    unfold State.event at h
    simp only at h
    split at h
    · next hpc =>
      split at h
      · next g thread q hq =>
        cases h
        exact ⟨w, _, q, rfl, hpc, hq, rfl⟩
      · cases h
    · split at h
      · split at h <;> cases h
      · cases h
    · cases h
    · split at h <;> cases h
    · cases h
  | .act w .yieldToReady, h =>
    unfold State.event at h
    simp only at h
    split at h
    · split at h <;> cases h
    · cases h
  | .act w .yieldToHold, h =>
    unfold State.event at h
    simp only at h
    split at h
    · split at h <;> cases h
    · cases h

/-- A history per fiber, extended by what the step does to it. -/
def advance (after : Γ → Event K → Γ) (past : Nat → Γ) (s : State K)
    (l : Label K) : Nat → Γ :=
  match s.event l with
  | some (f, e) => Function.update past f (after (past f) e)
  | none => past

/-- Nobody's past goes on where nothing happens, -/
theorem advance_none {after : Γ → Event K → Γ} {past : Nat → Γ} {s : State K} {l : Label K}
    (hl : s.event l = none) : advance after past s l = past := by
  simp [advance, hl]

/-- and one fiber's where something happens to it. -/
theorem advance_some {after : Γ → Event K → Γ} {past : Nat → Γ} {s : State K} {l : Label K}
    {f : Nat} {e : Event K} (hl : s.event l = some (f, e)) :
    advance after past s l = Function.update past f (after (past f) e) := by
  simp [advance, hl]

/-! ### Local facts -/

/-- Where a fiber stands in `run`. -/
inductive Pos (K : Type) where
  /-- In nobody's hand. -/
  | free
  /-- Dequeued, the state check still ahead. -/
  | checked
  | on (b : Branch) (ph : Phase K)

/-- `L` is a fact about a fiber and its history, by where the fiber stands, that
    every move of the worker that has it preserves, as long as the code inside
    only does what `allowed` says and a fiber is only dequeued when it is `ripe`.
    Histories start as `g₀` and grow by `after`. -/
structure Local (P : Prog K) (allowed : Branch → Act K → Prop)
    (ripe : Fiber K → Prop) (g₀ : Γ)
    (after : Γ → Event K → Γ) (L : Pos K → Fiber K → Γ → Prop) : Prop where
  new : ∀ k, L .free (.new (.user k) false) g₀
  newIdle : L .free (.new P.idle true) g₀
  schedule : ∀ p x g, L p x g → L p x (after g .schedule)
  take : ∀ x g, L .free x g → x.idle = false → x.state ≠ .exec → ripe x →
    L .checked x (after g .take)
  checkDone : ∀ x g, L .checked x g → x.state.finished = true → L .free x g
  checkFiber :
    ∀ x g, L .checked x g → x.state.finished = false → L (.on .task .assertNotExec) x g
  prepareNew : ∀ k, L (.on .cb .assertNotExec) (.new (.user k) false) (after g₀ (.prepare k))
  prepareOld : ∀ x k g, L .free x g → x.idle = false → x.state.resettable = true →
    L (.on .cb .assertNotExec) (x.reset (some (.user k))) (after g (.prepare k))
  idleEnter : ∀ x g, L .free x g → x.idle = true → x.state ≠ .term →
    L (.on .idle .assertNotExec) x g
  fiber : ∀ b x ph x' ph' g, L (.on b ph) x g → FiberMove b x ph x' ph' → L (.on b ph') x' g
  decrement : ∀ b x g, L (.on b .returned) x g → b ≠ .idle → L (.on b .testReady) x g
  requeue : ∀ b x g, L (.on b .requeue) x g → L .free x (after g .schedule)
  leave : ∀ b x g, L (.on b .testDone) x g → b ≠ .cb →
    x.state.finished = true → L .free x g
  setHold : ∀ b x g, L (.on b .setHold) x g → L .free { x with state := .hold } g
  recycle : ∀ b x g, L (.on b .recycle) x g → x.state.resettable = true →
    L .free (x.reset none) (after g .recycle)
  goOn : ∀ b c c' a x g, L (.on b (.inside (.body c))) x g → c.resume P a = some c' →
    allowed b a → L (.on b (.inside (.body c'))) x g
  yieldToReady : ∀ b c c' x g, L (.on b (.inside (.body c))) x g →
    c.resume P .yieldToReady = some c' → allowed b .yieldToReady → x.state = .exec →
    L (.on b (.yielding .ready c')) x (after g .yieldToReady)
  yieldToHold : ∀ b c c' x g, L (.on b (.inside (.body c))) x g →
    c.resume P .yieldToHold = some c' → allowed b .yieldToHold → x.state = .exec →
    L (.on b (.yielding .hold c')) x (after g .yieldToHold)
  ret : ∀ b c c' x g, L (.on b (.inside (.body c))) x g → c.resume P .ret = some c' →
    allowed b .ret → L (.on b (.switchOut .done)) { x with cb := none, state := .term } g
  throw : ∀ b c c' x g, L (.on b (.inside (.body c))) x g → c.resume P .throw = some c' →
    allowed b .throw → L (.on b (.switchOut .done)) { x with state := .except } g

/-- The code inside the fibers only does what `allowed` says. -/
def Keeps (allowed : Branch → Act K → Prop) (s : State K) (l : Label K) : Prop :=
  ∀ w a b f c, l = .act w a → (s.workers w).pc = .on b f (.inside (.body c)) → allowed b a

/-- A fiber is only dequeued when it is `ripe`. -/
def TakesRipe (ripe : Fiber K → Prop) (s : State K) (l : Label K) : Prop :=
  ∀ f, s.event l = some (f, .take) → ripe (s.heap f)

/-- A fiber of the `kind` that is followed (idle fibers, others, or both) is in at
    most one hand, and `L` says how it is there. Fibers that are not created yet
    have no history. -/
structure Owned (kind : Bool → Prop) (g₀ : Γ)
    (L : Pos K → Fiber K → Γ → Prop) (s : State K) (past : Nat → Γ) : Prop where
  inj : ∀ w w' f, kind (s.heap f).idle → (s.workers w).pc.hand = some f →
    (s.workers w').pc.hand = some f → w = w'
  checked : ∀ w f, kind (s.heap f).idle → (s.workers w).pc = .check (some (.fiber f)) →
    L .checked (s.heap f) (past f)
  on : ∀ w b f ph, kind (s.heap f).idle → (s.workers w).pc = .on b f ph →
    L (.on b ph) (s.heap f) (past f)
  free : ∀ f, kind (s.heap f).idle → f < s.nfib →
    (∀ w, (s.workers w).pc.hand ≠ some f) →
    L .free (s.heap f) (past f)
  fresh : ∀ f, s.nfib ≤ f → past f = g₀

/-- `pc` holds `f` in a way that fits what has become of it. -/
inductive PC.Holds (kind : Bool → Prop) (L : Pos K → Fiber K → Γ → Prop)
    (f : Nat) (x : Fiber K) (g : Γ) : PC K → Prop where
  | checked : (kind x.idle → L .checked x g) → Holds kind L f x g (.check (some (.fiber f)))
  | on {b ph} : (kind x.idle → L (.on b ph) x g) → Holds kind L f x g (.on b f ph)

variable {kind : Bool → Prop} {g₀ : Γ} {after : Γ → Event K → Γ}
  {L : Pos K → Fiber K → Γ → Prop}

theorem PC.Holds.hand {f : Nat} {x : Fiber K} {g : Γ} {pc : PC K} (hpc : pc.Holds kind L f x g) :
    pc.hand = some f := by
  cases hpc <;> rfl

/-! ### Frame lemmas -/

namespace Owned

/-- Worker `w` moves without a fiber. -/
theorem quiet {s t : State K} {past : Nat → Γ} (h : Owned kind g₀ L s past) {w : Nat}
    {y : Worker K} (hbefore : (s.workers w).pc.hand = none) (hafter : y.pc.hand = none)
    (hheap : t.heap = s.heap) (hnfib : t.nfib = s.nfib)
    (hworkers : t.workers = Function.update s.workers w y) : Owned kind g₀ L t past := by
  have hself : t.workers w = y := by rw [hworkers, Function.update_self]
  have hne : ∀ v, v ≠ w → t.workers v = s.workers v := by
    intro v hv
    rw [hworkers, Function.update_of_ne hv]
  -- whoever has a fiber in hand now had it before
  have hold : ∀ v, (t.workers v).pc.hand = (s.workers v).pc.hand := by
    intro v
    by_cases hv : v = w
    · rw [hv, hself, hafter, hbefore]
    · rw [hne v hv]
  refine ⟨fun v v' f hk h₁ h₂ => ?_, fun v f hk hpc => ?_, fun v b f ph hk hpc => ?_,
    fun f hk hf hfree => ?_, fun f hf => h.fresh f (hnfib ▸ hf)⟩ <;> rw [hheap] at hk
  · exact h.inj v v' f hk (hold v ▸ h₁) (hold v' ▸ h₂)
  · by_cases hv : v = w
    · rw [hv, hself] at hpc
      rw [hpc] at hafter
      cases hafter
    · rw [hheap]
      exact h.checked v f hk (hne v hv ▸ hpc)
  · by_cases hv : v = w
    · rw [hv, hself] at hpc
      rw [hpc] at hafter
      cases hafter
    · rw [hheap]
      exact h.on v b f ph hk (hne v hv ▸ hpc)
  · rw [hheap]
    exact h.free f hk (hnfib ▸ hf) fun v => hold v ▸ hfree v

/-- Worker `w` moves with fiber `f`, which it has before, after or both, and
    which nobody else has; the fiber becomes `x` and its history `g`. -/
theorem move_fiber {s t : State K} {past past' : Nat → Γ}
    (h : Owned kind g₀ L s past) {w f : Nat}
    {x : Fiber K} {g : Γ} {y : Worker K} (hlt : f < s.nfib)
    (hbefore : (s.workers w).pc.hand = none ∨ (s.workers w).pc.hand = some f)
    (hothers : kind x.idle → ∀ v, v ≠ w → (s.workers v).pc.hand ≠ some f)
    (hafter : y.pc.hand = none ∧ (kind x.idle → L .free x g) ∨ y.pc.Holds kind L f x g)
    (hpast : past' = Function.update past f g)
    (hheap : t.heap = Function.update s.heap f x) (hnfib : t.nfib = s.nfib)
    (hworkers : t.workers = Function.update s.workers w y) : Owned kind g₀ L t past' := by
  have hself : t.workers w = y := by rw [hworkers, Function.update_self]
  have hne : ∀ v, v ≠ w → t.workers v = s.workers v := by
    intro v hv
    rw [hworkers, Function.update_of_ne hv]
  have hf : t.heap f = x ∧ past' f = g := by
    rw [hheap, hpast, Function.update_self, Function.update_self]
    exact ⟨rfl, rfl⟩
  have hother : ∀ k, k ≠ f → t.heap k = s.heap k ∧ past' k = past k := by
    intro k hk
    rw [hheap, hpast, Function.update_of_ne hk, Function.update_of_ne hk]
    exact ⟨rfl, rfl⟩
  -- the fiber that `w` has in hand, if any, is `f`
  have honly : ∀ k, y.pc.hand = some k → k = f := by
    intro k hk
    rcases hafter with ⟨hnone, _⟩ | hx
    · rw [hnone] at hk
      cases hk
    · rw [hx.hand] at hk
      exact (Option.some.inj hk).symm
  -- nobody else has `f` in hand, if it is followed
  have hkf :
      ∀ v k, v ≠ w → kind (t.heap k).idle → (s.workers v).pc.hand = some k → k ≠ f := by
    intro v k hv hk hhand heq
    rw [heq, hf.1] at hk
    exact hothers hk v hv (heq ▸ hhand)
  refine ⟨fun v v' k hk h₁ h₂ => ?_, fun v k hk hpc => ?_, fun v b k ph hk hpc => ?_,
    fun k hk hkn hfree => ?_, fun k hle => ?_⟩
  · by_cases hv : v = w <;> by_cases hv' : v' = w
    · rw [hv, hv']
    · rw [hv, hself] at h₁
      rw [hne v' hv'] at h₂
      exact absurd (honly k h₁) (hkf v' k hv' hk h₂)
    · rw [hv', hself] at h₂
      rw [hne v hv] at h₁
      exact absurd (honly k h₂) (hkf v k hv hk h₁)
    · rw [hne v hv] at h₁
      rw [hne v' hv'] at h₂
      rw [(hother k (hkf v k hv hk h₁)).1] at hk
      exact h.inj v v' k hk h₁ h₂
  · by_cases hv : v = w
    · rw [hv, hself] at hpc
      rcases hafter with ⟨hnone, _⟩ | hx
      · rw [hpc] at hnone
        cases hnone
      · rw [hpc] at hx
        cases hx with
        | checked hx =>
          rw [hf.1] at hk
          rw [hf.1, hf.2]
          exact hx hk
    · rw [hne v hv] at hpc
      have hsame := hother k (hkf v k hv hk (by rw [hpc]; rfl))
      rw [hsame.1] at hk
      rw [hsame.1, hsame.2]
      exact h.checked v k hk hpc
  · by_cases hv : v = w
    · rw [hv, hself] at hpc
      rcases hafter with ⟨hnone, _⟩ | hx
      · rw [hpc] at hnone
        cases hnone
      · rw [hpc] at hx
        cases hx with
        | on hx =>
          rw [hf.1] at hk
          rw [hf.1, hf.2]
          exact hx hk
    · rw [hne v hv] at hpc
      have hsame := hother k (hkf v k hv hk (by rw [hpc]; rfl))
      rw [hsame.1] at hk
      rw [hsame.1, hsame.2]
      exact h.on v b k ph hk hpc
  · by_cases hkf : k = f
    · rcases hafter with ⟨_, hx⟩ | hx
      · rw [hkf, hf.1] at hk
        rw [hkf, hf.1, hf.2]
        exact hx hk
      · have hhand := hfree w
        rw [hself, hx.hand, hkf] at hhand
        exact absurd rfl hhand
    · rw [(hother k hkf).1] at hk
      rw [(hother k hkf).1, (hother k hkf).2]
      refine h.free k hk (hnfib ▸ hkn) fun v => ?_
      by_cases hv : v = w
      · rw [hv]
        rcases hbefore with hb | hb <;> rw [hb]
        · exact nofun
        · exact fun heq => hkf (Option.some.inj heq).symm
      · have := hfree v
        rwa [hne v hv] at this
  · have hkf : k ≠ f := by omega
    rw [(hother k hkf).2]
    exact h.fresh k (hnfib ▸ hle)

/-- A fiber is created. -/
theorem alloc {s : State K} {past : Nat → Γ} (h : Owned kind g₀ L s past) (hwf : WellFormed s)
    {x : Fiber K} (hx : L .free x g₀) : Owned kind g₀ L (s.alloc x) past := by
  have hold : ∀ {w f}, (s.workers w).pc.hand = some f → (s.alloc x).heap f = s.heap f := by
    intro w f hhand
    exact s.alloc_ne f x (Nat.ne_of_lt (hwf.hand_lt hhand))
  refine ⟨fun w w' f hk h₁ h₂ => ?_, fun w f hk hpc => ?_, fun w b f ph hk hpc => ?_,
    fun f hk hf hfree => ?_, fun f hf => ?_⟩
  · rw [hold h₁] at hk
    exact h.inj w w' f hk h₁ h₂
  · have hhand : (s.workers w).pc.hand = some f := by rw [show (s.workers w).pc = _ from hpc]; rfl
    rw [hold hhand] at hk ⊢
    exact h.checked w f hk hpc
  · have hhand : (s.workers w).pc.hand = some f := by rw [show (s.workers w).pc = _ from hpc]; rfl
    rw [hold hhand] at hk ⊢
    exact h.on w b f ph hk hpc
  · by_cases hnew : f = s.nfib
    · rw [hnew, s.alloc_self, h.fresh s.nfib (Nat.le_refl _)]
      exact hx
    · rw [s.alloc_ne f x hnew] at hk ⊢
      have hlt : f < s.nfib + 1 := hf
      exact h.free f hk (by omega) hfree
  · have hle : s.nfib + 1 ≤ f := hf
    exact h.fresh f (by omega)

/-- A fiber is scheduled: nothing but its history changes. -/
theorem schedule {allowed : Branch → Act K → Prop} {ripe : Fiber K → Prop} {s t : State K}
    {past : Nat → Γ}
    (h : Owned kind g₀ L s past) (hL : Local P allowed ripe g₀ after L) {f : Nat}
    (hf : f < s.nfib)
    (hheap : t.heap = s.heap) (hnfib : t.nfib = s.nfib) (hworkers : t.workers = s.workers) :
    Owned kind g₀ L t (Function.update past f (after (past f) .schedule)) := by
  -- `L` holds with the longer history wherever it holds with the shorter one
  have hmono : ∀ p k, L p (s.heap k) (past k) →
      L p (s.heap k) (Function.update past f (after (past f) .schedule) k) := by
    intro p k hk
    by_cases hkf : k = f
    · rw [hkf, Function.update_self]
      exact hL.schedule p _ _ (hkf ▸ hk)
    · rw [Function.update_of_ne hkf]
      exact hk
  refine ⟨?_, fun w k hk hpc => ?_, fun w b k ph hk hpc => ?_, fun k hk hlt hfree => ?_,
    fun k hle => ?_⟩
  · rw [hheap, hworkers]
    exact h.inj
  · rw [hworkers] at hpc
    rw [hheap] at hk ⊢
    exact hmono _ k (h.checked w k hk hpc)
  · rw [hworkers] at hpc
    rw [hheap] at hk ⊢
    exact hmono _ k (h.on w b k ph hk hpc)
  · rw [hworkers] at hfree
    rw [hheap] at hk ⊢
    exact hmono _ k (h.free k hk (hnfib ▸ hlt) hfree)
  · rw [hnfib] at hle
    rw [Function.update_of_ne (by omega)]
    exact h.fresh k hle

/-- `schedule` of whatever a caller may pass. -/
theorem schedule_task {allowed : Branch → Act K → Prop} {ripe : Fiber K → Prop} {s : State K}
    {past : Nat → Γ}
    (h : Owned kind g₀ L s past) (hL : Local P allowed ripe g₀ after L) {fc : Option (Task K)}
    {thread : Int} {l : Label K} {u : State K} (hfc : u.Schedulable fc) (hn : u.nfib = s.nfib)
    (hl : l = .ext (.schedule fc thread) ∨ ∃ w, l = .act w (.schedule fc thread)) :
    Owned kind g₀ L (s.schedule fc thread) (advance after past u l) := by
  match fc, hfc with
  | none, _ =>
    have hnone : u.event l = none := by rcases hl with rfl | ⟨w, rfl⟩ <;> rfl
    rw [advance_none hnone]
    exact ⟨h.inj, h.checked, h.on, h.free, h.fresh⟩
  | some (.cb k), _ =>
    have hnone : u.event l = none := by rcases hl with rfl | ⟨w, rfl⟩ <;> rfl
    rw [advance_none hnone]
    exact ⟨h.inj, h.checked, h.on, h.free, h.fresh⟩
  | some (.fiber f), hfc =>
    have hsome : u.event l = some (f, .schedule) := by rcases hl with rfl | ⟨w, rfl⟩ <;> rfl
    rw [advance_some hsome]
    exact h.schedule hL (hn ▸ hfc.1) rfl rfl rfl

/-- `start` and `stop` touch no fiber. -/
theorem owner {s s' : State K} {past : Nat → Γ} (h : Owned kind g₀ L s past)
    (hwf : WellFormed s) (hf : OwnerFrame s s') : Owned kind g₀ L s' past := by
  -- a worker that is added has nothing in hand
  have hold : ∀ v, (s'.workers v).pc = (s.workers v).pc ∨
      (s'.workers v).pc = .prelude ∧ s.nworkers ≤ v := by
    intro v
    rcases hf.worker v with hv | ⟨hle, tid, hv⟩ <;> rw [hv]
    · exact .inl rfl
    · exact .inr ⟨rfl, hle⟩
  have hhand : ∀ v, (s'.workers v).pc.hand = (s.workers v).pc.hand := by
    intro v
    rcases hold v with hv | ⟨hv, hle⟩ <;> rw [hv]
    rw [hwf.absent v hle]
    rfl
  refine ⟨fun v v' g hk h₁ h₂ => ?_, fun v g hk hpc => ?_, fun v b g ph hk hpc => ?_,
    fun g hk hg hfree => ?_, fun g hg => h.fresh g (hf.nfib ▸ hg)⟩ <;> rw [hf.heap] at hk
  · exact h.inj v v' g hk (hhand v ▸ h₁) (hhand v' ▸ h₂)
  · rw [hf.heap]
    rcases hold v with hv | ⟨hv, _⟩ <;> rw [hv] at hpc
    · exact h.checked v g hk hpc
    · cases hpc
  · rw [hf.heap]
    rcases hold v with hv | ⟨hv, _⟩ <;> rw [hv] at hpc
    · exact h.on v b g ph hk hpc
    · cases hpc
  · rw [hf.heap]
    exact h.free g hk (hf.nfib ▸ hg) fun v => hhand v ▸ hfree v

/-- No step takes up a fiber that is in somebody's hand, and `L` follows each fiber. -/
theorem move {allowed : Branch → Act K → Prop} {ripe : Fiber K → Prop} {s s' : State K}
    {l : Label K} {past : Nat → Γ}
    (h : Owned kind g₀ L s past) (hL : Local P allowed ripe g₀ after L) (hwf : WellFormed s)
    (hfree : kind false → TakesFree s l) (hripe : kind false → TakesRipe ripe s l)
    (hkeep : Keeps allowed s l) (hm : Move P s l s') :
    Owned kind g₀ L s' (advance after past s l) := by
  -- a worker that keeps or drops the fiber it has in hand, which is in no other
  have work :
      ∀ {w f : Nat} {x : Fiber K} {g : Γ} {y : Worker K} {t : State K} {past' : Nat → Γ},
      (s.workers w).pc.hand = some f →
      (y.pc.hand = none ∧ (kind x.idle → L .free x g) ∨ y.pc.Holds kind L f x g) →
      past' = Function.update past f g → t.heap = Function.update s.heap f x →
      x.idle = (s.heap f).idle → t.nfib = s.nfib →
      t.workers = Function.update s.workers w y → Owned kind g₀ L t past' := by
    intro w f x g y t past' hhand hafter hpast hheap hidle hnfib hworkers
    exact h.move_fiber (hwf.hand_lt hhand) (.inr hhand)
      (fun hk v hv hother => hv (h.inj v w f (hidle ▸ hk) hother hhand)) hafter hpast hheap hnfib
      hworkers
  have same : ∀ f, past = Function.update past f (past f) := fun f =>
    (Function.update_eq_self f past).symm
  have heap_same : ∀ f, s.heap = Function.update s.heap f (s.heap f) := fun f =>
    (Function.update_eq_self f s.heap).symm
  cases hm with
  | fails hf =>
    have hnone : s.event l = none := by
      cases hf with
      | swapInExec hpc _ => simp [State.event, hpc]
      | yieldNotExec hpc ha hx => rcases ha with rfl | rfl <;> simp [State.event, hpc, hx]
      | reset hpc hg hx => simp [State.event, hpc, hg, hx]
      | recycle hpc hx => simp [State.event, hpc, hx]
      | neverReach hpc => simp [State.event, hpc]
    rw [advance_none hnone]
    exact ⟨h.inj, h.checked, h.on, h.free, h.fresh⟩
  | owner hl hf =>
    have hnone : s.event l = none := by
      rcases hl with ⟨tids, rfl⟩ | rfl | rfl <;> rfl
    rw [advance_none hnone]
    exact h.owner hwf hf
  | extSchedule hfc => exact h.schedule_task hL hfc rfl (.inl rfl)
  | extNew =>
    rw [advance_none rfl]
    exact h.alloc hwf (hL.new _)
  | @prelude w hpc =>
    rw [advance_none (by simp [State.event, hpc])]
    exact (h.alloc hwf hL.newIdle).quiet (w := w)
      (by rw [s.alloc_workers, hpc]; rfl) rfl rfl rfl rfl
  | @scanNone w hpc hq =>
    rw [advance_none (by simp [State.event, hpc, hq])]
    exact h.quiet (w := w) (by rw [hpc]; rfl) rfl rfl rfl rfl
  | @scanSome w e q hpc hq =>
    obtain ⟨pre, post, hfib, rfl, hskip, -⟩ := scanQueue_some hq
    obtain ⟨task, thread⟩ := e
    cases task with
    | cb k =>
      rw [advance_none (by simp [State.event, hpc, hq])]
      exact h.quiet (w := w) (by rw [hpc]; rfl) rfl rfl rfl rfl
    | fiber f =>
      have htakes : s.takes w = some f := by simp [State.takes, hpc, hq]
      obtain ⟨hlt, hidle⟩ := hwf.queue ⟨.fiber f, thread⟩ (by simp [hfib]) f rfl
      have hf : kind (s.heap f).idle → ∀ v, (s.workers v).pc.hand ≠ some f := fun hk =>
        hwf.free (hfree (hidle ▸ hk) f htakes)
      have hne := not_exec_of_not_skipped hskip rfl
      have hevent : s.event (.work w) = some (f, .take) := by simp [State.event, hpc, hq]
      have hx : kind (s.heap f).idle → L .checked (s.heap f) _ := fun hk =>
        hL.take _ _ (h.free f hk hlt (hf hk)) hidle hne (hripe (hidle ▸ hk) f hevent)
      exact h.move_fiber (w := w) hlt (.inl (by rw [hpc]; rfl)) (fun hk v _ => hf hk v)
        (.inr (.checked hx)) (advance_some hevent) (heap_same f) rfl rfl
  | @checkNone w hpc =>
    rw [advance_none (by simp [State.event, hpc])]
    exact h.quiet (w := w) (by rw [hpc]; rfl) rfl rfl rfl rfl
  | @checkDone w f hpc hx =>
    rw [advance_none (by simp [State.event, hpc])]
    exact work (by rw [hpc]; rfl)
      (.inl ⟨rfl, fun hk => hL.checkDone _ _ (h.checked w f hk hpc) hx⟩) (same f)
      (heap_same f) rfl rfl rfl
  | @checkFiber w f hpc hx =>
    rw [advance_none (by simp [State.event, hpc])]
    exact work (by rw [hpc]; rfl)
      (.inr (.on fun hk => hL.checkFiber _ _ (h.checked w f hk hpc) hx)) (same f)
      (heap_same f) rfl rfl rfl
  | @checkCb w k hpc =>
    rw [advance_none (by simp [State.event, hpc])]
    exact h.quiet (w := w) (by rw [hpc]; rfl) rfl rfl rfl rfl
  | @prepareOld w k g hpc hg hx =>
    have htakes : s.takes w = some g := by simp [State.takes, hpc, hg]
    obtain ⟨hlt, hidle⟩ := (hwf.worker w).cb g hg
    have hf : kind (s.heap g).idle → ∀ v, (s.workers v).pc.hand ≠ some g := fun hk =>
      hwf.free (hfree (hidle ▸ hk) g htakes)
    exact h.move_fiber (x := (s.heap g).reset (some (.user k))) hlt (.inl (by rw [hpc]; rfl))
      (fun hk v _ => hf hk v)
      (.inr (.on fun hk => hL.prepareOld _ k _ (h.free g hk hlt (hf hk)) hidle hx))
      (advance_some (f := g) (e := .prepare k) (by simp [State.event, hpc, hg, hx])) rfl rfl rfl
  | @prepareNew w k hpc hnone =>
    have hnew : ∀ v, (s.workers v).pc.hand ≠ some s.nfib := by
      intro v hv
      exact Nat.lt_irrefl _ (hwf.hand_lt hv)
    have hpast : advance after past s (.work w)
        = Function.update past s.nfib (after g₀ (.prepare k)) := by
      rw [advance_some (f := s.nfib) (e := .prepare k) (by simp [State.event, hpc, hnone]),
        h.fresh s.nfib (Nat.le_refl _)]
    refine (h.alloc hwf (hL.new k)).move_fiber (w := w) (Nat.lt_succ_self _) (.inl ?_)
      (fun _ v _ => hnew v) (.inr (.on fun _ => hL.prepareNew k)) hpast ?_ rfl rfl
    · rw [s.alloc_workers, hpc]
      rfl
    · show (s.alloc _).heap = _
      simp [State.alloc, State.setFiber]
  | @idleExit w f hpc _ _ =>
    rw [advance_none (by simp [State.event, hpc])]
    exact h.quiet (w := w) (by rw [hpc]; rfl) rfl rfl rfl rfl
  | @idleEnter w f hpc hidle hx =>
    obtain ⟨hlt, hkind⟩ := (hwf.worker w).idle f hidle
    have hf := hwf.idle_free (by rw [hpc]; rfl) hidle
    rw [advance_none (by simp [State.event, hpc])]
    exact h.move_fiber hlt (.inl (by rw [hpc]; rfl)) (fun _ v _ => hf v)
      (.inr (.on fun hk => hL.idleEnter _ _ (h.free f hk hlt hf) hkind hx)) (same f) (heap_same f)
      rfl rfl
  | @fiber w b f ph x ph' hpc hx =>
    have hnone : s.event (.work w) = none := by
      cases hx <;> simp [State.event, hpc]
    rw [advance_none hnone]
    exact work (by rw [hpc]; rfl)
      (.inr (.on fun hk => hL.fiber _ _ _ _ _ _ (h.on w b f ph (hx.idle_eq ▸ hk) hpc) hx))
      (same f)
      rfl hx.idle_eq rfl rfl
  | @decrement w b f hpc hb =>
    rw [advance_none (by simp [State.event, hpc])]
    exact work (by rw [hpc]; rfl)
      (.inr (.on fun hk => hL.decrement _ _ _ (h.on w b f _ hk hpc) hb)) (same f)
      (heap_same f) rfl rfl rfl
  | @requeue w b f hpc =>
    exact work (by rw [hpc]; rfl) (.inl ⟨rfl, fun hk => hL.requeue _ _ _ (h.on w b f _ hk hpc)⟩)
      (advance_some (by simp [State.event, hpc])) (heap_same f) rfl rfl rfl
  | @leave w b f hpc hb hx =>
    rw [advance_none (by simp [State.event, hpc])]
    exact work (by rw [hpc]; rfl)
      (.inl ⟨rfl, fun hk => hL.leave _ _ _ (h.on w b f _ hk hpc) hb hx⟩) (same f)
      (heap_same f) rfl rfl rfl
  | @setHold w b f hpc =>
    rw [advance_none (by simp [State.event, hpc])]
    exact work (by rw [hpc]; rfl)
      (.inl ⟨rfl, fun hk => hL.setHold _ _ _ (h.on w b f _ hk hpc)⟩) (same f) rfl rfl rfl rfl
  | @recycle w b f hpc hx =>
    exact work (by rw [hpc]; rfl)
      (.inl ⟨rfl, fun hk => hL.recycle _ _ _ (h.on w b f _ hk hpc) hx⟩)
      (advance_some (by simp [State.event, hpc, hx])) rfl rfl rfl rfl
  | @code w b f c c' a x ph' hpc hc hx _ =>
    have hhand : (s.workers w).pc.hand = some f := by rw [hpc]; rfl
    have hallowed := hkeep w a b f c rfl hpc
    have hon := fun hk => h.on w b f _ hk hpc
    cases hx with
    | stopping =>
      exact work hhand (.inr (.on fun hk => hL.goOn _ _ _ _ _ _ (hon hk) hc hallowed))
        (same f) rfl rfl rfl rfl
    | yieldToReady hexec =>
      exact work hhand (.inr (.on fun hk => hL.yieldToReady _ _ _ _ _ (hon hk) hc hallowed hexec))
        (advance_some (by simp [State.event, hpc, hexec])) rfl rfl rfl rfl
    | yieldToHold hexec =>
      exact work hhand (.inr (.on fun hk => hL.yieldToHold _ _ _ _ _ (hon hk) hc hallowed hexec))
        (advance_some (by simp [State.event, hpc, hexec])) rfl rfl rfl rfl
    | ret =>
      exact work hhand (.inr (.on fun hk => hL.ret _ _ _ _ _ (hon hk) hc hallowed))
        (same f) rfl rfl rfl rfl
    | throw =>
      exact work hhand (.inr (.on fun hk => hL.throw _ _ _ _ _ (hon hk) hc hallowed))
        (same f) rfl rfl rfl rfl
  | @codeSchedule w b f c c' fc thread hpc hc hfc =>
    have hallowed := hkeep w _ b f c rfl hpc
    -- first the worker goes on, then the task is scheduled
    have hgo : Owned kind g₀ L (s.setPC w (.on b f (.inside (.body c')))) past :=
      work (by rw [hpc]; rfl)
        (.inr (.on fun hk => hL.goOn _ _ _ _ _ _ (h.on w b f _ hk hpc) hc hallowed)) (same f)
        (heap_same f) rfl rfl rfl
    exact hgo.schedule_task hL hfc rfl (.inr ⟨w, rfl⟩)
  | @codeNew w b f c c' k hpc hc =>
    have hhand : (s.workers w).pc.hand = some f := by rw [hpc]; rfl
    have hallowed := hkeep w _ b f c rfl hpc
    have hlt : f < s.nfib := hwf.hand_lt hhand
    rw [advance_none rfl]
    refine (h.alloc hwf (hL.new k)).move_fiber (w := w) (Nat.lt_succ_of_lt hlt) (.inr hhand)
      (fun hk v hv hother => hv (h.inj v w f hk hother hhand))
      (.inr (.on fun hk => hL.goOn _ _ _ _ _ _ (h.on w b f _ hk hpc) hc hallowed)) (same f) ?_
      rfl rfl
    show (s.alloc _).heap = _
    rw [← s.alloc_ne f _ (Nat.ne_of_lt hlt), Function.update_eq_self]

theorem initial (threads : Nat) (useCaller : Bool) (caller : Int) :
    Owned kind g₀ L (.initial threads useCaller caller : State K) fun _ => g₀ where
  inj w w' f _ h := by cases h
  checked w f _ h := by cases h
  on w b f ph _ h := by cases h
  free f _ h := absurd h (Nat.not_lt_zero f)
  fresh _ _ := rfl

end Owned

end Gwn.Scheduler
