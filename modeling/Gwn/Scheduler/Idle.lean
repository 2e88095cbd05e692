import Gwn.Scheduler.Owned

/-! # The idle fibers

    `Scheduler::idle` loops over `stopping()` and `YieldToHold`. An idle fiber
    belongs to one worker and is never scheduled, so what it does can be followed
    in every run, whatever happens to the other fibers:

    - `IdleAt`: where the loop stands, by where the fiber stands in `run`
    - `answer`: the history whether `stopping()` has returned true, without which
      no idle fiber leaves its loop
    - `IdleOk.step`: the induction step -/

namespace Gwn.Scheduler

open LTS

variable {K : Type} {P : Prog K}

/-! ### The loop -/

/-- The idle fiber has left `swapIn`: it yielded inside its loop, or `stopping()`
    has answered true (`a`) and it has ended. -/
def Fiber.Rested (x : Fiber K) (a : Bool) : Prop :=
  x.ctx = .body .idleTest ∧ x.state = .hold ∨ a = true ∧ x.ctx = .done ∧ x.state = .term

/-- It can be entered at its start, or inside its loop. -/
def Fiber.Enterable (x : Fiber K) : Prop :=
  x.ctx = .entry ∧ x.cb = some .idleTest ∨ x.ctx = .body .idleTest

/-- Where an idle fiber is. `a` says whether `stopping()` has answered true. -/
def IdleAt (a : Bool) : Pos K → Fiber K → Prop
  | .free, x => x.ctx = .entry ∧ x.cb = some .idleTest ∧ x.state = .init ∨ x.Rested a
  | .checked, _ => False
  | .on b ph, x => b = .idle ∧ match ph with
    | .assertNotExec | .setExec | .switchIn => x.Enterable
    | .inside p => p = .entry ∧ x.cb = some .idleTest ∨ p = .body .idleTest ∨
        p = .body .idleHold ∨ a = true ∧ p = .body .idleDone
    | .yielding st c => st = .hold ∧ c = .idleTest
    | .switchOut p =>
      p = .body .idleTest ∧ x.state = .hold ∨ a = true ∧ p = .done ∧ x.state = .term
    | .returned | .testDone => x.Rested a
    | .setHold => x.ctx = .body .idleTest
    | .testReady | .requeue | .recycle => False

theorem Fiber.Rested.mono {x : Fiber K} {a a' : Bool} (h : x.Rested a)
    (ha : a = true → a' = true) :
    x.Rested a' := by
  rcases h with h | ⟨h, hx⟩
  · exact .inl h
  · exact .inr ⟨ha h, hx⟩

theorem IdleAt.mono {p : Pos K} {x : Fiber K} {a a' : Bool} (h : IdleAt a p x)
    (ha : a = true → a' = true) : IdleAt a' p x := by
  cases p with
  | free => exact h.imp_right fun h => h.mono ha
  | checked => exact h
  | on b ph =>
    refine ⟨h.1, ?_⟩
    have hx := h.2
    cases ph with
    | inside p => exact hx.imp_right (Or.imp_right (Or.imp_right (And.imp_left ha)))
    | switchOut p => exact hx.imp_right (And.imp_left ha)
    | returned => exact Fiber.Rested.mono hx ha
    | testDone => exact Fiber.Rested.mono hx ha
    | _ => exact hx

theorem IdleAt.fiberMove {a : Bool} {b : Branch} {x x' : Fiber K} {ph ph' : Phase K}
    (h : IdleAt a (.on b ph) x) (hm : FiberMove b x ph x' ph') : IdleAt a (.on b ph') x' := by
  obtain ⟨rfl, h⟩ := h
  refine ⟨rfl, ?_⟩
  cases hm with
  | assertNotExec _ => exact h
  | setExec => exact h
  | switchIn =>
    rcases h with h | h
    · exact .inl h
    · exact .inr (.inl h)
  | call c hc =>
    -- the callback of an idle fiber is the loop
    rcases h with ⟨-, hcb⟩ | h | h | ⟨-, h⟩
    · rw [hcb] at hc
      cases hc
      exact .inr (.inl rfl)
    all_goals cases h
  | callEmpty hc =>
    rcases h with ⟨-, hcb⟩ | h | h | ⟨-, h⟩
    · rw [hcb] at hc
      cases hc
    all_goals cases h
  | yield st c =>
    obtain ⟨rfl, rfl⟩ := h
    exact .inl ⟨rfl, rfl⟩
  | save p => exact h
  | back _ => exact h
  | isReady _ => exact h.elim
  | notReady _ => exact h.elim
  | notDone hx =>
    rcases h with h | ⟨-, -, hst⟩
    · exact h.1
    · rw [hst] at hx
      cases hx
  | isDone hb _ => cases hb

/-- The loop goes on in one way only; it is left only on the answer true. -/
theorem IdleAt.resume {a : Bool} {b : Branch} {c c' : Code K} {act : Act K} {x : Fiber K}
    (h : IdleAt a (.on b (.inside (.body c))) x) (hc : c.resume P act = some c')
    (ha : act = .stopping true → a = true) :
    (c' = .idleTest ∧ act = .yieldToHold ∨ c' = .idleHold ∧ act = .stopping false ∨
      a = true ∧ c' = .idleDone ∧ (act = .stopping true ∨ act = .ret)) ∧
    (act = .ret → a = true) := by
  obtain ⟨-, h⟩ := h
  rcases h with ⟨h, -⟩ | h | h | ⟨ha', h⟩ <;> cases h
  · cases act with
    | stopping v =>
      cases v <;> cases hc
      · exact ⟨.inr (.inl ⟨rfl, rfl⟩), nofun⟩
      · exact ⟨.inr (.inr ⟨ha rfl, rfl, .inl rfl⟩), nofun⟩
    | _ => cases hc
  · cases act with
    | yieldToHold =>
      cases hc
      exact ⟨.inl ⟨rfl, rfl⟩, nofun⟩
    | _ => cases hc
  · cases act with
    | ret =>
      cases hc
      exact ⟨.inr (.inr ⟨ha', rfl, .inr rfl⟩), fun _ => ha'⟩
    | _ => cases hc

/-- The idle branch hears the answer true only if it has been given. -/
def hears (a : Bool) (b : Branch) (act : Act K) : Prop :=
  b = .idle → act = .stopping true → a = true

theorem local_idleAt (hP : P.idle = .idleTest) (a : Bool) :
    Local P (hears a) (fun _ => True) () (fun _ _ => ()) fun p x _ => x.idle = true →
      IdleAt a p x where
  new k := nofun
  newIdle := by
    rw [hP]
    exact fun _ => .inl ⟨rfl, rfl, rfl⟩
  schedule p x g h := h
  take x g _ hidle _ _ := fun h => absurd (hidle.symm.trans h) nofun
  checkDone x g h _ := fun hidle => (h hidle).elim
  checkFiber x g h _ := fun hidle => (h hidle).elim
  prepareNew k := nofun
  prepareOld x k g _ hidle _ := fun h => absurd (hidle.symm.trans h) nofun
  idleEnter x g h _ hx := by
    intro hidle
    refine ⟨rfl, ?_⟩
    rcases h hidle with ⟨hctx, hcb, -⟩ | ⟨hctx, -⟩ | ⟨-, -, hst⟩
    · exact .inl ⟨hctx, hcb⟩
    · exact .inr hctx
    · exact absurd hst hx
  fiber b x ph x' ph' g h hm := fun hidle => (h (hm.idle_eq ▸ hidle)).fiberMove hm
  decrement b x g h hb := fun hidle => absurd (h hidle).1 hb
  requeue b x g h := fun hidle => (h hidle).2.elim
  leave b x g h _ _ := fun hidle => .inr (h hidle).2
  setHold b x g h := fun hidle => .inr (.inl ⟨(h hidle).2, rfl⟩)
  recycle b x g h _ := fun hidle => (h hidle).2.elim
  goOn b c c' act x g h hc ha := by
    intro hidle
    have hat := h hidle
    obtain ⟨hnext, -⟩ := hat.resume hc (ha hat.1)
    refine ⟨hat.1, ?_⟩
    rcases hnext with ⟨rfl, -⟩ | ⟨rfl, -⟩ | ⟨ha', rfl, -⟩
    · exact .inr (.inl rfl)
    · exact .inr (.inr (.inl rfl))
    · exact .inr (.inr (.inr ⟨ha', rfl⟩))
  yieldToReady b c c' x g h hc ha _ := by
    intro hidle
    have hat := h hidle
    obtain ⟨hnext, -⟩ := hat.resume hc (ha hat.1)
    rcases hnext with ⟨-, hact⟩ | ⟨-, hact⟩ | ⟨-, -, hact | hact⟩ <;> cases hact
  yieldToHold b c c' x g h hc ha _ := by
    intro hidle
    have hat := h hidle
    obtain ⟨hnext, -⟩ := hat.resume hc (ha hat.1)
    refine ⟨hat.1, rfl, ?_⟩
    rcases hnext with ⟨hc', -⟩ | ⟨-, hact⟩ | ⟨-, -, hact | hact⟩
    · exact hc'
    all_goals cases hact
  ret b c c' x g h hc ha := by
    intro hidle
    have hat := h hidle
    obtain ⟨-, hret⟩ := hat.resume hc (ha hat.1)
    exact ⟨hat.1, .inr ⟨hret rfl, rfl, rfl⟩⟩
  throw b c c' x g h hc ha := by
    intro hidle
    have hat := h hidle
    obtain ⟨hnext, -⟩ := hat.resume hc (ha hat.1)
    rcases hnext with ⟨-, hact⟩ | ⟨-, hact⟩ | ⟨-, -, hact | hact⟩ <;> cases hact

/-! ### Evaluations of `stopping()` -/

/-- The step evaluates `stopping()`. -/
def Evaluates (s : State K) : Label K → Prop
  | .act _ (.stopping _) => True
  | .ctl => s.ctl = .singleTest ∨ s.ctl = .rootTest ∧ s.rootFiber.isSome = true
  | _ => False

instance (s : State K) : (l : Label K) → Decidable (Evaluates s l)
  | .act _ (.stopping _) => .isTrue trivial
  | .ctl => inferInstanceAs
    (Decidable (s.ctl = .singleTest ∨ s.ctl = .rootTest ∧ s.rootFiber.isSome = true))
  | .start _ | .stop | .work _ | .ext _ => .isFalse id
  | .act _ (.schedule _ _) | .act _ (.newFiber _ _) => .isFalse id
  | .act _ .yieldToReady | .act _ .yieldToHold | .act _ .ret | .act _ .throw => .isFalse id

/-- History: some evaluation of `stopping()` has returned true. -/
def answer (a : Bool) (s : State K) (l : Label K) : Bool :=
  a || (decide (Evaluates s l) && s.stopping)

/-- The idle fibers, given whether `stopping()` has answered true. -/
def IdleOk (a : Bool) (s : State K) : Prop :=
  Owned (fun idle => idle = true) () (fun p x _ => x.idle = true → IdleAt a p x) s fun _ => ()

theorem IdleOk.mono {a a' : Bool} {s : State K} (h : IdleOk a s) (ha : a = true → a' = true) :
    IdleOk a' s where
  inj := h.inj
  checked w f hk hpc := fun hidle => (h.checked w f hk hpc hidle).mono ha
  on w b f ph hk hpc := fun hidle => (h.on w b f ph hk hpc hidle).mono ha
  free f hk hf hfree := fun hidle => (h.free f hk hf hfree hidle).mono ha
  fresh := h.fresh

theorem IdleOk.step {a : Bool} {s s' : State K} {l : Label K} (h : IdleOk a s)
    (hP : P.idle = .idleTest) (hwf : WellFormed s) (hstep : step P s l = some s') :
    IdleOk (answer a s l) s' := by
  have hm := (step_move hstep).2
  -- the answer of this step is already in the history that the step is judged by
  have hmono : IdleOk (answer a s l) s := h.mono fun ha => by simp [answer, ha]
  refine Owned.move hmono (local_idleAt hP _) hwf nofun nofun ?_ hm
  rintro w act b f c rfl hpc - rfl
  have hstopping : s.stopping = true := by
    cases hm with
    | fails hf => cases hf with | yieldNotExec _ ha _ => simp at ha
    | owner hown _ => simp at hown
    | code _ _ _ hv => exact (hv true rfl).symm
  have heval : Evaluates s (.act w (.stopping true)) := trivial
  simp [answer, heval, hstopping]

/-- `run` returns in one place only, where it finds its idle fiber in `TERM`. -/
theorem Move.exited {s s' : State K} {l : Label K} (hm : Move P s l s') {v : Nat}
    (hlt : v < s'.nworkers) (hv : (s'.workers v).pc = .exited) :
    v < s.nworkers ∧ (s.workers v).pc = .exited ∨
      ∃ f, (s.workers v).pc = .idleTest ∧ (s.workers v).idleFiber = some f ∧
        (s.heap f).state = .term := by
  -- the step of worker `w` leads to another place of `run`
  have other : ∀ {w : Nat} {y : Worker K}, s'.nworkers = s.nworkers →
      s'.workers = Function.update s.workers w y → y.pc ≠ .exited →
      v < s.nworkers ∧ (s.workers v).pc = .exited := by
    intro w y hn hworkers hy
    rw [hworkers] at hv
    by_cases hvw : v = w
    · rw [hvw, Function.update_self] at hv
      exact absurd hv hy
    · rw [Function.update_of_ne hvw] at hv
      exact ⟨hn ▸ hlt, hv⟩
  cases hm with
  | fails _ => exact .inl ⟨hlt, hv⟩
  | owner _ hf =>
    by_cases hold : v < s.nworkers
    · rw [hf.old v (.inl hold)] at hv
      exact .inl ⟨hold, hv⟩
    · obtain ⟨tid, htid⟩ := hf.fresh v (by omega) hlt
      rw [htid] at hv
      cases hv
  | extSchedule _ => exact .inl ⟨hlt, hv⟩
  | extNew => exact .inl ⟨hlt, hv⟩
  | @idleExit w f hpc hidle hst =>
    by_cases hvw : v = w
    · exact .inr ⟨f, hvw ▸ hpc, hvw ▸ hidle, hst⟩
    · rw [s.setPC_ne w v _ hvw] at hv
      exact .inl ⟨hlt, hv⟩
  | _ => exact .inl (other rfl rfl nofun)

/-- An idle fiber ends only after `stopping()` has answered true. -/
theorem IdleOk.answered {a : Bool} {s : State K} (h : IdleOk a s) (hwf : WellFormed s) {w f : Nat}
    (hpc : (s.workers w).pc.hand = none) (hf : (s.workers w).idleFiber = some f)
    (hst : (s.heap f).state = .term) : a = true := by
  obtain ⟨hlt, hk⟩ := (hwf.worker w).idle f hf
  rcases h.free f hk hlt (hwf.idle_free hpc hf) hk with ⟨-, -, hst'⟩ |
    ⟨-, hst'⟩ | ⟨ha, -, -⟩
  · rw [hst] at hst'
    cases hst'
  · rw [hst] at hst'
    cases hst'
  · exact ha

end Gwn.Scheduler
