import Gwn.Scheduler.RoundRobin

/-! # Every turn comes

    What the round-robin machine has to do next the worker gets to by its own steps,
    whatever it is at: the bookkeeping behind a segment, or a round of its idle fiber. So
    it runs the segments that the machine runs, in the same order, and stops for nothing
    but an empty queue (`segments_in_turn`). -/

namespace Gwn.Scheduler

open LTS

variable {K : Type} {P : Prog K}

/-! ### Progress -/

/-- How many steps there are at most to one that is seen. -/
def Phase.toGo : Phase K → Nat
  | .assertNotExec => 14
  | .setExec => 13
  | .switchIn => 12
  | .inside .entry => 11
  | .inside (.body .idleTest) => 10
  | .inside (.body _) => 9
  | .inside .done | .requeue => 0
  | .yielding _ _ => 8
  | .switchOut _ => 7
  | .returned => 6
  | .testReady => 5
  | .testDone => 4
  | .setHold | .recycle => 3

/-- The same for every place in the loop of `run`. -/
def PC.toGo : PC K → Nat
  | .check none => 16
  | .idleTest => 15
  | .on _ _ ph => ph.toGo
  | .prelude => 3
  | .scan => 2
  | .check (some _) => 1
  | .prepare _ | .exited => 0

/-- Inside a fiber the most is left before its code begins. -/
theorem Phase.toGo_inside (p : Point K) : (Phase.inside p).toGo ≤ 11 := by
  cases p with
  | entry => simp [toGo]
  | body c => cases c <;> simp [toGo]
  | done => simp [toGo]

/-- From here the worker looks at the queue again before it leaves `run`. -/
def PC.stays : PC K → Bool
  | .exited | .check none | .idleTest => false
  | _ => true

/-- The same, up to the name under which a task begins. -/
def FifoLabel.Like : FifoLabel K → FifoLabel K → Prop
  | .begin _, .begin _ => True
  | o, o' => o' = o

/-- The machine's next step is `o`, and the worker has not seen its idle fiber end and the
    queue empty. A fiber that is made gets the next name. -/
structure Expected (P : Prog K) (tid : Int) (w : Nat) (o : FifoLabel K) (s : State K) : Prop where
  lone : Lone tid s
  fault : s.fault = none
  leaving : ¬ s.Leaving w
  enabled : ((fifo P).step s.fifo o).isSome
  inside : ∀ a, o ≠ .outside a
  names : ∀ k f, o = .act (.newFiber k f) → f = s.nfib

namespace Expected

variable {tid : Int} {w : Nat} {o : FifoLabel K} {s : State K}

/-- The worker is in `run`. -/
theorem live (h : Expected P tid w o s) : (s.workers w).pc ≠ .exited := by
  intro hexit
  apply h.leaving
  rw [State.Leaving, hexit]
  trivial

/-- What the worker does next. -/
def Goes (P : Prog K) (tid : Int) (w : Nat) (o : FifoLabel K) (s : State K) : Prop :=
  ∃ l s', l.ofWorker w ∧ step P s l = some s' ∧
    ((∃ o', s.observe l = some o' ∧ o.Like o') ∨
      s.observe l = none ∧ Expected P tid w o s' ∧
        (s'.workers w).pc.toGo < (s.workers w).pc.toGo)

/-- A step that is not seen. -/
theorem silent (h : Expected P tid w o s) (hP : P.idle = .idleTest) {l : Label K} {s' : State K}
    (hown : l.ofWorker w) (hstep : step P s l = some s') (hturn : InTurn tid s l)
    (hsee : s.observe l = none) (hfault : s'.fault = none) (hleaving : ¬ s'.Leaving w)
    (hnames : s'.nfib = s.nfib ∨ s.fifo.turn = .none)
    (hdown : (s'.workers w).pc.toGo < (s.workers w).pc.toGo) : Goes P tid w o s := by
  obtain ⟨hlone, hsim⟩ := h.lone.step hP hturn hstep
  rw [hsee] at hsim
  have hsame : s.fifo = s'.fifo := Option.some.inj hsim
  refine ⟨l, s', hown, hstep,
    .inr ⟨hsee, ⟨hlone, hfault, hleaving, ?_, h.inside, ?_⟩, hdown⟩⟩
  · rw [← hsame]
    exact h.enabled
  · rintro k f rfl
    rcases hnames with hn | hnone
    · rw [hn]
      exact h.names k f rfl
    · -- nobody makes fibers
      have henabled := h.enabled
      simp [fifo, Fifo.step, hnone] at henabled

/-- A step to `pc`, from where the worker does not leave. -/
theorem goesOn (h : Expected P tid w o s) (hP : P.idle = .idleTest) (l : Label K) (s' : State K)
    (pc : PC K) (hown : l.ofWorker w) (hstep : step P s l = some s') (hturn : InTurn tid s l)
    (hsee : s.observe l = none) (hfault : s'.fault = none) (hpc : (s'.workers w).pc = pc)
    (hstays : pc.stays = true)
    (hnames : s'.nfib = s.nfib ∨ s.fifo.turn = .none)
    (hdown : pc.toGo < (s.workers w).pc.toGo) : Goes P tid w o s := by
  apply h.silent hP hown hstep hturn hsee hfault _ hnames (by rw [hpc]; exact hdown)
  intro hleave
  unfold State.Leaving at hleave
  rw [hpc] at hleave
  split at hleave
  · cases hstays
  · cases hstays
  · cases hstays
  · exact hleave

/-- One step of the bookkeeping. -/
theorem work (h : Expected P tid w o s) (hP : P.idle = .idleTest) (s' : State K) (pc : PC K)
    (hstep : step P s (.work w) = some s') (hsee : s.observe (.work w) = none)
    (hfault : s'.fault = none) (hpc : (s'.workers w).pc = pc)
    (hstays : pc.stays = true)
    (hnames : s'.nfib = s.nfib ∨ s.fifo.turn = .none)
    (hdown : pc.toGo < (s.workers w).pc.toGo) : Goes P tid w o s :=
  h.goesOn hP (.work w) s' pc rfl hstep trivial hsee hfault hpc hstays hnames hdown

/-- In nobody's turn, only the next task can begin. -/
theorem begins (h : Expected P tid w o s) (hturn : s.fifo.turn = .none) :
    (∃ f, o = .begin f) ∧ s.fifo.queue ≠ [] := by
  have henabled := h.enabled
  cases o with
  | begin f =>
    refine ⟨⟨f, rfl⟩, ?_⟩
    intro hnil
    simp [fifo, Fifo.step, Fifo.beginStep, hturn, hnil] at henabled
  | act a => simp [fifo, Fifo.step, hturn] at henabled
  | requeue => simp [fifo, Fifo.step, hturn] at henabled
  | outside a => exact absurd rfl (h.inside a)

/-- One lemma for each place: the worker makes its idle fiber, -/
theorem goes_prelude (h : Expected P tid w o s) (hP : P.idle = .idleTest)
    (hpc : (s.workers w).pc = .prelude) : Goes P tid w o s := by
  have hturn : s.fifo.turn = .none := by
    rw [h.lone.turn_eq h.live, hpc]
    rfl
  apply h.work hP ((s.alloc (.new P.idle true)).setWorker w
    { s.workers w with pc := .scan, idleFiber := some s.nfib }) .scan
  · simp [Scheduler.step, h.fault, workStep, hpc]
  · simp [State.observe, hpc]
  · exact h.fault
  · simp
  · rfl
  · exact .inr hturn
  · rw [hpc]
    simp [PC.toGo]

/-- The worker looks at the queue, which is not empty. -/
theorem goes_scan (h : Expected P tid w o s) (hP : P.idle = .idleTest)
    (hpc : (s.workers w).pc = .scan) : Goes P tid w o s := by
  have hturn : s.fifo.turn = .none := by
    rw [h.lone.turn_eq h.live, hpc]
    rfl
  have hqueue := (h.begins hturn).2
  rw [h.lone.queue_eq h.live, hpc] at hqueue
  have hscan := h.lone.scan_head hpc
  cases hfibers : s.fibers with
  | nil => simp [hfibers, PC.popped] at hqueue
  | cons e q =>
    rw [hfibers] at hscan
    apply h.work hP ({ s with
      fibers := q, activeThreadCount := s.activeThreadCount + 1 }.setPC w (.check (some e.task)))
      (.check (some e.task))
    · simp [Scheduler.step, h.fault, workStep, hpc, hfibers, hscan]
    · simp [State.observe, hpc]
    · exact h.fault
    · simp
    · rfl
    · exact .inl rfl
    · rw [hpc]
      simp [PC.toGo]

/-- looks at what it has dequeued, -/
theorem goes_check (h : Expected P tid w o s) (hP : P.idle = .idleTest) {ft : Option (Task K)}
    (hpc : (s.workers w).pc = .check ft) : Goes P tid w o s := by
  have hturn : s.fifo.turn = .none := by
    rw [h.lone.turn_eq h.live, hpc]
    rfl
  match ft with
  | none =>
    -- a task has come in since
    have hstep : step P s (.work w) = some (s.setPC w .idleTest) := by
      simp [Scheduler.step, h.fault, workStep, hpc]
    apply h.silent hP (l := .work w) rfl hstep trivial
    · simp [State.observe, hpc]
    · exact h.fault
    · intro hleave
      apply h.leaving
      simpa [State.Leaving, hpc] using hleave
    · exact .inl rfl
    · rw [hpc, State.setPC_self]
      simp [PC.toGo]
  | some (.fiber f) =>
    -- the turn begins here
    obtain ⟨⟨g, rfl⟩, -⟩ := h.begins hturn
    have hfin : (s.heap f).state.finished = false := by
      simpa using h.lone.not_checkDone hpc
    refine ⟨.work w, s.setPC w (.on .task f .assertNotExec), rfl, ?_,
      .inl ⟨.begin f, ?_, trivial⟩⟩
    · simp [Scheduler.step, h.fault, workStep, hpc, hfin]
    · simp [State.observe, hpc]
  | some (.cb k) =>
    apply h.work hP (s.setPC w (.prepare k)) (.prepare k)
    · simp [Scheduler.step, h.fault, workStep, hpc]
    · simp [State.observe, hpc]
    · exact h.fault
    · simp
    · rfl
    · exact .inl rfl
    · rw [hpc]
      simp [PC.toGo]

/-- prepares a callback, -/
theorem goes_prepare (h : Expected P tid w o s) {k : K} (hpc : (s.workers w).pc = .prepare k) :
    Goes P tid w o s := by
  have hturn : s.fifo.turn = .none := by
    rw [h.lone.turn_eq h.live, hpc]
    rfl
  obtain ⟨⟨g, rfl⟩, -⟩ := h.begins hturn
  -- a callback begins in a new fiber, or in the one that is left from the callback before
  cases hcb : (s.workers w).cbFiber with
  | none =>
    refine ⟨.work w, (s.alloc (.new (.user k) false)).setWorker w { s.workers w with
      pc := .on .cb s.nfib .assertNotExec, cbFiber := some s.nfib }, rfl, ?_,
      .inl ⟨.begin s.nfib, ?_, trivial⟩⟩
    · simp [Scheduler.step, h.fault, workStep, hpc, hcb]
    · simp [State.observe, hpc, hcb]
  | some f =>
    have hspare := h.lone.cb.spare w f h.live hcb (by simp [hpc, PC.hand])
    have hreset : (s.heap f).state.resettable = true := by
      rw [hspare.1]
      rfl
    refine ⟨.work w, (s.setFiber f ((s.heap f).reset (some (.user k)))).setPC w
      (.on .cb f .assertNotExec), rfl, ?_, .inl ⟨.begin f, ?_, trivial⟩⟩
    · simp [Scheduler.step, h.fault, workStep, hpc, hcb, hreset]
    · simp [State.observe, hpc, hcb]

/-- and goes into the idle fiber, for it is not told to stop. -/
theorem goes_idleTest (h : Expected P tid w o s) (hP : P.idle = .idleTest)
    (hpc : (s.workers w).pc = .idleTest) : Goes P tid w o s := by
  have hidle := h.lone.solo.idle w h.live (by simp [hpc])
  obtain ⟨f, hf⟩ := Option.isSome_iff_exists.mp hidle
  -- otherwise the worker would leave `run` here
  have hterm : (s.heap f).state ≠ .term := by
    intro hterm
    apply h.leaving
    rw [State.Leaving, hpc]
    exact ⟨f, hf, hterm⟩
  apply h.work hP (s.setPC w (.on .idle f .assertNotExec)) (.on .idle f .assertNotExec)
  · simp [Scheduler.step, h.fault, workStep, hpc, hf, hterm]
  · simp [State.observe, hpc]
  · exact h.fault
  · simp
  · rfl
  · exact .inl rfl
  · rw [hpc]
    simp [PC.toGo, Phase.toGo]

/-! ### Inside `swapIn` and behind it -/

/-- A step on the fiber in hand that is not seen. -/
theorem onFiber (h : Expected P tid w o s) (hP : P.idle = .idleTest) {b : Branch} {f : Nat}
    {ph : Phase K} (x : Fiber K) (ph' : Phase K) (hpc : (s.workers w).pc = .on b f ph)
    (hstep : phaseStep s w b f ph = some ((s.setFiber f x).setPC w (.on b f ph')))
    (hdown : ph'.toGo < ph.toGo) : Goes P tid w o s := by
  apply h.work hP ((s.setFiber f x).setPC w (.on b f ph')) (.on b f ph')
  · simp [Scheduler.step, h.fault, workStep, hpc, hstep]
  · cases ph with
    | requeue => exact absurd hdown (Nat.not_lt_zero _)
    | _ => simp [State.observe, hpc]
  · exact h.fault
  · simp
  · rfl
  · exact .inl rfl
  · rw [hpc]
    exact hdown

/-- The worker lets go of the fiber. -/
theorem release (h : Expected P tid w o s) (hP : P.idle = .idleTest) {b : Branch} {f : Nat}
    {ph : Phase K} (s' : State K) (hpc : (s.workers w).pc = .on b f ph)
    (hstep : phaseStep s w b f ph = some s') (hph : 2 < ph.toGo) (hfault : s'.fault = s.fault)
    (hpc' : (s'.workers w).pc = .scan) (hnfib : s'.nfib = s.nfib) : Goes P tid w o s := by
  apply h.work hP s' .scan
  · simp [Scheduler.step, h.fault, workStep, hpc, hstep]
  · cases ph with
    | requeue => exact absurd hph (by simp [Phase.toGo])
    | _ => simp [State.observe, hpc]
  · exact hfault.trans h.fault
  · exact hpc'
  · rfl
  · exact .inl hnfib
  · rw [hpc]
    exact hph

/-- Into the fiber, and out of it. -/
theorem goes_swap (h : Expected P tid w o s) (hP : P.idle = .idleTest) {b : Branch} {f : Nat}
    {ph : Phase K} (hpc : (s.workers w).pc = .on b f ph)
    (hph : ph = .assertNotExec ∨ ph = .setExec ∨ ph = .switchIn ∨ ph = .inside .entry ∨
      (∃ st c, ph = .yielding st c) ∨ ∃ p, ph = .switchOut p) : Goes P tid w o s := by
  rcases hph with rfl | rfl | rfl | rfl | ⟨st, c, rfl⟩ | ⟨p, rfl⟩
  · have hexec : (s.heap f).state ≠ .exec :=
      fun hexec => h.lone.not_fails (.swapInExec hpc hexec)
    apply h.onFiber hP (s.heap f) .setExec hpc
    · rw [s.setFiber_heap]
      simp [phaseStep, hexec]
    · simp [Phase.toGo]
  · apply h.onFiber hP { s.heap f with state := .exec } .switchIn hpc rfl
    simp [Phase.toGo]
  · apply h.onFiber hP { s.heap f with saved := false } (.inside (s.heap f).ctx) hpc rfl
    exact Nat.lt_succ_of_le (Phase.toGo_inside _)
  · cases hcb : (s.heap f).cb with
    | none =>
      apply h.onFiber hP { s.heap f with state := .except } (.switchOut .done) hpc
      · simp [phaseStep, hcb, State.setState]
      · simp [Phase.toGo]
    | some c =>
      apply h.onFiber hP (s.heap f) (.inside (.body c)) hpc
      · simp [phaseStep, hcb]
      · cases c <;> simp [Phase.toGo]
  · apply h.onFiber hP { s.heap f with state := st } (.switchOut (.body c)) hpc rfl
    simp [Phase.toGo]
  · apply h.onFiber hP { s.heap f with ctx := p, saved := true } .returned hpc rfl
    simp [Phase.toGo]

/-- Back from the fiber. -/
theorem goes_returned (h : Expected P tid w o s) (hP : P.idle = .idleTest) {b : Branch} {f : Nat}
    (hpc : (s.workers w).pc = .on b f .returned) : Goes P tid w o s := by
  by_cases hb : b = .idle
  · -- an idle fiber is not counted, and is not asked whether it is `READY`
    subst hb
    apply h.onFiber hP (s.heap f) .testDone hpc
    · simp [phaseStep]
    · simp [Phase.toGo]
  · apply h.work hP ({ s with activeThreadCount := s.activeThreadCount - 1 }.setPC w
      (.on b f .testReady)) (.on b f .testReady)
    · cases b with
      | idle => exact absurd rfl hb
      | _ => simp [Scheduler.step, h.fault, workStep, hpc, phaseStep]
    · simp [State.observe, hpc]
    · exact h.fault
    · simp
    · rfl
    · exact .inl rfl
    · rw [hpc]
      simp [PC.toGo, Phase.toGo]

/-- What has become of the fiber. -/
theorem goes_test (h : Expected P tid w o s) (hP : P.idle = .idleTest) {b : Branch} {f : Nat}
    {ph : Phase K} (hpc : (s.workers w).pc = .on b f ph)
    (hph : ph = .testReady ∨ ph = .testDone) :
    Goes P tid w o s := by
  rcases hph with rfl | rfl
  · by_cases hready : (s.heap f).state = .ready
    · apply h.onFiber hP (s.heap f) .requeue hpc
      · simp [phaseStep, hready]
      · simp [Phase.toGo]
    · apply h.onFiber hP (s.heap f) .testDone hpc
      · simp [phaseStep, hready]
      · simp [Phase.toGo]
  · by_cases hfin : (s.heap f).state.finished = true
    · by_cases hb : b = .cb
      · subst hb
        apply h.onFiber hP (s.heap f) .recycle hpc
        · simp [phaseStep, hfin]
        · simp [Phase.toGo]
      · apply h.release hP (s.setPC w .scan) hpc
        · cases b with
          | cb => exact absurd rfl hb
          | _ => simp [phaseStep, hfin]
        · simp [Phase.toGo]
        · rfl
        · simp
        · rfl
    · apply h.onFiber hP (s.heap f) .setHold hpc
      · simp [phaseStep, hfin]
      · simp [Phase.toGo]

/-- A fiber is put on hold, -/
theorem goes_setHold (h : Expected P tid w o s) (hP : P.idle = .idleTest) {b : Branch} {f : Nat}
    (hpc : (s.workers w).pc = .on b f .setHold) : Goes P tid w o s := by
  apply h.release hP ((s.setState f .hold).setWorker w { s.workers w with
    pc := .scan, cbFiber := if b = .cb then none else (s.workers w).cbFiber }) hpc
  · cases b <;> simp [phaseStep]
  · simp [Phase.toGo]
  · rfl
  · simp
  · rfl

/-- or made ready for the next callback. -/
theorem goes_recycle (h : Expected P tid w o s) (hP : P.idle = .idleTest) {b : Branch} {f : Nat}
    (hpc : (s.workers w).pc = .on b f .recycle) : Goes P tid w o s := by
  have hreset : (s.heap f).state.resettable = true := by
    by_contra hx
    exact h.lone.not_fails (.recycle hpc (by simpa using hx))
  apply h.release hP ((s.setFiber f ((s.heap f).reset none)).setPC w .scan) hpc
  · simp [phaseStep, hreset]
  · simp [Phase.toGo]
  · rfl
  · simp
  · rfl

/-- A task that has yielded `READY` gets back into the queue. -/
theorem goes_requeue (h : Expected P tid w o s) {b : Branch} {f : Nat}
    (hpc : (s.workers w).pc = .on b f .requeue) : Goes P tid w o s := by
  have hb : b ≠ .idle := (h.lone.wf.worker w).fits b f _ hpc
  have hready : (s.heap f).state = .ready := (h.lone.on_task hpc hb).2.1.2
  have hturn : s.fifo.turn = .ready f := by
    rw [h.lone.turn_eq h.live, hpc, PC.turn_on hb]
    simp [Phase.turn, hready]
  have hlike : o.Like .requeue := by
    have henabled := h.enabled
    cases o with
    | requeue => rfl
    | begin g => simp [fifo, Fifo.step, Fifo.beginStep, hturn] at henabled
    | act a => simp [fifo, Fifo.step, hturn] at henabled
    | outside a => exact absurd rfl (h.inside a)
  refine ⟨.work w, (s.schedule (some (.fiber f)) (-1)).setWorker w { s.workers w with
    pc := .scan, cbFiber := if b = .cb then none else (s.workers w).cbFiber }, rfl, ?_,
    .inl ⟨.requeue, ?_, hlike⟩⟩
  · cases b <;> simp [Scheduler.step, h.fault, workStep, hpc, phaseStep]
  · simp [State.observe, hpc]

/-! ### The code in the fiber -/

/-- A round of the idle fiber, which hears that the queue is not empty. -/
theorem goes_idle (h : Expected P tid w o s) (hP : P.idle = .idleTest) {f : Nat} {c : Code K}
    (hpc : (s.workers w).pc = .on .idle f (.inside (.body c))) : Goes P tid w o s := by
  have hturn : s.fifo.turn = .none := by
    rw [h.lone.turn_eq h.live, hpc]
    rfl
  have hkind := (h.lone.wf.on_lt hpc).2.mpr rfl
  obtain ⟨-, hat⟩ := h.lone.idle.on w .idle f _ hkind hpc hkind
  have hexec : (s.heap f).state = .exec := (h.lone.owned.on _ _ _ _ trivial hpc).1.2
  rcases hat with ⟨hp, -⟩ | hp | hp | ⟨-, hp⟩ <;> cases hp
  · -- the loop condition
    have hfibers : s.fibers ≠ [] := by
      have hqueue := (h.begins hturn).2
      rw [h.lone.queue_eq h.live, hpc] at hqueue
      rintro hnil
      simp [hnil, PC.popped] at hqueue
    have hstopping : s.stopping = false := by simp [State.stopping, hfibers]
    apply h.goesOn hP (.act w (.stopping false))
      (s.setPC w (.on .idle f (.inside (.body .idleHold))))
      (.on .idle f (.inside (.body .idleHold))) rfl
    · simp [Scheduler.step, h.fault, actStep, codeStep, hpc, Code.resume, hstopping]
    · trivial
    · simp [State.observe, hpc]
    · exact h.fault
    · simp
    · rfl
    · exact .inl rfl
    · rw [hpc]
      simp [PC.toGo, Phase.toGo]
  · -- the loop body
    apply h.goesOn hP (.act w .yieldToHold)
      (s.setPC w (.on .idle f (.yielding .hold .idleTest)))
      (.on .idle f (.yielding .hold .idleTest)) rfl
    · simp [Scheduler.step, h.fault, actStep, codeStep, hpc, Code.resume, hexec]
    · trivial
    · simp [State.observe, hpc]
    · exact h.fault
    · simp
    · rfl
    · exact .inl rfl
    · rw [hpc]
      simp [PC.toGo, Phase.toGo]
  · -- the answer was true, before the task came in
    apply h.goesOn hP (.act w .ret)
      ((s.setFiber f { s.heap f with cb := none, state := .term }).setPC w
        (.on .idle f (.switchOut .done)))
      (.on .idle f (.switchOut .done)) rfl
    · simp [Scheduler.step, h.fault, actStep, codeStep, hpc, Code.resume]
    · trivial
    · simp [State.observe, hpc]
    · exact h.fault
    · simp
    · rfl
    · exact .inl rfl
    · rw [hpc]
      simp [PC.toGo, Phase.toGo]

/-- A fiber with code to go on in can be scheduled. -/
theorem schedulable_of_code {f : Nat} (hcode : (s.code f).isSome) :
    s.Schedulable (some (.fiber f)) := by
  unfold State.code at hcode
  split at hcode
  · next hlt => exact hlt
  · cases hcode

/-- The code in a task can do what the segment can. -/
theorem codeStep_isSome (h : Lone tid s) {b : Branch} {f : Nat} {c : Code K} {a : Act K}
    (hpc : (s.workers w).pc = .on b f (.inside (.body c))) (hb : b ≠ .idle)
    (hact : (s.fifo.actStep P f c a).isSome) (hnames : ∀ k g, a = .newFiber k g → g = s.nfib) :
    (codeStep P s w b f c a).isSome := by
  have hexec : (s.heap f).state = .exec := (h.owned.on _ _ _ _ trivial hpc).1.2
  unfold Fifo.actStep at hact
  cases hc : c.resume P a with
  | none => simp [hc] at hact
  | some c' =>
    rw [hc, Option.bind_some] at hact
    unfold codeStep
    rw [hc, Option.bind_some]
    cases a with
    | schedule fc thread =>
      have hfc : s.Schedulable fc := by
        match fc with
        | some (.cb _) | none => trivial
        | some (.fiber g) =>
          by_cases hg : g = f
          · -- it schedules itself
            subst hg
            exact (h.on_task hpc hb).1
          · apply schedulable_of_code
            have hwait : (s.fifo.setCode f (some c')).Waiting g := by
              by_contra hnot
              simp [Fifo.does, hnot] at hact
            have hcode : (Function.update s.code f (some c') g).isSome := hwait.1
            rwa [Function.update_of_ne hg] at hcode
      simp [hfc]
    | newFiber k g => simp [hnames k g rfl]
    | stopping v =>
      cases v with
      | false => simp [h.not_stopping hpc hb]
      | true => simp at hact
    | yieldToReady => simp [hexec]
    | yieldToHold => simp [hexec]
    | ret => rfl
    | throw => rfl

/-- A segment does what it does next. -/
theorem goes_segment (h : Expected P tid w o s) {b : Branch} {f : Nat} {c : Code K}
    (hpc : (s.workers w).pc = .on b f (.inside (.body c))) (hb : b ≠ .idle) :
    Goes P tid w o s := by
  have hturn : s.fifo.turn = .running f := by
    rw [h.lone.turn_eq h.live, hpc, PC.turn_on hb]
    rfl
  have hcode : s.fifo.code f = some c := by
    show s.code f = _
    rw [h.lone.code_on hpc hb]
    rfl
  have henabled := h.enabled
  cases o with
  | begin g => simp [fifo, Fifo.step, Fifo.beginStep, hturn] at henabled
  | requeue => simp [fifo, Fifo.step, hturn] at henabled
  | outside a => exact absurd rfl (h.inside a)
  | act a =>
    have hact : (s.fifo.actStep P f c a).isSome := by
      simpa [fifo, Fifo.step, hturn, hcode] using henabled
    have hsome := codeStep_isSome h.lone hpc hb hact fun k g hg => h.names k g (by rw [hg])
    obtain ⟨s', hstep⟩ := Option.isSome_iff_exists.mp hsome
    refine ⟨.act w a, s', rfl, ?_, .inl ⟨.act a, ?_, rfl⟩⟩
    · simp [Scheduler.step, h.fault, actStep, hpc, hstep]
    · cases b with
      | idle => exact absurd rfl hb
      | _ => simp [State.observe, hpc]

/-- Whatever the worker is at, it goes on towards what is expected. -/
theorem goes (h : Expected P tid w o s) (hP : P.idle = .idleTest) : Goes P tid w o s := by
  cases hpc : (s.workers w).pc with
  | prelude => exact h.goes_prelude hP hpc
  | scan => exact h.goes_scan hP hpc
  | check ft => exact h.goes_check hP hpc
  | prepare k => exact h.goes_prepare hpc
  | idleTest => exact h.goes_idleTest hP hpc
  | exited => exact absurd hpc h.live
  | on b f ph =>
    cases ph with
    | assertNotExec => exact h.goes_swap hP hpc (.inl rfl)
    | setExec => exact h.goes_swap hP hpc (.inr (.inl rfl))
    | switchIn => exact h.goes_swap hP hpc (.inr (.inr (.inl rfl)))
    | yielding st c => exact h.goes_swap hP hpc (.inr (.inr (.inr (.inr (.inl ⟨st, c, rfl⟩)))))
    | switchOut p => exact h.goes_swap hP hpc (.inr (.inr (.inr (.inr (.inr ⟨p, rfl⟩)))))
    | returned => exact h.goes_returned hP hpc
    | testReady => exact h.goes_test hP hpc (.inl rfl)
    | testDone => exact h.goes_test hP hpc (.inr rfl)
    | requeue => exact h.goes_requeue hpc
    | setHold => exact h.goes_setHold hP hpc
    | recycle => exact h.goes_recycle hP hpc
    | inside p =>
      cases p with
      | entry => exact h.goes_swap hP hpc (.inr (.inr (.inr (.inl rfl))))
      | done => exact absurd (.neverReach hpc) h.lone.not_fails
      | body c =>
        by_cases hb : b = .idle
        · subst hb
          exact h.goes_idle hP hpc
        · exact h.goes_segment hpc hb

/-- It gets there, and nothing else is seen on the way. -/
theorem reached (h : Expected P tid w o s) (hP : P.idle = .idleTest) (useCaller : Bool) :
    ∃ ls s' o', (∀ l ∈ ls, l.ofWorker w) ∧
      (scheduler P 1 useCaller tid).exec s ls = some s' ∧
      (scheduler P 1 useCaller tid).trace State.observe s ls = [o'] ∧ o.Like o' :=
  @System.exists_seen _ _ _ (scheduler P 1 useCaller tid) State.observe (Expected P tid w o)
    (fun l => l.ofWorker w) o.Like (fun s => (s.workers w).pc.toGo) (fun _ h => h.goes hP) s h

end Expected

/-! ### Exceptions -/

theorem Fifo.step_throw {m m' : Fifo K} (h : m.step P (.act .throw) = some m') :
    ∃ f, m.turn = .running f ∧ m' = { m.setCode f none with turn := .none } := by
  simp only [Fifo.step] at h
  split at h
  · next f hturn =>
    obtain ⟨c, -, hact⟩ := Option.bind_eq_some_iff.mp h
    obtain ⟨c', -, hact⟩ := Option.bind_eq_some_iff.mp hact
    exact ⟨f, hturn, (Option.some.inj hact).symm⟩
  · cases h

/-- An exception ends the segment that throws, and nothing else. -/
theorem Lone.throws {tid : Int} {s s' : State K} {w : Nat} (h : Lone tid s)
    (hP : P.idle = .idleTest) (hstep : Scheduler.step P s (.act w .throw) = some s') :
    s'.fault = none ∧
      ∃ f, s.fifo.turn = .running f ∧
        s'.fifo = { s.fifo.setCode f none with turn := .none } := by
  obtain ⟨hfault, hm⟩ := step_move hstep
  have hsim := (h.step hP (l := .act w .throw) trivial hstep).2
  cases hm with
  | fails hf => exact absurd hf h.not_fails
  | owner hown _ => rcases hown with ⟨_, hl⟩ | hl | hl <;> cases hl
  | @code w b f c c' a x ph' hpc hc _ _ =>
    refine ⟨hfault, ?_⟩
    have hsee : s.observe (.act w .throw) = some (.act .throw) := by
      cases b with
      | idle => rcases h.idle_acts hpc hc with ha | ⟨v, ha⟩ | ha <;> cases ha
      | _ => simp [State.observe, hpc]
    rw [hsee] at hsim
    apply Fifo.step_throw (P := P)
    obtain ⟨m, hthrow, hm⟩ := Option.bind_eq_some_iff.mp hsim
    cases hm
    exact hthrow

/-! ### Whole runs -/

/-- A run to `s`, and the round-robin machine. -/
structure RoundRobin (P : Prog K) (useCaller : Bool) (tid : Int) (ls : List (Label K))
    (s : State K) : Prop where
  /-- The segments of the run, with all they do, are those of the machine in their order. -/
  segments : (fifo P).exec .initial ((oneWorker P useCaller tid).trace State.observe
    (.initial 1 useCaller tid) ls) = some s.fifo
  /-- The worker takes the head of the queue, and nothing only if there is nothing. -/
  head : ∀ w, (s.workers w).pc = .scan →
    scanQueue s.heap (s.workers w).tid s.fibers = s.fibers.head?.map fun e => (e, s.fibers.tail)
  /-- Whatever the machine can do next, the worker gets to by its own steps, unless it
      leaves `run`. -/
  next : ∀ w o, s.fault = none → ¬ s.Leaving w → ((fifo P).step s.fifo o).isSome →
    (∀ a, o ≠ .outside a) → (∀ k f, o = .act (.newFiber k f) → f = s.nfib) →
    ∃ ls' s' o', (∀ l ∈ ls', l.ofWorker w) ∧
      (scheduler P 1 useCaller tid).exec s ls' = some s' ∧
      (scheduler P 1 useCaller tid).trace State.observe s ls' = [o'] ∧ o.Like o'
  /-- An exception ends the segment that throws it. The queue and all other tasks are as
      they were. -/
  throws : ∀ w s', step P s (.act w .throw) = some s' → s'.fault = none ∧
    ∃ f, s.fifo.turn = .running f ∧ s'.fifo = { s.fifo.setCode f none with turn := .none }

/-- With one worker, for any code and however its steps, the owner's and those of other
    threads interleave: as long as tasks are scheduled for any thread or the worker's, and
    fibers when they are new or held and not queued, `run` executes the segments that a
    FIFO queue in which who yields `READY` gets back to the end would. -/
theorem segments_in_turn (hP : P.idle = .idleTest) (useCaller : Bool) (tid : Int)
    {ls : List (Label K)} {s : State K}
    (hrun : (oneWorker P useCaller tid).exec (.initial 1 useCaller tid) ls = some s) :
    RoundRobin P useCaller tid ls s := by
  obtain ⟨hlone, htrace⟩ :=
    (oneWorker_refines hP useCaller tid).exec (lone_initial useCaller tid) hrun
  rw [fifo_initial] at htrace
  refine ⟨htrace, ?_, ?_, ?_⟩
  · intro w hpc
    exact hlone.scan_head hpc
  · intro w o hfault hleaving henabled hinside hnames
    have hexpected : Expected P tid w o s :=
      ⟨hlone, hfault, hleaving, henabled, hinside, hnames⟩
    exact hexpected.reached hP useCaller
  · intro w s' hstep
    exact hlone.throws hP hstep

/-- Two callbacks, of which the first yields `READY` and the second throws. -/
def oneThrows : List (Label Script) :=
  [.ext (.schedule (some (.cb (.yieldToReady .ret))) (-1)), .ext (.schedule (some (.cb .throw)) 7),
    .start [7]] ++ List.replicate 8 (.work 0) ++ [.act 0 .yieldToReady] ++
    List.replicate 12 (.work 0) ++ [.act 0 .throw] ++ List.replicate 10 (.work 0) ++ [.act 0 .ret]

/-- The turns alternate, and the first callback has its second turn after the exception. -/
theorem segments_in_turn_oneThrows : ∃ s,
    (oneWorker scripted false 7).exec (.initial 1 false 7) oneThrows = some s ∧
    (oneWorker scripted false 7).trace State.observe (.initial 1 false 7) oneThrows =
      [.outside (.schedule (some (.cb (.yieldToReady .ret))) (-1)),
        .outside (.schedule (some (.cb .throw)) 7), .begin 1, .act .yieldToReady, .requeue,
        .begin 2, .act .throw, .begin 1, .act .ret] ∧
    RoundRobin scripted false 7 oneThrows s := by
  have hrun : ((oneWorker scripted false 7).exec (.initial 1 false 7) oneThrows).isSome := by decide
  obtain ⟨s, hs⟩ := Option.isSome_iff_exists.mp hrun
  refine ⟨s, hs, ?_, ?_⟩
  · decide
  · exact segments_in_turn rfl false 7 hs

end Gwn.Scheduler
