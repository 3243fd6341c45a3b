/-
  `thread.rs` — `Condvar`, and what its notifications answer.

  A condition variable counts in `waiters` the threads inside `wait`, and
  `notify_one` and `notify_all` answer from that count.  A thread that was
  woken is counted until it has taken the mutex again.

  The mutex, the count and the threads blocked in `pthread_cond_wait` are
  explicit; every access to one of them is a step, and a thread may wake
  without a signal.  A notification is a load of the count and a signal, by a
  thread that holds the mutex or not.

  * `Exact`: what a thread that holds the mutex was answered is what its signal
    did;
  * `exact_iff`: this is so exactly in the runs in which such a signal finds
    another thread blocked, or none that was woken and has not returned, and
    such a broadcast none that was woken and has not returned.
-/
import Ekostd.Lib.Sts
import Ekostd.Lib.Count

namespace Ekostd.Thread.Condvar

/-- Where a thread is: outside, at an access of `wait` (counting itself, calling
    `pthread_cond_wait`, blocked in it, woken but without the mutex, uncounting itself), or at one
    of `notify_one` and `notify_all` (loading the count, signalling with the answer it has). -/
inductive Pc where
  | idle
  | fetchAdd
  | condWait
  | blocked
  | woken
  | fetchSub
  | loadOne
  | signal (hadWaiter : Bool)
  | loadAll
  | broadcast (waiting : ℕ)
  deriving DecidableEq

/-- A notification that returned: whether its thread held the mutex, its answer, and how many
    threads were blocked, and not woken, when it signalled. -/
inductive Event where
  | one (holder : Bool) (hadWaiter : Bool) (blocked : ℕ)
  | all (holder : Bool) (waiting : ℕ) (blocked : ℕ)
  deriving DecidableEq

/-- The owner of the mutex, the count, the threads, and the notifications that returned. -/
structure State (ι : Type*) where
  owner : Option ι
  waiters : ℕ
  pc : ι → Pc
  log : List Event

/-- A thread takes or releases the mutex, calls `wait`, `notify_one` or `notify_all`, makes its
    next access, signals the thread `u`, or wakes spuriously. -/
inductive Act (ι : Type*) where
  | lock (t : ι)
  | unlock (t : ι)
  | wait (t : ι)
  | notifyOne (t : ι)
  | notifyAll (t : ι)
  | step (t : ι)
  | signal (t u : ι)
  | spurious (u : ι)

variable {ι : Type*} [DecidableEq ι] [Fintype ι]

/-- A thread inside `wait`, from the counting to the uncounting. -/
def Pc.counted : Pc → Bool
  | condWait | blocked | woken | fetchSub => true
  | _ => false

/-- The effect of a broadcast. -/
def Pc.wake : Pc → Pc
  | blocked => woken
  | p => p

/-- The threads blocked in `pthread_cond_wait` that have not been woken. -/
def blocked (f : ι → Pc) : ℕ := Sts.count (fun p => p = .blocked) f

/-- The threads that were woken and have not taken the mutex again. -/
def woken (f : ι → Pc) : ℕ := Sts.count (fun p => p = .woken) f

namespace State

/-- The thread `t` goes on at `p`. -/
def goto (s : State ι) (t : ι) (p : Pc) : State ι := { s with pc := Function.update s.pc t p }

/-- Whether `t` holds the mutex. -/
def holds (s : State ι) (t : ι) : Bool := s.owner = some t

/-- The notification of `t` returns. -/
def answer (s : State ι) (t : ι) (e : Event) : State ι :=
  { s.goto t .idle with log := s.log ++ [e] }

/-- The next access of the thread `t`, a signal that finds a thread blocked apart. -/
def access (s : State ι) (t : ι) : Option (State ι) :=
  match s.pc t with
  | .fetchAdd => some ({ s with waiters := s.waiters + 1 }.goto t .condWait)
  | .condWait => some ({ s with owner := none }.goto t .blocked)
  | .woken => if s.owner = none then some ({ s with owner := some t }.goto t .fetchSub) else none
  | .fetchSub => some ({ s with waiters := s.waiters - 1 }.goto t .idle)
  | .loadOne => some (s.goto t (.signal (0 < s.waiters)))
  | .signal hadWaiter =>
    if blocked s.pc = 0 then some (s.answer t (.one (s.holds t) hadWaiter 0)) else none
  | .loadAll => some (s.goto t (.broadcast s.waiters))
  | .broadcast waiting =>
    some ({ s with pc := fun u => (s.pc u).wake }.answer t
      (.all (s.holds t) waiting (blocked s.pc)))
  | .idle | .blocked => none

/-- One step of one thread. -/
def step (s : State ι) : Act ι → Option (State ι)
  | .lock t => if s.pc t = .idle ∧ s.owner = none then some { s with owner := some t } else none
  | .unlock t => if s.pc t = .idle ∧ s.owner = some t then some { s with owner := none } else none
  | .wait t => if s.pc t = .idle ∧ s.owner = some t then some (s.goto t .fetchAdd) else none
  | .notifyOne t => if s.pc t = .idle then some (s.goto t .loadOne) else none
  | .notifyAll t => if s.pc t = .idle then some (s.goto t .loadAll) else none
  | .step t => s.access t
  | .signal t u =>
    match s.pc t with
    | .signal hadWaiter =>
      if s.pc u = .blocked then
        some ((s.goto u .woken).answer t (.one (s.holds t) hadWaiter (blocked s.pc)))
      else none
    | _ => none
  | .spurious u => if s.pc u = .blocked then some (s.goto u .woken) else none

end State

/-- One condition variable with one mutex, used by the threads `ι`. -/
def system (ι : Type*) [DecidableEq ι] [Fintype ι] : Sts (State ι) (Act ι) where
  init := ⟨none, 0, fun _ => .idle, []⟩
  step := State.step

/-! ## What a step can do -/

/-- The steps, one constructor for each. -/
inductive Step (s s' : State ι) : Act ι → Prop
  | lock (t : ι) : s.pc t = .idle → s.owner = none → s' = { s with owner := some t } →
      Step s s' (.lock t)
  | unlock (t : ι) : s.pc t = .idle → s.owner = some t → s' = { s with owner := none } →
      Step s s' (.unlock t)
  | wait (t : ι) : s.pc t = .idle → s.owner = some t → s' = s.goto t .fetchAdd → Step s s' (.wait t)
  | notifyOne (t : ι) : s.pc t = .idle → s' = s.goto t .loadOne → Step s s' (.notifyOne t)
  | notifyAll (t : ι) : s.pc t = .idle → s' = s.goto t .loadAll → Step s s' (.notifyAll t)
  | fetchAdd (t : ι) : s.pc t = .fetchAdd →
      s' = { s with waiters := s.waiters + 1 }.goto t .condWait → Step s s' (.step t)
  | condWait (t : ι) : s.pc t = .condWait → s' = { s with owner := none }.goto t .blocked →
      Step s s' (.step t)
  | retake (t : ι) : s.pc t = .woken → s.owner = none →
      s' = { s with owner := some t }.goto t .fetchSub → Step s s' (.step t)
  | fetchSub (t : ι) : s.pc t = .fetchSub →
      s' = { s with waiters := s.waiters - 1 }.goto t .idle → Step s s' (.step t)
  | loadOne (t : ι) : s.pc t = .loadOne → s' = s.goto t (.signal (0 < s.waiters)) →
      Step s s' (.step t)
  | loadAll (t : ι) : s.pc t = .loadAll → s' = s.goto t (.broadcast s.waiters) →
      Step s s' (.step t)
  | signalNone (t : ι) (b : Bool) : s.pc t = .signal b → blocked s.pc = 0 →
      s' = s.answer t (.one (s.holds t) b 0) → Step s s' (.step t)
  | signal (t u : ι) (b : Bool) : s.pc t = .signal b → s.pc u = .blocked →
      s' = (s.goto u .woken).answer t (.one (s.holds t) b (blocked s.pc)) → Step s s' (.signal t u)
  | broadcast (t : ι) (n : ℕ) : s.pc t = .broadcast n →
      s' = { s with pc := fun u => (s.pc u).wake }.answer t
        (.all (s.holds t) n (blocked s.pc)) → Step s s' (.step t)
  | spurious (u : ι) : s.pc u = .blocked → s' = s.goto u .woken → Step s s' (.spurious u)

/-- **Every step is one of these.** -/
theorem step_cases {s s' : State ι} {a : Act ι} (h : s.step a = some s') : Step s s' a := by
  cases a with
  | lock t =>
    simp only [State.step] at h
    split_ifs at h with hc
    cases h; exact .lock t hc.1 hc.2 rfl
  | unlock t =>
    simp only [State.step] at h
    split_ifs at h with hc
    cases h; exact .unlock t hc.1 hc.2 rfl
  | wait t =>
    simp only [State.step] at h
    split_ifs at h with hc
    cases h; exact .wait t hc.1 hc.2 rfl
  | notifyOne t =>
    simp only [State.step] at h
    split_ifs at h with hc
    cases h; exact .notifyOne t hc rfl
  | notifyAll t =>
    simp only [State.step] at h
    split_ifs at h with hc
    cases h; exact .notifyAll t hc rfl
  | step t =>
    simp only [State.step, State.access] at h
    split at h
    · next hpc => cases h; exact .fetchAdd t hpc rfl
    · next hpc => cases h; exact .condWait t hpc rfl
    · next hpc =>
      split_ifs at h with hc
      cases h; exact .retake t hpc hc rfl
    · next hpc => cases h; exact .fetchSub t hpc rfl
    · next hpc => cases h; exact .loadOne t hpc rfl
    · next b hpc =>
      split_ifs at h with hc
      cases h; exact .signalNone t b hpc hc rfl
    · next hpc => cases h; exact .loadAll t hpc rfl
    · next n hpc => cases h; exact .broadcast t n hpc rfl
    · cases h
    · cases h
  | signal t u =>
    simp only [State.step] at h
    split at h
    · next b hpc =>
      split_ifs at h with hu
      cases h; exact .signal t u b hpc hu rfl
    · cases h
  | spurious u =>
    simp only [State.step] at h
    split_ifs at h with hu
    cases h; exact .spurious u hu rfl

/-! ## The count -/

/-- A thread inside `wait` that holds the mutex. -/
def Pc.holding : Pc → Bool
  | fetchAdd | condWait | fetchSub => true
  | _ => false

theorem Pc.counted_iff {p : Pc} (hp : p.holding = false) :
    p.counted = true ↔ p = .blocked ∨ p = .woken := by
  cases p <;> simp [counted, holding] at hp ⊢

@[simp] theorem Pc.counted_wake (p : Pc) : p.wake.counted = p.counted := by
  cases p <;> rfl

@[simp] theorem Pc.holding_wake (p : Pc) : p.wake.holding = p.holding := by
  cases p <;> rfl

theorem Pc.eq_of_wake {p q : Pc} (hq : q ≠ .woken) (h : p.wake = q) : p = q := by
  cases p with
  | blocked => exact absurd h.symm hq
  | _ => exact h

/-- The count is right; inside `wait` it is changed only with the mutex held; and what a thread that
    holds the mutex has loaded is still the count. -/
structure Inv (s : State ι) : Prop where
  counted : s.waiters = Sts.count (fun p => p.counted) s.pc
  holding : ∀ t, (s.pc t).holding → s.owner = some t
  loadedOne : ∀ t b, s.owner = some t → s.pc t = .signal b → b = decide (0 < s.waiters)
  loadedAll : ∀ t n, s.owner = some t → s.pc t = .broadcast n → n = s.waiters

omit [DecidableEq ι] in
/-- A thread that holds the mutex and is outside `wait` finds every counted thread blocked or
    woken. -/
theorem Inv.waiters_eq {s : State ι} (h : Inv s) {t : ι} (ho : s.owner = some t)
    (ht : (s.pc t).holding = false) : s.waiters = blocked s.pc + woken s.pc := by
  have hnone : ∀ u, (s.pc u).holding = false := by
    intro u
    by_contra hu
    obtain rfl : t = u := Option.some.inj (ho.symm.trans (h.holding u (by simpa using hu)))
    exact hu ht
  rw [h.counted, blocked, woken]
  exact Sts.count_or (fun u => Pc.counted_iff (hnone u)) fun u hb hw => by simp [hb] at hw

/-- A thread moves; it is inside `wait` as before, and if it holds the mutex it has loaded the
    count. -/
theorem Inv.goto {s : State ι} (h : Inv s) {t : ι} {p : Pc} {l : List Event}
    (hc : p.counted = (s.pc t).counted) (hh : p.holding → s.owner = some t)
    (hone : ∀ b, p = .signal b → b = decide (0 < s.waiters))
    (hall : ∀ n, p = .broadcast n → n = s.waiters) :
    Inv (⟨s.owner, s.waiters, Function.update s.pc t p, l⟩ : State ι) := by
  have hcount := Sts.count_update (fun p => p.counted = true) s.pc t p
  rw [hc] at hcount
  have hmove : ∀ P : ι → Pc → Prop, P t p → (∀ u, P u (s.pc u)) →
      ∀ u, P u (Function.update s.pc t p u) :=
    fun P hp hall => (Function.forall_update_iff s.pc P).2 ⟨hp, fun u _ => hall u⟩
  refine ⟨?_, hmove (fun u q => q.holding → s.owner = some u) hh h.holding,
    hmove (fun u q => ∀ b, s.owner = some u → q = .signal b → b = decide (0 < s.waiters))
      (fun b _ => hone b) h.loadedOne,
    hmove (fun u q => ∀ n, s.owner = some u → q = .broadcast n → n = s.waiters)
      (fun n _ => hall n) h.loadedAll⟩
  rw [h.counted]
  exact (Nat.add_right_cancel hcount).symm

theorem Inv.inside {s : State ι} (h : Inv s) {t : ι} {p : Pc} {o : Option ι} {w : ℕ}
    {l : List Event} (ho : s.owner = some t ∨ s.owner = none) (ho' : o = some t ∨ o = none)
    (hp : ∀ b n, p ≠ .signal b ∧ p ≠ .broadcast n) (hh : p.holding → o = some t)
    (hc : w + (if (s.pc t).counted then 1 else 0) = s.waiters + if p.counted then 1 else 0) :
    Inv (⟨o, w, Function.update s.pc t p, l⟩ : State ι) := by
  have hother : ∀ u, u ≠ t → o ≠ some u := by
    rintro u hu rfl
    rcases ho' with ho' | ho'
    · exact hu (Option.some.inj ho')
    · cases ho'
  have hcount := Sts.count_update (fun p => p.counted = true) s.pc t p
  rw [← h.counted] at hcount
  have hw : w = Sts.count (fun p => p.counted = true) (Function.update s.pc t p) := by omega
  have hmove : ∀ P : ι → Pc → Prop, P t p → (∀ u, u ≠ t → P u (s.pc u)) →
      ∀ u, P u (Function.update s.pc t p u) :=
    fun P hp hall => (Function.forall_update_iff s.pc P).2 ⟨hp, hall⟩
  refine ⟨hw, hmove (fun u q => q.holding → o = some u) hh fun u hu hq => ?_,
    hmove (fun u q => ∀ b, o = some u → q = .signal b → b = decide (0 < w))
      (fun b _ hb => absurd hb (hp b 0).1) fun u hu b hou => absurd hou (hother u hu),
    hmove (fun u q => ∀ n, o = some u → q = .broadcast n → n = w)
      (fun n _ hn => absurd hn (hp false n).2) fun u hu n hou => absurd hou (hother u hu)⟩
  -- nobody else is inside `wait` with the mutex, as `t` has it or nobody
  have hou := h.holding u hq
  rcases ho with ho | ho <;> rw [ho] at hou
  · exact absurd (Option.some.inj hou).symm hu
  · cases hou

omit [DecidableEq ι] in
theorem Inv.mutex {s : State ι} (h : Inv s) {t : ι} {o : Option ι} (ht : s.pc t = .idle)
    (ho : s.owner = some t ∨ s.owner = none) (ho' : o = some t ∨ o = none) :
    Inv { s with owner := o } := by
  have hother : ∀ u, (s.pc u).holding = false := by
    intro u
    by_contra hu
    have := h.holding u (by simpa using hu)
    rcases ho with ho | ho <;> rw [ho] at this
    · obtain rfl := Option.some.inj this
      simp [ht, Pc.holding] at hu
    · cases this
  have hself : ∀ u, o = some u → s.pc u = .idle := by
    intro u hu
    rcases ho' with ho' | ho'
    · obtain rfl := Option.some.inj (hu.symm.trans ho')
      exact ht
    · rw [ho'] at hu; cases hu
  refine ⟨h.counted, fun u hu => ?_, fun u b hou hu => ?_, fun u n hou hu => ?_⟩
  · simp [hother u] at hu
  · have hidle := hself u hou
    rw [hu] at hidle
    cases hidle
  · have hidle := hself u hou
    rw [hu] at hidle
    cases hidle

omit [DecidableEq ι] in
theorem Inv.wake {s : State ι} (h : Inv s) : Inv { s with pc := fun u => (s.pc u).wake } := by
  refine ⟨?_, fun u hu => h.holding u ?_, fun u b ho hu => h.loadedOne u b ho ?_,
    fun u n ho hu => h.loadedAll u n ho ?_⟩
  · rw [h.counted]
    exact Sts.count_congr fun u => by rw [Pc.counted_wake]
  · rwa [Pc.holding_wake] at hu
  · exact Pc.eq_of_wake (by simp) hu
  · exact Pc.eq_of_wake (by simp) hu

/-- **What one step preserves.** -/
theorem Inv.step {s s' : State ι} {a : Act ι} (h : Inv s) (hs : Step s s' a) : Inv s' := by
  have hwait : ∀ {t}, (s.pc t).holding → s.owner = some t := fun {t} => h.holding t
  cases hs with
  | lock t ht ho hs' => subst hs'; exact h.mutex ht (Or.inr ho) (Or.inl rfl)
  | unlock t ht ho hs' => subst hs'; exact h.mutex ht (Or.inl ho) (Or.inr rfl)
  | wait t ht ho hs' =>
    subst hs'
    exact h.goto (by rw [ht]; rfl) (fun _ => ho) (by simp) (by simp)
  | notifyOne t ht hs' | notifyAll t ht hs' =>
    subst hs'
    exact h.goto (by rw [ht]; rfl) (by simp [Pc.holding]) (by simp) (by simp)
  | fetchAdd t ht hs' =>
    subst hs'
    have ho : s.owner = some t := hwait (by rw [ht]; rfl)
    exact h.inside (Or.inl ho) (Or.inl ho) (by simp) (fun _ => ho) (by simp [ht, Pc.counted])
  | condWait t ht hs' =>
    subst hs'
    have ho : s.owner = some t := hwait (by rw [ht]; rfl)
    exact h.inside (Or.inl ho) (Or.inr rfl) (by simp) (by simp [Pc.holding])
      (by simp [ht, Pc.counted])
  | retake t ht ho hs' =>
    subst hs'
    exact h.inside (Or.inr ho) (Or.inl rfl) (by simp) (fun _ => rfl) (by simp [ht, Pc.counted])
  | fetchSub t ht hs' =>
    subst hs'
    have ho : s.owner = some t := hwait (by rw [ht]; rfl)
    have hpos : 0 < s.waiters := by
      rw [h.counted]; exact Sts.count_pos.2 ⟨t, by rw [ht]; rfl⟩
    refine h.inside (Or.inl ho) (Or.inl ho) (by simp) (by simp [Pc.holding]) ?_
    simp only [ht, Pc.counted]
    simp
    omega
  | loadOne t ht hs' =>
    subst hs'
    exact h.goto (by rw [ht]; rfl) (by simp [Pc.holding]) (by simp) (by simp)
  | loadAll t ht hs' =>
    subst hs'
    exact h.goto (by rw [ht]; rfl) (by simp [Pc.holding]) (by simp) (by simp)
  | signalNone t b ht _ hs' =>
    subst hs'
    exact h.goto (by rw [ht]; rfl) (by simp [Pc.holding]) (by simp) (by simp)
  | signal t u b ht hu hs' =>
    subst hs'
    have htu : t ≠ u := by rintro rfl; rw [ht] at hu; cases hu
    have hwoken : Inv (s.goto u .woken) :=
      h.goto (by rw [hu]; rfl) (by simp [Pc.holding]) (by simp) (by simp)
    exact hwoken.goto (by simp [State.goto, htu, ht, Pc.counted]) (by simp [Pc.holding]) (by simp)
      (by simp)
  | broadcast t n ht hs' =>
    subst hs'
    exact h.wake.goto (by simp [ht, Pc.wake, Pc.counted]) (by simp [Pc.holding]) (by simp)
      (by simp)
  | spurious u hu hs' =>
    subst hs'
    exact h.goto (by rw [hu]; rfl) (by simp [Pc.holding]) (by simp) (by simp)

/-- **The count is right along every run.** -/
theorem Inv.inductive : (system ι).Inductive Inv where
  init := ⟨(Sts.count_eq_zero.2 fun _ => by simp [system, Pc.counted]).symm,
    by simp [system, Pc.holding], by simp [system], by simp [system]⟩
  step h ha := h.step (step_cases ha)

/-! ## The answers -/

/-- A thread that held the mutex was answered `true` by `notify_one` if and only if a thread was
    blocked when it signalled, and by `notify_all` how many were. -/
def Event.Exact : Event → Prop
  | one true hadWaiter blocked => hadWaiter = true ↔ 0 < blocked
  | all true waiting blocked => waiting = blocked
  | _ => True

/-- Every answer so far was exact. -/
def Exact (s : State ι) : Prop := ∀ e ∈ s.log, e.Exact

/-- If the action is the signal of a thread that holds the mutex, then no thread was woken that has
    not taken the mutex again, or, for one signal, another is blocked. -/
def Settled (s : State ι) (a : Act ι) : Prop :=
  ∀ t, a = .step t ∨ (∃ u, a = .signal t u) → s.owner = some t →
    (∀ b, s.pc t = .signal b → 0 < blocked s.pc ∨ woken s.pc = 0) ∧
    (∀ n, s.pc t = .broadcast n → woken s.pc = 0)

omit [DecidableEq ι] [Fintype ι] in
theorem exact_snoc {s s' : State ι} {e : Event} (hlog : s'.log = s.log ++ [e]) :
    Exact s' ↔ Exact s ∧ e.Exact := by
  simp [Exact, hlog, or_imp, forall_and]

omit [DecidableEq ι] in
/-- A step of a thread that does not hold the mutex is not asked for anything. -/
theorem settled_of_not_owner {s : State ι} {t : ι} (ho : s.owner ≠ some t) :
    Settled s (.step t) := by
  rintro u (hu | ⟨v, hv⟩) hou
  · cases hu
    exact absurd hou ho
  · cases hv

omit [DecidableEq ι] in
theorem settled_of_woken {s : State ι} {a : Act ι} (h0 : woken s.pc = 0) : Settled s a := by
  intro u _ _
  exact ⟨fun _ _ => Or.inr h0, fun _ _ => h0⟩

/-- **An answer is exact exactly when the signal finds the threads settled.** -/
theorem exact_step {s s' : State ι} {a : Act ι} (h : Inv s) (hs : Step s s' a) :
    Exact s' ↔ Exact s ∧ Settled s a := by
  -- a step that is no signal answers nothing
  have hquiet : s'.log = s.log → (∀ t, a = .step t ∨ (∃ u, a = .signal t u) →
      (∀ b, s.pc t ≠ .signal b) ∧ ∀ n, s.pc t ≠ .broadcast n) → (Exact s' ↔ Exact s ∧ Settled s a) := by
    intro hlog hpc
    have hset : Settled s a := fun t ha _ =>
      ⟨fun b hb => absurd hb ((hpc t ha).1 b), fun n hn => absurd hn ((hpc t ha).2 n)⟩
    simp [Exact, hlog, hset]
  cases hs with
  | lock t _ _ hs' | unlock t _ _ hs' | wait t _ _ hs' | notifyOne t _ hs' | notifyAll t _ hs'
  | spurious t _ hs' =>
    subst hs'
    exact hquiet rfl (by simp)
  | fetchAdd t ht hs' | condWait t ht hs' | retake t ht _ hs' | fetchSub t ht hs'
  | loadOne t ht hs' | loadAll t ht hs' =>
    subst hs'
    refine hquiet rfl ?_
    rintro u (hu | ⟨v, hv⟩)
    · cases hu; simp [ht]
    · cases hv
  | signalNone t b ht hb hs' =>
    subst hs'
    rw [exact_snoc (e := .one (s.holds t) b 0) rfl]
    refine and_congr_right fun _ => ?_
    by_cases ho : s.owner = some t
    · have hw := h.waiters_eq ho (by rw [ht]; rfl)
      have hval := h.loadedOne t b ho ht
      have hex : Event.Exact (.one (s.holds t) b 0) ↔ woken s.pc = 0 := by
        simp only [State.holds, ho, decide_true, Event.Exact, hval, hw, hb, decide_eq_true_eq]
        omega
      rw [hex]
      refine ⟨settled_of_woken, ?_⟩
      intro hset
      have := (hset t (Or.inl rfl) ho).1 b ht
      omega
    · simp [State.holds, ho, Event.Exact, settled_of_not_owner ho]
  | signal t u b ht hu hs' =>
    subst hs'
    have hpos : 0 < blocked s.pc := Sts.count_pos.2 ⟨u, hu⟩
    rw [exact_snoc (e := .one (s.holds t) b (blocked s.pc)) rfl]
    refine and_congr_right fun _ => ?_
    have hset : Settled s (.signal t u) := by
      rintro v (hv | ⟨w, hw⟩) hov
      · cases hv
      · cases hw
        exact ⟨fun _ _ => Or.inl hpos, fun n hn => by rw [ht] at hn; cases hn⟩
    have hex : Event.Exact (.one (s.holds t) b (blocked s.pc)) := by
      by_cases ho : s.owner = some t
      · have hw := h.waiters_eq ho (by rw [ht]; rfl)
        have hval := h.loadedOne t b ho ht
        simp only [State.holds, ho, decide_true, Event.Exact, hval, hw, decide_eq_true_eq]
        omega
      · simp [State.holds, ho, Event.Exact]
    simp [hset, hex]
  | broadcast t n ht hs' =>
    subst hs'
    rw [exact_snoc (e := .all (s.holds t) n (blocked s.pc)) rfl]
    refine and_congr_right fun _ => ?_
    by_cases ho : s.owner = some t
    · have hw := h.waiters_eq ho (by rw [ht]; rfl)
      have hval := h.loadedAll t n ho ht
      have hex : Event.Exact (.all (s.holds t) n (blocked s.pc)) ↔ woken s.pc = 0 := by
        simp only [State.holds, ho, decide_true, Event.Exact, hval, hw]
        omega
      rw [hex]
      refine ⟨settled_of_woken, ?_⟩
      intro hset
      exact (hset t (Or.inl rfl) ho).2 n ht
    · simp [State.holds, ho, Event.Exact, settled_of_not_owner ho]

/-- **The answers of a run are exact exactly when its signals find the threads settled.** -/
theorem exact_iff {as : List (Act ι)} {s : State ι} (h : (system ι).run as = some s) :
    Exact s ↔ (system ι).Meets Settled as :=
  Sts.iff_meets Inv.inductive (by simp [Exact, system])
    (fun hI ha => exact_step hI (step_cases ha)) h

/-- One waiter and one signal. -/
theorem exact_iff_one : (system (Fin 2)).Meets Settled
    [.lock 0, .wait 0, .step 0, .step 0, .lock 1, .notifyOne 1, .step 1, .signal 1 0] := by
  obtain ⟨s, hs, hlog⟩ : ∃ s, (system (Fin 2)).run
      [.lock 0, .wait 0, .step 0, .step 0, .lock 1, .notifyOne 1, .step 1, .signal 1 0] = some s ∧
      s.log = [.one true true 1] := ⟨_, rfl, by decide⟩
  refine (exact_iff hs).1 ?_
  simp [Exact, hlog, Event.Exact]

/-- One waiter, and two signals in one critical section: the second is answered `true` as well. -/
theorem not_exact : ∃ s : State (Fin 2), (system (Fin 2)).run
    [.lock 0, .wait 0, .step 0, .step 0, .lock 1, .notifyOne 1, .step 1, .signal 1 0,
      .notifyOne 1, .step 1, .step 1] = some s ∧
    s.log = [.one true true 1, .one true true 0] ∧ ¬ Exact s := by
  refine ⟨_, rfl, by decide, fun h => ?_⟩
  have hlast : Event.Exact (.one true true 0) := h _ (by decide)
  simp [Event.Exact] at hlast

end Ekostd.Thread.Condvar
