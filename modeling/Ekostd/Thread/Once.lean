/-
  `thread.rs` — `Once`, over `pthread_once`.

  `pthread_once` runs its callback once for each control object, and a call
  comes back only after that callback has.  The callback takes no argument, so
  `call_once` parks the function in `PENDING`, which is one cell for every
  `Once` of the process, and `run_pending` runs what it finds there.

  The store to `PENDING`, the call of `pthread_once`, the read in `run_pending`
  and the return of the function are steps of their own; the function may call
  `call_once` in turn, so that a thread has a stack of calls.

  * `Agrees`: what has been run when a `call_once` has returned;
  * `not_calls_agree`: a store for another `Once` between the store and the read
    makes this one run the other's function;
  * `calls_agree`: as long as every read finds a function of its own `Once`, the
    calls agree.
-/
import Ekostd.Lib.Sts

namespace Ekostd.Thread.Once

/-- How far a control object is: its callback has not been called, is about to read `PENDING`,
    is running what it found, or has come back. -/
inductive Control (φ : Type*) where
  | fresh
  | entered
  | running (f : Option φ)
  | done
  deriving DecidableEq

/-- How far a call of `call_once` is: before the store to `PENDING`, before `pthread_once`, or in
    the callback, which it runs. -/
inductive Frame (ω φ : Type*) where
  | store (o : ω) (f : φ)
  | once (o : ω) (f : φ)
  | inside (o : ω) (f : φ)

/-- `PENDING`, the control objects and the stack of every thread; with, for each object, the
    functions passed to its `call_once`, those run on its behalf, and those whose run has
    ended, and the calls that have returned. -/
structure State (ι ω φ : Type*) where
  pending : Option φ
  control : ω → Control φ
  stack : ι → List (Frame ω φ)
  passed : ω → List φ
  ran : ω → List φ
  ended : ω → List φ
  returned : List (ω × φ)

/-- A thread calls `call_once`, or takes the next step of its innermost call. -/
inductive Act (ι ω φ : Type*) where
  | call (t : ι) (o : ω) (f : φ)
  | step (t : ι)

variable {ι ω φ : Type*} [DecidableEq ι] [DecidableEq ω]

namespace State

/-- A thread may call: it is outside, or in a function that a callback runs. -/
def mayCall (s : State ι ω φ) (t : ι) : Bool :=
  match s.stack t with
  | [] => true
  | .inside o _ :: _ => match s.control o with
    | .running (some _) => true
    | _ => false
  | _ => false

/-- The innermost call of `t` returns. -/
def leave (s : State ι ω φ) (t : ι) (o : ω) (f : φ) (fs : List (Frame ω φ)) : State ι ω φ :=
  { s with stack := Function.update s.stack t fs, returned := s.returned ++ [(o, f)] }

/-- The function of the callback of `o`, if there is one, is appended to a history. -/
def record (h : ω → List φ) (o : ω) : Option φ → ω → List φ
  | some g => Function.update h o (h o ++ [g])
  | none => h

/-- The callback of `o` moves: `run_pending` reads `PENDING`, or has run what it read. -/
def runPending (s : State ι ω φ) (t : ι) (o : ω) (f : φ) (fs : List (Frame ω φ)) :
    Option (State ι ω φ) :=
  match s.control o with
  | .entered => some { s with
      control := Function.update s.control o (.running s.pending)
      ran := record s.ran o s.pending }
  | .running g =>
    some (leave { s with
      control := Function.update s.control o .done
      ended := record s.ended o g } t o f fs)
  | _ => none

/-- One step of one thread. -/
def step (s : State ι ω φ) : Act ι ω φ → Option (State ι ω φ)
  | .call t o f =>
    if s.mayCall t then
      some { s with
        stack := Function.update s.stack t (.store o f :: s.stack t)
        passed := Function.update s.passed o (s.passed o ++ [f]) }
    else none
  | .step t =>
    match s.stack t with
    | [] => none
    | .store o f :: fs =>
      some { s with pending := some f, stack := Function.update s.stack t (.once o f :: fs) }
    | .once o f :: fs =>
      match s.control o with
      | .fresh => some { s with
          control := Function.update s.control o .entered
          stack := Function.update s.stack t (.inside o f :: fs) }
      | .done => some (s.leave t o f fs)
      | _ => none
    | .inside o f :: fs => s.runPending t o f fs

end State

/-- Any number of threads and of `Once` objects. -/
def system (ι ω φ : Type*) [DecidableEq ι] [DecidableEq ω] : Sts (State ι ω φ) (Act ι ω φ) where
  init := ⟨none, fun _ => .fresh, fun _ => [], fun _ => [], fun _ => [], fun _ => [], []⟩
  step := State.step

/-- The steps, one constructor for each. -/
inductive Step (s s' : State ι ω φ) : Act ι ω φ → Prop
  | call (t : ι) (o : ω) (f : φ) :
      s' = { s with
        stack := Function.update s.stack t (.store o f :: s.stack t)
        passed := Function.update s.passed o (s.passed o ++ [f]) } → Step s s' (.call t o f)
  | store (t : ι) (o : ω) (f : φ) (fs : List (Frame ω φ)) : s.stack t = .store o f :: fs →
      s' = { s with pending := some f, stack := Function.update s.stack t (.once o f :: fs) } →
      Step s s' (.step t)
  | enter (t : ι) (o : ω) (f : φ) (fs : List (Frame ω φ)) : s.stack t = .once o f :: fs →
      s.control o = .fresh →
      s' = { s with
        control := Function.update s.control o .entered
        stack := Function.update s.stack t (.inside o f :: fs) } → Step s s' (.step t)
  | skip (t : ι) (o : ω) (f : φ) (fs : List (Frame ω φ)) : s.stack t = .once o f :: fs →
      s.control o = .done → s' = s.leave t o f fs → Step s s' (.step t)
  | read (t : ι) (o : ω) (f : φ) (fs : List (Frame ω φ)) : s.stack t = .inside o f :: fs →
      s.control o = .entered →
      s' = { s with
        control := Function.update s.control o (.running s.pending)
        ran := State.record s.ran o s.pending } → Step s s' (.step t)
  | finish (t : ι) (o : ω) (f : φ) (fs : List (Frame ω φ)) (g : Option φ) :
      s.stack t = .inside o f :: fs → s.control o = .running g →
      s' = State.leave { s with
        control := Function.update s.control o .done
        ended := State.record s.ended o g } t o f fs → Step s s' (.step t)

/-- **Every step is one of these.** -/
theorem step_cases {s s' : State ι ω φ} {a : Act ι ω φ} (h : s.step a = some s') :
    Step s s' a := by
  cases a with
  | call t o f =>
    simp only [State.step] at h
    split_ifs at h
    cases h
    exact .call t o f rfl
  | step t =>
    simp only [State.step] at h
    split at h
    · cases h
    · next o f fs hs => cases h; exact .store t o f fs hs rfl
    · next o f fs hs =>
      split at h
      · next hc => cases h; exact .enter t o f fs hs hc rfl
      · next hc => cases h; exact .skip t o f fs hs hc rfl
      · cases h
    · next o f fs hs =>
      simp only [State.runPending] at h
      split at h
      · next hc => cases h; exact .read t o f fs hs hc rfl
      · next g hc => cases h; exact .finish t o f fs g hs hc rfl
      · cases h

/-! ## What the calls promise -/

/-- When a `call_once` on `o` has returned, exactly one function has been run on behalf of `o`,
    to its end, and it was passed to a `call_once` on `o`. -/
def Agrees (s : State ι ω φ) : Prop :=
  ∀ c ∈ s.returned, ∃ g ∈ s.passed c.1, s.ran c.1 = [g] ∧ s.ended c.1 = [g]

/-- If the step is the read of `PENDING` in the callback of `o`, then what is parked there was
    passed to a `call_once` on `o`. -/
def ReadsOwn (s : State ι ω φ) (a : Act ι ω φ) : Prop :=
  ∀ t o f fs, a = .step t → s.stack t = .inside o f :: fs → s.control o = .entered →
    ∃ g ∈ s.passed o, s.pending = some g

/-- What has been run on behalf of an object, by how far its control object is. -/
def Accounted (s : State ι ω φ) (o : ω) : Prop :=
  match s.control o with
  | .fresh | .entered => s.ran o = [] ∧ s.ended o = []
  | .running f => ∃ g ∈ s.passed o, f = some g ∧ s.ran o = [g] ∧ s.ended o = []
  | .done => ∃ g ∈ s.passed o, s.ran o = [g] ∧ s.ended o = [g]

/-- Every object is accounted for, and a call returns only when the callback has come back. -/
structure Inv (s : State ι ω φ) : Prop where
  accounted : ∀ o, Accounted s o
  returned : ∀ c ∈ s.returned, s.control c.1 = .done

theorem Inv.init : Inv (system ι ω φ).init := ⟨fun _ => ⟨rfl, rfl⟩, by simp [system]⟩

omit [DecidableEq ι] [DecidableEq ω] in
theorem Inv.agrees {s : State ι ω φ} (h : Inv s) : Agrees s := by
  intro c hc
  have := h.accounted c.1
  rwa [Accounted, h.returned c hc] at this

omit [DecidableEq ι] [DecidableEq ω] in
/-- An object is accounted for as long as its own entries stay, and more may be passed. -/
theorem Accounted.frame {s s' : State ι ω φ} {o : ω} (h : Accounted s o)
    (hc : s'.control o = s.control o) (hp : s.passed o ⊆ s'.passed o) (hr : s'.ran o = s.ran o)
    (he : s'.ended o = s.ended o) : Accounted s' o := by
  unfold Accounted at h ⊢
  rw [hc, hr, he]
  split at h
  · exact h
  · exact h
  · obtain ⟨g, hg, h⟩ := h
    exact ⟨g, hp hg, h⟩
  · obtain ⟨g, hg, h⟩ := h
    exact ⟨g, hp hg, h⟩

omit [DecidableEq ι] in
theorem passed_subset (s : State ι ω φ) (o : ω) (f : φ) (o' : ω) :
    s.passed o' ⊆ Function.update s.passed o (s.passed o ++ [f]) o' := by
  by_cases ho : o' = o
  · subst ho; simp
  · simp [ho]

omit [DecidableEq ι] in
theorem record_ne {h : ω → List φ} {o o' : ω} (hne : o' ≠ o) (g : Option φ) :
    State.record h o g o' = h o' := by
  cases g <;> simp [State.record, hne]

omit [DecidableEq ι] [DecidableEq ω] in
/-- No call on an object has returned before its callback has come back. -/
theorem Inv.ne_of_returned {s : State ι ω φ} (h : Inv s) {o : ω} (ho : s.control o ≠ .done)
    {c : ω × φ} (hc : c ∈ s.returned) : c.1 ≠ o := by
  rintro rfl
  exact ho (h.returned c hc)

/-- **What one step preserves**, if its read finds a function of its own object. -/
theorem Inv.step {s s' : State ι ω φ} {a : Act ι ω φ} (h : Inv s) (hown : ReadsOwn s a)
    (hs : Step s s' a) : Inv s' := by
  cases hs with
  | call t o f hs' =>
    subst hs'
    refine ⟨fun o' => (h.accounted o').frame rfl (passed_subset s o f o') rfl rfl, h.returned⟩
  | store t o f fs _ hs' =>
    subst hs'
    exact ⟨fun o' => (h.accounted o').frame rfl (List.Subset.refl _) rfl rfl, h.returned⟩
  | enter t o f fs _ hc hs' =>
    subst hs'
    refine ⟨fun o' => ?_, fun c hret => ?_⟩
    · by_cases ho : o' = o
      · subst ho
        have := h.accounted o'
        simp only [Accounted, hc, Function.update_self] at this ⊢
        exact this
      · exact (h.accounted o').frame (by simp [ho]) (List.Subset.refl _) rfl rfl
    · have hne : c.1 ≠ o := h.ne_of_returned (by simp [hc]) hret
      simpa [hne] using h.returned c hret
  | skip t o f fs _ hc hs' =>
    subst hs'
    refine ⟨fun o' => (h.accounted o').frame rfl (List.Subset.refl _) rfl rfl, fun c hret => ?_⟩
    rcases List.mem_append.1 hret with hret | hret
    · exact h.returned c hret
    · rw [List.mem_singleton.1 hret]; exact hc
  | read t o f fs hst hc hs' =>
    subst hs'
    refine ⟨fun o' => ?_, fun c hret => ?_⟩
    · by_cases ho : o' = o
      · subst ho
        obtain ⟨g, hg, hpend⟩ := hown t o' f fs rfl hst hc
        have := h.accounted o'
        simp only [Accounted, hc] at this
        simp only [Accounted, Function.update_self, hpend, State.record]
        exact ⟨g, hg, rfl, by simp [this.1], this.2⟩
      · exact (h.accounted o').frame (by simp [ho]) (List.Subset.refl _) (record_ne ho _) rfl
    · have hne : c.1 ≠ o := h.ne_of_returned (by simp [hc]) hret
      simpa [hne] using h.returned c hret
  | finish t o f fs g hst hc hs' =>
    subst hs'
    refine ⟨fun o' => ?_, fun c hret => ?_⟩
    · by_cases ho : o' = o
      · subst ho
        have := h.accounted o'
        simp only [Accounted, hc] at this
        obtain ⟨g', hg', rfl, hr, he⟩ := this
        simp only [State.leave, Accounted, Function.update_self, State.record]
        exact ⟨g', hg', hr, by simp [he]⟩
      · exact (h.accounted o').frame (by simp [State.leave, ho]) (List.Subset.refl _) rfl
          (record_ne ho _)
    · by_cases ho : c.1 = o
      · simp [State.leave, ho]
      · rcases List.mem_append.1 hret with hret | hret
        · simpa [State.leave, ho] using h.returned c hret
        · rw [List.mem_singleton.1 hret] at ho
          exact absurd rfl ho

/-- **Runs whose reads find a function of their own object**: exactly one function is run on
    behalf of each object, one passed on it; if there is only one, it is that. -/
theorem calls_agree {as : List (Act ι ω φ)} {s : State ι ω φ}
    (hc : (system ι ω φ).Meets ReadsOwn as)
    (h : (system ι ω φ).run as = some s) :
    Agrees s ∧ ∀ c ∈ s.returned, (∀ f ∈ s.passed c.1, f = c.2) →
      s.ran c.1 = [c.2] ∧ s.ended c.1 = [c.2] := by
  have hI : Inv s :=
    Sts.run_of_meets Inv.init (fun hI hc ha => hI.step hc (step_cases ha)) hc h
  refine ⟨hI.agrees, fun c hret hall => ?_⟩
  obtain ⟨g, hg, hr, he⟩ := hI.agrees c hret
  rw [hall g hg] at hr he
  exact ⟨hr, he⟩

/-! ## A single object -/

namespace Frame

/-- The object of a call. -/
def object : Frame ω φ → ω
  | store o _ | once o _ | inside o _ => o

end Frame

/-- Only `o` is used: what is parked, or about to be, was passed on `o`, and something is parked
    once a call has stored. -/
structure OnlyOn (o : ω) (s : State ι ω φ) : Prop where
  object : ∀ t, ∀ fr ∈ s.stack t, fr.object = o
  store : ∀ t o' f, .store o' f ∈ s.stack t → f ∈ s.passed o
  pending : ∀ g, s.pending = some g → g ∈ s.passed o
  stored : ∀ t, ∀ fr ∈ s.stack t, (∀ o' f, fr ≠ .store o' f) → s.pending ≠ none

theorem OnlyOn.init (o : ω) : OnlyOn o (system ι ω φ).init :=
  ⟨by simp [system], by simp [system], by simp [system], by simp [system]⟩

omit [DecidableEq ι] [DecidableEq ω] in
theorem OnlyOn.readsOwn {o : ω} {s : State ι ω φ} (h : OnlyOn o s) (a : Act ι ω φ) :
    ReadsOwn s a := by
  intro t o' f fs _ hst _
  have ho : o' = o := h.object t (.inside o' f) (by simp [hst])
  obtain ⟨g, hg⟩ :=
    Option.ne_none_iff_exists'.1 (h.stored t (.inside o' f) (by simp [hst]) (by simp))
  exact ⟨g, ho ▸ h.pending g hg, hg⟩

omit [DecidableEq ω] in
theorem mem_stack_of_pop {s : State ι ω φ} {t u : ι} {fs : List (Frame ω φ)} {fr : Frame ω φ}
    (hfs : fs ⊆ s.stack t) (h : fr ∈ Function.update s.stack t fs u) : fr ∈ s.stack u := by
  by_cases hu : u = t
  · subst hu
    exact hfs (by simpa using h)
  · simpa [hu] using h

omit [DecidableEq ω] in
theorem mem_stack_of_push {s : State ι ω φ} {t u : ι} {top fr : Frame ω φ} {fs : List (Frame ω φ)}
    (hfs : fs ⊆ s.stack t) (h : fr ∈ Function.update s.stack t (top :: fs) u) :
    fr = top ∨ fr ∈ s.stack u := by
  by_cases hu : u = t
  · subst hu
    exact (List.mem_cons.1 (by simpa using h)).imp id fun hin => hfs hin
  · exact Or.inr (by simpa [hu] using h)

theorem OnlyOn.step {o : ω} {s s' : State ι ω φ} {a : Act ι ω φ} (h : OnlyOn o s)
    (ha : ∀ t o' f, a = .call t o' f → o' = o) (hs : Step s s' a) : OnlyOn o s' := by
  have htail : ∀ {t fr fs}, s.stack t = fr :: fs → fs ⊆ s.stack t := by
    intro t fr fs hst
    rw [hst]
    exact List.subset_cons_self fr fs
  cases hs with
  | call t o' f hs' =>
    subst hs'
    obtain rfl := ha t o' f rfl
    have hold := passed_subset s o' f o'
    refine ⟨fun u fr hfr => ?_, fun u o₁ f₁ hfr => ?_, fun g hg => hold (h.pending g hg),
      fun u fr hfr hne => ?_⟩
    · rcases mem_stack_of_push (List.Subset.refl _) hfr with rfl | hfr
      · rfl
      · exact h.object u fr hfr
    · rcases mem_stack_of_push (List.Subset.refl _) hfr with heq | hfr
      · cases heq; simp
      · exact hold (h.store u o₁ f₁ hfr)
    · rcases mem_stack_of_push (List.Subset.refl _) hfr with rfl | hfr
      · exact absurd rfl (hne o' f)
      · exact h.stored u fr hfr hne
  | store t o' f fs hst hs' =>
    subst hs'
    have ho : o' = o := h.object t (.store o' f) (by simp [hst])
    refine ⟨fun u fr hfr => ?_, fun u o₁ f₁ hfr => ?_, fun g hg => ?_, fun u fr hfr hne => by simp⟩
    · rcases mem_stack_of_push (htail hst) hfr with rfl | hfr
      · exact ho
      · exact h.object u fr hfr
    · rcases mem_stack_of_push (htail hst) hfr with heq | hfr
      · cases heq
      · exact h.store u o₁ f₁ hfr
    · obtain rfl := Option.some.inj hg
      exact h.store t o' f (by simp [hst])
  | enter t o' f fs hst _ hs' =>
    subst hs'
    have hmem : .once o' f ∈ s.stack t := by simp [hst]
    refine ⟨fun u fr hfr => ?_, fun u o₁ f₁ hfr => ?_, h.pending, fun u fr hfr hne => ?_⟩
    · rcases mem_stack_of_push (htail hst) hfr with rfl | hfr
      · exact h.object t (.once o' f) hmem
      · exact h.object u fr hfr
    · rcases mem_stack_of_push (htail hst) hfr with heq | hfr
      · cases heq
      · exact h.store u o₁ f₁ hfr
    · exact h.stored t _ hmem (by simp)
  | skip t o' f fs hst _ hs' =>
    subst hs'
    exact ⟨fun u fr hfr => h.object u fr (mem_stack_of_pop (htail hst) hfr),
      fun u o₁ f₁ hfr => h.store u o₁ f₁ (mem_stack_of_pop (htail hst) hfr), h.pending,
      fun u fr hfr => h.stored u fr (mem_stack_of_pop (htail hst) hfr)⟩
  | read t o' f fs _ _ hs' => subst hs'; exact ⟨h.object, h.store, h.pending, h.stored⟩
  | finish t o' f fs g hst _ hs' =>
    subst hs'
    exact ⟨fun u fr hfr => h.object u fr (mem_stack_of_pop (htail hst) hfr),
      fun u o₁ f₁ hfr => h.store u o₁ f₁ (mem_stack_of_pop (htail hst) hfr), h.pending,
      fun u fr hfr => h.stored u fr (mem_stack_of_pop (htail hst) hfr)⟩

/-- **With a single object every read finds a function of its own.** -/
theorem meets_of_single (o : ω) {as : List (Act ι ω φ)}
    (h : ∀ t o' f, .call t o' f ∈ as → o' = o) : (system ι ω φ).Meets ReadsOwn as :=
  Sts.Meets.of_inv (D := fun a => ∀ t o' f, a = .call t o' f → o' = o) (OnlyOn.init o)
    (fun hI hD ha => hI.step hD (step_cases ha)) (fun hI _ => hI.readsOwn _)
    fun _ ha t o' f hc => h t o' f (hc ▸ ha)

/-- Two threads, one object, two functions. -/
theorem calls_agree_two : Agrees (((system (Fin 2) (Fin 1) ℕ).run
    [.call 0 0 10, .step 0, .call 1 0 20, .step 1, .step 0, .step 0, .step 0, .step 1]).get
      (by decide)) :=
  (calls_agree (meets_of_single 0 fun _ o _ _ => Subsingleton.elim o 0) (Option.some_get _).symm).1

/-- **A store for another object in between**: the first one runs the second one's function. -/
theorem not_calls_agree : ¬ ∀ (as : List (Act (Fin 2) (Fin 2) ℕ)) (s : State (Fin 2) (Fin 2) ℕ),
    (system (Fin 2) (Fin 2) ℕ).run as = some s → Agrees s := by
  intro h
  have := h [.call 0 0 10, .step 0, .call 1 1 20, .step 1, .step 0, .step 0, .step 0] _ rfl
    (0, 10) (by decide)
  obtain ⟨g, hg, hr, -⟩ := this
  have hran : ([20] : List ℕ) = [g] := hr
  have hpassed : g ∈ ([10] : List ℕ) := hg
  simp_all

end Ekostd.Thread.Once
