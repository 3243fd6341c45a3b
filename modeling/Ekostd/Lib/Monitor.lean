/-
  Monitors with Mesa semantics — one mutex, several condition variables.

  A call passes through a section run with the mutex held.  A pass either ends
  the section with a result, and perhaps a notification that is issued only
  after the mutex was released, or waits on a condition variable having changed
  nothing; a woken call has to take the mutex again and makes another pass.
  One pass is one step, because nobody else can see the data meanwhile; what
  lies between the passes (calls arriving, notifications still to be issued,
  an arbitrary waiter being chosen, spurious wakes) interleaves freely.

  * `Spec`: the data, the pass of every call, and which calls a caller may make
    (`allowed`) and have in progress beside which others (`compat`);
  * `Spec.system`: its transition system for the threads `ι`;
  * `Lawful` and `Lawful.run`: an invariant of the data and of the sections
    completed so far, kept by every pass, holds along every run;
  * `Spec.Stuck`: no thread that is inside a call can move.

  The rule that no wakeup is lost is in `Ekostd.Lib.Wakeup`.
-/
import Ekostd.Lib.Sts
import Ekostd.Lib.Count

namespace Monitor

/-- A notification to issue after the mutex was released. -/
inductive Notify (γ : Type*) where
  | one (c : γ)
  | all (c : γ)
  deriving DecidableEq

/-- What one pass of a call through its locked section does. -/
inductive Pass (σ ρ γ : Type*) where
  /-- the section ends in the data `d` with the result `r` -/
  | done (d : σ) (r : ρ) (n : Option (Notify γ))
  /-- the call waits on `c`, releasing the mutex -/
  | wait (c : γ)

/-- A pass over a part of the data, as a pass over the whole. -/
def Pass.map {σ σ' ρ ρ' γ : Type*} (f : σ → σ') (g : ρ → ρ') : Pass σ ρ γ → Pass σ' ρ' γ
  | done d r n => done (f d) (g r) n
  | wait c => wait c

/-- The calls of a monitor over data `σ`. -/
structure Spec (σ κ ρ γ : Type*) where
  init : σ
  pass : σ → κ → Pass σ ρ γ
  allowed : σ → κ → Bool
  compat : κ → κ → Bool

/-- Where a thread is: outside, about to take the mutex, waiting, or about to issue a
    notification and return. -/
inductive Pc (κ ρ γ : Type*) where
  | idle
  | ready (id : ℕ) (k : κ)
  | blocked (id : ℕ) (k : κ) (c : γ)
  | notify (id : ℕ) (k : κ) (r : ρ) (n : Notify γ)

/-- A completed section: the number of the call, the call, and its result. -/
structure Entry (κ ρ : Type*) where
  id : ℕ
  call : κ
  ret : ρ

/-- The data, the threads, the next call number, and two histories: the sections completed
    so far and the calls that have returned. -/
structure State (ι σ κ ρ γ : Type*) where
  data : σ
  pc : ι → Pc κ ρ γ
  next : ℕ
  passes : List (Entry κ ρ)
  returned : List (Entry κ ρ)

/-- A thread makes a call, takes the mutex and makes a pass, issues its notification (with the
    waiter it wakes, if there is one), or wakes spuriously. -/
inductive Act (ι κ : Type*) where
  | call (t : ι) (k : κ)
  | enter (t : ι)
  | signal (t u : ι)
  | signalNone (t : ι)
  | broadcast (t : ι)
  | spurious (u : ι)

variable {ι σ κ ρ γ : Type*}

namespace Pc

/-- The call in progress. -/
def call? : Pc κ ρ γ → Option κ
  | idle => none
  | ready _ k | blocked _ k _ | notify _ k _ _ => some k

/-- The number of the call in progress. -/
def id? : Pc κ ρ γ → Option ℕ
  | idle => none
  | ready id _ | blocked id _ _ | notify id _ _ _ => some id

/-- The call has still to complete its section. -/
def todo : Pc κ ρ γ → Bool
  | idle | notify .. => false
  | ready .. | blocked .. => true

variable [DecidableEq γ]

/-- The thread waits on `c`. -/
def waitsOn (c : γ) : Pc κ ρ γ → Bool
  | blocked _ _ c' => c' = c
  | _ => false

/-- The effect of a broadcast on `c`. -/
def wake (c : γ) : Pc κ ρ γ → Pc κ ρ γ
  | blocked id k c' => if c' = c then ready id k else blocked id k c'
  | p => p

theorem waitsOn_iff {c : γ} {p : Pc κ ρ γ} : p.waitsOn c ↔ ∃ id k, p = blocked id k c := by
  cases p <;> simp [waitsOn]

@[simp] theorem wake_idle (c : γ) : (idle : Pc κ ρ γ).wake c = idle := rfl

@[simp] theorem wake_notify (c : γ) (id : ℕ) (k : κ) (r : ρ) (n : Notify γ) :
    (notify id k r n).wake c = notify id k r n := rfl

@[simp] theorem call?_wake (c : γ) (p : Pc κ ρ γ) : (p.wake c).call? = p.call? := by
  cases p <;> grind [wake, call?]

@[simp] theorem id?_wake (c : γ) (p : Pc κ ρ γ) : (p.wake c).id? = p.id? := by
  cases p <;> grind [wake, id?]

@[simp] theorem todo_wake (c : γ) (p : Pc κ ρ γ) : (p.wake c).todo = p.todo := by
  cases p <;> grind [wake, todo]

omit [DecidableEq γ] in
/-- `p'` is where a thread at `p` can be after a step that starts no call: outside, or in the
    same call. -/
def After (p p' : Pc κ ρ γ) : Prop :=
  p' = idle ∨ p'.call? = p.call? ∧ p'.id? = p.id? ∧ (p'.todo → p.todo)

omit [DecidableEq γ] in
theorem After.refl (p : Pc κ ρ γ) : p.After p := Or.inr ⟨rfl, rfl, id⟩

theorem After.wake (c : γ) (p : Pc κ ρ γ) : p.After (p.wake c) := Or.inr (by simp)

omit [DecidableEq γ] in
theorem After.call? {p p' : Pc κ ρ γ} (h : p.After p') {k : κ} (hk : p'.call? = some k) :
    p.call? = some k := by
  rcases h with rfl | ⟨h, -, -⟩
  · cases hk
  · rwa [← h]

omit [DecidableEq γ] in
theorem After.id? {p p' : Pc κ ρ γ} (h : p.After p') {id : ℕ} (hi : p'.id? = some id) :
    p.id? = some id := by
  rcases h with rfl | ⟨-, h, -⟩
  · cases hi
  · rwa [← h]

omit [DecidableEq γ] in
theorem After.todo {p p' : Pc κ ρ γ} (h : p.After p') (ht : p'.todo) : p.todo := by
  rcases h with rfl | ⟨-, -, h⟩
  · cases ht
  · exact h ht

end Pc

namespace Act

/-- The actions of a thread inside a call, spurious wakes apart. -/
def progress : Act ι κ → Bool
  | enter _ | signal _ _ | signalNone _ | broadcast _ => true
  | call _ _ | spurious _ => false

end Act

namespace Spec

variable [Fintype ι] [DecidableEq ι] [DecidableEq γ] (S : Spec σ κ ρ γ)

/-- The pass of the call `k` of thread `t`. -/
def enter (s : State ι σ κ ρ γ) (t : ι) (id : ℕ) (k : κ) : State ι σ κ ρ γ :=
  match S.pass s.data k with
  | .done d r none =>
    { s with
      data := d
      pc := Function.update s.pc t .idle
      passes := s.passes ++ [⟨id, k, r⟩]
      returned := s.returned ++ [⟨id, k, r⟩] }
  | .done d r (some n) =>
    { s with
      data := d
      pc := Function.update s.pc t (.notify id k r n)
      passes := s.passes ++ [⟨id, k, r⟩] }
  | .wait c => { s with pc := Function.update s.pc t (.blocked id k c) }

/-- One action of one thread. -/
def step (s : State ι σ κ ρ γ) : Act ι κ → Option (State ι σ κ ρ γ)
  | .call t k =>
    match s.pc t with
    | .idle =>
      if S.allowed s.data k ∧ ∀ u, (s.pc u).call?.all fun k' => S.compat k' k then
        some { s with pc := Function.update s.pc t (.ready s.next k), next := s.next + 1 }
      else none
    | _ => none
  | .enter t =>
    match s.pc t with
    | .ready id k => some (S.enter s t id k)
    | _ => none
  | .signal t u =>
    match s.pc t, s.pc u with
    | .notify id k r (.one c), .blocked id' k' c' =>
      if c' = c then
        some { s with
          pc := Function.update (Function.update s.pc u (.ready id' k')) t .idle
          returned := s.returned ++ [⟨id, k, r⟩] }
      else none
    | _, _ => none
  | .signalNone t =>
    match s.pc t with
    | .notify id k r (.one c) =>
      if ∀ u, ¬ (s.pc u).waitsOn c then
        some { s with
          pc := Function.update s.pc t .idle
          returned := s.returned ++ [⟨id, k, r⟩] }
      else none
    | _ => none
  | .broadcast t =>
    match s.pc t with
    | .notify id k r (.all c) =>
      some { s with
        pc := Function.update (fun u => (s.pc u).wake c) t .idle
        returned := s.returned ++ [⟨id, k, r⟩] }
    | _ => none
  | .spurious u =>
    match s.pc u with
    | .blocked id k _ => some { s with pc := Function.update s.pc u (.ready id k) }
    | _ => none

/-- The transition system of the monitor, every thread being outside at first. -/
def system (ι : Type*) [Fintype ι] [DecidableEq ι] : Sts (State ι σ κ ρ γ) (Act ι κ) where
  init := ⟨S.init, fun _ => .idle, 0, [], []⟩
  step := S.step

/-- No thread that is inside a call can move: every notification has been issued and every
    woken thread has run. -/
def Stuck (s : State ι σ κ ρ γ) : Prop := ∀ a : Act ι κ, a.progress → S.step s a = none

/-! ## What a step can do -/

/-- The steps, one constructor for each way a thread can move. -/
inductive Step (s : State ι σ κ ρ γ) : State ι σ κ ρ γ → Prop
  | call (t : ι) (k : κ) : s.pc t = .idle → S.allowed s.data k →
      (∀ u k', (s.pc u).call? = some k' → S.compat k' k) →
      Step s { s with pc := Function.update s.pc t (.ready s.next k), next := s.next + 1 }
  | finish (t : ι) (id : ℕ) (k : κ) (d : σ) (r : ρ) : s.pc t = .ready id k →
      S.pass s.data k = .done d r none →
      Step s { s with
        data := d
        pc := Function.update s.pc t .idle
        passes := s.passes ++ [⟨id, k, r⟩]
        returned := s.returned ++ [⟨id, k, r⟩] }
  | leave (t : ι) (id : ℕ) (k : κ) (d : σ) (r : ρ) (n : Notify γ) : s.pc t = .ready id k →
      S.pass s.data k = .done d r (some n) →
      Step s { s with
        data := d
        pc := Function.update s.pc t (.notify id k r n)
        passes := s.passes ++ [⟨id, k, r⟩] }
  | wait (t : ι) (id : ℕ) (k : κ) (c : γ) : s.pc t = .ready id k → S.pass s.data k = .wait c →
      Step s { s with pc := Function.update s.pc t (.blocked id k c) }
  | signal (t u : ι) (id : ℕ) (k : κ) (r : ρ) (c : γ) (id' : ℕ) (k' : κ) :
      s.pc t = .notify id k r (.one c) → s.pc u = .blocked id' k' c →
      Step s { s with
        pc := Function.update (Function.update s.pc u (.ready id' k')) t .idle
        returned := s.returned ++ [⟨id, k, r⟩] }
  | signalNone (t : ι) (id : ℕ) (k : κ) (r : ρ) (c : γ) : s.pc t = .notify id k r (.one c) →
      (∀ u, ¬ (s.pc u).waitsOn c) →
      Step s { s with
        pc := Function.update s.pc t .idle
        returned := s.returned ++ [⟨id, k, r⟩] }
  | broadcast (t : ι) (id : ℕ) (k : κ) (r : ρ) (c : γ) : s.pc t = .notify id k r (.all c) →
      Step s { s with
        pc := Function.update (fun u => (s.pc u).wake c) t .idle
        returned := s.returned ++ [⟨id, k, r⟩] }
  | spurious (u : ι) (id : ℕ) (k : κ) (c : γ) : s.pc u = .blocked id k c →
      Step s { s with pc := Function.update s.pc u (.ready id k) }

variable {S}

/-- **Every step is one of these.** -/
theorem step_cases {s s' : State ι σ κ ρ γ} {a : Act ι κ} (h : S.step s a = some s') :
    S.Step s s' := by
  cases a with
  | call t k =>
    simp only [step] at h
    split at h
    · next hpc =>
      split_ifs at h with hc
      cases h
      exact .call t k hpc hc.1 fun u k' hu => by simpa [hu] using hc.2 u
    · cases h
  | enter t =>
    simp only [step] at h
    split at h
    · next id k hpc =>
      cases h
      unfold enter
      split
      · next d r hp => exact .finish t id k d r hpc hp
      · next d r n hp => exact .leave t id k d r n hpc hp
      · next c hp => exact .wait t id k c hpc hp
    · cases h
  | signal t u =>
    simp only [step] at h
    split at h
    · next id k r c id' k' c' ht hu =>
      split_ifs at h with hc
      cases h
      exact .signal t u id k r c id' k' ht (hc ▸ hu)
    · cases h
  | signalNone t =>
    simp only [step] at h
    split at h
    · next id k r c ht =>
      split_ifs at h with hc
      cases h
      exact .signalNone t id k r c ht hc
    · cases h
  | broadcast t =>
    simp only [step] at h
    split at h
    · next id k r c ht => cases h; exact .broadcast t id k r c ht
    · cases h
  | spurious u =>
    simp only [step] at h
    split at h
    · next id k c hu => cases h; exact .spurious u id k c hu
    · cases h

theorem Stuck.idle_or_blocked {s : State ι σ κ ρ γ} (h : S.Stuck s) (t : ι) :
    s.pc t = .idle ∨ ∃ id k c, s.pc t = .blocked id k c := by
  cases hpc : s.pc t with
  | idle => exact Or.inl rfl
  | blocked id k c => exact Or.inr ⟨id, k, c, rfl⟩
  | ready id k =>
    have := h (.enter t) rfl
    simp [step, hpc] at this
  | notify id k r n =>
    exfalso
    cases n with
    | all c =>
      have := h (.broadcast t) rfl
      simp [step, hpc] at this
    | one c =>
      by_cases hw : ∃ u, (s.pc u).waitsOn c
      · obtain ⟨u, hu⟩ := hw
        obtain ⟨id', k', hu⟩ := Pc.waitsOn_iff.1 hu
        have := h (.signal t u) rfl
        simp [step, hpc, hu] at this
      · have := h (.signalNone t) rfl
        simp only [not_exists] at hw
        simp [step, hpc, hw] at this

theorem Stuck.of_idle_or_blocked {s : State ι σ κ ρ γ}
    (h : ∀ t, s.pc t = .idle ∨ ∃ id k c, s.pc t = .blocked id k c) : S.Stuck s := by
  rintro (⟨t, k⟩ | ⟨t⟩ | ⟨t, u⟩ | ⟨t⟩ | ⟨t⟩ | ⟨u⟩) ha
  · cases ha
  · rcases h t with ht | ⟨id, k, c, ht⟩ <;> simp only [step, ht]
  · rcases h t with ht | ⟨id, k, c, ht⟩ <;> simp only [step, ht]
  · rcases h t with ht | ⟨id, k, c, ht⟩ <;> simp only [step, ht]
  · rcases h t with ht | ⟨id, k, c, ht⟩ <;> simp only [step, ht]
  · cases ha

end Spec

/-! ## Histories -/

/-- Every entry of the history `ps` is as `P` says, given the entries before it. -/
def Past {α : Type*} (P : List α → α → Prop) (ps : List α) : Prop :=
  ∀ pre e post, ps = pre ++ e :: post → P pre e

theorem Past.nil {α : Type*} (P : List α → α → Prop) : Past P [] := by
  intro pre e post h
  simp at h

theorem Past.snoc {α : Type*} {P : List α → α → Prop} {ps : List α} {e : α} (h : Past P ps)
    (he : P ps e) : Past P (ps ++ [e]) := by
  intro pre e' post hp
  rcases List.eq_nil_or_concat post with rfl | ⟨post, e'', rfl⟩
  · obtain ⟨rfl, h'⟩ := List.append_inj' hp rfl
    cases h'
    exact he
  · rw [List.concat_eq_append, ← List.cons_append, ← List.append_assoc] at hp
    exact h pre e' post (List.append_inj' hp rfl).1

/-! ## The frame of a step -/

section
variable [DecidableEq ι]

theorem Pc.After.update {f : ι → Pc κ ρ γ} {t : ι} {p : Pc κ ρ γ} (h : (f t).After p) (u : ι) :
    (f u).After (Function.update f t p u) := by
  by_cases hu : u = t
  · subst hu; simpa using h
  · simpa [hu] using Pc.After.refl (f u)

theorem notify_update {f : ι → Pc κ ρ γ} {t : ι} {p : Pc κ ρ γ} (hp : ∀ id k r n, p ≠ .notify id k r n)
    (u : ι) (id : ℕ) (k : κ) (r : ρ) (n : Notify γ) (h : Function.update f t p u = .notify id k r n) :
    f u = .notify id k r n := by
  by_cases hu : u = t
  · subst hu; exact absurd (by simpa using h) (hp id k r n)
  · simpa [hu] using h

end

namespace Spec

variable [Fintype ι] [DecidableEq ι] [DecidableEq γ] {S : Spec σ κ ρ γ}

/-- The steps by what they leave alone: a call arrives; a section is completed; or neither the
    data nor the completed sections change. -/
inductive Frame (S : Spec σ κ ρ γ) (s s' : State ι σ κ ρ γ) : Prop
  | call (t : ι) (k : κ) : s.pc t = .idle → S.allowed s.data k →
      (∀ u k', (s.pc u).call? = some k' → S.compat k' k) →
      s'.pc = Function.update s.pc t (.ready s.next k) → s'.next = s.next + 1 →
      s'.data = s.data → s'.passes = s.passes → s'.returned = s.returned → Frame S s s'
  | done (t : ι) (id : ℕ) (k : κ) (d : σ) (r : ρ) (n : Option (Notify γ)) :
      s.pc t = .ready id k → S.pass s.data k = .done d r n → s'.data = d →
      s'.passes = s.passes ++ [⟨id, k, r⟩] → s'.next = s.next →
      (∀ u, (s.pc u).After (s'.pc u)) → ¬ (s'.pc t).todo →
      (∀ u id' k' r' n', s'.pc u = .notify id' k' r' n' →
        (⟨id', k', r'⟩ : Entry κ ρ) = ⟨id, k, r⟩ ∨ s.pc u = .notify id' k' r' n') →
      s'.returned ⊆ s.returned ++ [⟨id, k, r⟩] → Frame S s s'
  | quiet : s'.data = s.data → s'.passes = s.passes → s'.next = s.next →
      (∀ u, (s.pc u).After (s'.pc u)) →
      (∀ u id k r n, s'.pc u = .notify id k r n → s.pc u = .notify id k r n) →
      (∀ e ∈ s'.returned, e ∈ s.returned ∨
        ∃ t n, s.pc t = .notify e.id e.call e.ret n) → Frame S s s'

omit [Fintype ι] in
theorem Step.frame {s s' : State ι σ κ ρ γ} (h : S.Step s s') : S.Frame s s' := by
  cases h with
  | call t k ht ha hc => exact .call t k ht ha hc rfl rfl rfl rfl rfl
  | finish t id k d r ht hp =>
    refine .done t id k d r none ht hp rfl rfl rfl (Pc.After.update (Or.inl rfl)) (by simp [Pc.todo])
      (fun u _ _ _ _ hu => Or.inr (notify_update (by simp) u _ _ _ _ hu)) (by simp)
  | leave t id k d r n ht hp =>
    refine .done t id k d r (some n) ht hp rfl rfl rfl
      (Pc.After.update (Or.inr (by simp [ht, Pc.call?, Pc.id?, Pc.todo]))) (by simp [Pc.todo])
      (fun u id' k' r' n' hu => ?_) (by simp)
    by_cases hut : u = t
    · subst hut; simp at hu; simp [hu]
    · exact Or.inr (by simpa [hut] using hu)
  | wait t id k c ht hp =>
    exact .quiet rfl rfl rfl
      (Pc.After.update (Or.inr (by simp [ht, Pc.call?, Pc.id?, Pc.todo])))
      (notify_update (by simp)) fun e he => Or.inl he
  | signal t u id k r c id' k' ht hu =>
    refine .quiet rfl rfl rfl (fun v => ?_) (fun v id₁ k₁ r₁ n₁ hv => ?_) fun e he => ?_
    · by_cases hvt : v = t
      · subst hvt; simp [Pc.After]
      · simp only [hvt, ne_eq, not_false_eq_true, Function.update_of_ne]
        exact Pc.After.update (Or.inr (by simp [hu, Pc.call?, Pc.id?, Pc.todo])) v
    · exact notify_update (by simp) v _ _ _ _ (notify_update (by simp) v _ _ _ _ hv)
    · rcases List.mem_append.1 he with he | he
      · exact Or.inl he
      · rw [List.mem_singleton.1 he]; exact Or.inr ⟨t, _, ht⟩
  | signalNone t id k r c ht _ =>
    refine .quiet rfl rfl rfl (Pc.After.update (Or.inl rfl)) (notify_update (by simp)) fun e he => ?_
    rcases List.mem_append.1 he with he | he
    · exact Or.inl he
    · rw [List.mem_singleton.1 he]; exact Or.inr ⟨t, _, ht⟩
  | broadcast t id k r c ht =>
    refine .quiet rfl rfl rfl (fun u => ?_) (fun u id' k' r' n' hu => ?_) fun e he => ?_
    · by_cases hut : u = t
      · subst hut; simp [Pc.After]
      · simpa [hut] using Pc.After.wake c (s.pc u)
    · by_cases hut : u = t
      · subst hut; simp at hu
      · have hw : (s.pc u).wake c = .notify id' k' r' n' := by simpa [hut] using hu
        cases hp : s.pc u <;> grind [Pc.wake]
    · rcases List.mem_append.1 he with he | he
      · exact Or.inl he
      · rw [List.mem_singleton.1 he]; exact Or.inr ⟨t, _, ht⟩
  | spurious u id k c hu =>
    exact .quiet rfl rfl rfl
      (Pc.After.update (Or.inr (by simp [hu, Pc.call?, Pc.id?, Pc.todo])))
      (notify_update (by simp)) fun e he => Or.inl he

end Spec

/-! ## Invariants of the data -/

/-- `Inv` is kept by every pass an allowed call can make, and a call that is allowed stays
    allowed while the calls it is compatible with make theirs. -/
structure Lawful (S : Spec σ κ ρ γ) (Inv : σ → List (Entry κ ρ) → Prop) : Prop where
  init : Inv S.init []
  symm : ∀ {k k'}, S.compat k k' → S.compat k' k
  keep : ∀ {d ps k d' r n} (id : ℕ), Inv d ps → S.allowed d k → S.pass d k = .done d' r n →
    Inv d' (ps ++ [⟨id, k, r⟩])
  stable : ∀ {d ps k k' d' r n}, Inv d ps → S.allowed d k → S.allowed d k' → S.compat k k' →
    S.pass d k = .done d' r n → S.allowed d' k'

/-- The data satisfy `Inv`, the calls still to be completed are allowed, and the calls in
    progress are compatible. -/
structure Sound (S : Spec σ κ ρ γ) (Inv : σ → List (Entry κ ρ) → Prop) (s : State ι σ κ ρ γ) :
    Prop where
  data : Inv s.data s.passes
  allowed : ∀ t k, (s.pc t).todo → (s.pc t).call? = some k → S.allowed s.data k
  compat : ∀ t u k k', t ≠ u → (s.pc t).call? = some k → (s.pc u).call? = some k' → S.compat k k'

theorem Sound.ready {S : Spec σ κ ρ γ} {Inv : σ → List (Entry κ ρ) → Prop}
    {s : State ι σ κ ρ γ} (h : Sound S Inv s) {t : ι} {id : ℕ} {k : κ}
    (ht : s.pc t = .ready id k) : S.allowed s.data k :=
  h.allowed t k (by rw [ht]; rfl) (by rw [ht]; rfl)

section
variable [Fintype ι] [DecidableEq ι] [DecidableEq γ] {S : Spec σ κ ρ γ}
  {Inv : σ → List (Entry κ ρ) → Prop}

omit [Fintype ι] in
theorem Sound.step (hL : Lawful S Inv) {s s' : State ι σ κ ρ γ} (h : Sound S Inv s)
    (hs : S.Step s s') : Sound S Inv s' := by
  cases hs.frame with
  | call t k ht ha hc hpc _ hd hps _ =>
    refine ⟨by rw [hd, hps]; exact h.data, fun u k' htd hk => ?_, fun u v k₁ k₂ huv h₁ h₂ => ?_⟩
    · rw [hd]
      by_cases hut : u = t
      · subst hut; simp [hpc, Pc.call?] at hk; rwa [← hk]
      · simp only [hpc, ne_eq, hut, not_false_eq_true, Function.update_of_ne] at htd hk
        exact h.allowed u k' htd hk
    · by_cases hut : u = t
      · have hvt : v ≠ t := fun hv => huv (hut.trans hv.symm)
        subst hut
        simp [hpc, Pc.call?] at h₁
        simp only [hpc, ne_eq, hvt, not_false_eq_true, Function.update_of_ne] at h₂
        exact h₁ ▸ hL.symm (hc v k₂ h₂)
      · simp only [hpc, ne_eq, hut, not_false_eq_true, Function.update_of_ne] at h₁
        by_cases hvt : v = t
        · subst hvt; simp [hpc, Pc.call?] at h₂; exact h₂ ▸ hc u k₁ h₁
        · simp only [hpc, ne_eq, hvt, not_false_eq_true, Function.update_of_ne] at h₂
          exact h.compat u v k₁ k₂ huv h₁ h₂
  | done t id k d r n ht hp hd hps _ haft htodo _ _ =>
    have ha := h.ready ht
    refine ⟨by rw [hd, hps]; exact hL.keep id h.data ha hp, fun u k' htd hk => ?_,
      fun u v k₁ k₂ huv h₁ h₂ => h.compat u v k₁ k₂ huv ((haft u).call? h₁) ((haft v).call? h₂)⟩
    have hut : u ≠ t := fun he => htodo (he ▸ htd)
    have hk' := (haft u).call? hk
    rw [hd]
    exact hL.stable h.data ha (h.allowed u k' ((haft u).todo htd) hk')
      (h.compat t u k k' hut.symm (by rw [ht]; rfl) hk') hp
  | quiet hd hps _ haft _ _ =>
    refine ⟨by rw [hd, hps]; exact h.data, fun u k' htd hk => ?_,
      fun u v k₁ k₂ huv h₁ h₂ => h.compat u v k₁ k₂ huv ((haft u).call? h₁) ((haft v).call? h₂)⟩
    rw [hd]
    exact h.allowed u k' ((haft u).todo htd) ((haft u).call? hk)

/-- **A lawful monitor is sound**: its invariant holds along every run. -/
theorem Lawful.inductive (hL : Lawful S Inv) : (S.system ι).Inductive (Sound S Inv) where
  init := ⟨hL.init, fun _ _ h => by simp [Spec.system, Pc.todo] at h,
    fun _ _ _ _ _ h => by simp [Spec.system, Pc.call?] at h⟩
  step h ha := h.step hL (Spec.step_cases ha)

/-! ## The numbers of the calls -/

/-- Every call has its own number, completes its section once, and returns what its section
    decided. -/
structure Numbered (s : State ι σ κ ρ γ) : Prop where
  notify : ∀ t id k r n, s.pc t = .notify id k r n → ⟨id, k, r⟩ ∈ s.passes
  returned : s.returned ⊆ s.passes
  fresh : ∀ t id, (s.pc t).id? = some id → id < s.next
  past : ∀ e ∈ s.passes, e.id < s.next
  distinct : ∀ t u id, t ≠ u → (s.pc t).id? = some id → (s.pc u).id? ≠ some id
  todo : ∀ t id, (s.pc t).todo → (s.pc t).id? = some id → ∀ e ∈ s.passes, e.id ≠ id
  once : s.passes.Pairwise fun e e' => e.id ≠ e'.id

omit [Fintype ι] [DecidableEq ι] [DecidableEq γ] in
theorem Numbered.entry_eq {s : State ι σ κ ρ γ} (h : Numbered s) {e e' : Entry κ ρ}
    (he : e ∈ s.passes) (he' : e' ∈ s.passes) (hid : e.id = e'.id) : e = e' :=
  List.inj_on_of_nodup_map (List.pairwise_map.2 h.once) he he' hid

omit [Fintype ι] in
theorem Numbered.step {s s' : State ι σ κ ρ γ} (h : Numbered s) (hs : S.Step s s') :
    Numbered s' := by
  cases hs.frame with
  | call t k ht _ _ hpc hn _ hps hret =>
    have hid : ∀ u id, (s'.pc u).id? = some id →
        (u = t ∧ id = s.next) ∨ (u ≠ t ∧ (s.pc u).id? = some id) := by
      intro u id hu
      by_cases hut : u = t
      · subst hut; simp [hpc, Pc.id?] at hu; exact Or.inl ⟨rfl, hu.symm⟩
      · exact Or.inr ⟨hut, by simpa [hpc, hut] using hu⟩
    refine ⟨fun u id k' r n hu => ?_, by rw [hret, hps]; exact h.returned, fun u id hu => ?_,
      fun e he => ?_, fun u v id huv hu hv => ?_, fun u id htd hu e he => ?_,
      by rw [hps]; exact h.once⟩
    · rw [hps]
      rw [hpc] at hu
      exact h.notify u id k' r n (notify_update (by simp) u _ _ _ _ hu)
    · rcases hid u id hu with ⟨-, rfl⟩ | ⟨-, hu⟩
      · omega
      · have := h.fresh u id hu; omega
    · rw [hps] at he; have := h.past e he; omega
    · rcases hid u id hu with ⟨hut, hu⟩ | ⟨-, hu⟩ <;> rcases hid v id hv with ⟨hvt, hv⟩ | ⟨-, hv⟩
      · exact huv (hut.trans hvt.symm)
      · have := h.fresh v id hv; omega
      · have := h.fresh u id hu; omega
      · exact h.distinct u v id huv hu hv
    · rw [hps] at he
      rcases hid u id hu with ⟨rfl, rfl⟩ | ⟨hut, hu⟩
      · exact (h.past e he).ne
      · refine h.todo u id ?_ hu e he
        simpa [hpc, hut] using htd
  | done t id k d r n ht hp _ hps hn haft htodo hnot hret =>
    have hti : (s.pc t).id? = some id := by rw [ht]; rfl
    have htt : (s.pc t).todo := by rw [ht]; rfl
    refine ⟨fun u id' k' r' n' hu => ?_, ?_, fun u id' hu => ?_, fun e he => ?_,
      fun u v id' huv hu hv => h.distinct u v id' huv ((haft u).id? hu) ((haft v).id? hv),
      fun u id' htd hu e he => ?_, ?_⟩
    · rw [hps]
      rcases hnot u id' k' r' n' hu with he | hu
      · rw [he]; simp
      · exact List.mem_append_left _ (h.notify u id' k' r' n' hu)
    · rw [hps]
      intro e he
      rcases List.mem_append.1 (hret he) with he | he
      · exact List.mem_append_left _ (h.returned he)
      · exact List.mem_append_right _ he
    · rw [hn]; exact h.fresh u id' ((haft u).id? hu)
    · rw [hps] at he
      rw [hn]
      rcases List.mem_append.1 he with he | he
      · exact h.past e he
      · rw [List.mem_singleton.1 he]; exact h.fresh t id hti
    · rw [hps] at he
      rcases List.mem_append.1 he with he | he
      · exact h.todo u id' ((haft u).todo htd) ((haft u).id? hu) e he
      · rw [List.mem_singleton.1 he]
        have hut : t ≠ u := fun he => htodo (he ▸ htd)
        rintro rfl
        exact h.distinct t u id hut hti ((haft u).id? hu)
    · rw [hps, List.pairwise_append]
      refine ⟨h.once, by simp, fun e he e' he' => ?_⟩
      rw [List.mem_singleton.1 he']
      exact h.todo t id htt hti e he
  | quiet _ hps hn haft hnot hret =>
    refine ⟨fun u id k r n hu => ?_, fun e he => ?_, fun u id hu => ?_,
      fun e he => ?_,
      fun u v id huv hu hv => h.distinct u v id huv ((haft u).id? hu) ((haft v).id? hv),
      fun u id htd hu e he => ?_, by rw [hps]; exact h.once⟩
    · rw [hps]; exact h.notify u id k r n (hnot u id k r n hu)
    · rw [hps]
      rcases hret e he with he | ⟨t, n, ht⟩
      · exact h.returned he
      · exact h.notify t _ _ _ n ht
    · rw [hn]; exact h.fresh u id ((haft u).id? hu)
    · rw [hps] at he; rw [hn]; exact h.past e he
    · rw [hps] at he
      exact h.todo u id ((haft u).todo htd) ((haft u).id? hu) e he

/-- **Calls are numbered** along every run. -/
theorem Numbered.inductive (S : Spec σ κ ρ γ) : (S.system ι).Inductive Numbered where
  init := ⟨fun _ _ _ _ _ h => by simp [Spec.system] at h, by simp [Spec.system],
    fun _ _ h => by simp [Spec.system, Pc.id?] at h, by simp [Spec.system],
    fun _ _ _ _ h => by simp [Spec.system, Pc.id?] at h,
    fun _ _ h => by simp [Spec.system, Pc.todo] at h, by simp [Spec.system]⟩
  step h ha := h.step (Spec.step_cases ha)

end

end Monitor
