/-
  Monitors — how many steps there are.

  A call that is woken makes a pass, and may find that it has to wait again; it
  was woken by a notification, and a notification comes from a section that is
  complete.  So the threads cannot keep each other busy: but for spurious wakes
  the number of steps is bounded by the number of sections completed
  (`Spec.length_le`).

  * `Pc.weight`: the steps a thread can take, or cause, before another section is
    completed;
  * `Pc.pending`, `Spec.step_move`: what a step does to the calls that are still
    to be completed.
-/
import Ekostd.Lib.Monitor

namespace Sts

variable {ι α : Type*} [Fintype ι] [DecidableEq ι]

/-- **Moving one agent** changes a sum by what that agent contributes before and after. -/
theorem sum_update (w : α → ℕ) (f : ι → α) (i : ι) (a : α) :
    ∑ j, w (Function.update f i a j) + w (f i) = ∑ j, w (f j) + w a := by
  have hrest : ∑ j ∈ Finset.univ.erase i, w (Function.update f i a j) =
      ∑ j ∈ Finset.univ.erase i, w (f j) :=
    Finset.sum_congr rfl fun j hj => by rw [Function.update_of_ne (Finset.ne_of_mem_erase hj)]
  rw [← Finset.add_sum_erase _ _ (Finset.mem_univ i),
    ← Finset.add_sum_erase _ (fun j => w (f j)) (Finset.mem_univ i), Function.update_self, hrest]
  omega

/-- Steps that each take one off what is left, but for what they make and what they are given, are
    no more than was left, was made and was given. -/
theorem length_le {σ α : Type*} {M : Sts σ α} {gain : α → ℕ} {left made : σ → ℕ}
    (h : ∀ {s a s'}, M.step s a = some s' → left s' + 1 + made s ≤ left s + made s' + gain a)
    {as : List α} {s s' : σ} (hr : M.runFrom s as = some s') :
    left s' + as.length + made s ≤ left s + made s' + (as.map gain).sum := by
  induction as generalizing s with
  | nil =>
    cases hr
    exact le_rfl
  | cons a as ih =>
    obtain ⟨s₁, h₁, hr⟩ := Option.bind_eq_some_iff.1 hr
    have hfirst := h h₁
    have hrest := ih hr
    rw [List.length_cons, List.map_cons, List.sum_cons]
    omega

end Sts

namespace Monitor

variable {ι σ κ ρ γ : Type*}

namespace Pc

/-- The call a thread has still to complete. -/
def pending : Pc κ ρ γ → Option κ
  | ready _ k | blocked _ k _ => some k
  | idle | notify .. => none

/-- The steps a thread can take, or cause in the others, of which there are `n` at most. -/
def weight (n : ℕ) : Pc κ ρ γ → ℕ
  | idle => 2
  | ready .. => 1
  | blocked .. => 0
  | notify _ _ _ (.one _) => 4
  | notify _ _ _ (.all _) => n + 3

@[simp] theorem weight_idle (n : ℕ) : (idle : Pc κ ρ γ).weight n = 2 := rfl

@[simp] theorem weight_ready (n id : ℕ) (k : κ) : (ready id k : Pc κ ρ γ).weight n = 1 := rfl

@[simp] theorem weight_blocked (n id : ℕ) (k : κ) (c : γ) :
    (blocked id k c : Pc κ ρ γ).weight n = 0 := rfl

@[simp] theorem weight_one (n id : ℕ) (k : κ) (r : ρ) (c : γ) :
    (notify id k r (.one c)).weight n = 4 := rfl

@[simp] theorem weight_all (n id : ℕ) (k : κ) (r : ρ) (c : γ) :
    (notify id k r (.all c)).weight n = n + 3 := rfl

@[simp] theorem pending_wake [DecidableEq γ] (c : γ) (p : Pc κ ρ γ) :
    (p.wake c).pending = p.pending := by
  cases p <;> grind [wake, pending]

theorem weight_notify_le (n id : ℕ) (k : κ) (r : ρ) (m : Notify γ) (hn : 0 < n) :
    (notify id k r m).weight n ≤ n + 3 := by
  cases m with
  | one c =>
    rw [weight]
    omega
  | all c => exact le_rfl

theorem weight_wake_le [DecidableEq γ] (n : ℕ) (c : γ) (p : Pc κ ρ γ) :
    (p.wake c).weight n ≤ p.weight n + 1 := by
  cases p with
  | blocked id k c' => by_cases hc : c' = c <;> simp [wake, hc]
  | _ => exact Nat.le_succ _

end Pc

/-- What the spurious wakes add. -/
def Act.gain : Act ι κ → ℕ
  | .spurious _ => 2
  | _ => 0

variable [Fintype ι] [DecidableEq ι] [DecidableEq γ] {S : Spec σ κ ρ γ}
  {s s' : State ι σ κ ρ γ} {a : Act ι κ}

/-- What the threads can do before another section is completed. -/
def State.weight (s : State ι σ κ ρ γ) : ℕ := ∑ t, (s.pc t).weight (Fintype.card ι)

omit [DecidableEq γ] in
theorem weight_update (f : ι → Pc κ ρ γ) (t : ι) (p : Pc κ ρ γ) :
    ∑ u, (Function.update f t p u).weight (Fintype.card ι) + (f t).weight (Fintype.card ι) =
      ∑ u, (f u).weight (Fintype.card ι) + p.weight (Fintype.card ι) :=
  Sts.sum_update _ f t p

/-- **A step takes off the weight**, unless it completes a section or is a spurious wake. -/
theorem Spec.step_weight (h : S.step s a = some s') :
    s'.weight + 1 + (Fintype.card ι + 3) * s.passes.length ≤
      s.weight + (Fintype.card ι + 3) * s'.passes.length + a.gain := by
  have hcard : ∀ t : ι, 0 < Fintype.card ι := fun t => Fintype.card_pos_iff.2 ⟨t⟩
  cases a with
  | call t k =>
    simp only [step] at h
    split at h
    · next ht =>
      split_ifs at h
      cases h
      have hw := weight_update s.pc t (.ready s.next k)
      simp [ht] at hw
      simp only [State.weight, Act.gain]
      omega
    · cases h
  | enter t =>
    simp only [step] at h
    split at h
    · next id k ht =>
      cases h
      unfold enter
      split
      · next d r hp =>
        have hw := weight_update s.pc t .idle
        simp [ht] at hw
        simp only [State.weight, Act.gain, List.length_append, List.length_singleton, Nat.mul_add]
        omega
      · next d r n hp =>
        have hw := weight_update s.pc t (.notify id k r n)
        have hn := Pc.weight_notify_le (Fintype.card ι) id k r n (hcard t)
        simp [ht] at hw
        simp only [State.weight, Act.gain, List.length_append, List.length_singleton, Nat.mul_add]
        omega
      · next c hp =>
        have hw := weight_update s.pc t (.blocked id k c)
        simp [ht] at hw
        simp only [State.weight, Act.gain]
        omega
    · cases h
  | signal t u =>
    simp only [step] at h
    split at h
    · next id k r c id' k' c' ht hu =>
      split_ifs at h
      cases h
      have htu : t ≠ u := by
        rintro rfl
        cases ht.symm.trans hu
      have hw := weight_update s.pc u (.ready id' k')
      have hw' := weight_update (Function.update s.pc u (.ready id' k')) t .idle
      rw [Function.update_of_ne htu] at hw'
      simp [ht, hu] at hw hw'
      simp only [State.weight, Act.gain]
      omega
    · cases h
  | signalNone t =>
    simp only [step] at h
    split at h
    · next id k r c ht =>
      split_ifs at h
      cases h
      have hw := weight_update s.pc t .idle
      simp [ht] at hw
      simp only [State.weight, Act.gain]
      omega
    · cases h
  | broadcast t =>
    simp only [step] at h
    split at h
    · next id k r c ht =>
      cases h
      have hw := weight_update (fun u => (s.pc u).wake c) t .idle
      have hwoken : ∑ u, ((s.pc u).wake c).weight (Fintype.card ι) ≤
          ∑ u, (s.pc u).weight (Fintype.card ι) + Fintype.card ι := by
        refine (Finset.sum_le_sum fun u _ => Pc.weight_wake_le _ c (s.pc u)).trans ?_
        rw [Finset.sum_add_distrib, Finset.sum_const, Finset.card_univ, smul_eq_mul, mul_one]
      simp [ht, Pc.wake_notify] at hw
      simp only [State.weight, Act.gain]
      omega
    · cases h
  | spurious u =>
    simp only [step] at h
    split at h
    · next id k c hu =>
      cases h
      have hw := weight_update s.pc u (.ready id k)
      simp [hu] at hw
      simp only [State.weight, Act.gain]
      omega
    · cases h

/-- **How many steps there are**: no more than by the sections that are completed, and the spurious
    wakes. -/
theorem Spec.length_le {as : List (Act ι κ)} (h : (S.system ι).runFrom s as = some s') :
    s'.weight + as.length + (Fintype.card ι + 3) * s.passes.length ≤
      s.weight + (Fintype.card ι + 3) * s'.passes.length + (as.map Act.gain).sum :=
  Sts.length_le Spec.step_weight h

/-! ## The calls that are still to be completed -/

/-- The steps that start no call: one is completed, or they stay as they are. -/
inductive Spec.Move (S : Spec σ κ ρ γ) (s s' : State ι σ κ ρ γ) : Prop
  | done (t : ι) (id : ℕ) (k : κ) (r : ρ) (n : Option (Notify γ)) : s.pc t = .ready id k →
      S.pass s.data k = .done s'.data r n →
      (∀ u, (s'.pc u).pending = if u = t then none else (s.pc u).pending) →
      (∀ u k', (s'.pc u).call? = some k' → (s.pc u).call? = some k') →
      s'.passes = s.passes ++ [⟨id, k, r⟩] →
      s.returned ⊆ s'.returned → (n = none → ⟨id, k, r⟩ ∈ s'.returned) → Move S s s'
  | quiet : (∀ u, (s'.pc u).pending = (s.pc u).pending) →
      (∀ u k', (s'.pc u).call? = some k' → (s.pc u).call? = some k') →
      s'.data = s.data → s'.passes = s.passes → s.returned ⊆ s'.returned → Move S s s'

theorem Spec.step_call {t : ι} {k : κ} (h : S.step s (.call t k) = some s') :
    s.pc t = .idle ∧
      s' = { s with pc := Function.update s.pc t (.ready s.next k), next := s.next + 1 } := by
  simp only [step] at h
  split at h
  · next ht =>
    split_ifs at h
    cases h
    exact ⟨ht, rfl⟩
  · cases h

theorem Spec.step_next (h : S.step s a = some s') (ha : ∀ t k, a ≠ .call t k) :
    s'.next = s.next := by
  cases a with
  | call t k => exact absurd rfl (ha t k)
  | enter t =>
    simp only [step] at h
    split at h
    · cases h
      unfold enter
      split <;> rfl
    · cases h
  | signal t u | signalNone t =>
    simp only [step] at h
    split at h
    · split_ifs at h
      cases h
      rfl
    · cases h
  | broadcast t | spurious t =>
    simp only [step] at h
    split at h
    · cases h
      rfl
    · cases h

omit [Fintype ι] [DecidableEq γ] in
theorem pending_update (f : ι → Pc κ ρ γ) (t : ι) (p : Pc κ ρ γ) (u : ι) :
    (Function.update f t p u).pending = if u = t then p.pending else (f u).pending := by
  by_cases hu : u = t
  · subst hu
    simp
  · simp [hu]

omit [Fintype ι] [DecidableEq γ] in
theorem call?_update {f : ι → Pc κ ρ γ} {t : ι} {p : Pc κ ρ γ}
    (hp : ∀ k, p.call? = some k → (f t).call? = some k) (u : ι) (k : κ)
    (hk : (Function.update f t p u).call? = some k) : (f u).call? = some k := by
  by_cases hu : u = t
  · subst hu
    exact hp k (by simpa using hk)
  · simpa [hu] using hk

/-- **Every step that starts no call is one of these.** -/
theorem Spec.step_move (h : S.step s a = some s') (ha : ∀ t k, a ≠ .call t k) : S.Move s s' := by
  have hnext := step_next h ha
  cases step_cases h with
  | call t k ht _ _ => exact absurd hnext (Nat.succ_ne_self _)
  | finish t id k d r ht hp =>
    exact .done t id k r none ht hp (pending_update s.pc t _) (call?_update nofun) rfl
      (List.subset_append_left _ _) fun _ => by simp
  | leave t id k d r n ht hp =>
    exact .done t id k r (some n) ht hp (pending_update s.pc t _)
      (call?_update fun k' hk => by rw [ht]; exact hk) rfl (List.Subset.refl _) nofun
  | wait t id k c ht hp =>
    refine .quiet (fun u => ?_) (call?_update fun k' hk => by rw [ht]; exact hk) rfl rfl
      (List.Subset.refl _)
    rw [pending_update]
    split_ifs with hu
    · rw [hu, ht]
      rfl
    · rfl
  | signal t u id k r c id' k' ht hu =>
    refine .quiet (fun v => ?_) (fun v k₁ hk => ?_) rfl rfl (List.subset_append_left _ _)
    · rw [pending_update, pending_update]
      split_ifs with hv hv'
      · rw [hv, ht]
        rfl
      · rw [hv', hu]
        rfl
      · rfl
    · exact call?_update (fun k₂ hk₂ => by rw [hu]; exact hk₂) v k₁ (call?_update nofun v k₁ hk)
  | signalNone t id k r c ht _ =>
    refine .quiet (fun u => ?_) (call?_update nofun) rfl rfl (List.subset_append_left _ _)
    rw [pending_update]
    split_ifs with hu
    · rw [hu, ht]
      rfl
    · rfl
  | broadcast t id k r c ht =>
    refine .quiet (fun u => ?_) (fun u k₁ hk => ?_) rfl rfl (List.subset_append_left _ _)
    · rw [pending_update, Pc.pending_wake]
      split_ifs with hu
      · rw [hu, ht]
        rfl
      · rfl
    · have hwoken :=
        call?_update (f := fun u => (s.pc u).wake c) (t := t) (p := .idle) nofun u k₁ hk
      rwa [Pc.call?_wake] at hwoken
  | spurious u id k c hu =>
    refine .quiet (fun v => ?_) (call?_update fun k' hk => by rw [hu]; exact hk) rfl rfl
      (List.Subset.refl _)
    rw [pending_update]
    split_ifs with hv
    · rw [hv, hu]
      rfl
    · rfl

end Monitor
