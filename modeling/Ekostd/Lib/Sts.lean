/-
  State transition systems — runs, invariants and forward simulation.

  The step of a system is a partial function of the action: whatever is left
  open (which thread moves, what the environment answers) is part of the
  action.  A run is the fold of the step over a list of actions, so it can be
  computed.

  * `run`: the state a list of actions leads to, if every one of them can be
    taken in its turn;
  * `Inductive.run`: what holds initially and is kept by every step holds at
    the end of every run;
  * `cost_le`: the ranking rule, a bound on what a run can cost;
  * `Meets`: every action of a run is taken in a state that satisfies a
    condition, and `run_of_meets`, the invariant rule for such runs;
  * `iff_meets`, `always_iff_meets`: a property that is lost exactly by the
    steps that miss a condition, for good or for a while;
  * `Simulates.run`: a forward simulation carries runs of one system to runs
    of another.
-/
import Mathlib.Tactic

/-- A state transition system with one initial state. -/
structure Sts (σ α : Type*) where
  init : σ
  step : σ → α → Option σ

namespace Sts

variable {σ α : Type*} (M : Sts σ α)

/-- The state reached from `s` by the actions `as`. -/
def runFrom (s : σ) (as : List α) : Option σ := as.foldlM M.step s

/-- The state reached by the actions `as`. -/
def run (as : List α) : Option σ := M.runFrom M.init as

@[simp] theorem runFrom_nil (s : σ) : M.runFrom s [] = some s := rfl

@[simp] theorem runFrom_cons (s : σ) (a : α) (as : List α) :
    M.runFrom s (a :: as) = (M.step s a).bind fun s' => M.runFrom s' as := rfl

theorem runFrom_append (s : σ) (as bs : List α) :
    M.runFrom s (as ++ bs) = (M.runFrom s as).bind fun s' => M.runFrom s' bs :=
  List.foldlM_append

@[simp] theorem run_nil : M.run [] = some M.init := rfl

theorem run_append (as bs : List α) :
    M.run (as ++ bs) = (M.run as).bind fun s => M.runFrom s bs :=
  M.runFrom_append M.init as bs

theorem run_snoc (as : List α) (a : α) :
    M.run (as ++ [a]) = (M.run as).bind fun s => M.step s a := by
  simp [run_append]

variable {M}

theorem run_snoc_eq_some {as : List α} {a : α} {s' : σ} :
    M.run (as ++ [a]) = some s' ↔ ∃ s, M.run as = some s ∧ M.step s a = some s' := by
  rw [run_snoc, Option.bind_eq_some_iff]

/-! ## Invariants -/

/-- An inductive invariant: it holds initially and every step keeps it. -/
structure Inductive (M : Sts σ α) (I : σ → Prop) : Prop where
  init : I M.init
  step : ∀ {s a s'}, I s → M.step s a = some s' → I s'

/-- What every step keeps is kept along every run. -/
theorem runFrom_keeps {I : σ → Prop} (h : ∀ {s a s'}, I s → M.step s a = some s' → I s')
    {as : List α} {s s' : σ} (hs : I s) (hr : M.runFrom s as = some s') : I s' := by
  induction as generalizing s with
  | nil => cases hr; exact hs
  | cons a as ih =>
    obtain ⟨s₁, h₁, hr⟩ := Option.bind_eq_some_iff.1 hr
    exact ih (h hs h₁) hr

/-- **The invariant rule**: an inductive invariant holds at the end of every run. -/
theorem Inductive.run {I : σ → Prop} (h : M.Inductive I) {as : List α} {s : σ}
    (hr : M.run as = some s) : I s :=
  runFrom_keeps h.step h.init hr

/-- **The ranking rule**: where every step takes its cost off what is left, a run costs no more than
    what is left at its beginning. -/
theorem cost_le {I : σ → Prop} {cost : α → ℕ} {left : σ → ℕ}
    (h : ∀ {s a s'}, I s → M.step s a = some s' → I s' ∧ left s' + cost a ≤ left s)
    {as : List α} {s s' : σ} (hs : I s) (hr : M.runFrom s as = some s') :
    (as.map cost).sum ≤ left s := by
  induction as generalizing s with
  | nil => exact Nat.zero_le _
  | cons a as ih =>
    obtain ⟨s₁, h₁, hr⟩ := Option.bind_eq_some_iff.1 hr
    obtain ⟨hI, hle⟩ := h hs h₁
    have hrest := ih hI hr
    rw [List.map_cons, List.sum_cons]
    omega

/-- Rounds that each lead to where the next one begins make a run that costs as much as they do. -/
theorem exists_run_cost {I : ℕ → σ → Prop} {cost : α → ℕ}
    (h : ∀ {n s}, I (n + 1) s → ∃ as s', M.runFrom s as = some s' ∧ I n s' ∧ 1 ≤ (as.map cost).sum)
    {n : ℕ} {s : σ} (hs : I n s) :
    ∃ as s', M.runFrom s as = some s' ∧ n ≤ (as.map cost).sum := by
  induction n generalizing s with
  | zero => exact ⟨[], s, rfl, Nat.zero_le _⟩
  | succ n ih =>
    obtain ⟨as, s₁, h₁, hI, hone⟩ := h hs
    obtain ⟨bs, s₂, h₂, hn⟩ := ih hI
    refine ⟨as ++ bs, s₂, by rw [runFrom_append, h₁]; exact h₂, ?_⟩
    rw [List.map_append, List.sum_append]
    omega

theorem Inductive.and {I J : σ → Prop} (hI : M.Inductive I) (h₀ : J M.init)
    (h : ∀ {s a s'}, I s → J s → M.step s a = some s' → J s') :
    M.Inductive fun s => I s ∧ J s where
  init := ⟨hI.init, h₀⟩
  step hs ha := ⟨hI.step hs.1 ha, h hs.1 hs.2 ha⟩

/-! ## Runs whose steps meet a condition -/

/-- Every action of the run `as` is taken in a state that meets `C`. -/
def Meets (M : Sts σ α) (C : σ → α → Prop) (as : List α) : Prop :=
  ∀ pre a post, as = pre ++ a :: post → ∀ s, M.run pre = some s → C s a

theorem meets_snoc {C : σ → α → Prop} {as : List α} {a : α} :
    M.Meets C (as ++ [a]) ↔ M.Meets C as ∧ ∀ s, M.run as = some s → C s a := by
  constructor
  · intro h
    refine ⟨fun pre b post he => h pre b (post ++ [a]) ?_, h as a [] rfl⟩
    rw [he, List.append_assoc, List.cons_append]
  · rintro ⟨has, ha⟩ pre b post he
    rcases List.eq_nil_or_concat post with rfl | ⟨post, c, rfl⟩
    · obtain ⟨rfl, hb⟩ := List.append_inj' he rfl
      cases hb
      exact ha
    · rw [List.concat_eq_append, ← List.cons_append, ← List.append_assoc] at he
      exact has pre b post (List.append_inj' he rfl).1

/-- The invariant rule for the runs whose steps meet `C`. -/
theorem run_of_meets {C : σ → α → Prop} {I : σ → Prop} (h₀ : I M.init)
    (h : ∀ {s a s'}, I s → C s a → M.step s a = some s' → I s') {as : List α} {s : σ}
    (hc : M.Meets C as) (hr : M.run as = some s) : I s := by
  induction as using List.reverseRecOn generalizing s with
  | nil => cases hr; exact h₀
  | append_singleton as a ih =>
    obtain ⟨s₁, h₁, ha⟩ := run_snoc_eq_some.1 hr
    obtain ⟨hpre, hlast⟩ := meets_snoc.1 hc
    exact h (ih hpre h₁) (hlast s₁ h₁) ha

/-- A property that a step keeps exactly when it meets `C` holds exactly at the end of the runs
    that meet `C`. -/
theorem iff_meets {C : σ → α → Prop} {I P : σ → Prop} (hI : M.Inductive I) (h₀ : P M.init)
    (h : ∀ {s a s'}, I s → M.step s a = some s' → (P s' ↔ P s ∧ C s a)) {as : List α} {s : σ}
    (hr : M.run as = some s) : P s ↔ M.Meets C as := by
  induction as using List.reverseRecOn generalizing s with
  | nil =>
    cases hr
    exact ⟨fun _ pre a post he => by simp at he, fun _ => h₀⟩
  | append_singleton as a ih =>
    obtain ⟨s₁, h₁, ha⟩ := run_snoc_eq_some.1 hr
    rw [h (hI.run h₁) ha, ih h₁, meets_snoc]
    exact and_congr_right fun _ => ⟨fun hC s₂ h₂ => by rwa [← Option.some.inj (h₁.symm.trans h₂)],
      fun hC => hC s₁ h₁⟩

/-- `Meets` along the actions from `s`, computed. -/
def MeetsFrom (M : Sts σ α) (C : σ → α → Prop) (s : σ) : List α → Prop
  | [] => True
  | a :: as => C s a ∧ match M.step s a with
    | some s' => M.MeetsFrom C s' as
    | none => True

instance decidableMeetsFrom {C : σ → α → Prop} [∀ s a, Decidable (C s a)] :
    ∀ (s : σ) (as : List α), Decidable (M.MeetsFrom C s as)
  | _, [] => .isTrue trivial
  | s, a :: as =>
    have : Decidable (match M.step s a with
        | some s' => M.MeetsFrom C s' as
        | none => True) :=
      match M.step s a with
      | some s' => decidableMeetsFrom s' as
      | none => .isTrue trivial
    inferInstanceAs (Decidable (C s a ∧ _))

theorem MeetsFrom.meets {C : σ → α → Prop} {as : List α} (h : M.MeetsFrom C M.init as) :
    M.Meets C as := by
  intro pre a post he s hr
  rw [run] at hr
  generalize M.init = s₀ at h hr
  induction pre generalizing as s₀ with
  | nil => cases hr; subst he; exact h.1
  | cons b pre ih =>
    subst he
    obtain ⟨s₁, h₁, hr⟩ := Option.bind_eq_some_iff.1 hr
    have hrest := h.2
    rw [h₁] at hrest
    exact ih rfl s₁ hrest hr

/-- A run meets what an invariant gives, if its actions are among those that keep the
    invariant. -/
theorem Meets.of_inv {C : σ → α → Prop} {I : σ → Prop} {D : α → Prop} (h₀ : I M.init)
    (h : ∀ {s a s'}, I s → D a → M.step s a = some s' → I s') (hC : ∀ {s a}, I s → D a → C s a)
    {as : List α} (hD : ∀ a ∈ as, D a) : M.Meets C as := by
  intro pre a post he s hr
  have hpre : M.Meets (fun _ a => D a) pre := by
    intro pre' a' post' he' _ _
    exact hD a' (by simp [he, he'])
  exact hC (run_of_meets h₀ h hpre hr) (hD a (by simp [he]))

/-! ## Forward simulation -/

variable {τ β : Type*} {N : Sts τ β}

/-- `R` is a forward simulation of `M` by `N`: a step of `M` is matched by some steps of
    `N`, possibly none. -/
structure Simulates (M : Sts σ α) (N : Sts τ β) (R : σ → τ → Prop) : Prop where
  init : R M.init N.init
  step : ∀ {s t a s'}, R s t → M.step s a = some s' → ∃ bs t', N.runFrom t bs = some t' ∧ R s' t'

/-- **Simulation lifts to runs.** -/
theorem Simulates.run {R : σ → τ → Prop} (h : M.Simulates N R) {as : List α} {s : σ}
    (hr : M.run as = some s) : ∃ bs t, N.run bs = some t ∧ R s t := by
  induction as using List.reverseRecOn generalizing s with
  | nil => cases hr; exact ⟨[], N.init, rfl, h.init⟩
  | append_singleton as a ih =>
    obtain ⟨s₁, h₁, ha⟩ := run_snoc_eq_some.1 hr
    obtain ⟨bs, t, ht, hR⟩ := ih h₁
    obtain ⟨cs, t', ht', hR'⟩ := h.step hR ha
    exact ⟨bs ++ cs, t', by rw [run_append, ht]; exact ht', hR'⟩

end Sts
