/-
  Monitors — no wakeup is lost.

  A notification is issued after the mutex was released, so that another call
  may take what the woken one was notified of.  What is counted against the
  units available on a condition variable `c` is therefore the notifications
  still to be issued and the calls about to take the mutex: as long as a call
  waits on `c`, there are at least as many of them as units (`Balanced`).  A
  condition that ends all waiting on `c` for good is told by a broadcast.

  `Wakes` is what the passes have to respect for this, and `Wakes.stuck` is the
  result: when no thread inside a call can move, nobody waits on `c` while a
  unit is available or the waiting is over.
-/
import Ekostd.Lib.Monitor

namespace Monitor

variable {ι σ κ ρ γ : Type*} [DecidableEq γ]

/-- The notifications of one waiter of `c` in `n`. -/
def Notify.units (c : γ) (n : Option (Notify γ)) : ℕ := if n = some (.one c) then 1 else 0

namespace Pc

/-- The thread is to notify one waiter of `c`. -/
def signals (c : γ) : Pc κ ρ γ → Bool
  | notify _ _ _ n => n = .one c
  | _ => false

/-- The thread is to notify all waiters of `c`. -/
def announces (c : γ) : Pc κ ρ γ → Bool
  | notify _ _ _ n => n = .all c
  | _ => false

omit [DecidableEq γ] in
/-- The thread is about to take the mutex for a call that satisfies `w`. -/
def runs (w : κ → Bool) : Pc κ ρ γ → Bool
  | ready _ k => w k
  | _ => false

end Pc

/-- The passes of `S` respect the units `avail` and the end of waiting `gone` of the condition
    variable `c`, on which the calls `waiter` wait:
    a call waits on `c` only without a unit (`waits`) and on nothing else (`only`); a waiter
    that completes takes a unit (`takes`); a new unit comes with a notification (`gives`); the
    end of waiting is for good (`stays`) and comes with a broadcast (`tells`). -/
structure Wakes (S : Spec σ κ ρ γ) (Inv : σ → List (Entry κ ρ) → Prop) (c : γ) (waiter : κ → Bool)
    (avail : σ → ℕ) (gone : σ → Prop) : Prop where
  waits : ∀ {d ps k}, Inv d ps → S.allowed d k → S.pass d k = .wait c →
    waiter k ∧ avail d = 0 ∧ ¬ gone d
  only : ∀ {d ps k c'}, Inv d ps → S.allowed d k → waiter k → S.pass d k = .wait c' → c' = c
  takes : ∀ {d ps k d' r n}, Inv d ps → S.allowed d k → waiter k → S.pass d k = .done d' r n →
    ¬ gone d' → avail d' + 1 ≤ avail d + Notify.units c n
  gives : ∀ {d ps k d' r n}, Inv d ps → S.allowed d k → S.pass d k = .done d' r n →
    ¬ gone d' → avail d' ≤ avail d + Notify.units c n
  stays : ∀ {d ps k d' r n}, Inv d ps → S.allowed d k → S.pass d k = .done d' r n →
    gone d → gone d'
  tells : ∀ {d ps k d' r n}, Inv d ps → S.allowed d k → S.pass d k = .done d' r n →
    ¬ gone d → gone d' → n = some (.all c)

variable [Fintype ι]

/-- The threads waiting on `c`. -/
def waiting (c : γ) (f : ι → Pc κ ρ γ) : ℕ := Sts.count (fun p => p.waitsOn c) f

/-- The threads that are to notify one waiter of `c`. -/
def signalling (c : γ) (f : ι → Pc κ ρ γ) : ℕ := Sts.count (fun p => p.signals c) f

/-- The threads that are to notify all waiters of `c`. -/
def announcing (c : γ) (f : ι → Pc κ ρ γ) : ℕ := Sts.count (fun p => p.announces c) f

omit [DecidableEq γ] in
/-- The threads about to take the mutex for a call of `w`. -/
def running (w : κ → Bool) (f : ι → Pc κ ρ γ) : ℕ := Sts.count (fun p => p.runs w) f

/-- While somebody waits on `c`, the units available are covered by the notifications to be
    issued and the waiters about to run; once the waiting is over, a broadcast is to come. -/
structure Balanced (c : γ) (waiter : κ → Bool) (avail : σ → ℕ) (gone : σ → Prop)
    (s : State ι σ κ ρ γ) : Prop where
  kind : ∀ u id k, s.pc u = .blocked id k c → waiter k
  told : gone s.data → waiting c s.pc = 0 ∨ 0 < announcing c s.pc
  owed : ¬ gone s.data → waiting c s.pc = 0 ∨
    avail s.data ≤ signalling c s.pc + running waiter s.pc

variable [DecidableEq ι] {S : Spec σ κ ρ γ} {Inv : σ → List (Entry κ ρ) → Prop} {c : γ}
  {waiter : κ → Bool} {avail : σ → ℕ} {gone : σ → Prop}

/-- How the four counts change when one thread moves. -/
theorem counts_update (c : γ) (waiter : κ → Bool) (f : ι → Pc κ ρ γ) (t : ι) (p : Pc κ ρ γ) :
    waiting c (Function.update f t p) + (if (f t).waitsOn c then 1 else 0) =
      waiting c f + (if p.waitsOn c then 1 else 0) ∧
    signalling c (Function.update f t p) + (if (f t).signals c then 1 else 0) =
      signalling c f + (if p.signals c then 1 else 0) ∧
    announcing c (Function.update f t p) + (if (f t).announces c then 1 else 0) =
      announcing c f + (if p.announces c then 1 else 0) ∧
    running waiter (Function.update f t p) + (if (f t).runs waiter then 1 else 0) =
      running waiter f + (if p.runs waiter then 1 else 0) :=
  ⟨Sts.count_update _ f t p, Sts.count_update _ f t p, Sts.count_update _ f t p,
    Sts.count_update _ f t p⟩

omit [DecidableEq ι] in
/-- How the four counts change when all waiters of `c'` are woken. -/
theorem counts_wake (c c' : γ) (waiter : κ → Bool) (f : ι → Pc κ ρ γ) :
    waiting c (fun u => (f u).wake c') ≤ waiting c f ∧
    (c' = c → waiting c (fun u => (f u).wake c') = 0) ∧
    signalling c (fun u => (f u).wake c') = signalling c f ∧
    announcing c (fun u => (f u).wake c') = announcing c f ∧
    running waiter f ≤ running waiter (fun u => (f u).wake c') := by
  refine ⟨Sts.count_mono fun u => ?_, fun hc => Sts.count_eq_zero.2 fun u => ?_,
    Sts.count_congr fun u => ?_, Sts.count_congr fun u => ?_, Sts.count_mono fun u => ?_⟩ <;>
    cases f u <;> grind [Pc.wake, Pc.waitsOn, Pc.signals, Pc.announces, Pc.runs]

theorem Balanced.kind_update {s : State ι σ κ ρ γ} (h : Balanced c waiter avail gone s) {t : ι}
    {p : Pc κ ρ γ} (hp : p.waitsOn c = false) (u : ι) (id : ℕ) (k : κ)
    (hu : Function.update s.pc t p u = .blocked id k c) : waiter k := by
  by_cases hut : u = t
  · subst hut
    rw [Function.update_self] at hu
    simp [hu, Pc.waitsOn] at hp
  · exact h.kind u id k (by simpa [hut] using hu)

/-- **A section that completes** keeps the balance: what it takes or gives is notified of by `n`,
    which the thread issues at `p`. -/
theorem Balanced.complete (hW : Wakes S Inv c waiter avail gone) {s s' : State ι σ κ ρ γ}
    (hI : Sound S Inv s) (h : Balanced c waiter avail gone s) {t : ι} {id : ℕ} {k : κ} {r : ρ}
    {n : Option (Notify γ)} {p : Pc κ ρ γ} (ht : s.pc t = .ready id k)
    (hp : S.pass s.data k = .done s'.data r n) (hpc : s'.pc = Function.update s.pc t p)
    (hwait : p.waitsOn c = false) (hruns : p.runs waiter = false)
    (hone : (if p.signals c then 1 else 0) = Notify.units c n)
    (hall : n = some (.all c) → p.announces c = true) : Balanced c waiter avail gone s' := by
  have ha := hI.ready ht
  obtain ⟨h₁, h₂, h₃, h₄⟩ := counts_update c waiter s.pc t p
  have hbefore : (s.pc t).waitsOn c = false ∧ (s.pc t).signals c = false ∧
      (s.pc t).announces c = false ∧ (s.pc t).runs waiter = waiter k := by
    rw [ht]
    exact ⟨rfl, rfl, rfl, rfl⟩
  simp only [hbefore, hone, hwait, hruns, Bool.false_eq_true, if_false, Nat.add_zero]
    at h₁ h₂ h₃ h₄
  refine ⟨hpc ▸ h.kind_update hwait, fun hg => ?_, fun hg => ?_⟩
  · rw [hpc]
    by_cases hg₀ : gone s.data
    · have := h.told hg₀
      omega
    · rw [hall (hW.tells hI.data ha hp hg₀ hg), if_pos rfl] at h₃
      omega
  · rw [hpc]
    have := h.owed fun hg₀ => hg (hW.stays hI.data ha hp hg₀)
    split_ifs at h₄ with hw
    · have := hW.takes hI.data ha hw hp hg
      omega
    · have := hW.gives hI.data ha hp hg
      omega

/-- **What one step preserves.** -/
theorem Balanced.step (hW : Wakes S Inv c waiter avail gone) {s s' : State ι σ κ ρ γ}
    (hI : Sound S Inv s) (h : Balanced c waiter avail gone s) (hs : S.Step s s') :
    Balanced c waiter avail gone s' := by
  have hold := h.owed
  have htold := h.told
  cases hs with
  | call t k ht _ _ =>
    obtain ⟨h₁, h₂, h₃, h₄⟩ := counts_update c waiter s.pc t (.ready s.next k)
    simp [ht, Pc.waitsOn, Pc.signals, Pc.announces, Pc.runs] at h₁ h₂ h₃ h₄
    exact ⟨h.kind_update rfl, fun hg => by have := htold hg; simp only; omega,
      fun hg => by have := hold hg; simp only; omega⟩
  | finish t id k d r ht hp =>
    exact h.complete hW hI ht hp rfl rfl rfl (by simp [Pc.signals, Notify.units]) (by simp)
  | leave t id k d r n ht hp =>
    refine h.complete hW hI ht hp rfl rfl rfl (by simp [Pc.signals, Notify.units]) fun hn => ?_
    simpa [Pc.announces] using hn
  | wait t id k c' ht hp =>
    have ha := hI.ready ht
    obtain ⟨h₁, h₂, h₃, h₄⟩ := counts_update c waiter s.pc t (.blocked id k c')
    simp [ht, Pc.waitsOn, Pc.signals, Pc.announces, Pc.runs] at h₁ h₂ h₃ h₄
    by_cases hc : c' = c
    · subst hc
      obtain ⟨hw, h0, hg₀⟩ := hW.waits hI.data ha hp
      refine ⟨fun u id' k' hu => ?_, fun hg => absurd hg hg₀, fun hg => ?_⟩
      · by_cases hut : u = t
        · subst hut; simp at hu; rw [← hu.2]; exact hw
        · exact h.kind u id' k' (by simpa [hut] using hu)
      · simp only; omega
    · have hw : waiter k = false := by
        by_contra hw
        exact hc (hW.only hI.data ha (by simpa using hw) hp)
      simp [hc, hw] at h₁ h₄
      exact ⟨h.kind_update (by simp [Pc.waitsOn, hc]),
        fun hg => by have := htold hg; simp only; omega,
        fun hg => by have := hold hg; simp only; omega⟩
  | signal t u id k r c' id' k' ht hu =>
    have htu : t ≠ u := by rintro rfl; rw [ht] at hu; cases hu
    obtain ⟨h₁, h₂, h₃, h₄⟩ := counts_update c waiter s.pc u (.ready id' k')
    obtain ⟨g₁, g₂, g₃, g₄⟩ :=
      counts_update c waiter (Function.update s.pc u (.ready id' k')) t .idle
    simp [ht, hu, htu, Pc.waitsOn, Pc.signals, Pc.announces, Pc.runs] at h₁ h₂ h₃ h₄ g₁ g₂ g₃ g₄
    refine ⟨fun v id₁ k₁ hv => ?_, fun hg => ?_, fun hg => ?_⟩
    · by_cases hvt : v = t
      · subst hvt; simp at hv
      · exact h.kind_update (t := u) (p := .ready id' k') rfl v id₁ k₁ (by simpa [hvt] using hv)
    · have := htold hg
      simp only; split_ifs at h₁ <;> omega
    · have := hold hg
      by_cases hc : c' = c
      · subst hc
        have hw := h.kind u id' k' hu
        simp [hw] at h₁ h₄ g₂
        simp only; omega
      · simp [hc] at h₁ g₂
        simp only; split_ifs at h₄ <;> omega
  | signalNone t id k r c' ht hnone =>
    obtain ⟨h₁, h₂, h₃, h₄⟩ := counts_update c waiter s.pc t .idle
    simp [ht, Pc.waitsOn, Pc.signals, Pc.announces, Pc.runs] at h₁ h₂ h₃ h₄
    refine ⟨h.kind_update rfl, fun hg => by have := htold hg; simp only; omega, fun hg => ?_⟩
    have := hold hg
    by_cases hc : c' = c
    · subst hc
      have h0 : waiting c' s.pc = 0 := Sts.count_eq_zero.2 hnone
      simp only; omega
    · simp [hc] at h₂
      simp only; omega
  | broadcast t id k r c' ht =>
    obtain ⟨w₁, w₂, w₃, w₄, w₅⟩ := counts_wake c c' waiter s.pc
    obtain ⟨h₁, h₂, h₃, h₄⟩ := counts_update c waiter (fun u => (s.pc u).wake c') t .idle
    simp [ht, Pc.waitsOn, Pc.signals, Pc.announces, Pc.runs] at h₁ h₂ h₃ h₄
    refine ⟨fun u id' k' hu => ?_, fun hg => ?_, fun hg => ?_⟩
    · by_cases hut : u = t
      · subst hut; simp at hu
      · have hu' : (s.pc u).wake c' = .blocked id' k' c := by simpa [hut] using hu
        refine h.kind u id' k' ?_
        cases hp : s.pc u <;> grind [Pc.wake]
    · have := htold hg
      by_cases hc : c' = c
      · have := w₂ hc; simp only; omega
      · simp [hc] at h₃
        simp only; omega
    · have := hold hg
      simp only; omega
  | spurious u id k c' hu =>
    obtain ⟨h₁, h₂, h₃, h₄⟩ := counts_update c waiter s.pc u (.ready id k)
    simp [hu, Pc.waitsOn, Pc.signals, Pc.announces, Pc.runs] at h₁ h₂ h₃ h₄
    refine ⟨h.kind_update rfl, fun hg => ?_, fun hg => ?_⟩
    · have := htold hg; simp only; split_ifs at h₁ <;> omega
    · have := hold hg; simp only; split_ifs at h₁ h₄ <;> omega

/-- **The balance is kept** along every run. -/
theorem Wakes.inductive (hL : Lawful S Inv) (hW : Wakes S Inv c waiter avail gone) :
    (S.system ι).Inductive fun s => Sound S Inv s ∧ Balanced c waiter avail gone s :=
  hL.inductive.and
    ⟨fun _ _ _ h => by simp [Spec.system] at h,
      fun _ => Or.inl (Sts.count_eq_zero.2 fun _ => by simp [Spec.system, Pc.waitsOn]),
      fun _ => Or.inl (Sts.count_eq_zero.2 fun _ => by simp [Spec.system, Pc.waitsOn])⟩
    fun hI hB ha => hB.step hW hI (Spec.step_cases ha)

theorem Wakes.waiter_of_blocked (hL : Lawful S Inv) (hW : Wakes S Inv c waiter avail gone)
    {as : List (Act ι κ)} {s : State ι σ κ ρ γ} (h : (S.system ι).run as = some s) {t : ι} {id : ℕ}
    {k : κ} (ht : s.pc t = .blocked id k c) : waiter k :=
  ((hW.inductive hL).run h).2.kind t id k ht

/-- **No wakeup is lost**: when no thread inside a call can move, a call that waits on `c` has
    no unit available and its waiting is not over. -/
theorem Wakes.stuck (hL : Lawful S Inv) (hW : Wakes S Inv c waiter avail gone) {as : List (Act ι κ)}
    {s : State ι σ κ ρ γ} (hr : (S.system ι).run as = some s) (hs : S.Stuck s) {t : ι} {id : ℕ}
    {k : κ} (ht : s.pc t = .blocked id k c) : avail s.data = 0 ∧ ¬ gone s.data := by
  obtain ⟨-, hB⟩ := (hW.inductive hL).run hr
  have hwait : 0 < waiting c s.pc := Sts.count_pos.2 ⟨t, by simp [ht, Pc.waitsOn]⟩
  have hquiet : ∀ u, (s.pc u).signals c = false ∧ (s.pc u).announces c = false ∧
      (s.pc u).runs waiter = false := by
    intro u
    rcases hs.idle_or_blocked u with hu | ⟨id', k', c', hu⟩ <;>
      simp [hu, Pc.signals, Pc.announces, Pc.runs]
  have h₂ : signalling c s.pc = 0 := Sts.count_eq_zero.2 fun u => by simp [hquiet u]
  have h₃ : announcing c s.pc = 0 := Sts.count_eq_zero.2 fun u => by simp [hquiet u]
  have h₄ : running waiter s.pc = 0 := Sts.count_eq_zero.2 fun u => by simp [hquiet u]
  have hg : ¬ gone s.data := fun hg => by have := hB.told hg; omega
  have := hB.owed hg
  exact ⟨by omega, hg⟩

end Monitor
