/-
  Monitors, access by access — a section under a mutex is one step.

  In `Monitor` a pass through a locked section is a single step.  Here it is
  what the code does: a thread takes the mutex, makes its accesses to the data
  one at a time, each of which may depend on what it finds, and then drops the
  guard, or waits on a condition variable, which gives the mutex back.  Other
  threads may move between any two of these.

  * `Body`, `Body.pass`: a section, and what it comes to when it runs alone;
  * `Code`: the section of every call; `Code.system`: its transition system;
  * `Spec.Hidden`, `Implements`: the sections come to the passes of a monitor,
    and show no call more than it would be shown before or after them;
  * `Implements.simulates`: the steps of the code are those of the monitor, the
    accesses being none; `Follows.one_inside`, `Follows.stuck`.
-/
import Ekostd.Lib.Monitor

namespace Monitor

/-- What a thread does with the mutex held: accesses to the data, with what comes after what each
    has found; then it returns, with what it makes known, or waits. -/
inductive Body (σ ρ γ : Type*) where
  | access (f : σ → σ) (next : σ → Body σ ρ γ)
  | done (close : σ → σ × ρ) (n : Option (Notify γ))
  | wait (c : γ)

namespace Body

variable {σ ρ γ : Type*}

/-- What a section comes to that nothing interrupts. -/
def pass : Body σ ρ γ → σ → Pass σ ρ γ
  | access f next, d => (next d).pass (f d)
  | done close n, d => .done (close d).1 (close d).2 n
  | wait c, _ => .wait c

/-- A section that only reads, up to its end. -/
def read (next : σ → Body σ ρ γ) : Body σ ρ γ := access id next

/-- A section that writes, whatever it finds. -/
def write (f : σ → σ) (next : Body σ ρ γ) : Body σ ρ γ := access f fun _ => next

end Body

/-- The sections of a monitor's calls. -/
abbrev Code (σ κ ρ γ : Type*) := κ → Body σ ρ γ

variable {σ κ ρ γ : Type*}

/-- What is left of a section that found `d₀` can be seen of no call before it is over: a call it
    allows on the way was allowed before, and it waits only having changed nothing. -/
def Spec.Hidden (S : Spec σ κ ρ γ) (d₀ : σ) : Body σ ρ γ → σ → Prop
  | .access f next, d => (∀ k, S.allowed d k → S.allowed d₀ k) ∧ S.Hidden d₀ (next d) (f d)
  | .done _ _, d => ∀ k, S.allowed d k → S.allowed d₀ k
  | .wait _, d => d = d₀

/-- **The code implements the monitor.** -/
structure Implements (C : Code σ κ ρ γ) (S : Spec σ κ ρ γ) : Prop where
  pass : ∀ d k, (C k).pass d = S.pass d k
  hidden : ∀ d k, S.Hidden d (C k) d

theorem Spec.Hidden.allowed {S : Spec σ κ ρ γ} {d₀ d : σ} {p : Body σ ρ γ} (h : S.Hidden d₀ p d)
    {k : κ} (hk : S.allowed d k) : S.allowed d₀ k := by
  cases p with
  | access f next => exact h.1 k hk
  | done close n => exact h k hk
  | wait c =>
    obtain rfl := h
    exact hk

namespace Guarded

/-- Where a thread is: outside, about to take the mutex, holding it with `p` to do, waiting, or
    about to issue a notification and return. -/
inductive Place (σ κ ρ γ : Type*) where
  | outside
  | locking (id : ℕ) (k : κ)
  | inside (id : ℕ) (k : κ) (p : Body σ ρ γ)
  | blocked (id : ℕ) (k : κ) (c : γ)
  | notify (id : ℕ) (k : κ) (r : ρ) (n : Notify γ)

/-- The data, who holds the mutex, the threads, the next call number, and the histories. -/
structure State (ι σ κ ρ γ : Type*) where
  data : σ
  owner : Option ι
  place : ι → Place σ κ ρ γ
  next : ℕ
  passes : List (Entry κ ρ)
  returned : List (Entry κ ρ)

/-- A thread makes a call, takes the mutex, makes an access or leaves its section, issues its
    notification, or wakes spuriously. -/
inductive Act (ι κ : Type*) where
  | call (t : ι) (k : κ)
  | lock (t : ι)
  | run (t : ι)
  | signal (t u : ι)
  | signalNone (t : ι)
  | broadcast (t : ι)
  | spurious (u : ι)

variable {ι : Type*}

/-- The actions of a thread inside a call, spurious wakes apart. -/
def Act.progress : Act ι κ → Bool
  | lock _ | run _ | signal _ _ | signalNone _ | broadcast _ => true
  | call _ _ | spurious _ => false

/-- Where the thread is for a monitor: about to make its pass until that is over. -/
def Place.pc : Place σ κ ρ γ → Pc κ ρ γ
  | outside => .idle
  | locking id k | inside id k _ => .ready id k
  | blocked id k c => .blocked id k c
  | notify id k r n => .notify id k r n

/-- The thread holds the mutex. -/
def Place.isInside : Place σ κ ρ γ → Bool
  | inside .. => true
  | _ => false

@[simp] theorem Place.pc_outside : (outside : Place σ κ ρ γ).pc = .idle := rfl

@[simp] theorem Place.pc_locking (id : ℕ) (k : κ) :
    (locking id k : Place σ κ ρ γ).pc = .ready id k := rfl

@[simp] theorem Place.pc_inside (id : ℕ) (k : κ) (p : Body σ ρ γ) :
    (inside id k p).pc = .ready id k := rfl

@[simp] theorem Place.pc_blocked (id : ℕ) (k : κ) (c : γ) :
    (blocked id k c : Place σ κ ρ γ).pc = .blocked id k c := rfl

@[simp] theorem Place.pc_notify (id : ℕ) (k : κ) (r : ρ) (n : Notify γ) :
    (notify id k r n : Place σ κ ρ γ).pc = .notify id k r n := rfl

/-- The effect of a broadcast on `c`: the woken thread has to take the mutex. -/
def Place.wake [DecidableEq γ] (c : γ) : Place σ κ ρ γ → Place σ κ ρ γ
  | blocked id k c' => if c' = c then locking id k else blocked id k c'
  | p => p

/-- The end of a section: the mutex is free again. -/
def leave [DecidableEq ι] (s : State ι σ κ ρ γ) (t : ι) (id : ℕ)
    (k : κ) (d : σ) (r : ρ) : Option (Notify γ) → State ι σ κ ρ γ
  | none =>
    { s with
      data := d
      owner := none
      place := Function.update s.place t .outside
      passes := s.passes ++ [⟨id, k, r⟩]
      returned := s.returned ++ [⟨id, k, r⟩] }
  | some n =>
    { s with
      data := d
      owner := none
      place := Function.update s.place t (.notify id k r n)
      passes := s.passes ++ [⟨id, k, r⟩] }

/-- One action of one thread. -/
def step [Fintype ι] [DecidableEq ι] [DecidableEq γ] (S : Spec σ κ ρ γ)
    (C : Code σ κ ρ γ) (s : State ι σ κ ρ γ) :
    Act ι κ → Option (State ι σ κ ρ γ)
  | .call t k =>
    match s.place t with
    | .outside =>
      if S.allowed s.data k ∧ ∀ u, (s.place u).pc.call?.all fun k' => S.compat k' k then
        some { s with place := Function.update s.place t (.locking s.next k), next := s.next + 1 }
      else none
    | _ => none
  | .lock t =>
    match s.place t, s.owner with
    | .locking id k, none =>
      some { s with owner := some t, place := Function.update s.place t (.inside id k (C k)) }
    | _, _ => none
  | .run t =>
    match s.place t with
    | .inside id k (.access f next) =>
      some { s with
        data := f s.data
        place := Function.update s.place t (.inside id k (next s.data)) }
    | .inside id k (.done close n) => some (leave s t id k (close s.data).1 (close s.data).2 n)
    | .inside id k (.wait c) =>
      some { s with owner := none, place := Function.update s.place t (.blocked id k c) }
    | _ => none
  | .signal t u =>
    match s.place t, s.place u with
    | .notify id k r (.one c), .blocked id' k' c' =>
      if c' = c then
        some { s with
          place := Function.update (Function.update s.place u (.locking id' k')) t .outside
          returned := s.returned ++ [⟨id, k, r⟩] }
      else none
    | _, _ => none
  | .signalNone t =>
    match s.place t with
    | .notify id k r (.one c) =>
      if ∀ u, ¬ (s.place u).pc.waitsOn c then
        some { s with
          place := Function.update s.place t .outside
          returned := s.returned ++ [⟨id, k, r⟩] }
      else none
    | _ => none
  | .broadcast t =>
    match s.place t with
    | .notify id k r (.all c) =>
      some { s with
        place := Function.update (fun u => (s.place u).wake c) t .outside
        returned := s.returned ++ [⟨id, k, r⟩] }
    | _ => none
  | .spurious u =>
    match s.place u with
    | .blocked id k _ => some { s with place := Function.update s.place u (.locking id k) }
    | _ => none

/-- The transition system of the code, every thread being outside at first. -/
def system [DecidableEq γ] (S : Spec σ κ ρ γ) (C : Code σ κ ρ γ) (ι : Type*)
    [Fintype ι] [DecidableEq ι] : Sts (State ι σ κ ρ γ) (Act ι κ) where
  init := ⟨S.init, none, fun _ => .outside, 0, [], []⟩
  step := step S C

/-- No thread that is inside a call can move. -/
def Stuck [Fintype ι] [DecidableEq ι] [DecidableEq γ] (S : Spec σ κ ρ γ)
    (C : Code σ κ ρ γ) (s : State ι σ κ ρ γ) : Prop :=
  ∀ a : Act ι κ, a.progress → step S C s a = none

/-! ## The threads that move -/

section
variable [DecidableEq ι]

theorem pc_update (place : ι → Place σ κ ρ γ) (t : ι) (p : Place σ κ ρ γ) :
    (fun u => (Function.update place t p u).pc) =
      Function.update (fun u => (place u).pc) t p.pc := by
  funext u
  by_cases hu : u = t
  · subst hu
    simp
  · simp [hu]

theorem Place.pc_wake [DecidableEq γ] (c : γ) (p : Place σ κ ρ γ) :
    (p.wake c).pc = p.pc.wake c := by
  cases p with
  | blocked id k c' =>
    by_cases hc : c' = c <;> simp [Place.wake, Place.pc, Pc.wake, hc]
  | _ => rfl

theorem Place.isInside_wake [DecidableEq γ] (c : γ) (p : Place σ κ ρ γ) :
    (p.wake c).isInside = p.isInside := by
  cases p with
  | blocked id k c' =>
    by_cases hc : c' = c <;> simp [Place.wake, Place.isInside, hc]
  | _ => rfl

theorem inside_update {place : ι → Place σ κ ρ γ} {owner : Option ι}
    (h : ∀ u, (place u).isInside → owner = some u) {t : ι} {p : Place σ κ ρ γ}
    (hp : p.isInside = false) (u : ι) (hu : (Function.update place t p u).isInside) :
    owner = some u := by
  by_cases hut : u = t
  · subst hut
    simp [hp] at hu
  · exact h u (by simpa [hut] using hu)

end

/-! ## The simulation -/

/-- What the holder of the mutex has still to do comes to its pass on what it found. -/
def Holds (S : Spec σ κ ρ γ) (d₀ d : σ) : Place σ κ ρ γ → Prop
  | .inside _ k p => p.pass d = S.pass d₀ k ∧ S.Hidden d₀ p d
  | _ => False

/-- The state `c` of the monitor is that of the code with the section that is being run, if one is,
    still to come. -/
structure Follows (S : Spec σ κ ρ γ) (s : State ι σ κ ρ γ) (c : Monitor.State ι σ κ ρ γ) :
    Prop where
  pc : c.pc = fun u => (s.place u).pc
  next : c.next = s.next
  passes : c.passes = s.passes
  returned : c.returned = s.returned
  inside : ∀ u, (s.place u).isInside → s.owner = some u
  free : s.owner = none → c.data = s.data
  held : ∀ t, s.owner = some t → Holds S c.data s.data (s.place t)

section
variable [Fintype ι] [DecidableEq ι] [DecidableEq γ] {S : Spec σ κ ρ γ} {C : Code σ κ ρ γ}
  {s : State ι σ κ ρ γ} {c : Monitor.State ι σ κ ρ γ}

omit [Fintype ι] [DecidableEq ι] [DecidableEq γ] in
/-- **Mutual exclusion.** -/
theorem Follows.one_inside (h : Follows S s c) {t u : ι} (ht : (s.place t).isInside)
    (hu : (s.place u).isInside) : t = u :=
  Option.some.inj ((h.inside t ht).symm.trans (h.inside u hu))

omit [Fintype ι] [DecidableEq ι] [DecidableEq γ] in
/-- A call that the code allows is allowed before the section that is being run, too. -/
theorem Follows.allowed (h : Follows S s c) {k : κ} (hk : S.allowed s.data k) :
    S.allowed c.data k := by
  cases ho : s.owner with
  | none => rwa [h.free ho]
  | some t =>
    have hheld := h.held t ho
    cases hp : s.place t with
    | inside id k' p =>
      rw [hp] at hheld
      exact hheld.2.allowed hk
    | _ => simp [hp, Holds] at hheld

omit [Fintype ι] [DecidableEq γ] in
theorem Follows.other (h : Follows S s c) {t : ι} {p : Place σ κ ρ γ}
    (ht : (s.place t).isInside = false) (hp : p.isInside = false) (next : ℕ)
    (returned : List (Entry κ ρ)) :
    Follows S { s with place := Function.update s.place t p, next := next, returned := returned }
      { c with pc := Function.update c.pc t p.pc, next := next, returned := returned } := by
  refine ⟨?_, rfl, h.passes, rfl, inside_update h.inside hp, h.free, fun u hu => ?_⟩
  · rw [h.pc]
    exact (pc_update s.place t p).symm
  · have hut : u ≠ t := by
      rintro rfl
      have hheld := h.held u hu
      cases hpl : s.place u with
      | inside id k p' => simp [hpl, Place.isInside] at ht
      | _ => simp [hpl, Holds] at hheld
    simpa [hut] using h.held u hu

omit [Fintype ι] [DecidableEq γ] in
/-- A thread holds the mutex from here on, or still, with the pass it found to make. -/
theorem Follows.hold (h : Follows S s c) {t : ι} {p : Place σ κ ρ γ} {owner : Option ι} {d : σ}
    (hothers : ∀ u, (s.place u).isInside → u = t) (hpc : p.pc = (s.place t).pc)
    (howner : owner = some t) (hheld : Holds S c.data d p) :
    Follows S { s with data := d, owner := owner, place := Function.update s.place t p } c := by
  subst howner
  refine ⟨?_, h.next, h.passes, h.returned, fun u hu => ?_, nofun, fun u hu => ?_⟩
  · rw [h.pc, pc_update, hpc]
    exact (Function.update_eq_self t fun u => (s.place u).pc).symm
  · by_cases hut : u = t
    · rw [hut]
    · exact absurd (hothers u (by simpa [hut] using hu)) hut
  · cases hu
    simpa using hheld

omit [Fintype ι] [DecidableEq γ] in
theorem Follows.release (h : Follows S s c) {t : ι} {p : Place σ κ ρ γ}
    (ht : (s.place t).isInside) (hp : p.isInside = false) (d : σ)
    (passes returned : List (Entry κ ρ)) :
    Follows S
      { s with
        data := d, owner := none, place := Function.update s.place t p
        passes := passes, returned := returned }
      { c with
        data := d, pc := Function.update c.pc t p.pc, passes := passes, returned := returned } := by
  refine ⟨?_, h.next, rfl, rfl, fun u hu => ?_, fun _ => rfl, nofun⟩
  · rw [h.pc]
    exact (pc_update s.place t p).symm
  · by_cases hut : u = t
    · subst hut
      simp [hp] at hu
    · exact absurd (h.one_inside (by simpa [hut] using hu) ht) hut

omit [Fintype ι] [DecidableEq ι] in
theorem Follows.wake (h : Follows S s c) (cv : γ) :
    Follows S { s with place := fun u => (s.place u).wake cv }
      { c with pc := fun u => (c.pc u).wake cv } := by
  refine ⟨?_, h.next, h.passes, h.returned, fun u hu => ?_, h.free, fun t ht => ?_⟩
  · funext u
    dsimp only
    rw [h.pc, Place.pc_wake]
  · rw [Place.isInside_wake] at hu
    exact h.inside u hu
  · have hheld := h.held t ht
    cases hp : s.place t with
    | inside id k p => simpa [hp, Place.wake] using hheld
    | _ => simp [hp, Holds] at hheld

/-! ## What a step can do -/

/-- The steps, one constructor for each way a thread can move. -/
inductive Step (S : Spec σ κ ρ γ) (C : Code σ κ ρ γ) (s : State ι σ κ ρ γ) : State ι σ κ ρ γ → Prop
  | call (t : ι) (k : κ) : s.place t = .outside → S.allowed s.data k →
      (∀ u, (s.place u).pc.call?.all fun k' => S.compat k' k) →
      Step S C s
        { s with place := Function.update s.place t (.locking s.next k), next := s.next + 1 }
  | lock (t : ι) (id : ℕ) (k : κ) : s.place t = .locking id k → s.owner = none →
      Step S C s
        { s with owner := some t, place := Function.update s.place t (.inside id k (C k)) }
  | access (t : ι) (id : ℕ) (k : κ) (f : σ → σ) (next : σ → Body σ ρ γ) :
      s.place t = .inside id k (.access f next) →
      Step S C s { s with
        data := f s.data
        place := Function.update s.place t (.inside id k (next s.data)) }
  | leave (t : ι) (id : ℕ) (k : κ) (close : σ → σ × ρ) (n : Option (Notify γ)) :
      s.place t = .inside id k (.done close n) →
      Step S C s (leave s t id k (close s.data).1 (close s.data).2 n)
  | wait (t : ι) (id : ℕ) (k : κ) (c : γ) : s.place t = .inside id k (.wait c) →
      Step S C s
        { s with owner := none, place := Function.update s.place t (.blocked id k c) }
  | signal (t u : ι) (id : ℕ) (k : κ) (r : ρ) (c : γ) (id' : ℕ) (k' : κ) :
      s.place t = .notify id k r (.one c) → s.place u = .blocked id' k' c →
      Step S C s { s with
        place := Function.update (Function.update s.place u (.locking id' k')) t .outside
        returned := s.returned ++ [⟨id, k, r⟩] }
  | signalNone (t : ι) (id : ℕ) (k : κ) (r : ρ) (c : γ) : s.place t = .notify id k r (.one c) →
      (∀ u, ¬ (s.place u).pc.waitsOn c) →
      Step S C s { s with
        place := Function.update s.place t .outside
        returned := s.returned ++ [⟨id, k, r⟩] }
  | broadcast (t : ι) (id : ℕ) (k : κ) (r : ρ) (c : γ) : s.place t = .notify id k r (.all c) →
      Step S C s { s with
        place := Function.update (fun u => (s.place u).wake c) t .outside
        returned := s.returned ++ [⟨id, k, r⟩] }
  | spurious (u : ι) (id : ℕ) (k : κ) (c : γ) : s.place u = .blocked id k c →
      Step S C s { s with place := Function.update s.place u (.locking id k) }

/-- **Every step is one of these.** -/
theorem step_cases {s' : State ι σ κ ρ γ} {a : Act ι κ} (h : step S C s a = some s') :
    Step S C s s' := by
  cases a with
  | call t k =>
    simp only [step] at h
    split at h
    · next ht =>
      split_ifs at h with hc
      cases h
      exact .call t k ht hc.1 hc.2
    · cases h
  | lock t =>
    simp only [step] at h
    split at h
    · next id k ht ho =>
      cases h
      exact .lock t id k ht ho
    · cases h
  | run t =>
    simp only [step] at h
    split at h
    · next id k f next ht =>
      cases h
      exact .access t id k f next ht
    · next id k close n ht =>
      cases h
      exact .leave t id k close n ht
    · next id k c ht =>
      cases h
      exact .wait t id k c ht
    · cases h
  | signal t u =>
    simp only [step] at h
    split at h
    · next id k r c id' k' c' ht hu =>
      split_ifs at h with hc
      cases h
      exact .signal t u id k r c id' k' ht (hc ▸ hu)
    · cases h
  | signalNone t =>
    simp only [step] at h
    split at h
    · next id k r c ht =>
      split_ifs at h with hc
      cases h
      exact .signalNone t id k r c ht hc
    · cases h
  | broadcast t =>
    simp only [step] at h
    split at h
    · next id k r c ht =>
      cases h
      exact .broadcast t id k r c ht
    · cases h
  | spurious u =>
    simp only [step] at h
    split at h
    · next id k c hu =>
      cases h
      exact .spurious u id k c hu
    · cases h

/-- **A step of the code** is one of the monitor's, or none. -/
theorem Follows.step (hC : Implements C S) (h : Follows S s c) {s' : State ι σ κ ρ γ}
    (hs : Step S C s s') :
    ∃ bs c', (S.system ι).runFrom c bs = some c' ∧ Follows S s' c' := by
  have hpc : ∀ t, c.pc t = (s.place t).pc := fun t => congrFun h.pc t
  cases hs with
  | call t k ht ha hc =>
    refine ⟨[.call t k], _, ?_, h.other (by simp [ht, Place.isInside]) rfl (s.next + 1) s.returned⟩
    have hcompat : ∀ u, (c.pc u).call?.all fun k' => S.compat k' k := by
      intro u
      rw [hpc]
      exact hc u
    simp [Spec.system, Spec.step, hpc t, ht, h.allowed ha, hcompat, h.next, h.returned]
  | lock t id k ht ho =>
    refine ⟨[], c, rfl, h.hold (fun u hu => ?_) (by simp [ht]) rfl ?_⟩
    · cases ho.symm.trans (h.inside u hu)
    · rw [← h.free ho]
      exact ⟨hC.pass _ k, hC.hidden _ k⟩
  | access t id k f next ht =>
    have htin : (s.place t).isInside := by simp [ht, Place.isInside]
    have hheld := h.held t (h.inside t htin)
    rw [ht] at hheld
    exact ⟨[], c, rfl, h.hold (fun u hu => h.one_inside hu htin) (by simp [ht]) (h.inside t htin)
      ⟨hheld.1, hheld.2.2⟩⟩
  | leave t id k close n ht =>
    have htin : (s.place t).isInside := by simp [ht, Place.isInside]
    have hheld := h.held t (h.inside t htin)
    rw [ht] at hheld
    have hpass : S.pass c.data k = .done (close s.data).1 (close s.data).2 n := hheld.1.symm
    refine ⟨[.enter t], S.enter c t id k, by simp [Spec.system, Spec.step, hpc t, ht], ?_⟩
    rw [Spec.enter, hpass]
    cases n with
    | none =>
      dsimp only
      rw [h.passes, h.returned]
      exact h.release htin rfl _ _ _
    | some n =>
      dsimp only
      rw [h.passes, h.returned]
      exact h.release htin rfl _ _ _
  | wait t id k cv ht =>
    have htin : (s.place t).isInside := by simp [ht, Place.isInside]
    have hheld := h.held t (h.inside t htin)
    rw [ht] at hheld
    have hpass : S.pass c.data k = .wait cv := hheld.1.symm
    have hdata : s.data = c.data := hheld.2
    refine ⟨[.enter t], S.enter c t id k, by simp [Spec.system, Spec.step, hpc t, ht], ?_⟩
    rw [Spec.enter, hpass]
    dsimp only
    rw [h.passes, h.returned, ← hdata]
    exact h.release htin rfl s.data s.passes s.returned
  | signal t u id k r cv id' k' ht hu =>
    have htu : t ≠ u := by
      rintro rfl
      cases ht.symm.trans hu
    have hwoken := h.other (t := u) (by simp [hu, Place.isInside]) (p := .locking id' k') rfl
      s.next s.returned
    refine ⟨[.signal t u], _, ?_, hwoken.other (t := t) (by simp [htu, ht, Place.isInside])
      (p := .outside) rfl s.next (s.returned ++ [⟨id, k, r⟩])⟩
    simp [Spec.system, Spec.step, hpc, ht, hu, h.next, h.returned]
  | signalNone t id k r cv ht hnone =>
    refine ⟨[.signalNone t], _, ?_, h.other (t := t) (by simp [ht, Place.isInside])
      (p := .outside) rfl s.next (s.returned ++ [⟨id, k, r⟩])⟩
    have hnobody : ∀ u, (c.pc u).waitsOn cv = false := by
      intro u
      rw [hpc]
      simpa using hnone u
    simp [Spec.system, Spec.step, hpc t, ht, hnobody, h.next, h.returned]
  | broadcast t id k r cv ht =>
    refine ⟨[.broadcast t], _, ?_, (h.wake cv).other (t := t)
      (by simp [ht, Place.wake, Place.isInside]) (p := .outside) rfl s.next
      (s.returned ++ [⟨id, k, r⟩])⟩
    simp [Spec.system, Spec.step, hpc t, ht, h.next, h.returned]
  | spurious u id k cv hu =>
    refine ⟨[.spurious u], _, ?_, h.other (t := u) (by simp [hu, Place.isInside])
      (p := .locking id k) rfl s.next s.returned⟩
    simp [Spec.system, Spec.step, hpc u, hu, h.next, h.returned]

/-- **The steps of the code are those of the monitor.** -/
theorem simulates (hC : Implements C S) : (system S C ι).Simulates (S.system ι) (Follows S) where
  init := ⟨rfl, rfl, rfl, rfl, fun _ hu => by simp [system, Place.isInside] at hu, fun _ => rfl,
    nofun⟩
  step h ha := h.step hC (step_cases ha)

/-- When the code is stuck the mutex is free: a section goes on to its end. -/
theorem Follows.free_of_stuck (h : Follows S s c) (hs : Stuck S C s) : s.owner = none := by
  cases ho : s.owner with
  | none => rfl
  | some u =>
    have hheld := h.held u ho
    cases hu : s.place u with
    | inside id k p =>
      have hrun := hs (.run u) rfl
      cases p <;> simp [Guarded.step, hu] at hrun
    | _ => simp [hu, Holds] at hheld

/-- **When the code is stuck** the monitor is. -/
theorem Follows.stuck (h : Follows S s c) (hs : Stuck S C s) : S.Stuck c := by
  refine Spec.Stuck.of_idle_or_blocked fun t => ?_
  rw [h.pc]
  dsimp only
  cases hp : s.place t with
  | outside => exact .inl rfl
  | blocked id k cv => exact .inr ⟨id, k, cv, rfl⟩
  | locking id k =>
    have hlock := hs (.lock t) rfl
    simp [Guarded.step, hp, h.free_of_stuck hs] at hlock
  | inside id k p =>
    have hrun := hs (.run t) rfl
    cases p <;> simp [Guarded.step, hp] at hrun
  | notify id k r n =>
    exfalso
    cases n with
    | all cv =>
      have hall := hs (.broadcast t) rfl
      simp [Guarded.step, hp] at hall
    | one cv =>
      by_cases hw : ∃ u, (s.place u).pc.waitsOn cv
      · obtain ⟨u, hu⟩ := hw
        cases hpu : s.place u with
        | blocked id' k' c' =>
          have hsignal := hs (.signal t u) rfl
          have hc : c' = cv := by simpa [hpu, Pc.waitsOn] using hu
          simp [Guarded.step, hp, hpu, hc] at hsignal
        | _ => simp [hpu, Pc.waitsOn] at hu
      · have hnone := hs (.signalNone t) rfl
        simp only [not_exists] at hw
        simp [Guarded.step, hp, hw] at hnone

end

end Guarded

end Monitor
