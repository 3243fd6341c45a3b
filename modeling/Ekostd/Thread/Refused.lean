/-
  `OnceLock` — what a `set` that failed says.

  `set` fails on a byte that is not empty, and does not ask whether it says
  ready or busy.  The runs of the lock are watched here: what is seen of the
  calls is noted with the thread that sees it.

  * `Answered`: no `get` of a thread answers `None` after a `set` of it failed;
  * `Present`: a `get` that comes now answers `Some`, on every thread on which
    a `set` failed;
  * `refused_set_means_there`: both hold in the runs in which no `set` finds the
    byte busy, and the second all along in no others.
-/
import Ekostd.Thread.OnceLock

namespace Ekostd.Thread.OnceLock

variable {ι T F : Type*} [DecidableEq ι]

/-- The thread that acts. -/
def Act.thread : Act ι T → ι
  | .call t _ | .step t | .initReturn t _ | .unwind t => t

/-- The lock, and what was seen on which thread. -/
structure Watched (ι T F : Type*) where
  base : State ι T F
  log : List (ι × Event T)

/-- `system`, watched: what an action adds to the log is seen by the thread that acts. -/
def watched (ι : Type*) [DecidableEq ι] (T : Type*) {F : Type*} (f : F) :
    Sts (Watched ι T F) (Act ι T) where
  init := ⟨(system ι T f).init, []⟩
  step s a := ((system ι T f).step s.base a).map fun b =>
    ⟨b, s.log ++ (b.log.drop s.base.log.length).map (Prod.mk a.thread)⟩

/-- A `set` returned `Err`. -/
def Event.refused : Event T → Prop
  | .set _ (.error _) => True
  | _ => False

/-- After a `set` that failed on a thread, every `get` on it answers `Some`. -/
def Answered (log : List (ι × Event T)) : Prop :=
  log.Pairwise fun x y => x.1 = y.1 → x.2.refused → y.2 ≠ .got none

/-- A `set` has failed on `t`. -/
def Watched.Refused (s : Watched ι T F) (t : ι) : Prop := ∃ e, (t, e) ∈ s.log ∧ e.refused

/-- Where a `set` has failed and returned, a `get` that comes now answers `Some`. -/
def Present (f : F) (s : Watched ι T F) : Prop :=
  ∀ t, s.Refused t → s.base.pc t = .idle → ∃ s' v,
    (watched ι T f).runFrom s [.call t .get, .step t, .step t] = some s' ∧
    s'.log = s.log ++ [(t, .got (some v))]

/-- The `compare_exchange` of a `set` does not find the byte busy. -/
def SetsUnbusy (s : Watched ι T F) (a : Act ι T) : Prop :=
  ∀ t v, a = .step t → s.base.pc t = .cas (.set v) → s.base.lock.state ≠ .busy

/-! ## What a step adds -/

/-- The events `es` that a step from `s` to `s'` adds. -/
structure Adds (s s' : State ι T F) (a : Act ι T) (es : List (Event T)) : Prop where
  log : s'.log = s.log ++ es
  refused : ∀ e ∈ es, e.refused → (∃ t v, a = .step t ∧ s.pc t = .cas (.set v)) ∧
    s.lock.state ≠ .empty ∧ s'.lock = s.lock
  got : .got none ∈ es → s.lock.state ≠ .ready
  single : es.Pairwise fun e _ => ¬ e.refused

omit [DecidableEq ι] in
theorem Adds.nil {s s' : State ι T F} {a : Act ι T} (h : s'.log = s.log) : Adds s s' a [] :=
  ⟨by simpa using h, by simp, by simp, by simp⟩

omit [DecidableEq ι] in
theorem Adds.one {s s' : State ι T F} {a : Act ι T} {e : Event T} (h : s'.log = s.log ++ [e])
    (he : ¬ e.refused) (hg : e = .got none → s.lock.state ≠ .ready) : Adds s s' a [e] :=
  ⟨h, by simp [he], by simpa using fun h => hg h.symm, by simp⟩

theorem Step.adds {s s' : State ι T F} {a : Act ι T} (hI : Inv s) (hs : Step s s' a) :
    ∃ es, Adds s s' a es := by
  cases hs with
  | move t p a _ _ _ hs' | broke t k _ _ hs' | loadReady t k _ _ hs' | win t p _ _ _ hs'
  | take t f _ _ hs' | initReturn t k v _ hs' | write t k v _ hs' =>
    subst hs'
    exact ⟨[], .nil rfl⟩
  | loadNone t k _ hst hs' =>
    subst hs'
    refine ⟨_, .one rfl ?_ fun _ => hst⟩
    cases k <;> exact not_false
  | read t k hpc hs' =>
    subst hs'
    have hready : s.lock.state = .ready := by simpa [hpc, Good] using hI.good t
    obtain ⟨v, hv⟩ := hI.filled.value hready
    rw [hv]
    refine ⟨_, .one rfl ?_ fun he => ?_⟩
    · cases k <;> exact not_false
    · cases k <;> cases he
  | refused t v hpc hst hs' =>
    subst hs'
    exact ⟨_, rfl, fun _ _ _ => ⟨⟨t, v, rfl, hpc⟩, hst, rfl⟩, by simp, by simp⟩
  | takeNone t hpc hi =>
    have hgood := hI.good t
    simp [hpc, Good, hi] at hgood
  | unwind t k _ hs' =>
    subst hs'
    exact ⟨_, .one rfl not_false (by simp)⟩
  | storeSet t v w _ hs' =>
    subst hs'
    exact ⟨[.stored v, .set w (.ok ())], by simp [State.leave, State.goto, State.stored],
      by simp [Event.refused], by simp, by simp [Event.refused]⟩
  | store t k v _ hs' =>
    subst hs'
    exact ⟨_, .one rfl not_false (by simp)⟩

/-- **Ready stays ready.** -/
theorem Step.ready {s s' : State ι T F} {a : Act ι T} (hs : Step s s' a)
    (h : s.lock.state = .ready) : s'.lock.state = .ready := by
  cases hs with
  | win t p _ hst _ _ =>
    rw [h] at hst
    cases hst
  | storeSet _ _ _ _ hs' | store _ _ _ _ hs' =>
    subst hs'
    rfl
  | move _ _ _ _ _ _ hs' | broke _ _ _ _ hs' | loadNone _ _ _ _ hs' | loadReady _ _ _ _ hs'
  | read _ _ _ hs' | refused _ _ _ _ hs' | take _ _ _ _ hs' | takeNone _ _ _ hs'
  | initReturn _ _ _ _ hs' | unwind _ _ _ hs' | write _ _ _ _ hs' =>
    subst hs'
    exact h

theorem watched_step {f : F} {s s' : Watched ι T F} {a : Act ι T} (hI : Inv s.base)
    (h : (watched ι T f).step s a = some s') : Step s.base s'.base a ∧
      ∃ es, Adds s.base s'.base a es ∧ s'.log = s.log ++ es.map (Prod.mk a.thread) := by
  obtain ⟨b, hb, rfl⟩ := Option.map_eq_some_iff.1 h
  have hs : Step s.base b a := step_cases hb
  obtain ⟨es, hes⟩ := hs.adds hI
  refine ⟨hs, es, hes, ?_⟩
  rw [hes.log, List.drop_left]

/-- **What is watched is a run of the lock.** -/
theorem watched_inv (f : F) : (watched ι T f).Inductive fun s => Inv s.base where
  init := (Inv.inductive f).init
  step hI h := hI.step (watched_step hI h).1

/-! ## Runs in which no `set` finds the byte busy -/

/-- The byte says ready once a `set` has failed. -/
structure Settled (s : Watched ι T F) : Prop where
  inv : Inv s.base
  ready : ∀ t, s.Refused t → s.base.lock.state = .ready
  answered : Answered s.log

/-- **What a step preserves** that is no `set` on a busy byte. -/
theorem Settled.step {f : F} {s s' : Watched ι T F} {a : Act ι T} (h : Settled s)
    (hset : SetsUnbusy s a) (ha : (watched ι T f).step s a = some s') : Settled s' := by
  obtain ⟨hs, es, hes, hlog⟩ := watched_step h.inv ha
  refine ⟨h.inv.step hs, ?_, ?_⟩
  · rintro t ⟨e, he, href⟩
    rw [hlog, List.mem_append] at he
    rcases he with he | he
    · exact hs.ready (h.ready t ⟨e, he, href⟩)
    · obtain ⟨e', he', heq⟩ := List.mem_map.1 he
      cases heq
      obtain ⟨⟨u, v, hact, hpc⟩, hempty, hlock⟩ := hes.refused e he' href
      have hbusy := hset u v hact hpc
      rw [hlock]
      cases hstate : s.base.lock.state with
      | empty => exact absurd hstate hempty
      | busy => exact absurd hstate hbusy
      | ready => rfl
  · rw [Answered, hlog]
    refine List.pairwise_append.2 ⟨h.answered, ?_, ?_⟩
    · rw [List.pairwise_map]
      exact hes.single.imp fun hno _ href => absurd href hno
    · rintro ⟨t, e⟩ hx y hy hxy href hgot
      obtain ⟨e', he', rfl⟩ := List.mem_map.1 hy
      cases hgot
      exact hes.got he' (h.ready t ⟨e, hx, href⟩)

theorem settled_init (f : F) : Settled (watched ι T f).init where
  inv := (watched_inv f).init
  ready _ h := by
    obtain ⟨e, he, -⟩ := h
    cases he
  answered := List.Pairwise.nil

/-! ## A `get` that comes now -/

theorem step_watched (f : F) {s : Watched ι T F} {b : State ι T F} {a : Act ι T}
    {e : List (Event T)} (h : s.base.step a = some b) (hlog : b.log = s.base.log ++ e) :
    (watched ι T f).step s a = some ⟨b, s.log ++ e.map (Prod.mk a.thread)⟩ := by
  have hstep : (system ι T f).step s.base a = some b := h
  simp only [watched, hstep, hlog, List.drop_left, Option.map_some]

theorem step_call_get (f : F) {s : Watched ι T F} {t : ι} (ht : s.base.pc t = .idle) :
    (watched ι T f).step s (.call t .get) = some ⟨s.base.goto t (.load .get), s.log⟩ := by
  have hcall : s.base.step (.call t .get) = some (s.base.goto t (.load .get)) := by
    simp only [State.step, ht]
  simpa using step_watched f (e := []) hcall (by simp [State.goto])

theorem get_ready (f : F) {s : Watched ι T F} (hI : Inv s.base) (h : s.base.lock.state = .ready)
    {t : ι} (ht : s.base.pc t = .idle) : ∃ s' v,
      (watched ι T f).runFrom s [.call t .get, .step t, .step t] = some s' ∧
      s'.log = s.log ++ [(t, .got (some v))] := by
  obtain ⟨v, hv⟩ := hI.filled.value h
  let s₁ : Watched ι T F := ⟨s.base.goto t (.load .get), s.log⟩
  let s₂ : Watched ι T F := ⟨s₁.base.goto t (.read .get), s.log⟩
  have hload : s₁.base.step (.step t) = some s₂.base := by
    simp [s₁, s₂, State.step, State.access, State.goto, h]
  have hread : s₂.base.step (.step t) = some (s₂.base.leave t (.got (some v))) := by
    simp [s₁, s₂, State.step, State.access, State.goto, hv, State.answer]
  have h₂ : (watched ι T f).step s₁ (.step t) = some s₂ := by
    simpa [s₁, s₂] using step_watched f (e := []) hload (by simp [s₁, s₂, State.goto])
  refine ⟨⟨s₂.base.leave t (.got (some v)), s.log ++ [(t, .got (some v))]⟩, v, ?_, rfl⟩
  rw [Sts.runFrom_cons, step_call_get f ht, Option.bind_some, Sts.runFrom_cons, h₂,
    Option.bind_some, Sts.runFrom_cons, step_watched f hread rfl]
  rfl

/-- On a lock that is not ready a `get` has answered `None` before it could read a value. -/
theorem get_not_ready (f : F) {s : Watched ι T F} (h : s.base.lock.state ≠ .ready) {t : ι}
    (ht : s.base.pc t = .idle) :
    (watched ι T f).runFrom s [.call t .get, .step t, .step t] = none := by
  let s₁ : Watched ι T F := ⟨s.base.goto t (.load .get), s.log⟩
  have hload : s₁.base.step (.step t) = some (s₁.base.leave t (.got none)) := by
    simp [s₁, State.step, State.access, State.goto, h, State.answer]
  rw [Sts.runFrom_cons, step_call_get f ht, Option.bind_some, Sts.runFrom_cons,
    step_watched f hload rfl, Option.bind_some, Sts.runFrom_cons]
  -- it has returned, and takes no step more
  simp [watched, system, State.step, State.access, State.leave, State.goto]

/-- A `set` on a busy byte fails and returns, and a `get` that comes then answers `None`. -/
theorem set_busy (f : F) {s : Watched ι T F} {t : ι} {v : T} (hpc : s.base.pc t = .cas (.set v))
    (hbusy : s.base.lock.state = .busy) :
    ∃ s', (watched ι T f).step s (.step t) = some s' ∧ ¬ Present f s' := by
  have hset : s.base.step (.step t) = some (s.base.leave t (.set v (.error v))) := by
    simp only [State.step, State.access, hpc, hbusy]
  let s₁ : Watched ι T F :=
    ⟨s.base.leave t (.set v (.error v)), s.log ++ [(t, .set v (.error v))]⟩
  refine ⟨s₁, step_watched f hset rfl, fun hpresent => ?_⟩
  have hidle : s₁.base.pc t = .idle := Function.update_self t _ _
  have href : (t, Event.set v (.error v)) ∈ s₁.log := List.mem_append_right _ List.mem_cons_self
  obtain ⟨s', w, hrun, -⟩ := hpresent t ⟨_, href, trivial⟩ hidle
  have hne : s₁.base.lock.state ≠ .ready := by
    intro h
    cases hbusy.symm.trans h
  cases (get_not_ready f hne hidle).symm.trans hrun

/-- **What a `set` that failed says**: that the value is there, in the runs in which no `set` finds
    the byte busy, and all along in no others. -/
theorem refused_set_means_there (f : F) {as : List (Act ι T)} {s : Watched ι T F}
    (hr : (watched ι T f).run as = some s) :
    ((watched ι T f).Meets SetsUnbusy as → Answered s.log) ∧
    ((∀ pre s', pre <+: as → (watched ι T f).run pre = some s' → Present f s') ↔
      (watched ι T f).Meets SetsUnbusy as) := by
  have hsettled : ∀ {bs s'}, (watched ι T f).Meets SetsUnbusy bs →
      (watched ι T f).run bs = some s' → Settled s' := fun hmeets hr =>
    Sts.run_of_meets (settled_init f) (fun h hC ha => h.step hC ha) hmeets hr
  refine ⟨fun hmeets => (hsettled hmeets hr).answered, ?_, ?_⟩
  · rintro hpresent pre a post rfl s₁ h₁ t v rfl hpc hbusy
    obtain ⟨s₂, h₂, hno⟩ := set_busy f hpc hbusy
    exact hno (hpresent (pre ++ [.step t]) s₂ ⟨post, by simp⟩
      (Sts.run_snoc_eq_some.2 ⟨s₁, h₁, h₂⟩))
  · rintro hmeets pre s' ⟨post, rfl⟩ hr' t href ht
    have hpre : (watched ι T f).Meets SetsUnbusy pre := fun as a bs he =>
      hmeets as a (bs ++ post) (by simp [he])
    have hS := hsettled hpre hr'
    exact get_ready f hS.inv (hS.ready t href) ht

/-- A `set` that comes after a `get_or_init` has stored its value. -/
theorem refused_set_means_there_late : ∃ s : Watched (Fin 2) ℕ Unit,
    let as : List (Act (Fin 2) ℕ) := [.call 0 .getOrInit, .step 0, .initReturn 0 7, .step 0,
      .step 0, .call 1 (.set 8), .step 1, .call 1 .get, .step 1, .step 1]
    s.log = [(0, .stored 7), (1, .set 8 (.error 8)), (1, .got (some 7))] ∧
    (((watched (Fin 2) ℕ ()).Meets SetsUnbusy as → Answered s.log) ∧
      ((∀ pre s', pre <+: as → (watched (Fin 2) ℕ ()).run pre = some s' → Present () s') ↔
        (watched (Fin 2) ℕ ()).Meets SetsUnbusy as)) :=
  ⟨_, rfl, refused_set_means_there () rfl⟩

/-- Thread `0` is inside the initialiser of its `get_or_init` when thread `1` calls `set`: the `set`
    fails, and the `get` that follows it answers `None`. -/
theorem refused_set_absent : ¬ ∀ as (s : Watched (Fin 2) ℕ Unit),
    (watched (Fin 2) ℕ ()).run as = some s → Answered s.log := by
  intro h
  have hlog : Answered [((1 : Fin 2), Event.set 8 (.error 8)), (1, .got none)] :=
    h [.call 0 .getOrInit, .step 0, .call 1 (.set 8), .step 1, .call 1 .get, .step 1] _ rfl
  exact (List.pairwise_cons.1 hlog).1 (1, .got none) (by simp) rfl trivial rfl

end Ekostd.Thread.OnceLock
