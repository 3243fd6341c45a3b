/-
  `thread.rs` — `OnceLock` and `LazyLock`.

  A lock is a state byte, a value cell and, for a `LazyLock`, the cell of its
  closure.  Every access to one of them is a step, and so are the call of an
  initialiser and its end; an initialiser may take as long as it likes, return
  any value, or unwind, which leaves the function it was called from without
  another access.

  * `simulates`: the value, once the byte says it is ready, is a write-once
    cell (`WriteOnce`), which every completed store puts and every answer reads;
  * `once_lock_agrees`: what the calls of any run answer;
  * `never_wedges_iff`: the byte says busy only while somebody is inside, exactly
    in the runs in which no initialiser unwinds.
-/
import Ekostd.Lib.WriteOnce

namespace Ekostd.Thread.OnceLock

/-- The state byte: `ONCE_EMPTY`, `ONCE_BUSY` and `ONCE_READY`. -/
inductive Flag where
  | empty
  | busy
  | ready
  deriving DecidableEq

/-- The calls: `get`, `set`, `get_or_init` and `LazyLock::force`. -/
inductive Call (T : Type*) where
  | get
  | set (v : T)
  | getOrInit
  | force

/-- The next access of a thread, for the call it is in. -/
inductive Pc (T : Type*) where
  | idle
  /-- `get` loads the state -/
  | load (k : Call T)
  /-- `get` reads the value -/
  | read (k : Call T)
  /-- `compare_exchange` of the state -/
  | cas (k : Call T)
  | yield (k : Call T)
  /-- `force` takes the closure -/
  | take
  /-- inside the initialiser -/
  | init (k : Call T)
  | write (k : Call T) (v : T)
  /-- store of `ONCE_READY` -/
  | store (k : Call T) (v : T)

/-- What can be seen of the calls: a store completed, `get` answered, `get_or_init` or `force`
    returned a reference to a value, `set` returned, an `expect` fired, an initialiser
    unwound. -/
inductive Event (T : Type*) where
  | stored (v : T)
  | got (r : Option T)
  | returned (v : T)
  | set (v : T) (r : Except T Unit)
  | panicked (message : String)
  | unwound

/-- The cells: the state byte, the value and the closure of a `LazyLock`. -/
structure Lock (T F : Type*) where
  state : Flag
  value : Option T
  init : Option F

/-- The lock, the threads and what was seen. -/
structure State (ι T F : Type*) where
  lock : Lock T F
  pc : ι → Pc T
  log : List (Event T)

/-- A thread calls, makes its next access, or is in an initialiser that returns or unwinds. -/
inductive Act (ι T : Type*) where
  | call (t : ι) (k : Call T)
  | step (t : ι)
  | initReturn (t : ι) (v : T)
  | unwind (t : ι)

variable {ι T F : Type*} [DecidableEq ι]

namespace State

/-- The thread `t` goes on at `p`. -/
def goto (s : State ι T F) (t : ι) (p : Pc T) : State ι T F :=
  { s with pc := Function.update s.pc t p }

/-- The call of `t` ends with the event `e`. -/
def leave (s : State ι T F) (t : ι) (e : Event T) : State ι T F :=
  { s.goto t .idle with log := s.log ++ [e] }

/-- The state byte says ready: the store of `v` is complete. -/
def stored (s : State ι T F) (v : T) : State ι T F :=
  { s with lock.state := .ready, log := s.log ++ [.stored v] }

/-- What a `get` that found `r` comes to in the call it is part of. -/
def answer (k : Call T) (r : Option T) : Event T :=
  match k, r with
  | .get, r => .got r
  | _, some v => .returned v
  | _, none => .panicked "the lock is ready once the loop breaks"

/-- The next access of the thread `t`. -/
def access (s : State ι T F) (t : ι) : Option (State ι T F) :=
  match s.pc t with
  | .idle => none
  | .load k =>
    if s.lock.state ≠ .ready then some (s.leave t (answer k none)) else some (s.goto t (.read k))
  | .read k => some (s.leave t (answer k s.lock.value))
  | .cas (.set v) =>
    match s.lock.state with
    | .empty => some ({ s with lock.state := .busy }.goto t (.write (.set v) v))
    | _ => some (s.leave t (.set v (.error v)))
  | .cas k =>
    match s.lock.state with
    | .empty =>
      some ({ s with lock.state := .busy }.goto t (match k with | .force => .take | k => .init k))
    | .ready => some (s.goto t (.load k))
    | .busy => some (s.goto t (.yield k))
  | .yield k => some (s.goto t (.cas k))
  | .take =>
    match s.lock.init with
    | some _ => some ({ s with lock.init := none }.goto t (.init .force))
    | none => some (s.leave t (.panicked "the initialiser runs once"))
  | .init _ => none
  | .write k v => some ({ s with lock.value := some v }.goto t (.store k v))
  | .store k v =>
    let s := s.stored v
    match k with
    | .set v => some (s.leave t (.set v (.ok ())))
    | k => some (s.goto t (.load k))

/-- One step of one thread. -/
def step (s : State ι T F) : Act ι T → Option (State ι T F)
  | .call t k =>
    match s.pc t with
    | .idle => some (s.goto t (match k with | .get => .load .get | k => .cas k))
    | _ => none
  | .step t => s.access t
  | .initReturn t v =>
    match s.pc t with
    | .init k => some (s.goto t (.write k v))
    | _ => none
  | .unwind t =>
    match s.pc t with
    | .init _ => some (s.leave t .unwound)
    | _ => none

end State

/-- A lock with the closure `f`, used by the threads `ι`. -/
def system (ι : Type*) [DecidableEq ι] (T : Type*) {F : Type*} (f : F) :
    Sts (State ι T F) (Act ι T) where
  init := ⟨⟨.empty, none, some f⟩, fun _ => .idle, []⟩
  step := State.step

namespace Pc

/-- Inside an initialiser or a store. -/
def inside : Pc T → Bool
  | take | init _ | write .. | store .. => true
  | _ => false

end Pc

/-! ## What a step can do -/

/-- The steps by the accesses they make. -/
inductive Step (s s' : State ι T F) : Act ι T → Prop
  /-- nothing but a thread outside moves, to where it may be in any state -/
  | move (t : ι) (p : Pc T) (a : Act ι T) : (s.pc t).inside = false →
      p = .load .get ∨ (∃ k, p = .cas k ∨ p = .yield k) → (∀ u, a ≠ .unwind u) →
      s' = s.goto t p → Step s s' a
  | broke (t : ι) (k : Call T) : (s.pc t).inside = false → s.lock.state = .ready →
      s' = s.goto t (.load k) → Step s s' (.step t)
  | loadNone (t : ι) (k : Call T) : s.pc t = .load k → s.lock.state ≠ .ready →
      s' = s.leave t (State.answer k none) → Step s s' (.step t)
  | loadReady (t : ι) (k : Call T) : s.pc t = .load k → s.lock.state = .ready →
      s' = s.goto t (.read k) → Step s s' (.step t)
  | read (t : ι) (k : Call T) : s.pc t = .read k → s' = s.leave t (State.answer k s.lock.value) →
      Step s s' (.step t)
  | refused (t : ι) (v : T) : s.pc t = .cas (.set v) → s.lock.state ≠ .empty →
      s' = s.leave t (.set v (.error v)) → Step s s' (.step t)
  | win (t : ι) (p : Pc T) : (s.pc t).inside = false → s.lock.state = .empty →
      (∃ v, p = .write (.set v) v) ∨ p = .take ∨ (∃ k, p = .init k) →
      s' = { s with lock.state := .busy }.goto t p → Step s s' (.step t)
  | take (t : ι) (f : F) : s.pc t = .take → s.lock.init = some f →
      s' = { s with lock.init := none }.goto t (.init .force) → Step s s' (.step t)
  | takeNone (t : ι) : s.pc t = .take → s.lock.init = none →
      s' = s.leave t (.panicked "the initialiser runs once") → Step s s' (.step t)
  | initReturn (t : ι) (k : Call T) (v : T) : s.pc t = .init k → s' = s.goto t (.write k v) →
      Step s s' (.initReturn t v)
  | unwind (t : ι) (k : Call T) : s.pc t = .init k → s' = s.leave t .unwound →
      Step s s' (.unwind t)
  | write (t : ι) (k : Call T) (v : T) : s.pc t = .write k v →
      s' = { s with lock.value := some v }.goto t (.store k v) → Step s s' (.step t)
  | storeSet (t : ι) (v w : T) : s.pc t = .store (.set w) v →
      s' = (s.stored v).leave t (.set w (.ok ())) → Step s s' (.step t)
  | store (t : ι) (k : Call T) (v : T) : s.pc t = .store k v →
      s' = (s.stored v).goto t (.load k) → Step s s' (.step t)

theorem access_cases {s s' : State ι T F} {t : ι} (h : s.access t = some s') :
    Step s s' (.step t) := by
  cases hpc : s.pc t with
  | idle => simp [State.access, hpc] at h
  | load k =>
    simp only [State.access, hpc] at h
    split_ifs at h with hs
    · cases h; exact .loadNone t k hpc hs rfl
    · cases h; exact .loadReady t k hpc (not_not.1 hs) rfl
  | read k =>
    simp only [State.access, hpc] at h
    cases h; exact .read t k hpc rfl
  | cas k =>
    have hin : (s.pc t).inside = false := by rw [hpc]; rfl
    cases k with
    | set v =>
      simp only [State.access, hpc] at h
      split at h
      · next hs => cases h; exact .win t _ hin hs (Or.inl ⟨v, rfl⟩) rfl
      · next hs => cases h; exact .refused t v hpc hs rfl
    | get | getOrInit =>
      simp only [State.access, hpc] at h
      split at h
      · next hs => cases h; exact .win t _ hin hs (Or.inr (Or.inr ⟨_, rfl⟩)) rfl
      · next hs => cases h; exact .broke t _ hin hs rfl
      · next hs => cases h; exact .move t _ _ hin (Or.inr ⟨_, Or.inr rfl⟩) (by simp) rfl
    | force =>
      simp only [State.access, hpc] at h
      split at h
      · next hs => cases h; exact .win t _ hin hs (Or.inr (Or.inl rfl)) rfl
      · next hs => cases h; exact .broke t _ hin hs rfl
      · next hs => cases h; exact .move t _ _ hin (Or.inr ⟨_, Or.inr rfl⟩) (by simp) rfl
  | yield k =>
    simp only [State.access, hpc] at h
    cases h; exact .move t _ _ (by rw [hpc]; rfl) (Or.inr ⟨k, Or.inl rfl⟩) (by simp) rfl
  | take =>
    simp only [State.access, hpc] at h
    split at h
    · next f hi => cases h; exact .take t f hpc hi rfl
    · next hi => cases h; exact .takeNone t hpc hi rfl
  | init k => simp [State.access, hpc] at h
  | write k v =>
    simp only [State.access, hpc] at h
    cases h; exact .write t k v hpc rfl
  | store k v =>
    simp only [State.access, hpc] at h
    split at h
    · cases h; exact .storeSet t _ _ hpc rfl
    · cases h; exact .store t _ _ hpc rfl

/-- **Every step is one of these.** -/
theorem step_cases {s s' : State ι T F} {a : Act ι T} (h : s.step a = some s') :
    Step s s' a := by
  cases a with
  | call t k =>
    simp only [State.step] at h
    split at h
    · next hpc =>
      have hin : (s.pc t).inside = false := by rw [hpc]; rfl
      cases h
      cases k with
      | get => exact .move t _ _ hin (Or.inl rfl) (by simp) rfl
      | set | getOrInit | force => exact .move t _ _ hin (Or.inr ⟨_, Or.inl rfl⟩) (by simp) rfl
    · cases h
  | step t => exact access_cases h
  | initReturn t v =>
    simp only [State.step] at h
    split at h
    · next k hpc => cases h; exact .initReturn t k v hpc rfl
    · cases h
  | unwind t =>
    simp only [State.step] at h
    split at h
    · next k hpc => cases h; exact .unwind t k hpc rfl
    · cases h

/-! ## The invariant -/

/-- What the cells are when a thread is about to make the access `p`. -/
def Good (l : Lock T F) : Pc T → Prop
  | .load k => k ≠ .get → l.state = .ready
  | .read _ => l.state = .ready
  | .take => l.state = .busy ∧ l.init.isSome
  | .init _ | .write _ _ => l.state = .busy
  | .store _ v => l.state = .busy ∧ l.value = some v
  | _ => True

/-- A ready lock has its value and an empty one its closure. -/
structure Filled (l : Lock T F) : Prop where
  value : l.state = .ready → ∃ v, l.value = some v
  closure : l.state = .empty → l.init.isSome

/-- Every thread finds the cells as it needs them, and at most one is inside; no `expect` fired,
    and a `set` that failed handed back its argument. -/
structure Inv (s : State ι T F) : Prop where
  filled : Filled s.lock
  good : ∀ t, Good s.lock (s.pc t)
  alone : ∀ t u, (s.pc t).inside → (s.pc u).inside → t = u
  calm : ∀ m, .panicked m ∉ s.log
  handed : ∀ v w, .set v (.error w) ∈ s.log → w = v

theorem Good.busy {l : Lock T F} {p : Pc T} (h : Good l p) (hin : p.inside) : l.state = .busy := by
  cases p with
  | take | store => exact h.1
  | init | write => exact h
  | _ => cases hin

/-- Before the lock is ready, a thread outside does not depend on the cells. -/
theorem Good.outside {l l' : Lock T F} {p : Pc T} (h : Good l p) (hin : p.inside = false)
    (hs : l.state ≠ .ready) : Good l' p := by
  cases p with
  | load k => exact fun hk => absurd (h hk) hs
  | read => exact absurd h hs
  | idle | cas | yield => exact trivial
  | _ => cases hin

omit [DecidableEq ι] in
theorem Inv.outside {s : State ι T F} (h : Inv s) {t u : ι} (hin : (s.pc t).inside) (hu : u ≠ t) :
    (s.pc u).inside = false := by
  by_contra hne
  exact hu (h.alone u t (by simpa using hne) hin)

omit [DecidableEq ι] in
theorem Inv.value_of_store {s : State ι T F} (h : Inv s) {t : ι} {k : Call T} {v : T}
    (hpc : s.pc t = .store k v) : s.lock.value = some v := by
  have hgood := h.good t
  rw [hpc] at hgood
  exact hgood.2

omit [DecidableEq ι] in
theorem Inv.busy {s : State ι T F} (h : Inv s) {t : ι} {p : Pc T} (hpc : s.pc t = p)
    (hin : p.inside) : s.lock.state = .busy :=
  (h.good t).busy (by rw [hpc]; exact hin)

/-- An event that is neither a fired `expect` nor a `set` that handed back something else. -/
def Fine : Event T → Prop
  | .panicked _ => False
  | .set v (.error w) => w = v
  | _ => True

omit [DecidableEq ι] in
/-- The thread `t` goes on at `p`, with the cells `l` and the events `es` added. -/
theorem Inv.goto [DecidableEq ι] {s : State ι T F} (h : Inv s) {t : ι} {p : Pc T} {l : Lock T F}
    {e : List (Event T)} (hl : Filled l) (hp : Good l p)
    (hothers : ∀ u, u ≠ t → Good l (s.pc u))
    (hin : p.inside → ∀ u, u ≠ t → (s.pc u).inside = false) (he : ∀ x ∈ e, Fine x) :
    Inv (⟨l, Function.update s.pc t p, s.log ++ e⟩ : State ι T F) := by
  refine ⟨hl, (Function.forall_update_iff s.pc fun _ q => Good l q).2 ⟨hp, hothers⟩,
    fun u v hu hv => ?_, fun m hm => ?_, fun v w hw => ?_⟩
  · by_cases hut : u = t <;> by_cases hvt : v = t
    · rw [hut, hvt]
    · subst hut
      have := hin (by simpa using hu) v hvt
      simp [hvt, this] at hv
    · subst hvt
      have := hin (by simpa using hv) u hut
      simp [hut, this] at hu
    · exact h.alone u v (by simpa [hut] using hu) (by simpa [hvt] using hv)
  · rcases List.mem_append.1 hm with hm | hm
    · exact h.calm m hm
    · exact he _ hm
  · rcases List.mem_append.1 hw with hw | hw
    · exact h.handed v w hw
    · exact he _ hw

theorem Inv.move {s : State ι T F} (h : Inv s) {t : ι} {p : Pc T} {e : List (Event T)}
    (hp : Good s.lock p) (hin : p.inside → (s.pc t).inside) (he : ∀ x ∈ e, Fine x) :
    Inv (⟨s.lock, Function.update s.pc t p, s.log ++ e⟩ : State ι T F) :=
  h.goto h.filled hp (fun u _ => h.good u) (fun hp _ hu => h.outside (hin hp) hu) he

theorem Inv.change {s : State ι T F} (h : Inv s) {t : ι} {p : Pc T} {l : Lock T F}
    {e : List (Event T)} (hl : Filled l) (hp : Good l p) (hin : (s.pc t).inside)
    (he : ∀ x ∈ e, Fine x) :
    Inv (⟨l, Function.update s.pc t p, s.log ++ e⟩ : State ι T F) := by
  have hbusy := (h.good t).busy hin
  exact h.goto hl hp (fun u hu => (h.good u).outside (h.outside hin hu) (by simp [hbusy]))
    (fun _ u hu => h.outside hin hu) he

/-- **What one step preserves.** -/
theorem Inv.step {s s' : State ι T F} {a : Act ι T} (h : Inv s) (hs : Step s s' a) : Inv s' := by
  have hnil : ∀ e ∈ ([] : List (Event T)), Fine e := by simp
  have hmove : ∀ {t p}, Good s.lock p → (p.inside → (s.pc t).inside) → Inv (s.goto t p) := by
    intro t p hp hin
    simpa [State.goto] using h.move hp hin hnil
  have hleave : ∀ {t e}, Fine e → Inv (s.leave t e) := by
    intro t e he
    exact h.move (t := t) (p := .idle) (e := [e]) trivial (fun hin => by cases hin) (by simpa using he)
  cases hs with
  | move t p a hout hp _ hs' =>
    subst hs'
    rcases hp with rfl | ⟨k, rfl | rfl⟩
    · exact hmove (fun hk => absurd rfl hk) fun hin => by cases hin
    · exact hmove trivial fun hin => by cases hin
    · exact hmove trivial fun hin => by cases hin
  | broke t k hout hst hs' =>
    subst hs'
    exact hmove (fun _ => hst) fun hin => by cases hin
  | loadNone t k hpc hst hs' =>
    subst hs'
    have hgood : k ≠ .get → s.lock.state = .ready := by simpa [hpc, Good] using h.good t
    refine hleave ?_
    cases k with
    | get => exact trivial
    | _ => exact absurd (hgood (by simp)) hst
  | loadReady t k hpc hst hs' =>
    subst hs'
    exact hmove hst fun hin => by cases hin
  | read t k hpc hs' =>
    subst hs'
    have hready : s.lock.state = .ready := by simpa [hpc, Good] using h.good t
    obtain ⟨v, hv⟩ := h.filled.value hready
    rw [hv]
    refine hleave ?_
    cases k <;> exact trivial
  | refused t v hpc hst hs' => subst hs'; exact hleave rfl
  | win t p hout hst hp hs' =>
    subst hs'
    have hothers : ∀ u, (s.pc u).inside = false := by
      intro u
      by_contra hin
      have := (h.good u).busy (by simpa using hin)
      rw [hst] at this
      cases this
    have hgood : Good { s.lock with state := .busy } p := by
      rcases hp with ⟨v, rfl⟩ | rfl | ⟨k, rfl⟩
      · exact rfl
      · exact ⟨rfl, h.filled.closure hst⟩
      · exact rfl
    have := h.goto (t := t) (l := { s.lock with state := .busy }) ⟨by simp, by simp⟩ hgood
      (fun u _ => (h.good u).outside (hothers u) (by simp [hst])) (fun _ u _ => hothers u) hnil
    simpa [State.goto] using this
  | take t f hpc hi hs' =>
    subst hs'
    have hbusy : s.lock.state = .busy := h.busy hpc rfl
    have := h.change (t := t) (p := .init .force) (l := { s.lock with init := none })
      ⟨h.filled.value, by simp [hbusy]⟩ hbusy (by rw [hpc]; rfl) hnil
    simpa [State.goto] using this
  | takeNone t hpc hi =>
    have hgood := h.good t
    simp [hpc, Good, hi] at hgood
  | initReturn t k v hpc hs' =>
    subst hs'
    have hbusy : s.lock.state = .busy := h.busy hpc rfl
    exact hmove hbusy fun _ => by rw [hpc]; rfl
  | unwind t k hpc hs' => subst hs'; exact hleave trivial
  | write t k v hpc hs' =>
    subst hs'
    have hbusy : s.lock.state = .busy := h.busy hpc rfl
    have := h.change (t := t) (p := .store k v) (l := { s.lock with value := some v })
      ⟨fun _ => ⟨v, rfl⟩, h.filled.closure⟩ ⟨hbusy, rfl⟩ (by rw [hpc]; rfl) hnil
    simpa [State.goto] using this
  | storeSet t v w hpc hs' =>
    subst hs'
    have hval : s.lock.value = some v := h.value_of_store hpc
    have := h.change (t := t) (p := .idle) (l := { s.lock with state := .ready })
      (e := [.stored v, .set w (.ok ())]) ⟨fun _ => ⟨v, hval⟩, by simp⟩ trivial
      (by rw [hpc]; rfl) (by simp [Fine])
    simpa [State.leave, State.goto, State.stored] using this
  | store t k v hpc hs' =>
    subst hs'
    have hval : s.lock.value = some v := h.value_of_store hpc
    exact h.change (t := t) (p := .load k) (l := { s.lock with state := .ready })
      (e := [.stored v]) ⟨fun _ => ⟨v, hval⟩, by simp⟩ (fun _ => rfl)
      (by rw [hpc]; rfl) (by simp [Fine])

/-- **The invariant holds along every run.** -/
theorem Inv.inductive (f : F) : (system ι T f).Inductive Inv where
  init := ⟨⟨by simp [system], by simp [system]⟩, fun _ => trivial,
    fun t u ht => by simp [system, Pc.inside] at ht, by simp [system], by simp [system]⟩
  step h ha := h.step (step_cases ha)

/-! ## Agreement -/

/-- The value a store completed. -/
def stored? : Event T → Option T
  | .stored v => some v
  | _ => none

/-- The answer of a `get`, also of the one at the end of `get_or_init` and `force`. -/
def answer? : Event T → Option (Option T)
  | .got r => some r
  | .returned v => some (some v)
  | _ => none

/-- The values whose store has completed. -/
def stores (log : List (Event T)) : List T := log.filterMap stored?

/-- The answers of `get`, `get_or_init` and `force`, in their order. -/
def answers (log : List (Event T)) : List (Option T) := log.filterMap answer?

theorem stores_append (log e : List (Event T)) : stores (log ++ e) = stores log ++ stores e :=
  List.filterMap_append

theorem answers_append (log e : List (Event T)) : answers (log ++ e) = answers log ++ answers e :=
  List.filterMap_append

theorem stores_silent {e : List (Event T)} (he : ∀ x ∈ e, stored? x = none ∧ answer? x = none) :
    stores e = [] :=
  List.filterMap_eq_nil_iff.2 fun x hx => (he x hx).1

theorem answers_silent {e : List (Event T)} (he : ∀ x ∈ e, stored? x = none ∧ answer? x = none) :
    answers e = [] :=
  List.filterMap_eq_nil_iff.2 fun x hx => (he x hx).2

/-- What a `get` can see of the cells. -/
def Lock.published (l : Lock T F) : Option T := if l.state = .ready then l.value else none

theorem Lock.published_of_ne {l : Lock T F} (h : l.state ≠ .ready) : l.published = none := by
  simp [Lock.published, h]

/-- The lock and the cell it implements. -/
structure Refines (s : State ι T F) (c : WriteOnce T) : Prop where
  inv : Inv s
  cell : c.cell = s.lock.published
  puts : c.puts = stores s.log
  seen : c.seen = answers s.log

omit [DecidableEq ι] in
theorem Refines.keep {s s' : State ι T F} {c : WriteOnce T} (h : Refines s c) (hI : Inv s')
    {e : List (Event T)} (hp : s'.lock.published = s.lock.published) (hlog : s'.log = s.log ++ e)
    (he : ∀ x ∈ e, stored? x = none ∧ answer? x = none) :
    ∃ ops c', (WriteOnce.system T).runFrom c ops = some c' ∧ Refines s' c' := by
  refine ⟨[], c, rfl, hI, by rw [h.cell, hp], ?_, ?_⟩
  · rw [h.puts, hlog, stores_append, stores_silent he, List.append_nil]
  · rw [h.seen, hlog, answers_append, answers_silent he, List.append_nil]

omit [DecidableEq ι] in
theorem Refines.see {s s' : State ι T F} {c : WriteOnce T} (h : Refines s c) (hI : Inv s')
    {e : Event T} (hl : s'.lock = s.lock) (hlog : s'.log = s.log ++ [e])
    (he : stored? e = none) (ha : answer? e = some s.lock.published) :
    ∃ ops c', (WriteOnce.system T).runFrom c ops = some c' ∧ Refines s' c' :=
  ⟨[.see], _, rfl, hI, by rw [hl]; exact h.cell, by rw [hlog]; simp [stores, he, h.puts],
    by rw [hlog]; simp [answers, ha, h.seen, h.cell]⟩

omit [DecidableEq ι] in
theorem Refines.put {s s' : State ι T F} {c : WriteOnce T} (h : Refines s c) (hI : Inv s')
    {v : T} {e : List (Event T)} (hbusy : s.lock.state ≠ .ready)
    (hp : s'.lock.published = some v) (hlog : s'.log = s.log ++ .stored v :: e)
    (he : ∀ x ∈ e, stored? x = none ∧ answer? x = none) :
    ∃ ops c', (WriteOnce.system T).runFrom c ops = some c' ∧ Refines s' c' := by
  have hcell : c.cell = none := by rw [h.cell, Lock.published_of_ne hbusy]
  refine ⟨[.put v], { c with cell := some v, puts := c.puts ++ [v] }, ?_, hI, hp.symm, ?_, ?_⟩
  · simp [WriteOnce.system, hcell]
  · have hput : stores (.stored v :: e) = [v] := congrArg (v :: ·) (stores_silent he)
    rw [hlog, stores_append, hput, h.puts]
  · have hquiet : answers (.stored v :: e) = [] := show answers e = [] from answers_silent he
    rw [hlog, answers_append, hquiet, List.append_nil, h.seen]

/-- **The lock is a write-once cell.** -/
theorem simulates (f : F) : (system ι T f).Simulates (WriteOnce.system T) Refines where
  init := ⟨(Inv.inductive f).init, rfl, rfl, rfl⟩
  step {s c a s'} h ha := by
    have hI' : Inv s' := (Inv.inductive f).step h.inv ha
    have hnil : ∀ e ∈ ([] : List (Event T)), stored? e = none ∧ answer? e = none := by simp
    cases step_cases ha with
    | move t p a _ _ _ hs' | broke t k _ _ hs' | loadReady t k _ _ hs' | initReturn t k v _ hs' =>
      subst hs'
      exact h.keep hI' rfl (by simp [State.goto]) hnil
    | loadNone t k hpc hst hs' =>
      subst hs'
      have hgood : k ≠ .get → s.lock.state = .ready := by simpa [hpc, Good] using h.inv.good t
      cases k with
      | get => exact h.see hI' rfl rfl rfl (by rw [Lock.published_of_ne hst]; rfl)
      | _ => exact absurd (hgood (by simp)) hst
    | read t k hpc hs' =>
      subst hs'
      have hready : s.lock.state = .ready := by simpa [hpc, Good] using h.inv.good t
      obtain ⟨v, hv⟩ := h.inv.filled.value hready
      have hp : s.lock.published = some v := by simp [Lock.published, hready, hv]
      refine h.see hI' rfl rfl ?_ ?_ <;> cases k <;> simp [hv, hp, State.answer, stored?, answer?]
    | refused t v _ _ hs' =>
      subst hs'
      exact h.keep hI' (e := [.set v (.error v)]) rfl rfl (by simp [stored?, answer?])
    | win t p _ hst _ hs' =>
      subst hs'
      refine h.keep hI' ?_ (by simp [State.goto]) hnil
      simp [Lock.published, State.goto, hst]
    | take t f hpc _ hs' =>
      subst hs'
      exact h.keep hI' rfl (by simp [State.goto]) hnil
    | takeNone t hpc hi =>
      have hgood := h.inv.good t
      simp [hpc, Good, hi] at hgood
    | unwind t k _ hs' =>
      subst hs'
      exact h.keep hI' (e := [.unwound]) rfl rfl (by simp [stored?, answer?])
    | write t k v hpc hs' =>
      subst hs'
      have hbusy := h.inv.busy hpc rfl
      refine h.keep hI' ?_ (by simp [State.goto]) hnil
      simp [Lock.published, State.goto, hbusy]
    | storeSet t v w hpc hs' =>
      subst hs'
      refine h.put hI' (v := v) (e := [.set w (.ok ())]) (by simp [h.inv.busy hpc rfl]) ?_ ?_
        (by simp [stored?, answer?])
      · simp [State.leave, State.goto, State.stored, Lock.published, h.inv.value_of_store hpc]
      · simp [State.leave, State.goto, State.stored]
    | store t k v hpc hs' =>
      subst hs'
      refine h.put hI' (v := v) (e := []) (by simp [h.inv.busy hpc rfl]) ?_ ?_ hnil
      · simp [State.goto, State.stored, Lock.published, h.inv.value_of_store hpc]
      · simp [State.goto, State.stored]

/-- What a run says about the lock. -/
structure Agrees (s : State ι T F) : Prop where
  /-- At most one store completes. -/
  stores : (stores s.log).length ≤ 1
  /-- Every answer that is a value is the one that is in the cell for good. -/
  answers : ∀ v, some v ∈ answers s.log → s.lock.state = .ready ∧ s.lock.value = some v ∧
    OnceLock.stores s.log = [v]
  /-- After an answer with a value come only answers with it. -/
  stays : (OnceLock.answers s.log).Pairwise fun r r' => ∀ v, r = some v → r' = some v
  /-- A `set` that fails hands back its argument and changes nothing. -/
  handed : ∀ v w, .set v (.error w) ∈ s.log → w = v
  unchanged : ∀ a s' v w, s.step a = some s' → s'.log = s.log ++ [.set v (.error w)] →
    s'.lock = s.lock
  /-- No `expect` fires. -/
  calm : ∀ m, .panicked m ∉ s.log

theorem Step.unchanged {s s' : State ι T F} {a : Act ι T} (hs : Step s s' a) {v w : T}
    (hlog : s'.log = s.log ++ [.set v (.error w)]) : s'.lock = s.lock := by
  cases hs with
  | win t p _ _ _ hs' | take t f _ _ hs' | write t k v _ hs' | storeSet t v w _ hs'
  | store t k v _ hs' =>
    subst hs'
    simp [State.goto, State.leave, State.stored] at hlog
  | move _ _ _ _ _ _ hs' | broke _ _ _ _ hs' | loadNone _ _ _ _ hs' | loadReady _ _ _ _ hs'
  | read _ _ _ hs' | refused _ _ _ _ hs' | takeNone _ _ _ hs' | initReturn _ _ _ _ hs'
  | unwind _ _ _ hs' =>
    subst hs'
    rfl

/-- **All answers agree**, in every run. -/
theorem once_lock_agrees (f : F) {as : List (Act ι T)} {s : State ι T F}
    (h : (system ι T f).run as = some s) : Agrees s := by
  obtain ⟨ops, c, hc, hR⟩ := (simulates f).run h
  have hA : c.Agrees := WriteOnce.agrees.run hc
  refine ⟨?_, fun v hv => ?_, hR.seen ▸ hA.stays, hR.inv.handed,
    fun a s' v w ha => (step_cases ha).unchanged, hR.inv.calm⟩
  · rw [← hR.puts, hA.puts]
    cases c.cell <;> simp
  · have hcell : c.cell = some v := hA.seen v (hR.seen ▸ hv)
    have hp : s.lock.published = some v := hR.cell ▸ hcell
    have hputs : stores s.log = [v] := by rw [← hR.puts, hA.puts, hcell]; rfl
    unfold Lock.published at hp
    split_ifs at hp with hready
    exact ⟨hready, hp, hputs⟩

/-- A `set` that comes between the `compare_exchange` and the store of a `get_or_init`. -/
theorem once_lock_agrees_race : Agrees (((system (Fin 2) ℕ ()).run
    [.call 0 .getOrInit, .step 0, .call 1 (.set 8), .step 1, .initReturn 0 7, .step 0, .call 1 .get,
      .step 1, .step 0, .step 0, .step 0, .call 1 .force, .step 1, .step 1, .step 1]).get
      (by decide)) :=
  once_lock_agrees () (Option.some_get _).symm

/-! ## Unwinding -/

/-- The state byte says busy only while somebody is inside. -/
def Held (s : State ι T F) : Prop := s.lock.state = .busy → ∃ t, (s.pc t).inside

/-- The state byte says busy and nobody is inside. -/
def Wedged (s : State ι T F) : Prop := s.lock.state = .busy ∧ ∀ t, (s.pc t).inside = false

omit [DecidableEq ι] in
theorem Wedged.not_held {s : State ι T F} (h : Wedged s) : ¬ Held s := by
  intro hheld
  obtain ⟨t, ht⟩ := hheld h.1
  simp [h.2 t] at ht

theorem Held.step {s s' : State ι T F} {a : Act ι T} (h : Held s) (hs : Step s s' a)
    (ha : ∀ t, a ≠ .unwind t) (hI : Inv s) : Held s' := by
  -- whoever is inside stays there, unless it is the thread that moves
  have hother : ∀ {t p}, s.lock.state = .busy → (s.pc t).inside = false →
      ∃ u, (Function.update s.pc t p u).inside := by
    intro t p hbusy hout
    obtain ⟨u, hu⟩ := h hbusy
    have hut : u ≠ t := by rintro rfl; simp [hout] at hu
    exact ⟨u, by simpa [hut] using hu⟩
  cases hs with
  | move t p a hout _ _ hs' => subst hs'; exact fun hbusy => hother hbusy hout
  | broke t k hout _ hs' => subst hs'; exact fun hbusy => hother hbusy hout
  | loadNone t k hpc _ hs' | loadReady t k hpc _ hs' | read t k hpc hs'
  | refused t v hpc _ hs' =>
    subst hs'
    exact fun hbusy => hother hbusy (by rw [hpc]; rfl)
  | win t p _ _ hp hs' =>
    subst hs'
    refine fun _ => ⟨t, ?_⟩
    rcases hp with ⟨v, rfl⟩ | rfl | ⟨k, rfl⟩ <;> simp [State.goto, Pc.inside]
  | take t f hpc _ hs' | write t k v hpc hs' | initReturn t k v hpc hs' =>
    subst hs'
    exact fun _ => ⟨t, by simp [State.goto, Pc.inside]⟩
  | takeNone t hpc hi =>
    have hgood := hI.good t
    simp [hpc, Good, hi] at hgood
  | unwind t => exact absurd rfl (ha t)
  | storeSet t v w _ hs' | store t k v _ hs' =>
    subst hs'
    intro hbusy
    cases hbusy

theorem Inv.wedged {s s' : State ι T F} {t : ι} (hI : Inv s) (hs : Step s s' (.unwind t)) :
    Wedged s' := by
  cases hs with
  | move _ _ _ _ _ ha => exact absurd rfl (ha t)
  | unwind _ k hpc hs' =>
    subst hs'
    refine ⟨hI.busy hpc rfl, fun u => ?_⟩
    by_cases hut : u = t
    · subst hut; simp [State.leave, State.goto, Pc.inside]
    · simpa [State.leave, State.goto, hut] using hI.outside (by rw [hpc]; rfl) hut

/-- **A wedged lock stays so.** -/
theorem Wedged.step {s s' : State ι T F} {a : Act ι T} (h : Wedged s) (hs : Step s s' a) :
    Wedged s' := by
  have hmove : ∀ {t p}, p.inside = false → ∀ u, (Function.update s.pc t p u).inside = false := by
    intro t p hp
    exact (Function.forall_update_iff s.pc fun _ q => q.inside = false).2 ⟨hp, fun u _ => h.2 u⟩
  have hpc : ∀ {t p}, s.pc t = p → p.inside = false := by rintro t p rfl; exact h.2 t
  cases hs with
  | move t p a _ hp _ hs' =>
    subst hs'
    refine ⟨h.1, hmove ?_⟩
    rcases hp with rfl | ⟨k, rfl | rfl⟩ <;> rfl
  | broke t k _ _ hs' | loadReady t k _ _ hs' | loadNone t k _ _ hs' | read t k _ hs'
  | refused t v _ _ hs' =>
    subst hs'
    exact ⟨h.1, hmove rfl⟩
  | win t p _ hst _ _ =>
    rw [h.1] at hst
    cases hst
  | take t f ht _ _ | takeNone t ht _ _ | initReturn t k v ht _ | unwind t k ht _
  | write t k v ht _ | storeSet t v w ht _ | store t k v ht _ => cases hpc ht

/-- **A run in which an initialiser unwound** leaves the lock wedged. -/
theorem wedged_of_unwound (f : F) {as : List (Act ι T)} {s : State ι T F}
    (h : (system ι T f).run as = some s) {t : ι} (ht : .unwind t ∈ as) : Wedged s := by
  obtain ⟨pre, post, rfl⟩ := List.append_of_mem ht
  obtain ⟨s₁, h₁, hrun⟩ := Option.bind_eq_some_iff.1 ((Sts.run_append _ _ _).symm.trans h)
  obtain ⟨s₂, h₂, hrun⟩ := Option.bind_eq_some_iff.1 hrun
  have hI₁ : Inv s₁ := (Inv.inductive f).run h₁
  exact Sts.runFrom_keeps (I := Wedged) (fun hs ha => hs.step (step_cases ha))
    (hI₁.wedged (step_cases h₂)) hrun

/-- The byte is honest after every action of `as`; and after an unwinding the lock is empty
    again, and a `get_or_init` that then runs alone, with an initialiser that returns `v`,
    returns `v`. -/
structure NeverWedges (f : F) (as : List (Act ι T)) : Prop where
  held : ∀ pre post s, as = pre ++ post → (system ι T f).run pre = some s → Held s
  freed : ∀ pre t post s, as = pre ++ .unwind t :: post →
    (system ι T f).run (pre ++ [.unwind t]) = some s →
    s.lock.state = .empty ∧ ∀ u v, s.pc u = .idle → ∃ s', (system ι T f).runFrom s
      [.call u .getOrInit, .step u, .initReturn u v, .step u, .step u, .step u, .step u] = some s' ∧
      s'.log = s.log ++ [.stored v, .returned v]

/-- **The lock never wedges exactly in the runs in which no initialiser unwinds.** -/
theorem never_wedges_iff (f : F) {as : List (Act ι T)} {s : State ι T F}
    (h : (system ι T f).run as = some s) :
    NeverWedges f as ↔ ∀ t, .unwind t ∉ as := by
  constructor
  · intro hN t ht
    exact (wedged_of_unwound f h ht).not_held (hN.held as [] s (by simp) h)
  · intro hcalm
    refine ⟨fun pre post s' he hr => ?_, fun pre t post s' he => ?_⟩
    · have hmeets : (system ι T f).Meets (fun _ a => ∀ t, a ≠ .unwind t) pre := by
        rintro pre' a post' rfl _ _ t rfl
        exact hcalm t (by simp [he])
      exact (Sts.run_of_meets (I := fun s => Inv s ∧ Held s)
        ⟨(Inv.inductive f).init, fun hb => by simp [system] at hb⟩
        (fun hs hc ha => ⟨(Inv.inductive f).step hs.1 ha, hs.2.step (step_cases ha) hc hs.1⟩)
        hmeets hr).2
    · exact absurd (by simp [he]) (hcalm t)

/-- The initialiser of a `get_or_init` unwinds: the lock says busy and nobody is inside. -/
theorem unwound_wedges : ∃ s : State (Fin 2) ℕ Unit,
    (system (Fin 2) ℕ ()).run [.call 0 .getOrInit, .step 0, .unwind 0] = some s ∧
    s.lock.state = .busy ∧ (∀ t, (s.pc t).inside = false) ∧
    ¬ NeverWedges () [.call (0 : Fin 2) (.getOrInit : Call ℕ), .step 0, .unwind 0] := by
  refine ⟨_, rfl, rfl, by decide, fun hN => ?_⟩
  obtain ⟨t, ht⟩ := hN.held _ [] _ (List.append_nil _).symm rfl rfl
  revert ht
  revert t
  decide

/-- A `get_or_init` whose initialiser returns. -/
theorem never_wedges_calm :
    NeverWedges () [.call (0 : Fin 1) (.getOrInit : Call ℕ), .step 0, .initReturn 0 7] :=
  (never_wedges_iff (s := ((system (Fin 1) ℕ ()).run
    [.call 0 .getOrInit, .step 0, .initReturn 0 7]).get (by decide)) ()
    (Option.some_get _).symm).2 (by simp)

end Ekostd.Thread.OnceLock
