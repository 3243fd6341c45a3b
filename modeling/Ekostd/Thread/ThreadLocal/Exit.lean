/-
  `ThreadLocal` — the end of a thread: `drop_box`.

  Each key has a destructor.  When a thread ends, the runtime takes the box out
  of a slot that is not null, and calls the destructor, which drops the value and
  frees the box; and so on.  The drop of a value may use any object again, also
  its own, and so make values anew; the runtime may give up on them.

  * `Threads`, `Event`: the calls of `with`, and the ends of threads;
  * `Moves`: what a step of a call does to the boxes: it loses none, and frees
    none;
  * `ExitInv`: every box is in a slot, in the hands of a call, or being dropped;
  * `boxes_dropped_once`: what every reachable state has of it.
-/
import Ekostd.Thread.ThreadLocal.Values

namespace Ekostd.Thread.ThreadLocal

/-- Where a thread is: it runs; it has ended and no destructor is running; one is, for the box at
    `ptr`; or it is gone. -/
inductive Phase where
  | running
  | ending
  | dropping (ptr : Ptr)
  | gone
  deriving DecidableEq

variable {ι ο V : Type*}

/-- The objects with their calls, and where each thread is. -/
structure Threads (ι ο V : Type*) where
  state : State ι ο V
  phase : ι → Phase

/-- A step of a call; a thread ends; a destructor is called for a slot, and returns; a thread is
    gone. -/
inductive Event (ι ο V : Type*) where
  | act (a : Act ι ο V)
  | finish (t : ι)
  | drop (t : ι) (k : Key)
  | dropped (t : ι)
  | exit (t : ι)

/-- The thread that takes the step. -/
def Act.thread : Act ι ο V → ι
  | call t _ | create t _ | init t _ _ | write t _ | step t => t

/-- Whether code of the thread is running. -/
def Phase.runs : Phase → Bool
  | running | dropping _ => true
  | ending | gone => false

section

variable [DecidableEq ι]

/-- The slot `k` of `t` is null, and for the books it has no value in `o`. -/
def State.clear [DecidableEq ο] (s : State ι ο V) (t : ι) (k : Key) (o : ο) : State ι ο V :=
  { s with
    slot := Function.update s.slot t (Function.update (s.slot t) k none)
    inits := Function.update s.inits t (Function.update (s.inits t) o 0)
    last := Function.update s.last t (Function.update (s.last t) o none) }

/-- The box at `p` is freed. -/
def State.free (s : State ι ο V) (p : Ptr) : State ι ο V :=
  { s with heap := Function.update s.heap p none }

namespace Threads

def goto (s : Threads ι ο V) (t : ι) (phase : Phase) (state : State ι ο V) : Threads ι ο V :=
  ⟨state, Function.update s.phase t phase⟩

variable [DecidableEq ο]

def step (s : Threads ι ο V) : Event ι ο V → Option (Threads ι ο V)
  | .act a =>
    if (s.phase a.thread).runs then (s.state.step a).map fun state => { s with state } else none
  | .finish t =>
    if s.phase t = .running ∧ (s.state.stack t).isEmpty then some (s.goto t .ending s.state)
    else none
  | .drop t k =>
    match s.phase t, s.state.slot t k with
    | .ending, some p =>
      (s.state.heap p).map fun box => s.goto t (.dropping p) (s.state.clear t k box.obj)
    | _, _ => none
  | .dropped t =>
    match s.phase t with
    | .dropping p =>
      if (s.state.stack t).isEmpty then some (s.goto t .ending (s.state.free p)) else none
    | _ => none
  | .exit t => if s.phase t = .ending then some (s.goto t .gone s.state) else none

/-- The threads `ι` with the objects `ο`, all of them running. -/
def system (ι ο V : Type*) [DecidableEq ι] [DecidableEq ο] :
    Sts (Threads ι ο V) (Event ι ο V) where
  init := ⟨(ThreadLocal.system ι ο V).init, fun _ => .running⟩
  step := step

end Threads

end

/-! ## Where the boxes are -/

variable {s s' : State ι ο V} {t u : ι} {o : ο} {k : Key} {p q : Ptr} {frames below : List (ο × Pc)}
  {pc pc' : Pc} {v : V}

/-- The box at `p` is in a slot of `t`, or about to be stored in one. -/
def Placed (s : State ι ο V) (t : ι) (p : Ptr) : Prop :=
  (∃ k, s.slot t k = some p) ∨ ∃ o k, (o, Pc.set k p) ∈ s.stack t

/-- What a step of a call does to the boxes: each stays where it was, with its owner; and where
    there is one that was not there, it is new. -/
structure Moves (s s' : State ι ο V) : Prop where
  stay : ∀ t p, Placed s t p → Placed s' t p
  keep : ∀ p v t o, s.heap p = some ⟨v, t, o⟩ → ∃ v', s'.heap p = some ⟨v', t, o⟩
  only : ∀ t p, Placed s' t p → Placed s t p ∨ s.heap p = none
  new : ∀ p box, s'.heap p = some box →
    (∃ v, s.heap p = some ⟨v, box.thread, box.obj⟩) ∨ s.heap p = none ∧ Placed s' box.thread p

theorem Moves.of_same (hslot : s'.slot = s.slot) (hheap : s'.heap = s.heap)
    (hstack : ∀ t o k p, (o, Pc.set k p) ∈ s'.stack t ↔ (o, Pc.set k p) ∈ s.stack t) :
    Moves s s' := by
  have hplaced : ∀ t p, Placed s' t p ↔ Placed s t p := by
    intro t p
    simp only [Placed, hslot, hstack]
  constructor
  · exact fun t p => (hplaced t p).2
  · exact fun p v t o hp => ⟨v, by rw [hheap, hp]⟩
  · exact fun t p hp => .inl ((hplaced t p).1 hp)
  · exact fun p box hp => .inl ⟨box.value, by rw [← hheap, hp]⟩

theorem mem_set_cons (hpc : ∀ k p, pc ≠ .set k p) {o' : ο} :
    (o', Pc.set k p) ∈ (o, pc) :: below ↔ (o', Pc.set k p) ∈ below := by
  rw [List.mem_cons, or_iff_right]
  rintro ⟨⟩
  exact hpc k p rfl

variable [DecidableEq ι]

theorem Moves.of_goto {s₁ : State ι ο V} (hslot : s₁.slot = s.slot) (hheap : s₁.heap = s.heap)
    (hstack : s₁.stack = s.stack)
    (hframes : ∀ o k p, (o, Pc.set k p) ∈ frames ↔ (o, Pc.set k p) ∈ s.stack t) :
    Moves s (s₁.goto t frames) := by
  refine .of_same hslot hheap fun u o k p => ?_
  by_cases hut : u = t
  · rw [hut, State.goto_stack_self]
    exact hframes o k p
  · rw [State.goto_stack_of_ne s₁ hut, hstack]

/-- The innermost call goes on, and neither is nor comes to where it stores a box. -/
theorem Moves.advance {s₁ : State ι ο V} (hstack : s.stack t = (o, pc) :: below)
    (hslot : s₁.slot = s.slot) (hheap : s₁.heap = s.heap) (hstack₁ : s₁.stack = s.stack)
    (hpc : ∀ k p, pc ≠ .set k p) (hpc' : ∀ k p, pc' ≠ .set k p) :
    Moves s (s₁.goto t ((o, pc') :: below)) := by
  refine .of_goto hslot hheap hstack₁ fun o' k p => ?_
  rw [hstack, mem_set_cons hpc, mem_set_cons hpc']

theorem Moves.ret (hstack : s.stack t = (o, pc) :: below) (hpc : ∀ k p, pc ≠ .set k p) :
    Moves s (s.goto t below) := by
  refine .of_goto rfl rfl rfl fun o' k p => ?_
  rw [hstack, mem_set_cons hpc]

theorem Moves.box (hstack : s.stack t = (o, .init k) :: below) (hheap : s.heap p = none) :
    Moves s ({ s with heap := Function.update s.heap p (some ⟨v, t, o⟩) }.goto t
      ((o, .set k p) :: below)) := by
  set s₁ : State ι ο V := { s with heap := Function.update s.heap p (some ⟨v, t, o⟩) } with hs₁
  have hother : ∀ q, q ≠ p → s₁.heap q = s.heap q := fun q hq => Function.update_of_ne hq _ _
  have hself : s₁.heap p = some ⟨v, t, o⟩ := Function.update_self ..
  have hmem : ∀ u o' k' q, (o', Pc.set k' q) ∈ (s₁.goto t ((o, .set k p) :: below)).stack u ↔
      (o', Pc.set k' q) ∈ s.stack u ∨ u = t ∧ o' = o ∧ k' = k ∧ q = p := by
    intro u o' k' q
    by_cases hut : u = t
    · subst hut
      rw [State.goto_stack_self, List.mem_cons, hstack, mem_set_cons fun _ _ => by simp, or_comm]
      simp
    · rw [State.goto_stack_of_ne s₁ hut]
      simp [hut, hs₁]
  constructor
  · rintro u q (⟨k', hq⟩ | ⟨o', k', hq⟩)
    · exact .inl ⟨k', hq⟩
    · exact .inr ⟨o', k', (hmem u o' k' q).2 (.inl hq)⟩
  · intro q w u o' hq
    have hqp : q ≠ p := by
      rintro rfl
      cases hq.symm.trans hheap
    exact ⟨w, (hother q hqp).trans hq⟩
  · rintro u q (⟨k', hq⟩ | ⟨o', k', hq⟩)
    · exact .inl (.inl ⟨k', hq⟩)
    · rcases (hmem u o' k' q).1 hq with hq | ⟨-, -, -, rfl⟩
      · exact .inl (.inr ⟨o', k', hq⟩)
      · exact .inr hheap
  · intro q b hq
    by_cases hqp : q = p
    · subst hqp
      cases hself.symm.trans hq
      exact .inr ⟨hheap, .inr ⟨o, k, (hmem t o k q).2 (.inr ⟨rfl, rfl, rfl, rfl⟩)⟩⟩
    · exact .inl ⟨b.value, (hother q hqp).symm.trans hq⟩

variable [DecidableEq ο]

theorem Moves.leave {w : V} (hp : s.heap p = some ⟨w, t, o⟩) (v : V) :
    Moves s (s.leave t o p v) := by
  have hother : ∀ q, q ≠ p → (s.leave t o p v).heap q = s.heap q := fun q hq =>
    Function.update_of_ne hq _ _
  have hself : (s.leave t o p v).heap p = some ⟨v, t, o⟩ := Function.update_self ..
  constructor
  · exact fun u q hq => hq
  · intro q w' u o' hq
    by_cases hqp : q = p
    · subst hqp
      cases hp.symm.trans hq
      exact ⟨v, hself⟩
    · exact ⟨w', (hother q hqp).trans hq⟩
  · exact fun u q hq => .inl hq
  · intro q b hq
    by_cases hqp : q = p
    · subst hqp
      cases hself.symm.trans hq
      exact .inl ⟨w, hp⟩
    · exact .inl ⟨b.value, (hother q hqp).symm.trans hq⟩

theorem Moves.set (hstack : s.stack t = (o, .set k p) :: below) (hslot : s.slot t k = none)
    (hp : s.heap p = some ⟨v, t, o⟩) :
    Moves s (((s.leave t o p v).store t k p).goto t ((o, .run k p) :: below)) := by
  have hheap := State.leave_heap_eq hp
  have hslots : ∀ u k' q, ((s.leave t o p v).store t k p).slot u k' = some q ↔
      s.slot u k' = some q ∨ u = t ∧ k' = k ∧ q = p := by
    intro u k' q
    by_cases hself : u = t ∧ k' = k
    · obtain ⟨rfl, rfl⟩ := hself
      rw [State.store_slot_self, hslot]
      simp [eq_comm]
    · rw [State.store_slot_of_ne hself]
      exact ⟨.inl, fun h => h.resolve_right fun ⟨hu, hk, _⟩ => hself ⟨hu, hk⟩⟩
  have hmem : ∀ u o' k' q, (o', Pc.set k' q) ∈ (((s.leave t o p v).store t k p).goto t
      ((o, .run k p) :: below)).stack u → (o', Pc.set k' q) ∈ s.stack u := by
    intro u o' k' q hq
    by_cases hut : u = t
    · subst hut
      rw [State.goto_stack_self, mem_set_cons fun _ _ => by simp] at hq
      rw [hstack]
      exact List.mem_cons_of_mem _ hq
    · rwa [State.goto_stack_of_ne _ hut] at hq
  constructor
  · rintro u q (⟨k', hq⟩ | ⟨o', k', hq⟩)
    · exact .inl ⟨k', (hslots u k' q).2 (.inl hq)⟩
    · by_cases hut : u = t
      · subst hut
        rw [hstack] at hq
        rcases List.mem_cons.1 hq with heq | hq
        · cases heq
          exact .inl ⟨k, (hslots u k p).2 (.inr ⟨rfl, rfl, rfl⟩)⟩
        · refine .inr ⟨o', k', ?_⟩
          rw [State.goto_stack_self]
          exact List.mem_cons_of_mem _ hq
      · refine .inr ⟨o', k', ?_⟩
        rwa [State.goto_stack_of_ne _ hut]
  · exact fun q w u o' hq => ⟨w, (congrFun hheap q).trans hq⟩
  · rintro u q (⟨k', hq⟩ | ⟨o', k', hq⟩)
    · rcases (hslots u k' q).1 hq with hq | ⟨rfl, rfl, rfl⟩
      · exact .inl (.inl ⟨k', hq⟩)
      · exact .inl (.inr ⟨o, k', by rw [hstack]; exact List.mem_cons_self⟩)
    · exact .inl (.inr ⟨o', k', hmem u o' k' q hq⟩)
  · exact fun q b hq => .inl ⟨b.value, (congrFun hheap q).symm.trans hq⟩

/-- **A step of a call** loses no box, and frees none. -/
theorem step_moves (hk : KeyInv s) (hv : ValueInv s) {a : Act ι ο V}
    (h : (system ι ο V).step s a = some s') : Moves s s' := by
  cases step_cases h with
  | call t o hmay hs' =>
    exact hs' ▸ .of_goto rfl rfl rfl fun o' k p => mem_set_cons fun _ _ => by simp
  | noKey t o below hstack hs' | ret t o below k p hstack hs' =>
    exact hs' ▸ .ret hstack fun _ _ => by simp
  | create t o below k hstack hdead hs' =>
    have hslots : (s.create t o k).slot = s.slot := by
      have hnone := hv.slot_eq_none hk (k := k) (by simp [hdead])
      funext u
      rw [← Function.update_eq_self k (s.slot u), hnone u]
      rfl
    exact hs' ▸ .advance hstack hslots rfl rfl (fun _ _ => by simp) fun _ _ => by simp
  | loadZero t o below hstack hword hs' | load t o below k hstack hword hs'
  | lose t o below k theirs hstack hword hs' | delete t o below k theirs hstack hs'
  | publish t o below k hstack hword hs' | get t o below k p hstack hslot hs'
  | getNull t o below k hstack hslot hs' =>
    exact hs' ▸ .advance hstack rfl rfl rfl (fun _ _ => by simp) fun _ _ => by simp
  | init t o below k v p hstack hheap hs' => exact hs' ▸ .box hstack hheap
  | set t o below k p box hstack hbox hs' =>
    obtain ⟨hslot, v, hp⟩ := (hv.fits_below hstack).1
    cases hbox.symm.trans hp
    exact hs' ▸ .set hstack hslot hp
  | write t o below k p v hstack hs' =>
    have hslot : s.slot t k = some p := (hv.fits_below hstack).1
    obtain ⟨w, hp, -⟩ := hv.owns hk hslot (hk.word_eq hstack rfl)
    exact hs' ▸ .leave hp v

/-! ## The invariant -/

/-- The invariant of the boxes.

    * `owned`: a box is where its thread will find it, or its destructor is running;
    * `dropping`: then it is nowhere else;
    * `idle`: a thread in whose end no destructor is running is in no call. -/
structure ExitInv (s : Threads ι ο V) : Prop where
  keys : KeyInv s.state
  values : ValueInv s.state
  owned : ∀ p box, s.state.heap p = some box →
    Placed s.state box.thread p ∨ s.phase box.thread = .dropping p
  dropping : ∀ t p, s.phase t = .dropping p →
    (∃ v o, s.state.heap p = some ⟨v, t, o⟩) ∧ ∀ u, ¬ Placed s.state u p
  idle : ∀ t, (s.phase t).runs = false → s.state.stack t = []

variable {T T' : Threads ι ο V} {phase : Phase}

namespace Threads

omit [DecidableEq ο]

@[simp] theorem goto_phase_self : (T.goto t phase s).phase t = phase := Function.update_self ..

theorem goto_phase_of_ne (hut : u ≠ t) : (T.goto t phase s).phase u = T.phase u :=
  Function.update_of_ne hut _ _

theorem dropping_goto (hdrop : T.phase u = .dropping q) (hfrom : T.phase t ≠ .dropping q) :
    (T.goto t phase s).phase u = .dropping q := by
  have hut : u ≠ t := by
    rintro rfl
    exact hfrom hdrop
  rw [goto_phase_of_ne hut, hdrop]

end Threads

omit [DecidableEq ο] in
theorem ExitInv.idle_goto (h : ExitInv T) (hs : s.stack = T.state.stack)
    (hidle : phase.runs = false → T.state.stack t = []) :
    ∀ u, ((T.goto t phase s).phase u).runs = false → s.stack u = [] := by
  intro u hu
  rw [hs]
  by_cases hut : u = t
  · subst hut
    rw [Threads.goto_phase_self] at hu
    exact hidle hu
  · rw [Threads.goto_phase_of_ne hut] at hu
    exact h.idle u hu

theorem step_stack_of_ne {a : Act ι ο V} (h : s.step a = some s') (hu : u ≠ a.thread) :
    s'.stack u = s.stack u := by
  cases a with
  | call t o =>
    simp only [State.step, Option.ite_none_right_eq_some] at h
    cases h.2
    exact State.goto_stack_of_ne s hu _
  | create t created =>
    simp only [State.step] at h
    split at h
    · cases created with
      | none =>
        cases h
        exact State.goto_stack_of_ne s hu _
      | some k =>
        simp only [Option.ite_none_right_eq_some] at h
        cases h.2
        exact State.goto_stack_of_ne _ hu _
    · cases h
  | init t value boxed =>
    simp only [State.step] at h
    split at h
    · simp only [Option.ite_none_right_eq_some] at h
      cases h.2
      exact State.goto_stack_of_ne _ hu _
    · cases h
  | write t value =>
    simp only [State.step] at h
    split at h
    · cases h
      rfl
    · cases h
  | step t =>
    simp only [State.step] at h
    split at h
    next o pc below hstack =>
      cases pc with
      | load | delete k theirs | run k p =>
        cases h
        exact State.goto_stack_of_ne _ hu _
      | publish k =>
        simp only [State.next] at h
        split_ifs at h
        all_goals
          cases h
          exact State.goto_stack_of_ne _ hu _
      | get k =>
        simp only [State.next] at h
        split at h
        all_goals
          cases h
          exact State.goto_stack_of_ne _ hu _
      | set k p =>
        obtain ⟨box, -, rfl⟩ := Option.map_eq_some_iff.1 h
        exact State.goto_stack_of_ne _ hu _
      | create | init k => cases h
    next => cases h

/-- A step of a call, of a thread of which code is running. -/
theorem ExitInv.act (h : ExitInv T) {a : Act ι ο V} (hruns : (T.phase a.thread).runs = true)
    (hstep : T.state.step a = some s') : ExitInv { T with state := s' } := by
  have hmoves := step_moves h.keys h.values hstep
  obtain ⟨hkeys, hvalues⟩ := ValueInv.inductive.step ⟨h.keys, h.values⟩ hstep
  refine ⟨hkeys, hvalues, ?_, ?_, ?_⟩
  · intro p b hp
    rcases hmoves.new p b hp with ⟨v, hold⟩ | ⟨-, hplaced⟩
    · exact (h.owned p _ hold).imp_left (hmoves.stay b.thread p)
    · exact .inl hplaced
  · intro t p hdrop
    obtain ⟨⟨v, o, hp⟩, hno⟩ := h.dropping t p hdrop
    obtain ⟨v', hp'⟩ := hmoves.keep p v t o hp
    refine ⟨⟨v', o, hp'⟩, fun u hplaced => ?_⟩
    rcases hmoves.only u p hplaced with hold | hnone
    · exact hno u hold
    · cases hp.symm.trans hnone
  · intro t ht
    have hne : t ≠ a.thread := by
      rintro rfl
      cases ht.symm.trans hruns
    exact (step_stack_of_ne hstep hne).trans (h.idle t ht)

omit [DecidableEq ο] in
/-- The phase of one thread changes, from one in which no destructor is running to another. -/
theorem ExitInv.goto (h : ExitInv T) (hfrom : ∀ p, T.phase t ≠ .dropping p)
    (hto : ∀ p, phase ≠ .dropping p) (hstack : T.state.stack t = []) :
    ExitInv (T.goto t phase T.state) := by
  refine ⟨h.keys, h.values, ?_, ?_, h.idle_goto rfl fun _ => hstack⟩
  · intro p b hp
    exact (h.owned p b hp).imp_right fun hdrop => Threads.dropping_goto hdrop (hfrom p)
  · intro u p hdrop
    by_cases hut : u = t
    · subst hut
      exact absurd (Threads.goto_phase_self.symm.trans hdrop) (hto p)
    · rw [Threads.goto_phase_of_ne hut] at hdrop
      exact h.dropping u p hdrop

/-! ## A destructor -/

theorem clear_slot_of_ne {k' : Key} (h : ¬(u = t ∧ k' = k)) :
    (s.clear t k o).slot u k' = s.slot u k' := by
  by_cases hut : u = t
  · subst hut
    simp [State.clear, Function.update_of_ne fun hk => h ⟨rfl, hk⟩]
  · simp [State.clear, Function.update_of_ne hut]

theorem clear_slot {k' : Key} : (s.clear t k o).slot u k' = some p ↔
    s.slot u k' = some p ∧ ¬(u = t ∧ k' = k) := by
  by_cases hself : u = t ∧ k' = k
  · obtain ⟨rfl, rfl⟩ := hself
    simp [State.clear]
  · simp [clear_slot_of_ne hself, hself]

theorem clear_last_of_ne {o' : ο} (h : ¬(u = t ∧ o' = o)) :
    (s.clear t k o).last u o' = s.last u o' := by
  by_cases hut : u = t
  · subst hut
    simp [State.clear, Function.update_of_ne fun ho => h ⟨rfl, ho⟩]
  · simp [State.clear, Function.update_of_ne hut]

theorem clear_last {o' : ο} : (s.clear t k o).last u o' = some v ↔
    s.last u o' = some v ∧ ¬(u = t ∧ o' = o) := by
  by_cases hself : u = t ∧ o' = o
  · obtain ⟨rfl, rfl⟩ := hself
    simp [State.clear]
  · simp [clear_last_of_ne hself, hself]

theorem clear_inits {o' : ο} : (s.clear t k o).inits u o' =
    if u = t ∧ o' = o then 0 else s.inits u o' := by
  by_cases hut : u = t
  · subst hut
    by_cases ho : o' = o <;> simp [State.clear, ho]
  · simp [State.clear, hut]

theorem Placed.of_clear (h : Placed (s.clear t k o) u p) : Placed s u p :=
  h.imp_left fun ⟨k', hp⟩ => ⟨k', (clear_slot.1 hp).1⟩

theorem ValueInv.clear (hv : ValueInv s) (hk : KeyInv s) (hstack : s.stack t = [])
    (hword : s.word o = k + 1) : ValueInv (s.clear t k o) := by
  refine ⟨?_, ?_, ?_, ?_⟩
  · intro u k' q hq
    obtain ⟨hq, hne⟩ := clear_slot.1 hq
    obtain ⟨o', w, hword', hbox, hlast⟩ := hv.slot u k' q hq
    refine ⟨o', w, hword', hbox, clear_last.2 ⟨hlast, ?_⟩⟩
    rintro ⟨rfl, rfl⟩
    exact hne ⟨rfl, Nat.succ.inj (hword'.symm.trans hword)⟩
  · intro u o' w hw
    obtain ⟨hw, hne⟩ := clear_last.1 hw
    obtain ⟨k', q, hword', hq⟩ := hv.last u o' w hw
    refine ⟨k', q, hword', clear_slot.2 ⟨hq, ?_⟩⟩
    rintro ⟨rfl, rfl⟩
    exact hne ⟨rfl, hk.word_inj hword' hword⟩
  · intro u fr hfr
    have hut : u ≠ t := by
      rintro rfl
      rw [show (s.clear u k o).stack u = [] from hstack] at hfr
      cases hfr
    have hslots : (s.clear t k o).slot u = s.slot u := Function.update_of_ne hut _ _
    have hfit := hv.fits u fr hfr
    unfold State.Fits at hfit ⊢
    rw [hslots]
    exact hfit
  · intro u o'
    rw [clear_inits]
    by_cases hself : u = t ∧ o' = o
    · exact .inl (if_pos hself)
    · rw [if_neg hself, clear_last_of_ne hself]
      exact hv.inits u o'

/-- **A destructor is called**: its box is in no slot any more. -/
theorem ExitInv.drop (h : ExitInv T) (hphase : T.phase t = .ending)
    (hslot : T.state.slot t k = some p) {b : Box ι ο V} (hb : T.state.heap p = some b) :
    ExitInv (T.goto t (.dropping p) (T.state.clear t k b.obj)) := by
  have hstack : T.state.stack t = [] := h.idle t (by rw [hphase]; rfl)
  obtain ⟨o, v, hword, hp, -⟩ := h.values.slot t k p hslot
  cases hb.symm.trans hp
  refine ⟨h.keys.congr rfl rfl rfl rfl, h.values.clear h.keys hstack hword, ?_, ?_,
    h.idle_goto rfl fun _ => hstack⟩
  · intro q b hq
    by_cases hqp : q = p
    · subst hqp
      cases hp.symm.trans hq
      exact .inr Threads.goto_phase_self
    · rcases h.owned q b hq with hplaced | hdrop
      · refine .inl (hplaced.imp_left fun ⟨k', hk'⟩ => ⟨k', clear_slot.2 ⟨hk', ?_⟩⟩)
        rintro ⟨heq, rfl⟩
        rw [heq, hslot] at hk'
        exact hqp (Option.some.inj hk').symm
      · exact .inr (Threads.dropping_goto hdrop (by simp [hphase]))
  · intro u q hdrop
    by_cases hut : u = t
    · subst hut
      cases Threads.goto_phase_self.symm.trans hdrop
      refine ⟨⟨v, o, hp⟩, ?_⟩
      rintro w (⟨k', hk'⟩ | ⟨o', k', hk'⟩)
      · obtain ⟨hk', hne⟩ := clear_slot.1 hk'
        obtain ⟨o', v', hword', hp', -⟩ := h.values.slot w k' p hk'
        cases hp.symm.trans hp'
        exact hne ⟨rfl, Nat.succ.inj (hword'.symm.trans hword)⟩
      · obtain ⟨-, v', hp'⟩ := h.values.fits w _ hk'
        cases hp.symm.trans hp'
        have hin : (o', Pc.set k' p) ∈ T.state.stack u := hk'
        rw [hstack] at hin
        cases hin
    · rw [Threads.goto_phase_of_ne hut] at hdrop
      obtain ⟨hbox, hno⟩ := h.dropping u q hdrop
      exact ⟨hbox, fun w hplaced => hno w hplaced.of_clear⟩

omit [DecidableEq ο] in
/-- **The destructor returns**, and the box is freed. -/
theorem ExitInv.dropped (h : ExitInv T) (hphase : T.phase t = .dropping p)
    (hstack : T.state.stack t = []) : ExitInv (T.goto t .ending (T.state.free p)) := by
  obtain ⟨⟨v, o, hp⟩, hno⟩ := h.dropping t p hphase
  have hheap : ∀ q, q ≠ p → (T.state.free p).heap q = T.state.heap q := fun q hq =>
    Function.update_of_ne hq _ _
  have hplaced_ne : ∀ u q, Placed T.state u q → q ≠ p := by
    rintro u q hplaced rfl
    exact hno u hplaced
  refine ⟨h.keys.congr rfl rfl rfl rfl, ⟨?_, h.values.last, ?_, h.values.inits⟩, ?_, ?_,
    h.idle_goto rfl fun _ => hstack⟩
  · intro u k q hq
    obtain ⟨o', v', hword, hbox, hlast⟩ := h.values.slot u k q hq
    exact ⟨o', v', hword, (hheap q (hplaced_ne u q (.inl ⟨k, hq⟩))).trans hbox, hlast⟩
  · rintro u ⟨o', pc⟩ hfr
    have hfit := h.values.fits u _ hfr
    cases pc with
    | set k q =>
      obtain ⟨hslot, v', hq⟩ := hfit
      exact ⟨hslot, v', (hheap q (hplaced_ne u q (.inr ⟨o', k, hfr⟩))).trans hq⟩
    | _ => exact hfit
  · intro q b hq
    have hqp : q ≠ p := by
      rintro rfl
      have hnone : (T.state.free q).heap q = none := Function.update_self ..
      cases hnone.symm.trans hq
    exact (h.owned q b ((hheap q hqp).symm.trans hq)).imp_right fun hdrop =>
      Threads.dropping_goto hdrop (by simp [hphase, Ne.symm hqp])
  · intro u q hdrop
    by_cases hut : u = t
    · subst hut
      cases Threads.goto_phase_self.symm.trans hdrop
    · rw [Threads.goto_phase_of_ne hut] at hdrop
      obtain ⟨⟨v', o', hq⟩, hnoq⟩ := h.dropping u q hdrop
      have hqp : q ≠ p := by
        rintro rfl
        cases hp.symm.trans hq
        exact hut rfl
      exact ⟨⟨v', o', (hheap q hqp).trans hq⟩, hnoq⟩

/-- **The boxes**: every step keeps where they are. -/
theorem ExitInv.inductive : (Threads.system ι ο V).Inductive ExitInv where
  init := by
    obtain ⟨hkeys, hvalues⟩ := (ValueInv.inductive (ι := ι) (ο := ο) (V := V)).init
    refine ⟨hkeys, hvalues, ?_, ?_, fun _ _ => rfl⟩
    · intro p b hp
      cases hp
    · intro t p hp
      cases hp
  step {T e T'} h hstep := by
    cases e with
    | act a =>
      simp only [Threads.system, Threads.step] at hstep
      split_ifs at hstep with hruns
      obtain ⟨state, hact, rfl⟩ := Option.map_eq_some_iff.1 hstep
      exact h.act hruns hact
    | finish t =>
      simp only [Threads.system, Threads.step, List.isEmpty_iff] at hstep
      split_ifs at hstep with hready
      cases hstep
      exact h.goto (by simp [hready.1]) (by simp) hready.2
    | drop t k =>
      simp only [Threads.system, Threads.step] at hstep
      split at hstep
      · next p hphase hslot =>
        obtain ⟨b, hb, rfl⟩ := Option.map_eq_some_iff.1 hstep
        exact h.drop hphase hslot hb
      · cases hstep
    | dropped t =>
      simp only [Threads.system, Threads.step, List.isEmpty_iff] at hstep
      split at hstep
      · next p hphase =>
        split_ifs at hstep with hstack
        cases hstep
        exact h.dropped hphase hstack
      · cases hstep
    | exit t =>
      simp only [Threads.system, Threads.step] at hstep
      split_ifs at hstep with hphase
      cases hstep
      exact h.goto (by simp [hphase]) (by simp) (h.idle t (by rw [hphase]; rfl))

/-! ## What is dropped -/

/-- What the calls and the destructors have of the boxes.

    * `owned`: a box is in its thread's slot of its object's key, or about to be stored there, or
      its destructor is running on its thread;
    * `sees`: a closure has a box of its thread and its object;
    * `handed`: what a destructor is called with is a box of the thread that ends;
    * `once`: a box whose destructor is running is in no slot, and is there until it returns;
    * `clean`: a thread that has ended, with all its slots null, has no box. -/
structure Kept (T : Threads ι ο V) : Prop where
  owned : ∀ p box, T.state.heap p = some box →
    (∃ k, T.state.word box.obj = k + 1 ∧ T.state.slot box.thread k = some p) ∨
    (∃ k, (box.obj, Pc.set k p) ∈ T.state.stack box.thread) ∨ T.phase box.thread = .dropping p
  sees : ∀ t o k p, (o, Pc.run k p) ∈ T.state.stack t → ∃ v, T.state.heap p = some ⟨v, t, o⟩
  handed : ∀ t k p, T.state.slot t k = some p → ∃ v o, T.state.heap p = some ⟨v, t, o⟩
  once : ∀ t p, T.phase t = .dropping p →
    (∃ v o, T.state.heap p = some ⟨v, t, o⟩) ∧ ∀ u k, T.state.slot u k ≠ some p
  clean : ∀ t, (T.phase t).runs = false → (∀ k, T.state.slot t k = none) →
    ∀ p box, T.state.heap p = some box → box.thread ≠ t

omit [DecidableEq ι] [DecidableEq ο] in
theorem ExitInv.kept (h : ExitInv T) : Kept T where
  owned := by
    rintro p ⟨w, t, o⟩ hp
    rcases h.owned p _ hp with (⟨k, hk⟩ | ⟨o', k, hk⟩) | hdrop
    · obtain ⟨o', v, hword, hp', -⟩ := h.values.slot t k p hk
      cases hp.symm.trans hp'
      exact .inl ⟨k, hword, hk⟩
    · obtain ⟨-, v, hp'⟩ := h.values.fits t _ hk
      cases hp.symm.trans hp'
      exact .inr (.inl ⟨k, hk⟩)
    · exact .inr (.inr hdrop)
  sees t o k p hfr := by
    obtain ⟨v, hp, -⟩ := h.values.owns h.keys (h.values.fits t _ hfr) (h.keys.uses t _ hfr k rfl)
    exact ⟨v, hp⟩
  handed t k p hslot := by
    obtain ⟨o, v, -, hp, -⟩ := h.values.slot t k p hslot
    exact ⟨v, o, hp⟩
  once t p hdrop := by
    obtain ⟨hbox, hno⟩ := h.dropping t p hdrop
    exact ⟨hbox, fun u k hk => hno u (.inl ⟨k, hk⟩)⟩
  clean t ht hslots p b hp := by
    rintro rfl
    rcases h.owned p b hp with (⟨k, hk⟩ | ⟨o, k, hk⟩) | hdrop
    · cases (hslots k).symm.trans hk
    · rw [h.idle b.thread ht] at hk
      cases hk
    · rw [hdrop] at ht
      cases ht

/-- **Values are dropped once, with their thread.**  In whatever order threads call `with`, end, and
    run their destructors, which may call `with` again: no box is lost, freed twice, or freed while
    a closure has it; and a thread that has ended leaves none, but for what the runtime gave up
    on.  A `pthread_setspecific` succeeds, as the code takes it to. -/
theorem boxes_dropped_once {es : List (Event ι ο V)} {T : Threads ι ο V}
    (h : (Threads.system ι ο V).run es = some T) : Kept T :=
  (ExitInv.inductive.run h).kept

/-- A thread ends with a value in an object, whose drop makes one in the other object; so that is
    dropped, too. -/
theorem boxes_dropped_once_again :
    ∃ T : Threads Bool Bool ℕ, (Threads.system Bool Bool ℕ).run
      [.act (.call true true), .act (.step true), .act (.create true (some 0)), .act (.step true),
        .act (.step true), .act (.init true 5 10), .act (.step true), .act (.step true),
        .finish true, .drop true 0, .act (.call true false), .act (.step true),
        .act (.create true (some 1)), .act (.step true), .act (.step true),
        .act (.init true 7 11), .act (.step true), .act (.step true), .dropped true,
        .drop true 1, .dropped true, .exit true] = some T ∧
      T.phase true = .gone ∧ T.state.heap 10 = none ∧ T.state.heap 11 = none ∧ Kept T := by
  obtain ⟨T, hT, hgone, hten, heleven⟩ : ∃ T : Threads Bool Bool ℕ,
      (Threads.system Bool Bool ℕ).run
      [.act (.call true true), .act (.step true), .act (.create true (some 0)), .act (.step true),
        .act (.step true), .act (.init true 5 10), .act (.step true), .act (.step true),
        .finish true, .drop true 0, .act (.call true false), .act (.step true),
        .act (.create true (some 1)), .act (.step true), .act (.step true),
        .act (.init true 7 11), .act (.step true), .act (.step true), .dropped true,
        .drop true 1, .dropped true, .exit true] = some T ∧
      T.phase true = .gone ∧ T.state.heap 10 = none ∧ T.state.heap 11 = none :=
    ⟨_, rfl, rfl, rfl, rfl⟩
  exact ⟨T, hT, hgone, hten, heleven, boxes_dropped_once hT⟩

end Ekostd.Thread.ThreadLocal
