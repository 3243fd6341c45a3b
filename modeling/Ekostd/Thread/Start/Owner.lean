/-
  `thread.rs` — what becomes of the closure of a thread that is started.

  * `Inv`: the threads that have not begun have payloads of their own;
  * `Owned`: a closure waits for its thread, or was taken by it;
  * `detached_iff`, `builder_iff`: when a start is all or nothing, which depends on
    the codes that nothing looks at.
-/
import Ekostd.Thread.Start.Model

namespace Ekostd.Thread.Start

open PosixFs

variable {T : Type*} {heap heap' : Heap (Cell T)} {raw f c : ℕ} {host : Host} {codes : Codes}
  {bytes : ℕ} {p p' : Proc T} {value : T}

/-! ## What a thread takes -/

/-- The payload at `raw` and the closure at `f` were taken; slots may have been written. -/
structure Took (heap heap' : Heap (Cell T)) (raw f : ℕ) : Prop where
  next : heap'.next = heap.next
  gone : heap'.cells f = none
  dead : ∀ j, heap.cells j = none → heap'.cells j = none
  rest : ∀ j c, heap.cells j = some c → j ≠ raw → j ≠ f →
    heap'.cells j = some c ∨ ∃ x y, c = .slot x ∧ heap'.cells j = some (.slot y)

/-- **A thread begins**: it takes the closure that its payload carries. -/
theorem begins_carries {th : Created} (h : Carries p.heap th.arg f) :
    ∃ heap, Took p.heap heap th.arg f ∧ p.begins th = some ⟨heap, p.errno, p.tids,
      p.threads.filter (·.tid ≠ th.tid), p.taken ++ [(th.tid, f)]⟩ := by
  obtain ⟨slot, value, heap, hraw, hunbox, hnext, hcells⟩ := unbox_carries h
  obtain ⟨slot', value', hraw', hf, hslot⟩ := h
  cases hraw.symm.trans hraw'
  have htook : Took p.heap heap th.arg f := by
    refine ⟨hnext, by rw [hcells, if_pos (.inr rfl)], fun j hj => ?_,
      fun j c hj hne hne' => .inl ?_⟩
    · rw [hcells, hj, ite_self]
    · rw [hcells, if_neg (by simp [hne, hne']), hj]
  cases slot with
  | none => exact ⟨heap, htook, by simp [Proc.begins, hunbox]⟩
  | some s =>
    obtain ⟨x, hx⟩ := hslot s rfl
    have hlive : heap.cells s = some (.slot x) := by
      rw [hcells, if_neg, hx]
      rintro (rfl | rfl)
      · cases hraw.symm.trans hx
      · cases hf.symm.trans hx
    obtain ⟨heap', hstore⟩ := Heap.store_live hlive (.slot (some value))
    obtain ⟨hnext', -, hcells'⟩ := Heap.store_eq_some hstore
    have hother : ∀ j, j ≠ s → heap'.cells j = heap.cells j := fun j hj => by
      rw [hcells', if_neg hj]
    have hne : ∀ j, heap.cells j = none → j ≠ s := by
      rintro j hj rfl
      cases hj.symm.trans hlive
    refine ⟨heap', ⟨hnext'.trans hnext, ?_, fun j hj => ?_, fun j c hj hraw' hf' => ?_⟩, ?_⟩
    · rw [hother f (hne f htook.gone), htook.gone]
    · have hj' := htook.dead j hj
      rw [hother j (hne j hj'), hj']
    · by_cases hjs : j = s
      · subst hjs
        refine .inr ⟨x, some value, Option.some.inj (hj.symm.trans hx), ?_⟩
        rw [hcells', if_pos rfl]
      · rw [hother j hjs]
        exact htook.rest j c hj hraw' hf'
    · simp [Proc.begins, hunbox, hstore]

theorem Carries.took {raw' f' : ℕ} (h : Carries heap raw f) (ht : Took heap heap' raw' f')
    (h' : Carries heap raw' f') (hraw : raw ≠ raw') (hf : f ≠ f') : Carries heap' raw f := by
  obtain ⟨slot, value, hr, hc, hslot⟩ := h
  obtain ⟨slot', value', hr', hc', -⟩ := h'
  -- a payload, a closure and a slot are different cells
  have hkeep : ∀ j c, heap.cells j = some c → (∀ x, c ≠ .slot x) → j ≠ raw' → j ≠ f' →
      heap'.cells j = some c := by
    intro j c hj hno hne hne'
    rcases ht.rest j c hj hne hne' with hsame | ⟨x, y, rfl, -⟩
    · exact hsame
    · exact absurd rfl (hno x)
  refine ⟨slot, value, hkeep _ _ hr (by simp) hraw ?_, hkeep _ _ hc (by simp) ?_ hf,
    fun s hs => ?_⟩
  · rintro rfl
    cases hr.symm.trans hc'
  · rintro rfl
    cases hc.symm.trans hr'
  · obtain ⟨x, hx⟩ := hslot s hs
    have hsraw : s ≠ raw' := by
      rintro rfl
      cases hx.symm.trans hr'
    have hsf : s ≠ f' := by
      rintro rfl
      cases hx.symm.trans hc'
    rcases ht.rest s _ hx hsraw hsf with hsame | ⟨_, y, -, hy⟩
    · exact ⟨x, hsame⟩
    · exact ⟨y, hy⟩

theorem Carries.old (h : Carries heap raw f)
    (hold : ∀ j, j < heap.next → heap'.cells j = heap.cells j) : Carries heap' raw f := by
  obtain ⟨slot, value, hraw, hf, hslot⟩ := h
  have hkeep : ∀ j c, heap.cells j = some c → heap'.cells j = some c := fun j c hj => by
    rw [hold j (heap.lt_of_live hj), hj]
  refine ⟨slot, value, hkeep _ _ hraw, hkeep _ _ hf, fun s hs => ?_⟩
  obtain ⟨x, hx⟩ := hslot s hs
  exact ⟨x, hkeep _ _ hx⟩

theorem Carries.lt (h : Carries heap raw f) : raw < heap.next ∧ f < heap.next := by
  obtain ⟨slot, value, hraw, hf, -⟩ := h
  exact ⟨heap.lt_of_live hraw, heap.lt_of_live hf⟩

/-! ## The invariant -/

/-- Every thread that has not begun has a payload of its own. -/
structure Inv (p : Proc T) : Prop where
  carries : ∀ th ∈ p.threads, ∃ f, Carries p.heap th.arg f
  own : ∀ a ∈ p.threads, ∀ b ∈ p.threads,
    (a.tid = b.tid ∨ ∃ f, Carries p.heap a.arg f ∧ Carries p.heap b.arg f) → a = b
  tids : ∀ th ∈ p.threads, th.tid < p.tids
  taken : ∀ x ∈ p.taken, x.2 < p.heap.next

/-- The steps, by what they do to the heap. -/
inductive Step (p p' : Proc T) : Prop
  | discards (heap : Heap (Cell T)) : Discards p.heap heap → p' = { p with heap } → Step p p'
  | creates (attr : Attr) (heap : Heap (Cell T)) (raw f : ℕ) : Carrying p.heap heap raw f →
      p' = Proc.create { p with heap } attr raw → Step p p'
  | begins (th : Created) (heap : Heap (Cell T)) (f : ℕ) : th ∈ p.threads →
      Carries p.heap th.arg f → Took p.heap heap th.arg f →
      p' = ⟨heap, p.errno, p.tids, p.threads.filter (·.tid ≠ th.tid), p.taken ++ [(th.tid, f)]⟩ →
      Step p p'
  | errno (e : Errno) : p' = { p with errno := e } → Step p p'

/-- **Every step is one of these.** -/
theorem step_cases {a : Act T} (hI : Inv p) (h : p.step host a = some p') : Step p p' := by
  cases a with
  | detached codes bytes value =>
    rcases spawnDetached_cases host codes bytes value p with
      ⟨-, heap, hheap, hs⟩ | ⟨-, -, heap, raw, f, hheap, hs⟩
    · simp only [Proc.step, hs, Option.map_some, Option.some.injEq] at h
      exact .discards heap hheap h.symm
    · simp only [Proc.step, hs, Option.map_some, Option.some.injEq] at h
      exact .creates _ heap raw f hheap h.symm
  | builder b codes value =>
    rcases b.spawn_cases host codes value p with
      ⟨-, heap, hheap, hs⟩ | ⟨-, heap, raw, f, handle, hheap, hs⟩
    · simp only [Proc.step, hs, Option.map_some, Option.some.injEq] at h
      exact .discards heap hheap h.symm
    · simp only [Proc.step, hs, Option.map_some, Option.some.injEq] at h
      exact .creates _ heap raw f hheap h.symm
  | begins tid =>
    obtain ⟨th, hfind, hb⟩ := Option.bind_eq_some_iff.1 h
    have hmem := List.mem_of_find?_eq_some hfind
    obtain ⟨f, hf⟩ := hI.carries th hmem
    obtain ⟨heap, htook, hs⟩ := begins_carries hf
    exact .begins th heap f hmem hf htook (Option.some.inj (hb.symm.trans hs))
  | errno e => exact .errno e (Option.some.inj h).symm

/-- Threads whose payloads are as they were are in order. -/
theorem Inv.old (hI : Inv p) {heap : Heap (Cell T)} (hnext : p.heap.next ≤ heap.next)
    (hold : ∀ j, j < p.heap.next → heap.cells j = p.heap.cells j) : Inv { p with heap } where
  carries th hth := by
    obtain ⟨f, hf⟩ := hI.carries th hth
    exact ⟨f, hf.old hold⟩
  own a ha b hb := by
    rintro (htid | ⟨f, hfa, hfb⟩)
    · exact hI.own a ha b hb (.inl htid)
    · obtain ⟨g, hg⟩ := hI.carries a ha
      obtain ⟨g', hg'⟩ := hI.carries b hb
      obtain rfl := (hg.old hold).inj hfa
      obtain rfl := (hg'.old hold).inj hfb
      exact hI.own a ha b hb (.inr ⟨_, hg, hg'⟩)
  tids := hI.tids
  taken x hx := (hI.taken x hx).trans_le hnext

/-- **What one step preserves.** -/
theorem Inv.step (hI : Inv p) (hs : Step p p') : Inv p' := by
  cases hs with
  | discards heap hheap hp =>
    subst hp
    exact hI.old hheap.next hheap.old
  | creates attr heap raw f hheap hp =>
    subst hp
    have hI' := hI.old hheap.next hheap.old
    -- the payload of the new thread is above all that there was
    have hnew : ∀ th ∈ p.threads, th.tid ≠ p.tids ∧ ¬ Carries heap th.arg f := by
      intro th hth
      refine ⟨(hI.tids th hth).ne, fun hc => ?_⟩
      obtain ⟨g, hg⟩ := hI.carries th hth
      obtain rfl := (hg.old hheap.old).inj hc
      have := hg.lt.2
      have := hheap.new.2
      omega
    constructor
    · intro th hth
      rcases List.mem_append.1 hth with hth | hth
      · exact hI'.carries th hth
      · obtain rfl := List.mem_singleton.1 hth
        exact ⟨f, hheap.carries⟩
    · intro a ha b hb hab
      rcases List.mem_append.1 ha with ha | ha <;> rcases List.mem_append.1 hb with hb | hb
      · exact hI'.own a ha b hb hab
      · obtain rfl := List.mem_singleton.1 hb
        rcases hab with htid | ⟨g, hg, hg'⟩
        · exact absurd htid (hnew a ha).1
        · obtain rfl := hheap.carries.inj hg'
          exact absurd hg (hnew a ha).2
      · obtain rfl := List.mem_singleton.1 ha
        rcases hab with htid | ⟨g, hg, hg'⟩
        · exact absurd htid.symm (hnew b hb).1
        · obtain rfl := hheap.carries.inj hg
          exact absurd hg' (hnew b hb).2
      · rw [List.mem_singleton.1 ha, List.mem_singleton.1 hb]
    · intro th hth
      rcases List.mem_append.1 hth with hth | hth
      · exact (hI.tids th hth).trans (Nat.lt_succ_self _)
      · obtain rfl := List.mem_singleton.1 hth
        exact Nat.lt_succ_self _
    · exact hI'.taken
  | begins th heap f hth hf htook hp =>
    subst hp
    -- whoever is left has another payload
    have hleft : ∀ u ∈ p.threads.filter (·.tid ≠ th.tid), u ∈ p.threads ∧
        ∃ g, Carries p.heap u.arg g ∧ Carries heap u.arg g := by
      intro u hu
      obtain ⟨hu, hne⟩ := List.mem_filter.1 hu
      obtain ⟨g, hg⟩ := hI.carries u hu
      have hut : u ≠ th := by
        rintro rfl
        simp at hne
      have hgf : g ≠ f := by
        rintro rfl
        exact hut (hI.own u hu th hth (.inr ⟨g, hg, hf⟩))
      have harg : u.arg ≠ th.arg := fun heq => hgf ((heq ▸ hg).inj hf)
      exact ⟨hu, g, hg, hg.took htook hf harg hgf⟩
    refine ⟨fun u hu => ?_, fun a ha b hb hab => ?_, fun u hu => hI.tids u (hleft u hu).1,
      fun x hx => ?_⟩
    · obtain ⟨-, g, -, hg⟩ := hleft u hu
      exact ⟨g, hg⟩
    · obtain ⟨ha, g, hg, hga⟩ := hleft a ha
      obtain ⟨hb, g', hg', hgb⟩ := hleft b hb
      refine hI.own a ha b hb (hab.imp_right ?_)
      rintro ⟨c, hca, hcb⟩
      obtain rfl := hga.inj hca
      obtain rfl := hgb.inj hcb
      exact ⟨_, hg, hg'⟩
    · rw [htook.next]
      rcases List.mem_append.1 hx with hx | hx
      · exact hI.taken x hx
      · obtain rfl := List.mem_singleton.1 hx
        exact hf.lt.2
  | errno e hp =>
    subst hp
    exact ⟨hI.carries, hI.own, hI.tids, hI.taken⟩

/-- **The invariant holds along every run.** -/
theorem Inv.inductive (T : Type*) (host : Host) : (system T host).Inductive Inv where
  init := ⟨by simp [system, Proc.init], by simp [system, Proc.init], by simp [system, Proc.init],
    by simp [system, Proc.init]⟩
  step hI h := hI.step (step_cases hI h)

/-! ## What becomes of a closure -/

/-- The threads that have taken the closure at `c`. -/
def Proc.takers (p : Proc T) (c : ℕ) : List ℕ := (p.taken.filter (·.2 = c)).map Prod.fst

/-- The cell `c` was freed, and its closure was taken by `ts`. -/
structure Dead (c : ℕ) (ts : List ℕ) (p : Proc T) : Prop where
  lt : c < p.heap.next
  cell : p.heap.cells c = none
  takers : p.takers c = ts

/-- The closure at `c` is that of the thread `th`, which has not begun or has taken it. -/
inductive Owned (th : Created) (c : ℕ) (p : Proc T) : Prop
  | waits : th ∈ p.threads → Carries p.heap th.arg c → p.takers c = [] → Owned th c p
  | done : th ∉ p.threads → th.tid < p.tids → Dead c [th.tid] p → Owned th c p

theorem takers_append (p : Proc T) (heap : Heap (Cell T)) (threads : List Created) (tid f c : ℕ) :
    Proc.takers ⟨heap, p.errno, p.tids, threads, p.taken ++ [(tid, f)]⟩ c =
      if f = c then p.takers c ++ [tid] else p.takers c := by
  unfold Proc.takers
  rw [List.filter_append]
  split_ifs with hf <;> simp [hf]

theorem Inv.takers_nil (hI : Inv p) (hc : p.heap.next ≤ c) : p.takers c = [] := by
  simp only [Proc.takers, List.map_eq_nil_iff, List.filter_eq_nil_iff, decide_eq_true_eq]
  rintro x hx rfl
  exact absurd (hI.taken x hx) (not_lt.2 hc)

theorem Dead.step {ts : List ℕ} (h : Dead c ts p) (hs : Step p p') : Dead c ts p' := by
  cases hs with
  | discards heap hheap hp =>
    subst hp
    exact ⟨h.lt.trans_le hheap.next, by rw [hheap.old c h.lt, h.cell], h.takers⟩
  | creates attr heap raw f hheap hp =>
    subst hp
    exact ⟨h.lt.trans_le hheap.next, (hheap.old c h.lt).trans h.cell, h.takers⟩
  | begins th heap f _ hf htook hp =>
    subst hp
    refine ⟨htook.next ▸ h.lt, htook.dead c h.cell, ?_⟩
    have hne : f ≠ c := by
      rintro rfl
      obtain ⟨slot, value, -, hlive, -⟩ := hf
      cases h.cell.symm.trans hlive
    rw [takers_append, if_neg hne, h.takers]
  | errno e hp =>
    subst hp
    exact ⟨h.lt, h.cell, h.takers⟩

/-- **A closure that waits for its thread** is left alone until that takes it. -/
theorem Owned.step {th : Created} (hI : Inv p) (h : Owned th c p) (hs : Step p p') :
    Owned th c p' := by
  cases h with
  | waits hth hc hnone =>
    cases hs with
    | discards heap hheap hp =>
      subst hp
      exact .waits hth (hc.old hheap.old) hnone
    | creates attr heap raw f hheap hp =>
      subst hp
      exact .waits (List.mem_append_left _ hth) (hc.old hheap.old) hnone
    | begins u heap f hu hf htook hp =>
      subst hp
      by_cases huth : u = th
      · subst huth
        obtain rfl := hc.inj hf
        refine .done (by simp) (hI.tids u hth) ⟨htook.next ▸ hf.lt.2, htook.gone, ?_⟩
        rw [takers_append, if_pos rfl, hnone, List.nil_append]
      · have htid : th.tid ≠ u.tid := fun heq => huth (hI.own th hth u hu (.inl heq)).symm
        have hfc : c ≠ f := by
          rintro rfl
          exact huth (hI.own th hth u hu (.inr ⟨c, hc, hf⟩)).symm
        have harg : th.arg ≠ u.arg := fun heq => hfc ((heq ▸ hc).inj hf)
        refine .waits (List.mem_filter.2 ⟨hth, by simpa using htid⟩) (hc.took htook hf harg hfc) ?_
        rw [takers_append, if_neg hfc.symm, hnone]
    | errno e hp =>
      subst hp
      exact .waits hth hc hnone
  | done hth htid hdead =>
    refine .done ?_ ?_ (hdead.step hs)
    · cases hs with
      | discards heap hheap hp => subst hp; exact hth
      | creates attr heap raw f hheap hp =>
        subst hp
        rintro hmem
        rcases List.mem_append.1 hmem with hmem | hmem
        · exact hth hmem
        · obtain rfl := List.mem_singleton.1 hmem
          exact lt_irrefl _ htid
      | begins u heap f hu hf htook hp =>
        subst hp
        exact fun hmem => hth (List.mem_filter.1 hmem).1
      | errno e hp => subst hp; exact hth
    · cases hs with
      | creates attr heap raw f hheap hp => subst hp; exact htid.trans (Nat.lt_succ_self _)
      | discards heap hheap hp | begins u heap f hu hf htook hp | errno e hp =>
        subst hp
        exact htid

/-- The closure at `c` is taken once, by `th`: until then nobody has taken it, and `th` can
    begin. -/
def TakenOnce (host : Host) (th : Created) (c : ℕ) (p : Proc T) : Prop :=
  (th ∈ p.threads ∧ p.takers c = [] ∧ ∃ p', p.step host (.begins th.tid) = some p' ∧
    p'.takers c = [th.tid]) ∨ (th ∉ p.threads ∧ p.takers c = [th.tid])

theorem Owned.takenOnce {th : Created} (hI : Inv p) (h : Owned th c p) : TakenOnce host th c p := by
  cases h with
  | done hth _ hdead => exact .inr ⟨hth, hdead.takers⟩
  | waits hth hc hnone =>
    refine .inl ⟨hth, hnone, ?_⟩
    obtain ⟨heap, -, hs⟩ := begins_carries hc
    have hfind : p.threads.find? (·.tid = th.tid) = some th := by
      obtain ⟨u, hu⟩ := Option.isSome_iff_exists.1
        (List.find?_isSome.2 ⟨th, hth, decide_eq_true rfl⟩ :
          (p.threads.find? (·.tid = th.tid)).isSome)
      have htid : u.tid = th.tid := by simpa using List.find?_some hu
      rw [hu, hI.own u (List.mem_of_find?_eq_some hu) th hth (.inl htid)]
    refine ⟨_, by rw [Proc.step, hfind]; exact hs, ?_⟩
    rw [takers_append, if_pos rfl, hnone, List.nil_append]

/-! ## All or nothing -/

/-- A start in `p` that returned `r` and left `p'`, with `codes` the codes of the calls it made: it
    made one thread, with an attribute as wanted, which takes the closure; or it failed with one of
    the codes, and in every run that follows nobody takes what it allocated, all of which was freed
    once. -/
structure AllOrNothing {α : Type*} (host : Host) (codes : List Errno) (want : Attr → Prop)
    (p : Proc T) (r : Except Errno α) (p' : Proc T) : Prop where
  ok : ∀ x, r = .ok x → ∃ th c, p'.threads = p.threads ++ [th] ∧ want th.attr ∧
    p.heap.next ≤ c ∧ ∀ as q, (system T host).runFrom p' as = some q → TakenOnce host th c q
  err : ∀ e, r = .error e → e ≠ 0 ∧ e ∈ codes ∧ p'.threads = p.threads ∧
    ∀ i, p.heap.next ≤ i → i < p'.heap.next → p'.heap.freed.count i = 1 ∧
      ∀ as q, (system T host).runFrom p' as = some q → q.takers i = []

/-- The calls that `spawn_detached` makes, by their codes. -/
def detachedCalls (codes : Codes) : List Errno :=
  if codes.attrInit ≠ 0 then [codes.attrInit]
  else [codes.attrInit, codes.setStackSize, codes.setDetachState, codes.create]

/-- The calls that `Builder::spawn` makes, by their codes. -/
def builderCalls (codes : Codes) (bytes : ℕ) : List Errno :=
  codes.attrInit :: (if bytes ≠ 0 then [codes.setStackSize] else []) ++ [codes.create]

/-- `spawn_detached` does what it is for: a failure of `pthread_attr_init` is in `errno` by chance,
    and where a thread is created, the calls that nothing looks at have not failed, or had no
    effect to miss. -/
def DetachedWhole (host : Host) (codes : Codes) (bytes : ℕ) (errno : Errno) : Prop :=
  (codes.attrInit ≠ 0 → errno = codes.attrInit) ∧
  (codes.attrInit = 0 → codes.create = 0 →
    (codes.setStackSize = 0 ∨ bytes = host.default) ∧ codes.setDetachState = 0)

/-- So does `Builder::spawn`. -/
def BuilderWhole (host : Host) (codes : Codes) (bytes : ℕ) : Prop :=
  codes.create = 0 →
    if bytes = 0 then codes.attrInit = 0 ∨ host.zeroed = host.default
    else codes.setStackSize = 0 ∨ bytes = if codes.attrInit = 0 then host.default else host.zeroed

/-- What is discarded has been freed once, and nobody will take it. -/
theorem AllOrNothing.failed {α : Type*} {calls : List Errno} {want : Attr → Prop} {e : Errno}
    (hI : Inv p) (hheap : Discards p.heap heap) :
    AllOrNothing host calls want p (.error e : Except Errno α) { p with heap } ↔
      e ≠ 0 ∧ e ∈ calls := by
  refine ⟨fun h => ⟨(h.err e rfl).1, (h.err e rfl).2.1⟩, ?_⟩
  rintro ⟨he, hmem⟩
  refine ⟨fun x hx => (by cases hx), fun e' he' => ?_⟩
  cases he'
  refine ⟨he, hmem, rfl, fun i hi hlt => ⟨Heap.count_freed hlt (hheap.gone i hi), ?_⟩⟩
  intro as q hr
  have hI' : Inv { p with heap } := hI.step (.discards heap hheap rfl)
  have hdead : Dead i [] { p with heap } := ⟨hlt, hheap.gone i hi, hI.takers_nil hi⟩
  exact (Sts.runFrom_keeps (I := fun q => Inv q ∧ Dead i [] q)
    (fun hs ha => ⟨hs.1.step (step_cases hs.1 ha), hs.2.step (step_cases hs.1 ha)⟩)
    ⟨hI', hdead⟩ hr).2.takers

/-- What is left to a thread is taken by it. -/
theorem AllOrNothing.created {α : Type*} {calls : List Errno} {want : Attr → Prop} {x : α}
    {attr : Attr} (hI : Inv p) (hheap : Carrying p.heap heap raw f) :
    AllOrNothing host calls want p (.ok x : Except Errno α) (Proc.create { p with heap } attr raw) ↔
      want attr := by
  constructor
  · intro h
    obtain ⟨th, c, hthreads, hwant, -⟩ := h.ok x rfl
    obtain rfl := List.singleton_inj.1 (List.append_cancel_left hthreads)
    exact hwant
  · intro hwant
    refine ⟨fun y hy => ⟨_, f, rfl, hwant, hheap.new.2, fun as q hr => ?_⟩, fun e he => by cases he⟩
    have hI' : Inv (Proc.create { p with heap } attr raw) :=
      hI.step (.creates attr heap raw f hheap rfl)
    have howned : Owned ⟨p.tids, attr, raw⟩ f (Proc.create { p with heap } attr raw) :=
      .waits (by simp [Proc.create]) hheap.carries (hI.takers_nil hheap.new.2)
    obtain ⟨hIq, hq⟩ := Sts.runFrom_keeps (I := fun q => Inv q ∧ Owned ⟨p.tids, attr, raw⟩ f q)
      (fun hs ha => ⟨hs.1.step (step_cases hs.1 ha), hs.2.step hs.1 (step_cases hs.1 ha)⟩)
      ⟨hI', howned⟩ hr
    exact hq.takenOnce hIq

/-- **`spawn_detached` is all or nothing** exactly where `DetachedWhole`. -/
theorem detached_iff (hI : Inv p) (host : Host) (codes : Codes) (bytes : ℕ) (value : T) :
    ∃ r p', spawnDetached host codes bytes value p = some (r, p') ∧
      (AllOrNothing host (detachedCalls codes) (· = ⟨bytes, true⟩) p r p' ↔
        DetachedWhole host codes bytes p.errno) := by
  rcases spawnDetached_cases host codes bytes value p with
    ⟨hfail, heap, hheap, hs⟩ | ⟨hinit, hcreate, heap, raw, f, hheap, hs⟩
  · refine ⟨_, _, hs, (AllOrNothing.failed hI hheap).trans ?_⟩
    by_cases hinit : codes.attrInit = 0
    · have hcreate : codes.create ≠ 0 := hfail.resolve_left (not_not.2 hinit)
      simp [DetachedWhole, detachedCalls, hinit, hcreate]
    · have herrno : p.errno = codes.attrInit → p.errno ≠ 0 := fun heq => heq ▸ hinit
      simpa [DetachedWhole, detachedCalls, hinit] using herrno
  · refine ⟨_, _, hs, (AllOrNothing.created hI hheap).trans ?_⟩
    by_cases hsize : codes.setStackSize = 0 <;> by_cases hdetach : codes.setDetachState = 0 <;>
      simp [DetachedWhole, detachedAttr, Attr.init, Attr.setStackSize, Attr.setDetached, hinit,
        hcreate, hsize, hdetach, eq_comm]

/-- **`Builder::spawn` is all or nothing** exactly where `BuilderWhole`. -/
theorem builder_iff (hI : Inv p) (host : Host) (codes : Codes) (b : Builder) (value : T) :
    ∃ r p', b.spawn host codes value p = some (r, p') ∧
      (AllOrNothing host (builderCalls codes b.stackBytes)
          (·.stackSize = if b.stackBytes = 0 then host.default else b.stackBytes) p r p' ↔
        BuilderWhole host codes b.stackBytes) := by
  rcases b.spawn_cases host codes value p with
    ⟨hcreate, heap, hheap, hs⟩ | ⟨hcreate, heap, raw, f, handle, hheap, hs⟩
  · refine ⟨_, _, hs, (AllOrNothing.failed hI hheap).trans ?_⟩
    simp [BuilderWhole, builderCalls, hcreate]
  · refine ⟨_, _, hs, (AllOrNothing.created hI hheap).trans ?_⟩
    by_cases hzero : b.stackBytes = 0 <;> by_cases hinit : codes.attrInit = 0 <;>
      by_cases hsize : codes.setStackSize = 0 <;>
      simp [BuilderWhole, builderAttr, Attr.init, Attr.setStackSize, Attr.zeroed, hcreate, hzero,
        hinit, hsize, eq_comm]

/-- **When a start is all or nothing**, in any process that starts threads in these two ways. -/
theorem start_all_or_nothing (host : Host) {as : List (Act T)} {p : Proc T}
    (hr : (system T host).run as = some p) (codes : Codes) (value : T) :
    (∀ bytes, ∃ r p', spawnDetached host codes bytes value p = some (r, p') ∧
      (AllOrNothing host (detachedCalls codes) (· = ⟨bytes, true⟩) p r p' ↔
        DetachedWhole host codes bytes p.errno)) ∧
    ∀ b : Builder, ∃ r p', b.spawn host codes value p = some (r, p') ∧
      (AllOrNothing host (builderCalls codes b.stackBytes)
          (·.stackSize = if b.stackBytes = 0 then host.default else b.stackBytes) p r p' ↔
        BuilderWhole host codes b.stackBytes) := by
  have hI : Inv p := (Inv.inductive T host).run hr
  exact ⟨fun bytes => detached_iff hI host codes bytes value,
    fun b => builder_iff hI host codes b value⟩

/-- A system with stacks of eight megabytes. -/
def eightMegabytes : Host := ⟨8388608, 0⟩

/-- Sixteen megabytes, and no failure. -/
theorem start_all_or_nothing_calm : DetachedWhole eightMegabytes ⟨0, 0, 0, 0⟩ 16777216 0 ∧
    ∃ r p', spawnDetached eightMegabytes ⟨0, 0, 0, 0⟩ 16777216 () (Proc.init Unit) = some (r, p') ∧
      (AllOrNothing eightMegabytes (detachedCalls ⟨0, 0, 0, 0⟩) (· = ⟨16777216, true⟩)
          (Proc.init Unit) r p' ↔
        DetachedWhole eightMegabytes ⟨0, 0, 0, 0⟩ 16777216 (Proc.init Unit).errno) :=
  ⟨by simp [DetachedWhole], (start_all_or_nothing eightMegabytes
    (Sts.run_nil (system Unit eightMegabytes)) ⟨0, 0, 0, 0⟩ ()).1 16777216⟩

/-- `stack_size(1)`: `pthread_attr_setstacksize` fails with `EINVAL`, and the thread is started with
    the stack that it would have had anyway. -/
theorem start_size_ignored : ∃ p', Builder.spawn ⟨1⟩ eightMegabytes ⟨0, Errno.EINVAL, 0, 0⟩ ()
      (Proc.init Unit) = some (.ok ⟨1, 0⟩, p') ∧
    p'.threads.map (·.attr.stackSize) = [8388608] ∧
    ¬ AllOrNothing eightMegabytes (builderCalls ⟨0, Errno.EINVAL, 0, 0⟩ 1) (·.stackSize = 1)
      (Proc.init Unit) (.ok (⟨1, 0⟩ : JoinHandle)) p' := by
  refine ⟨_, rfl, rfl, fun h => ?_⟩
  obtain ⟨th, c, hthreads, hsize, -⟩ := h.ok _ rfl
  obtain rfl := List.singleton_inj.1 hthreads
  cases hsize

end Ekostd.Thread.Start
