/-
  `ThreadLocal` — the values: each call sees its own thread's.

  * `ValueInv`: the box in a slot is of the slot's thread and of the object
    whose key it is, and holds what the thread left there last; a call that
    makes the first value has a null slot before it;
  * `ValueInv.inductive`: kept by every step, with the invariant of the keys;
  * `isolated`: what every reachable state has of both.
-/
import Ekostd.Thread.ThreadLocal.Keys

namespace Ekostd.Thread.ThreadLocal

variable {ι ο V : Type*} {s : State ι ο V} {t : ι} {o : ο} {k : Key} {p : Ptr}
  {frames below : List (ο × Pc)} {pc : Pc}

/-! ## What a store changes -/

namespace State

variable [DecidableEq ι] {u : ι} {k' : Key} {v : V}

@[simp] theorem store_slot_self : (s.store t k p).slot t k = some p := by
  simp [store]

theorem store_slot_of_ne (h : ¬(u = t ∧ k' = k)) : (s.store t k p).slot u k' = s.slot u k' := by
  by_cases hut : u = t
  · subst hut
    simp [store, Function.update_of_ne fun hk => h ⟨rfl, hk⟩]
  · simp [store, Function.update_of_ne hut]

@[simp] theorem store_heap : (s.store t k p).heap = s.heap := rfl

variable [DecidableEq ο] {o' : ο}

theorem leave_last_of_ne (h : ¬(u = t ∧ o' = o)) : (s.leave t o p v).last u o' = s.last u o' := by
  by_cases hut : u = t
  · subst hut
    simp [leave, Function.update_of_ne fun ho => h ⟨rfl, ho⟩]
  · simp [leave, Function.update_of_ne hut]

theorem leave_heap_eq (h : s.heap p = some ⟨v, t, o⟩) : (s.leave t o p v).heap = s.heap := by
  rw [← Function.update_eq_self p s.heap, h]
  simp [leave]

end State

/-! ## The invariant -/

/-- Whether a call is making the first value of its thread. -/
def Pc.making : Pc → Bool
  | init _ | set _ _ => true
  | _ => false

/-- What a call knows of the slot of its key. -/
def State.Fits (s : State ι ο V) (t : ι) (fr : ο × Pc) : Prop :=
  match fr.2 with
  | .init k => s.slot t k = none
  | .set k p => s.slot t k = none ∧ ∃ v, s.heap p = some ⟨v, t, fr.1⟩
  | .run k p => s.slot t k = some p
  | _ => True

/-- The invariant of the values. -/
structure ValueInv (s : State ι ο V) : Prop where
  slot : ∀ t k p, s.slot t k = some p →
    ∃ o v, s.word o = k + 1 ∧ s.heap p = some ⟨v, t, o⟩ ∧ s.last t o = some v
  last : ∀ t o v, s.last t o = some v → ∃ k p, s.word o = k + 1 ∧ s.slot t k = some p
  fits : ∀ t, ∀ fr ∈ s.stack t, s.Fits t fr
  inits : ∀ t o, s.inits t o = 0 ∨ s.inits t o = 1 ∧
    ((s.last t o).isSome = true ∨ ∃ fr ∈ s.stack t, fr.1 = o ∧ fr.2.making = true)

theorem KeyInv.word_inj (h : KeyInv s) {o' : ο} (ho : s.word o = k + 1) (ho' : s.word o' = k + 1) :
    o = o' := by
  have hkey := (h.word o k).1 ho
  rw [(h.word o' k).1 ho'] at hkey
  cases hkey
  rfl

theorem ValueInv.owns (hv : ValueInv s) (hk : KeyInv s) (hslot : s.slot t k = some p)
    (hword : s.word o = k + 1) : ∃ v, s.heap p = some ⟨v, t, o⟩ ∧ s.last t o = some v := by
  obtain ⟨o', v, hword', hheap, hlast⟩ := hv.slot t k p hslot
  obtain rfl := hk.word_inj hword hword'
  exact ⟨v, hheap, hlast⟩

theorem ValueInv.slot_eq_none (hv : ValueInv s) (hk : KeyInv s) (hkey : ∀ o, s.key k ≠ .published o)
    (t : ι) : s.slot t k = none := by
  cases hslot : s.slot t k with
  | none => rfl
  | some p =>
    obtain ⟨o, v, hword, -⟩ := hv.slot t k p hslot
    exact absurd ((hk.word o k).1 hword) (hkey o)

theorem ValueInv.fits_below (hv : ValueInv s) (hstack : s.stack t = (o, pc) :: below) :
    s.Fits t (o, pc) ∧ ∀ fr ∈ below, s.Fits t fr := by
  have h := hv.fits t
  rw [hstack, List.forall_mem_cons] at h
  exact h

/-- No other call of its thread is making a value of the object of the innermost one. -/
theorem KeyInv.not_making_below (hk : KeyInv s) (hstack : s.stack t = (o, pc) :: below) :
    ∀ fr ∈ below, fr.1 = o → fr.2.making = false := by
  have hnested := hk.nested t
  rw [hstack] at hnested
  rintro ⟨o', pc'⟩ hfr ho
  have hclosure := hnested.1 _ hfr
  cases pc' with
  | init k => exact absurd ho (hclosure.2 rfl)
  | set k p => cases hclosure.1
  | _ => rfl

/-! ## The steps -/

section

variable [DecidableEq ι]

/-- A call that is making a value goes on to, or another one does. -/
theorem State.making_goto {s₁ : State ι ο V} {u : ι} {o' : ο} (hstack : s₁.stack = s.stack)
    (hmaking : u = t → ∀ fr ∈ s.stack t, fr.1 = o' → fr.2.making = true →
      ∃ fr' ∈ frames, fr'.1 = o' ∧ fr'.2.making = true)
    (h : ∃ fr ∈ s.stack u, fr.1 = o' ∧ fr.2.making = true) :
    ∃ fr ∈ (s₁.goto t frames).stack u, fr.1 = o' ∧ fr.2.making = true := by
  obtain ⟨fr, hfr, ho, hmake⟩ := h
  by_cases hut : u = t
  · subst hut
    rw [State.goto_stack_self]
    exact hmaking rfl fr hfr ho hmake
  · refine ⟨fr, ?_, ho, hmake⟩
    rwa [State.goto_stack_of_ne s₁ hut, hstack]

/-- The calls of one thread become `frames`, and no slot, box or value changes. -/
theorem ValueInv.of_goto {s₁ : State ι ο V} (h : ValueInv s) (hstack : s₁.stack = s.stack)
    (hslot : s₁.slot = s.slot) (hheap : s₁.heap = s.heap) (hlast : s₁.last = s.last)
    (hinits : s₁.inits = s.inits) (hmono : ∀ o k, s.word o = k + 1 → s₁.word o = k + 1)
    (hfits : ∀ fr ∈ frames, s.Fits t fr)
    (hmaking : ∀ fr ∈ s.stack t, fr.2.making = true → fr ∈ frames) :
    ValueInv (s₁.goto t frames) := by
  have hsame : ∀ u fr, (s₁.goto t frames).Fits u fr ↔ s.Fits u fr := by
    intro u fr
    simp only [State.Fits, State.goto, hslot, hheap]
  refine ⟨?_, ?_, ?_, ?_⟩
  · intro u k p hp
    obtain ⟨o, v, hword, hbox, hv⟩ := h.slot u k p (hslot ▸ hp)
    exact ⟨o, v, hmono o k hword, hheap.symm ▸ hbox, hlast.symm ▸ hv⟩
  · intro u o v hv
    obtain ⟨k, p, hword, hp⟩ := h.last u o v (hlast ▸ hv)
    exact ⟨k, p, hmono o k hword, hslot.symm ▸ hp⟩
  · refine State.forall_goto hstack ?_ ?_
    · exact fun fr hfr => (hsame t fr).2 (hfits fr hfr)
    · exact fun u _ fr hfr => (hsame u fr).2 (h.fits u fr hfr)
  · intro u o
    show s₁.inits u o = 0 ∨ s₁.inits u o = 1 ∧ ((s₁.last u o).isSome = true ∨ _)
    rw [hinits, hlast]
    refine (h.inits u o).imp_right (And.imp_right (Or.imp_right (State.making_goto hstack ?_)))
    intro _ fr hfr ho hmake
    exact ⟨fr, hmaking fr hfr hmake, ho, hmake⟩

theorem ValueInv.advance {s₁ : State ι ο V} {pc' : Pc} (h : ValueInv s)
    (hstack : s.stack t = (o, pc) :: below) (hstack₁ : s₁.stack = s.stack)
    (hslot : s₁.slot = s.slot) (hheap : s₁.heap = s.heap) (hlast : s₁.last = s.last)
    (hinits : s₁.inits = s.inits) (hmono : ∀ o k, s.word o = k + 1 → s₁.word o = k + 1)
    (hmaking : pc.making = false) (hfits : s.Fits t (o, pc')) :
    ValueInv (s₁.goto t ((o, pc') :: below)) := by
  refine h.of_goto hstack₁ hslot hheap hlast hinits hmono ?_ ?_
  · exact List.forall_mem_cons.2 ⟨hfits, (h.fits_below hstack).2⟩
  · intro fr hfr hmake
    rw [hstack] at hfr
    rcases List.mem_cons.1 hfr with rfl | hfr
    · rw [hmaking] at hmake
      cases hmake
    · exact List.mem_cons_of_mem _ hfr

theorem ValueInv.ret (h : ValueInv s) (hstack : s.stack t = (o, pc) :: below)
    (hmaking : pc.making = false) : ValueInv (s.goto t below) := by
  refine h.of_goto rfl rfl rfl rfl rfl (fun _ _ hk => hk) (h.fits_below hstack).2 ?_
  intro fr hfr hmake
  rw [hstack] at hfr
  rcases List.mem_cons.1 hfr with rfl | hfr
  · rw [hmaking] at hmake
    cases hmake
  · exact hfr

theorem ValueInv.box (hv : ValueInv s) (hstack : s.stack t = (o, .init k) :: below)
    (hheap : s.heap p = none) (v : V) :
    ValueInv ({ s with heap := Function.update s.heap p (some ⟨v, t, o⟩) }.goto t
      ((o, .set k p) :: below)) := by
  have hother : ∀ q box, s.heap q = some box →
      Function.update s.heap p (some ⟨v, t, o⟩) q = some box := by
    intro q box hq
    rw [Function.update_of_ne, hq]
    rintro rfl
    rw [hheap] at hq
    cases hq
  have hmono : ∀ u fr, s.Fits u fr →
      ({ s with heap := Function.update s.heap p (some ⟨v, t, o⟩) } : State ι ο V).Fits u fr := by
    rintro u ⟨o', pc⟩ hfit
    cases pc with
    | set k' q =>
      obtain ⟨hslot, v', hq⟩ := hfit
      exact ⟨hslot, v', hother q _ hq⟩
    | _ => exact hfit
  have hfits := hv.fits_below hstack
  refine ⟨?_, hv.last, ?_, ?_⟩
  · intro u k' q hq
    obtain ⟨o', v', hword, hbox, hlast⟩ := hv.slot u k' q hq
    exact ⟨o', v', hword, hother q _ hbox, hlast⟩
  · refine State.forall_goto rfl ?_ fun u _ fr hfr => hmono u fr (hv.fits u fr hfr)
    intro fr hfr
    rcases List.mem_cons.1 hfr with rfl | hfr
    · exact ⟨hfits.1, v, Function.update_self ..⟩
    · exact hmono t fr (hfits.2 fr hfr)
  · intro u o'
    refine (hv.inits u o').imp_right (And.imp_right (Or.imp_right (State.making_goto rfl ?_)))
    intro _ fr hfr ho hmake
    rw [hstack] at hfr
    rcases List.mem_cons.1 hfr with rfl | hfr
    · exact ⟨(o, .set k p), List.mem_cons_self, ho, rfl⟩
    · exact ⟨fr, List.mem_cons_of_mem _ hfr, ho, hmake⟩

end

variable [DecidableEq ι] [DecidableEq ο]

theorem ValueInv.beginInit (hv : ValueInv s) (hk : KeyInv s)
    (hstack : s.stack t = (o, .get k) :: below) (hslot : s.slot t k = none) :
    ValueInv (((s.read o k).beginInit t o).goto t ((o, .init k) :: below)) := by
  have hword := hk.word_eq hstack rfl
  have hlast : s.last t o = none := by
    cases hlast : s.last t o with
    | none => rfl
    | some v =>
      obtain ⟨k', p, hword', hp⟩ := hv.last t o v hlast
      obtain rfl := Nat.succ.inj (hword.symm.trans hword')
      rw [hslot] at hp
      cases hp
  have hzero : s.inits t o = 0 := by
    rcases hv.inits t o with h | ⟨-, h | ⟨fr, hfr, ho, hmake⟩⟩
    · exact h
    · rw [hlast] at h
      cases h
    · rw [hstack] at hfr
      rcases List.mem_cons.1 hfr with rfl | hfr
      · cases hmake
      · rw [hk.not_making_below hstack fr hfr ho] at hmake
        cases hmake
  have hgoto : ValueInv ((s.read o k).goto t ((o, .init k) :: below)) :=
    hv.advance hstack rfl rfl rfl rfl rfl (fun _ _ hk => hk) rfl hslot
  refine ⟨hgoto.slot, hgoto.last, hgoto.fits, ?_⟩
  intro u o'
  by_cases hself : u = t ∧ o' = o
  · obtain ⟨rfl, rfl⟩ := hself
    refine Or.inr ⟨?_, Or.inr ⟨(o', .init k), ?_, rfl, rfl⟩⟩
    · simp [State.goto, State.beginInit, State.read, hzero]
    · rw [State.goto_stack_self]
      exact List.mem_cons_self
  · have hinits : (((s.read o k).beginInit t o).goto t ((o, .init k) :: below)).inits u o' =
        ((s.read o k).goto t ((o, .init k) :: below)).inits u o' := by
      show Function.update s.inits t _ u o' = s.inits u o'
      by_cases hut : u = t
      · subst hut
        rw [Function.update_self, Function.update_of_ne fun ho => hself ⟨rfl, ho⟩]
        rfl
      · rw [Function.update_of_ne hut]
    rw [hinits]
    exact hgoto.inits u o'

theorem ValueInv.leave (hv : ValueInv s) (hk : KeyInv s) (hslot : s.slot t k = some p)
    (hword : s.word o = k + 1) (v : V) : ValueInv (s.leave t o p v) := by
  obtain ⟨v₀, hbox, -⟩ := hv.owns hk hslot hword
  refine ⟨?_, ?_, ?_, ?_⟩
  · intro u k' q hq
    obtain ⟨o', v', hword', hbox', hlast'⟩ := hv.slot u k' q hq
    by_cases hqp : q = p
    · subst hqp
      rw [hbox] at hbox'
      obtain ⟨rfl, rfl, rfl⟩ : v₀ = v' ∧ t = u ∧ o = o' := by simpa using hbox'
      exact ⟨o, v, hword', by simp [State.leave], by simp [State.leave]⟩
    · refine ⟨o', v', hword', (Function.update_of_ne hqp _ _).trans hbox', ?_⟩
      show Function.update s.last t _ u o' = some v'
      by_cases hut : u = t
      · subst hut
        have ho : o' ≠ o := by
          rintro rfl
          obtain rfl := Nat.succ.inj (hword.symm.trans hword')
          exact hqp (Option.some.inj (hq.symm.trans hslot))
        rwa [Function.update_self, Function.update_of_ne ho]
      · rwa [Function.update_of_ne hut]
  · intro u o' v' hlast'
    by_cases hself : u = t ∧ o' = o
    · obtain ⟨rfl, rfl⟩ := hself
      exact ⟨k, p, hword, hslot⟩
    · refine hv.last u o' v' ?_
      rwa [State.leave_last_of_ne hself] at hlast'
  · rintro u ⟨o', pc'⟩ hfr
    have hfit := hv.fits u _ hfr
    cases pc' with
    | set k' q =>
      obtain ⟨hnone, v', hq⟩ := hfit
      refine ⟨hnone, ?_⟩
      by_cases hqp : q = p
      · subst hqp
        rw [hbox] at hq
        obtain ⟨rfl, rfl, rfl⟩ : v₀ = v' ∧ t = u ∧ o = o' := by simpa using hq
        exact ⟨v, by simp [State.leave]⟩
      · exact ⟨v', (Function.update_of_ne hqp _ _).trans hq⟩
    | _ => exact hfit
  · intro u o'
    refine (hv.inits u o').imp_right (And.imp_right (Or.imp_left ?_))
    intro hlast'
    by_cases hself : u = t ∧ o' = o
    · obtain ⟨rfl, rfl⟩ := hself
      simp [State.leave]
    · rwa [State.leave_last_of_ne hself]

/-- The first value of a thread is stored: its call, and the others, know of their slots. -/
theorem ValueInv.fits_store (hv : ValueInv s) (hk : KeyInv s)
    (hstack : s.stack t = (o, .set k p) :: below) {v : V} (hbox : s.heap p = some ⟨v, t, o⟩) :
    ∀ u, ∀ fr ∈ s.stack u, ¬(u = t ∧ fr = (o, .set k p)) →
      ((s.leave t o p v).store t k p).Fits u fr := by
  have hword := hk.word_eq hstack rfl
  have hnone : s.slot t k = none := (hv.fits_below hstack).1.1
  rintro u ⟨o', pc'⟩ hfr hne
  have hfit := hv.fits u _ hfr
  have huses := hk.uses u _ hfr
  -- Another call that is making a value does it for another slot.
  have hmake : pc'.making = true → pc'.uses = some k → ¬(u = t) := by
    rintro hmake hk' rfl
    obtain rfl := hk.word_inj (huses k hk') hword
    rw [hstack] at hfr
    rcases List.mem_cons.1 hfr with heq | hfr
    · exact hne ⟨rfl, heq⟩
    · rw [hk.not_making_below hstack _ hfr rfl] at hmake
      cases hmake
  cases pc' with
  | run k' q =>
    have hq : s.slot u k' = some q := hfit
    refine (State.store_slot_of_ne ?_).trans hq
    rintro ⟨rfl, rfl⟩
    rw [hnone] at hq
    cases hq
  | init k' =>
    refine (State.store_slot_of_ne ?_).trans hfit
    rintro ⟨rfl, rfl⟩
    exact hmake rfl rfl rfl
  | set k' q =>
    obtain ⟨hnone', v', hq⟩ := hfit
    refine ⟨(State.store_slot_of_ne ?_).trans hnone', v', ?_⟩
    · rintro ⟨rfl, rfl⟩
      exact hmake rfl rfl rfl
    · rw [State.store_heap, State.leave_heap_eq hbox]
      exact hq
  | _ => trivial

theorem ValueInv.set (hv : ValueInv s) (hk : KeyInv s)
    (hstack : s.stack t = (o, .set k p) :: below) {box : Box ι ο V} (hbox : s.heap p = some box) :
    ValueInv (((s.leave t o p box.value).store t k p).goto t ((o, .run k p) :: below)) := by
  have hword := hk.word_eq hstack rfl
  obtain ⟨-, v, hp⟩ := (hv.fits_below hstack).1
  obtain rfl : ⟨v, t, o⟩ = box := Option.some.inj (hp.symm.trans hbox)
  have hfits := hv.fits_store hk hstack hbox
  refine ⟨?_, ?_, ?_, ?_⟩
  · intro u k' q hq
    show ∃ o' v', s.word o' = k' + 1 ∧ (s.leave t o p v).heap q = some ⟨v', u, o'⟩ ∧
      (s.leave t o p v).last u o' = some v'
    rw [State.leave_heap_eq hbox]
    by_cases hthis : u = t ∧ k' = k
    · obtain ⟨rfl, rfl⟩ := hthis
      obtain rfl := Option.some.inj (State.store_slot_self.symm.trans hq)
      exact ⟨o, v, hword, hp, by simp [State.leave]⟩
    · obtain ⟨o', v', hword', hbox', hlast'⟩ :=
        hv.slot u k' q ((State.store_slot_of_ne hthis).symm.trans hq)
      refine ⟨o', v', hword', hbox', ?_⟩
      rw [State.leave_last_of_ne, hlast']
      rintro ⟨rfl, rfl⟩
      exact hthis ⟨rfl, Nat.succ.inj (hword'.symm.trans hword)⟩
  · intro u o' v' hlast'
    by_cases hthis : u = t ∧ o' = o
    · obtain ⟨rfl, rfl⟩ := hthis
      exact ⟨k, p, hword, State.store_slot_self⟩
    · have hlast : (s.leave t o p v).last u o' = some v' := hlast'
      rw [State.leave_last_of_ne hthis] at hlast
      obtain ⟨k', q, hword', hq⟩ := hv.last u o' v' hlast
      refine ⟨k', q, hword', (State.store_slot_of_ne ?_).trans hq⟩
      rintro ⟨rfl, rfl⟩
      exact hthis ⟨rfl, hk.word_inj hword' hword⟩
  · refine State.forall_goto rfl ?_ fun u hut fr hfr => hfits u fr hfr fun h => hut h.1
    intro fr hfr
    rcases List.mem_cons.1 hfr with rfl | hfr
    · exact State.store_slot_self
    · refine hfits t fr (by rw [hstack]; exact List.mem_cons_of_mem _ hfr) ?_
      rintro ⟨-, rfl⟩
      have hmake := hk.not_making_below hstack _ hfr rfl
      cases hmake
  · intro u o'
    by_cases hthis : u = t ∧ o' = o
    · obtain ⟨rfl, rfl⟩ := hthis
      refine (hv.inits u o').imp_right (And.imp_right fun _ => Or.inl ?_)
      simp [State.goto, State.store, State.leave]
    · refine (hv.inits u o').imp_right (And.imp_right (Or.imp ?_ ?_))
      · intro hlast'
        show ((s.leave t o p v).last u o').isSome = true
        rw [State.leave_last_of_ne hthis]
        exact hlast'
      · refine State.making_goto rfl ?_
        intro hut fr hfr ho hmake
        rw [hstack] at hfr
        rcases List.mem_cons.1 hfr with rfl | hfr
        · exact absurd ⟨hut, ho.symm⟩ hthis
        · exact ⟨fr, List.mem_cons_of_mem _ hfr, ho, hmake⟩

/-- **The values**: every step keeps whose they are. -/
theorem ValueInv.inductive : (system ι ο V).Inductive fun s => KeyInv s ∧ ValueInv s where
  init := ⟨KeyInv.inductive.init, by simp [system], by simp [system], by simp [system],
    by simp [system]⟩
  step {s a s'} h hstep := by
    obtain ⟨hk, hv⟩ := h
    refine ⟨KeyInv.inductive.step hk hstep, ?_⟩
    cases step_cases hstep with
    | call t o hmay hs' =>
      rw [hs']
      refine hv.of_goto rfl rfl rfl rfl rfl (fun _ _ hk => hk) ?_ ?_
      · exact List.forall_mem_cons.2 ⟨trivial, hv.fits t⟩
      · exact fun fr hfr _ => List.mem_cons_of_mem _ hfr
    | noKey t o below hstack hs' => exact hs' ▸ hv.ret hstack rfl
    | create t o below k hstack hdead hs' =>
      have hslots : (s.create t o k).slot = s.slot := by
        have hnone := hv.slot_eq_none hk (k := k) (by simp [hdead])
        funext u
        rw [← Function.update_eq_self k (s.slot u), hnone u]
        rfl
      rw [hs']
      exact hv.advance hstack rfl hslots rfl rfl rfl (fun _ _ hk => hk) rfl trivial
    | loadZero t o below hstack hword hs' | load t o below k hstack hword hs'
    | lose t o below k theirs hstack hword hs' | delete t o below k theirs hstack hs' =>
      exact hs' ▸ hv.advance hstack rfl rfl rfl rfl rfl (fun _ _ hk => hk) rfl trivial
    | publish t o below k hstack hword hs' =>
      rw [hs']
      refine hv.advance hstack rfl rfl rfl rfl rfl ?_ rfl trivial
      intro o' k' hk'
      refine (Function.update_of_ne ?_ _ _).trans hk'
      rintro rfl
      rw [hword] at hk'
      cases hk'
    | get t o below k p hstack hslot hs' =>
      exact hs' ▸ hv.advance hstack rfl rfl rfl rfl rfl (fun _ _ hk => hk) rfl hslot
    | getNull t o below k hstack hslot hs' => exact hs' ▸ hv.beginInit hk hstack hslot
    | init t o below k v p hstack hheap hs' => exact hs' ▸ hv.box hstack hheap v
    | set t o below k p box hstack hbox hs' => exact hs' ▸ hv.set hk hstack hbox
    | write t o below k p v hstack hs' =>
      have hslot : s.slot t k = some p := (hv.fits_below hstack).1
      exact hs' ▸ hv.leave hk hslot (hk.word_eq hstack rfl) v
    | ret t o below k p hstack hs' => exact hs' ▸ hv.ret hstack rfl

/-! ## Isolation -/

/-- The keys that are an object's: the one in its word, and those that calls created for it and
    have not yet published or deleted. -/
def State.HasKey (s : State ι ο V) (o : ο) (k : Key) : Prop :=
  s.word o = k + 1 ∨ ∃ t, held (s.stack t) = some (o, k)

/-- What the calls of `with` have of the keys and of the values.

    * `sameKey`: all that have used a key of an object used the one in its word;
    * `live`: so do those that are past `key`, and it is live;
    * `deleted`: a live key is in the word of its object, or a call that created it is about to
      publish or to delete it;
    * `unshared`: no key is two objects';
    * `once`: an initialiser has run at most once on each thread;
    * `sees`: a closure has the box with the last value that its thread left in its object. -/
structure Isolated (s : State ι ο V) : Prop where
  sameKey : ∀ o, ∀ k ∈ s.used o, s.word o = k + 1
  live : ∀ t, ∀ fr ∈ s.stack t, ∀ k, fr.2.uses = some k →
    s.word fr.1 = k + 1 ∧ s.key k = .published fr.1
  deleted : ∀ k, s.key k ≠ .dead → ∃ o, s.HasKey o k
  unshared : ∀ o o' k, s.HasKey o k → s.HasKey o' k → o = o'
  once : ∀ t o, s.inits t o ≤ 1
  sees : ∀ t o k p, (o, .run k p) ∈ s.stack t →
    ∃ v, s.heap p = some ⟨v, t, o⟩ ∧ s.last t o = some v

omit [DecidableEq ι] [DecidableEq ο] in
theorem KeyInv.key_of_hasKey (hk : KeyInv s) (h : s.HasKey o k) :
    s.key k = .published o ∨ ∃ t, s.key k = .created t o := by
  rcases h with hword | ⟨t, hheld⟩
  · exact Or.inl ((hk.word o k).1 hword)
  · exact Or.inr ⟨t, (hk.created t o k).2 hheld⟩

/-- **Keys and isolation**: in every state that the threads reach, in whatever order they call
    `with` and their calls go on, the keys of the objects are their own, and each thread has in
    each object a value of its own. -/
theorem isolated {as : List (Act ι ο V)} {s : State ι ο V}
    (h : (system ι ο V).run as = some s) : Isolated s := by
  obtain ⟨hk, hv⟩ := ValueInv.inductive.run h
  refine ⟨hk.used, ?_, ?_, ?_, ?_, ?_⟩
  · intro t fr hfr k huses
    have hword := hk.uses t fr hfr k huses
    exact ⟨hword, (hk.word fr.1 k).1 hword⟩
  · intro k hlive
    cases hkey : s.key k with
    | dead => exact absurd hkey hlive
    | created t o => exact ⟨o, Or.inr ⟨t, (hk.created t o k).1 hkey⟩⟩
    | published o => exact ⟨o, Or.inl ((hk.word o k).2 hkey)⟩
  · intro o o' k ho ho'
    rcases hk.key_of_hasKey ho with hkey | ⟨t, hkey⟩
    · rcases hk.key_of_hasKey ho' with hkey' | ⟨t', hkey'⟩
      · exact Status.published.inj (hkey.symm.trans hkey')
      · rw [hkey] at hkey'
        cases hkey'
    · rcases hk.key_of_hasKey ho' with hkey' | ⟨t', hkey'⟩
      · rw [hkey] at hkey'
        cases hkey'
      · exact (Status.created.inj (hkey.symm.trans hkey')).2
  · intro t o
    rcases hv.inits t o with h | ⟨h, -⟩
    · exact h.trans_le (Nat.zero_le 1)
    · exact h.le
  · intro t o k p hfr
    exact hv.owns hk (hv.fits t _ hfr) (hk.uses t _ hfr k rfl)

/-- Two threads race to the first use of one object, and the loser's key becomes the other
    object's. -/
theorem isolated_race :
    ∃ s : State Bool Bool ℕ, (system Bool Bool ℕ).run
      [.call true true, .call false true, .step true, .step false, .create true (some 0),
        .create false (some 1), .step true, .step false, .step false, .step true,
        .init true 5 10, .step true, .write true 6, .step false, .init false 7 11, .step false,
        .call false false, .step false, .create false (some 1), .step false, .step false,
        .init false 8 12, .step false] = some s ∧
      s.stack true = [(true, .run 0 10)] ∧
      s.stack false = [(false, .run 1 12), (true, .run 0 11)] ∧ Isolated s := by
  obtain ⟨s, hs, htrue, hfalse⟩ : ∃ s : State Bool Bool ℕ, (system Bool Bool ℕ).run
      [.call true true, .call false true, .step true, .step false, .create true (some 0),
        .create false (some 1), .step true, .step false, .step false, .step true,
        .init true 5 10, .step true, .write true 6, .step false, .init false 7 11, .step false,
        .call false false, .step false, .create false (some 1), .step false, .step false,
        .init false 8 12, .step false] = some s ∧
      s.stack true = [(true, .run 0 10)] ∧
      s.stack false = [(false, .run 1 12), (true, .run 0 11)] :=
    ⟨_, rfl, rfl, rfl⟩
  exact ⟨s, hs, htrue, hfalse, isolated hs⟩

end Ekostd.Thread.ThreadLocal
