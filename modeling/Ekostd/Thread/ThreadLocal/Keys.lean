/-
  `ThreadLocal` — the keys: who a live key belongs to.

  * `KeyInv`: a word holds the key that is published in its object; a key that
    was created and not published is in the hands of one call, which will
    publish or delete it; and every call past `key` has the published one;
  * `KeyInv.inductive`: kept by every step.
-/
import Ekostd.Thread.ThreadLocal.Model

namespace Ekostd.Thread.ThreadLocal

variable {ι ο V : Type*} {s s' : State ι ο V} {t : ι} {o : ο}
  {k theirs : Key} {frames below : List (ο × Pc)} {pc : Pc}

/-- The key that a call goes on to use. -/
def Pc.uses : Pc → Option Key
  | delete _ key | get key | init key | set key _ | run key _ => some key
  | _ => none

/-- The key that a call has created and not published. -/
def Pc.holds : Pc → Option Key
  | publish created | delete created _ => some created
  | _ => none

/-- The key that a thread has created and not published, and its object. -/
def held : List (ο × Pc) → Option (ο × Key)
  | (o, pc) :: _ => pc.holds.map fun k => (o, k)
  | [] => none

/-- Below a call only closures are running, and no initialiser of its object. -/
def Nested : List (ο × Pc) → Prop
  | [] => True
  | fr :: below =>
    (∀ g ∈ below, g.2.inClosure = true ∧ (g.2.inInit = true → g.1 ≠ fr.1)) ∧ Nested below

/-- The invariant of the keys. -/
structure KeyInv (s : State ι ο V) : Prop where
  word : ∀ o k, s.word o = k + 1 ↔ s.key k = .published o
  created : ∀ t o k, s.key k = .created t o ↔ held (s.stack t) = some (o, k)
  uses : ∀ t, ∀ fr ∈ s.stack t, ∀ k, fr.2.uses = some k → s.word fr.1 = k + 1
  used : ∀ o, ∀ k ∈ s.used o, s.word o = k + 1
  nested : ∀ t, Nested (s.stack t)

theorem Pc.holds_of_inClosure (h : pc.inClosure = true) : pc.holds = none := by
  cases pc <;> first | rfl | cases h

theorem held_below (h : Nested ((o, pc) :: below)) : held below = none := by
  cases below with
  | nil => rfl
  | cons fr below =>
    have hfr := (h.1 fr List.mem_cons_self).1
    rw [held, Pc.holds_of_inClosure hfr, Option.map_none]

theorem Nested.replace {pc' : Pc} (h : Nested ((o, pc) :: below)) : Nested ((o, pc') :: below) :=
  ⟨h.1, h.2⟩

/-! ## The steps -/

/-- The invariant says nothing of the slots, the boxes and the values. -/
theorem KeyInv.congr (h : KeyInv s) (hword : s'.word = s.word) (hkey : s'.key = s.key)
    (hstack : s'.stack = s.stack) (hused : s'.used = s.used) : KeyInv s' := by
  constructor
  · simpa only [hword, hkey] using h.word
  · simpa only [hkey, hstack] using h.created
  · simpa only [hword, hstack] using h.uses
  · simpa only [hword, hused] using h.used
  · simpa only [hstack] using h.nested

theorem KeyInv.word_eq (h : KeyInv s) (hstack : s.stack t = (o, pc) :: below)
    (huses : pc.uses = some k) : s.word o = k + 1 :=
  h.uses t (o, pc) (by rw [hstack]; exact List.mem_cons_self) k huses

theorem KeyInv.uses_below (h : KeyInv s) (hstack : s.stack t = (o, pc) :: below) :
    ∀ fr ∈ below, ∀ k, fr.2.uses = some k → s.word fr.1 = k + 1 := by
  intro fr hfr
  refine h.uses t fr ?_
  rw [hstack]
  exact List.mem_cons_of_mem _ hfr

theorem KeyInv.key_eq (h : KeyInv s) (hstack : s.stack t = (o, pc) :: below)
    (hholds : pc.holds = some k) : s.key k = .created t o := by
  rw [h.created, hstack, held, hholds]
  rfl

theorem KeyInv.release (h : KeyInv s) (hstack : s.stack t = (o, pc) :: below)
    (hholds : pc.holds = some k) (status : Status ι ο)
    (hstatus : ∀ u o', status ≠ .created u o') :
    (∀ o' k', Function.update s.key k status k' ≠ .created t o') ∧
      ∀ u o' k', u ≠ t →
        (Function.update s.key k status k' = .created u o' ↔ s.key k' = .created u o') := by
  have hkey := h.key_eq hstack hholds
  constructor
  · intro o' k'
    by_cases hk : k' = k
    · rw [hk, Function.update_self]
      exact hstatus t o'
    · rw [Function.update_of_ne hk, Ne, h.created, hstack, held, hholds]
      rintro ⟨⟩
      exact hk rfl
  · intro u o' k' hut
    by_cases hk : k' = k
    · simp [hk, hkey, hstatus, Ne.symm hut]
    · rw [Function.update_of_ne hk]

section

variable [DecidableEq ι]

/-- The calls of one thread become `frames`, and no word that was set changes. -/
theorem KeyInv.of_goto {s₁ : State ι ο V} (h : KeyInv s) (hstack : s₁.stack = s.stack)
    (hused : s₁.used = s.used) (hmono : ∀ o k, s.word o = k + 1 → s₁.word o = k + 1)
    (hword : ∀ o k, s₁.word o = k + 1 ↔ s₁.key k = .published o)
    (hself : ∀ o k, s₁.key k = .created t o ↔ held frames = some (o, k))
    (hother : ∀ u o k, u ≠ t → (s₁.key k = .created u o ↔ s.key k = .created u o))
    (huses : ∀ fr ∈ frames, ∀ k, fr.2.uses = some k → s₁.word fr.1 = k + 1)
    (hnested : Nested frames) : KeyInv (s₁.goto t frames) := by
  refine ⟨hword, ?_, ?_, ?_, ?_⟩
  · intro u o k
    by_cases hut : u = t
    · rw [hut, State.goto_stack_self]
      exact hself o k
    · rw [State.goto_stack_of_ne s₁ hut, hstack, ← h.created]
      exact hother u o k hut
  · refine State.forall_goto hstack huses ?_
    intro u _ fr hfr k hk
    exact hmono _ _ (h.uses u fr hfr k hk)
  · intro o k hk
    exact hmono o k (h.used o k (hused ▸ hk))
  · intro u
    by_cases hut : u = t
    · rw [hut, State.goto_stack_self]
      exact hnested
    · rw [State.goto_stack_of_ne s₁ hut, hstack]
      exact h.nested u

/-- The calls of one thread go on, and it creates and publishes nothing. -/
theorem KeyInv.goto (h : KeyInv s) (hheld : held frames = held (s.stack t))
    (huses : ∀ fr ∈ frames, ∀ k, fr.2.uses = some k → s.word fr.1 = k + 1)
    (hnested : Nested frames) : KeyInv (s.goto t frames) :=
  h.of_goto rfl rfl (fun _ _ hk => hk) h.word (fun o k => hheld ▸ h.created t o k)
    (fun _ _ _ _ => Iff.rfl) huses hnested

/-- The innermost call goes on with the same key in its hands. -/
theorem KeyInv.advance (h : KeyInv s) {pc' : Pc} (hstack : s.stack t = (o, pc) :: below)
    (hholds : pc'.holds = pc.holds) (huses : ∀ k, pc'.uses = some k → s.word o = k + 1) :
    KeyInv (s.goto t ((o, pc') :: below)) := by
  have hnested := h.nested t
  rw [hstack] at hnested
  refine h.goto ?_ ?_ hnested.replace
  · rw [hstack, held, held, hholds]
  · intro fr hfr k hk
    rcases List.mem_cons.1 hfr with rfl | hfr
    · exact huses k hk
    · exact h.uses_below hstack fr hfr k hk

theorem KeyInv.leave (h : KeyInv s) (hstack : s.stack t = (o, pc) :: below)
    (hholds : pc.holds = none) : KeyInv (s.goto t below) := by
  have hnested := h.nested t
  rw [hstack] at hnested
  refine h.goto ?_ ?_ hnested.2
  · rw [held_below hnested, hstack, held, hholds, Option.map_none]
  · exact h.uses_below hstack

theorem KeyInv.create (h : KeyInv s) (hstack : s.stack t = (o, .create) :: below)
    (hdead : s.key k = .dead) :
    KeyInv ((s.create t o k).goto t ((o, .publish k) :: below)) := by
  have hnested := h.nested t
  rw [hstack] at hnested
  have hnone : ∀ o' k', s.key k' ≠ .created t o' := by
    intro o' k' hk'
    rw [h.created, hstack] at hk'
    cases hk'
  refine h.of_goto rfl rfl (fun _ _ hk => hk) ?_ ?_ ?_ ?_ hnested.replace
  · intro o' k'
    show s.word o' = k' + 1 ↔ Function.update s.key k (.created t o) k' = .published o'
    rw [h.word]
    by_cases hk : k' = k
    · simp [hk, hdead]
    · rw [Function.update_of_ne hk]
  · intro o' k'
    show Function.update s.key k (.created t o) k' = .created t o' ↔ some (o, k) = some (o', k')
    by_cases hk : k' = k
    · simp [hk]
    · simp [Function.update_of_ne hk, hnone, Ne.symm hk]
  · intro u o' k' hut
    show Function.update s.key k (.created t o) k' = .created u o' ↔ _
    by_cases hk : k' = k
    · simp [hk, hdead, Ne.symm hut]
    · rw [Function.update_of_ne hk]
  · intro fr hfr k' hk'
    rcases List.mem_cons.1 hfr with rfl | hfr
    · cases hk'
    · exact h.uses_below hstack fr hfr k' hk'

theorem KeyInv.delete (h : KeyInv s) (hstack : s.stack t = (o, .delete k theirs) :: below) :
    KeyInv ({ s with key := Function.update s.key k .dead }.goto t
      ((o, .get theirs) :: below)) := by
  have hnested := h.nested t
  rw [hstack] at hnested
  have hkey := h.key_eq hstack rfl
  obtain ⟨hself, hother⟩ := h.release hstack rfl .dead nofun
  refine h.of_goto rfl rfl (fun _ _ hk => hk) ?_ ?_ (fun u o' k' => hother u o' k') ?_
    hnested.replace
  · intro o' k'
    show s.word o' = k' + 1 ↔ Function.update s.key k .dead k' = .published o'
    rw [h.word]
    by_cases hk : k' = k
    · simp [hk, hkey]
    · rw [Function.update_of_ne hk]
  · intro o' k'
    exact iff_of_false (hself o' k') nofun
  · intro fr hfr k' hk'
    rcases List.mem_cons.1 hfr with rfl | hfr
    · cases hk'
      exact h.word_eq hstack rfl
    · exact h.uses_below hstack fr hfr k' hk'

end

variable [DecidableEq ο]

theorem KeyInv.read (h : KeyInv s) (hword : s.word o = k + 1) : KeyInv (s.read o k) := by
  refine ⟨h.word, h.created, h.uses, ?_, h.nested⟩
  intro o' k' hk'
  by_cases ho : o' = o
  · subst ho
    simp only [State.read, Function.update_self] at hk'
    rcases List.mem_cons.1 hk' with rfl | hk'
    · exact hword
    · exact h.used o' k' hk'
  · simp only [State.read, Function.update_of_ne ho] at hk'
    exact h.used o' k' hk'

variable [DecidableEq ι]

theorem KeyInv.call (h : KeyInv s) (hmay : s.mayCall t o = true) :
    KeyInv (s.goto t ((o, .load) :: s.stack t)) := by
  have hnested := h.nested t
  simp only [State.mayCall, Bool.and_eq_true] at hmay
  obtain ⟨htop, hinit⟩ := hmay
  have hall : ∀ g ∈ s.stack t, g.2.inClosure = true := by
    cases hstack : s.stack t with
    | nil => simp
    | cons fr below =>
      rw [hstack] at htop hnested
      intro g hg
      rcases List.mem_cons.1 hg with rfl | hg
      · simpa using htop
      · exact (hnested.1 g hg).1
  refine h.goto ?_ ?_ ⟨?_, hnested⟩
  · cases hstack : s.stack t with
    | nil => rfl
    | cons fr below =>
      have hfr := hall fr (by rw [hstack]; exact List.mem_cons_self)
      rw [held, held, Pc.holds_of_inClosure hfr]
      rfl
  · intro fr hfr k hk
    rcases List.mem_cons.1 hfr with rfl | hfr
    · cases hk
    · exact h.uses t fr hfr k hk
  · intro g hg
    refine ⟨hall g hg, fun hg' heq => ?_⟩
    have hnot := List.all_eq_true.1 hinit g hg
    simp [hg', heq] at hnot

theorem KeyInv.publish (h : KeyInv s) (hstack : s.stack t = (o, .publish k) :: below)
    (hzero : s.word o = 0) : KeyInv ((s.publish o k).goto t ((o, .get k) :: below)) := by
  have hnested := h.nested t
  rw [hstack] at hnested
  have hkey := h.key_eq hstack rfl
  obtain ⟨hself, hother⟩ := h.release hstack rfl (.published o) nofun
  have hmono : ∀ o' k', s.word o' = k' + 1 → (s.publish o k).word o' = k' + 1 := by
    intro o' k' hk'
    have hne : o' ≠ o := by
      rintro rfl
      rw [hzero] at hk'
      cases hk'
    exact (Function.update_of_ne hne _ _).trans hk'
  refine h.of_goto rfl rfl hmono ?_ ?_ (fun u o' k' => hother u o' k') ?_ hnested.replace
  · intro o' k'
    show Function.update s.word o (k + 1) o' = k' + 1 ↔
      Function.update s.key k (.published o) k' = .published o'
    by_cases ho : o' = o
    · subst ho
      by_cases hk : k' = k
      · simp [hk]
      · rw [Function.update_self, Function.update_of_ne hk, ← h.word, hzero]
        simp [Ne.symm hk]
    · by_cases hk : k' = k
      · subst hk
        rw [Function.update_of_ne ho, Function.update_self, h.word, hkey]
        simp [Ne.symm ho]
      · rw [Function.update_of_ne ho, Function.update_of_ne hk, h.word]
  · intro o' k'
    exact iff_of_false (hself o' k') nofun
  · intro fr hfr k' hk'
    rcases List.mem_cons.1 hfr with rfl | hfr
    · cases hk'
      exact Function.update_self o (k + 1) s.word
    · exact hmono _ _ (h.uses_below hstack fr hfr k' hk')

/-- **The keys**: every step keeps who they belong to. -/
theorem KeyInv.inductive : (system ι ο V).Inductive KeyInv where
  init := ⟨by simp [system], by simp [system, held], by simp [system], by simp [system],
    fun _ => trivial⟩
  step {s a s'} h hstep := by
    cases step_cases hstep with
    | call t o hmay hs' => exact hs' ▸ h.call hmay
    | noKey t o below hstack hs' => exact hs' ▸ h.leave hstack rfl
    | create t o below k hstack hdead hs' => exact hs' ▸ h.create hstack hdead
    | loadZero t o below hstack hword hs' => exact hs' ▸ h.advance hstack rfl (by simp [Pc.uses])
    | load t o below k hstack hword hs' =>
      refine hs' ▸ h.advance hstack rfl ?_
      rintro k' ⟨⟩
      exact hword
    | publish t o below k hstack hword hs' => exact hs' ▸ h.publish hstack hword
    | lose t o below k theirs hstack hword hs' =>
      refine hs' ▸ h.advance hstack rfl ?_
      rintro k' ⟨⟩
      exact hword
    | delete t o below k theirs hstack hs' => exact hs' ▸ h.delete hstack
    | get t o below k p hstack hslot hs' =>
      have hword := h.word_eq hstack rfl
      refine hs' ▸ (h.read hword).advance hstack rfl ?_
      rintro k' ⟨⟩
      exact hword
    | getNull t o below k hstack hslot hs' =>
      have hword := h.word_eq hstack rfl
      have hread : KeyInv ((s.read o k).beginInit t o) := (h.read hword).congr rfl rfl rfl rfl
      refine hs' ▸ hread.advance hstack rfl ?_
      rintro k' ⟨⟩
      exact hword
    | init t o below k v p hstack hheap hs' =>
      have hword := h.word_eq hstack rfl
      have hbox : KeyInv { s with heap := Function.update s.heap p (some ⟨v, t, o⟩) } :=
        h.congr rfl rfl rfl rfl
      refine hs' ▸ hbox.advance hstack rfl ?_
      rintro k' ⟨⟩
      exact hword
    | set t o below k p box hstack hbox hs' =>
      have hword := h.word_eq hstack rfl
      have hset : KeyInv ((s.leave t o p box.value).store t k p) := h.congr rfl rfl rfl rfl
      refine hs' ▸ hset.advance hstack rfl ?_
      rintro k' ⟨⟩
      exact hword
    | write t o below k p v hstack hs' => exact hs' ▸ h.congr rfl rfl rfl rfl
    | ret t o below k p hstack hs' => exact hs' ▸ h.leave hstack rfl

end Ekostd.Thread.ThreadLocal
