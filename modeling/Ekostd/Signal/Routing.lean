/-
  Which handle reports a signal, and when.

  A handle owes the signals that were delivered since it last had nothing to
  report and of which it was the latest to be installed for.

  * `Told`: it never has nothing to report while it owes a signal;
  * `Room`, `Routed`, `Kept`: the deliveries and calls under which that is so;
  * `only_duplicates_lost`: after one install, a signal is reported unless a
    `read` takes it without a report;
  * `OwnSignals`: every handle reports the signals it owes and no other, and
    `own_signals`: so it is as long as the latest install named every signal
    that is delivered.
-/
import Ekostd.Signal.Reports

namespace Ekostd.Signals

open PosixFs

variable {ι : Type*} [DecidableEq ι] {capacity : ℕ} {s s' : State ι} {a : Action ι}
  {as : List (Action ι)} {signals : List Signal} {signal : Signal} {t : ι} {h : ℕ}
  {log : List (Event ι)}

/-! ## What is due, and what is told -/

/-- The handle of the latest install that named a signal. -/
def owner (installed : List (List Signal)) (signal : Signal) : Option ℕ :=
  List.rposition (signal ∈ ·) installed

/-- The signals delivered for a handle since it last had nothing to report. -/
def due (h : ℕ) : List (Event ι) → List Signal
  | [] => []
  | .noted signal :: log =>
    if owner (installs log) signal = some h then signal :: due h log else due h log
  | .got _ k read :: log => if k = h ∧ recv read = .ok none then [] else due h log
  | _ :: log => due h log

/-- The signals that a handle has reported since it last had nothing to report. -/
def told (h : ℕ) : List (Event ι) → List Signal
  | [] => []
  | .got _ k read :: log =>
    if k = h then
      match recv read with
      | .ok (some signal) => signal :: told h log
      | .ok none => []
      | .error _ => told h log
    else told h log
  | _ :: log => told h log

/-- Whenever a handle has nothing more to report, it has reported every signal that was delivered
    for it since the last time. -/
def Told (h : ℕ) (log : List (Event ι)) : Prop :=
  ∀ t read pre, .got t h read :: pre <:+ log → recv read = .ok none →
    ∀ signal ∈ due h pre, signal ∈ told h pre

/-- A delivery finds room in the pipe. -/
def Room (capacity : ℕ) (s : State ι) : Action ι → Prop
  | .deliver _ => ∀ fd ∈ s.writeEnd, (s.pipes fd).length < capacity
  | _ => True

/-- The bytes that were the first ones of a `read` since the pipe of the handle was last empty at
    one. -/
def firsts (h : ℕ) : List (Event ι) → Bytes
  | [] => []
  | .got _ k read :: log =>
    if k = h then
      match taken read with
      | byte :: _ => byte :: firsts h log
      | [] => []
    else firsts h log
  | _ :: log => firsts h log

/-- After the first byte, a `read` takes only such as were the first one of this or an earlier
    `read` since the pipe was last empty, or stay in the pipe once more. -/
def Kept (s : State ι) : Action ι → Prop
  | .read _ h => ∀ byte ∈ ((s.pipes h).take chunk).tail,
      (s.pipes h).head? = some byte ∨ byte ∈ firsts h s.log ∨ byte ∈ (s.pipes h).drop chunk
  | _ => True

/-- A delivery is of a signal that the latest install named. -/
def Routed (s : State ι) : Action ι → Prop
  | .deliver signal => ∀ signals ∈ s.installed.getLast?, signal ∈ signals
  | _ => True

instance (s : State ι) (a : Action ι) : Decidable (Room capacity s a) :=
  match a with
  | .deliver _ => inferInstanceAs (Decidable (∀ fd ∈ s.writeEnd, (s.pipes fd).length < capacity))
  | .install _ | .read .. | .ret _ => .isTrue trivial

instance (s : State ι) (a : Action ι) : Decidable (Kept s a) :=
  match a with
  | .read _ h => inferInstanceAs (Decidable (∀ byte ∈ ((s.pipes h).take chunk).tail,
      (s.pipes h).head? = some byte ∨ byte ∈ firsts h s.log ∨ byte ∈ (s.pipes h).drop chunk))
  | .install _ | .deliver _ | .ret _ => .isTrue trivial

instance (s : State ι) (a : Action ι) : Decidable (Routed s a) :=
  match a with
  | .deliver signal =>
    inferInstanceAs (Decidable (∀ signals ∈ s.installed.getLast?, signal ∈ signals))
  | .install _ | .read .. | .ret _ => .isTrue trivial

/-- What is due is told, or still in the pipe. -/
structure Owed (s : State ι) : Prop where
  pipe : ∀ h, ∀ x ∈ due h s.log, x ∈ told h s.log ∨ x.byte ∈ s.pipes h
  firsts : ∀ h (x : Signal), x.byte ∈ firsts h s.log → x ∈ Signals.told h s.log
  told : ∀ h, Told h s.log

omit [DecidableEq ι] in
theorem Told.cons {e : Event ι} (hlog : Told h log) (he : ∀ t k read, e ≠ .got t k read) :
    Told h (e :: log) := by
  intro t read pre hpre
  exact hlog t read pre (suffix_of_ne hpre (he t h read).symm)

theorem owner_latest {installed : List (List Signal)} (hne : installed ≠ [])
    (hx : ∀ signals ∈ installed.getLast?, signal ∈ signals) :
    owner installed signal = some (installed.length - 1) := by
  obtain ⟨init, last, rfl⟩ := (List.eq_nil_or_concat' installed).resolve_left hne
  rw [List.getLast?_concat] at hx
  rw [owner, List.rposition_append (by simpa using hx last rfl) (by simp)]
  simp

/-- **What is due survives a `read`** that keeps what it does not report. -/
theorem owed_read {pipe rest : Bytes} {x y : Signal} {reported : List Signal}
    (hx : x ∈ reported ∨ x.byte ∈ pipe) (hp : pipe = y.byte :: rest)
    (hkept : x.byte ∈ (pipe.take chunk).tail →
      pipe.head? = some x.byte ∨ x ∈ reported ∨ x.byte ∈ pipe.drop chunk) :
    x ∈ y :: reported ∨ x.byte ∈ (readPipe pipe).2 := by
  have hne : pipe ≠ [] := by
    rw [hp]
    exact List.cons_ne_nil _ _
  have hleft : (readPipe pipe).2 = pipe.drop chunk := by rw [readPipe, if_neg hne]
  have hhead : pipe.head? = some x.byte → x = y := by
    intro he
    rw [hp, List.head?_cons, Option.some.injEq] at he
    exact (Signal.byte_injective he).symm
  have hcases : x = y ∨ x ∈ reported ∨ x.byte ∈ pipe.drop chunk := by
    rcases hx with hx | hx
    · exact .inr (.inl hx)
    · rw [← List.take_append_drop chunk pipe, List.mem_append] at hx
      rcases hx with hx | hx
      · have hsplit : pipe.take chunk = y.byte :: (pipe.take chunk).tail := by
          rw [hp, chunk, List.take_succ_cons, List.tail_cons]
        rw [hsplit] at hx
        rcases List.mem_cons.1 hx with hx | hx
        · exact .inl (Signal.byte_injective hx)
        · exact (hkept hx).imp_left hhead
      · exact .inr (.inr hx)
  rw [hleft, List.mem_cons, or_assoc]
  exact hcases

theorem owed_init : Owed (machine (ι := ι) capacity).init := by
  refine ⟨?_, ?_, ?_⟩
  · intro h x hx
    cases hx
  · intro h x hx
    cases hx
  · intro h t read pre hpre
    cases List.suffix_nil.1 hpre

theorem Owed.deliver (hs : Inv s) (ho : Owed s) (hn : signal ∈ s.noting)
    (hroom : Room capacity s (.deliver signal)) (hrouted : Routed s (.deliver signal)) :
    Owed { note capacity s signal with log := .noted signal :: s.log } := by
  obtain ⟨hne, hw⟩ := hs.writeEnd hn
  have hroom : (s.pipes (s.installed.length - 1)).length < capacity := hroom _ hw
  have howner := owner_latest hne hrouted
  rw [note_eq hw, if_pos hroom]
  refine ⟨?_, ho.firsts, fun h => (ho.told h).cons (by simp)⟩
  intro h x hx
  dsimp only [due] at hx
  rw [hs.installs, howner] at hx
  by_cases hh : h = s.installed.length - 1
  · subst hh
    rw [if_pos rfl] at hx
    dsimp only [Signals.told]
    rw [Function.update_self, List.mem_append, List.mem_singleton]
    rcases List.mem_cons.1 hx with rfl | hx
    · exact .inr (.inr rfl)
    · exact (ho.pipe _ x hx).imp_right .inl
  · rw [if_neg fun he => hh (Option.some.inj he).symm] at hx
    dsimp only [Signals.told]
    rw [Function.update_of_ne hh]
    exact ho.pipe h x hx

/-- What a `read` has taken first is reported. -/
theorem firsts_read (hs : Inv s) (ho : Owed s) (t : ι) (h k : ℕ) {x : Signal}
    (hx : x.byte ∈ firsts k (.got t h (readPipe (s.pipes h)).1 :: s.log)) :
    x ∈ told k (.got t h (readPipe (s.pipes h)).1 :: s.log) := by
  dsimp only [Signals.firsts, Signals.told] at hx ⊢
  by_cases hk : k = h
  · subst hk
    rw [if_pos rfl] at hx ⊢
    rcases recv_readPipe (hs.known k) with ⟨hp, -⟩ | ⟨y, rest, hp, hrecv⟩
    · rw [hp] at hx
      cases hx
    · have htaken : taken (readPipe (s.pipes k)).1 = y.byte :: rest.take (chunk - 1) := by
        rw [hp]
        rfl
      rw [htaken] at hx
      rw [hrecv]
      rcases List.mem_cons.1 hx with hx | hx
      · rw [Signal.byte_injective hx]
        exact List.mem_cons_self
      · exact List.mem_cons_of_mem y (ho.firsts k x hx)
  · rw [if_neg (Ne.symm hk)] at hx ⊢
    exact ho.firsts k x hx

/-- A `read` that keeps what it does not report leaves nothing out. -/
theorem Owed.read (hs : Inv s) (ho : Owed s) (hkept : Kept s (.read t h))
    (reading : ι → Option (Except Errno Bytes)) :
    Owed { s with
      pipes := Function.update s.pipes h (readPipe (s.pipes h)).2
      reading := reading
      log := .got t h (readPipe (s.pipes h)).1 :: s.log } := by
  refine ⟨?_, fun k x => firsts_read hs ho t h k, ?_⟩
  · intro k x hx
    dsimp only [due, Signals.told] at hx ⊢
    by_cases hk : k = h
    · subst hk
      rw [if_pos rfl, Function.update_self]
      rcases recv_readPipe (hs.known k) with ⟨-, hrecv⟩ | ⟨y, rest, hp, hrecv⟩
      · rw [if_pos ⟨rfl, hrecv⟩] at hx
        cases hx
      · rw [if_neg fun he => by rw [hrecv] at he; cases he.2] at hx
        rw [hrecv]
        exact owed_read (ho.pipe k x hx) hp fun htail =>
          (hkept _ htail).imp_right (Or.imp_left (ho.firsts k x))
    · rw [if_neg fun he => hk he.1.symm] at hx
      rw [if_neg (Ne.symm hk), Function.update_of_ne hk]
      exact ho.pipe k x hx
  · intro k u read pre hpre hrecv x hx
    rcases List.suffix_cons_iff.1 hpre with hpre | hpre
    · obtain ⟨hev, rfl⟩ := List.cons.inj hpre
      cases hev
      rcases recv_readPipe (hs.known h) with ⟨hp, -⟩ | ⟨y, rest, -, hsome⟩
      · rcases ho.pipe h x hx with htold | hmem
        · exact htold
        · rw [hp] at hmem
          cases hmem
      · rw [hsome] at hrecv
        cases hrecv
    · exact ho.told k u read pre hpre hrecv x hx

theorem owed_step (hs : Inv s) (ho : Owed s) (hroom : Room capacity s a) (hkept : Kept s a)
    (hrouted : Routed s a) (ha : (machine capacity).step s a = some s') : Owed s' := by
  cases a with
  | install signals =>
    obtain rfl := Option.some.inj ha
    exact ⟨ho.pipe, ho.firsts, fun h => (ho.told h).cons (by simp)⟩
  | deliver signal =>
    obtain ⟨hn, rfl⟩ := step_deliver ha
    exact ho.deliver hs hn hroom hrouted
  | read t h =>
    obtain ⟨-, -, rfl⟩ := step_read ha
    exact ho.read hs hkept _
  | ret t =>
    obtain ⟨read, hread, rfl⟩ := step_ret ha
    exact ⟨ho.pipe, ho.firsts, fun h => (ho.told h).cons (by simp)⟩

/-! ## One handle -/

theorem installed_grows (ha : (machine capacity).step s a = some s') :
    s.installed <+: s'.installed := by
  cases a with
  | install signals =>
    obtain rfl := Option.some.inj ha
    exact List.prefix_append _ _
  | deliver signal =>
    obtain ⟨-, rfl⟩ := step_deliver ha
    unfold note
    split
    · exact List.prefix_rfl
    · split_ifs <;> exact List.prefix_rfl
  | read t h =>
    obtain ⟨-, -, rfl⟩ := step_read ha
    exact List.prefix_rfl
  | ret t =>
    obtain ⟨read, -, rfl⟩ := step_ret ha
    exact List.prefix_rfl

omit [DecidableEq ι] in
theorem routed_of_one (hs : s.installed <+: [Signal.ALL]) : Routed s a := by
  cases a with
  | deliver signal =>
    intro signals hlast
    have hmem := hs.subset (List.mem_of_getLast? hlast)
    rw [List.mem_singleton.1 hmem]
    cases signal <;> decide
  | install | read | ret => exact trivial

/-- **Only duplicates are lost**, after one install of all signals: a signal that was delivered is
    reported before the handle has nothing to report, if every delivery finds room in the pipe and
    no `read` takes a signal that is not reported then, not reported before and not in the pipe
    any more. -/
theorem only_duplicates_lost (hroom : (machine capacity).Meets (Room capacity) as)
    (hkept : (machine capacity).Meets Kept as) (hr : (machine capacity).run as = some s)
    (hs : s.installed = [Signal.ALL]) : Told 0 s.log := by
  have hrun : Inv s ∧ (s.installed <+: [Signal.ALL] → Owed s) := by
    refine Sts.run_of_meets (C := fun s a => Room capacity s a ∧ Kept s a)
      (I := fun s => Inv s ∧ (s.installed <+: [Signal.ALL] → Owed s)) ?_ ?_ ?_ hr
    · exact ⟨(inv_inductive capacity).init, fun _ => owed_init⟩
    · rintro s a s' ⟨hs, ho⟩ ⟨hroom, hkept⟩ ha
      refine ⟨inv_step hs ha, fun hone => ?_⟩
      have hone := (installed_grows ha).trans hone
      exact owed_step hs (ho hone) hroom hkept (routed_of_one hone) ha
    · intro pre a post he σ hσ
      exact ⟨hroom pre a post he σ hσ, hkept pre a post he σ hσ⟩
  exact (hrun.2 (by rw [hs])).told 0

set_option maxRecDepth 2000 in
/-- A termination, a report of it, and a duplicate before an interrupt. -/
theorem only_duplicates_lost_two : ∃ s, (machine 16).run
    [.install Signal.ALL, .deliver .term, .read 0 0, .ret 0, .deliver .int, .deliver .term,
      .read 0 0, .ret 0, .read 0 0, .ret 0] = some s ∧ Told (ι := ℕ) 0 s.log := by
  obtain ⟨s, hr, hs⟩ : ∃ s, (machine (ι := ℕ) 16).run
      [.install Signal.ALL, .deliver .term, .read 0 0, .ret 0, .deliver .int, .deliver .term,
        .read 0 0, .ret 0, .read 0 0, .ret 0] = some s ∧ s.installed = [Signal.ALL] :=
    ⟨_, rfl, rfl⟩
  exact ⟨s, hr, only_duplicates_lost (Sts.MeetsFrom.meets (by decide))
    (Sts.MeetsFrom.meets (by decide)) hr hs⟩

/-- A termination and an interrupt, both in the pipe at one `read`: the interrupt is lost. -/
theorem second_signal_lost : ∃ s, (machine 16).run
    [.install Signal.ALL, .deliver .term, .deliver .int, .read 0 0, .ret 0, .read 0 0, .ret 0] =
      some s ∧ s.installed = [Signal.ALL] ∧
    (machine (ι := ℕ) 16).Meets (Room 16)
      [.install Signal.ALL, .deliver .term, .deliver .int, .read 0 0, .ret 0, .read 0 0, .ret 0] ∧
    ¬ Told 0 s.log := by
  refine ⟨_, rfl, rfl, Sts.MeetsFrom.meets (by decide), ?_⟩
  intro h
  have hint := h 0 _ _ (List.suffix_cons_iff.2 (.inr (List.suffix_refl _))) rfl .int (by decide)
  revert hint
  decide

/-! ## Many handles -/

/-- **Every handle reports its own signals**: those it owes, by the time it has nothing more to
    report, and none that it was not installed for. -/
structure OwnSignals (s : State ι) : Prop where
  told : ∀ h, Told h s.log
  own : ∀ t h read x, .got t h read ∈ s.log → recv read = .ok (some x) →
    ∃ signals, s.installed[h]? = some signals ∧ x ∈ signals

/-- A handle is installed for a signal. -/
def InstalledFor (installed : List (List Signal)) (h : ℕ) (x : Signal) : Prop :=
  ∃ signals, installed[h]? = some signals ∧ x ∈ signals

theorem InstalledFor.mono {old new : List (List Signal)} {x : Signal}
    (hx : InstalledFor old h x) (hpre : old <+: new) : InstalledFor new h x := by
  obtain ⟨signals, hget, hmem⟩ := hx
  obtain ⟨more, rfl⟩ := hpre
  obtain ⟨hlt, -⟩ := List.getElem?_eq_some_iff.1 hget
  exact ⟨signals, by rw [List.getElem?_append_left hlt, hget], hmem⟩

/-- What is in the pipe of a handle and what it has reported, it was installed for. -/
structure Own (s : State ι) : Prop where
  pipe : ∀ h x, Signal.byte x ∈ s.pipes h → InstalledFor s.installed h x
  reported : ∀ t h read x, .got t h read ∈ s.log → recv read = .ok (some x) →
    InstalledFor s.installed h x

theorem own_step (hs : Inv s) (ho : Own s) (hrouted : Routed s a)
    (ha : (machine capacity).step s a = some s') : Own s' := by
  have hgrows := installed_grows ha
  cases a with
  | install signals =>
    obtain rfl := Option.some.inj ha
    refine ⟨fun h x hx => (ho.pipe h x hx).mono hgrows, ?_⟩
    intro t h read x hmem hrecv
    exact (ho.reported t h read x (List.mem_of_ne_of_mem (by simp) hmem) hrecv).mono hgrows
  | deliver signal =>
    obtain ⟨hn, rfl⟩ := step_deliver ha
    obtain ⟨hne, hw⟩ := hs.writeEnd hn
    rw [note_eq hw]
    constructor
    · intro h x hx
      rcases mem_noted hx with hold | ⟨rfl, hnew⟩
      · exact ho.pipe h x hold
      · obtain rfl := Signal.byte_injective hnew
        have hlast := List.getLast?_eq_some_getLast hne
        refine ⟨_, ?_, hrouted _ hlast⟩
        rw [← List.getLast?_eq_getElem?, hlast]
    · intro t h read x hmem hrecv
      exact ho.reported t h read x (List.mem_of_ne_of_mem (by simp) hmem) hrecv
  | read t h =>
    obtain ⟨-, -, rfl⟩ := step_read ha
    constructor
    · intro k x hx
      exact ho.pipe k x (mem_left hx)
    · intro u k read x hmem hrecv
      rcases List.mem_cons.1 hmem with hmem | hmem
      · cases hmem
        rcases recv_readPipe (hs.known h) with ⟨-, hnone⟩ | ⟨y, rest, hp, hsome⟩
        · rw [hnone] at hrecv
          cases hrecv
        · rw [hsome] at hrecv
          cases hrecv
          refine ho.pipe h x ?_
          rw [hp]
          exact List.mem_cons_self
      · exact ho.reported u k read x hmem hrecv
  | ret t =>
    obtain ⟨read, -, rfl⟩ := step_ret ha
    refine ⟨ho.pipe, ?_⟩
    intro t h read x hmem hrecv
    exact ho.reported t h read x (List.mem_of_ne_of_mem (by simp) hmem) hrecv

/-- **Every handle reports its own signals** in a run in which the latest install named every
    signal that is delivered, no delivery finds the pipe full and no `read` loses a signal. -/
theorem own_signals (hroom : (machine capacity).Meets (Room capacity) as)
    (hkept : (machine capacity).Meets Kept as) (hrouted : (machine capacity).Meets Routed as)
    (hr : (machine capacity).run as = some s) : OwnSignals s := by
  have hrun : Inv s ∧ Owed s ∧ Own s := by
    refine Sts.run_of_meets (C := fun s a => Room capacity s a ∧ Kept s a ∧ Routed s a)
      (I := fun s => Inv s ∧ Owed s ∧ Own s) ?_ ?_ ?_ hr
    · refine ⟨(inv_inductive capacity).init, owed_init, ?_, ?_⟩
      · intro h x hx
        cases hx
      · intro t h read x hmem
        cases hmem
    · rintro s a s' ⟨hs, howed, hown⟩ ⟨hroom, hkept, hrouted⟩ ha
      exact ⟨inv_step hs ha, owed_step hs howed hroom hkept hrouted ha, own_step hs hown hrouted ha⟩
    · intro pre a post he σ hσ
      exact ⟨hroom pre a post he σ hσ, hkept pre a post he σ hσ, hrouted pre a post he σ hσ⟩
  exact ⟨hrun.2.1.told, hrun.2.2.reported⟩

set_option maxRecDepth 2000 in
/-- Two handles, the later one for all signals. -/
theorem own_signals_two : ∃ s, (machine 16).run
    [.install [.term], .deliver .term, .read 0 0, .ret 0, .install Signal.ALL, .deliver .int,
      .read 1 1, .read 0 0, .ret 0, .ret 1] = some s ∧ OwnSignals (ι := ℕ) s := by
  obtain ⟨s, hr⟩ : ∃ s, (machine (ι := ℕ) 16).run
      [.install [.term], .deliver .term, .read 0 0, .ret 0, .install Signal.ALL, .deliver .int,
        .read 1 1, .read 0 0, .ret 0, .ret 1] = some s := ⟨_, rfl⟩
  exact ⟨s, hr, own_signals (Sts.MeetsFrom.meets (by decide)) (Sts.MeetsFrom.meets (by decide))
    (Sts.MeetsFrom.meets (by decide)) hr⟩

/-- A termination after another install, of interrupts only: that handle reports the termination,
    and the one that was installed for it has nothing to report. -/
theorem later_install_takes_over : ∃ s, (machine 16).run
    [.install [.term], .install [.int], .deliver .term, .read 0 1, .ret 0, .read 0 0, .ret 0] =
      some s ∧
    (machine (ι := ℕ) 16).Meets (Room 16)
      [.install [.term], .install [.int], .deliver .term, .read 0 1, .ret 0, .read 0 0, .ret 0] ∧
    .got 0 1 (.ok [Signal.term.byte]) ∈ s.log ∧ ¬ Told 0 s.log ∧ ¬ OwnSignals s := by
  have hlost : ∀ s : State ℕ, (machine 16).run
      [.install [.term], .install [.int], .deliver .term, .read 0 1, .ret 0, .read 0 0, .ret 0] =
        some s → ¬ Told 0 s.log := by
    rintro s ⟨⟩ h
    have hterm := h 0 _ _ (List.suffix_cons_iff.2 (.inr (List.suffix_refl _))) rfl .term (by decide)
    revert hterm
    decide
  refine ⟨_, rfl, Sts.MeetsFrom.meets (by decide), ?_, hlost _ rfl, fun h => hlost _ rfl (h.told 0)⟩
  exact .tail _ (.tail _ (.tail _ (.head _)))

end Ekostd.Signals
