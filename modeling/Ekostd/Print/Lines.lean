/-
  Whether printed lines stay whole.

  A call makes one `write` for its text and one for its newline, so that other
  threads can write in between.

  * `WholeLines`: what has arrived is whole lines of calls that have returned,
    each thread's in the order of its calls, and at most the beginning of one
    line more;
  * `Alone`: nothing is written while another thread is in the middle of a line;
  * `lines_stay_whole`: this is enough in every interleaving, and needed, where
    every call has a text;
  * `lines_mixed`: two threads with a line each.
-/
import Ekostd.Lib.Pieces
import Ekostd.Lib.Tagged
import Ekostd.Print.Model

namespace Ekostd.Print

open PosixFs List
open PosixRead (newline)

variable {ι : Type*} [DecidableEq ι] {pipeBuf : ℕ} {calls : ι → List Call} {s s' : State ι}
  {log : List (ι × Call)} {tail : Bytes}

/-- The lines of some calls. -/
def linesOf (log : List (ι × Call)) : Bytes := log.flatMap fun e => e.2.line

/-- Nothing is written while another thread has not ended its line. -/
def Alone (s : State ι) : Action ι → Prop
  | .begins _ => True
  | .writes t _ => ∀ u, u ≠ t → s.said u = []

/-- No thread is in the middle of a call. -/
def AtRest (s : State ι) : Prop := ∀ t, (s.threads t).left = []

/-- Whole lines, of the calls in `log`, and what some thread has written of one more. -/
def WholeLines (calls : ι → List Call) (s : State ι) : Prop :=
  ∃ log tail, s.pipe = linesOf log ++ tail ∧ (∀ t, of t log ++ s.todo t = calls t) ∧
    (tail = [] ∨ ∃ t, tail = s.said t)

omit [DecidableEq ι] in
theorem said_of_atRest (h : AtRest s) (t : ι) : s.said t = [] := by
  have hleft := h t
  rcases hx : s.threads t with ⟨todo, left⟩
  rw [hx] at hleft
  cases hleft
  simp only [State.said, hx]
  cases todo <;> rfl

/-! ## One at a time -/

/-- The lines and the beginning of a line, told apart. -/
structure Whole (calls : ι → List Call) (log : List (ι × Call)) (tail : Bytes) (s : State ι) :
    Prop where
  pipe : s.pipe = linesOf log ++ tail
  order : ∀ t, of t log ++ s.todo t = calls t
  one : ∀ t u, s.said t ≠ [] → s.said u ≠ [] → t = u
  tail_eq : ∀ t, s.said t ≠ [] → tail = s.said t
  tail_nil : (∀ t, s.said t = []) → tail = []

theorem Whole.tail_of_alone (h : Whole calls log tail s) {t : ι}
    (halone : ∀ u, u ≠ t → s.said u = []) : tail = s.said t := by
  by_cases hsaid : s.said t = []
  · rw [hsaid]
    refine h.tail_nil fun u => ?_
    by_cases hu : u = t
    · rw [hu, hsaid]
    · exact halone u hu
  · exact h.tail_eq t hsaid

theorem Whole.wholeLines (h : Whole calls log tail s) : WholeLines calls s := by
  refine ⟨log, tail, h.pipe, h.order, ?_⟩
  by_cases hall : ∀ t, s.said t = []
  · exact .inl (h.tail_nil hall)
  · obtain ⟨t, ht⟩ := not_forall.1 hall
    exact .inr ⟨t, h.tail_eq t ht⟩

theorem Whole.begun (h : Whole calls log tail s) {t : ι} {c : Call}
    (halone : ∀ u, u ≠ t → s.said u = []) (htext : c.text ≠ []) (hsaid : s.said t = [])
    (hpipe : s'.pipe = s.pipe ++ c.text) (htodo : s'.todo = s.todo)
    (hsaid' : s'.said = Function.update s.said t c.text) : Whole calls log c.text s' := by
  have htail : tail = [] := (h.tail_of_alone halone).trans hsaid
  -- only `t` is in the middle of a line now
  have hother : ∀ u, u ≠ t → s'.said u = [] := by
    intro u hu
    rw [hsaid', Function.update_of_ne hu]
    exact halone u hu
  have hself : s'.said t = c.text := by rw [hsaid', Function.update_self]
  constructor
  · rw [hpipe, h.pipe, htail, append_nil]
  · rw [htodo]
    exact h.order
  · intro u v hu hv
    rw [not_imp_comm.1 (hother u) hu, not_imp_comm.1 (hother v) hv]
  · intro u hu
    rw [not_imp_comm.1 (hother u) hu, hself]
  · intro hall
    exact absurd (hself.symm.trans (hall t)) htext

theorem Whole.ended (h : Whole calls log tail s) {t : ι} {c : Call} {todo : List Call}
    (halone : ∀ u, u ≠ t → s.said u = []) (hc : s.todo t = c :: todo) (hsaid : s.said t = c.text)
    (hpipe : s'.pipe = s.pipe ++ [newline]) (htodo : s'.todo = Function.update s.todo t todo)
    (hsaid' : s'.said = Function.update s.said t []) : Whole calls (log ++ [(t, c)]) [] s' := by
  have htail : tail = c.text := (h.tail_of_alone halone).trans hsaid
  have hnone : ∀ u, s'.said u = [] := by
    intro u
    by_cases hu : u = t
    · rw [hsaid', hu, Function.update_self]
    · rw [hsaid', Function.update_of_ne hu]
      exact halone u hu
  constructor
  · rw [hpipe, h.pipe, htail]
    simp [linesOf, Call.line]
  · intro u
    rw [htodo, ← h.order u]
    by_cases hu : u = t
    · rw [hu, of_snoc_self, Function.update_self, hc, append_assoc, singleton_append]
    · rw [of_snoc_of_ne hu, Function.update_of_ne hu]
  · intro u v hu
    exact absurd (hnone u) hu
  · intro u hu
    exact absurd (hnone u) hu
  · intro _
    rfl

/-- **A step that is taken alone** keeps the lines whole. -/
theorem Whole.step {act : Action ι} (h : Whole calls log tail s) (halone : Alone s act)
    (hstep : Step s s' act) : ∃ log' tail', Whole calls log' tail' s' := by
  cases hstep with
  | begins t hpipe htodo hsaid =>
    refine ⟨log, tail, ?_⟩
    constructor
    · rw [hpipe, h.pipe]
    · rw [htodo]
      exact h.order
    · rw [hsaid]
      exact h.one
    · rw [hsaid]
      exact h.tail_eq
    · rw [hsaid]
      exact h.tail_nil
  | text t a c todo hc htext hsaid hpipe htodo hsaid' =>
    exact ⟨log, c.text, h.begun halone htext hsaid hpipe htodo hsaid'⟩
  | newline t a c todo hc hsaid hpipe htodo hsaid' =>
    exact ⟨log ++ [(t, c)], [], h.ended halone hc hsaid hpipe htodo hsaid'⟩

theorem good_init (hshort : ∀ t, ∀ c ∈ calls t, c.text.length + 1 < pipeBuf) :
    Good pipeBuf (machine calls).init :=
  ⟨fun t => .idle (calls t), hshort⟩

theorem whole_init (calls : ι → List Call) : Whole calls [] [] (machine calls).init := by
  have hsaid : ∀ t, (machine calls).init.said t = [] := said_of_atRest fun _ => rfl
  constructor
  · rfl
  · intro t
    rfl
  · intro t u ht
    exact absurd (hsaid t) ht
  · intro t ht
    exact absurd (hsaid t) ht
  · intro _
    rfl

section
variable (hshort : ∀ t, ∀ c ∈ calls t, c.text.length + 1 < pipeBuf) {as : List (Action ι)}
  (hr : (machine calls).run as = some s) (hatomic : (machine calls).Meets (Atomic pipeBuf) as)
include hshort hr hatomic

theorem good_run : Good pipeBuf s :=
  Sts.run_of_meets (good_init hshort) (fun hs ha h => (step_cases hs ha h).1) hatomic hr

/-- **Threads that take turns** print whole lines. -/
theorem whole_run (halone : (machine calls).Meets Alone as) :
    ∃ log tail, Whole calls log tail s := by
  have hboth : (machine calls).Meets (fun s a => Atomic pipeBuf s a ∧ Alone s a) as :=
    fun pre a post he t ht => ⟨hatomic pre a post he t ht, halone pre a post he t ht⟩
  have hinv : Good pipeBuf s ∧ ∃ log tail, Whole calls log tail s := by
    refine Sts.run_of_meets (I := fun s => Good pipeBuf s ∧ ∃ log tail, Whole calls log tail s)
      ⟨good_init hshort, [], [], whole_init calls⟩ ?_ hboth hr
    rintro s act s' ⟨hgood, log, tail, hwhole⟩ ⟨ha, halone⟩ h
    obtain ⟨hgood', hstep⟩ := step_cases hgood ha h
    exact ⟨hgood', hwhole.step halone hstep⟩
  exact hinv.2

end

/-! ## More than one at a time -/

/-- Texts that make a piece of a line. -/
def Texts (calls : ι → List Call) : Prop := ∀ t, ∀ c ∈ calls t, newline ∉ c.text ∧ c.text ≠ []

/-- The texts that have been written, and what has arrived of them in pieces. -/
structure Spoken (calls : ι → List Call) (spoken : List (ι × Call)) (s : State ι) : Prop where
  order : ∀ t, of t spoken ++ (if s.said t = [] then s.todo t else (s.todo t).tail) = calls t
  todo_subset : ∀ t, s.todo t ⊆ calls t
  count : (pieces newline s.pipe).length ≤ spoken.length

omit [DecidableEq ι] in
theorem linesOf_ended (log : List (ι × Call)) :
    linesOf log = [] ∨ (linesOf log).getLast? = some newline := by
  rcases eq_nil_or_concat log with rfl | ⟨log, e, rfl⟩
  · exact .inl rfl
  · right
    simp [linesOf, Call.line]

omit [DecidableEq ι] in
theorem said_mem {t : ι} (h : s.said t ≠ []) : ∃ c ∈ s.todo t, s.said t = c.text := by
  unfold State.said Thread.said at h ⊢
  split at h
  · next c todo w htodo hleft =>
    refine ⟨c, ?_, ?_⟩
    · rw [State.todo, htodo]
      exact mem_cons_self
    · rfl
  · exact absurd rfl h

/-- A text that is written in the middle of a line makes no piece of its own. -/
theorem Whole.length_pieces (h : Whole calls log tail s) (htail : tail ≠ [])
    (hnl : newline ∉ tail) {text : Bytes} (htext : newline ∉ text) :
    (pieces newline (s.pipe ++ text)).length = (pieces newline s.pipe).length := by
  have hnl' : newline ∉ tail ++ text := by simp [hnl, htext]
  rw [h.pipe, append_assoc, pieces_append_of_ended (linesOf_ended log),
    pieces_append_of_ended (linesOf_ended log), pieces_of_notMem hnl htail,
    pieces_of_notMem hnl' (by simp [htail]), length_append, length_append, length_singleton,
    length_singleton]

/-- A text that is written is one more, and one more piece at most. -/
theorem Spoken.begun {spoken : List (ι × Call)} (htexts : Texts calls) (h : Spoken calls spoken s)
    {t : ι} {c : Call} {todo : List Call} (hc : s.todo t = c :: todo) (htext : c.text ≠ [])
    (hsaid : s.said t = []) (hpipe : s'.pipe = s.pipe ++ c.text) (htodo : s'.todo = s.todo)
    (hsaid' : s'.said = Function.update s.said t c.text) :
    Spoken calls (spoken ++ [(t, c)]) s' := by
  have hmem : c ∈ calls t := h.todo_subset t (by simp [hc])
  have hle := length_pieces_append_le (htexts t c hmem).1 s.pipe
  have hcount := h.count
  constructor
  · intro u
    rw [htodo, hsaid', ← h.order u]
    by_cases hu : u = t
    · subst hu
      rw [of_snoc_self, Function.update_self, if_neg htext, if_pos hsaid, hc, tail_cons,
        append_assoc, singleton_append]
    · rw [of_snoc_of_ne hu, Function.update_of_ne hu]
  · rw [htodo]
    exact h.todo_subset
  · rw [hpipe, length_append, length_singleton]
    omega

theorem Spoken.ended {spoken : List (ι × Call)} (h : Spoken calls spoken s) {t : ι} {c : Call}
    {todo : List Call} (hc : s.todo t = c :: todo) (hne : s.said t ≠ [])
    (hpipe : s'.pipe = s.pipe ++ [newline]) (htodo : s'.todo = Function.update s.todo t todo)
    (hsaid' : s'.said = Function.update s.said t []) : Spoken calls spoken s' := by
  constructor
  · intro u
    rw [htodo, hsaid', ← h.order u]
    by_cases hu : u = t
    · subst hu
      rw [Function.update_self, Function.update_self, if_pos rfl, if_neg hne, hc, tail_cons]
    · rw [Function.update_of_ne hu, Function.update_of_ne hu]
  · intro u
    by_cases hu : u = t
    · subst hu
      rw [htodo, Function.update_self]
      exact fun d hd => h.todo_subset u (by simp [hc, hd])
    · rw [htodo, Function.update_of_ne hu]
      exact h.todo_subset u
  · rw [hpipe, pieces_snoc_sep]
    exact h.count

/-- **Every text is a piece of its own** only as long as every step is taken alone. -/
theorem Spoken.step {act : Action ι} {spoken : List (ι × Call)} (htexts : Texts calls)
    (h : Spoken calls spoken s) (hstep : Step s s' act) :
    ∃ spoken', Spoken calls spoken' s' ∧
      ((pieces newline s'.pipe).length = spoken'.length →
        (pieces newline s.pipe).length = spoken.length ∧
        ∀ log tail, Whole calls log tail s → Alone s act) := by
  cases hstep with
  | begins t hpipe htodo hsaid =>
    refine ⟨spoken, ⟨?_, ?_, ?_⟩, ?_⟩
    · rw [htodo, hsaid]
      exact h.order
    · rw [htodo]
      exact h.todo_subset
    · rw [hpipe]
      exact h.count
    · intro heq
      rw [hpipe] at heq
      exact ⟨heq, fun _ _ _ => trivial⟩
  | text t a c todo hc htext hsaid hpipe htodo hsaid' =>
    refine ⟨_, h.begun htexts hc htext hsaid hpipe htodo hsaid', fun heq => ?_⟩
    have hnl := (htexts t c (h.todo_subset t (by simp [hc]))).1
    have hle := length_pieces_append_le hnl s.pipe
    have hcount := h.count
    rw [hpipe, length_append, length_singleton] at heq
    refine ⟨by omega, fun log tail hwhole u hu => ?_⟩
    by_contra hsaid
    -- the text has continued the line of `u`
    obtain ⟨d, hd, hdtext⟩ := said_mem hsaid
    have htail := hwhole.tail_eq u hsaid
    have htail_nl : newline ∉ tail := by
      rw [htail, hdtext]
      exact (htexts u d (h.todo_subset u hd)).1
    have hsame := hwhole.length_pieces (htail ▸ hsaid) htail_nl hnl
    omega
  | newline t a c todo hc hsaid hpipe htodo hsaid' =>
    have hne : s.said t ≠ [] := by
      rw [hsaid]
      exact (htexts t c (h.todo_subset t (by simp [hc]))).2
    refine ⟨spoken, h.ended hc hne hpipe htodo hsaid', fun heq => ?_⟩
    rw [hpipe, pieces_snoc_sep] at heq
    refine ⟨heq, fun log tail hwhole u hu => ?_⟩
    by_contra hsaid
    exact hu (hwhole.one u t hsaid hne)

theorem spoken_init (calls : ι → List Call) : Spoken calls [] (machine calls).init := by
  have hsaid : ∀ t, (machine calls).init.said t = [] := said_of_atRest fun _ => rfl
  constructor
  · intro t
    rw [if_pos (hsaid t)]
    rfl
  · intro t
    exact Subset.refl _
  · exact Nat.zero_le _

theorem spoken_run (hshort : ∀ t, ∀ c ∈ calls t, c.text.length + 1 < pipeBuf)
    (htexts : Texts calls) {as : List (Action ι)} (hr : (machine calls).run as = some s)
    (hatomic : (machine calls).Meets (Atomic pipeBuf) as) :
    ∃ spoken, Spoken calls spoken s ∧
      ((pieces newline s.pipe).length = spoken.length → (machine calls).Meets Alone as) := by
  induction as using reverseRecOn generalizing s with
  | nil =>
    cases hr
    exact ⟨[], spoken_init calls, fun _ pre a post he => by simp at he⟩
  | append_singleton as act ih =>
    obtain ⟨s₁, h₁, ha⟩ := Sts.run_snoc_eq_some.1 hr
    obtain ⟨hpre, hlast⟩ := Sts.meets_snoc.1 hatomic
    obtain ⟨spoken, hspoken, hmeets⟩ := ih h₁ hpre
    obtain ⟨-, hstep⟩ := step_cases (good_run hshort h₁ hpre) (hlast s₁ h₁) ha
    obtain ⟨spoken', hspoken', hcount⟩ := hspoken.step htexts hstep
    refine ⟨spoken', hspoken', fun heq => ?_⟩
    obtain ⟨heq, halone⟩ := hcount heq
    refine Sts.meets_snoc.2 ⟨hmeets heq, fun s₂ h₂ => ?_⟩
    obtain rfl := Option.some.inj (h₁.symm.trans h₂)
    obtain ⟨log, tail, hwhole⟩ := whole_run hshort h₁ hpre (hmeets heq)
    exact halone log tail hwhole

omit [DecidableEq ι] in
theorem length_pieces_linesOf (h : ∀ e ∈ log, newline ∉ e.2.text ∧ e.2.text ≠ []) :
    (pieces newline (linesOf log)).length = log.length := by
  induction log with
  | nil => rfl
  | cons e log ih =>
    obtain ⟨hnl, hne⟩ := h e mem_cons_self
    have hcons : linesOf (e :: log) = e.2.text ++ newline :: linesOf log := by
      simp [linesOf, Call.line]
    rw [hcons, pieces_append, pieces_of_notMem hnl hne, length_append, length_singleton,
      ih fun d hd => h d (mem_cons_of_mem e hd), length_cons, Nat.add_comm]

/-- **Lines that are whole at rest** have been printed one at a time. -/
theorem alone_of_wholeLines (hshort : ∀ t, ∀ c ∈ calls t, c.text.length + 1 < pipeBuf)
    (htexts : Texts calls) {as : List (Action ι)} (hr : (machine calls).run as = some s)
    (hatomic : (machine calls).Meets (Atomic pipeBuf) as) (hrest : AtRest s)
    (hlines : WholeLines calls s) : (machine calls).Meets Alone as := by
  obtain ⟨log, tail, hpipe, horder, htail⟩ := hlines
  obtain ⟨spoken, hspoken, hmeets⟩ := spoken_run hshort htexts hr hatomic
  have hnil : tail = [] := by
    rcases htail with hnil | ⟨t, htail⟩
    · exact hnil
    · rw [htail, said_of_atRest hrest]
  have hsame : ∀ t, of t log = of t spoken := by
    intro t
    have hspoken_t := hspoken.order t
    rw [if_pos (said_of_atRest hrest t), ← horder t] at hspoken_t
    exact (append_cancel_right hspoken_t).symm
  have hlog : ∀ e ∈ log, newline ∉ e.2.text ∧ e.2.text ≠ [] := by
    intro e he
    refine htexts e.1 e.2 ?_
    rw [← horder e.1]
    exact mem_append_left _ (mem_of.2 he)
  apply hmeets
  rw [hpipe, hnil, append_nil, length_pieces_linesOf hlog, length_eq_of_of_eq hsame]

/-- **Printed lines stay whole** when no thread writes in the middle of another's line.  Where
    every call has a text, those are all the runs in which they do. -/
theorem lines_stay_whole (calls : ι → List Call) (pipeBuf : ℕ)
    (hcalls : ∀ t, ∀ c ∈ calls t, newline ∉ c.text ∧ c.text.length + 1 < pipeBuf)
    (as : List (Action ι)) (s : State ι) (hr : (machine calls).run as = some s)
    (hatomic : (machine calls).Meets (Atomic pipeBuf) as) :
    ((machine calls).Meets Alone as → WholeLines calls s) ∧
    ((∀ t, ∀ c ∈ calls t, c.text ≠ []) → AtRest s → WholeLines calls s →
      (machine calls).Meets Alone as) := by
  have hshort : ∀ t, ∀ c ∈ calls t, c.text.length + 1 < pipeBuf := fun t c hc => (hcalls t c hc).2
  constructor
  · intro halone
    obtain ⟨log, tail, hwhole⟩ := whole_run hshort hr hatomic halone
    exact hwhole.wholeLines
  · intro hne hrest hlines
    have htexts : Texts calls := fun t c hc => ⟨(hcalls t c hc).1, hne t c hc⟩
    exact alone_of_wholeLines hshort htexts hr hatomic hrest hlines

instance decidableAtomic (pipeBuf : ℕ) : ∀ (s : State ι) (act : Action ι),
    Decidable (Atomic pipeBuf s act)
  | _, .begins _ => .isTrue trivial
  | s, .writes t a => inferInstanceAs (Decidable (∀ w ∈ (s.threads t).left.head?,
      w.bytes.length ≤ pipeBuf → a = .ok w.bytes.length))

instance decidableAlone [Fintype ι] : ∀ (s : State ι) (act : Action ι), Decidable (Alone s act)
  | _, .begins _ => .isTrue trivial
  | s, .writes t _ => inferInstanceAs (Decidable (∀ u, u ≠ t → s.said u = []))

/-- Two threads with a line each: `a` and `b`. -/
def twoLines : Bool → List Call
  | false => [⟨.println, some [97]⟩]
  | true => [⟨.eprintln, some [98]⟩]

/-- One after the other. -/
theorem lines_stay_whole_turns :
    let as : List (Action Bool) := [.begins false, .writes false (.ok 1), .begins true,
      .writes false (.ok 1), .writes true (.ok 1), .writes true (.ok 1)]
    ∃ s, (machine twoLines).run as = some s ∧ s.pipe = [97, newline, 98, newline] ∧
      WholeLines twoLines s := by
  intro as
  obtain ⟨s, hr, hpipe⟩ : ∃ s, (machine twoLines).run as = some s ∧
      s.pipe = [97, newline, 98, newline] := ⟨_, rfl, rfl⟩
  have hcalls : ∀ t, ∀ c ∈ twoLines t, newline ∉ c.text ∧ c.text.length + 1 < 512 := by decide
  have hatomic : (machine twoLines).Meets (Atomic 512) as := Sts.MeetsFrom.meets (by decide)
  have halone : (machine twoLines).Meets Alone as := Sts.MeetsFrom.meets (by decide)
  exact ⟨s, hr, hpipe, (lines_stay_whole twoLines 512 hcalls as s hr hatomic).1 halone⟩

/-- **Lines are mixed** when a thread writes between the two writes of another: `ab` and an empty
    line arrive, which nobody has printed. -/
theorem lines_mixed :
    let as : List (Action Bool) := [.begins false, .begins true, .writes false (.ok 1),
      .writes true (.ok 1), .writes false (.ok 1), .writes true (.ok 1)]
    (∀ t, ∀ c ∈ twoLines t, newline ∉ c.text ∧ c.text.length + 1 < 512) ∧
    (machine twoLines).Meets (Atomic 512) as ∧
    ∃ s, (machine twoLines).run as = some s ∧ AtRest s ∧ (∀ t, s.todo t = []) ∧
      s.pipe = [97, 98, newline, newline] ∧ ¬ WholeLines twoLines s := by
  intro as
  have hcalls : ∀ t, ∀ c ∈ twoLines t, newline ∉ c.text ∧ c.text.length + 1 < 512 := by decide
  have hatomic : (machine twoLines).Meets (Atomic 512) as := Sts.MeetsFrom.meets (by decide)
  obtain ⟨s, hr, hrest, htodo, hpipe⟩ : ∃ s, (machine twoLines).run as = some s ∧ AtRest s ∧
      (∀ t, s.todo t = []) ∧ s.pipe = [97, 98, newline, newline] :=
    ⟨_, rfl, fun | false => rfl | true => rfl, fun | false => rfl | true => rfl, rfl⟩
  refine ⟨hcalls, hatomic, s, hr, hrest, htodo, hpipe, fun hlines => ?_⟩
  have hne : ∀ t, ∀ c ∈ twoLines t, c.text ≠ [] := by decide
  have halone := alone_of_wholeLines (fun t c hc => (hcalls t c hc).2)
    (fun t c hc => ⟨(hcalls t c hc).1, hne t c hc⟩) hr hatomic hrest hlines
  have hwrite := halone [.begins false, .begins true, .writes false (.ok 1)] (.writes true (.ok 1))
    _ rfl _ rfl
  exact absurd hwrite (by decide)

end Ekostd.Print
