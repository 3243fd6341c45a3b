/-
  `Child` — a child that has been waited for.

  `try_wait` and `wait` ask `waitpid` until it says how the child ended, and
  keep what it said.  From then on the pid is the kernel's again; what is kept
  is what tells the parent so.

  * `holder`: a parent that calls the operations of `Child` as it likes, with
    any answers of `waitpid`; its log is what it asks of the kernel about the
    pid, and what `try_wait` and `wait` return;
  * `reaped_untouched`: after a code was returned it is returned again without
    a `waitpid`, and no signal is sent exactly if nobody asks for one.
-/
import Ekostd.Command.Ready

namespace Ekostd.Command

/-- `SIGKILL`. -/
def SIGKILL : ℕ := 9

/-- `SIGTERM`. -/
def SIGTERM : ℕ := 15

/-- `WNOHANG`. -/
def WNOHANG : ℕ := 1

/-- What a parent asks of the kernel about a pid, and what it has found out. -/
inductive PidEvent where
  | waitpid (pid flags : ℕ)
  | kill (pid : ℤ) (sig : ℕ)
  | returned (code : Option ℤ)
  deriving DecidableEq

namespace Child

variable (self : Child)

/-- `Child::signal`. -/
def signal (sig : ℕ) : List PidEvent := [.kill (-self.pid) sig, .kill self.pid sig]

/-- `Child::terminate`. -/
def terminate : List PidEvent := self.signal SIGTERM

/-- `Child::kill`. -/
def kill : List PidEvent := self.signal SIGKILL

/-- One turn of the loop of `Child::collect`, with any flags: the child after `waitpid` has
    answered, and what is returned if the loop is over.  The answer 0 is `none`. -/
def collectAny : Except Errno (Option ℕ) → Child × Option (Option ℤ)
  | .ok none => (self, some none)
  | .ok (some status) => (self.collectTurn (.ok status)).map id (Option.map some)
  | .error e => (self.collectTurn (.error e)).map id (Option.map some)

end Child

/-- The operations that wait. -/
inductive Waiting where
  | tryWait
  | wait
  deriving DecidableEq

/-- The flags that `collect` is called with. -/
def Waiting.flags : Waiting → ℕ
  | tryWait => WNOHANG
  | wait => 0

/-- `Child::try_wait` and `Child::wait`, of what `collect` returns. -/
def Waiting.result : Waiting → Option ℤ → Option ℤ
  | tryWait, code => code
  | wait, code => some (code.getD (-1))

/-- A parent with a child: the child, its pipes and where `read_ready` is; the operation that is in
    `collect`; and the log. -/
structure Held where
  sys : State
  waiting : Option Waiting
  log : List PidEvent

/-- No operation is under way. -/
def Held.idle (s : Held) : Bool := s.waiting.isNone && s.sys.pc matches .loop

/-- What is called, and what goes on meanwhile. -/
inductive Op where
  | move (m : Move)
  | call (w : Waiting)
  | waitpid (answer : Except Errno (Option ℕ))
  | terminate
  | kill

/-- `Child::collect` up to its loop. -/
def stepCall (s : Held) (w : Waiting) : Held :=
  match s.sys.child.status with
  | some code => { s with log := s.log ++ [.returned (w.result (some code))] }
  | none => { s with waiting := some w }

/-- `waitpid` answers `collect`. -/
def stepCollect (s : Held) (w : Waiting) (answer : Except Errno (Option ℕ)) : Held :=
  let asked : PidEvent := .waitpid s.sys.child.pid w.flags
  match s.sys.child.collectAny answer with
  | (child, none) => { s with sys.child := child, log := s.log ++ [asked] }
  | (child, some code) =>
    { sys := { s.sys with child := child }, waiting := none,
      log := s.log ++ [asked, .returned (w.result code)] }

/-- A parent that calls the operations of `Child` as it likes. -/
def holder (host : Host) (c : Spawned) : Sts Held Op where
  init := ⟨(system host c).init, none, []⟩
  step s
    | .move (.readReady timeout) =>
      if s.idle then
        ((caller host c).step s.sys (.readReady timeout)).map fun sys => { s with sys := sys }
      else none
    | .move (.go a) => ((caller host c).step s.sys (.go a)).map fun sys => { s with sys := sys }
    | .call w => if s.idle then some (stepCall s w) else none
    | .waitpid answer => match s.waiting with
      -- without `WNOHANG` the answer is not 0
      | some w => if answer = .ok none ∧ w.flags ≠ WNOHANG then none
        else some (stepCollect s w answer)
      | none => none
    | .terminate => if s.idle then some { s with log := s.log ++ s.sys.child.terminate } else none
    | .kill => if s.idle then some { s with log := s.log ++ s.sys.child.kill } else none

/-- If `x` returned a code, then `e`, which came later, is no `waitpid`, and returns that code if
    it returns. -/
def Repeats (x e : PidEvent) : Prop :=
  ∀ code, x = .returned (some code) →
    (∀ pid flags, e ≠ .waitpid pid flags) ∧ ∀ r, e = .returned r → r = some code

/-- If `x` returned a code, then `e`, which came later, is no signal. -/
def Spares (x e : PidEvent) : Prop :=
  ∀ code, x = .returned (some code) → ∀ pid sig, e ≠ .kill pid sig

/-- A signal is asked for only while no code is known. -/
def SignalsUnreaped (s : Held) : Op → Prop
  | .terminate | .kill => s.sys.child.status = none
  | _ => True

/-- The code that is kept is the one that was returned, and there is none while the parent waits. -/
structure Keeps (s : Held) : Prop where
  kept : ∀ code, .returned (some code) ∈ s.log ↔ s.sys.child.status = some code
  waiting : s.waiting ≠ none → s.sys.child.status = none

variable {host : Host} {c : Spawned} {s t : Held} {op : Op}

/-! ## What a step does -/

theorem caller_child {x y : State} {m : Move} (h : (caller host c).step x m = some y) :
    y.child.status = x.child.status ∧ y.child.pid = x.child.pid := by
  cases m with
  | readReady timeout =>
    simp only [caller] at h
    split at h
    · cases h
      exact ⟨rfl, rfl⟩
    · cases h
  | go a =>
    rcases call_cases h with ⟨k, rfl, hchild⟩ | ⟨fds, watched, ms, answer, rfl, -, -, rfl⟩ |
      ⟨g, fds, watched, answer, rfl, -, hread⟩
    · rw [(stepChild_parent hchild).1]
      exact ⟨rfl, rfl⟩
    · unfold afterPoll
      split
      · split_ifs <;> exact ⟨rfl, rfl⟩
      · split_ifs <;> exact ⟨rfl, rfl⟩
    · unfold stepRead at hread
      split at hread
      · cases hread
      · dsimp only at hread
        split_ifs at hread <;> cases hread <;> cases g <;> exact ⟨rfl, rfl⟩

theorem collectAny_cases (self : Child) (answer : Except Errno (Option ℕ)) :
    (self.collectAny answer = (self, some none) ∧ answer = .ok none) ∨
    self.collectAny answer = (self, none) ∨
    ∃ code, self.collectAny answer = ({ self with status := some code }, some (some code)) := by
  cases answer with
  | error e =>
    by_cases he : e = Errno.EINTR
    · exact .inr (.inl (by simp [Child.collectAny, Child.collectTurn, he]))
    · exact .inr (.inr ⟨-1, by simp [Child.collectAny, Child.collectTurn, he]⟩)
  | ok r =>
    cases r with
    | none => exact .inl ⟨rfl, rfl⟩
    | some status => exact .inr (.inr ⟨exitCode status, rfl⟩)

/-- The code that is kept. -/
def Held.status (s : Held) : Option ℤ := s.sys.child.status

/-- What a step adds to the log, and what it does to the code that is kept. -/
inductive Adds (s t : Held) (op : Op) : Prop where
  | quiet (log : t.log = s.log) (status : t.status = s.status)
      (waiting : t.waiting = s.waiting ∨ s.status = none) (fine : SignalsUnreaped s op)
  | again (code : ℤ) (kept : s.status = some code)
      (log : t.log = s.log ++ [.returned (some code)]) (status : t.status = s.status)
      (waiting : t.waiting = s.waiting) (fine : SignalsUnreaped s op)
  | asked (pid flags : ℕ) (was : s.waiting ≠ none) (log : t.log = s.log ++ [.waitpid pid flags])
      (status : t.status = s.status) (fine : SignalsUnreaped s op)
  | running (pid flags : ℕ) (was : s.waiting ≠ none)
      (log : t.log = s.log ++ [.waitpid pid flags, .returned none])
      (status : t.status = s.status) (fine : SignalsUnreaped s op)
  | found (pid flags : ℕ) (code : ℤ) (was : s.waiting ≠ none)
      (log : t.log = s.log ++ [.waitpid pid flags, .returned (some code)])
      (status : t.status = some code) (done : t.waiting = none) (fine : SignalsUnreaped s op)
  | signalled (sig : ℕ) (log : t.log = s.log ++ s.sys.child.signal sig)
      (status : t.status = s.status) (waiting : t.waiting = s.waiting)
      (fine : SignalsUnreaped s op ↔ s.status = none)

theorem adds_of_move {m : Move} {y : State} (h : (caller host c).step s.sys m = some y) :
    Adds s { s with sys := y } (.move m) :=
  .quiet rfl (caller_child h).1 (.inl rfl) trivial

theorem adds_stepCall (s : Held) (w : Waiting) : Adds s (stepCall s w) (.call w) := by
  unfold stepCall
  split
  · next code hcode =>
    refine .again code hcode ?_ rfl rfl trivial
    cases w <;> rfl
  · next hnone => exact .quiet rfl rfl (.inr hnone) trivial

theorem adds_stepCollect {w : Waiting} {answer : Except Errno (Option ℕ)}
    (hw : s.waiting = some w) (hflags : ¬ (answer = .ok none ∧ w.flags ≠ WNOHANG)) :
    Adds s (stepCollect s w answer) (.waitpid answer) := by
  have hwas : s.waiting ≠ none := by simp [hw]
  unfold stepCollect
  rcases collectAny_cases s.sys.child answer with ⟨hturn, hzero⟩ | hturn | ⟨code, hturn⟩
  · rw [hturn]
    cases w with
    | tryWait => exact .running _ _ hwas rfl rfl trivial
    | wait => exact absurd ⟨hzero, by decide⟩ hflags
  · rw [hturn]
    exact .asked _ _ hwas rfl rfl trivial
  · rw [hturn]
    refine .found s.sys.child.pid w.flags code hwas ?_ rfl rfl trivial
    cases w <;> rfl

/-- **What a step does.** -/
theorem adds_of_step (h : (holder host c).step s op = some t) : Adds s t op := by
  cases op with
  | move m =>
    have hmove : ∃ y, (caller host c).step s.sys m = some y ∧ { s with sys := y } = t := by
      cases m with
      | readReady timeout =>
        simp only [holder] at h
        split_ifs at h
        exact Option.map_eq_some_iff.1 h
      | go a => exact Option.map_eq_some_iff.1 h
    obtain ⟨y, hy, rfl⟩ := hmove
    exact adds_of_move hy
  | call w =>
    simp only [holder] at h
    split_ifs at h
    cases h
    exact adds_stepCall s w
  | waitpid answer =>
    simp only [holder] at h
    split at h
    · next w hw =>
      split_ifs at h with hflags
      cases h
      exact adds_stepCollect hw hflags
    · cases h
  | terminate =>
    simp only [holder] at h
    split_ifs at h
    cases h
    exact .signalled SIGTERM rfl rfl rfl Iff.rfl
  | kill =>
    simp only [holder] at h
    split_ifs at h
    cases h
    exact .signalled SIGKILL rfl rfl rfl Iff.rfl

/-! ## The log -/

theorem Keeps.fresh (h : Keeps s) (hs : s.status = none) (code : ℤ) :
    .returned (some code) ∉ s.log := by
  rw [h.kept code, show s.sys.child.status = none from hs]
  simp

theorem Keeps.step (h : Keeps s) (ht : Adds s t op) : Keeps t := by
  have hmem : ∀ {es : List PidEvent}, t.log = s.log ++ es → t.status = s.status →
      (∀ code, .returned (some code) ∈ es → s.status = some code) →
      ∀ code, .returned (some code) ∈ t.log ↔ t.status = some code := by
    intro es hlog hstatus hes code
    rw [hlog, hstatus, List.mem_append, h.kept code]
    exact ⟨fun hor => hor.elim id (hes code), .inl⟩
  cases ht with
  | quiet log status waiting _ =>
    refine ⟨@hmem [] (by simp [log]) status (by simp), fun hw => ?_⟩
    rw [show t.sys.child.status = s.sys.child.status from status]
    exact waiting.elim (fun hsame => h.waiting (hsame ▸ hw)) id
  | again code kept log status waiting _ =>
    refine ⟨hmem log status (by simp [kept]), fun hw => ?_⟩
    rw [show t.sys.child.status = s.sys.child.status from status]
    exact h.waiting (waiting ▸ hw)
  | asked pid flags was log status _ =>
    exact ⟨hmem log status (by simp), fun _ => status.trans (h.waiting was)⟩
  | running pid flags was log status _ =>
    exact ⟨hmem log status (by simp), fun _ => status.trans (h.waiting was)⟩
  | found pid flags code was log status done _ =>
    refine ⟨fun code' => ?_, fun hw => absurd done hw⟩
    have hnone := h.fresh (h.waiting was) code'
    rw [log, show t.sys.child.status = some code from status]
    simp [hnone, eq_comm]
  | signalled sig log status waiting _ =>
    refine ⟨hmem log status (by simp [Child.signal]), fun hw => ?_⟩
    rw [show t.sys.child.status = s.sys.child.status from status]
    exact h.waiting (waiting ▸ hw)

theorem keeps_inductive {p q : Proc} (hc : c.Started p q) : (holder host c).Inductive Keeps where
  init := by
    refine ⟨fun code => ?_, fun h => absurd rfl h⟩
    show .returned (some code) ∈ ([] : List PidEvent) ↔ c.child.status = some code
    simp [hc.status]
  step h ht := h.step (adds_of_step ht)

theorem pairwise_append_of_fresh {R : PidEvent → PidEvent → Prop} {log es : List PidEvent}
    (hR : ∀ x e, (∀ code, x ≠ .returned (some code)) → R x e)
    (hlog : ∀ code, .returned (some code) ∉ log) (hes : es.Pairwise R) :
    (log ++ es).Pairwise R ↔ log.Pairwise R := by
  rw [List.pairwise_append]
  refine ⟨fun h => h.1, fun h => ⟨h, hes, fun x hx e _ => hR x e fun code hcode => ?_⟩⟩
  exact hlog code (hcode ▸ hx)

theorem repeats_of_ne (x e : PidEvent) (h : ∀ code, x ≠ .returned (some code)) : Repeats x e :=
  fun code hcode => absurd hcode (h code)

theorem spares_of_ne (x e : PidEvent) (h : ∀ code, x ≠ .returned (some code)) : Spares x e :=
  fun code hcode => absurd hcode (h code)

/-- **A code is returned again**, without a `waitpid`. -/
theorem Keeps.repeats (h : Keeps s) (ht : Adds s t op) (hs : s.log.Pairwise Repeats) :
    t.log.Pairwise Repeats := by
  cases ht with
  | quiet log => rwa [log]
  | again code kept log =>
    rw [log, List.pairwise_append]
    refine ⟨hs, List.pairwise_singleton _ _, fun x hx e he code' hcode' => ?_⟩
    rw [List.mem_singleton.1 he]
    have hkept := (h.kept code').1 (hcode' ▸ hx)
    obtain rfl := Option.some.inj (kept.symm.trans hkept)
    exact ⟨fun _ _ => by simp, fun r hr => (PidEvent.returned.inj hr).symm⟩
  | asked pid flags was log =>
    rw [log, pairwise_append_of_fresh repeats_of_ne (h.fresh (h.waiting was)) (by simp)]
    exact hs
  | running pid flags was log =>
    rw [log, pairwise_append_of_fresh repeats_of_ne (h.fresh (h.waiting was))
      (by simp [repeats_of_ne])]
    exact hs
  | found pid flags code was log =>
    rw [log, pairwise_append_of_fresh repeats_of_ne (h.fresh (h.waiting was))
      (by simp [repeats_of_ne])]
    exact hs
  | signalled sig log =>
    rw [log, List.pairwise_append]
    refine ⟨hs, by simp [Child.signal, repeats_of_ne], fun x _ e he code _ => ?_⟩
    simp only [Child.signal, List.mem_cons, List.not_mem_nil, or_false] at he
    rcases he with rfl | rfl <;> exact ⟨fun _ _ => by simp, fun r hr => by cases hr⟩

theorem pairwise_spares_append {log es : List PidEvent}
    (hes : ∀ e ∈ es, ∀ pid sig, e ≠ .kill pid sig) :
    (log ++ es).Pairwise Spares ↔ log.Pairwise Spares := by
  rw [List.pairwise_append]
  refine ⟨fun h => h.1, fun h => ⟨h, ?_, fun x _ e he _ _ => hes e he⟩⟩
  exact List.pairwise_of_forall_mem_list fun x _ e he _ _ => hes e he

/-- **A signal is sent to a child that has been waited for** exactly if one is asked for then. -/
theorem Keeps.spares_iff (h : Keeps s) (ht : Adds s t op) :
    t.log.Pairwise Spares ↔ s.log.Pairwise Spares ∧ SignalsUnreaped s op := by
  cases ht with
  | quiet log _ _ fine => simp [log, fine]
  | again code kept log _ _ fine => rw [log, pairwise_spares_append (by simp)]; simp [fine]
  | asked pid flags was log _ fine => rw [log, pairwise_spares_append (by simp)]; simp [fine]
  | running pid flags was log _ fine => rw [log, pairwise_spares_append (by simp)]; simp [fine]
  | found pid flags code was log _ _ fine =>
    rw [log, pairwise_spares_append (by simp)]
    simp [fine]
  | signalled sig log _ _ fine =>
    rw [fine, log]
    constructor
    · intro hpair
      refine ⟨(List.pairwise_append.1 hpair).1, ?_⟩
      by_contra hne
      obtain ⟨code, hcode⟩ := Option.ne_none_iff_exists'.1 hne
      have hmem := (h.kept code).2 hcode
      exact (List.pairwise_append.1 hpair).2.2 _ hmem _ List.mem_cons_self code rfl _ _ rfl
    · rintro ⟨hpair, hnone⟩
      rw [pairwise_append_of_fresh spares_of_ne (h.fresh hnone)
        (by simp [Child.signal, spares_of_ne])]
      exact hpair

/-- **When a child that has been waited for is left alone**: a code that was returned is returned
    again without a `waitpid`, in every run; and no signal is sent after it exactly in the runs
    that ask for none. -/
theorem reaped_untouched {w : World} {self : Command} {p : Proc} (hc : c ∈ (self.spawn w p).1)
    {ops : List Op} (hr : (holder host c).run ops = some s) :
    s.log.Pairwise Repeats ∧
    (s.log.Pairwise Spares ↔ (holder host c).Meets SignalsUnreaped ops) := by
  have hkeeps : (holder host c).Inductive Keeps := keeps_inductive (spawn_started hc)
  constructor
  · have hboth := hkeeps.and (J := fun s => s.log.Pairwise Repeats) List.Pairwise.nil
      fun h hrep ht => h.repeats (adds_of_step ht) hrep
    exact (hboth.run hr).2
  · exact Sts.iff_meets hkeeps (P := fun s => s.log.Pairwise Spares) List.Pairwise.nil
      (fun h ht => h.spares_iff (adds_of_step ht)) hr

/-- `/a` is asked to stop, waited for with an interruption, and waited for again. -/
theorem reaped_untouched_stopped :
    let ops : List Op := [.call .tryWait, .waitpid (.ok none), .terminate, .call .wait,
      .waitpid (.error Errno.EINTR), .waitpid (.ok (some 15)), .call .tryWait]
    ∃ c ∈ ((new [47, 97]).spawn .calm closed).1, ∃ s, (holder quiet c).run ops = some s ∧
      s.log.Pairwise Repeats ∧
      (s.log.Pairwise Spares ↔ (holder quiet c).Meets SignalsUnreaped ops) := by
  intro ops
  have hc := Option.get_mem (show ((new [47, 97]).spawn .calm closed).1.isSome by decide)
  have hrun : ((holder quiet (((new [47, 97]).spawn .calm closed).1.get (by decide))).run
      ops).isSome := by decide +kernel
  obtain ⟨s, hr⟩ := Option.isSome_iff_exists.1 hrun
  exact ⟨_, hc, s, hr, reaped_untouched hc hr⟩

/-- **`/a` exits, is waited for, and then killed**: the signal is sent to the pid, and to its
    group. -/
theorem reaped_is_killed :
    ∃ c ∈ ((new [47, 97]).spawn .calm closed).1, ∃ s,
      (holder quiet c).run [.call .wait, .waitpid (.ok (some 0)), .kill] = some s ∧
      s.log = [.waitpid 7 0, .returned (some 0), .kill (-7) SIGKILL, .kill 7 SIGKILL] ∧
      ¬ s.log.Pairwise Spares := by
  have hc := Option.get_mem (show ((new [47, 97]).spawn .calm closed).1.isSome by decide)
  have hrun : ((holder quiet (((new [47, 97]).spawn .calm closed).1.get (by decide))).run
      [.call .wait, .waitpid (.ok (some 0)), .kill]).map Held.log =
      some [.waitpid 7 0, .returned (some 0), .kill (-7) SIGKILL, .kill 7 SIGKILL] := by
    decide +kernel
  obtain ⟨s, hr, hlog⟩ := Option.map_eq_some_iff.1 hrun
  refine ⟨_, hc, s, hr, hlog, ?_⟩
  rw [hlog]
  intro hpair
  have hlater := (List.pairwise_cons.1 (List.pairwise_cons.1 hpair).2).1 _ List.mem_cons_self
  exact hlater 0 rfl _ _ rfl

end Ekostd.Command
