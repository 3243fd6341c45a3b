/-
  The bounded channel over whole runs — no wakeup is lost.

  A `recv` waits for values: the units of `on_send` are the queued values, and
  the waiting is over once the last sender is gone.  A `send` waits for room:
  the units of `on_recv` are the free slots, and the waiting is over once the
  receiver is gone.  The two wait for each other only where there is no room at
  all: `sync_channel(0)` is accepted, and queues nothing.
-/
import Ekostd.Lib.Wakeup
import Ekostd.Channel.Safety

namespace Ekostd.Channel

open Monitor

variable {T : Type*}

/-- The calls that wait on `on_send`. -/
def isRecv : Call T → Bool
  | .recv => true
  | _ => false

/-- The calls that wait on `on_recv`. -/
def isSend : Call T → Bool
  | .send .. => true
  | _ => false

theorem Inv.senders_pos {e : Ends T} {ps : List (Entry (Call T) (Ret T))} (hI : Inv e ps) {h : ℕ}
    (hh : h ∈ e.handles) : 0 < e.state.senders := by
  rw [hI.counted]
  exact Finset.card_pos.2 ⟨h, hh⟩

/-- **The wakeups of `on_send`** are those of the queued values. -/
theorem wakes_onSend (capacity : ℕ) :
    Wakes (spec T capacity) Inv .onSend isRecv (fun e => e.state.queue.length)
      fun e => e.state.senders = 0 where
  waits _ _ hp := by
    rcases pass_wait hp with ⟨hc, -⟩ | ⟨-, rfl, hq, hs⟩
    · cases hc
    · exact ⟨rfl, by simp [hq], hs⟩
  only _ _ hw hp := by
    rcases pass_wait hp with ⟨-, ⟨h, v, rfl⟩, -⟩ | ⟨hc, -⟩
    · cases hw
    · exact hc
  takes _ _ hw hp hg := by
    cases pass_done hp with
    | recv v q hq => simp [hq]
    | finished _ hs => exact absurd hs hg
    | _ => cases hw
  gives {d ps k d' r n} hI ha hp hg := by
    cases pass_done hp with
    | push h v => simp [Notify.units]
    | recv v q hq => simp [hq]; omega
    | tryRecv v q hq => simp [hq]; omega
    | _ => simp
  stays hI ha hp hg := by
    cases pass_done hp with
    | clone h => exact absurd hg (hI.senders_pos (by simpa [spec, allowed] using ha)).ne'
    | dropSender h => simp [hg]
    | _ => exact hg
  tells hI ha hp hg hg' := by
    cases pass_done hp with
    | clone h => exact absurd hg' (Nat.succ_ne_zero _)
    | dropSender h => simp only at hg'; simp [hg']
    | _ => exact absurd hg' hg

/-- **The wakeups of `on_recv`** are those of the free slots. -/
theorem wakes_onRecv (capacity : ℕ) :
    Wakes (spec T capacity) Inv .onRecv isSend (fun e => capacity - e.state.queue.length)
      fun e => e.state.receiver = false where
  waits _ _ hp := by
    rcases pass_wait hp with ⟨-, ⟨h, v, rfl⟩, hr, hq⟩ | ⟨hc, -⟩
    · exact ⟨rfl, by omega, by simp [hr]⟩
    · cases hc
  only _ _ hw hp := by
    rcases pass_wait hp with ⟨hc, -⟩ | ⟨-, rfl, -⟩
    · exact hc
    · cases hw
  takes _ _ hw hp hg := by
    cases pass_done hp with
    | push h v _ hlt => simp; omega
    | gone h v hr => exact absurd hr hg
    | _ => cases hw
  gives _ _ hp hg := by
    cases pass_done hp with
    | push h v _ hlt => simp; omega
    | recv v q hq => simp [hq, Notify.units]; omega
    | tryRecv v q hq => simp [hq, Notify.units]; omega
    | _ => simp
  stays _ _ hp hg := by
    cases pass_done hp with
    | dropReceiver => rfl
    | _ => exact hg
  tells _ _ hp hg hg' := by
    cases pass_done hp with
    | dropReceiver => rfl
    | _ => exact absurd hg' hg

section
variable {ι : Type*} [Fintype ι] [DecidableEq ι]

/-- **No wakeup is lost**: when no thread inside a call can move, a waiting `recv` has nothing to
    take and a sender to wait for, and a waiting `send` has no room and a receiver to wait for. -/
theorem no_lost_wakeup (capacity : ℕ) {as : List (Act ι (Call T))}
    {s : Monitor.State ι (Ends T) (Call T) (Ret T) Cond}
    (h : ((spec T capacity).system ι).run as = some s) (hs : (spec T capacity).Stuck s) (t : ι)
    (id : ℕ) (k : Call T) :
    (s.pc t = .blocked id k .onSend → s.data.state.queue = [] ∧ s.data.state.senders ≠ 0) ∧
    (s.pc t = .blocked id k .onRecv →
      capacity ≤ s.data.state.queue.length ∧ s.data.state.receiver = true) := by
  constructor
  · intro ht
    obtain ⟨h₀, hg⟩ := (wakes_onSend capacity).stuck (lawful capacity) h hs ht
    exact ⟨List.length_eq_zero_iff.1 h₀, hg⟩
  · intro ht
    obtain ⟨h₀, hg⟩ := (wakes_onRecv capacity).stuck (lawful capacity) h hs ht
    exact ⟨by omega, by simpa using hg⟩

/-! ## Both ends waiting -/

/-- A `send` and a `recv` wait on the channel. -/
def BothWait (s : Monitor.State ι (Ends T) (Call T) (Ret T) Cond) : Prop :=
  (∃ t id h v c, s.pc t = .blocked id (.send h v) c) ∧ ∃ t id c, s.pc t = .blocked id .recv c

theorem blocked_on (capacity : ℕ) {as : List (Act ι (Call T))}
    {s : Monitor.State ι (Ends T) (Call T) (Ret T) Cond}
    (h : ((spec T capacity).system ι).run as = some s) {t : ι} {id : ℕ} {k : Call T} {c : Cond}
    (ht : s.pc t = .blocked id k c) :
    (c = .onSend ∧ k = .recv) ∨ (c = .onRecv ∧ ∃ h v, k = .send h v) := by
  cases c with
  | onSend =>
    have hk := (wakes_onSend capacity).waiter_of_blocked (lawful capacity) h ht
    cases k with
    | recv => exact .inl ⟨rfl, rfl⟩
    | _ => cases hk
  | onRecv =>
    have hk := (wakes_onRecv capacity).waiter_of_blocked (lawful capacity) h ht
    cases k with
    | send h v => exact .inr ⟨rfl, h, v, rfl⟩
    | _ => cases hk

/-- With room for one value the two do not wait at once: one wants the queue full, the other
    empty. -/
theorem not_bothWait {capacity : ℕ} (hcap : 0 < capacity) {as : List (Act ι (Call T))}
    {s : Monitor.State ι (Ends T) (Call T) (Ret T) Cond}
    (h : ((spec T capacity).system ι).run as = some s) (hs : (spec T capacity).Stuck s) :
    ¬ BothWait s := by
  rintro ⟨⟨t, id, h', v, c, ht⟩, u, id', c', hu⟩
  obtain ⟨hc, -⟩ := (blocked_on capacity h ht).resolve_left fun hk => by cases hk.2
  obtain ⟨hc', -⟩ := (blocked_on capacity h hu).resolve_right fun ⟨_, _, _, hk⟩ => by cases hk
  subst hc hc'
  have hfull := ((wakes_onRecv capacity).stuck (lawful capacity) h hs ht).1
  have hempty := ((wakes_onSend capacity).stuck (lawful capacity) h hs hu).1
  omega

/-- Without room, a `recv` and then a `send` wait for ever. -/
theorem exists_bothWait {t u : ι} (htu : t ≠ u) (v : T) :
    ∃ s, ((spec T 0).system ι).run [.call t .recv, .enter t, .call u (.send 0 v), .enter u] =
        some s ∧ (spec T 0).Stuck s ∧ BothWait s := by
  let pc := Function.update (fun _ : ι => (.idle : Pc (Call T) (Ret T) Cond)) t
    (.blocked 0 .recv .onSend)
  let s : Monitor.State ι (Ends T) (Call T) (Ret T) Cond :=
    ⟨syncChannel, Function.update pc u (.blocked 1 (.send 0 v) .onRecv), 2, [], []⟩
  have hrecv : ((spec T 0).system ι).run [.call t .recv, .enter t] =
      some ⟨syncChannel, pc, 1, [], []⟩ := by
    simp [Sts.run, Spec.system, Spec.step, spec, allowed, syncChannel, Spec.enter, pass, recv,
      Pass.map, Pc.call?, pc]
  have hsend : ((spec T 0).system ι).runFrom ⟨syncChannel, pc, 1, [], []⟩
      [.call u (.send 0 v), .enter u] = some s := by
    have hidle : pc u = .idle := Function.update_of_ne htu.symm _ _
    have hothers : ∀ w, (pc w).call?.all fun k => compat k (.send 0 v : Call T) := by
      intro w
      by_cases hw : w = t
      · subst hw
        simp [pc, Pc.call?, compat]
      · simp [pc, hw, Pc.call?]
    simp [Spec.system, Spec.step, spec, hidle, hothers, allowed, syncChannel, Spec.enter, pass,
      send, Pass.map, s]
  refine ⟨s, ?_, ?_, ⟨u, 1, 0, v, .onRecv, ?_⟩, t, 0, .onSend, ?_⟩
  · have hboth : ((spec T 0).system ι).run
        ([.call t .recv, .enter t] ++ [.call u (.send 0 v), .enter u]) = some s := by
      rw [Sts.run_append, hrecv]
      exact hsend
    exact hboth
  · refine Spec.Stuck.of_idle_or_blocked fun w => ?_
    by_cases hwu : w = u
    · exact .inr ⟨1, _, _, by rw [hwu]; exact Function.update_self u _ pc⟩
    · by_cases hwt : w = t
      · exact .inr ⟨0, .recv, .onSend, by simp [s, pc, hwt, htu]⟩
      · exact .inl (by simp [s, pc, hwu, hwt])
  · simp [s]
  · simp [s, pc, htu]

/-- **When a `send` and a `recv` never wait for each other**: exactly if there is room for a value,
    where there is a value to send and a thread at either end. -/
theorem send_recv_never_wait (ι T : Type*) [Fintype ι] [DecidableEq ι] (capacity : ℕ) :
    (∀ as s, ((spec T capacity).system ι).run as = some s → (spec T capacity).Stuck s →
      ¬ BothWait s) ↔ 0 < capacity ∨ Subsingleton ι ∨ IsEmpty T := by
  constructor
  · intro h
    by_contra! hno
    obtain ⟨hcap, hι, hT⟩ := hno
    obtain ⟨t, u, htu⟩ := exists_pair_ne ι
    obtain ⟨v⟩ := hT
    obtain rfl := Nat.le_zero.1 hcap
    obtain ⟨s, hr, hs, hboth⟩ := exists_bothWait htu v
    exact h _ s hr hs hboth
  · rintro (hcap | hι | hT) as s hr hs
    · exact not_bothWait hcap hr hs
    · rintro ⟨⟨t, id, h, v, c, ht⟩, u, id', c', hu⟩
      rw [Subsingleton.elim u t, ht] at hu
      cases hu
    · rintro ⟨⟨t, id, h, v, c, ht⟩, -⟩
      exact hT.elim v

end

/-- `sync_channel(0)`: thread `0` waits in `recv`, thread `1` in `send`, and neither will move. -/
theorem send_recv_wait_unbuffered :
    ¬ ∀ as (s : Monitor.State (Fin 2) (Ends ℕ) (Call ℕ) (Ret ℕ) Cond),
      ((spec ℕ 0).system (Fin 2)).run as = some s → (spec ℕ 0).Stuck s → ¬ BothWait s := by
  intro h
  obtain ⟨s, hr, hs, hboth⟩ := exists_bothWait (show (0 : Fin 2) ≠ 1 by decide) (7 : ℕ)
  exact h _ s hr hs hboth

/-- A `recv` that waits alone is stuck, with nothing queued and the sender still there. -/
theorem no_lost_wakeup_recv : ∃ (s : Monitor.State (Fin 2) (Ends ℕ) (Call ℕ) (Ret ℕ) Cond) (id : ℕ),
    ((spec ℕ 1).system (Fin 2)).run [.call 0 .recv, .enter 0] = some s ∧
    s.pc 0 = .blocked id .recv .onSend ∧ (spec ℕ 1).Stuck s ∧
    s.data.state.queue = [] ∧ s.data.state.senders ≠ 0 := by
  let s := (((spec ℕ 1).system (Fin 2)).run [.call 0 .recv, .enter 0]).get (by decide)
  have hrun : ((spec ℕ 1).system (Fin 2)).run [.call 0 .recv, .enter 0] = some s :=
    (Option.some_get _).symm
  have hstuck : (spec ℕ 1).Stuck s := by
    intro a ha
    cases a with
    | enter t => fin_cases t <;> rfl
    | signal t u => fin_cases t <;> fin_cases u <;> rfl
    | signalNone t => fin_cases t <;> rfl
    | broadcast t => fin_cases t <;> rfl
    | call | spurious => cases ha
  exact ⟨s, 0, hrun, rfl, hstuck, (no_lost_wakeup 1 hrun hstuck 0 0 .recv).1 rfl⟩

end Ekostd.Channel
