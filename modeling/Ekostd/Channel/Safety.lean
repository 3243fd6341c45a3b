/-
  The bounded channel over whole runs — what was accepted and what was handed
  out.

  The history of a run is its completed sections, in the order in which they
  held the mutex.  `accepted` are the values its sends pushed and `delivered`
  those its receives popped.

  * `simulates`: the channel is a bounded first-in first-out queue (`Fifo`),
    in which a section that pushes or pops is one operation and all the rest
    is none;
  * `Inv`: the ends and their count, and when a section may refuse;
  * `channel_safe`: the two together, for every run.
-/
import Ekostd.Lib.Fifo
import Ekostd.Channel.Model

namespace Ekostd.Channel

open Monitor

variable {T : Type*}

/-! ## What was accepted and what was handed out -/

/-- The value a section pushed. -/
def pushed? : Entry (Call T) (Ret T) → Option T
  | ⟨_, .send _ v, .send (.ok ())⟩ => some v
  | _ => none

/-- The value a section popped. -/
def popped? : Entry (Call T) (Ret T) → Option T
  | ⟨_, _, .recv (.ok v)⟩ | ⟨_, _, .tryRecv (some v)⟩ => some v
  | _ => none

/-- The values accepted by `send`, in the order of the sections. -/
def accepted (ps : List (Entry (Call T) (Ret T))) : List T := ps.filterMap pushed?

/-- The values handed out by `recv` and `tryRecv`, in the order of the sections. -/
def delivered (ps : List (Entry (Call T) (Ret T))) : List T := ps.filterMap popped?

theorem accepted_snoc (ps : List (Entry (Call T) (Ret T))) (x : Entry (Call T) (Ret T)) :
    accepted (ps ++ [x]) = accepted ps ++ (pushed? x).toList := by
  rw [accepted, List.filterMap_append]
  cases h : pushed? x with
  | none => rw [List.filterMap_cons_none h]; rfl
  | some v => rw [List.filterMap_cons_some h]; rfl

theorem delivered_snoc (ps : List (Entry (Call T) (Ret T))) (x : Entry (Call T) (Ret T)) :
    delivered (ps ++ [x]) = delivered ps ++ (popped? x).toList := by
  rw [delivered, List.filterMap_append]
  cases h : popped? x with
  | none => rw [List.filterMap_cons_none h]; rfl
  | some v => rw [List.filterMap_cons_some h]; rfl

theorem Done.fifo {capacity : ℕ} {e e' : Ends T} {k : Call T} {r : Ret T}
    {n : Option (Notify Cond)} (h : Done capacity e k e' r n) (id : ℕ)
    {ps : List (Entry (Call T) (Ret T))} {f : Fifo T} (hs : f.sent = accepted ps)
    (ho : f.out = delivered ps) (hq : f.queue = e.state.queue) :
    ∃ ops f', (Fifo.system T capacity).runFrom f ops = some f' ∧
      f'.sent = accepted (ps ++ [⟨id, k, r⟩]) ∧ f'.out = delivered (ps ++ [⟨id, k, r⟩]) ∧
      f'.queue = e'.state.queue := by
  rw [accepted_snoc, delivered_snoc, ← hs, ← ho]
  have hpop : ∀ v q, e.state.queue = v :: q → ∃ f', (Fifo.system T capacity).runFrom f [.pop] =
      some f' ∧ f'.sent = f.sent ++ [] ∧ f'.out = f.out ++ [v] ∧ f'.queue = q := by
    intro v q hv
    obtain ⟨hlt, hout, hqueue⟩ := Fifo.queue_pop (hq.trans hv)
    exact ⟨f.pop hlt, by simp [Fifo.step_pop hlt], (List.append_nil _).symm, hout, hqueue⟩
  cases h with
  | push h v _ hlt =>
    rw [← hq] at hlt
    refine ⟨[.push v], f.push v, by simp [Fifo.step_push hlt], rfl, ?_, by rw [f.queue_push, hq]⟩
    rw [f.out_push]
    exact (List.append_nil _).symm
  | recv v q hv | tryRecv v q hv =>
    obtain ⟨f', hpopped⟩ := hpop v q hv
    exact ⟨[.pop], f', hpopped⟩
  | gone | clone | dropSender | finished | tryEmpty | dropReceiver =>
    exact ⟨[], f, rfl, (List.append_nil _).symm, (List.append_nil _).symm, hq⟩

section
variable {ι : Type*} [Fintype ι] [DecidableEq ι]

/-- **The channel is a bounded first-in first-out queue.** -/
theorem simulates (capacity : ℕ) :
    ((spec T capacity).system ι).Simulates (Fifo.system T capacity) fun s f =>
      f.sent = accepted s.passes ∧ f.out = delivered s.passes ∧ f.queue = s.data.state.queue where
  init := ⟨rfl, rfl, rfl⟩
  step {s f a s'} hR ha := by
    cases (Spec.step_cases ha).frame with
    | call _ _ _ _ _ _ _ hd hps _ => exact ⟨[], f, rfl, by rwa [hps, hd]⟩
    | quiet hd hps _ _ _ _ => exact ⟨[], f, rfl, by rwa [hps, hd]⟩
    | done t id k d r n _ hp hd hps =>
      rw [hd, hps]
      exact (pass_done hp).fifo id hR.1 hR.2.1 hR.2.2

end

/-! ## The ends -/

/-- The counts and flags say which ends live; a `recv` ends only with every sender gone and
    nothing queued, and from then on always; a `send` fails only after the receiver was
    dropped, with its own value. -/
structure Inv (e : Ends T) (ps : List (Entry (Call T) (Ret T))) : Prop where
  counted : e.state.senders = e.handles.card
  named : ∀ h ∈ e.handles, h < e.next
  closed : e.state.receiver = false → ∃ x ∈ ps, x.call = .dropReceiver
  ended : ∀ x ∈ ps, x.ret = .recv (.error .mk) → e.handles = ∅ ∧ e.state.queue = []
  final : Past (fun pre x => (∃ y ∈ pre, y.ret = .recv (.error .mk)) → x.call = .recv →
    x.ret = .recv (.error .mk)) ps
  refused : Past (fun pre x => ∀ h v err, x.call = .send h v → x.ret = .send (.error err) →
    err.value = v ∧ ∃ y ∈ pre, y.call = .dropReceiver) ps

theorem Inv.init : Inv (syncChannel : Ends T) [] :=
  ⟨rfl, by simp [syncChannel], by simp [syncChannel], by simp, Past.nil _, Past.nil _⟩

/-- A section that uses a sender, or finds a value, runs before any `recv` has ended. -/
theorem Inv.not_ended {e : Ends T} {ps : List (Entry (Call T) (Ret T))} (hI : Inv e ps)
    (h : e.handles.Nonempty ∨ e.state.queue ≠ []) {x : Entry (Call T) (Ret T)} (hx : x ∈ ps) :
    x.ret ≠ .recv (.error .mk) := by
  intro hr
  obtain ⟨hh, hq⟩ := hI.ended x hx hr
  rcases h with h | h
  · simp [hh] at h
  · exact h hq

theorem Inv.keep {capacity : ℕ} {e e' : Ends T} {ps : List (Entry (Call T) (Ret T))} {k : Call T}
    {r : Ret T} {n : Option (Notify Cond)} (hI : Inv e ps) (ha : allowed e k)
    (hd : Done capacity e k e' r n) (id : ℕ) : Inv e' (ps ++ [⟨id, k, r⟩]) := by
  have hclosed : ∀ x : Entry (Call T) (Ret T), e.state.receiver = false →
      ∃ y ∈ ps ++ [x], y.call = .dropReceiver := by
    intro x hr
    obtain ⟨y, hy, hc⟩ := hI.closed hr
    exact ⟨y, List.mem_append_left _ hy, hc⟩
  -- the sections that end no `recv` leave what the ended ones said, if they change no end
  have hsame : ∀ x : Entry (Call T) (Ret T), x.ret ≠ .recv (.error .mk) →
      ∀ y ∈ ps ++ [x], y.ret = .recv (.error .mk) → e.handles = ∅ ∧ e.state.queue = [] := by
    intro x hx y hy hr
    rcases List.mem_append.1 hy with hy | hy
    · exact hI.ended y hy hr
    · rw [List.mem_singleton.1 hy] at hr; exact absurd hr hx
  have hnone : ∀ x : Entry (Call T) (Ret T), x.ret ≠ .recv (.error .mk) →
      (e.handles.Nonempty ∨ e.state.queue ≠ []) →
      ∀ y ∈ ps ++ [x], y.ret ≠ .recv (.error .mk) := by
    intro x hx hne y hy
    rcases List.mem_append.1 hy with hy | hy
    · exact hI.not_ended hne hy
    · rwa [List.mem_singleton.1 hy]
  cases hd with
  | gone h v hr =>
    refine ⟨hI.counted, hI.named, hclosed _, hsame _ (by simp), hI.final.snoc (by simp),
      hI.refused.snoc ?_⟩
    intro h' v' err hc he
    cases hc; cases he
    exact ⟨rfl, hI.closed hr⟩
  | push h v hr _ =>
    have hh : h ∈ e.handles := by simpa [allowed] using ha
    refine ⟨hI.counted, hI.named, hclosed _, fun y hy hy' => ?_, hI.final.snoc (by simp),
      hI.refused.snoc (by simp)⟩
    exact absurd hy' (hnone _ (by simp) (Or.inl ⟨h, hh⟩) y hy)
  | clone h =>
    have hh : h ∈ e.handles := by simpa [allowed] using ha
    refine ⟨?_, fun h' hh' => ?_, hclosed _, fun y hy hy' => ?_, hI.final.snoc (by simp),
      hI.refused.snoc (by simp)⟩
    · have hnew : e.next ∉ e.handles := fun hn => lt_irrefl _ (hI.named _ hn)
      simp [Finset.card_insert_of_notMem hnew, hI.counted]
    · rcases Finset.mem_insert.1 hh' with rfl | hh'
      · simp
      · exact (hI.named h' hh').trans (Nat.lt_succ_self _)
    · exact absurd hy' (hnone _ (by simp) (Or.inl ⟨h, hh⟩) y hy)
  | dropSender h =>
    have hh : h ∈ e.handles := by simpa [allowed] using ha
    refine ⟨?_, fun h' hh' => hI.named h' (Finset.mem_of_mem_erase hh'), hclosed _,
      fun y hy hy' => ?_, hI.final.snoc (by simp), hI.refused.snoc (by simp)⟩
    · simp [Finset.card_erase_of_mem hh, hI.counted]
    · exact absurd hy' (hnone _ (by simp) (Or.inl ⟨h, hh⟩) y hy)
  | recv v q hq =>
    have hne : e.handles.Nonempty ∨ e.state.queue ≠ [] := Or.inr (by simp [hq])
    refine ⟨hI.counted, hI.named, hclosed _, fun y hy hy' => ?_, hI.final.snoc ?_,
      hI.refused.snoc (by simp)⟩
    · exact absurd hy' (hnone _ (by simp) hne y hy)
    · rintro ⟨y, hy, hy'⟩ -
      exact absurd hy' (hI.not_ended hne hy)
  | finished hq hs =>
    have hh : e.handles = ∅ := Finset.card_eq_zero.1 (hI.counted ▸ hs)
    exact ⟨hI.counted, hI.named, hclosed _, fun _ _ _ => ⟨hh, hq⟩, hI.final.snoc fun _ _ => rfl,
      hI.refused.snoc (by simp)⟩
  | tryRecv v q hq =>
    have hne : e.handles.Nonempty ∨ e.state.queue ≠ [] := Or.inr (by simp [hq])
    refine ⟨hI.counted, hI.named, hclosed _, fun y hy hy' => ?_, hI.final.snoc (by simp),
      hI.refused.snoc (by simp)⟩
    exact absurd hy' (hnone _ (by simp) hne y hy)
  | tryEmpty =>
    exact ⟨hI.counted, hI.named, hclosed _, hsame _ (by simp), hI.final.snoc (by simp),
      hI.refused.snoc (by simp)⟩
  | dropReceiver =>
    have hlast : ∀ x : Entry (Call T) (Ret T), x ∈ ps ++ [x] := fun x =>
      List.mem_append_right ps (List.mem_singleton_self x)
    exact ⟨hI.counted, hI.named, fun _ => ⟨_, hlast _, rfl⟩, hsame _ (by simp),
      hI.final.snoc (by simp), hI.refused.snoc (by simp)⟩

/-- An end that a call uses is there until the call has completed. -/
theorem allowed_stable {capacity : ℕ} {e e' : Ends T} {k k' : Call T} {r : Ret T}
    {n : Option (Notify Cond)} (ha' : allowed e k') (hc : compat k k')
    (hd : Done capacity e k e' r n) : allowed e' k' := by
  cases hd with
  | gone | finished | tryEmpty => exact ha'
  | push | recv | tryRecv => cases k' <;> exact ha'
  | clone h =>
    -- one more handle
    cases k' with
    | send | clone | dropSender =>
      have hh := of_decide_eq_true ha'
      exact decide_eq_true (Finset.mem_insert_of_mem hh)
    | recv | tryRecv | dropReceiver => exact ha'
  | dropSender h =>
    -- the handle that is gone is another one
    cases k' with
    | send | clone | dropSender =>
      have hh := of_decide_eq_true ha'
      have hne := of_decide_eq_true hc
      exact decide_eq_true (Finset.mem_erase.2 ⟨Ne.symm hne, hh⟩)
    | recv | tryRecv | dropReceiver => exact ha'
  | dropReceiver =>
    cases k' with
    | send | clone | dropSender => exact ha'
    | recv | tryRecv | dropReceiver => cases hc

theorem compat_comm (k k' : Call T) : compat k k' = compat k' k := by
  cases k with
  | dropSender h =>
    cases k' with
    | send h' _ | clone h' | dropSender h' => exact decide_eq_decide.2 ne_comm
    | recv | tryRecv | dropReceiver => rfl
  | send h _ | clone h =>
    cases k' with
    | dropSender h' => exact decide_eq_decide.2 ne_comm
    | send | clone | recv | tryRecv | dropReceiver => rfl
  | recv | tryRecv | dropReceiver => cases k' <;> rfl

/-- **The channel is a lawful monitor.** -/
theorem lawful (capacity : ℕ) : Lawful (spec T capacity) Inv where
  init := Inv.init
  symm {k k'} h := (compat_comm k' k).trans h
  keep id hI ha hp := hI.keep ha (pass_done hp) id
  stable _ _ ha' hc hp := allowed_stable ha' hc (pass_done hp)

/-! ## Safety -/

section
variable {ι : Type*} [Fintype ι] [DecidableEq ι]

/-- What a state of the channel says about the run that led to it. -/
structure Safe (capacity : ℕ) (s : Monitor.State ι (Ends T) (Call T) (Ret T) Cond) : Prop where
  /-- Nothing is lost, duplicated or reordered. -/
  fifo : accepted s.passes = delivered s.passes ++ s.data.state.queue
  bounded : s.data.state.queue.length ≤ capacity
  counted : s.data.state.senders = s.data.handles.card
  /-- What a call returned is what its section computed. -/
  returned : ∀ x ∈ s.returned, x ∈ s.passes
  /-- A `recv` fails only without a sender and with everything handed out, and the next one
      fails at once. -/
  ended : ∀ x ∈ s.passes, x.ret = .recv (.error .mk) →
    s.data.handles = ∅ ∧ delivered s.passes = accepted s.passes ∧
    pass capacity s.data .recv = .done s.data (.recv (.error .mk)) none
  final : ∀ pre x post, s.passes = pre ++ x :: post → (∃ y ∈ pre, y.ret = .recv (.error .mk)) →
    x.call = .recv → x.ret = .recv (.error .mk)
  /-- A `send` fails only after the receiver was dropped, with its value, which it never
      pushed. -/
  refused : ∀ pre x post h v err, s.passes = pre ++ x :: post → x.call = .send h v →
    x.ret = .send (.error err) →
    err.value = v ∧ (∃ y ∈ pre, y.call = .dropReceiver) ∧
    ∀ y ∈ s.passes, y.id = x.id → pushed? y = none

/-- **The channel is safe along every run.** -/
theorem channel_safe (capacity : ℕ) {as : List (Act ι (Call T))}
    {s : Monitor.State ι (Ends T) (Call T) (Ret T) Cond}
    (h : ((spec T capacity).system ι).run as = some s) : Safe capacity s := by
  obtain ⟨ops, f, hf, hsent, hout, hqueue⟩ := (simulates capacity).run h
  have hI : Inv s.data s.passes := ((lawful capacity).inductive.run h).data
  have hN : Numbered s := (Numbered.inductive (spec T capacity)).run h
  have hfifo : accepted s.passes = delivered s.passes ++ s.data.state.queue := by
    rw [← hsent, ← hout, ← hqueue, f.out_append_queue]
  refine ⟨hfifo, ?_, hI.counted, fun x hx => hN.returned hx, fun x hx hr => ?_,
    fun pre x post hp => hI.final pre x post hp, fun pre x post h v err hp hc hr => ?_⟩
  · rw [← hqueue]
    exact (Fifo.bounded capacity).run hf
  · obtain ⟨hh, hq⟩ := hI.ended x hx hr
    have hs : s.data.state.senders = 0 := by rw [hI.counted, hh, Finset.card_empty]
    refine ⟨hh, by rw [hfifo, hq, List.append_nil], ?_⟩
    simp [pass, recv, hq, hs, Pass.map]
  · obtain ⟨hv, hy⟩ := hI.refused pre x post hp h v err hc hr
    refine ⟨hv, hy, fun y hy hid => ?_⟩
    have hx : x ∈ s.passes := by simp [hp]
    obtain rfl := hN.entry_eq hy hx hid
    obtain ⟨id, k, r⟩ := y
    cases hc; cases hr
    rfl

end

/-- A value goes through, the receiver is dropped, and the next send gets its value back. -/
theorem channel_safe_refused : Safe 1
    ((((spec ℕ 1).system (Fin 2)).run
      [.call 0 (.send 0 7), .enter 0, .call 1 .recv, .signalNone 0, .enter 1, .signalNone 1,
        .call 1 .dropReceiver, .enter 1, .call 0 (.send 0 8), .enter 0, .broadcast 1]).get
      (by decide)) :=
  channel_safe 1 (Option.some_get _).symm

end Ekostd.Channel
