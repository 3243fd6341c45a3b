/-
  The bounded channel, access by access.

  `Channel.Model` takes a section that is run with the mutex held for one step.
  Here the sections are what the source does with the guard: it reads a flag or
  the length of the queue, pushes or pops, and reads and writes the number of
  senders, one at a time, and every other thread may move in between.

  * `code`: the sections of the calls; `implements`: they come to the passes;
  * `sections_are_steps`: the mutex lets one thread at a time in, and all that
    holds of the channel whose sections are steps holds of this one.
-/
import Ekostd.Lib.Guarded
import Ekostd.Channel.Wakeup

namespace Ekostd.Channel

open Monitor

variable {T : Type*}

/-! ## The sections -/

/-- The value of a call, with the guard dropped. -/
def close (r : Ret T) (n : Option (Notify Cond)) : Body (Ends T) (Ret T) Cond :=
  .done (fun e => (e, r)) n

/-- `SyncSender::send`, from the mutex on. -/
def sendBody (capacity : ℕ) (value : T) : Body (Ends T) (Ret T) Cond :=
  .read fun e =>
    if !e.state.receiver then close (.send (.error ⟨value⟩)) none
    else .read fun e =>
      if e.state.queue.length < capacity then
        .write (fun e => { e with state.queue := e.state.queue ++ [value] })
          (close (.send (.ok ())) (some (.one .onSend)))
      else .wait .onRecv

/-- `queue.pop_front()`, and what comes after it. -/
def popFront (next : Option T → Body (Ends T) (Ret T) Cond) : Body (Ends T) (Ret T) Cond :=
  .access (fun e => { e with state.queue := e.state.queue.tail }) fun e => next e.state.queue.head?

/-- `Receiver::recv`, from the mutex on. -/
def recvBody : Body (Ends T) (Ret T) Cond :=
  popFront fun
    | some value => close (.recv (.ok value)) (some (.one .onRecv))
    | none => .read fun e =>
      if e.state.senders = 0 then close (.recv (.error .mk)) none else .wait .onSend

/-- `Receiver::try_recv`, from the mutex on. -/
def tryRecvBody : Body (Ends T) (Ret T) Cond :=
  popFront fun value =>
    close (.tryRecv value) (if value.isSome then some (.one .onRecv) else none)

/-- `SyncSender::clone`, from the mutex on: `senders += 1`. -/
def cloneBody : Body (Ends T) (Ret T) Cond :=
  .read fun e =>
    .write (fun e' => { e' with state.senders := e.state.senders + 1 })
      (.done (fun e => (⟨e.state, insert e.next e.handles, e.next + 1⟩, .clone e.next)) none)

/-- `SyncSender::drop`, from the mutex on: `senders -= 1`, and whether that was the last. -/
def dropSenderBody (h : ℕ) : Body (Ends T) (Ret T) Cond :=
  .read fun e =>
    .write (fun e' => { e' with state.senders := e.state.senders - 1 }) <|
      .read fun e =>
        .done (fun e => ({ e with handles := e.handles.erase h }, .dropSender))
          (if e.state.senders = 0 then some (.all .onSend) else none)

/-- `Receiver::drop`, from the mutex on. -/
def dropReceiverBody : Body (Ends T) (Ret T) Cond :=
  .write (fun e => { e with state.receiver := false })
    (close .dropReceiver (some (.all .onRecv)))

/-- The sections of the calls. -/
def code (capacity : ℕ) : Code (Ends T) (Call T) (Ret T) Cond
  | .send _ value => sendBody capacity value
  | .clone _ => cloneBody
  | .dropSender h => dropSenderBody h
  | .recv => recvBody
  | .tryRecv => tryRecvBody
  | .dropReceiver => dropReceiverBody

/-! ## They come to the passes -/

theorem code_pass (capacity : ℕ) (e : Ends T) (k : Call T) :
    (code capacity k).pass e = pass capacity e k := by
  obtain ⟨⟨queue, senders, receiver⟩, handles, next⟩ := e
  cases k with
  | send h v =>
    cases receiver with
    | false => simp [code, sendBody, close, Body.read, Body.pass, pass, send, Pass.map]
    | true =>
      by_cases hq : queue.length < capacity <;>
        simp [code, sendBody, close, Body.read, Body.write, Body.pass, pass, send, Pass.map, hq]
  | clone h => rfl
  | dropSender h => rfl
  | recv =>
    cases queue with
    | cons v q => rfl
    | nil =>
      by_cases hs : senders = 0 <;>
        simp [code, recvBody, popFront, close, Body.read, Body.pass, pass, recv, Pass.map, hs]
  | tryRecv => cases queue <;> rfl
  | dropReceiver => rfl

theorem allowed_of {e e' : Ends T} (hh : e'.handles = e.handles)
    (hr : e'.state.receiver = true → e.state.receiver = true) (k : Call T)
    (hk : allowed e' k) : allowed e k := by
  cases k with
  | send h v | clone h | dropSender h => simpa [allowed, hh] using hk
  | recv | tryRecv | dropReceiver => exact hr hk

theorem code_hidden (capacity : ℕ) (e : Ends T) (k : Call T) :
    (spec T capacity).Hidden e (code capacity k) e := by
  cases k with
  | send h v =>
    refine ⟨fun _ hk => hk, ?_⟩
    dsimp only [id]
    split_ifs
    · exact fun _ hk => hk
    · refine ⟨fun _ hk => hk, ?_⟩
      dsimp only [id]
      split_ifs
      · exact ⟨fun _ hk => hk, allowed_of rfl fun hr => hr⟩
      · rfl
  | clone h => exact ⟨fun _ hk => hk, fun _ hk => hk, allowed_of rfl fun hr => hr⟩
  | dropSender h =>
    exact ⟨fun _ hk => hk, fun _ hk => hk, allowed_of rfl fun hr => hr, allowed_of rfl fun hr => hr⟩
  | recv =>
    obtain ⟨⟨queue, senders, receiver⟩, handles, next⟩ := e
    refine ⟨fun _ hk => hk, ?_⟩
    cases queue with
    | cons v q => exact allowed_of rfl fun hr => hr
    | nil =>
      refine ⟨fun _ hk => hk, ?_⟩
      dsimp only [id]
      split_ifs
      · exact fun _ hk => hk
      · rfl
  | tryRecv => exact ⟨fun _ hk => hk, allowed_of rfl fun hr => hr⟩
  | dropReceiver => exact ⟨fun _ hk => hk, allowed_of rfl nofun⟩

/-- **The sections come to the passes** of the channel. -/
theorem implements (capacity : ℕ) : Implements (code capacity) (spec T capacity) :=
  ⟨code_pass capacity, code_hidden capacity⟩

section
variable {ι : Type*} [Fintype ι] [DecidableEq ι] {capacity : ℕ}

/-- What holds at a state `s` of the code, in which `c` is the channel whose sections are steps. -/
structure Stepwise (capacity : ℕ) (s : Guarded.State ι (Ends T) (Call T) (Ret T) Cond)
    (c : Monitor.State ι (Ends T) (Call T) (Ret T) Cond) : Prop where
  follows : Guarded.Follows (spec T capacity) s c
  /-- No two threads are at the data at once. -/
  exclusive : ∀ t u, (s.place t).isInside → (s.place u).isInside → t = u
  /-- Nothing is handed out but what was accepted, in order, and the rest is queued. -/
  ordered : delivered s.passes <+: accepted s.passes
  queued : s.owner = none → accepted s.passes = delivered s.passes ++ s.data.state.queue ∧
    s.data.state.queue.length ≤ capacity ∧ s.data.state.senders = s.data.handles.card
  /-- When no thread inside a call can move, a waiting `recv` has nothing to take and a sender to
      wait for, and a waiting `send` has no room and a receiver to wait for. -/
  waits : Guarded.Stuck (spec T capacity) (code capacity) s → ∀ t id k,
    (s.place t = .blocked id k .onSend → s.data.state.queue = [] ∧ s.data.state.senders ≠ 0) ∧
    (s.place t = .blocked id k .onRecv →
      capacity ≤ s.data.state.queue.length ∧ s.data.state.receiver = true)

/-- **The sections of the channel are steps**, whatever the threads do in between. -/
theorem sections_are_steps (capacity : ℕ) {as : List (Guarded.Act ι (Call T))}
    {s : Guarded.State ι (Ends T) (Call T) (Ret T) Cond}
    (h : (Guarded.system (spec T capacity) (code capacity) ι).run as = some s) :
    ∃ bs c, ((spec T capacity).system ι).run bs = some c ∧ Stepwise capacity s c := by
  obtain ⟨bs, c, hc, hfollows⟩ := (Guarded.simulates (implements capacity)).run h
  obtain ⟨ops, f, hf, hsent, hout, hqueue⟩ := (simulates capacity).run hc
  have hI : Inv c.data c.passes := ((lawful capacity).inductive.run hc).data
  have hfifo : accepted s.passes = delivered s.passes ++ c.data.state.queue := by
    rw [← hfollows.passes, ← hsent, ← hout, ← hqueue, f.out_append_queue]
  refine ⟨bs, c, hc, hfollows, fun t u => hfollows.one_inside, ⟨_, hfifo.symm⟩, fun ho => ?_,
    fun hs t id k => ?_⟩
  · rw [← hfollows.free ho]
    refine ⟨hfifo, ?_, hI.counted⟩
    rw [← hqueue]
    exact (Fifo.bounded capacity).run hf
  · rw [← hfollows.free (hfollows.free_of_stuck hs)]
    have hstuck := hfollows.stuck hs
    have hpc : ∀ cv, s.place t = .blocked id k cv → c.pc t = .blocked id k cv := by
      intro cv ht
      rw [hfollows.pc]
      exact congrArg Guarded.Place.pc ht
    constructor
    · intro ht
      obtain ⟨h₀, hg⟩ := (wakes_onSend capacity).stuck (lawful capacity) hc hstuck (hpc _ ht)
      exact ⟨List.length_eq_zero_iff.1 h₀, hg⟩
    · intro ht
      obtain ⟨h₀, hg⟩ := (wakes_onRecv capacity).stuck (lawful capacity) hc hstuck (hpc _ ht)
      exact ⟨by omega, by simpa using hg⟩

end

/-- Thread `1` takes the mutex for a `recv` while thread `0` has yet to notify; before, it could not
    while thread `0` was at its push. -/
theorem sections_are_steps_push :
    (∃ bs c, ((spec ℕ 1).system (Fin 2)).run bs = some c ∧ Stepwise 1
      (((Guarded.system (spec ℕ 1) (code 1) (Fin 2)).run
        [.call 0 (.send 0 7), .call 1 .recv, .lock 0, .run 0, .run 0, .run 0, .run 0, .lock 1,
          .signalNone 0, .run 1, .run 1]).get (by decide)) c) ∧
    (Guarded.system (spec ℕ 1) (code 1) (Fin 2)).run
      [.call 0 (.send 0 7), .call 1 .recv, .lock 0, .run 0, .run 0, .lock 1] = none :=
  ⟨sections_are_steps 1 (Option.some_get _).symm, rfl⟩

end Ekostd.Channel
