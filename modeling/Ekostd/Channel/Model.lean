/-
  `channel.rs` — the bounded channel.

  Every call of the two ends is a section run with the mutex of `Shared` held;
  `send` and `recv` loop in it around a condition variable.  A pass of the loop
  is a function of the guarded `State` (`send`, `recv`, ...), with the
  notification the source issues after it dropped the guard.

  `spec` puts them together as a monitor over the `State` and the ends that
  exist: a thread may use a `SyncSender` only while it lives, and may drop it
  only while no other call uses it, and the same for the `Receiver`, which is
  what ownership and borrowing give the callers.  Both ends may be used from
  several threads at once, as both are `Sync`.
-/
import Ekostd.Lib.Monitor

namespace Ekostd.Channel

open Monitor

/-- The condition variables of `Shared`. -/
inductive Cond where
  | onSend
  | onRecv
  deriving DecidableEq

/-- `State`, guarded by the mutex of `Shared`. -/
structure State (T : Type*) where
  queue : List T
  senders : ℕ
  receiver : Bool

/-- `SendError`: the value a send could not deliver. -/
structure SendError (T : Type*) where
  value : T

/-- `RecvError`. -/
inductive RecvError where
  | mk

variable {T : Type*}

/-! ## The locked sections -/

/-- A pass of the loop of `SyncSender::send`. -/
def send (capacity : ℕ) (state : State T) (value : T) :
    Pass (State T) (Except (SendError T) Unit) Cond :=
  if !state.receiver then .done state (.error ⟨value⟩) none
  else if state.queue.length < capacity then
    .done { state with queue := state.queue ++ [value] } (.ok ()) (some (.one .onSend))
  else .wait .onRecv

/-- A pass of the loop of `Receiver::recv`. -/
def recv (state : State T) : Pass (State T) (Except RecvError T) Cond :=
  match state.queue with
  | value :: queue => .done { state with queue := queue } (.ok value) (some (.one .onRecv))
  | [] => if state.senders = 0 then .done state (.error .mk) none else .wait .onSend

/-- `Receiver::try_recv`. -/
def tryRecv (state : State T) : Pass (State T) (Option T) Cond :=
  match state.queue with
  | value :: queue => .done { state with queue := queue } (some value) (some (.one .onRecv))
  | [] => .done state none none

/-- `SyncSender::clone`. -/
def clone (state : State T) : Pass (State T) Unit Cond :=
  .done { state with senders := state.senders + 1 } () none

/-- `SyncSender::drop`: the last one tells every waiting receiver. -/
def dropSender (state : State T) : Pass (State T) Unit Cond :=
  let senders := state.senders - 1
  let last := senders = 0
  .done { state with senders := senders } () (if last then some (.all .onSend) else none)

/-- `Receiver::drop`. -/
def dropReceiver (state : State T) : Pass (State T) Unit Cond :=
  .done { state with receiver := false } () (some (.all .onRecv))

/-! ## The ends -/

/-- The calls, with the `SyncSender` they go through. -/
inductive Call (T : Type*) where
  | send (h : ℕ) (value : T)
  | clone (h : ℕ)
  | dropSender (h : ℕ)
  | recv
  | tryRecv
  | dropReceiver

/-- What the calls return; `clone` returns a new `SyncSender`. -/
inductive Ret (T : Type*) where
  | send (r : Except (SendError T) Unit)
  | clone (h : ℕ)
  | dropSender
  | recv (r : Except RecvError T)
  | tryRecv (value : Option T)
  | dropReceiver

/-- The guarded state and the `SyncSender`s that live; the `Receiver` lives as long as
    `State.receiver` says. -/
structure Ends (T : Type*) where
  state : State T
  handles : Finset ℕ
  next : ℕ

/-- What `sync_channel` makes: an empty queue, one `SyncSender` and the `Receiver`. -/
def syncChannel : Ends T := ⟨⟨[], 1, true⟩, {0}, 1⟩

/-- The section of a call. -/
def pass (capacity : ℕ) (e : Ends T) : Call T → Pass (Ends T) (Ret T) Cond
  | .send _ value => (send capacity e.state value).map (fun s => { e with state := s }) .send
  | .clone _ =>
    (clone e.state).map (fun s => ⟨s, insert e.next e.handles, e.next + 1⟩) fun _ => .clone e.next
  | .dropSender h =>
    (dropSender e.state).map (fun s => { e with state := s, handles := e.handles.erase h })
      fun _ => .dropSender
  | .recv => (recv e.state).map (fun s => { e with state := s }) .recv
  | .tryRecv => (tryRecv e.state).map (fun s => { e with state := s }) .tryRecv
  | .dropReceiver =>
    (dropReceiver e.state).map (fun s => { e with state := s }) fun _ => .dropReceiver

/-- A call goes through an end that lives. -/
def allowed (e : Ends T) : Call T → Bool
  | .send h _ | .clone h | .dropSender h => h ∈ e.handles
  | .recv | .tryRecv | .dropReceiver => e.state.receiver

/-- An end is dropped by nobody while a call uses it. -/
def compat : Call T → Call T → Bool
  | .dropSender h, .send h' _ | .dropSender h, .clone h' | .dropSender h, .dropSender h' => h ≠ h'
  | .send h _, .dropSender h' | .clone h, .dropSender h' => h ≠ h'
  | .dropReceiver, .recv | .dropReceiver, .tryRecv | .dropReceiver, .dropReceiver => false
  | .recv, .dropReceiver | .tryRecv, .dropReceiver => false
  | _, _ => true

/-- The channel of capacity `capacity`. -/
def spec (T : Type*) (capacity : ℕ) : Spec (Ends T) (Call T) (Ret T) Cond where
  init := syncChannel
  pass := pass capacity
  allowed := allowed
  compat := compat

/-! ## What the passes do -/

/-- The sections of the channel, one constructor for each way a call can complete. -/
inductive Done (capacity : ℕ) (e : Ends T) : Call T → Ends T → Ret T → Option (Notify Cond) → Prop
  | gone (h : ℕ) (v : T) : e.state.receiver = false →
      Done capacity e (.send h v) e (.send (.error ⟨v⟩)) none
  | push (h : ℕ) (v : T) : e.state.receiver = true → e.state.queue.length < capacity →
      Done capacity e (.send h v) { e with state.queue := e.state.queue ++ [v] } (.send (.ok ()))
        (some (.one .onSend))
  | clone (h : ℕ) :
      Done capacity e (.clone h)
        ⟨{ e.state with senders := e.state.senders + 1 }, insert e.next e.handles, e.next + 1⟩
        (.clone e.next) none
  | dropSender (h : ℕ) :
      Done capacity e (.dropSender h)
        { e with state.senders := e.state.senders - 1, handles := e.handles.erase h } .dropSender
        (if e.state.senders - 1 = 0 then some (.all .onSend) else none)
  | recv (v : T) (q : List T) : e.state.queue = v :: q →
      Done capacity e .recv { e with state.queue := q } (.recv (.ok v)) (some (.one .onRecv))
  | finished : e.state.queue = [] → e.state.senders = 0 →
      Done capacity e .recv e (.recv (.error .mk)) none
  | tryRecv (v : T) (q : List T) : e.state.queue = v :: q →
      Done capacity e .tryRecv { e with state.queue := q } (.tryRecv (some v))
        (some (.one .onRecv))
  | tryEmpty : e.state.queue = [] → Done capacity e .tryRecv e (.tryRecv none) none
  | dropReceiver :
      Done capacity e .dropReceiver { e with state.receiver := false } .dropReceiver
        (some (.all .onRecv))

/-- **Every section that completes is one of these.** -/
theorem pass_done {capacity : ℕ} {e e' : Ends T} {k : Call T} {r : Ret T}
    {n : Option (Notify Cond)} (h : pass capacity e k = .done e' r n) : Done capacity e k e' r n := by
  cases k with
  | send h' v =>
    simp only [pass, send] at h
    split_ifs at h with hr hq
    · cases h; exact .gone h' v (by simpa using hr)
    · cases h; exact .push h' v (by simpa using hr) hq
    · cases h
  | clone h' => cases h; exact .clone h'
  | dropSender h' => cases h; exact .dropSender h'
  | recv =>
    simp only [pass, recv] at h
    split at h
    · next v q hq => cases h; exact .recv v q hq
    · next hq =>
      split_ifs at h with hs
      · cases h; exact .finished hq hs
      · cases h
  | tryRecv =>
    simp only [pass, tryRecv] at h
    split at h
    · next v q hq => cases h; exact .tryRecv v q hq
    · next hq => cases h; exact .tryEmpty hq
  | dropReceiver => cases h; exact .dropReceiver

/-- **A call waits** in `send` on a full queue with the receiver there, and in `recv` on an
    empty queue with a sender left. -/
theorem pass_wait {capacity : ℕ} {e : Ends T} {k : Call T} {c : Cond}
    (h : pass capacity e k = .wait c) :
    (c = .onRecv ∧ (∃ h v, k = .send h v) ∧ e.state.receiver = true ∧
      capacity ≤ e.state.queue.length) ∨
    (c = .onSend ∧ k = .recv ∧ e.state.queue = [] ∧ e.state.senders ≠ 0) := by
  cases k with
  | send h' v =>
    simp only [pass, send] at h
    split_ifs at h with hr hq
    · cases h
    · cases h
    · cases h; exact Or.inl ⟨rfl, ⟨h', v, rfl⟩, by simpa using hr, by omega⟩
  | recv =>
    simp only [pass, recv] at h
    split at h
    · cases h
    · next hq =>
      split_ifs at h with hs
      · cases h
      · cases h; exact Or.inr ⟨rfl, rfl, hq, hs⟩
  | tryRecv =>
    simp only [pass, tryRecv] at h
    split at h <;> cases h
  | clone h' => cases h
  | dropSender h' => cases h
  | dropReceiver => cases h

end Ekostd.Channel
