/-
  `thread.rs` — `JoinHandle::join`, and who owns what a thread leaves.

  A thread that `Builder::spawn` started writes its result to a slot, which the
  handle owns: `join` waits for the thread and frees the slot, and a handle that
  is dropped leaves it.  Threads start others, run as long as they like and wait
  for each other in any order.

  * `World`, `World.act`: the process, with its threads and its handles;
  * `Stage`: what has become of a thread, and the cells that are its own;
  * `World.Inv`: the heap is these cells, and every handle is of its thread;
  * `joins_deliver`: nothing faults, a `join` gives what the closure returned, and
    what is on the heap is what somebody still has or gave up.
-/
import Ekostd.Lib.CRes
import Ekostd.Lib.Heaplets
import Ekostd.Thread.Start.Model

namespace Ekostd.Thread.Start

open PosixFs

variable {T : Type*}

deriving instance DecidableEq for JoinHandle

/-! ## The process -/

/-- What the system knows of a thread that has begun. -/
inductive Life where
  | runs (th : Created)
  /-- It has ended, and waits for whoever joins it. -/
  | ended

/-- The process, its threads that have begun, and the handles that are held; the closures of the
    threads that were started, and how the other handles went: joined with a result, or dropped. -/
structure World (T : Type*) where
  proc : Proc T
  life : ℕ → Option Life
  handles : List JoinHandle
  started : List (ℕ × T)
  closed : List (JoinHandle × Option (Except Errno T))

/-- The handles that went, and whose slots were not freed. -/
def World.lost (w : World T) : List JoinHandle :=
  (w.closed.filter fun
    | (_, some (.ok _)) => false
    | _ => true).map Prod.fst

/-- A thread that has been created begins: its closure is its own now. -/
def World.begins (w : World T) (tid : ℕ) : CRes (World T) :=
  match w.proc.threads.find? (·.tid = tid) with
  | none => .never
  | some th =>
    match w.proc.heap.cells th.arg with
    | some (.payload f _) => .ok { w with
        proc := { w.proc with
          threads := w.proc.threads.filter (·.tid ≠ tid)
          taken := w.proc.taken ++ [(tid, f)] }
        life := Function.update w.life tid (some (.runs th)) }
    | _ => .undefined

/-- The closure of a thread has returned: `run` and `spawn_trampoline` free its boxes, and the
    second leaves the result in the slot. -/
def World.returns (w : World T) (tid : ℕ) : CRes (World T) :=
  match w.life tid with
  | some (.runs th) =>
    match unbox w.proc.heap th.arg with
    | none => .undefined
    | some (_, slot, value, heap) =>
      let left : Option (Heap (Cell T)) :=
        match slot with
        | none => some heap
        | some s => heap.store s (.slot (some value))
      match left with
      | none => .undefined
      | some heap => .ok { w with
          proc := { w.proc with heap }
          life := Function.update w.life tid (if th.attr.detached then none else some .ended) }
  | _ => .never

/-- `pthread_join`, by the thread `caller`; it waits for a thread that has not ended. -/
def World.pthreadJoin (w : World T) (caller tid : ℕ) : CRes (Errno × World T) :=
  let awaits (th : Created) : CRes (Errno × World T) :=
    if th.attr.detached then .ok (Errno.EINVAL, w) else .never
  if caller = tid then .ok (Errno.EDEADLK, w)
  else
    match w.life tid with
    | some .ended => .ok (0, { w with life := Function.update w.life tid none })
    | some (.runs th) => awaits th
    | none =>
      match w.proc.threads.find? (·.tid = tid) with
      | some th => awaits th
      | none => .ok (Errno.ESRCH, w)

/-- `JoinHandle::join`. -/
def JoinHandle.join (self : JoinHandle) (caller : ℕ) (w : World T) :
    CRes (Except Errno T × World T) :=
  (w.pthreadJoin caller self.tid).bind fun (rc, w) =>
    if rc ≠ 0 then .ok (.error rc, w)
    else
      match w.proc.heap.free self.slot with
      | some (.slot (some value), heap) => .ok (.ok value, { w with proc := { w.proc with heap } })
      | some (.slot none, heap) =>
        .ok (.error Errno.EINVAL, { w with proc := { w.proc with heap } })
      | _ => .undefined

/-- The handle is gone. -/
def World.close (w : World T) (h : JoinHandle) (r : Option (Except Errno T)) : World T :=
  { w with handles := w.handles.erase h, closed := w.closed ++ [(h, r)] }

/-- What happens: a thread is started in one of the two ways, begins, or its closure returns; a
    thread joins another, or drops the handle; something else sets `errno`. -/
inductive Happens (T : Type*) where
  | detached (codes : Codes) (bytes : ℕ) (f : T)
  | builder (b : Builder) (codes : Codes) (f : T)
  | begins (tid : ℕ)
  | returns (tid : ℕ)
  | join (caller : ℕ) (h : JoinHandle)
  | drop (h : JoinHandle)
  | errno (e : Errno)

def World.act (host : Host) (w : World T) : Happens T → CRes (World T)
  | .detached codes bytes f =>
    match spawnDetached host codes bytes f w.proc with
    | none => .undefined
    | some (.ok (), proc) => .ok { w with proc, started := w.started ++ [(w.proc.tids, f)] }
    | some (.error _, proc) => .ok { w with proc }
  | .builder b codes f =>
    match b.spawn host codes f w.proc with
    | none => .undefined
    | some (.ok handle, proc) => .ok { w with
        proc
        handles := w.handles ++ [handle]
        started := w.started ++ [(w.proc.tids, f)] }
    | some (.error _, proc) => .ok { w with proc }
  | .begins tid => w.begins tid
  | .returns tid => w.returns tid
  | .join caller h =>
    if h ∈ w.handles then (h.join caller w).map fun (r, w) => w.close h (some r) else .never
  | .drop h => if h ∈ w.handles then .ok (w.close h none) else .never
  | .errno e => .ok { w with proc := { w.proc with errno := e } }

/-- One step; `none` is a process that has faulted. -/
def World.step (host : Host) : Option (World T) → Happens T → Option (Option (World T))
  | none, _ => none
  | some w, a =>
    match w.act host a with
    | .ok w' => some (some w')
    | .never => none
    | .undefined => some none

/-- A process with one thread. -/
def World.init (T : Type*) : World T := ⟨Proc.init T, fun _ => none, [], [], []⟩

def joinSystem (T : Type*) (host : Host) : Sts (Option (World T)) (Happens T) where
  init := some (World.init T)
  step := World.step host

/-! ## What has become of a thread -/

/-- A thread has the boxes of its closure until that has returned, and a slot if somebody may join
    it. -/
inductive Stage (T : Type*) where
  | absent
  | holds (th : Created) (f : ℕ) (slot : Option ℕ) (value : T) (begun : Bool)
  | ended (joinable : Bool) (slot : Option ℕ) (value : T)
  | joined

namespace Stage

/-- A slot with `x` in it, if there is a slot. -/
def slotCells (slot : Option ℕ) (x : Option T) : ℕ → Option (Cell T) :=
  fun i => if slot = some i then some (.slot x) else none

/-- The cells that are the thread's own. -/
def cells : Stage T → ℕ → Option (Cell T)
  | .absent | .joined => fun _ => none
  | .holds th f slot value _ => Function.update
      (Function.update (slotCells slot none) f (some (.closure value)))
      th.arg (some (.payload f slot))
  | .ended _ slot value => slotCells slot (some value)

def life : Stage T → Option Life
  | .holds th _ _ _ true => some (.runs th)
  | .ended true _ _ => some .ended
  | _ => none

def slot : Stage T → Option ℕ
  | .holds _ _ slot _ _ | .ended _ slot _ => slot
  | .absent | .joined => none

def value : Stage T → Option T
  | .holds _ _ _ value _ | .ended _ _ value => some value
  | .absent | .joined => none

/-- The cells are different ones, and a thread that has a slot can be joined. -/
def Good (t : ℕ) : Stage T → Prop
  | .holds th f slot _ _ => th.tid = t ∧ th.arg ≠ f ∧
      ∀ s ∈ slot, s ≠ th.arg ∧ s ≠ f ∧ th.attr.detached = false
  | .ended joinable slot _ => slot ≠ none → joinable
  | .absent | .joined => True

variable {st : Stage T} {s : ℕ}

theorem slotCells_self (s : ℕ) (x : Option T) : slotCells (some s) x s = some (.slot x) :=
  if_pos rfl

theorem slotCells_of_ne {slot : Option ℕ} {i : ℕ} (h : ∀ s ∈ slot, s ≠ i) (x : Option T) :
    slotCells slot x i = none := by
  refine if_neg fun hi => ?_
  exact h i hi rfl

theorem cells_freed {th : Created} {f : ℕ} {slot : Option ℕ} {value : T} {begun : Bool} {t : ℕ}
    (h : Good t (.holds th f slot value begun)) :
    Function.update (Function.update (cells (.holds th f slot value begun)) th.arg none) f none =
      slotCells slot none := by
  obtain ⟨-, hne, hslot⟩ := h
  funext i
  by_cases hf : i = f
  · subst hf
    rw [Function.update_self, slotCells_of_ne fun s hs => (hslot s hs).2.1]
  · rw [Function.update_of_ne hf]
    by_cases hraw : i = th.arg
    · subst hraw
      rw [Function.update_self, slotCells_of_ne fun s hs => (hslot s hs).1]
    · rw [Function.update_of_ne hraw, cells, Function.update_of_ne hraw, Function.update_of_ne hf]

theorem slotCells_store (s : ℕ) (x y : Option T) :
    Function.update (slotCells (some s) x) s (some (.slot y)) = slotCells (some s) y := by
  funext i
  by_cases hi : i = s
  · subst hi
    rw [Function.update_self, slotCells_self]
  · have hne : ∀ u ∈ some s, u ≠ i := by
      rintro u ⟨⟩
      exact Ne.symm hi
    rw [Function.update_of_ne hi, slotCells_of_ne hne, slotCells_of_ne hne]

theorem slotCells_free (s : ℕ) (x : Option T) :
    Function.update (slotCells (some s) x) s none = fun _ => none := by
  funext i
  by_cases hi : i = s
  · subst hi
    rw [Function.update_self]
  · rw [Function.update_of_ne hi, slotCells_of_ne]
    rintro u ⟨⟩
    exact Ne.symm hi

theorem cells_slot {t : ℕ} (hgood : st.Good t) (hs : st.slot = some s) :
    st.cells s ≠ none := by
  cases st with
  | absent | joined => cases hs
  | holds th f slot value begun =>
    obtain rfl : slot = some s := hs
    obtain ⟨hraw, hf, -⟩ := hgood.2.2 s rfl
    rw [cells, Function.update_of_ne hraw, Function.update_of_ne hf, slotCells_self]
    exact Option.some_ne_none _
  | ended joinable slot value =>
    obtain rfl : slot = some s := hs
    rw [cells, slotCells_self]
    exact Option.some_ne_none _

theorem cells_cases {i : ℕ} (hi : st.cells i ≠ none) : st.slot = some i ∨
    ∃ th f slot value begun, st = .holds th f slot value begun ∧ (i = th.arg ∨ i = f) := by
  cases st with
  | absent | joined => exact absurd rfl hi
  | holds th f slot value begun =>
    by_cases hraw : i = th.arg
    · exact .inr ⟨th, f, slot, value, begun, rfl, .inl hraw⟩
    · by_cases hf : i = f
      · exact .inr ⟨th, f, slot, value, begun, rfl, .inr hf⟩
      · rw [cells, Function.update_of_ne hraw, Function.update_of_ne hf, slotCells] at hi
        have hs : slot = some i := by simpa using hi
        exact .inl hs
  | ended joinable slot value =>
    rw [cells, slotCells] at hi
    have hs : slot = some i := by simpa using hi
    exact .inl hs

end Stage

/-! ## The invariant -/

/-- The thread `t` is at this stage, and its handle is in order. -/
structure Seat (w : World T) (t : ℕ) (st : Stage T) : Prop where
  tid : w.proc.tids ≤ t → st = .absent
  threads : ∀ th, th.tid = t →
    (th ∈ w.proc.threads ↔ ∃ f slot value, st = .holds th f slot value false)
  life : w.life t = st.life
  good : st.Good t
  value : ∀ v, st.value = some v → (t, v) ∈ w.started
  held : ∀ h ∈ w.handles, h.tid = t → st.slot = some h.slot
  given : ∀ h v, (h, some (.ok v)) ∈ w.closed → h.tid = t → (t, v) ∈ w.started
  refused : ∀ h e, (h, some (.error e)) ∈ w.closed → h.tid = t → e = Errno.EDEADLK
  lost : ∀ h ∈ w.lost, h.tid = t → st.slot = some h.slot
  slots : ∀ s, st.slot = some s → (⟨t, s⟩ : JoinHandle) ∈ w.handles ++ w.lost

/-- The handles of a world, those that went among them. -/
def World.everyHandle (w : World T) : List JoinHandle := w.handles ++ w.closed.map Prod.fst

/-- **What holds all along**: every thread is at a stage, and the heap is cut up among them. -/
structure World.Inv (w : World T) (book : ℕ → Stage T) : Prop where
  cut : w.proc.heap.Cut fun t => (book t).cells
  seat : ∀ t, Seat w t (book t)
  once : (w.everyHandle.map JoinHandle.tid).Nodup
  old : ∀ h ∈ w.everyHandle, h.tid < w.proc.tids
  started : (w.started.map Prod.fst).Nodup
  before : ∀ x ∈ w.started, x.1 < w.proc.tids

/-- What the thread `u` has is as it was. -/
structure Away (w w' : World T) (u : ℕ) : Prop where
  tids : w.proc.tids ≤ w'.proc.tids
  threads : ∀ th, th.tid = u → (th ∈ w'.proc.threads ↔ th ∈ w.proc.threads)
  life : w'.life u = w.life u
  started : ∀ x ∈ w.started, x ∈ w'.started
  handles : ∀ h, h.tid = u → (h ∈ w'.handles ↔ h ∈ w.handles)
  closed : ∀ h r, h.tid = u → ((h, r) ∈ w'.closed ↔ (h, r) ∈ w.closed)

variable {w w' : World T} {t u : ℕ} {st : Stage T} {book : ℕ → Stage T} {h : JoinHandle}

theorem World.mem_lost : h ∈ w.lost ↔ ∃ r, (h, r) ∈ w.closed ∧ ∀ v, r ≠ some (.ok v) := by
  rw [World.lost, List.mem_map]
  constructor
  · rintro ⟨⟨h', r⟩, hmem, rfl⟩
    obtain ⟨hmem, hr⟩ := List.mem_filter.1 hmem
    refine ⟨r, hmem, ?_⟩
    rintro v rfl
    cases hr
  · rintro ⟨r, hmem, hr⟩
    refine ⟨(h, r), List.mem_filter.2 ⟨hmem, ?_⟩, rfl⟩
    rcases r with _ | _ | v
    · rfl
    · rfl
    · exact absurd rfl (hr v)

theorem Away.lost (ha : Away w w' u) (hu : h.tid = u) : h ∈ w'.lost ↔ h ∈ w.lost := by
  simp only [World.mem_lost, ha.closed h _ hu]

/-- **The frame rule**: a thread keeps its seat while others move. -/
theorem Seat.frame (hs : Seat w u st) (ha : Away w w' u) : Seat w' u st where
  tid hu := hs.tid (ha.tids.trans hu)
  threads th hth := (ha.threads th hth).trans (hs.threads th hth)
  life := ha.life.trans hs.life
  good := hs.good
  value v hv := ha.started _ (hs.value v hv)
  held h hh hu := hs.held h ((ha.handles h hu).1 hh) hu
  given h v hh hu := ha.started _ (hs.given h v ((ha.closed h _ hu).1 hh) hu)
  refused h e hh hu := hs.refused h e ((ha.closed h _ hu).1 hh) hu
  lost h hh hu := hs.lost h ((ha.lost hu).1 hh) hu
  slots s hslot := by
    rcases List.mem_append.1 (hs.slots s hslot) with hh | hh
    · exact List.mem_append_left _ ((ha.handles _ rfl).2 hh)
    · exact List.mem_append_right _ ((ha.lost rfl).2 hh)

/-- **One thread moves.** -/
theorem World.Inv.move (hI : w.Inv book) (t : ℕ) (st : Stage T)
    (haway : ∀ u, u ≠ t → Away w w' u) (hseat : Seat w' t st)
    (hcut : w'.proc.heap.Cut (Function.update (fun u => (book u).cells) t st.cells))
    (honce : (w'.everyHandle.map JoinHandle.tid).Nodup)
    (hold : ∀ h ∈ w'.everyHandle, h.tid < w'.proc.tids)
    (hstarted : (w'.started.map Prod.fst).Nodup)
    (hbefore : ∀ x ∈ w'.started, x.1 < w'.proc.tids) :
    w'.Inv (Function.update book t st) where
  cut := by
    convert hcut using 2 with u
    by_cases hu : u = t
    · subst hu
      simp
    · simp [hu]
  seat u := by
    by_cases hu : u = t
    · subst hu
      rw [Function.update_self]
      exact hseat
    · rw [Function.update_of_ne hu]
      exact (hI.seat u).frame (haway u hu)
  once := honce
  old := hold
  started := hstarted
  before := hbefore

/-- The heap, and its cells in parts; the part of `t` is as told. -/
theorem World.Inv.cutAt (hI : w.Inv book) (hst : book t = st) :
    w.proc.heap.Cut (Function.update (fun u => (book u).cells) t st.cells) := by
  subst hst
  have heq := Function.update_eq_self t fun u => (book u).cells
  rw [heq]
  exact hI.cut

/-! ## Starting a thread -/

theorem Discards.cells_eq {heap heap' : Heap (Cell T)} (hd : Discards heap heap') (i : ℕ) :
    heap'.cells i = heap.cells i := by
  by_cases hi : i < heap.next
  · exact hd.old i hi
  · rw [hd.gone i (not_lt.1 hi), heap.fresh i (not_lt.1 hi)]

theorem World.Inv.discards (hI : w.Inv book) {heap : Heap (Cell T)}
    (hd : Discards w.proc.heap heap) : World.Inv { w with proc := { w.proc with heap } } book where
  cut := hI.cut.congr hd.cells_eq
  seat t := (hI.seat t).frame ⟨le_rfl, fun _ _ => .rfl, rfl, fun _ => id, fun _ _ => .rfl,
    fun _ _ _ => .rfl⟩
  once := hI.once
  old := hI.old
  started := hI.started
  before := hI.before

theorem World.mem_everyHandle : h ∈ w.everyHandle ↔ h ∈ w.handles ∨ ∃ r, (h, r) ∈ w.closed := by
  simp [World.everyHandle]

/-- **A thread is created**, with a handle where it has a slot. -/
theorem World.Inv.creates (hI : w.Inv book) {heap : Heap (Cell T)} (attr : Attr) (raw f : ℕ)
    (slot : Option ℕ) (value : T)
    (hgood : Stage.Good w.proc.tids (.holds ⟨w.proc.tids, attr, raw⟩ f slot value false))
    (hcut : heap.Cut (Function.update (fun u => (book u).cells) w.proc.tids
      (Stage.cells (.holds ⟨w.proc.tids, attr, raw⟩ f slot value false)))) :
    World.Inv { w with
      proc := Proc.create { w.proc with heap } attr raw
      handles := w.handles ++ slot.toList.map (⟨w.proc.tids, ·⟩)
      started := w.started ++ [(w.proc.tids, value)] }
      (Function.update book w.proc.tids (.holds ⟨w.proc.tids, attr, raw⟩ f slot value false)) := by
  -- nothing there was is of the new thread
  have hthreads : ∀ th ∈ w.proc.threads, th.tid ≠ w.proc.tids := by
    intro th hth htid
    obtain ⟨f, slot, value, hst⟩ := ((hI.seat th.tid).threads th rfl).1 hth
    cases hst.symm.trans ((hI.seat th.tid).tid htid.ge)
  have hhandle : ∀ h ∈ w.handles, h.tid ≠ w.proc.tids := fun h hh =>
    (hI.old h (World.mem_everyHandle.2 (.inl hh))).ne
  have hclosed : ∀ h r, (h, r) ∈ w.closed → h.tid ≠ w.proc.tids := fun h r hh =>
    (hI.old h (World.mem_everyHandle.2 (.inr ⟨r, hh⟩))).ne
  have hlife : w.life w.proc.tids = none := by
    rw [(hI.seat _).life, (hI.seat _).tid le_rfl]
    rfl
  refine hI.move w.proc.tids _ (fun u hu => ?_) ?_ hcut ?_ ?_ ?_ ?_
  · refine ⟨Nat.le_succ _, fun th hth => ?_, rfl, fun x hx => List.mem_append_left _ hx,
      fun h hh => ?_, fun _ _ _ => .rfl⟩
    · simp only [Proc.create, List.mem_append, List.mem_singleton, or_iff_left_iff_imp]
      rintro rfl
      exact absurd hth.symm hu
    · simp only [List.mem_append, List.mem_map, or_iff_left_iff_imp]
      rintro ⟨s, -, rfl⟩
      exact absurd hh.symm hu
  · refine ⟨fun hle => absurd hle (Nat.lt_succ_self _).not_ge, fun th hth => ?_, hlife, hgood,
      ?_, fun h hh htid => ?_, fun h v hh htid => ?_, fun h e hh htid => ?_, fun h hh htid => ?_,
      fun s hs => ?_⟩
    · simp only [Proc.create, List.mem_append, List.mem_singleton]
      constructor
      · rintro (hmem | rfl)
        · exact absurd hth (hthreads th hmem)
        · exact ⟨f, slot, value, rfl⟩
      · rintro ⟨f', slot', value', heq⟩
        cases heq
        exact .inr rfl
    · rintro v ⟨⟩
      exact List.mem_append_right _ (List.mem_singleton_self _)
    · rcases List.mem_append.1 hh with hh | hh
      · exact absurd htid (hhandle h hh)
      · obtain ⟨s, hs, rfl⟩ := List.mem_map.1 hh
        exact Option.mem_toList.1 hs
    · exact absurd htid (hclosed h _ hh)
    · exact absurd htid (hclosed h _ hh)
    · obtain ⟨r, hr, -⟩ := World.mem_lost.1 hh
      exact absurd htid (hclosed h r hr)
    · obtain rfl : slot = some s := hs
      simp
  · have hnew : ∀ x ∈ slot.toList.map fun s => (⟨w.proc.tids, s⟩ : JoinHandle),
        x.tid = w.proc.tids := by
      intro x hx
      obtain ⟨s, -, rfl⟩ := List.mem_map.1 hx
      rfl
    have hperm : (w.handles ++ slot.toList.map (⟨w.proc.tids, ·⟩ : ℕ → JoinHandle) ++
        w.closed.map Prod.fst).Perm
        (slot.toList.map (⟨w.proc.tids, ·⟩ : ℕ → JoinHandle) ++ w.everyHandle) := by
      rw [World.everyHandle, ← List.append_assoc]
      exact List.perm_append_comm.append_right _
    refine (hperm.map _).nodup_iff.2 ?_
    rw [List.map_append, List.nodup_append]
    refine ⟨?_, hI.once, ?_⟩
    · cases slot <;> simp
    · intro a ha b hb
      obtain ⟨x, hx, rfl⟩ := List.mem_map.1 ha
      obtain ⟨y, hy, rfl⟩ := List.mem_map.1 hb
      rw [hnew x hx]
      exact (hI.old y hy).ne'
  · intro h hh
    rcases World.mem_everyHandle.1 hh with hh | ⟨r, hr⟩
    · rcases List.mem_append.1 hh with hh | hh
      · exact (hI.old h (World.mem_everyHandle.2 (.inl hh))).trans (Nat.lt_succ_self _)
      · obtain ⟨s, -, rfl⟩ := List.mem_map.1 hh
        exact Nat.lt_succ_self _
    · exact (hI.old h (World.mem_everyHandle.2 (.inr ⟨r, hr⟩))).trans (Nat.lt_succ_self _)
  · rw [List.map_append, List.nodup_append]
    refine ⟨hI.started, List.nodup_singleton _, ?_⟩
    intro a ha b hb
    obtain ⟨x, hx, rfl⟩ := List.mem_map.1 ha
    obtain rfl := List.mem_singleton.1 hb
    exact (hI.before x hx).ne
  · intro x hx
    rcases List.mem_append.1 hx with hx | hx
    · exact (hI.before x hx).trans (Nat.lt_succ_self _)
    · obtain rfl := List.mem_singleton.1 hx
      exact Nat.lt_succ_self _

theorem Stage.slotCells_none (x : Option T) : slotCells none x = fun _ => none := by
  funext i
  exact slotCells_of_ne (fun s hs => by cases hs) x

theorem Stage.slotCells_some (s : ℕ) (x : Option T) :
    slotCells (some s) x = Function.update (fun _ => none) s (some (.slot x)) := by
  rw [← slotCells_free s x, Function.update_idem]
  funext i
  by_cases hi : i = s
  · subst hi
    rw [slotCells_self, Function.update_self]
  · rw [Function.update_of_ne hi]

variable {host : Host} {codes : Codes} {bytes : ℕ} {value : T}

theorem spawnDetached_ok {p : Proc T} (hinit : codes.attrInit = 0) (hcreate : codes.create = 0) :
    spawnDetached host codes bytes value p = some (.ok (), Proc.create
      { p with heap := (p.heap.alloc (.closure value)).alloc (.payload p.heap.next none) }
      (detachedAttr host codes bytes) (p.heap.next + 1)) := by
  simp [spawnDetached, hinit, hcreate, detachedAttr]

theorem Builder.spawn_ok (self : Builder) {p : Proc T} (hcreate : codes.create = 0) :
    self.spawn host codes value p = some (.ok ⟨p.tids, p.heap.next⟩, Proc.create
      { p with
        heap := ((p.heap.alloc (.slot none)).alloc (.closure value)).alloc
          (.payload (p.heap.next + 1) (some p.heap.next)) }
      (builderAttr host codes self.stackBytes) (p.heap.next + 1 + 1)) := by
  simp [Builder.spawn, hcreate, builderAttr]

theorem builderAttr_detached : (builderAttr host codes bytes).detached = false := by
  simp only [builderAttr, Attr.setStackSize, Attr.init, Attr.zeroed]
  split_ifs <;> rfl

theorem World.Inv.detached (hI : w.Inv book) :
    (w.act host (.detached codes bytes value)).Gives fun w' => ∃ book', w'.Inv book' := by
  rcases spawnDetached_cases host codes bytes value w.proc with
    ⟨-, heap, hheap, hs⟩ | ⟨hinit, hcreate, -⟩
  · rw [World.act, hs]
    exact ⟨book, hI.discards hheap⟩
  · rw [World.act, spawnDetached_ok hinit hcreate]
    have hcut := ((hI.cutAt ((hI.seat _).tid le_rfl)).alloc (.closure value)).alloc
      (.payload w.proc.heap.next none)
    have hnew := hI.creates (detachedAttr host codes bytes) (w.proc.heap.next + 1)
      w.proc.heap.next none value ⟨rfl, Nat.succ_ne_self _, fun s hs => by cases hs⟩ (by
        rw [Stage.cells, Stage.slotCells_none]
        exact hcut)
    simp only [Option.toList_none, List.map_nil, List.append_nil] at hnew
    exact ⟨_, hnew⟩

theorem World.Inv.builder (hI : w.Inv book) (b : Builder) :
    (w.act host (.builder b codes value)).Gives fun w' => ∃ book', w'.Inv book' := by
  rcases b.spawn_cases host codes value w.proc with ⟨-, heap, hheap, hs⟩ | ⟨hcreate, -⟩
  · rw [World.act, hs]
    exact ⟨book, hI.discards hheap⟩
  · rw [World.act, b.spawn_ok hcreate]
    have hcut := (((hI.cutAt ((hI.seat _).tid le_rfl)).alloc (.slot none)).alloc
      (.closure value)).alloc (.payload (w.proc.heap.next + 1) (some w.proc.heap.next))
    have hnew := hI.creates (builderAttr host codes b.stackBytes) (w.proc.heap.next + 1 + 1)
      (w.proc.heap.next + 1) (some w.proc.heap.next) value
      ⟨rfl, Nat.succ_ne_self _, by
        rintro s ⟨⟩
        exact ⟨by dsimp only; omega, by omega, builderAttr_detached⟩⟩ (by
        rw [Stage.cells, Stage.slotCells_some]
        exact hcut)
    exact ⟨_, hnew⟩

/-! ## The thread itself -/

theorem World.Inv.begins (hI : w.Inv book) (tid : ℕ) :
    (w.begins tid).Gives fun w' => ∃ book', w'.Inv book' := by
  rw [World.begins]
  split
  · trivial
  · next th hfind =>
    have hmem := List.mem_of_find?_eq_some hfind
    obtain rfl : th.tid = tid := by simpa using List.find?_some hfind
    have hseat := hI.seat th.tid
    obtain ⟨f, slot, value, hst⟩ := (hseat.threads th rfl).1 hmem
    have hlive : w.proc.heap.cells th.arg = some (.payload f slot) := by
      refine hI.cut.live (o := th.tid) ?_
      rw [hst, Stage.cells, Function.update_self]
    rw [hlive]
    refine ⟨_, hI.move th.tid (.holds th f slot value true) (fun u hu => ?_) ?_ ?_ hI.once
      hI.old hI.started hI.before⟩
    · refine ⟨le_rfl, fun th' hth' => ?_, Function.update_of_ne hu _ _, fun _ => id,
        fun _ _ => .rfl, fun _ _ _ => .rfl⟩
      simp [hth', hu]
    · rw [hst] at hseat
      have hold : ¬w.proc.tids ≤ th.tid := fun hle => by cases hseat.tid hle
      refine ⟨fun hle => absurd hle hold, fun th' hth' => ?_, Function.update_self _ _ _,
        hseat.good, hseat.value, hseat.held, hseat.given, hseat.refused, hseat.lost, hseat.slots⟩
      constructor
      · intro hmem'
        simp [hth'] at hmem'
      · rintro ⟨f', slot', value', heq⟩
        cases heq
    · exact (hI.cutAt hst :)

theorem Stage.eq_of_life {th : Created} (h : st.life = some (.runs th)) :
    ∃ f slot value, st = .holds th f slot value true := by
  cases st with
  | absent | joined => cases h
  | ended joinable slot value => cases joinable <;> cases h
  | holds th' f slot value begun =>
    cases begun with
    | false => cases h
    | true =>
      cases h
      exact ⟨f, slot, value, rfl⟩

/-- The closure has returned: its boxes are freed, and the slot has the result. -/
theorem World.Inv.returns (hI : w.Inv book) (tid : ℕ) :
    (w.returns tid).Gives fun w' => ∃ book', w'.Inv book' := by
  rw [World.returns]
  split
  · next th hlife =>
    have hseat := hI.seat tid
    obtain ⟨f, slot, value, hst⟩ := Stage.eq_of_life (hseat.life.symm.trans hlife)
    rw [hst] at hseat
    obtain ⟨htid, hne, hslot⟩ := hseat.good
    obtain ⟨h₁, hfree₁, hnext₁, hcut₁⟩ := (hI.cutAt hst).free
      (show Stage.cells (.holds th f slot value true) th.arg = some (.payload f slot) from
        Function.update_self _ _ _)
    obtain ⟨h₂, hfree₂, hnext₂, hcut₂⟩ := hcut₁.free (a := .closure value) (i := f) (by
      rw [Function.update_of_ne hne.symm, Stage.cells, Function.update_of_ne hne.symm,
        Function.update_self])
    rw [Stage.cells_freed hseat.good] at hcut₂
    have hunbox : unbox w.proc.heap th.arg = some (f, slot, value, h₂) := by
      simp [unbox, hfree₁, hfree₂]
    -- the slot is written, if there is one
    have hleft : ∃ heap, (match slot with
        | none => some h₂
        | some s => h₂.store s (.slot (some value))) = some heap ∧
        heap.Cut (Function.update (fun u => (book u).cells) tid
          (Stage.slotCells slot (some value))) := by
      cases slot with
      | none =>
        refine ⟨h₂, rfl, ?_⟩
        rwa [Stage.slotCells_none] at hcut₂ ⊢
      | some s =>
        obtain ⟨h₃, hstore, -, hcut₃⟩ := hcut₂.store (Stage.slotCells_self s none)
          (.slot (some value))
        exact ⟨h₃, hstore, by rwa [Stage.slotCells_store] at hcut₃⟩
    obtain ⟨heap, hheap, hcut⟩ := hleft
    rw [hunbox]
    dsimp only
    rw [hheap]
    refine ⟨_, hI.move tid (.ended (!th.attr.detached) slot value) (fun u hu => ?_) ?_ hcut
      hI.once hI.old hI.started hI.before⟩
    · exact ⟨le_rfl, fun _ _ => .rfl, Function.update_of_ne hu _ _, fun _ => id, fun _ _ => .rfl,
        fun _ _ _ => .rfl⟩
    · have hold : ¬w.proc.tids ≤ tid := fun hle => by cases hseat.tid hle
      refine ⟨fun hle => absurd hle hold, fun th' hth' => ?_, ?_, fun hs => ?_,
        hseat.value, hseat.held, hseat.given, hseat.refused, hseat.lost, hseat.slots⟩
      · rw [hseat.threads th' hth']
        constructor <;> rintro ⟨_, _, _, heq⟩ <;> cases heq
      · refine (Function.update_self _ _ _).trans ?_
        cases th.attr.detached <;> rfl
      · obtain ⟨s, hs⟩ := Option.ne_none_iff_exists'.1 hs
        rw [(hslot s hs).2.2]
        rfl
  · trivial

/-! ## Handles -/

theorem World.Inv.unique (hI : w.Inv book) {h' : JoinHandle} (hh : h ∈ w.handles)
    (hmem : h' ∈ w.handles.erase h) : h' ∈ w.handles ∧ h'.tid ≠ h.tid := by
  have honce := hI.once
  rw [World.everyHandle, List.map_append] at honce
  have hnodup : (w.handles.map JoinHandle.tid).Nodup := (List.nodup_append.1 honce).1
  obtain ⟨hne, hmem⟩ := (List.Nodup.mem_erase_iff hnodup.of_map).1 hmem
  exact ⟨hmem, fun htid => hne (List.inj_on_of_nodup_map hnodup hmem hh htid)⟩

theorem World.Inv.not_closed (hI : w.Inv book) (hh : h ∈ w.handles) {h' : JoinHandle}
    {r : Option (Except Errno T)} (hmem : (h', r) ∈ w.closed) : h'.tid ≠ h.tid := by
  have honce := hI.once
  rw [World.everyHandle, List.map_append] at honce
  have hmem' : h'.tid ∈ (w.closed.map Prod.fst).map JoinHandle.tid :=
    List.mem_map.2 ⟨h', List.mem_map.2 ⟨_, hmem, rfl⟩, rfl⟩
  have hmem : h.tid ∈ w.handles.map JoinHandle.tid := List.mem_map.2 ⟨h, hh, rfl⟩
  exact fun htid => (List.nodup_append.1 honce).2.2 _ hmem _ hmem' htid.symm

/-- **A handle goes**: its slot was freed and held the result that it gave, or it is left. -/
theorem World.Inv.close (hI : w.Inv book) (hh : h ∈ w.handles) {r : Option (Except Errno T)}
    {heap : Heap (Cell T)} {life : ℕ → Option Life} (st : Stage T)
    (hcut : heap.Cut (Function.update (fun u => (book u).cells) h.tid st.cells))
    (hlife : life = Function.update w.life h.tid st.life)
    (hst : st = book h.tid ∧ (r = none ∨ r = some (.error Errno.EDEADLK)) ∨
      st = .joined ∧ ∃ b v, r = some (.ok v) ∧ book h.tid = .ended b (some h.slot) v) :
    World.Inv (World.close { w with proc := { w.proc with heap }, life := life } h r)
      (Function.update book h.tid st) := by
  subst hlife
  have hseat := hI.seat h.tid
  have hclosed : ∀ h' r', (h', r') ∈ w.closed ++ [(h, r)] → h'.tid = h.tid → h' = h ∧ r' = r := by
    intro h' r' hmem htid
    rcases List.mem_append.1 hmem with hmem | hmem
    · exact absurd htid (hI.not_closed hh hmem)
    · cases List.mem_singleton.1 hmem
      exact ⟨rfl, rfl⟩
  have hslot : (book h.tid).slot = some h.slot := hseat.held h hh rfl
  have hperm : (w.handles.erase h ++ (w.closed ++ [(h, r)]).map Prod.fst).Perm w.everyHandle := by
    rw [World.everyHandle, List.map_append, List.map_singleton, ← List.append_assoc]
    exact (List.perm_append_singleton _ _).trans
      ((List.perm_cons_erase hh).symm.append_right _)
  refine hI.move h.tid st (fun u hu => ?_) ?_ hcut ?_ ?_ hI.started hI.before
  · refine ⟨le_rfl, fun _ _ => .rfl, Function.update_of_ne hu _ _, fun _ => id, fun h' htid => ?_,
      fun h' r' htid => ?_⟩
    · exact List.mem_erase_of_ne (by rintro rfl; exact hu htid.symm)
    · simp only [World.close, List.mem_append, List.mem_singleton, Prod.mk.injEq,
        or_iff_left_iff_imp]
      rintro ⟨rfl, -⟩
      exact absurd htid.symm hu
  · have hheld : ∀ h' ∈ w.handles.erase h, h'.tid ≠ h.tid := fun h' hmem => (hI.unique hh hmem).2
    rcases hst with ⟨rfl, hr⟩ | ⟨rfl, b, v, rfl, hst⟩
    · refine ⟨hseat.tid, hseat.threads, Function.update_self _ _ _, hseat.good, hseat.value,
        fun h' hmem htid => absurd htid (hheld h' hmem), fun h' v hmem htid => ?_,
        fun h' e hmem htid => ?_, fun h' hmem htid => ?_, fun s hs => ?_⟩
      · obtain ⟨-, rfl⟩ := hclosed h' _ hmem htid
        rcases hr with hr | hr <;> cases hr
      · obtain ⟨-, rfl⟩ := hclosed h' _ hmem htid
        rcases hr with hr | hr <;> cases hr
        rfl
      · obtain ⟨r', hmem, -⟩ := World.mem_lost.1 hmem
        obtain ⟨rfl, -⟩ := hclosed h' r' hmem htid
        exact hslot
      · cases hslot.symm.trans hs
        refine List.mem_append_right _ (World.mem_lost.2 ⟨r, ?_, ?_⟩)
        · exact List.mem_append_right _ (List.mem_singleton_self _)
        · rintro v rfl
          rcases hr with hr | hr <;> cases hr
    · rw [hst] at hseat
      have hold : ¬w.proc.tids ≤ h.tid := fun hle => by cases hseat.tid hle
      refine ⟨fun hle => absurd hle hold, fun th hth => ?_, Function.update_self _ _ _, trivial,
        (fun v hv => by cases hv), fun h' hmem htid => absurd htid (hheld h' hmem),
        fun h' v' hmem htid => ?_, fun h' e hmem htid => ?_, fun h' hmem htid => ?_,
        (fun s hs => by cases hs)⟩
      · refine (hseat.threads th hth).trans ⟨?_, ?_⟩ <;> rintro ⟨_, _, _, heq⟩ <;> cases heq
      · obtain ⟨-, heq⟩ := hclosed h' _ hmem htid
        cases heq
        exact hseat.value v rfl
      · obtain ⟨-, heq⟩ := hclosed h' _ hmem htid
        cases heq
      · obtain ⟨r', hmem, hr'⟩ := World.mem_lost.1 hmem
        obtain ⟨-, rfl⟩ := hclosed h' r' hmem htid
        exact absurd rfl (hr' v)
  · exact (hperm.map _).nodup_iff.2 hI.once
  · exact fun h' hmem => hI.old h' (hperm.mem_iff.1 hmem)

/-- **What a `join` does**: a thread that joins itself is told so; any other waits for the thread to
    end, and gets what its closure returned. -/
theorem World.Inv.join (hI : w.Inv book) (hh : h ∈ w.handles) (caller : ℕ) :
    (caller = h.tid ∧ h.join caller w = .ok (.error Errno.EDEADLK, w)) ∨
    (caller ≠ h.tid ∧ w.life h.tid ≠ some .ended ∧ h.join caller w = .never) ∨
    ∃ b v heap, caller ≠ h.tid ∧ w.life h.tid = some .ended ∧
      book h.tid = .ended b (some h.slot) v ∧
      heap.Cut (Function.update (fun u => (book u).cells) h.tid fun _ => none) ∧
      h.join caller w = .ok (.ok v, { w with
        proc := { w.proc with heap }
        life := Function.update w.life h.tid none }) := by
  have hseat := hI.seat h.tid
  have hslot := hseat.held h hh rfl
  have hgood := hseat.good
  by_cases hcaller : caller = h.tid
  · refine .inl ⟨hcaller, ?_⟩
    rw [JoinHandle.join, World.pthreadJoin, if_pos hcaller]
    rfl
  · cases hst : book h.tid with
    | absent | joined =>
      rw [hst] at hslot
      cases hslot
    | holds th f slot value begun =>
      rw [hst] at hslot hgood hseat
      have hjoinable := (hgood.2.2 _ hslot).2.2
      refine .inr (.inl ⟨hcaller, ?_, ?_⟩)
      · rw [hseat.life]
        cases begun <;> exact nofun
      · rw [JoinHandle.join, World.pthreadJoin, if_neg hcaller, hseat.life]
        cases begun with
        | true => simp [Stage.life, hjoinable]
        | false =>
          -- it has been created, and has not begun
          have hmem : th ∈ w.proc.threads := (hseat.threads th hgood.1).2 ⟨f, slot, value, rfl⟩
          have hfind : (w.proc.threads.find? (·.tid = h.tid)).isSome :=
            List.find?_isSome.2 ⟨th, hmem, by simpa using hgood.1⟩
          obtain ⟨th', hth'⟩ := Option.isSome_iff_exists.1 hfind
          have hmem' := List.mem_of_find?_eq_some hth'
          obtain ⟨f', slot', value', heq⟩ := (hseat.threads th'
            (by simpa using List.find?_some hth')).1 hmem'
          cases heq
          simp [Stage.life, hth', hjoinable]
    | ended b slot v =>
      rw [hst] at hslot hgood
      obtain rfl : slot = some h.slot := hslot
      obtain rfl : b = true := hgood (Option.some_ne_none _)
      have hlife : w.life h.tid = some .ended := by
        rw [hseat.life, hst]
        rfl
      obtain ⟨heap, hfree, -, hcut⟩ := (hI.cutAt hst).free
        (Stage.slotCells_self h.slot (some v))
      refine .inr (.inr ⟨true, v, heap, hcaller, hlife, rfl, ?_, ?_⟩)
      · rwa [Stage.cells, Stage.slotCells_free] at hcut
      · rw [JoinHandle.join, World.pthreadJoin, if_neg hcaller, hlife]
        simp only [CRes.bind_ok, ne_eq, not_true_eq_false, if_false, hfree]

/-! ## Whole runs -/

/-- **What one step preserves**, and that it does not fault. -/
theorem World.Inv.act (hI : w.Inv book) (host : Host) (a : Happens T) :
    (w.act host a).Gives fun w' => ∃ book', w'.Inv book' := by
  cases a with
  | detached codes bytes f => exact hI.detached
  | builder b codes f => exact hI.builder b
  | begins tid => exact hI.begins tid
  | returns tid => exact hI.returns tid
  | join caller h =>
    rw [World.act]
    split_ifs with hh
    · rcases hI.join hh caller with
        ⟨-, hjoin⟩ | ⟨-, -, hjoin⟩ | ⟨b, v, heap, -, -, hst, hcut, hjoin⟩
      · rw [hjoin, CRes.map_ok]
        have hseat := (hI.seat h.tid).life
        exact ⟨_, hI.close hh (book h.tid) (hI.cutAt rfl)
          (by rw [← hseat, Function.update_eq_self]) (.inl ⟨rfl, .inr rfl⟩)⟩
      · rw [hjoin]
        trivial
      · rw [hjoin, CRes.map_ok]
        exact ⟨_, hI.close hh .joined hcut rfl (.inr ⟨rfl, b, v, rfl, hst⟩)⟩
    · trivial
  | drop h =>
    rw [World.act]
    split_ifs with hh
    · have hseat := (hI.seat h.tid).life
      exact ⟨_, hI.close hh (book h.tid) (hI.cutAt rfl)
        (by rw [← hseat, Function.update_eq_self]) (.inl ⟨rfl, .inl rfl⟩)⟩
    · trivial
  | errno e =>
    refine ⟨book, hI.cut, fun t => (hI.seat t).frame ?_, hI.once, hI.old, hI.started, hI.before⟩
    exact ⟨le_rfl, fun _ _ => .rfl, rfl, fun _ => id, fun _ _ => .rfl, fun _ _ _ => .rfl⟩

theorem World.Inv.init : (World.init T).Inv fun _ => .absent where
  cut := Parts.Cut.empty
  seat t := by
    refine ⟨fun _ => rfl, fun th _ => ⟨fun hmem => ?_, fun ⟨_, _, _, heq⟩ => ?_⟩, rfl, trivial,
      fun v hv => ?_, fun h hh => ?_, fun h v hh => ?_, fun h e hh => ?_, fun h hh => ?_,
      fun s hs => ?_⟩
    · cases hmem
    · cases heq
    · cases hv
    · cases hh
    · cases hh
    · cases hh
    · cases hh
    · cases hs
  once := List.nodup_nil
  old h hh := by cases hh
  started := List.nodup_nil
  before x hx := by cases hx

theorem World.Inv.inductive (T : Type*) (host : Host) :
    (joinSystem T host).Inductive fun o => ∃ w book, o = some w ∧ World.Inv w book where
  init := ⟨_, _, rfl, World.Inv.init⟩
  step := by
    rintro _ a o' ⟨w, book, rfl, hI⟩ h
    have hact := hI.act host a
    simp only [joinSystem, World.step] at h
    split at h
    · next w' hw' =>
      rw [hw'] at hact
      obtain ⟨book', hI'⟩ := hact
      exact ⟨w', book', (Option.some.inj h).symm, hI'⟩
    · cases h
    · next hfault =>
      rw [hfault] at hact
      exact hact.elim

/-- The cell is a box of the closure of a thread that has not returned. -/
def World.Boxed (w : World T) (i : ℕ) : Prop :=
  ∃ th, (th ∈ w.proc.threads ∨ ∃ t, w.life t = some (.runs th)) ∧
    (i = th.arg ∨ ∃ slot, w.proc.heap.cells th.arg = some (.payload i slot))

/-- A handle is joined once at most, and what it gives is what the closure of its thread returned;
    on the heap are the boxes of the closures that have not returned, and a slot of its own for
    each handle that is held or was lost. -/
structure World.Delivered (w : World T) : Prop where
  joined : ∀ h v, (h, some (.ok v)) ∈ w.closed → (h.tid, v) ∈ w.started
  refused : ∀ h e, (h, some (.error e)) ∈ w.closed → e = Errno.EDEADLK
  started : (w.started.map Prod.fst).Nodup
  once : (w.everyHandle.map JoinHandle.tid).Nodup
  ready : ∀ h ∈ w.handles, ∀ caller, caller ≠ h.tid → w.life h.tid = some .ended →
    ∃ v w', h.join caller w = .ok (.ok v, w') ∧ (h.tid, v) ∈ w.started
  waits : ∀ h ∈ w.handles, ∀ caller, caller ≠ h.tid → w.life h.tid ≠ some .ended →
    h.join caller w = .never
  live : ∀ i, w.proc.heap.cells i ≠ none ↔
    w.Boxed i ∨ ∃ h ∈ w.handles ++ w.lost, h.slot = i
  apart : ∀ h ∈ w.handles ++ w.lost, ∀ h' ∈ w.handles ++ w.lost, h.slot = h'.slot →
    h.tid = h'.tid
  freed : ∀ i, i < w.proc.heap.next → ¬w.Boxed i → (∀ h ∈ w.handles ++ w.lost, h.slot ≠ i) →
    w.proc.heap.freed.count i = 1

theorem World.Inv.slot (hI : w.Inv book) (hh : h ∈ w.handles ++ w.lost) :
    (book h.tid).slot = some h.slot := by
  rcases List.mem_append.1 hh with hh | hh
  · exact (hI.seat h.tid).held h hh rfl
  · exact (hI.seat h.tid).lost h hh rfl

/-- **What is on the heap.** -/
theorem World.Inv.live (hI : w.Inv book) (i : ℕ) : w.proc.heap.cells i ≠ none ↔
    w.Boxed i ∨ ∃ h ∈ w.handles ++ w.lost, h.slot = i := by
  have hpayload : ∀ {t th f slot value begun}, book t = .holds th f slot value begun →
      w.proc.heap.cells th.arg = some (.payload f slot) := by
    intro t th f slot value begun hst
    refine hI.cut.live (o := t) ?_
    rw [hst, Stage.cells, Function.update_self]
  rw [hI.cut.live_iff]
  constructor
  · rintro ⟨t, hi⟩
    rcases Stage.cells_cases hi with hslot | ⟨th, f, slot, value, begun, hst, hbox⟩
    · exact .inr ⟨_, (hI.seat t).slots i hslot, rfl⟩
    · have hseat := hI.seat t
      rw [hst] at hseat
      obtain rfl := hseat.good.1
      refine .inl ⟨th, ?_, ?_⟩
      · cases begun with
        | true => exact .inr ⟨th.tid, hseat.life⟩
        | false => exact .inl ((hseat.threads th rfl).2 ⟨f, slot, value, rfl⟩)
      · rcases hbox with rfl | rfl
        · exact .inl rfl
        · exact .inr ⟨slot, hpayload hst⟩
  · rintro (⟨th, hth, hi⟩ | ⟨h, hh, rfl⟩)
    · obtain ⟨t, f, slot, value, begun, hst⟩ :
          ∃ t f slot value begun, book t = .holds th f slot value begun := by
        rcases hth with hth | ⟨t, hlife⟩
        · obtain ⟨f, slot, value, hst⟩ := ((hI.seat th.tid).threads th rfl).1 hth
          exact ⟨th.tid, f, slot, value, false, hst⟩
        · obtain ⟨f, slot, value, hst⟩ := Stage.eq_of_life ((hI.seat t).life.symm.trans hlife)
          exact ⟨t, f, slot, value, true, hst⟩
      have hseat := hI.seat t
      rw [hst] at hseat
      refine ⟨t, ?_⟩
      rcases hi with rfl | ⟨slot', hi⟩
      · rw [hst, Stage.cells, Function.update_self]
        exact Option.some_ne_none _
      · cases (hpayload hst).symm.trans hi
        rw [hst, Stage.cells, Function.update_of_ne hseat.good.2.1.symm, Function.update_self]
        exact Option.some_ne_none _
    · exact ⟨h.tid, Stage.cells_slot (hI.seat h.tid).good (hI.slot hh)⟩

theorem World.Inv.delivered (hI : w.Inv book) : w.Delivered where
  joined h v hmem := (hI.seat h.tid).given h v hmem rfl
  refused h e hmem := (hI.seat h.tid).refused h e hmem rfl
  started := hI.started
  once := hI.once
  ready h hh caller hcaller hended := by
    rcases hI.join hh caller with ⟨heq, -⟩ | ⟨-, hno, -⟩ | ⟨b, v, heap, -, -, hst, -, hjoin⟩
    · exact absurd heq hcaller
    · exact absurd hended hno
    · refine ⟨v, _, hjoin, (hI.seat h.tid).value v ?_⟩
      rw [hst]
      rfl
  waits h hh caller hcaller hno := by
    rcases hI.join hh caller with ⟨heq, -⟩ | ⟨-, -, hjoin⟩ | ⟨b, v, heap, -, hended, -⟩
    · exact absurd heq hcaller
    · exact hjoin
    · exact absurd hended hno
  live := hI.live
  apart h hh h' hh' heq := by
    have hs := Stage.cells_slot (hI.seat h.tid).good (hI.slot hh)
    have hs' := Stage.cells_slot (hI.seat h'.tid).good (hI.slot hh')
    rw [← heq] at hs'
    exact hI.cut.apart _ _ _ hs hs'
  freed i hi hbox hslot := by
    refine Heap.count_freed hi ?_
    by_contra hlive
    rcases (hI.live i).1 hlive with hboxed | ⟨h, hh, heq⟩
    · exact hbox hboxed
    · exact hslot h hh heq

/-- **Joins deliver**: in every run of a process that starts, joins and lets go of threads, nothing
    faults, and the handles and the heap are in order.  Threads that join each other wait, and get
    no `EDEADLK`, which the system need not find out; one that joins itself does get it. -/
theorem joins_deliver (host : Host) {as : List (Happens T)} {o : Option (World T)}
    (hr : (joinSystem T host).run as = some o) : ∃ w, o = some w ∧ w.Delivered := by
  obtain ⟨w, book, rfl, hI⟩ := (World.Inv.inductive T host).run hr
  exact ⟨w, rfl, hI.delivered⟩

/-- A thread that can be joined and one that cannot: the first one's result comes through, and the
    heap is empty in the end. -/
theorem joins_deliver_two : ∃ w, (joinSystem ℕ ⟨8388608, 0⟩).run
      [.builder ⟨0⟩ ⟨0, 0, 0, 0⟩ 7, .detached ⟨0, 0, 0, 0⟩ 4096 8, .begins 2, .begins 1, .returns 1,
        .join 2 ⟨1, 0⟩, .returns 2] = some (some w) ∧
    w.closed = [(⟨1, 0⟩, some (.ok 7))] ∧ w.proc.heap.freed = [2, 1, 0, 4, 3] ∧ w.Delivered := by
  have hr : (joinSystem ℕ ⟨8388608, 0⟩).run
      [.builder ⟨0⟩ ⟨0, 0, 0, 0⟩ 7, .detached ⟨0, 0, 0, 0⟩ 4096 8, .begins 2, .begins 1, .returns 1,
        .join 2 ⟨1, 0⟩, .returns 2] = some (some _) := rfl
  obtain ⟨w, heq, hw⟩ := joins_deliver ⟨8388608, 0⟩ hr
  cases heq
  exact ⟨_, hr, rfl, rfl, hw⟩

end Ekostd.Thread.Start
