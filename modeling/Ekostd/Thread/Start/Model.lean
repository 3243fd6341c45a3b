/-
  `thread.rs` — `spawn_detached` and `Builder::spawn`, and who owns the closure.

  The closure is boxed and crosses to C as the address of a payload.  The
  pthread functions return their codes and leave `errno`; one that fails leaves
  the attribute as it was.

  * `spawnDetached`, `Builder.spawn`: the calls, on a heap that faults on what is
    not live;
  * `system`: a process that starts threads, which begin in any order;
  * `spawnDetached_cases`, `Builder.spawn_cases`: what a call leaves on the heap.
-/
import Ekostd.Lib.Heap
import Ekostd.Lib.PosixFs
import Ekostd.Lib.Sts

namespace Ekostd.Thread.Start

open PosixFs

variable {T : Type*}

/-- What is allocated: a boxed closure, which will return `value`; the payload that carries it, with
    the slot for its result if somebody waits for that; and the slot. -/
inductive Cell (T : Type*) where
  | closure (value : T)
  | payload (f : ℕ) (slot : Option ℕ)
  | slot (value : Option T)

/-- `pthread_attr_t`. -/
structure Attr where
  stackSize : ℕ
  detached : Bool
  deriving DecidableEq

/-- A thread that has been created and has not begun. -/
structure Created where
  tid : ℕ
  attr : Attr
  arg : ℕ

/-- The system: the stack size of an attribute that is initialised, and of one that is all zeros. -/
structure Host where
  default : ℕ
  zeroed : ℕ

/-- What the pthread functions return. -/
structure Codes where
  attrInit : Errno
  setStackSize : Errno
  setDetachState : Errno
  create : Errno

/-- The process: its heap and its `errno`, the next thread, those that have not begun, and the
    closures that threads have taken. -/
structure Proc (T : Type*) where
  heap : Heap (Cell T)
  errno : Errno
  tids : ℕ
  threads : List Created
  taken : List (ℕ × ℕ)

/-- `Box::from_raw` of a payload, and the end of it and of the box that it carries. -/
def unbox (heap : Heap (Cell T)) (raw : ℕ) : Option (ℕ × Option ℕ × T × Heap (Cell T)) :=
  (heap.free raw).bind fun
    | (.payload f slot, heap) => (heap.free f).bind fun
      | (.closure value, heap) => some (f, slot, value, heap)
      | _ => none
    | _ => none

/-- What the thread does first: `run` of `spawn_detached` takes the closure back; so does
    `spawn_trampoline`, which leaves the result in the slot. -/
def Proc.begins (p : Proc T) (th : Created) : Option (Proc T) :=
  (unbox p.heap th.arg).bind fun (f, slot, value, heap) =>
    let left : Option (Heap (Cell T)) :=
      match slot with
      | none => some heap
      | some s => heap.store s (.slot (some value))
    left.map fun heap =>
      ⟨heap, p.errno, p.tids, p.threads.filter (·.tid ≠ th.tid), p.taken ++ [(th.tid, f)]⟩

/-! ## Starting a thread -/

/-- `pthread_attr_init`. -/
def Attr.init (host : Host) (code : Errno) (attr : Attr) : Attr :=
  if code = 0 then ⟨host.default, false⟩ else attr

/-- `pthread_attr_setstacksize`. -/
def Attr.setStackSize (code : Errno) (bytes : ℕ) (attr : Attr) : Attr :=
  if code = 0 then { attr with stackSize := bytes } else attr

/-- `pthread_attr_setdetachstate`, to detached. -/
def Attr.setDetached (code : Errno) (attr : Attr) : Attr :=
  if code = 0 then { attr with detached := true } else attr

/-- An attribute that is all zeros. -/
def Attr.zeroed (host : Host) : Attr := ⟨host.zeroed, false⟩

/-- `pthread_create` has made a thread. -/
def Proc.create (p : Proc T) (attr : Attr) (arg : ℕ) : Proc T :=
  { p with tids := p.tids + 1, threads := p.threads ++ [⟨p.tids, attr, arg⟩] }

/-- `spawn_detached`, of a closure that will return `f`; `none` is a fault. -/
def spawnDetached (host : Host) (codes : Codes) (bytes : ℕ) (f : T) (p : Proc T) :
    Option (Except Errno Unit × Proc T) :=
  let inner := p.heap.next
  let heap := p.heap.alloc (.closure f)
  let raw := heap.next
  let heap := heap.alloc (.payload inner none)
  if codes.attrInit ≠ 0 then
    (unbox heap raw).map fun (_, _, _, heap) => (.error p.errno, { p with heap })
  else
    let attr := ((Attr.zeroed host).init host codes.attrInit).setStackSize codes.setStackSize bytes
    let attr := attr.setDetached codes.setDetachState
    if codes.create ≠ 0 then
      (unbox heap raw).map fun (_, _, _, heap) => (.error codes.create, { p with heap })
    else some (.ok (), Proc.create { p with heap } attr raw)

/-- `JoinHandle`. -/
structure JoinHandle where
  tid : ℕ
  slot : ℕ

/-- `Builder`; its name is kept and not used. -/
structure Builder where
  stackBytes : ℕ

/-- `Builder::spawn`. -/
def Builder.spawn (self : Builder) (host : Host) (codes : Codes) (f : T) (p : Proc T) :
    Option (Except Errno JoinHandle × Proc T) :=
  let slot := p.heap.next
  let heap := p.heap.alloc (.slot none)
  let boxed := heap.next
  let heap := heap.alloc (.closure f)
  let payload := heap.next
  let heap := heap.alloc (.payload boxed (some slot))
  let attr := (Attr.zeroed host).init host codes.attrInit
  let attr :=
    if self.stackBytes ≠ 0 then attr.setStackSize codes.setStackSize self.stackBytes else attr
  if codes.create ≠ 0 then
    (unbox heap payload).bind fun (_, _, _, heap) =>
      (heap.free slot).map fun (_, heap) => (.error codes.create, { p with heap })
  else some (.ok ⟨p.tids, slot⟩, Proc.create { p with heap } attr payload)

/-! ## The process -/

/-- What happens in the process: a thread is started in one of the two ways, begins, or something
    else sets `errno`. -/
inductive Act (T : Type*) where
  | detached (codes : Codes) (bytes : ℕ) (f : T)
  | builder (b : Builder) (codes : Codes) (f : T)
  | begins (tid : ℕ)
  | errno (e : Errno)

/-- One step; `none` also if it faults. -/
def Proc.step (host : Host) (p : Proc T) : Act T → Option (Proc T)
  | .detached codes bytes f => (spawnDetached host codes bytes f p).map Prod.snd
  | .builder b codes f => (b.spawn host codes f p).map Prod.snd
  | .begins tid => (p.threads.find? (·.tid = tid)).bind p.begins
  | .errno e => some { p with errno := e }

/-- A process with one thread and an empty heap. -/
def Proc.init (T : Type*) : Proc T := ⟨.empty, 0, 1, [], []⟩

def system (T : Type*) (host : Host) : Sts (Proc T) (Act T) where
  init := Proc.init T
  step := Proc.step host

/-! ## What the calls leave on the heap -/

/-- The payload at `raw` carries the closure at `f`. -/
def Carries (heap : Heap (Cell T)) (raw f : ℕ) : Prop :=
  ∃ slot value, heap.cells raw = some (.payload f slot) ∧ heap.cells f = some (.closure value) ∧
    ∀ s ∈ slot, ∃ x, heap.cells s = some (.slot x)

/-- What a start has allocated is gone. -/
structure Discards (heap heap' : Heap (Cell T)) : Prop where
  next : heap.next ≤ heap'.next
  old : ∀ j, j < heap.next → heap'.cells j = heap.cells j
  gone : ∀ j, heap.next ≤ j → heap'.cells j = none

/-- What a start has allocated is a payload at `raw` that carries the closure at `f`. -/
structure Carrying (heap heap' : Heap (Cell T)) (raw f : ℕ) : Prop where
  next : heap.next ≤ heap'.next
  old : ∀ j, j < heap.next → heap'.cells j = heap.cells j
  new : heap.next ≤ raw ∧ heap.next ≤ f
  carries : Carries heap' raw f

variable {heap heap' : Heap (Cell T)} {raw f c : ℕ} {host : Host} {codes : Codes} {bytes : ℕ}
  {p p' : Proc T} {value : T}

theorem Carries.ne (h : Carries heap raw f) : raw ≠ f := by
  obtain ⟨slot, value, hraw, hf, -⟩ := h
  rintro rfl
  cases hraw.symm.trans hf

theorem Carries.inj (h : Carries heap raw f) (h' : Carries heap raw c) : f = c := by
  obtain ⟨slot, value, hraw, -⟩ := h
  obtain ⟨slot', value', hraw', -⟩ := h'
  cases hraw.symm.trans hraw'
  rfl

theorem unbox_carries (h : Carries heap raw f) : ∃ slot value heap',
    heap.cells raw = some (.payload f slot) ∧ unbox heap raw = some (f, slot, value, heap') ∧
      heap'.next = heap.next ∧
      ∀ j, heap'.cells j = if j = raw ∨ j = f then none else heap.cells j := by
  have hne := h.ne
  obtain ⟨slot, value, hraw, hf, -⟩ := h
  have hf' : (heap.without raw _ hraw).cells f = some (.closure value) := by
    rw [Heap.without_cells, if_neg hne.symm, hf]
  refine ⟨slot, value, (heap.without raw _ hraw).without f _ hf', hraw, ?_, rfl, fun j => ?_⟩
  · rw [unbox, Heap.free_live hraw, Option.bind_some]
    simp only [Heap.free_live hf', Option.bind_some]
  · rw [Heap.without_cells, Heap.without_cells]
    split_ifs <;> simp_all

theorem carrying_alloc (heap : Heap (Cell T)) (value : T) (slot : Option ℕ)
    (hslot : ∀ s ∈ slot, ∃ x, heap.cells s = some (.slot x)) :
    Carrying heap ((heap.alloc (.closure value)).alloc (.payload heap.next slot)) (heap.next + 1)
      heap.next where
  next := by simp only [Heap.alloc_next]; omega
  old j hj := by
    rw [Heap.alloc_cells, Heap.alloc_cells, Heap.alloc_next, if_neg (by omega), if_neg (by omega)]
  new := ⟨Nat.le_succ _, le_rfl⟩
  carries := by
    refine ⟨slot, value, ?_, ?_, fun s hs => ?_⟩
    · rw [Heap.alloc_cells, Heap.alloc_next, if_pos rfl]
    · rw [Heap.alloc_cells, Heap.alloc_cells, Heap.alloc_next, if_neg (by omega), if_pos rfl]
    · obtain ⟨x, hx⟩ := hslot s hs
      exact ⟨x, Heap.alloc_live _ (Heap.alloc_live _ hx)⟩

/-- The attribute that `spawn_detached` creates a thread with. -/
def detachedAttr (host : Host) (codes : Codes) (bytes : ℕ) : Attr :=
  (((Attr.zeroed host).init host codes.attrInit).setStackSize codes.setStackSize bytes).setDetached
    codes.setDetachState

/-- **`spawn_detached`** discards what it has allocated, or leaves it to a thread. -/
theorem spawnDetached_cases (host : Host) (codes : Codes) (bytes : ℕ) (value : T) (p : Proc T) :
    ((codes.attrInit ≠ 0 ∨ codes.create ≠ 0) ∧ ∃ heap, Discards p.heap heap ∧
      spawnDetached host codes bytes value p = some
        (.error (if codes.attrInit ≠ 0 then p.errno else codes.create), { p with heap })) ∨
    (codes.attrInit = 0 ∧ codes.create = 0 ∧ ∃ heap raw f, Carrying p.heap heap raw f ∧
      spawnDetached host codes bytes value p = some
        (.ok (), Proc.create { p with heap } (detachedAttr host codes bytes) raw)) := by
  have halloc := carrying_alloc p.heap value none (by simp)
  obtain ⟨slot, value', heap, -, hunbox, hnext, hcells⟩ := unbox_carries halloc.carries
  have hdiscards : Discards p.heap heap := by
    refine ⟨by rw [hnext]; exact halloc.next, fun j hj => ?_, fun j hj => ?_⟩
    · rw [hcells, if_neg (by omega), halloc.old j hj]
    · rw [hcells]
      split_ifs with hj'
      · rfl
      · exact Heap.fresh _ j (by simp only [Heap.alloc_next]; omega)
  by_cases hinit : codes.attrInit = 0
  · by_cases hcreate : codes.create = 0
    · refine .inr ⟨hinit, hcreate, _, _, _, halloc, ?_⟩
      simp [spawnDetached, hinit, hcreate, detachedAttr]
    · refine .inl ⟨.inr hcreate, heap, hdiscards, ?_⟩
      simp [spawnDetached, hinit, hcreate, hunbox]
  · refine .inl ⟨.inl hinit, heap, hdiscards, ?_⟩
    simp [spawnDetached, hinit, hunbox]

/-- The attribute that `Builder::spawn` creates a thread with. -/
def builderAttr (host : Host) (codes : Codes) (bytes : ℕ) : Attr :=
  let attr := (Attr.zeroed host).init host codes.attrInit
  if bytes ≠ 0 then attr.setStackSize codes.setStackSize bytes else attr

/-- **`Builder::spawn`** discards what it has allocated, or leaves it to a thread. -/
theorem Builder.spawn_cases (self : Builder) (host : Host) (codes : Codes) (value : T)
    (p : Proc T) :
    (codes.create ≠ 0 ∧ ∃ heap, Discards p.heap heap ∧
      self.spawn host codes value p = some (.error codes.create, { p with heap })) ∨
    (codes.create = 0 ∧ ∃ heap raw f handle, Carrying p.heap heap raw f ∧
      self.spawn host codes value p = some (.ok handle,
        Proc.create { p with heap } (builderAttr host codes self.stackBytes) raw)) := by
  have hslot : (p.heap.alloc (.slot none)).cells p.heap.next = some (.slot none) := by
    rw [Heap.alloc_cells, if_pos rfl]
  have halloc : Carrying (p.heap.alloc (.slot none)) (((p.heap.alloc (.slot none)).alloc
      (.closure value)).alloc (.payload (p.heap.next + 1) (some p.heap.next)))
      (p.heap.next + 1 + 1) (p.heap.next + 1) :=
    carrying_alloc _ value (some p.heap.next) (by rintro s ⟨⟩; exact ⟨none, hslot⟩)
  have hold : ∀ j, j < p.heap.next → (p.heap.alloc (.slot none)).cells j = p.heap.cells j :=
    fun j hj => by rw [Heap.alloc_cells, if_neg (by omega)]
  by_cases hcreate : codes.create = 0
  · refine .inr ⟨hcreate, _, _, _, ⟨p.tids, p.heap.next⟩, ⟨?_, fun j hj => ?_, ?_,
      halloc.carries⟩, ?_⟩
    · simp
      omega
    · rw [halloc.old j (by simp; omega), hold j hj]
    · simp
      omega
    · simp [Builder.spawn, hcreate, builderAttr]
  · obtain ⟨slot, value', heap, -, hunbox, hnext, hcells⟩ := unbox_carries halloc.carries
    have hlive : heap.cells p.heap.next = some (.slot none) := by
      rw [hcells, if_neg (by omega), halloc.old _ (by simp), hslot]
    refine .inl ⟨hcreate, heap.without p.heap.next _ hlive, ⟨?_, fun j hj => ?_, fun j hj => ?_⟩,
      ?_⟩
    · rw [Heap.without_next, hnext]
      simp
      omega
    · rw [Heap.without_cells, if_neg (by omega), hcells, if_neg (by omega),
        halloc.old j (by simp; omega), hold j hj]
    · rw [Heap.without_cells]
      split_ifs with hj'
      · rfl
      · rw [hcells]
        split_ifs with hj''
        · rfl
        · exact Heap.fresh _ j (by simp only [Heap.alloc_next]; omega)
    · simp [Builder.spawn, hcreate, hunbox, Heap.free_live hlive]

end Ekostd.Thread.Start
