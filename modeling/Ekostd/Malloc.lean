/-
  `heap.rs` — `Malloc`, the global allocator over the C library's.

  A program holds blocks, each with the layout it asked for and the bytes it may
  rely on; it hands back what it holds, with that layout, and asks for no block
  of no bytes.  The library answers each call as it likes, with a block that is
  aligned as `malloc` or `posix_memalign` promises and no better.

  * `alloc_gives`, `allocZeroed_gives`, `realloc_gives`: one call;
  * `malloc_serves`: at any time the blocks of the C heap are those the program
    holds, apart and aligned, with the bytes it relies on;
  * `malloc_refuses`: when a call comes back without a block.
-/
import Mathlib.Data.UInt
import Ekostd.Lib.CHeap
import Ekostd.Lib.PosixFs
import Ekostd.Lib.Sts

namespace Ekostd.Malloc

open CHeap PosixFs

/-- `Layout`. -/
structure Layout where
  size : ℕ
  align : ℕ
  pow : align.isPowerOfTwo
  deriving DecidableEq

/-- What the code is compiled for. -/
structure Target where
  /-- `x86_64` or `aarch64` -/
  arch : Bool
  /-- a `usize` has 8 bytes, not 4 -/
  wide : Bool
  apple : Bool

/-- `MIN_ALIGN`. -/
def Target.minAlign (t : Target) : ℕ := if t.arch then 16 else 8

/-- `size_of::<usize>()`. -/
def Target.word (t : Target) : ℕ := if t.wide then 8 else 4

/-- The C library there: Apple's `posix_memalign` does not heed a very large alignment. -/
def Target.libc (t : Target) : Libc where
  minAlign := t.minAlign
  word := t.word
  heeds align := !(t.apple && decide (2 ^ 31 < align))

variable (t : Target)

/-- `aligned_malloc`. -/
def alignedMalloc (layout : Layout) (ans : Answer UInt8) (h : CHeap UInt8) :
    CRes (ℕ × CHeap UInt8) :=
  if t.apple ∧ 2 ^ 31 < layout.align then .ok (0, h)
  else
    let align := max layout.align t.word
    (h.posixMemalign t.libc align layout.size ans).map fun (ret, out, h) =>
      if ret ≠ 0 then (0, h) else (out, h)

/-- `alloc`. -/
def alloc (layout : Layout) (ans : Answer UInt8) (h : CHeap UInt8) : CRes (ℕ × CHeap UInt8) :=
  if layout.align ≤ t.minAlign ∧ layout.align ≤ layout.size then h.malloc t.libc layout.size ans
  else alignedMalloc t layout ans h

/-- `alloc_zeroed`. -/
def allocZeroed (layout : Layout) (ans : Answer UInt8) (h : CHeap UInt8) :
    CRes (ℕ × CHeap UInt8) :=
  if layout.align ≤ t.minAlign ∧ layout.align ≤ layout.size then
    h.calloc t.libc layout.size 1 ans
  else
    (alloc t layout ans h).bind fun (ptr, h) =>
      if ptr ≠ 0 then (h.writeBytes ptr 0 layout.size).map fun h => (ptr, h) else .ok (ptr, h)

/-- `dealloc`. -/
def dealloc (ptr : ℕ) (_layout : Layout) (h : CHeap UInt8) : CRes (CHeap UInt8) := h.free ptr

/-- `realloc`. -/
def realloc (ptr : ℕ) (layout : Layout) (newSize : ℕ) (ans : Answer UInt8) (h : CHeap UInt8) :
    CRes (ℕ × CHeap UInt8) :=
  if layout.align ≤ t.minAlign ∧ layout.align ≤ newSize then h.realloc t.libc ptr newSize ans
  else
    let newLayout : Layout := ⟨newSize, layout.align, layout.pow⟩
    (alloc t newLayout ans h).bind fun (newPtr, h) =>
      if newPtr ≠ 0 then
        (h.copyNonoverlapping ptr newPtr (min layout.size newSize)).bind fun h =>
          (dealloc ptr layout h).map fun h => (newPtr, h)
      else .ok (newPtr, h)

/-! ## One call -/

variable {t} {layout : Layout} {ans : Answer UInt8} {h : CHeap UInt8} {b : Block UInt8} {n p : ℕ}

/-- What comes back without a block: what the library has none for, and on Apple what is aligned
    too far. -/
def Refused (t : Target) (layout : Layout) (n : ℕ) (ans : Answer UInt8) : Prop :=
  ans = none ∨ ¬(layout.align ≤ t.minAlign ∧ layout.align ≤ n) ∧ t.apple ∧ 2 ^ 31 < layout.align

theorem dvd_of_le {a c : ℕ} (ha : a.isPowerOfTwo) (hc : c.isPowerOfTwo) (hle : a ≤ c) : a ∣ c := by
  obtain ⟨k, rfl⟩ := ha
  obtain ⟨m, rfl⟩ := hc
  exact Nat.pow_dvd_pow 2 ((Nat.pow_le_pow_iff_right Nat.one_lt_two).1 hle)

theorem Target.minAlign_pow (t : Target) : t.minAlign.isPowerOfTwo := by
  unfold minAlign
  split_ifs
  · exact ⟨4, rfl⟩
  · exact ⟨3, rfl⟩

theorem Target.word_pow (t : Target) : t.word.isPowerOfTwo := by
  unfold word
  split_ifs
  · exact ⟨3, rfl⟩
  · exact ⟨2, rfl⟩

theorem Target.word_le (t : Target) : t.word ≤ 8 := by
  unfold word
  split_ifs <;> omega

/-- What `malloc` promises is enough on the short way. -/
theorem suits_dvd (hfast : layout.align ≤ t.minAlign ∧ layout.align ≤ n)
    (hp : Libc.Suits t.libc n p) : layout.align ∣ p :=
  hp _ hfast.1 hfast.2 (dvd_of_le layout.pow t.minAlign_pow hfast.1)

/-- On the other way the alignment that is asked for is valid, and heeded. -/
theorem alignedMalloc_gives (hslow : ¬(layout.align ≤ t.minAlign ∧ layout.align ≤ layout.size)) :
    (alignedMalloc t layout ans h).Gives
      (Serves (Refused t layout layout.size ans) h h layout.size
        fun b => layout.align ∣ b.addr) := by
  unfold alignedMalloc
  split_ifs with happle
  · exact .inl ⟨.inr ⟨hslow, happle⟩, rfl⟩
  have hpow : (max layout.align t.word).isPowerOfTwo := by
    rcases max_choice layout.align t.word with hmax | hmax <;> rw [hmax]
    · exact layout.pow
    · exact t.word_pow
  have hword : t.word ∣ max layout.align t.word :=
    dvd_of_le t.word_pow hpow (le_max_right _ _)
  have halign : layout.align ∣ max layout.align t.word :=
    dvd_of_le layout.pow hpow (le_max_left _ _)
  have hheeds : t.libc.heeds (max layout.align t.word) := by
    have hle := t.word_le
    simp only [Target.libc, Bool.not_eq_true', Bool.and_eq_false_iff, decide_eq_false_iff_not]
    by_cases ha : t.apple
    · have hsmall : layout.align ≤ 2 ^ 31 := by
        by_contra hbig
        exact happle ⟨ha, by omega⟩
      exact .inr (by omega)
    · exact .inl (by simpa using ha)
  have hrefused : Refused t layout layout.size ans ↔ ans = none :=
    or_iff_left fun hr => happle hr.2
  refine (posixMemalign_gives hpow hword).map ?_
  rintro ⟨ret, out, h'⟩ ⟨hret, ⟨hans, hout⟩ | ⟨hans, b, hout, hfits, hdvd, hblocks⟩⟩
  · cases hout
    exact .inl ⟨hrefused.2 hans, if_pos (hret.2 rfl)⟩
  · dsimp only at hout hblocks hret ⊢
    subst hout
    have hok : ¬ret ≠ 0 := fun hne => hfits.1 (hret.1 hne)
    rw [if_neg hok]
    exact .inr ⟨fun hr => hans (hrefused.1 hr), b, rfl, hfits, halign.trans (hdvd hheeds), hblocks⟩

theorem refused_fast (hfast : layout.align ≤ t.minAlign ∧ layout.align ≤ n) :
    ans = none ↔ Refused t layout n ans :=
  (or_iff_left fun hr => hr.1 hfast).symm

/-- **`alloc`**. -/
theorem alloc_gives : (alloc t layout ans h).Gives
    (Serves (Refused t layout layout.size ans) h h layout.size fun b => layout.align ∣ b.addr) := by
  unfold alloc
  split_ifs with hfast
  · rw [← refused_fast hfast]
    exact malloc_gives.mono fun r hr => hr.mono fun b => suits_dvd hfast
  · exact alignedMalloc_gives hfast

/-- **`alloc_zeroed`**: what comes from `calloc`, and what is cleared here. -/
theorem allocZeroed_gives : (allocZeroed t layout ans h).Gives
    (Serves (Refused t layout layout.size ans) h h layout.size fun b =>
      layout.align ∣ b.addr ∧ b.bytes = List.replicate layout.size 0) := by
  unfold allocZeroed
  split_ifs with hfast
  · rw [← refused_fast hfast]
    refine calloc_gives.mono fun r hr => ?_
    rw [mul_one] at hr
    exact hr.mono fun b hb => ⟨suits_dvd hfast hb.1, hb.2⟩
  · refine alloc_gives.bind ?_
    rintro ⟨ptr, h'⟩ (⟨hans, hptr⟩ | ⟨hans, b, hptr, hfits, hdvd, hblocks⟩)
    · cases hptr
      exact .inl ⟨hans, rfl⟩
    · dsimp only at hptr hblocks ⊢
      subst hptr
      rw [if_pos hfits.1]
      have hat : h'.at? b.addr = some b := at?_eq_some.2 ⟨by simp [hblocks], rfl⟩
      refine (writeBytes_gives hat hfits.2.1).map ?_
      rintro _ rfl
      have hlen : (List.replicate layout.size (0 : UInt8)).length = b.bytes.length := by
        rw [List.length_replicate, hfits.2.1]
      refine .inr ⟨hans, b.splice 0 (List.replicate layout.size 0), rfl, hfits.splice, ⟨hdvd, ?_⟩,
        blocks_splice_cons hblocks _ _⟩
      rw [Block.splice_zero hlen.le, hlen, List.drop_length, List.append_nil]

/-- The bytes that are copied are all that fit. -/
theorem take_splice_take {d : Block UInt8} (hb : b.bytes.length = layout.size)
    (hd : d.bytes.length = n) :
    (d.splice 0 (b.bytes.take (min layout.size n))).bytes.take b.bytes.length =
      b.bytes.take n := by
  have hlen : (b.bytes.take (min layout.size n)).length = min layout.size n := by
    rw [List.length_take]
    omega
  rw [Block.splice_zero (by omega), hlen]
  rcases le_total layout.size n with hle | hle
  · rw [min_eq_left hle, ← hb, List.take_length, List.take_append_of_le_length le_rfl,
      List.take_length, List.take_of_length_le (by omega)]
  · rw [min_eq_right hle, List.drop_of_length_le hd.le, List.append_nil, List.take_take,
      min_eq_right (by omega)]

/-- **`realloc`**: the block is another one, or where it was, with what fits of the bytes. -/
theorem realloc_gives (hat : h.at? p = some b) (hsize : b.bytes.length = layout.size)
    (hn : n ≠ 0) : (realloc t p layout n ans h).Gives
    (Serves (Refused t layout n ans) h (h.without p) n fun d =>
      layout.align ∣ d.addr ∧ d.bytes.take b.bytes.length = b.bytes.take n) := by
  unfold realloc
  split_ifs with hfast
  · rw [← refused_fast hfast]
    exact (CHeap.realloc_gives hat hn).mono fun r hr => hr.mono fun d hd =>
      ⟨suits_dvd hfast hd.1, hd.2⟩
  · refine alloc_gives.bind ?_
    rintro ⟨newPtr, h'⟩ (⟨hans, hptr⟩ | ⟨hans, d, hptr, hfits, hdvd, hblocks⟩)
    · cases hptr
      exact .inl ⟨hans, rfl⟩
    · dsimp only at hptr hblocks hfits hdvd ⊢
      subst hptr
      rw [if_pos hfits.1]
      have hb : b ∈ h.blocks ∧ b.addr = p := at?_eq_some.1 hat
      have hapart : Block.Apart d b := hfits.2.2 b hb.1
      have hold : h'.at? p = some b := at?_eq_some.2 ⟨by simp [hblocks, hb.1], hb.2⟩
      have hnew : h'.at? d.addr = some d := at?_eq_some.2 ⟨by simp [hblocks], rfl⟩
      refine (copyNonoverlapping_gives hold hnew (n := min layout.size n) (by omega)
        (by rw [hfits.2.1]; omega) hapart).bind ?_
      rintro _ rfl
      have hcopied := blocks_splice_cons hblocks 0 (b.bytes.take (min layout.size n))
      have hfree : (h'.splice d.addr 0 (b.bytes.take (min layout.size n))).at? p = some b :=
        at?_eq_some.2 ⟨by rw [hcopied]; simp [hb.1], hb.2⟩
      rw [dealloc, free_eq hfree]
      exact .inr ⟨hans, d.splice 0 (b.bytes.take (min layout.size n)), rfl, hfits.splice.without,
        ⟨hdvd, take_splice_take hsize hfits.2.1⟩,
        blocks_without_cons hcopied (hb.2 ▸ hapart.addr_ne)⟩

/-! ## The program -/

/-- A block that the program holds: the layout it has asked for, and the bytes it may rely on. -/
structure Held where
  ptr : ℕ
  layout : Layout
  bytes : Bytes
  deriving DecidableEq

def Held.block (e : Held) : Block UInt8 := ⟨e.ptr, e.bytes⟩

def Held.store (i : ℕ) (bs : Bytes) (e : Held) : Held :=
  { e with bytes := (e.block.splice i bs).bytes }

theorem Held.block_store (i : ℕ) (bs : Bytes) (e : Held) :
    (e.store i bs).block = e.block.splice i bs := rfl

/-- What the program does. -/
inductive Call where
  | alloc (layout : Layout)
  | allocZeroed (layout : Layout)
  | dealloc (ptr : ℕ) (layout : Layout)
  | realloc (ptr : ℕ) (layout : Layout) (newSize : ℕ)
  /-- it stores `bs` from the byte `i` on in a block that it holds -/
  | write (ptr i : ℕ) (bs : Bytes)

structure Program where
  heap : CHeap UInt8
  held : List Held

namespace Program

/-- What `GlobalAlloc` asks of its callers. -/
def May (s : Program) : Call → Prop
  | .alloc layout | .allocZeroed layout => 0 < layout.size
  | .dealloc ptr layout => ∃ e ∈ s.held, e.ptr = ptr ∧ e.layout = layout
  | .realloc ptr layout newSize => (∃ e ∈ s.held, e.ptr = ptr ∧ e.layout = layout) ∧ 0 < newSize
  | .write ptr i bs => ∃ e ∈ s.held, e.ptr = ptr ∧ i + bs.length ≤ e.layout.size

instance (s : Program) : DecidablePred s.May
  | .alloc _ | .allocZeroed _ => inferInstanceAs (Decidable (0 < _))
  | .dealloc _ _ | .write _ _ _ => inferInstanceAs (Decidable (∃ e ∈ s.held, _))
  | .realloc _ _ _ => inferInstanceAs (Decidable ((∃ e ∈ s.held, _) ∧ _))

/-- The bytes of the block at `ptr`, as the program knows them. -/
def known (s : Program) (ptr : ℕ) : Bytes :=
  ((s.held.find? (·.ptr = ptr)).map Held.bytes).getD []

/-- The program is told a pointer: null, or that of a block which it now holds beside `rest`, and
    which it `knows` of what is in there. -/
def told (s : Program) (rest : List Held) (layout : Layout) (knows : Bytes → Bytes) :
    ℕ × CHeap UInt8 → Program
  | (ptr, heap) =>
    if ptr = 0 then ⟨heap, s.held⟩
    else ⟨heap, ⟨ptr, layout, knows (((heap.at? ptr).map Block.bytes).getD [])⟩ :: rest⟩

/-- The program without the block at `ptr`. -/
def others (s : Program) (ptr : ℕ) : List Held := s.held.filter (·.ptr ≠ ptr)

/-- A call, and what the program has after it. -/
def call (t : Target) (s : Program) (ans : Answer UInt8) : Call → CRes Program
  | .alloc layout => (alloc t layout ans s.heap).map (s.told s.held layout id)
  | .allocZeroed layout =>
    (allocZeroed t layout ans s.heap).map
      (s.told s.held layout fun _ => List.replicate layout.size 0)
  | .dealloc ptr layout => (dealloc ptr layout s.heap).map fun heap => ⟨heap, s.others ptr⟩
  | .realloc ptr layout newSize =>
    (realloc t ptr layout newSize ans s.heap).map
      (s.told (s.others ptr) ⟨newSize, layout.align, layout.pow⟩ fun found =>
        (s.known ptr).take newSize ++ found.drop layout.size)
  | .write ptr i bs =>
    .ok ⟨s.heap.splice ptr i bs, s.held.map fun e => if e.ptr = ptr then e.store i bs else e⟩

/-- One step of the program; it is `none` after a call without a meaning. -/
def step (t : Target) : Option Program → Call × Answer UInt8 → Option (Option Program)
  | none, _ => none
  | some s, (c, ans) =>
    if s.May c then
      match s.call t ans c with
      | .ok s' => some (some s')
      | .never => none
      | .undefined => some none
    else none

end Program

def system (t : Target) : Sts (Option Program) (Call × Answer UInt8) where
  init := some ⟨.empty, []⟩
  step := Program.step t

/-! ## What the program holds -/

/-- The blocks of the C heap are those that the program holds. -/
structure Program.Served (s : Program) : Prop where
  blocks : s.heap.blocks = s.held.map Held.block
  aligned : ∀ e ∈ s.held, e.layout.align ∣ e.ptr
  sized : ∀ e ∈ s.held, e.bytes.length = e.layout.size

namespace Program

variable {s s' : Program} {rest : List Held} {knows : Bytes → Bytes} {fails : Prop}
  {P : Block UInt8 → Prop} {r : ℕ × CHeap UInt8} {e : Held} {c : Call}

theorem Served.at? (hs : s.Served) (he : e ∈ s.held) : s.heap.at? e.ptr = some e.block :=
  at?_eq_some.2 ⟨by rw [hs.blocks]; exact List.mem_map_of_mem he, rfl⟩

theorem Served.known (hs : s.Served) (he : e ∈ s.held) : s.known e.ptr = e.bytes := by
  have hmap : s.heap.at? e.ptr = (s.held.find? (·.ptr = e.ptr)).map Held.block := by
    rw [CHeap.at?, hs.blocks, List.find?_map]
    rfl
  rw [hs.at? he, eq_comm, Option.map_eq_some_iff] at hmap
  obtain ⟨e', hfind, hblock⟩ := hmap
  rw [Program.known, hfind]
  exact congrArg Block.bytes hblock

theorem Served.others (hs : s.Served) (ptr : ℕ) :
    Served ⟨s.heap.without ptr, s.others ptr⟩ where
  blocks := by
    rw [blocks_without, hs.blocks, List.filter_map]
    rfl
  aligned e he := hs.aligned e (List.mem_filter.1 he).1
  sized e he := hs.sized e (List.mem_filter.1 he).1

theorem told_cases {h : CHeap UInt8} (rest : List Held) (layout : Layout) (knows : Bytes → Bytes)
    (hr : Serves fails s.heap h n P r) :
    fails ∧ s.told rest layout knows r = s ∨
      ¬fails ∧ ∃ b : Block UInt8, h.Fits n b ∧ P b ∧ r.2.blocks = b :: h.blocks ∧
        s.told rest layout knows r = ⟨r.2, ⟨b.addr, layout, knows b.bytes⟩ :: rest⟩ := by
  obtain ⟨ptr, heap⟩ := r
  rcases hr with ⟨hfails, hnull⟩ | ⟨hok, b, hptr, hfits, hb, hblocks⟩
  · cases hnull
    exact .inl ⟨hfails, rfl⟩
  · dsimp only at hptr hblocks ⊢
    subst hptr
    have hat : heap.at? b.addr = some b := at?_eq_some.2 ⟨by simp [hblocks], rfl⟩
    refine .inr ⟨hok, b, hfits, hb, hblocks, ?_⟩
    simp only [told, if_neg hfits.1, hat, Option.map_some, Option.getD_some]

theorem Served.told {h : CHeap UInt8} (hs : s.Served) (hrest : Served ⟨h, rest⟩)
    (hr : Serves fails s.heap h layout.size P r)
    (hP : ∀ b : Block UInt8, P b → layout.align ∣ b.addr ∧ knows b.bytes = b.bytes) :
    (s.told rest layout knows r).Served := by
  rcases told_cases rest layout knows hr with ⟨-, htold⟩ | ⟨-, b, hfits, hb, hblocks, htold⟩
  · rw [htold]
    exact hs
  · rw [htold, (hP b hb).2]
    exact {
      blocks := by rw [hblocks, List.map_cons]; exact congrArg (b :: ·) hrest.blocks
      aligned := List.forall_mem_cons.2 ⟨(hP b hb).1, hrest.aligned⟩
      sized := List.forall_mem_cons.2 ⟨hfits.2.1, hrest.sized⟩ }

theorem Served.write (hs : s.Served) (ptr i : ℕ) (bs : Bytes) :
    Served ⟨s.heap.splice ptr i bs,
      s.held.map fun e => if e.ptr = ptr then e.store i bs else e⟩ where
  blocks := by
    rw [blocks_splice, hs.blocks, List.map_map, List.map_map]
    refine List.map_congr_left fun e _ => ?_
    by_cases he : e.ptr = ptr
    · simp only [Function.comp_apply, if_pos he, Held.block_store]
      exact if_pos he
    · simp only [Function.comp_apply, if_neg he]
      exact if_neg he
  aligned := by
    refine List.forall_mem_map.2 fun e he => ?_
    split_ifs <;> exact hs.aligned e he
  sized := by
    refine List.forall_mem_map.2 fun e he => ?_
    split_ifs
    · exact (Block.length_splice i bs e.block).trans (hs.sized e he)
    · exact hs.sized e he

/-- **Any call** that the program may make has a meaning, and leaves it served. -/
theorem Served.call (hs : s.Served) (hmay : s.May c) : (s.call t ans c).Gives Served := by
  cases c with
  | alloc layout =>
    exact alloc_gives.map fun r hr => hs.told hs hr fun b hb => ⟨hb, rfl⟩
  | allocZeroed layout =>
    exact allocZeroed_gives.map fun r hr => hs.told hs hr fun b hb => ⟨hb.1, hb.2.symm⟩
  | dealloc ptr layout =>
    obtain ⟨e, he, rfl, rfl⟩ := hmay
    rw [Program.call, dealloc, free_eq (hs.at? he)]
    exact hs.others e.ptr
  | realloc ptr layout newSize =>
    obtain ⟨⟨e, he, rfl, rfl⟩, hnew⟩ := hmay
    refine (realloc_gives (hs.at? he) (hs.sized e he) hnew.ne').map fun r hr => ?_
    refine hs.told (hs.others e.ptr) hr fun b hb => ⟨hb.1, ?_⟩
    have hkept : b.bytes.take e.layout.size = e.bytes.take newSize := hs.sized e he ▸ hb.2
    rw [hs.known he, ← hkept, List.take_append_drop]
  | write ptr i bs => exact hs.write ptr i bs

theorem step_eq_some {o : Option Program} {ans : Answer UInt8} {o' : Option Program}
    (h : step t o (c, ans) = some o') : ∃ s, o = some s ∧ s.May c ∧
      (s.call t ans c = .undefined ∧ o' = none ∨ ∃ s', s.call t ans c = .ok s' ∧ o' = some s') := by
  cases o with
  | none => cases h
  | some s =>
    simp only [step] at h
    split_ifs at h with hmay
    refine ⟨s, rfl, hmay, ?_⟩
    split at h
    · next s' hs' => exact .inr ⟨s', hs', (Option.some.inj h).symm⟩
    · cases h
    · next hs' => exact .inl ⟨hs', (Option.some.inj h).symm⟩

theorem served_inductive (t : Target) :
    (system t).Inductive fun o => ∃ s, o = some s ∧ s.Served where
  init := ⟨_, rfl, rfl, by simp, by simp⟩
  step := by
    rintro _ ⟨c, ans⟩ o' ⟨s, rfl, hs⟩ h
    obtain ⟨s, ⟨⟩, hmay, hcall⟩ := step_eq_some (o := some s) h
    have hgives : (s.call t ans c).Gives Served := hs.call hmay
    rcases hcall with ⟨hundef, -⟩ | ⟨s', hok, rfl⟩
    · rw [hundef] at hgives
      exact hgives.elim
    · rw [hok] at hgives
      exact ⟨s', rfl, hgives⟩

end Program

/-- The layout that a call has for a block of so many bytes. -/
def Call.asks : Call → Option (Layout × ℕ)
  | .alloc layout | .allocZeroed layout => some (layout, layout.size)
  | .realloc _ layout newSize => some (layout, newSize)
  | .dealloc _ _ | .write _ _ _ => none

/-- The block that is given for the new one. -/
def Call.gives : Call → Option ℕ
  | .realloc ptr _ _ => some ptr
  | _ => none

/-- What has to be in the new block. -/
def Call.Fills (s : Program) (e : Held) : Call → Prop
  | .allocZeroed layout => e.bytes = List.replicate layout.size 0
  | .realloc ptr layout newSize => e.bytes.take layout.size = (s.known ptr).take newSize
  | _ => True

namespace Program

variable {s s' : Program} {c : Call}

/-- The program is as it was, or it has a new block for the one that it gives. -/
theorem Served.asks (hs : s.Served) (ans : Answer UInt8) (hmay : s.May c)
    (hc : c.asks = some (layout, n)) :
    (s.call t ans c).Gives fun s' => Refused t layout n ans ∧ s' = s ∨
      ¬Refused t layout n ans ∧ ∃ e : Held, e.layout.size = n ∧ e.layout.align = layout.align ∧
        s'.held = e :: s.held.filter (fun e' => some e'.ptr ≠ c.gives) ∧ c.Fills s e := by
  cases c with
  | alloc layout =>
    cases hc
    refine alloc_gives.map fun r hr => ?_
    rcases told_cases _ _ _ hr with htold | ⟨hok, b, hfits, hb, -, htold⟩
    · exact .inl htold
    · rw [htold]
      exact .inr ⟨hok, ⟨b.addr, layout, b.bytes⟩, rfl, rfl, by simp [Call.gives], trivial⟩
  | allocZeroed layout =>
    cases hc
    refine allocZeroed_gives.map fun r hr => ?_
    rcases told_cases _ _ _ hr with htold | ⟨hok, b, hfits, hb, -, htold⟩
    · exact .inl htold
    · rw [htold]
      exact .inr ⟨hok, ⟨b.addr, layout, List.replicate layout.size 0⟩, rfl, rfl,
        by simp [Call.gives], rfl⟩
  | realloc ptr layout newSize =>
    cases hc
    obtain ⟨⟨e, he, rfl, rfl⟩, hnew⟩ := hmay
    refine (realloc_gives (hs.at? he) (hs.sized e he) hnew.ne').map fun r hr => ?_
    rcases told_cases _ _ _ hr with htold | ⟨hok, b, hfits, hb, -, htold⟩
    · exact .inl htold
    · rw [htold]
      refine .inr ⟨hok, ⟨b.addr, ⟨n, e.layout.align, e.layout.pow⟩, _⟩, rfl, rfl,
        by simp only [Call.gives, Program.others, ne_eq, Option.some.injEq]; rfl, ?_⟩
      have hlen : e.bytes.length = e.layout.size := hs.sized e he
      have hkept : b.bytes.take e.layout.size = e.bytes.take n := hlen ▸ hb.2
      rw [Call.Fills, hs.known he, ← hkept, List.take_append_drop]
  | dealloc ptr layout => cases hc
  | write ptr i bs => cases hc

end Program

/-- **A call is refused** only where the C library has no block, or, on Apple, for an alignment over
    `2 ^ 31`; then all is as it was.  Otherwise there is a block as it was asked for, with zeros
    from `alloc_zeroed` and with what fits of the old one from `realloc`. -/
theorem malloc_refuses (as : List (Call × Answer UInt8)) {s : Program} (c : Call)
    (ans : Answer UInt8) {o : Option Program} (hr : (system t).run as = some (some s))
    (hc : c.asks = some (layout, n)) (h : (system t).run (as ++ [(c, ans)]) = some o) :
    Refused t layout n ans ∧ o = some s ∨ ¬Refused t layout n ans ∧ ∃ s' e, o = some s' ∧
      e.layout.size = n ∧ e.layout.align = layout.align ∧
      s'.held = e :: s.held.filter (fun e' => some e'.ptr ≠ c.gives) ∧ c.Fills s e := by
  obtain ⟨_, h₁, hstep⟩ := Sts.run_snoc_eq_some.1 h
  obtain rfl := Option.some.inj (hr.symm.trans h₁)
  obtain ⟨_, ⟨⟩, hs⟩ := (Program.served_inductive t).run hr
  obtain ⟨s, ⟨⟩, hmay, hcall⟩ := Program.step_eq_some (o := some s) hstep
  have hgives := hs.asks (t := t) ans hmay hc
  rcases hcall with ⟨hundef, -⟩ | ⟨s', hok, rfl⟩
  · rw [hundef] at hgives
    exact hgives.elim
  · rw [hok] at hgives
    rcases hgives with ⟨hrefused, rfl⟩ | ⟨hserved, e, hsize, halign, hheld, hfills⟩
    · exact .inl ⟨hrefused, rfl⟩
    · exact .inr ⟨hserved, s', e, rfl, hsize, halign, hheld, hfills⟩

/-- On Apple an alignment of `2 ^ 32` is refused, whatever the library has; and a `realloc` that the
    library refuses leaves the block that is held. -/
theorem malloc_refuses_far :
    Refused ⟨true, true, true⟩ ⟨1, 2 ^ 32, 32, rfl⟩ 1 (some ⟨2 ^ 32, [7]⟩) ∧
    ∃ s, (system ⟨true, true, false⟩).run [(.alloc ⟨2, 1, 0, rfl⟩, some ⟨16, [3, 4]⟩)] =
        some (some s) ∧
      s.held = [⟨16, ⟨2, 1, 0, rfl⟩, [3, 4]⟩] ∧
      (system ⟨true, true, false⟩).run [(.alloc ⟨2, 1, 0, rfl⟩, some ⟨16, [3, 4]⟩),
        (.realloc 16 ⟨2, 1, 0, rfl⟩ 64, none)] = some (some s) := by
  constructor
  · rcases malloc_refuses (t := ⟨true, true, true⟩) [] (.alloc ⟨1, 2 ^ 32, 32, rfl⟩)
      (some ⟨2 ^ 32, [7]⟩) rfl rfl rfl with ⟨hrefused, -⟩ | ⟨-, s', e, hs', -, -, hheld, -⟩
    · exact hrefused
    · cases hs'
      cases hheld
  · refine ⟨_, rfl, rfl, ?_⟩
    rcases malloc_refuses (t := ⟨true, true, false⟩)
      [(.alloc ⟨2, 1, 0, rfl⟩, some ⟨16, [3, 4]⟩)] (.realloc 16 ⟨2, 1, 0, rfl⟩ 64) none
      rfl rfl rfl with ⟨-, hsame⟩ | ⟨hserved, -⟩
    · exact congrArg some hsame
    · exact absurd (.inl rfl) hserved

end Ekostd.Malloc
