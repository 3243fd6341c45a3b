/-
  The blocks of a C heap: `malloc`, `calloc`, `realloc`, `free`, `posix_memalign`.

  Where a block goes and what is in it is up to the library: a call is given the
  answer it gets, and an answer that no library gives is `never`.  A call that
  has no meaning is `undefined`.

  * `CHeap`: blocks that do not overlap, none of them at the null pointer;
  * `Block.splice`: a store into a block;
  * the calls, and `Serves`: how one that allocates comes out.
-/
import Ekostd.Lib.CRes

/-- A block, and what is in it. -/
structure Block (β : Type*) where
  addr : ℕ
  bytes : List β
  deriving DecidableEq

namespace Block

variable {β : Type*}

/-- They do not overlap; an empty block has its address for itself. -/
def Apart (b c : Block β) : Prop :=
  b.addr + max 1 b.bytes.length ≤ c.addr ∨ c.addr + max 1 c.bytes.length ≤ b.addr

instance (b c : Block β) : Decidable (Apart b c) := inferInstanceAs (Decidable (_ ∨ _))

theorem Apart.symm {b c : Block β} (h : Apart b c) : Apart c b := Or.symm h

theorem Apart.addr_ne {b c : Block β} (h : Apart b c) : b.addr ≠ c.addr := by
  unfold Apart at h
  omega

/-- `bs` is stored from the byte `i` on; what does not fit in is not. -/
def splice (i : ℕ) (bs : List β) (b : Block β) : Block β where
  addr := b.addr
  bytes := b.bytes.take i ++ bs.take (b.bytes.length - i) ++ b.bytes.drop (i + bs.length)

@[simp] theorem addr_splice (i : ℕ) (bs : List β) (b : Block β) :
    (b.splice i bs).addr = b.addr := rfl

@[simp] theorem length_splice (i : ℕ) (bs : List β) (b : Block β) :
    (b.splice i bs).bytes.length = b.bytes.length := by
  simp only [splice, List.length_append, List.length_take, List.length_drop]
  omega

theorem splice_zero {bs : List β} {b : Block β} (h : bs.length ≤ b.bytes.length) :
    (b.splice 0 bs).bytes = bs ++ b.bytes.drop bs.length := by
  simp [splice, List.take_of_length_le h]

end Block

/-- The blocks that are allocated. -/
structure CHeap (β : Type*) where
  blocks : List (Block β)
  apart : blocks.Pairwise Block.Apart
  notNull : ∀ b ∈ blocks, b.addr ≠ 0

/-- What a C library promises: the alignment of `malloc`, the size of a pointer, and the alignments
    that `posix_memalign` heeds. -/
structure Libc where
  minAlign : ℕ
  word : ℕ
  heeds : ℕ → Bool

namespace CHeap

open Block

variable {β : Type*} {h : CHeap β} {b : Block β} {p q n : ℕ}

/-- The library's answer: nothing, or a block. -/
abbrev Answer (β : Type*) := Option (Block β)

/-- Nothing has been allocated. -/
def empty : CHeap β where
  blocks := []
  apart := .nil
  notNull := by simp

/-- There is room for the block, of `n` bytes. -/
def Fits (h : CHeap β) (n : ℕ) (b : Block β) : Prop :=
  b.addr ≠ 0 ∧ b.bytes.length = n ∧ ∀ c ∈ h.blocks, Apart b c

instance (h : CHeap β) (n : ℕ) (b : Block β) : Decidable (h.Fits n b) :=
  inferInstanceAs (Decidable (_ ∧ _ ∧ _))

theorem pairwise_cons {l : List (Block β)} (hl : l.Pairwise Apart) (hb : ∀ c ∈ l, Apart b c) :
    (b :: l).Pairwise Apart :=
  List.pairwise_cons.2 ⟨hb, hl⟩

def place (h : CHeap β) (b : Block β) (hb : h.Fits n b) : CHeap β where
  blocks := b :: h.blocks
  apart := pairwise_cons h.apart hb.2.2
  notNull := List.forall_mem_cons.2 ⟨hb.1, h.notNull⟩

/-- The heap without what is at `p`. -/
def without (h : CHeap β) (p : ℕ) : CHeap β where
  blocks := h.blocks.filter (·.addr ≠ p)
  apart := h.apart.filter _
  notNull b hb := h.notNull b (List.mem_filter.1 hb).1

theorem splice_apart (h : CHeap β) (p i : ℕ) (bs : List β) :
    (h.blocks.map fun b => if b.addr = p then b.splice i bs else b).Pairwise Apart := by
  refine List.pairwise_map.2 (h.apart.imp fun {b c} hbc => ?_)
  unfold Apart at hbc ⊢
  split_ifs <;> simpa using hbc

theorem splice_notNull (h : CHeap β) (p i : ℕ) (bs : List β) :
    ∀ b ∈ h.blocks.map fun b => if b.addr = p then b.splice i bs else b, b.addr ≠ 0 := by
  intro c hc
  obtain ⟨b, hb, rfl⟩ := List.mem_map.1 hc
  have hne := h.notNull b hb
  split_ifs <;> simpa using hne

/-- A store into the block at `p`. -/
def splice (h : CHeap β) (p i : ℕ) (bs : List β) : CHeap β where
  blocks := h.blocks.map fun b => if b.addr = p then b.splice i bs else b
  apart := h.splice_apart p i bs
  notNull := h.splice_notNull p i bs

/-- The block at `p`. -/
def at? (h : CHeap β) (p : ℕ) : Option (Block β) := h.blocks.find? (·.addr = p)

/-! ## The calls -/

/-- The alignment that a block of `n` bytes from `malloc` has: that of any object of that size. -/
def Libc.Suits (c : Libc) (n p : ℕ) : Prop :=
  ∀ a ≤ c.minAlign, a ≤ n → a ∣ c.minAlign → a ∣ p

instance (c : Libc) (n p : ℕ) : Decidable (Libc.Suits c n p) :=
  inferInstanceAs (Decidable (∀ a ≤ c.minAlign, _))

/-- A new block as the library answers, if `P` holds of it. -/
def new (h : CHeap β) (n : ℕ) (P : Block β → Prop) [DecidablePred P] :
    Answer β → CRes (ℕ × CHeap β)
  | none => .ok (0, h)
  | some b => if hb : h.Fits n b ∧ P b then .ok (b.addr, h.place b hb.1) else .never

/-- `malloc`. -/
def malloc (c : Libc) (n : ℕ) (ans : Answer β) (h : CHeap β) : CRes (ℕ × CHeap β) :=
  h.new n (fun b => Libc.Suits c n b.addr) ans

/-- `free`. -/
def free (p : ℕ) (h : CHeap β) : CRes (CHeap β) :=
  if p = 0 then .ok h
  else match h.at? p with
    | none => .undefined
    | some _ => .ok (h.without p)

/-- `posix_memalign`: what it returns (`EINVAL`, `ENOMEM`), and what it has stored in a pointer that
    was null. -/
def posixMemalign (c : Libc) (align n : ℕ) (ans : Answer β) (h : CHeap β) :
    CRes (ℕ × ℕ × CHeap β) :=
  if ¬(align.isPowerOfTwo ∧ c.word ∣ align) then .ok (22, 0, h)
  else (h.new n (fun b => c.heeds align → align ∣ b.addr) ans).map fun (out, h) =>
    (if out = 0 then 12 else 0, out, h)

variable [DecidableEq β]

/-- `calloc`. -/
def calloc [Zero β] (c : Libc) (count size : ℕ) (ans : Answer β) (h : CHeap β) :
    CRes (ℕ × CHeap β) :=
  h.new (count * size) (fun b => Libc.Suits c (count * size) b.addr ∧
    b.bytes = List.replicate (count * size) 0) ans

/-- `realloc`; where it fails the block stays. -/
def realloc (c : Libc) (p n : ℕ) (ans : Answer β) (h : CHeap β) : CRes (ℕ × CHeap β) :=
  if p = 0 then h.malloc c n ans
  else match h.at? p with
    | none => .undefined
    | some old =>
      if n = 0 then .undefined
      else match ans with
        | none => .ok (0, h)
        | some b => (h.without p).new n (fun b => Libc.Suits c n b.addr ∧
            b.bytes.take old.bytes.length = old.bytes.take n) (some b)

omit [DecidableEq β]

/-- `memset` of the first `n` bytes at `p`. -/
def writeBytes (p : ℕ) (a : β) (n : ℕ) (h : CHeap β) : CRes (CHeap β) :=
  match h.at? p with
  | none => .undefined
  | some b => if b.bytes.length < n then .undefined else .ok (h.splice p 0 (List.replicate n a))

/-- `memcpy` of the first `n` bytes at `src` to `dst`. -/
def copyNonoverlapping (src dst n : ℕ) (h : CHeap β) : CRes (CHeap β) :=
  match h.at? src, h.at? dst with
  | some b, some c =>
    if b.bytes.length < n ∨ c.bytes.length < n ∨ dst < src + n ∧ src < dst + n then .undefined
    else .ok (h.splice dst 0 (b.bytes.take n))
  | _, _ => .undefined

/-! ## What they do -/

/-- A call that allocates `n` bytes comes out as `r`: the null pointer and the heap `h₀`, or a new
    block in `h`. -/
def Serves (fails : Prop) (h₀ h : CHeap β) (n : ℕ) (P : Block β → Prop) (r : ℕ × CHeap β) : Prop :=
  fails ∧ r = (0, h₀) ∨
    ¬fails ∧ ∃ b, r.1 = b.addr ∧ h.Fits n b ∧ P b ∧ r.2.blocks = b :: h.blocks

variable {ans : Answer β} {fails : Prop} {h₀ h' : CHeap β} {P Q : Block β → Prop}

theorem Serves.mono {r : ℕ × CHeap β} (hr : Serves fails h₀ h n P r) (hP : ∀ b, P b → Q b) :
    Serves fails h₀ h n Q r := by
  rcases hr with hr | ⟨hok, b, haddr, hfits, hb, hblocks⟩
  · exact .inl hr
  · exact .inr ⟨hok, b, haddr, hfits, hP b hb, hblocks⟩

theorem Fits.splice {i : ℕ} {bs : List β} (hb : h.Fits n b) : h.Fits n (b.splice i bs) := by
  refine ⟨hb.1, (length_splice i bs b).trans hb.2.1, fun c hc => ?_⟩
  have hbc := hb.2.2 c hc
  unfold Apart at hbc ⊢
  rwa [length_splice, addr_splice]

theorem Fits.without (hb : h.Fits n b) : (h.without p).Fits n b :=
  ⟨hb.1, hb.2.1, fun c hc => hb.2.2 c (List.mem_filter.1 hc).1⟩

theorem new_gives [DecidablePred P] :
    (h.new n P ans).Gives (Serves (ans = none) h h n P) := by
  cases ans with
  | none => exact .inl ⟨rfl, rfl⟩
  | some b =>
    rw [new]
    split
    · next hb => exact .inr ⟨by simp, b, rfl, hb.1, hb.2, rfl⟩
    · trivial

theorem malloc_gives {c : Libc} :
    (h.malloc c n ans).Gives (Serves (ans = none) h h n fun b => Libc.Suits c n b.addr) :=
  new_gives

theorem calloc_gives [DecidableEq β] [Zero β] {c : Libc} {count size : ℕ} :
    (h.calloc c count size ans).Gives (Serves (ans = none) h h (count * size) fun b =>
      Libc.Suits c (count * size) b.addr ∧ b.bytes = List.replicate (count * size) 0) :=
  new_gives

theorem posixMemalign_gives {c : Libc} {align : ℕ} (hpow : align.isPowerOfTwo)
    (hword : c.word ∣ align) :
    (h.posixMemalign c align n ans).Gives fun (ret, out, h') =>
      (ret ≠ 0 ↔ out = 0) ∧ Serves (ans = none) h h n (fun b => c.heeds align → align ∣ b.addr)
        (out, h') := by
  rw [posixMemalign, if_neg (by simp [hpow, hword])]
  refine new_gives.map fun (out, h') hout => ⟨?_, hout⟩
  by_cases h0 : out = 0 <;> simp [h0]

@[simp] theorem blocks_without (h : CHeap β) (p : ℕ) :
    (h.without p).blocks = h.blocks.filter (·.addr ≠ p) := rfl

@[simp] theorem blocks_splice (h : CHeap β) (p i : ℕ) (bs : List β) :
    (h.splice p i bs).blocks = h.blocks.map fun b => if b.addr = p then b.splice i bs else b := rfl

theorem at?_eq_some : h.at? p = some b ↔ b ∈ h.blocks ∧ b.addr = p := by
  have hap := h.apart
  unfold at?
  generalize h.blocks = l at hap
  induction l with
  | nil => simp
  | cons c l ih =>
    obtain ⟨hc, hl⟩ := List.pairwise_cons.1 hap
    rw [List.find?_cons]
    by_cases hp : c.addr = p
    · simp only [hp, decide_true, Option.some.injEq, List.mem_cons]
      constructor
      · rintro rfl
        exact ⟨.inl rfl, hp⟩
      · rintro ⟨rfl | hb, hb'⟩
        · rfl
        · exact absurd (hp.trans hb'.symm) (hc b hb).addr_ne
    · simp only [hp, decide_false, ih hl, List.mem_cons]
      constructor
      · rintro ⟨hb, hb'⟩
        exact ⟨.inr hb, hb'⟩
      · rintro ⟨rfl | hb, hb'⟩
        · exact absurd hb' hp
        · exact ⟨hb, hb'⟩

theorem free_eq (hb : h.at? p = some b) : h.free p = .ok (h.without p) := by
  have h0 : p ≠ 0 := (at?_eq_some.1 hb).2 ▸ h.notNull b (at?_eq_some.1 hb).1
  rw [free, if_neg h0, hb]

theorem realloc_gives [DecidableEq β] {c : Libc} (hb : h.at? p = some b) (hn : n ≠ 0) :
    (h.realloc c p n ans).Gives (Serves (ans = none) h (h.without p) n fun d =>
      Libc.Suits c n d.addr ∧ d.bytes.take b.bytes.length = b.bytes.take n) := by
  have h0 : p ≠ 0 := (at?_eq_some.1 hb).2 ▸ h.notNull b (at?_eq_some.1 hb).1
  rw [realloc, if_neg h0, hb]
  dsimp only
  rw [if_neg hn]
  cases ans with
  | none => exact .inl ⟨rfl, rfl⟩
  | some d =>
    refine new_gives.mono fun r hr => ?_
    rcases hr with ⟨hfail, -⟩ | hr
    · cases hfail
    · exact .inr hr

theorem blocks_splice_cons {l : List (Block β)} (hl : h.blocks = b :: l) (i : ℕ) (bs : List β) :
    (h.splice b.addr i bs).blocks = b.splice i bs :: l := by
  have hne : ∀ c ∈ l, c.addr ≠ b.addr := fun c hc =>
    ((List.pairwise_cons.1 (hl ▸ h.apart)).1 c hc).addr_ne.symm
  rw [blocks_splice, hl, List.map_cons, if_pos rfl, List.cons.injEq]
  refine ⟨rfl, ?_⟩
  conv_rhs => rw [← List.map_id l]
  exact List.map_congr_left fun c hc => by rw [if_neg (hne c hc), id]

theorem blocks_without_cons {l : List (Block β)} (hl : h.blocks = b :: l) (hp : b.addr ≠ p) :
    (h.without p).blocks = b :: l.filter (·.addr ≠ p) := by
  rw [blocks_without, hl, List.filter_cons_of_pos (by simpa using hp)]

theorem writeBytes_gives {a : β} (hb : h.at? p = some b) (hn : b.bytes.length = n) :
    (h.writeBytes p a n).Gives fun h' => h' = h.splice p 0 (List.replicate n a) := by
  rw [writeBytes, hb]
  dsimp only
  rw [if_neg (by omega)]
  rfl

theorem copyNonoverlapping_gives {c : Block β} (hb : h.at? p = some b) (hc : h.at? q = some c)
    (hnb : n ≤ b.bytes.length) (hnc : n ≤ c.bytes.length) (hapart : Apart c b) :
    (h.copyNonoverlapping p q n).Gives fun h' => h' = h.splice q 0 (b.bytes.take n) := by
  have haddr : b.addr = p ∧ c.addr = q := ⟨(at?_eq_some.1 hb).2, (at?_eq_some.1 hc).2⟩
  unfold Apart at hapart
  rw [copyNonoverlapping, hb, hc]
  dsimp only
  rw [if_neg (by omega)]
  rfl

end CHeap
