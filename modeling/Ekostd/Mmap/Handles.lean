/-
  `mmap.rs` — `Mmap`, `MmapMut` and `Reservation` as owners of pages.

  A program maps files and anonymous memory, reserves address space, freezes
  what it has written, changes the protection of whole pages of its own, stores
  and loads through what it holds, and drops it, in any order.  Others have
  mappings in the same address space.  Any call may fail, `munmap` too, which no
  destructor looks at.  A file does not change while it is mapped.

  * `Protection`: a set of bits, to which `with` adds any others;
  * `mapFile`, `mapAnon`, `makeReadOnly`, `reserve`, `protect`, `unmap`: the calls;
  * `handles_own_pages`: at any time the pages that were mapped here are those of
    the handles, each with what was written to it, and those that `munmap` has
    refused to take; nobody else's are touched, and a page is writable and
    executable only if `protect` was asked for that;
  * `Program.not_writeExec`: so none is where the constants are asked for.
-/
import Ekostd.Lib.PosixMmap
import Ekostd.Lib.Sts
import Ekostd.Mmap

namespace Ekostd.Mmap

open PosixFs PosixMmap

variable {w : ℕ} (page : ℕ)

/-- `Protection`; its field is private, and with `NONE` and `with` one of any bits can be had. -/
structure Protection where
  bits : BitVec 32
  deriving DecidableEq

namespace Protection

def none : Protection := ⟨PROT_NONE⟩
def read : Protection := ⟨PROT_READ⟩
def readWrite : Protection := ⟨PROT_READ ||| PROT_WRITE⟩
def readExecute : Protection := ⟨PROT_READ ||| PROT_EXEC⟩

/-- `Protection::with`. -/
def «with» (self : Protection) (extra : BitVec 32) : Protection := ⟨self.bits ||| extra⟩

/-- What a page with this protection may be used for. -/
def prot (self : Protection) : Prot := .ofBits self.bits

def constants : List Protection := [none, read, readWrite, readExecute]

theorem constants_writeExec : ∀ p ∈ constants, p.prot.WriteExec = false := by decide

/-- With other bits each of the two is there, or is added. -/
theorem with_writeExec (self : Protection) (extra : BitVec 32) :
    (self.with extra).prot.WriteExec = ((self.prot.write || (Prot.ofBits extra).write) &&
      (self.prot.exec || (Prot.ofBits extra).exec)) := by
  simp [Protection.with, prot, Prot.WriteExec]

end Protection

/-- `Mmap`, `MmapMut` and `Reservation`. -/
inductive Kind where
  | mmap
  | mmapMut
  | reservation
  deriving DecidableEq

/-- The bits that a new one is mapped with. -/
def Kind.bits : Kind → BitVec 32
  | .mmap => PROT_READ
  | .mmapMut => PROT_READ ||| PROT_WRITE
  | .reservation => PROT_NONE

/-- The fields that the three have. -/
structure Mapping where
  kind : Kind
  ptr : ℕ
  len : ℕ
  deriving DecidableEq

/-- `Mmap::map`, of a file that `fstat` tells the length of. -/
def mapFile (w : ℕ) (file : Except Errno Bytes) (ans : Except Errno ℕ) (s : Space) :
    CRes (Except File.Error Mapping × Space) :=
  match file with
  | .error e => .ok (.error (.fromErrno e "fstat"), s)
  | .ok bytes =>
    let len := bytes.length % 2 ^ w
    if len = 0 then .ok (.ok ⟨.mmap, 0, 0⟩, s)
    else (s.mmap page len PROT_READ bytes ans).map fun
      | (.error e, s) => (.error (.fromErrno e "mmap"), s)
      | (.ok ptr, s) => (.ok ⟨.mmap, ptr, len⟩, s)

/-- `MmapMut::map_anon`. -/
def mapAnon (len : ℕ) (ans : Except Errno ℕ) (s : Space) :
    CRes (Except File.Error Mapping × Space) :=
  if len = 0 then .ok (.ok ⟨.mmapMut, 0, 0⟩, s)
  else (s.mmap page len (PROT_READ ||| PROT_WRITE) [] ans).map fun
    | (.error e, s) => (.error (.fromErrno e "mmap"), s)
    | (.ok ptr, s) => (.ok ⟨.mmapMut, ptr, len⟩, s)

/-- `Reservation::new`, in an address space. -/
def reserve (host : Host w) (len : BitVec w) (ans : Except Errno (BitVec w)) (s : Space) :
    CRes (Except File.Error Mapping × Space) :=
  let mmap (len : BitVec w) := if len = 0 then .error Errno.EINVAL else ans
  match Reservation.new { host with mmap } len with
  | none => .never
  | some (.error e) => .ok (.error e, s)
  | some (.ok r) =>
    if r.len = 0 then .ok (.ok ⟨.reservation, r.ptr.toNat, r.len.toNat⟩, s)
    else (s.mmap page r.len.toNat PROT_NONE [] (.ok r.ptr.toNat)).map fun (_, s) =>
      (.ok ⟨.reservation, r.ptr.toNat, r.len.toNat⟩, s)

/-- What the destructors of the three do, whatever comes of it. -/
def unmap (self : Mapping) (ans : Option (Errno × ℕ)) (s : Space) : CRes Space :=
  if self.len ≠ 0 then (s.munmap page self.ptr self.len ans).map Prod.snd else .ok s

/-- `MmapMut::make_read_only`; where it fails, `self` is dropped. -/
def makeReadOnly (self : Mapping) (ans unmapped : Option (Errno × ℕ)) (s : Space) :
    CRes (Except File.Error Mapping × Space) :=
  if self.len = 0 then .ok (.ok ⟨.mmap, self.ptr, self.len⟩, s)
  else (s.mprotect page self.ptr self.len PROT_READ ans).bind fun (e, s) =>
    if e ≠ 0 then (unmap page self unmapped s).map fun s => (.error (.fromErrno e "mprotect"), s)
    else .ok (.ok ⟨.mmap, self.ptr, self.len⟩, s)

/-- `protect`. -/
def protect (ptr len : ℕ) (prot : Protection) (ans : Option (Errno × ℕ)) (s : Space) :
    CRes (Except File.Error Unit × Space) :=
  if len = 0 then .ok (.ok (), s)
  else (s.mprotect page ptr len prot.bits ans).map fun (e, s) =>
    if e ≠ 0 then (.error (.fromErrno e "mprotect"), s) else (.ok (), s)

/-! ## The program -/

/-- A handle: what it holds, the bytes that are in there, and whether the program has changed the
    protection of some of its pages since. -/
structure Handle where
  mapping : Mapping
  bytes : Bytes
  changed : Bool

structure Program where
  space : Space
  handles : ℕ → Option Handle
  /-- the mappings that were dropped when `munmap` failed -/
  left : List Mapping

/-- What the program does with its variables. -/
inductive Act (w : ℕ) where
  | mapFile (x : ℕ) (file : Except Errno Bytes) (ans : Except Errno ℕ)
  | mapAnon (x len : ℕ) (ans : Except Errno ℕ)
  | reserve (x : ℕ) (len : BitVec w) (ans : Except Errno (BitVec w))
  | makeReadOnly (x : ℕ) (ans unmapped : Option (Errno × ℕ))
  | protect (x off len : ℕ) (prot : Protection) (ans : Option (Errno × ℕ))
  | store (x k : ℕ) (b : UInt8)
  | load (x k : ℕ)
  | drop (x : ℕ) (unmapped : Option (Errno × ℕ))

namespace Program

/-- A variable gets what a call has made, with these bytes in it; on an error, it gets nothing. -/
def bind (p : Program) (x : ℕ) (bytes : ℕ → Bytes) :
    Except File.Error Mapping × Space → Program
  | (.error _, space) => { p with space }
  | (.ok m, space) =>
    { p with space, handles := Function.update p.handles x (some ⟨m, bytes m.len, false⟩) }

/-- A variable has nothing any more; what it had is left if `munmap` fails. -/
def lose (p : Program) (x : ℕ) (m : Mapping) (unmapped : Option (Errno × ℕ)) (space : Space) :
    Program where
  space := space
  handles := Function.update p.handles x none
  left := if unmapped = none then p.left else m :: p.left

/-- A store through the handle: by `DerefMut` of one whose protection is as it was, or else by the
    pointer, into a page that may be written as it is. -/
def MayStore (p : Program) (h : Handle) (k : ℕ) : Prop :=
  k < h.mapping.len ∧ (h.mapping.kind = .mmapMut ∧ h.changed = false ∨
    (p.space.prot ((h.mapping.ptr + k) / page)).any Prot.write)

instance (p : Program) (h : Handle) (k : ℕ) : Decidable (p.MayStore page h k) :=
  inferInstanceAs (Decidable (_ ∧ _))

/-- A load through the handle: by `Deref` of one whose protection is as it was, or else by the
    pointer, from a page that may be read as it is. -/
def MayLoad (p : Program) (h : Handle) (k : ℕ) : Prop :=
  k < h.mapping.len ∧ (h.mapping.kind ≠ .reservation ∧ h.changed = false ∨
    (p.space.prot ((h.mapping.ptr + k) / page)).any Prot.read)

instance (p : Program) (h : Handle) (k : ℕ) : Decidable (p.MayLoad page h k) :=
  inferInstanceAs (Decidable (_ ∧ _))

/-- One act; `never` is also what the program does not do. -/
def act (host : Host w) (p : Program) : Act w → CRes Program
  | .mapFile x file ans =>
    if (p.handles x).isSome then .never
    else (Mmap.mapFile page w file ans p.space).map (p.bind x fun len =>
      (file.toOption.getD []).take len)
  | .mapAnon x len ans =>
    if (p.handles x).isSome then .never
    else (Mmap.mapAnon page len ans p.space).map (p.bind x (List.replicate · 0))
  | .reserve x len ans =>
    if (p.handles x).isSome then .never
    else (Mmap.reserve page host len ans p.space).map (p.bind x (List.replicate · 0))
  | .makeReadOnly x ans unmapped =>
    match p.handles x with
    | some ⟨⟨.mmapMut, ptr, len⟩, bytes, _⟩ =>
      (Mmap.makeReadOnly page ⟨.mmapMut, ptr, len⟩ ans unmapped p.space).map fun
        | (.error _, space) => p.lose x ⟨.mmapMut, ptr, len⟩ unmapped space
        | (.ok m, space) =>
          { p with space, handles := Function.update p.handles x (some ⟨m, bytes, false⟩) }
    | _ => .never
  | .protect x off len prot ans =>
    match p.handles x with
    | some h =>
      if page ∣ off ∧ off + len ≤ h.mapping.len then
        (Mmap.protect page (h.mapping.ptr + off) len prot ans p.space).map fun (_, space) =>
          { p with
            space, handles := Function.update p.handles x (some { h with changed := true }) }
      else .never
    | none => .never
  | .store x k b =>
    match p.handles x with
    | some h =>
      if p.MayStore page h k then (p.space.store page (h.mapping.ptr + k) b).map fun space =>
        { p with
          space
          handles := Function.update p.handles x (some { h with bytes := h.bytes.set k b }) }
      else .never
    | none => .never
  | .load x k =>
    match p.handles x with
    | some h =>
      if p.MayLoad page h k then
        (p.space.load page (h.mapping.ptr + k)).bind fun b =>
          if h.bytes[k]? = some b then .ok p else .undefined
      else .never
    | none => .never
  | .drop x unmapped =>
    match p.handles x with
    | some h => (unmap page h.mapping unmapped p.space).map (p.lose x h.mapping unmapped)
    | none => .never

/-- One step; it is `none` after a fault. -/
def step (host : Host w) : Option Program → Act w → Option (Option Program)
  | none, _ => none
  | some p, a =>
    match p.act page host a with
    | .ok p' => some (some p')
    | .never => none
    | .undefined => some none

end Program

/-- A program in an address space where others have mapped what is `outside`. -/
def system (host : Host w) (outside : Space) : Sts (Option Program) (Act w) where
  init := some ⟨outside, fun _ => none, []⟩
  step := Program.step page host

/-- In the run `as`, `protect` was asked for these bits. -/
def Asked (as : List (Act w)) (bits : BitVec 32) : Prop :=
  ∃ x off len prot ans, Act.protect x off len prot ans ∈ as ∧ prot.bits = bits

/-! ## Who has which pages -/

/-- The page `i` is one of the mapping's. -/
def Mapping.Page (m : Mapping) (i : ℕ) : Prop := Touches page m.ptr m.len i

def Handle.Page (h : Handle) (i : ℕ) : Prop := h.mapping.Page page i

/-- What is mapped at a handle is what the handle is for; its pages have the bits of a new one, or
    some that were `asked` for. -/
structure Handle.Good (asked : BitVec 32 → Prop) (s : Space) (h : Handle) : Prop where
  aligned : page ∣ h.mapping.ptr
  sized : h.bytes.length = h.mapping.len
  holds : ∀ k < h.mapping.len, h.bytes[k]? = some (s.mem (h.mapping.ptr + k))
  mapped : ∀ i, h.Page page i → ∃ bits, s.prot i = some (.ofBits bits) ∧
    (bits = h.mapping.kind.bits ∨ h.changed ∧ asked bits)

/-- The pages of the handles are theirs, and those that are not, nor left, are as they were. -/
structure Program.Owns (outside : Space) (asked : BitVec 32 → Prop) (p : Program) : Prop where
  good : ∀ x h, p.handles x = some h → h.Good page asked p.space
  apart : ∀ x y h h' i, p.handles x = some h → p.handles y = some h' → h.Page page i →
    h'.Page page i → x = y
  clear : ∀ x h i, p.handles x = some h → h.Page page i → outside.prot i = none
  left : ∀ m ∈ p.left, ∀ i, m.Page page i → outside.prot i = none
  rest : ∀ i, (∀ x h, p.handles x = some h → ¬h.Page page i) →
    (∀ m ∈ p.left, ¬m.Page page i) → p.space.prot i = outside.prot i
  mem : ∀ a, outside.prot (a / page) ≠ none → p.space.mem a = outside.mem a

variable {page} {outside s : Space} {asked : BitVec 32 → Prop} {p : Program} {x : ℕ} {h : Handle}

theorem Kind.not_writeExec (kind : Kind) : ¬(Prot.ofBits kind.bits).WriteExec := by
  cases kind <;> decide

theorem Handle.Good.congr {s' : Space} (hh : h.Good page asked s)
    (hprot : ∀ i, h.Page page i → s'.prot i = s.prot i)
    (hmem : ∀ k < h.mapping.len, s'.mem (h.mapping.ptr + k) = s.mem (h.mapping.ptr + k)) :
    h.Good page asked s' where
  aligned := hh.aligned
  sized := hh.sized
  holds k hk := by rw [hmem k hk]; exact hh.holds k hk
  mapped i hi := by rw [hprot i hi]; exact hh.mapped i hi

theorem update_cases {f : ℕ → Option Handle} {o : Option Handle} {y : ℕ}
    (hy : Function.update f x o y = some h) : y = x ∧ o = some h ∨ y ≠ x ∧ f y = some h := by
  by_cases hyx : y = x
  · subst hyx
    exact .inl ⟨rfl, by rwa [Function.update_self] at hy⟩
  · exact .inr ⟨hyx, by rwa [Function.update_of_ne hyx] at hy⟩

namespace Program

/-- A page that is not mapped is nobody's. -/
theorem Owns.clear_of_none (hp : p.Owns page outside asked) {i : ℕ} (hi : p.space.prot i = none) :
    outside.prot i = none := by
  by_cases hleft : ∃ m ∈ p.left, m.Page page i
  · obtain ⟨m, hm, hpage⟩ := hleft
    exact hp.left m hm i hpage
  · refine (hp.rest i (fun x h hx hpage => ?_) fun m hm hpage => hleft ⟨m, hm, hpage⟩).symm.trans hi
    obtain ⟨bits, hbits, -⟩ := (hp.good x h hx).mapped i hpage
    rw [hi] at hbits
    cases hbits

/-- **One variable changes**: its pages may go, stay, be left, or come out of those that nobody
    has. -/
theorem Owns.update (hp : p.Owns page outside asked) {o : Option Handle} {space : Space}
    {left : List Mapping} (hgood : ∀ h, o = some h → h.Good page asked space)
    (hown : ∀ h i, o = some h → h.Page page i →
      (∃ old, p.handles x = some old ∧ old.Page page i) ∨ p.space.prot i = none)
    (hkept : p.left ⊆ left)
    (hleft : ∀ m ∈ left, m ∈ p.left ∨ ∃ old, p.handles x = some old ∧ old.mapping = m)
    (hgone : ∀ old i, p.handles x = some old → old.Page page i →
      (∀ h, o = some h → ¬h.Page page i) → (∀ m ∈ left, ¬m.Page page i) → space.prot i = none)
    (hprot : ∀ i, (∀ h, o = some h → ¬h.Page page i) →
      (∀ old, p.handles x = some old → ¬old.Page page i) → space.prot i = p.space.prot i)
    (hmem : ∀ a, (∀ h, o = some h → ¬h.Page page (a / page)) →
      (∀ old, p.handles x = some old → ¬old.Page page (a / page)) →
      space.mem a = p.space.mem a) :
    Owns page outside asked ⟨space, Function.update p.handles x o, left⟩ := by
  have hclear : ∀ h i, o = some h → h.Page page i → outside.prot i = none := by
    intro h i ho hi
    rcases hown h i ho hi with ⟨old, hx, hold⟩ | hnone
    · exact hp.clear x old i hx hold
    · exact hp.clear_of_none hnone
  -- the pages of another variable are neither the old nor the new ones of this
  have hother : ∀ y h' i, y ≠ x → p.handles y = some h' → h'.Page page i →
      (∀ h, o = some h → ¬h.Page page i) ∧ ∀ old, p.handles x = some old → ¬old.Page page i := by
    intro y h' i hy hh' hi
    have hold : ∀ old, p.handles x = some old → ¬old.Page page i := fun old hx hpage =>
      hy (hp.apart y x h' old i hh' hx hi hpage)
    refine ⟨fun h ho hpage => ?_, hold⟩
    rcases hown h i ho hpage with ⟨old, hx, hpage'⟩ | hnone
    · exact hold old hx hpage'
    · obtain ⟨bits, hbits, -⟩ := (hp.good y h' hh').mapped i hi
      rw [hnone] at hbits
      cases hbits
  -- and where no variable has a page any more
  have hrest : ∀ i, (∀ y h, Function.update p.handles x o y = some h → ¬h.Page page i) →
      (∀ h, o = some h → ¬h.Page page i) ∧
        ∀ y h, y ≠ x → p.handles y = some h → ¬h.Page page i := by
    intro i hi
    refine ⟨fun h ho => hi x h (by rw [Function.update_self, ho]), fun y h hy hh => ?_⟩
    exact hi y h (by rw [Function.update_of_ne hy, hh])
  constructor
  · intro y h' hh'
    rcases update_cases hh' with ⟨rfl, ho⟩ | ⟨hy, hh'⟩
    · exact hgood h' ho
    · refine (hp.good y h' hh').congr (fun i hi => ?_) fun k hk => ?_
      · obtain ⟨hn, hold⟩ := hother y h' i hy hh' hi
        exact hprot i hn hold
      · obtain ⟨hn, hold⟩ := hother y h' _ hy hh' (Space.touches_self hk)
        exact hmem _ hn hold
  · intro y z h' h'' i hh' hh'' hi hi'
    rcases update_cases hh' with ⟨hy, ho⟩ | ⟨hy, hold⟩ <;>
      rcases update_cases hh'' with ⟨hz, ho'⟩ | ⟨hz, hold'⟩
    · exact hy.trans hz.symm
    · exact absurd hi ((hother z h'' i hz hold' hi').1 h' ho)
    · exact absurd hi' ((hother y h' i hy hold hi).1 h'' ho')
    · exact hp.apart y z h' h'' i hold hold' hi hi'
  · intro y h' i hh' hi
    rcases update_cases hh' with ⟨rfl, ho⟩ | ⟨hy, hh'⟩
    · exact hclear h' i ho hi
    · exact hp.clear y h' i hh' hi
  · intro m hm i hi
    rcases hleft m hm with hm | ⟨old, hx, rfl⟩
    · exact hp.left m hm i hi
    · exact hp.clear x old i hx hi
  · intro i hi hnone
    obtain ⟨hn, hy⟩ := hrest i hi
    by_cases hpage : ∃ old, p.handles x = some old ∧ old.Page page i
    · obtain ⟨old, hx, hpage⟩ := hpage
      exact (hgone old i hx hpage hn hnone).trans (hp.clear x old i hx hpage).symm
    · refine (hprot i hn fun old hx hpage' => hpage ⟨old, hx, hpage'⟩).trans
        (hp.rest i (fun y h' hh' hpage' => ?_) fun m hm => hnone m (hkept hm))
      by_cases hyx : y = x
      · subst hyx
        exact hpage ⟨h', hh', hpage'⟩
      · exact hy y h' hyx hh' hpage'
  · intro a ha
    rw [hmem a (fun h ho hpage => ha (hclear h _ ho hpage))
      fun old hx hpage => ha (hp.clear x old _ hx hpage)]
    exact hp.mem a ha

/-- The same of a change that leaves nothing behind. -/
theorem Owns.replace (hp : p.Owns page outside asked) {o : Option Handle} {space : Space}
    (hgood : ∀ h, o = some h → h.Good page asked space)
    (hown : ∀ h i, o = some h → h.Page page i →
      (∃ old, p.handles x = some old ∧ old.Page page i) ∨ p.space.prot i = none)
    (hgone : ∀ old i, p.handles x = some old → old.Page page i →
      (∀ h, o = some h → ¬h.Page page i) → space.prot i = none)
    (hprot : ∀ i, (∀ h, o = some h → ¬h.Page page i) →
      (∀ old, p.handles x = some old → ¬old.Page page i) → space.prot i = p.space.prot i)
    (hmem : ∀ a, (∀ h, o = some h → ¬h.Page page (a / page)) →
      (∀ old, p.handles x = some old → ¬old.Page page (a / page)) →
      space.mem a = p.space.mem a) :
    Owns page outside asked ⟨space, Function.update p.handles x o, p.left⟩ :=
  hp.update hgood hown (List.Subset.refl _) (fun _ hm => .inl hm)
    (fun old i hx hi hnot _ => hgone old i hx hi hnot) hprot hmem

/-- What a call makes: nothing, or a mapping of what was free. -/
def Makes (page : ℕ) (kind : Kind) (bytes : Bytes) (s : Space)
    (r : Except File.Error Mapping × Space) : Prop :=
  (∃ e, r = (.error e, s)) ∨ ∃ ptr len, r.1 = .ok ⟨kind, ptr, len⟩ ∧ page ∣ ptr ∧
    s.Free page ptr len ∧
    r.2 = (s.fill page ptr len bytes).set page ptr len (some (.ofBits kind.bits))

theorem Owns.bind (hp : p.Owns page outside asked) (hx : p.handles x = none) {kind : Kind}
    {bytes : Bytes} {known : ℕ → Bytes} {r : Except File.Error Mapping × Space}
    (hr : Makes page kind bytes p.space r)
    (hknown : ∀ ptr len, r.1 = .ok ⟨kind, ptr, len⟩ →
      (known len).length = len ∧ ∀ k < len, (known len)[k]? = some (bytes.getD k 0)) :
    (p.bind x known r).Owns page outside asked := by
  obtain ⟨res, space⟩ := r
  rcases hr with ⟨e, he⟩ | ⟨ptr, len, hres, hptr, hfree, hspace⟩
  · cases he
    exact hp
  · dsimp only at hres hspace hknown
    subst hres hspace
    obtain ⟨hlen, hbytes⟩ := hknown ptr len rfl
    refine hp.replace ?_ ?_ ?_ ?_ ?_
    · rintro h ⟨⟩
      refine ⟨hptr, hlen, fun k hk => ?_, fun i hi => ?_⟩
      · rw [Space.set_mem, Space.fill_mem_self hk]
        exact hbytes k hk
      · exact ⟨_, Space.set_prot_of_touches hi, .inl rfl⟩
    · rintro h i ⟨⟩ ⟨k, hk, rfl⟩
      exact .inr (hfree k hk)
    · intro old i hold
      rw [hx] at hold
      cases hold
    · intro i hi _
      exact Space.set_prot_of_not (hi _ rfl)
    · intro a ha _
      rw [Space.set_mem]
      exact Space.fill_mem_of_not (ha _ rfl)

theorem made (kind : Kind) {len : ℕ} {bytes : Bytes} {ans : Except Errno ℕ} :
    ((s.mmap page len kind.bits bytes ans).map fun
      | (.error e, s) => (Except.error (File.Error.fromErrno e "mmap"), s)
      | (.ok ptr, s) => (.ok ⟨kind, ptr, len⟩, s)).Gives fun r => Makes page kind bytes s r ∧
        ∀ ptr len', r.1 = .ok ⟨kind, ptr, len'⟩ → len' = len := by
  refine Space.mmap_gives.map fun r hr => ?_
  rcases hr with ⟨e, -, rfl⟩ | ⟨ptr, -, hptr, hfree, rfl⟩
  · exact ⟨.inl ⟨_, rfl⟩, by rintro _ _ ⟨⟩⟩
  · refine ⟨.inr ⟨ptr, len, rfl, hptr, hfree, rfl⟩, ?_⟩
    rintro _ _ ⟨⟩
    rfl

theorem makes_nothing (kind : Kind) (bytes : Bytes) (s : Space) :
    Makes page kind bytes s (.ok ⟨kind, 0, 0⟩, s) :=
  .inr ⟨0, 0, rfl, dvd_zero _, by simp [Space.Free], by simp⟩

theorem mapFile_makes {file : Except Errno Bytes} {ans : Except Errno ℕ} :
    (mapFile page w file ans s).Gives fun r => Makes page .mmap (file.toOption.getD []) s r ∧
      ∀ ptr len, r.1 = .ok ⟨.mmap, ptr, len⟩ → len ≤ (file.toOption.getD []).length := by
  cases file with
  | error e => exact ⟨.inl ⟨_, rfl⟩, by rintro _ _ ⟨⟩⟩
  | ok bytes =>
    unfold mapFile
    dsimp only
    split_ifs with hlen
    · refine ⟨makes_nothing _ _ _, ?_⟩
      rintro _ _ ⟨⟩
      exact Nat.zero_le _
    · refine (made .mmap).mono fun r hr => ⟨hr.1, fun ptr len h => ?_⟩
      rw [hr.2 ptr len h]
      exact Nat.mod_le _ _

theorem mapAnon_makes {len : ℕ} {ans : Except Errno ℕ} :
    (mapAnon page len ans s).Gives (Makes page .mmapMut [] s) := by
  unfold mapAnon
  split_ifs
  · exact makes_nothing _ _ _
  · exact (made .mmapMut).mono fun r hr => hr.1

theorem eq_zero_of_new {host : Host w} {len : BitVec w} {ans : Except Errno (BitVec w)}
    {r : Reservation w}
    (hr : Reservation.new { host with
      mmap := fun len => if len = 0 then .error Errno.EINVAL else ans } len = some (.ok r))
    (hlen : r.len = 0) : r = ⟨0, 0⟩ := by
  unfold Reservation.new at hr
  split_ifs at hr
  · cases hr
    rfl
  · obtain ⟨m, -, hm⟩ := Option.map_eq_some_iff.1 hr
    dsimp only at hm
    split at hm
    · cases hm
    · next ptr hptr =>
      cases hm
      dsimp only at hlen
      rw [if_pos hlen] at hptr
      cases hptr

theorem reserve_makes {host : Host w} {len : BitVec w} {ans : Except Errno (BitVec w)} :
    (reserve page host len ans s).Gives (Makes page .reservation [] s) := by
  unfold reserve
  dsimp only
  split
  · trivial
  · exact .inl ⟨_, rfl⟩
  · next r hr =>
    split_ifs with hlen
    · rw [eq_zero_of_new hr hlen]
      exact makes_nothing _ _ _
    · have hne : r.len.toNat ≠ 0 := fun h => hlen (BitVec.eq_of_toNat_eq h)
      refine Space.mmap_gives.map ?_
      rintro _ (⟨e, he, rfl⟩ | ⟨ptr, hans, hptr, hfree, rfl⟩)
      · cases he hne
      · cases hans
        exact .inr ⟨_, _, rfl, hptr, hfree, rfl⟩

/-- **A destructor** takes the pages away, unless `munmap` fails, and no others. -/
theorem unmap_gives {m : Mapping} (hptr : page ∣ m.ptr) {ans : Option (Errno × ℕ)} :
    (unmap page m ans s).Gives fun s' => Space.Within page m.ptr m.len s s' ∧
      (ans = none → ∀ i, m.Page page i → s'.prot i = none) := by
  unfold unmap
  split_ifs with hlen
  · exact (Space.munmap_gives hptr).map fun r hr => hr
  · refine ⟨.refl s, fun _ i ⟨k, hk, _⟩ => ?_⟩
    rw [not_not.1 hlen] at hk
    exact absurd hk (Nat.not_lt_zero k)

theorem Owns.lose (hp : p.Owns page outside asked) (hx : p.handles x = some h)
    {unmapped : Option (Errno × ℕ)} {space : Space}
    (hwithin : Space.Within page h.mapping.ptr h.mapping.len p.space space)
    (hgone : unmapped = none → ∀ i, h.Page page i → space.prot i = none) :
    (p.lose x h.mapping unmapped space).Owns page outside asked := by
  refine hp.update (by simp) (by simp) ?_ ?_ ?_ ?_ ?_
  · split_ifs
    · exact List.Subset.refl _
    · exact List.subset_cons_self _ _
  · intro m hm
    split_ifs at hm
    · exact .inl hm
    · rcases List.mem_cons.1 hm with rfl | hm
      · exact .inr ⟨h, hx, rfl⟩
      · exact .inl hm
  · intro old i hold hpage _ hleft
    cases hx.symm.trans hold
    by_cases hnone : unmapped = none
    · exact hgone hnone i hpage
    · rw [if_neg hnone] at hleft
      exact absurd hpage (hleft _ List.mem_cons_self)
  · intro i _ hi
    exact hwithin.prot i (hi h hx)
  · intro a _ _
    rw [hwithin.mem]

theorem Owns.change (hp : p.Owns page outside asked) (hx : p.handles x = some h) {off len : ℕ}
    (hle : off + len ≤ h.mapping.len) {bits : BitVec 32} {kind : Kind} {changed : Bool}
    (hbits : (off = 0 ∧ len = h.mapping.len ∧ bits = kind.bits) ∨
      (kind = h.mapping.kind ∧ changed ∧ asked bits)) :
    Owns page outside asked ⟨p.space.set page (h.mapping.ptr + off) len (some (.ofBits bits)),
      Function.update p.handles x
        (some ⟨⟨kind, h.mapping.ptr, h.mapping.len⟩, h.bytes, changed⟩), p.left⟩ := by
  have hgood := hp.good x h hx
  refine hp.replace ?_ ?_ ?_ ?_ ?_
  · rintro _ ⟨⟩
    refine ⟨hgood.aligned, hgood.sized, hgood.holds, fun i hi => ?_⟩
    rcases hbits with ⟨rfl, rfl, rfl⟩ | ⟨rfl, hchanged, hasked⟩
    · exact ⟨_, Space.set_prot_of_touches hi, .inl rfl⟩
    · by_cases hpart : Touches page (h.mapping.ptr + off) len i
      · exact ⟨bits, Space.set_prot_of_touches hpart, .inr ⟨hchanged, hasked⟩⟩
      · obtain ⟨old, hold, hwas⟩ := hgood.mapped i hi
        refine ⟨old, (Space.set_prot_of_not hpart).trans hold, hwas.imp_right fun hwas => ?_⟩
        exact ⟨hchanged, hwas.2⟩
  · rintro _ i ⟨⟩ hi
    exact .inl ⟨h, hx, hi⟩
  · intro old i hold hpage hnot
    cases hx.symm.trans hold
    exact absurd hpage (hnot ⟨⟨kind, h.mapping.ptr, h.mapping.len⟩, h.bytes, changed⟩ rfl)
  · intro i hi _
    exact Space.set_prot_of_not fun hpart => hi _ rfl (Touches.mono hpart hle)
  · intro a _ _
    rfl

theorem makeReadOnly_gives {m : Mapping} (hptr : page ∣ m.ptr)
    {ans unmapped : Option (Errno × ℕ)} :
    (makeReadOnly page m ans unmapped s).Gives fun r =>
      (∃ e, r.1 = .error e ∧ Space.Within page m.ptr m.len s r.2 ∧
        (unmapped = none → ∀ i, m.Page page i → r.2.prot i = none)) ∨
      r = (.ok ⟨.mmap, m.ptr, m.len⟩, s.set page m.ptr m.len (some (.ofBits PROT_READ))) := by
  unfold makeReadOnly
  split_ifs with hlen
  · exact .inr (by rw [hlen, Space.set_zero])
  · refine Space.mprotect_gives.bind ?_
    rintro ⟨e, s'⟩ ⟨done, hdone, -, hs', he⟩
    dsimp only at hs' he ⊢
    subst hs'
    split_ifs with herr
    · have hpart : Space.Within page m.ptr m.len s
          (s.set page m.ptr done (some (.ofBits PROT_READ))) := Space.set_within 0 (by omega) _
      exact (unmap_gives hptr).map fun s'' hs'' => .inl ⟨_, rfl, hpart.trans hs''.1, hs''.2⟩
    · rw [he (not_not.1 herr)]
      exact .inr rfl

theorem protect_gives {ptr len : ℕ} {q : Protection} {ans : Option (Errno × ℕ)} :
    (protect page ptr len q ans s).Gives fun r => ∃ done ≤ len,
      r.2 = s.set page ptr done (some (.ofBits q.bits)) := by
  unfold protect
  split_ifs
  · exact ⟨0, Nat.zero_le _, by simp⟩
  · refine Space.mprotect_gives.map ?_
    rintro ⟨e, s'⟩ ⟨done, hdone, -, hs', -⟩
    refine ⟨done, hdone, ?_⟩
    dsimp only
    split_ifs <;> exact hs'

theorem Owns.store (hp : p.Owns page outside asked) (hx : p.handles x = some h) {k : ℕ} (b : UInt8)
    (hk : k < h.mapping.len) :
    Owns page outside asked
      ⟨{ p.space with mem := Function.update p.space.mem (h.mapping.ptr + k) b },
        Function.update p.handles x (some { h with bytes := h.bytes.set k b }), p.left⟩ := by
  have hgood := hp.good x h hx
  refine hp.replace ?_ ?_ ?_ ?_ ?_
  · rintro _ ⟨⟩
    refine ⟨hgood.aligned, by simp [hgood.sized], fun j hj => ?_, hgood.mapped⟩
    by_cases hjk : j = k
    · subst hjk
      simp [hgood.sized, hk]
    · have hne : h.mapping.ptr + j ≠ h.mapping.ptr + k := by omega
      dsimp only
      rw [Function.update_of_ne hne, List.getElem?_set_ne (Ne.symm hjk)]
      exact hgood.holds j hj
  · rintro _ i ⟨⟩ hi
    exact .inl ⟨h, hx, hi⟩
  · intro old i hold hpage hnot
    cases hx.symm.trans hold
    exact absurd hpage (hnot { h with bytes := h.bytes.set k b } rfl)
  · intro i _ _
    rfl
  · intro a _ ha
    refine Function.update_of_ne ?_ b p.space.mem
    rintro rfl
    exact ha h hx (Space.touches_self hk)

theorem Owns.prot_of_unchanged (hp : p.Owns page outside asked) (hx : p.handles x = some h)
    {k : ℕ} (hk : k < h.mapping.len) (hsame : h.changed = false) :
    p.space.prot ((h.mapping.ptr + k) / page) = some (.ofBits h.mapping.kind.bits) := by
  obtain ⟨bits, hbits, hkind | ⟨hchanged, -⟩⟩ := (hp.good x h hx).mapped _ (Space.touches_self hk)
  · rw [hbits, hkind]
  · rw [hsame] at hchanged
    cases hchanged

/-- **Any act** of the program keeps the pages apart, and none faults. -/
theorem Owns.act (host : Host w) (hp : p.Owns page outside asked) (a : Act w)
    (hasked : ∀ x off len q ans, a = .protect x off len q ans → asked q.bits) :
    (p.act page host a).Gives (Owns page outside asked) := by
  cases a with
  | mapFile x file ans =>
    rw [Program.act]
    split_ifs with hx
    · trivial
    · refine mapFile_makes.map fun r hr => hp.bind (by simpa using hx) hr.1 fun ptr len hlen => ?_
      have hle := hr.2 ptr len hlen
      refine ⟨by simp [hle], fun k hk => ?_⟩
      rw [List.getElem?_take_of_lt hk, List.getD_eq_getElem?_getD,
        List.getElem?_eq_getElem (by omega), Option.getD_some]
  | mapAnon x len ans =>
    rw [Program.act]
    split_ifs with hx
    · trivial
    · refine mapAnon_makes.map fun r hr => hp.bind (by simpa using hx) hr fun ptr len _ => ?_
      exact ⟨List.length_replicate, fun k hk => by simp [hk]⟩
  | reserve x len ans =>
    rw [Program.act]
    split_ifs with hx
    · trivial
    · refine reserve_makes.map fun r hr => hp.bind (by simpa using hx) hr fun ptr len _ => ?_
      exact ⟨List.length_replicate, fun k hk => by simp [hk]⟩
  | makeReadOnly x ans unmapped =>
    rw [Program.act]
    split
    · next ptr len bytes changed hx =>
      refine (makeReadOnly_gives (hp.good x _ hx).aligned).map fun r hr => ?_
      obtain ⟨res, space⟩ := r
      rcases hr with ⟨e, he, hwithin, hgone⟩ | hr
      · dsimp only at he
        subst he
        exact hp.lose hx hwithin hgone
      · cases hr
        exact hp.change hx (by simp : 0 + len ≤ len) (.inl ⟨rfl, rfl, rfl⟩)
    · trivial
  | protect x off len q ans =>
    rw [Program.act]
    split
    · next h hx =>
      split_ifs with hin
      · refine protect_gives.map ?_
        rintro ⟨res, s'⟩ ⟨done, hdone, hs'⟩
        dsimp only at hs' ⊢
        subst hs'
        exact hp.change hx (by omega) (.inr ⟨rfl, rfl, hasked x off len q ans rfl⟩)
      · trivial
    · trivial
  | store x k b =>
    rw [Program.act]
    split
    · next h hx =>
      split_ifs with hmay
      · have hstore : (p.space.prot ((h.mapping.ptr + k) / page)).any Prot.write := by
          rcases hmay.2 with ⟨hkind, hsame⟩ | hstore
          · rw [hp.prot_of_unchanged hx hmay.1 hsame, hkind]
            rfl
          · exact hstore
        rw [Space.store, if_pos hstore]
        exact hp.store hx b hmay.1
      · trivial
    · trivial
  | load x k =>
    rw [Program.act]
    split
    · next h hx =>
      split_ifs with hmay
      · have hload : (p.space.prot ((h.mapping.ptr + k) / page)).any Prot.read := by
          rcases hmay.2 with ⟨hkind, hsame⟩ | hload
          · rw [hp.prot_of_unchanged hx hmay.1 hsame]
            revert hkind
            cases h.mapping.kind <;> decide
          · exact hload
        rw [Space.load, if_pos hload, CRes.bind_ok, if_pos ((hp.good x h hx).holds k hmay.1)]
        exact hp
      · trivial
    · trivial
  | drop x unmapped =>
    rw [Program.act]
    split
    · next h hx =>
      exact (unmap_gives (hp.good x h hx).aligned).map fun s' hs' => hp.lose hx hs'.1 hs'.2
    · trivial

theorem owns_init (outside : Space) :
    Owns page outside asked ⟨outside, fun _ => none, []⟩ :=
  ⟨nofun, nofun, nofun, nofun, fun _ _ _ => rfl, fun _ _ => rfl⟩

theorem Owns.step {host : Host w} (hp : p.Owns page outside asked) {a : Act w}
    (hasked : ∀ x off len q ans, a = .protect x off len q ans → asked q.bits)
    {o : Option Program} (h : (system page host outside).step (some p) a = some o) :
    ∃ p', o = some p' ∧ p'.Owns page outside asked := by
  have hact := hp.act host a hasked
  simp only [system, Program.step] at h
  split at h
  · next p' hp' =>
    rw [hp'] at hact
    exact ⟨p', (Option.some.inj h).symm, hact⟩
  · cases h
  · next hfault =>
    rw [hfault] at hact
    exact hact.elim

/-- **Along a run** the pages are apart, with the bits that the run has asked for. -/
theorem owns_run {host : Host w} {as : List (Act w)} {o : Option Program}
    (hr : (system page host outside).run as = some o) :
    ∃ p, o = some p ∧ p.Owns page outside (Asked as) := by
  have hmeets : (system page host outside).Meets (fun _ a => a ∈ as) as := by
    intro pre a post has _ _
    rw [has]
    simp
  refine Sts.run_of_meets (I := fun o => ∃ p, o = some p ∧ p.Owns page outside (Asked as))
    ⟨_, rfl, owns_init outside⟩ ?_ hmeets hr
  rintro _ a o' ⟨p, rfl, hp⟩ ha hstep
  refine hp.step ?_ hstep
  rintro x off len q ans rfl
  exact ⟨x, off, len, q, ans, ha, rfl⟩

/-- A page of a handle has a new one's protection, or one that was asked for. -/
theorem Owns.asked_of_writeExec (hp : p.Owns page outside asked) (hx : p.handles x = some h) {i : ℕ}
    (hi : h.Page page i) (hwx : (p.space.prot i).any Prot.WriteExec) :
    ∃ bits, asked bits ∧ (Prot.ofBits bits).WriteExec := by
  obtain ⟨bits, hbits, hkind | ⟨-, hasked⟩⟩ := (hp.good x h hx).mapped i hi
  · rw [hbits, hkind] at hwx
    exact absurd hwx h.mapping.kind.not_writeExec
  · rw [hbits] at hwx
    exact ⟨bits, hasked, hwx⟩

/-- **W^X**: no page of a handle may be both written and executed, as long as `protect` gets the
    constants, to which `with` adds neither of the two bits. -/
theorem not_writeExec {host : Host w} {as : List (Act w)}
    (hr : (system page host outside).run as = some (some p))
    (has : ∀ x off len q ans, Act.protect x off len q ans ∈ as →
      ∃ c ∈ Protection.constants, ∃ extra, q = c.with extra ∧
        (Prot.ofBits extra).write = false ∧ (Prot.ofBits extra).exec = false)
    (hx : p.handles x = some h) {i : ℕ} (hi : h.Page page i) :
    ¬(p.space.prot i).any Prot.WriteExec := by
  intro hwx
  obtain ⟨p', hp', hp⟩ := owns_run hr
  cases hp'
  obtain ⟨_, ⟨y, off, len, q, ans, hmem, rfl⟩, hbits⟩ := hp.asked_of_writeExec hx hi hwx
  obtain ⟨c, hc, extra, rfl, hwrite, hexec⟩ := has y off len q ans hmem
  have hconst := Protection.constants_writeExec c hc
  change (c.with extra).prot.WriteExec = true at hbits
  rw [Protection.with_writeExec, hwrite, hexec, Bool.or_false, Bool.or_false] at hbits
  exact Bool.false_ne_true (hconst.symm.trans hbits)

end Program

/-- **The handles own their pages**: in every run, nothing faults, what a handle maps is mapped,
    with the bytes that it has, two handles have no page in common, and every other page is as it
    was outside, but for those that `munmap` has refused to take; and a page of a handle is
    writable and executable only if `protect` was asked for bits that say so. -/
theorem handles_own_pages (page : ℕ) (host : Host w) (outside : Space) (as : List (Act w))
    {o : Option Program} (hr : (system page host outside).run as = some o) :
    ∃ p, o = some p ∧ p.Owns page outside (Asked as) ∧
      (∀ x h i, p.handles x = some h → h.Page page i →
        (p.space.prot i).any Prot.WriteExec →
        ∃ bits, Asked as bits ∧ (Prot.ofBits bits).WriteExec) ∧
      ((∀ x, p.handles x = none) → p.left = [] → p.space.prot = outside.prot) := by
  obtain ⟨p, rfl, hp⟩ := Program.owns_run hr
  refine ⟨p, rfl, hp, fun x h i hx hi hwx => hp.asked_of_writeExec hx hi hwx,
    fun hnone hleft => funext fun i => ?_⟩
  refine hp.rest i (fun x h hx => ?_) fun m hm => ?_
  · rw [hnone x] at hx
    cases hx
  · rw [hleft] at hm
    cases hm

/-- Three bytes of a page of four are mapped, one is written, and they are frozen. -/
theorem handles_own_pages_frozen :
    ∃ p, (system 4 (linux false) ⟨fun _ => none, fun _ => 0⟩).run
      [.mapAnon 0 3 (.ok 8), .store 0 1 7, .makeReadOnly 0 none none] = some (some p) ∧
    p.handles 0 = some ⟨⟨.mmap, 8, 3⟩, [0, 7, 0], false⟩ ∧ p.space.mem 9 = 7 := by
  refine ⟨_, rfl, rfl, ?_⟩
  obtain ⟨p, ⟨⟩, hp, -⟩ := handles_own_pages 4 (linux false) ⟨fun _ => none, fun _ => 0⟩
    [.mapAnon 0 3 (.ok 8), .store 0 1 7, .makeReadOnly 0 none none] rfl
  exact (Option.some.inj ((hp.good 0 _ rfl).holds 1 (by decide))).symm

/-- With `READ_WRITE.with(PROT_EXEC)` a page is writable and executable, and where `munmap` fails it
    is left. -/
example : ∃ p, (system 4 (linux false) ⟨fun _ => none, fun _ => 0⟩).run
      [.mapAnon 0 3 (.ok 8), .protect 0 0 3 (Protection.readWrite.with PROT_EXEC) none,
        .drop 0 (some (Errno.ENOMEM, 0))] = some (some p) ∧
    p.space.prot 2 = some ⟨true, true, true⟩ ∧ p.left = [⟨.mmapMut, 8, 3⟩] :=
  ⟨_, rfl, rfl, rfl⟩

end Ekostd.Mmap
