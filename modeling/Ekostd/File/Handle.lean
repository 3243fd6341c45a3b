/-
  `file.rs` — `File`: opening, reading, writing and seeking.

  A program has any number of files open, several of them the same one perhaps,
  and makes calls on them in any order.  The system opens them or not, takes
  and gives as many bytes as it likes at a time, and interrupts and fails calls
  as it likes.  The files are regular ones; a file may have several names to
  begin with, but one that is created is found again only by the bytes that it
  was created under, and not by another spelling of the path.

  * `openFile`, `Handle.writeAll`, `Handle.readToEnd`, `Handle.read`, `Handle.seek`,
    `Handle.len` and the others: the methods;
  * `Store`, `Store.Does`: the files as tapes, and calls that are done at once;
  * `files_are_tapes`: what the methods do is what is done there.
-/
import Ekostd.File.Open
import Ekostd.File.Read
import Ekostd.Lib.PosixFile
import Ekostd.WriteLoops

namespace Ekostd.File

open PosixFs PosixFile

/-! ## The methods -/

/-- What the system makes of the calls of a method: a failure, how much arrives of the reads, and
    the answers of the writes. -/
structure Outcome where
  fault : Option Errno
  reads : List (Except Errno ℕ+)
  writes : List PosixWrite.Answer

/-- What a function that opens a file calls what it could not do. -/
def Opener.what : Opener → String
  | .open_ | .openRw => "open"
  | .create | .createRw => "create"
  | .append => "append"

/-- `File::open`, `create`, `append`, `open_rw` and `create_rw`. -/
def openFile (o : Opener) (path : Bytes) (x : ℕ) (out : Outcome) (s : Session) :
    Except Error Session :=
  match out.fault with
  | some e => .error (.fromErrno e o.what)
  | none =>
    match s.opens x o.flags (Path.kernel path) with
    | .error e => .error (.fromErrno e o.what)
    | .ok s => .ok s

namespace Handle

/-- How many bytes the reads have given that were made. -/
def consumed (answers rest : List PosixRead.Answer) : ℕ :=
  (PosixRead.delivered answers).length - (PosixRead.delivered rest).length

/-- `write_all`; `none` if it waits for an answer. -/
def writeAll (x : ℕ) (bytes : Bytes) (out : Outcome) (s : Session) :
    Option (Except Error Unit × Session) :=
  (File.writeAll.on bytes ⟨s.writeAnswers x out.writes, []⟩).map fun (r, fd) =>
    (r, s.wrote x fd.calls)

/-- The loop of `read`. -/
def read.loop : List PosixRead.Answer → Except Error Bytes × List PosixRead.Answer
  | [] => (.ok [], [])
  | .error e :: fd =>
    if e = Errno.EINTR then read.loop fd else (.error (.fromErrno e "read"), fd)
  | .ok c :: fd => (.ok c, fd)

/-- `read`, into a buffer of `size` bytes. -/
def read (x size : ℕ) (out : Outcome) (s : Session) : Except Error Bytes × Session :=
  let answers := s.readAnswers x size out.reads
  let (r, rest) := read.loop answers
  (r, s.advance x (consumed answers rest))

/-- `read_to_end`, into a vector with `buf`. -/
def readToEnd (x : ℕ) (buf : Bytes) (out : Outcome) (s : Session) :
    Except Error ℕ × Bytes × Session :=
  let answers := s.readAnswers x (64 * 1024) out.reads
  let (r, buf, rest) := File.readToEnd buf.length answers buf
  (r, buf, s.advance x (consumed answers rest))

/-- `seek`; the offset is an `off_t` to `lseek`, which refuses a negative one. -/
def seek (x offset : ℕ) (out : Outcome) (s : Session) : Except Error ℕ × Session :=
  match out.fault with
  | some e => (.error (.fromErrno e "lseek"), s)
  | none =>
    if offset < 2 ^ 63 then (.ok offset, s.moveTo x offset)
    else (.error (.fromErrno Errno.EINVAL "lseek"), s)

/-- `stream_position`. -/
def streamPosition (x : ℕ) (out : Outcome) (s : Session) : Except Error ℕ :=
  match out.fault, s.descs x with
  | some e, _ => .error (.fromErrno e "lseek")
  | none, none => .error (.fromErrno Errno.EBADF "lseek")
  | none, some d => .ok d.off

/-- `rewind`. -/
def rewind (x : ℕ) (out : Outcome) (s : Session) : Except Error Unit × Session :=
  let (r, s) := seek x 0 out s
  (r.map fun _ => (), s)

/-- `len`. -/
def len (x : ℕ) (out : Outcome) (s : Session) : Except Error ℕ :=
  match out.fault, s.descs x with
  | some e, _ => .error (.fromErrno e "fstat")
  | none, none => .error (.fromErrno Errno.EBADF "fstat")
  | none, some d => .ok (s.files.data d.file).length

/-- `is_empty`. -/
def isEmpty (x : ℕ) (out : Outcome) (s : Session) : Except Error Bool :=
  (len x out s).map (· = 0)

end Handle

/-! ## Programs -/

/-- The calls; `x` is the file that is opened, or that the method is of. -/
inductive Op where
  | opens (x : ℕ) (o : Opener) (path : Bytes)
  | writeAll (x : ℕ) (bytes : Bytes)
  | read (x size : ℕ)
  | readToEnd (x : ℕ) (buf : Bytes)
  | seek (x offset : ℕ)
  | streamPosition (x : ℕ)
  | rewind (x : ℕ)
  | len (x : ℕ)
  | isEmpty (x : ℕ)
  | drop (x : ℕ)

/-- The file of a call that is a method. -/
def Op.self? : Op → Option ℕ
  | .opens _ _ _ => none
  | .writeAll x _ | .read x _ | .readToEnd x _ | .seek x _ | .streamPosition x | .rewind x | .len x
  | .isEmpty x | .drop x => some x

/-- What a call returns. -/
inductive Response where
  | unit (r : Except Error Unit)
  | number (r : Except Error ℕ)
  | bool (r : Except Error Bool)
  | bytes (r : Except Error Bytes)
  /-- with what is in the vector. -/
  | buffer (r : Except Error ℕ) (buf : Bytes)

/-- One call; `none` if it waits, or there is no such file. -/
def call (s : Session) (op : Op) (out : Outcome) : Option (Response × Session) :=
  if op.self?.all fun x => (s.descs x).isSome then
    match op with
    | .opens x o path =>
      if s.descs x = none then
        match openFile o path x out s with
        | .error e => some (.unit (.error e), s)
        | .ok s => some (.unit (.ok ()), s)
      else none
    | .writeAll x bytes => (Handle.writeAll x bytes out s).map fun (r, s) => (.unit r, s)
    | .read x size => let (r, s) := Handle.read x size out s; some (.bytes r, s)
    | .readToEnd x buf =>
      let (r, buf, s) := Handle.readToEnd x buf out s
      some (.buffer r buf, s)
    | .seek x offset => let (r, s) := Handle.seek x offset out s; some (.number r, s)
    | .streamPosition x => some (.number (Handle.streamPosition x out s), s)
    | .rewind x => let (r, s) := Handle.rewind x out s; some (.unit r, s)
    | .len x => some (.number (Handle.len x out s), s)
    | .isEmpty x => some (.bool (Handle.isEmpty x out s), s)
    | .drop x => some (.unit (.ok ()), s.close x)
  else none

/-- A program: calls, one after the other, each with what the system makes of it. -/
def calls (s : Session) : List (Op × Outcome) → Option (List Response × Session)
  | [] => some ([], s)
  | (op, out) :: rest =>
    (call s op out).bind fun (r, s) => (calls s rest).map fun (rs, s) => (r :: rs, s)

/-! ## The files as tapes -/

/-- Names and files, which are tapes, and the descriptors that are open. -/
structure Store where
  names : Bytes → Option ℕ
  next : ℕ
  tape : ℕ → Tape UInt8
  descs : ℕ → Option Desc

namespace Store

/-- A name gets a file that is empty: its own, or a new one. -/
def create (S : Store) (p : Bytes) : ℕ × Store :=
  match S.names p with
  | some i => (i, { S with tape := Function.update S.tape i ⟨0, fun _ => 0⟩ })
  | none => (S.next, { S with
      names := Function.update S.names p (some S.next)
      next := S.next + 1
      tape := Function.update S.tape S.next ⟨0, fun _ => 0⟩ })

/-- What opening a name makes, if it is there or the flags create it. -/
def opened (S : Store) (o : Opener) (p : Bytes) : Option (ℕ × Store) :=
  match S.names p with
  | some i => if .O_TRUNC ∈ o.flags then some (S.create p) else some (i, S)
  | none => if .O_CREAT ∈ o.flags then some (S.create p) else none

/-- The descriptor `x` is this. -/
def describe (S : Store) (x : ℕ) (d : Option Desc) : Store :=
  { S with descs := Function.update S.descs x d }

/-- Where a write goes. -/
def target (S : Store) (d : Desc) : ℕ := if d.append then (S.tape d.file).len else d.off

/-- `bytes` are written, all at once. -/
def put (S : Store) (x : ℕ) (d : Desc) (bytes : Bytes) : Store :=
  if bytes = [] then S
  else ({ S with
    tape := Function.update S.tape d.file ((S.tape d.file).write 0 (S.target d) bytes) } :
      Store).describe x (some { d with off := S.target d + bytes.length })

/-- What there is to read. -/
def rest (S : Store) (d : Desc) : Bytes := (S.tape d.file).read d.off (S.tape d.file).len

/-- **What a call does to the files**, and what it returns: all of what it is to do, at once, or
    where it fails a first part of that. -/
inductive Does (S : Store) : Op → Response → Store → Prop
  | opens (x : ℕ) (o : Opener) (path : Bytes) (i : ℕ) (S' : Store) : S.descs x = none →
      S.opened o (Path.kernel path) = some (i, S') →
      Does S (.opens x o path) (.unit (.ok ())) (S'.describe x (some (Desc.new o.flags i)))
  | refused (x : ℕ) (o : Opener) (path : Bytes) (e : Errno) : S.descs x = none →
      Does S (.opens x o path) (.unit (.error (.fromErrno e o.what))) S
  | wrote (x : ℕ) (d : Desc) (bytes : Bytes) : S.descs x = some d → (bytes ≠ [] → d.writes) →
      Does S (.writeAll x bytes) (.unit (.ok ())) (S.put x d bytes)
  | wrotePart (x : ℕ) (d : Desc) (bytes part : Bytes) (e : Errno) : S.descs x = some d →
      part <+: bytes → (part ≠ [] → d.writes) →
      Does S (.writeAll x bytes) (.unit (.error (.fromErrno e "write"))) (S.put x d part)
  | read (x : ℕ) (d : Desc) (size : ℕ) (bytes : Bytes) : S.descs x = some d → d.reads →
      bytes <+: S.rest d → bytes.length ≤ size → (bytes = [] → size = 0 ∨ S.rest d = []) →
      Does S (.read x size) (.bytes (.ok bytes))
        (S.describe x (some { d with off := d.off + bytes.length }))
  | readFailed (x : ℕ) (size : ℕ) (e : Errno) : (S.descs x).isSome →
      Does S (.read x size) (.bytes (.error (.fromErrno e "read"))) S
  | readToEnd (x : ℕ) (d : Desc) (buf : Bytes) : S.descs x = some d → d.reads →
      Does S (.readToEnd x buf) (.buffer (.ok (S.rest d).length) (buf ++ S.rest d))
        (S.describe x (some { d with off := d.off + (S.rest d).length }))
  | readPart (x : ℕ) (d : Desc) (buf part : Bytes) (e : Errno) : S.descs x = some d →
      part <+: S.rest d →
      Does S (.readToEnd x buf) (.buffer (.error (.fromErrno e "read")) (buf ++ part))
        (S.describe x (some { d with off := d.off + part.length }))
  | seek (x : ℕ) (d : Desc) (offset : ℕ) : S.descs x = some d → offset < 2 ^ 63 →
      Does S (.seek x offset) (.number (.ok offset)) (S.describe x (some { d with off := offset }))
  | seekFailed (x offset : ℕ) (e : Errno) : (S.descs x).isSome →
      Does S (.seek x offset) (.number (.error (.fromErrno e "lseek"))) S
  | streamPosition (x : ℕ) (d : Desc) : S.descs x = some d →
      Does S (.streamPosition x) (.number (.ok d.off)) S
  | streamPositionFailed (x : ℕ) (e : Errno) : (S.descs x).isSome →
      Does S (.streamPosition x) (.number (.error (.fromErrno e "lseek"))) S
  | rewind (x : ℕ) (d : Desc) : S.descs x = some d →
      Does S (.rewind x) (.unit (.ok ())) (S.describe x (some { d with off := 0 }))
  | rewindFailed (x : ℕ) (e : Errno) : (S.descs x).isSome →
      Does S (.rewind x) (.unit (.error (.fromErrno e "lseek"))) S
  | len (x : ℕ) (d : Desc) : S.descs x = some d →
      Does S (.len x) (.number (.ok (S.tape d.file).len)) S
  | lenFailed (x : ℕ) (e : Errno) : (S.descs x).isSome →
      Does S (.len x) (.number (.error (.fromErrno e "fstat"))) S
  | isEmpty (x : ℕ) (d : Desc) : S.descs x = some d →
      Does S (.isEmpty x) (.bool (.ok ((S.tape d.file).len = 0))) S
  | isEmptyFailed (x : ℕ) (e : Errno) : (S.descs x).isSome →
      Does S (.isEmpty x) (.bool (.error (.fromErrno e "fstat"))) S
  | drop (x : ℕ) : (S.descs x).isSome → Does S (.drop x) (.unit (.ok ())) (S.describe x none)

/-- Calls, one after the other, and what they return. -/
inductive Runs : Store → List Op → List Response → Store → Prop
  | nil (S : Store) : Runs S [] [] S
  | cons {S S₁ S₂ : Store} {op : Op} {r : Response} {ops : List Op} {rs : List Response} :
      S.Does op r S₁ → Runs S₁ ops rs S₂ → Runs S (op :: ops) (r :: rs) S₂

end Store

/-- The files of a session, as tapes. -/
def store (s : Session) : Store where
  names := s.files.names
  next := s.files.next
  tape i := Tape.of 0 (s.files.data i)
  descs := s.descs

/-! ## The store of a session -/

variable {s s' : Session} {x : ℕ} {d : Desc} {out : Outcome}

theorem store_rest (s : Session) (d : Desc) : (store s).rest d = s.rest d := by
  show (Tape.of 0 (s.files.data d.file)).read d.off (s.files.data d.file).length = _
  rw [Tape.read_of, Session.rest]
  exact List.take_of_length_le (by simp)

theorem store_advance (hx : s.descs x = some d) (k : ℕ) :
    store (s.advance x k) = (store s).describe x (some { d with off := d.off + k }) := by
  rw [Session.advance, hx]
  rfl

theorem store_moveTo (hx : s.descs x = some d) (off : ℕ) :
    store (s.moveTo x off) = (store s).describe x (some { d with off }) := by
  rw [Session.moveTo, hx]
  rfl

theorem store_put (hx : s.descs x = some d) (bytes : Bytes) :
    store (s.put x bytes) = (store s).put x d bytes := by
  by_cases h : bytes = []
  · rw [h, Session.put_nil, Store.put, if_pos rfl]
  · have htarget : (store s).target d = s.target d := rfl
    rw [Session.put_some hx h, Store.put, if_neg h, htarget]
    simp only [store, Store.describe, Store.mk.injEq, true_and, and_true]
    funext i
    by_cases hi : i = d.file
    · subst hi
      rw [Function.update_self, Function.update_self, Tape.of_overwrite]
    · rw [Function.update_of_ne hi, Function.update_of_ne hi]

theorem store_create (s : Session) (p : Bytes) :
    (store s).create p = ((s.files.create p).1, store ⟨(s.files.create p).2, s.descs⟩) := by
  have hempty : ∀ i : ℕ, (fun j => Tape.of 0 (Function.update s.files.data i [] j)) =
      Function.update (store s).tape i ⟨0, fun _ => 0⟩ := by
    intro i
    funext j
    by_cases hj : j = i
    · subst hj
      rw [Function.update_self, Function.update_self]
      rfl
    · rw [Function.update_of_ne hj, Function.update_of_ne hj]
      rfl
  rw [Store.create, PosixData.Files.create]
  cases hp : s.files.names p with
  | some i =>
    have hp' : (store s).names p = some i := hp
    rw [hp']
    simp only [← hempty]
    rfl
  | none =>
    have hp' : (store s).names p = none := hp
    rw [hp']
    simp only [store, Prod.mk.injEq, Store.mk.injEq, true_and, and_true]
    exact (hempty s.files.next).symm

/-- **Opening a file** is opening it in the store. -/
theorem store_opens {o : Opener} {p : Bytes} (h : s.opens x o.flags p = .ok s') :
    ∃ i S', (store s).opened o p = some (i, S') ∧
      store s' = S'.describe x (some (Desc.new o.flags i)) := by
  rw [Session.opens] at h
  cases hfiles : openFiles s.files o.flags p with
  | error e =>
    rw [hfiles] at h
    cases h
  | ok r =>
    obtain ⟨i, files⟩ := r
    rw [hfiles] at h
    cases h
    refine ⟨i, store ⟨files, s.descs⟩, ?_, rfl⟩
    have hnames : (store s).names = s.files.names := rfl
    rw [openFiles] at hfiles
    rw [Store.opened, hnames]
    cases hp : s.files.names p with
    | some j =>
      simp only [hp] at hfiles ⊢
      split_ifs at hfiles ⊢ with htrunc
      · rw [store_create, Except.ok.inj hfiles]
      · cases hfiles
        rfl
    | none =>
      simp only [hp] at hfiles ⊢
      split_ifs at hfiles ⊢ with hcreat
      rw [store_create, Except.ok.inj hfiles]

/-! ## What the loops do -/

theorem Handle.consumed_eq {answers made rest : List PosixRead.Answer}
    (h : answers = made ++ rest) :
    Handle.consumed answers rest = (PosixRead.delivered made).length := by
  rw [Handle.consumed, h, PosixRead.delivered_append, List.length_append]
  omega

theorem readToEnd_made {start : ℕ} {fd rest : List PosixRead.Answer} {buf buf' : Bytes}
    {r : Except Error ℕ} (h : readToEnd start fd buf = (r, buf', rest)) :
    ∃ made, fd = made ++ rest ∧ buf' = buf ++ PosixRead.delivered made ∧
      ∀ e, r = .error e → ∃ n, e = .fromErrno n "read" := by
  induction fd generalizing buf with
  | nil =>
    cases h
    exact ⟨[], rfl, (List.append_nil _).symm, fun e he => by cases he⟩
  | cons a fd ih =>
    rcases a with e | _ | ⟨b, c⟩
    · rw [readToEnd] at h
      split_ifs at h
      · obtain ⟨made, hfd, hbuf, hr⟩ := ih h
        exact ⟨.error e :: made, by rw [hfd]; rfl, hbuf, hr⟩
      · cases h
        exact ⟨[.error e], rfl, (List.append_nil _).symm, fun e' he => ⟨e, by cases he; rfl⟩⟩
    · cases h
      exact ⟨[.ok []], rfl, (List.append_nil _).symm, fun e he => by cases he⟩
    · obtain ⟨made, hfd, hbuf, hr⟩ := ih h
      refine ⟨.ok (b :: c) :: made, by rw [hfd]; rfl, ?_, hr⟩
      rw [hbuf, PosixRead.delivered, List.append_assoc]

theorem Handle.loop_made {fd rest : List PosixRead.Answer} {r : Except Error Bytes}
    (h : read.loop fd = (r, rest)) : ∃ made, fd = made ++ rest ∧
      (∀ c, r = .ok c → PosixRead.delivered made = c) ∧
      ∀ e, r = .error e → PosixRead.delivered made = [] ∧ ∃ n, e = .fromErrno n "read" := by
  induction fd with
  | nil =>
    cases h
    exact ⟨[], rfl, fun c hc => by cases hc; rfl, fun e he => by cases he⟩
  | cons a fd ih =>
    cases a with
    | error e =>
      rw [read.loop] at h
      split_ifs at h
      · obtain ⟨made, hfd, hok, herror⟩ := ih h
        exact ⟨.error e :: made, by rw [hfd]; rfl, hok, herror⟩
      · cases h
        exact ⟨[.error e], rfl, (fun c hc => by cases hc), fun e' he => ⟨rfl, e, by cases he; rfl⟩⟩
    | ok c =>
      cases h
      refine ⟨[.ok c], rfl, fun c' hc => ?_, fun e he => by cases he⟩
      cases hc
      rw [PosixRead.delivered, PosixRead.delivered, List.append_nil]

theorem Handle.loop_deliver {size : ℕ} {content : Bytes} {os : List (Except Errno ℕ+)} {c : Bytes}
    {rest : List PosixRead.Answer} (h : read.loop (PosixRead.deliver size content os) =
      (.ok c, rest)) :
    c <+: content ∧ c.length ≤ size ∧ (c = [] → size = 0 ∨ content = []) := by
  have htake : ∀ k, k ≤ size → (0 < size → 0 < k) → content.take k <+: content ∧
      (content.take k).length ≤ size ∧ (content.take k = [] → size = 0 ∨ content = []) := by
    intro k hk hpos
    refine ⟨List.take_prefix k content, (List.length_take_le k content).trans hk, fun hnil => ?_⟩
    rcases List.take_eq_nil_iff.1 hnil with hzero | hnil
    · exact .inl (by omega)
    · exact .inr hnil
  induction os with
  | nil =>
    cases content with
    | nil =>
      cases h
      exact ⟨List.nil_prefix, Nat.zero_le _, fun _ => .inr rfl⟩
    | cons b bs =>
      cases h
      exact htake size le_rfl id
  | cons o os ih =>
    cases o with
    | error e =>
      rw [PosixRead.deliver, read.loop] at h
      split_ifs at h
      · exact ih h
      · cases h
    | ok k =>
      cases h
      exact htake _ (min_le_right _ _) fun hsize => lt_min k.pos hsize

/-! ## The methods do what is done at once -/

/-- **`write_all`**, however its bytes are taken. -/
theorem Handle.writeAll_does (hx : s.descs x = some d) {bytes : Bytes} {r : Except Error Unit}
    (h : Handle.writeAll x bytes out s = some (r, s')) :
    (store s).Does (.writeAll x bytes) (.unit r) (store s') := by
  obtain ⟨⟨r', fd⟩, hrun, heq⟩ := Option.map_eq_some_iff.1 h
  cases heq
  obtain ⟨made, hcalls, hanswers, hmade⟩ := PosixWrite.Loop.run_made hrun
  obtain rfl : fd.calls = made := hcalls
  -- a descriptor that is not for writing takes nothing
  have hwrites : PosixWrite.accepted fd.calls ≠ [] → d.writes := by
    intro hne
    by_contra hno
    rw [Session.writeAnswers, hx] at hanswers
    dsimp only at hanswers
    rw [if_neg hno] at hanswers
    refine hne (List.flatMap_eq_nil_iff.2 fun c hc => ?_)
    have hmem : c.answer ∈ [Except.error Errno.EBADF] := by
      rw [hanswers]
      exact List.mem_append_left _ (List.mem_map_of_mem hc)
    rw [PosixWrite.Call.accepted, List.mem_singleton.1 hmem, PosixWrite.count, List.take_zero]
  rw [Session.wrote_eq, store_put hx]
  rcases writeAll_made hmade with ⟨rfl, hall⟩ | ⟨e, rfl, hpart⟩
  · rw [hall] at hwrites ⊢
    exact .wrote x d bytes hx hwrites
  · exact .wrotePart x d bytes _ e hx hpart hwrites

/-- **`read`**. -/
theorem Handle.read_does (hx : s.descs x = some d) {size : ℕ} {r : Except Error Bytes}
    (h : Handle.read x size out s = (r, s')) :
    (store s).Does (.read x size) (.bytes r) (store s') := by
  rw [Handle.read] at h
  rcases hloop : read.loop (s.readAnswers x size out.reads) with ⟨r', rest⟩
  rw [hloop] at h
  cases h
  obtain ⟨made, hfd, hok, herror⟩ := loop_made hloop
  rw [consumed_eq hfd, store_advance hx]
  cases r with
  | error e =>
    obtain ⟨hnil, n, rfl⟩ := herror e rfl
    rw [hnil]
    have hsame : (store s).describe x (some { d with off := d.off + ([] : Bytes).length }) =
        store s := by
      rw [Store.describe, List.length_nil, Nat.add_zero]
      exact congrArg _ (Function.update_eq_self_iff.2 hx.symm)
    rw [hsame]
    exact .readFailed x size n (by rw [show (store s).descs x = some d from hx]; rfl)
  | ok c =>
    rw [hok c rfl]
    rw [Session.readAnswers, hx] at hloop
    dsimp only at hloop
    split_ifs at hloop with hreads
    · obtain ⟨hpre, hlen, hnil⟩ := loop_deliver hloop
      rw [← store_rest] at hpre hnil
      exact .read x d size c hx hreads hpre hlen hnil
    · cases hloop

/-- **`read_to_end`**, however the file arrives. -/
theorem Handle.readToEnd_does (hx : s.descs x = some d) {buf buf' : Bytes} {r : Except Error ℕ}
    (h : Handle.readToEnd x buf out s = (r, buf', s')) :
    (store s).Does (.readToEnd x buf) (.buffer r buf') (store s') := by
  rw [Handle.readToEnd] at h
  rcases hend : File.readToEnd buf.length (s.readAnswers x (64 * 1024) out.reads) buf with
    ⟨r', out', rest⟩
  rw [hend] at h
  cases h
  obtain ⟨made, hfd, rfl, herror⟩ := readToEnd_made hend
  rw [consumed_eq hfd, store_advance hx]
  have hanswers : s.readAnswers x (64 * 1024) out.reads =
      if d.reads then PosixRead.deliver (64 * 1024) (s.rest d) out.reads
      else [.error Errno.EBADF] := by
    rw [Session.readAnswers, hx]
  have hsize : 0 < 64 * 1024 := by norm_num
  by_cases hreads : d.reads
  · rw [if_pos hreads] at hanswers
    have hall : PosixRead.delivered made ++ PosixRead.delivered rest = s.rest d := by
      rw [← PosixRead.delivered_append, ← hfd, hanswers, PosixRead.delivered_deliver hsize]
    cases r with
    | error e =>
      obtain ⟨n, rfl⟩ := herror e rfl
      exact .readPart x d buf _ n hx (by rw [store_rest, ← hall]; exact List.prefix_append _ _)
    | ok n =>
      obtain ⟨hbuf, hn⟩ := readToEnd_ok
        (hanswers ▸ PosixRead.delivers_deliver hsize (s.rest d) out.reads) hend
      rw [hanswers, PosixRead.delivered_deliver hsize] at hbuf
      have hrest : PosixRead.delivered made = (store s).rest d := by
        rw [store_rest]
        exact List.append_cancel_left hbuf
      rw [hn, hrest, List.length_append, Nat.add_sub_cancel_left]
      exact .readToEnd x d buf hx hreads
  · -- the descriptor is not for reading
    rw [if_neg hreads] at hanswers
    rw [hanswers, File.readToEnd, if_neg (by decide)] at hend
    obtain ⟨rfl, hpair⟩ := Prod.mk.inj hend
    have hnil := List.self_eq_append_right.1 (Prod.mk.inj hpair).1
    rw [hnil]
    exact .readPart x d buf [] Errno.EBADF hx List.nil_prefix

theorem Handle.seek_does (hx : s.descs x = some d) {offset : ℕ} {r : Except Error ℕ}
    (h : Handle.seek x offset out s = (r, s')) :
    (store s).Does (.seek x offset) (.number r) (store s') := by
  have hlive : ((store s).descs x).isSome := by
    rw [show (store s).descs x = some d from hx]
    rfl
  rw [Handle.seek] at h
  split at h
  · cases h
    exact .seekFailed x offset _ hlive
  · split_ifs at h with hoff
    · cases h
      rw [store_moveTo hx]
      exact .seek x d offset hx hoff
    · cases h
      exact .seekFailed x offset _ hlive

theorem Handle.rewind_does (hx : s.descs x = some d) {r : Except Error Unit}
    (h : Handle.rewind x out s = (r, s')) : (store s).Does (.rewind x) (.unit r) (store s') := by
  have hlive : ((store s).descs x).isSome := by
    rw [show (store s).descs x = some d from hx]
    rfl
  rw [Handle.rewind, Handle.seek] at h
  cases hfault : out.fault with
  | some e =>
    rw [hfault] at h
    cases h
    exact .rewindFailed x e hlive
  | none =>
    rw [hfault] at h
    dsimp only at h
    rw [if_pos (by norm_num)] at h
    cases h
    rw [store_moveTo hx]
    exact .rewind x d hx

/-- **Every call** does what it does to the tapes. -/
theorem call_does {op : Op} {r : Response} (h : call s op out = some (r, s')) :
    (store s).Does op r (store s') := by
  unfold call at h
  split_ifs at h with hlive
  have hdesc : ∀ {x}, op.self? = some x → ∃ d, s.descs x = some d := by
    intro x hself
    rw [hself] at hlive
    exact Option.isSome_iff_exists.1 hlive
  cases op with
  | opens x o path =>
    dsimp only at h
    split_ifs at h with hnone
    rw [openFile] at h
    cases hfault : out.fault with
    | some e =>
      rw [hfault] at h
      cases h
      exact .refused x o path e hnone
    | none =>
      rw [hfault] at h
      dsimp only at h
      cases hopens : s.opens x o.flags (Path.kernel path) with
      | error e =>
        rw [hopens] at h
        cases h
        exact .refused x o path e hnone
      | ok s₁ =>
        rw [hopens] at h
        cases h
        obtain ⟨i, S', hopened, heq⟩ := store_opens hopens
        rw [heq]
        exact .opens x o path i S' hnone hopened
  | writeAll x bytes =>
    obtain ⟨d, hx⟩ := hdesc rfl
    obtain ⟨⟨r', s₁⟩, hw, heq⟩ := Option.map_eq_some_iff.1 h
    cases heq
    exact Handle.writeAll_does hx hw
  | read x size =>
    obtain ⟨d, hx⟩ := hdesc rfl
    cases h
    exact Handle.read_does hx rfl
  | readToEnd x buf =>
    obtain ⟨d, hx⟩ := hdesc rfl
    cases h
    exact Handle.readToEnd_does hx rfl
  | seek x offset =>
    obtain ⟨d, hx⟩ := hdesc rfl
    cases h
    exact Handle.seek_does hx rfl
  | streamPosition x =>
    obtain ⟨d, hx⟩ := hdesc rfl
    cases h
    rw [Handle.streamPosition, hx]
    cases out.fault with
    | some e => exact .streamPositionFailed x e hlive
    | none => exact .streamPosition x d hx
  | rewind x =>
    obtain ⟨d, hx⟩ := hdesc rfl
    cases h
    exact Handle.rewind_does hx rfl
  | len x =>
    obtain ⟨d, hx⟩ := hdesc rfl
    cases h
    rw [Handle.len, hx]
    cases out.fault with
    | some e => exact .lenFailed x e hlive
    | none => exact .len x d hx
  | isEmpty x =>
    obtain ⟨d, hx⟩ := hdesc rfl
    cases h
    rw [Handle.isEmpty, Handle.len, hx]
    cases out.fault with
    | some e => exact .isEmptyFailed x e hlive
    | none => exact .isEmpty x d hx
  | drop x =>
    cases h
    exact .drop x hlive

/-- **Files are tapes**: a program of calls, however the system takes and gives their bytes, returns
    what it would if every call were done at once on tapes, and leaves the files as it would.  They
    are regular files, and a new one has the one spelling of its name. -/
theorem files_are_tapes {acts : List (Op × Outcome)} {rs : List Response}
    (h : calls s acts = some (rs, s')) : (store s).Runs (acts.map Prod.fst) rs (store s') := by
  induction acts generalizing s rs with
  | nil =>
    cases h
    exact .nil _
  | cons a acts ih =>
    obtain ⟨op, out⟩ := a
    obtain ⟨⟨r, s₁⟩, hcall, h⟩ := Option.bind_eq_some_iff.1 h
    obtain ⟨⟨rs', s₂⟩, hcalls, heq⟩ := Option.map_eq_some_iff.1 h
    cases heq
    exact .cons (call_does hcall) (ih hcalls)

/-- No files, and nothing is open. -/
def noFiles : Session := ⟨⟨fun _ => none, fun _ => [], 0, fun _ _ h => by cases h⟩, fun _ => none⟩

/-- What the system makes of a call that it does not disturb. -/
def calm : Outcome := ⟨none, [], [.ok 8]⟩

/-- A file is written in pieces, with a gap, appended to by another descriptor, and read back. -/
def gapped : List (Op × Outcome) :=
  [(.opens 0 .createRw [97], calm),
    (.writeAll 0 [1, 2, 3], ⟨none, [], [.ok 2, .error Errno.EINTR, .ok 0, .ok 1]⟩),
    (.seek 0 5, calm), (.writeAll 0 [4], calm), (.opens 1 .append [97], calm),
    (.writeAll 1 [5, 6], ⟨none, [], [.ok 1, .ok 1]⟩), (.rewind 0, calm),
    (.readToEnd 0 [], ⟨none, [.ok 3, .error Errno.EINTR], []⟩)]

theorem files_are_tapes_gapped : ∃ rs s', calls noFiles gapped = some (rs, s') ∧
    rs.getLast? = some (.buffer (.ok 8) [1, 2, 3, 0, 0, 4, 5, 6]) ∧
    (store noFiles).Runs (gapped.map Prod.fst) rs (store s') := by
  have h : calls noFiles gapped = some (_, _) := rfl
  exact ⟨_, _, h, rfl, files_are_tapes h⟩

end Ekostd.File
