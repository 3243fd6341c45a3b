/-
  `file.rs` and `fs.rs` — `copy`.

  Both read the source to its end before they create the destination, which
  may be the same file under another name; `file::copy` does so by `read` and
  `write`, `fs::copy` with a descriptor of each.

  * `copy_copies`: an `Ok` says that the destination has what the source had;
    after a failed write it has a first part of that, and after another failure
    no file has changed.
-/
import Ekostd.File.Read
import Ekostd.Lib.PosixData
import Ekostd.WriteLoops

namespace Ekostd

open PosixFs PosixData

/-- What the system calls of a copy answer, beside what they must: whether the files can be opened,
    what fails and how much arrives of the reads, and the answers of the writes. -/
structure Outcomes where
  open_ : Option Errno
  reads : List (Except Errno ℕ+)
  create : Option Errno
  writes : List PosixWrite.Answer

namespace File

/-- `open(2)` for reading, by the name that the kernel sees: the reads that there will be. -/
def opened (o : Outcomes) (fs : Files) (p : Bytes) : Except Errno (List PosixRead.Answer) :=
  match o.open_, fs.names p with
  | some e, _ => .error e
  | none, none => .error Errno.ENOENT
  | none, some i => .ok (PosixRead.deliver (64 * 1024) (fs.data i) o.reads)

/-- `File::create`: the file, and the files after it. -/
def create (o : Outcomes) (fs : Files) (path : Bytes) : Except Error (ℕ × Files) :=
  match o.create with
  | some e => .error (.fromErrno e "create")
  | none => .ok (fs.create (Path.kernel path))

/-- `write_all` on a file that has just been opened; `none` if it waits for an answer. -/
def writeAllTo (o : Outcomes) (i : ℕ) (fs : Files) (bytes : Bytes) :
    Option (Except Error Unit × Files) :=
  (writeAll.on bytes ⟨o.writes, []⟩).map fun (r, fd) => (r, fs.wrote i fd.calls)

/-- `write`. -/
def write (o : Outcomes) (fs : Files) (path bytes : Bytes) : Option (Except Error Unit × Files) :=
  match create o fs path with
  | .error e => some (.error e, fs)
  | .ok (i, fs) => writeAllTo o i fs bytes

/-- `file::copy`. -/
def copy (o : Outcomes) (fs : Files) (src dst : Bytes) : Option (Except Error ℕ × Files) :=
  match File.read (opened o fs) src with
  | .error e => some (.error e, fs)
  | .ok bytes =>
    let n := bytes.length
    (write o fs dst bytes).map fun (r, fs) => (r.map fun _ => n, fs)

end File

/-- `fs::copy`. -/
def Fs.copy (o : Outcomes) (fs : Files) (src dst : Bytes) : Option (Except File.Error ℕ × Files) :=
  match File.opened o fs (Path.kernel src) with
  | .error e => some (.error (.fromErrno e "open"), fs)
  | .ok source =>
    match File.readToEnd 0 source [] with
    | (.error e, _, _) => some (.error e, fs)
    | (.ok _, bytes, _) =>
      match File.create o fs dst with
      | .error e => some (.error e, fs)
      | .ok (i, fs) =>
        (File.writeAllTo o i fs bytes).map fun (r, fs) => (r.map fun _ => bytes.length, fs)

namespace File

variable {o : Outcomes} {fs fs' : Files} {src dst path bytes : Bytes}

/-! ## Reading -/

theorem readToEnd_opened {source : List PosixRead.Answer} {p : Bytes}
    (hopen : opened o fs p = .ok source) {n : ℕ} {out : Bytes} {rest : List PosixRead.Answer}
    (h : readToEnd 0 source [] = (.ok n, out, rest)) :
    ∃ i, fs.names p = some i ∧ out = fs.data i := by
  unfold opened at hopen
  split at hopen
  · cases hopen
  · cases hopen
  · next i _ hi =>
    cases hopen
    have hsize : 0 < 64 * 1024 := by decide
    obtain ⟨hout, -⟩ := readToEnd_ok (PosixRead.delivers_deliver hsize _ _) h
    rw [PosixRead.delivered_deliver hsize, List.nil_append] at hout
    exact ⟨i, hi, hout⟩

/-- **What `read` answers** is what the file had, or an error of `open` or `read`. -/
theorem read_opened (o : Outcomes) (fs : Files) (src : Bytes) :
    (∃ i, fs.names (Path.kernel src) = some i ∧
      File.read (opened o fs) src = .ok (fs.data i)) ∨
    ∃ e, File.read (opened o fs) src = .error e ∧ e.what ≠ "write" := by
  unfold File.read
  cases hopen : opened o fs (Path.kernel src) with
  | error e => exact .inr ⟨_, rfl, by simp [Error.fromErrno]⟩
  | ok source =>
    dsimp only
    rcases hend : readToEnd 0 source [] with ⟨_ | n, out, rest⟩
    · exact .inr ⟨_, rfl, by rw [readToEnd_error hend]; decide⟩
    · obtain ⟨i, hi, rfl⟩ := readToEnd_opened hopen hend
      exact .inl ⟨i, hi, rfl⟩

/-- **The two copies are one**: `fs::copy` spells out the calls of the other. -/
theorem copy_eq (o : Outcomes) (fs : Files) (src dst : Bytes) :
    Fs.copy o fs src dst = copy o fs src dst := by
  unfold Fs.copy copy File.read write
  cases opened o fs (Path.kernel src) with
  | error e => rfl
  | ok source =>
    dsimp only
    rcases readToEnd 0 source [] with ⟨_ | n, bytes, rest⟩
    · rfl
    · dsimp only
      cases create o fs dst <;> rfl

/-! ## Writing -/

/-- What has become of a copy of `fs` to `dst` that returned `r` and left `fs'`. -/
structure Copies (fs : Files) (src dst : Bytes) (r : Except Error ℕ) (fs' : Files) : Prop where
  /-- All that the source had is in the destination. -/
  ok : ∀ n, r = .ok n → ∃ i j, fs.names (Path.kernel src) = some i ∧
    fs'.names (Path.kernel dst) = some j ∧ fs'.data j = fs.data i ∧ n = (fs.data i).length
  /-- After a failed write, a first part of it. -/
  part : ∀ e, r = .error e → e.what = "write" → ∃ i j, fs.names (Path.kernel src) = some i ∧
    fs'.names (Path.kernel dst) = some j ∧ fs'.data j <+: fs.data i
  /-- After another failure nothing has changed. -/
  unchanged : ∀ e, r = .error e → e.what ≠ "write" → fs' = fs

theorem writeAllTo_cases {i : ℕ} {r : Except Error Unit} (hempty : fs.data i = [])
    (h : writeAllTo o i fs bytes = some (r, fs')) : fs'.names = fs.names ∧
      ((r = .ok () ∧ fs'.data i = bytes) ∨
        ∃ e, r = .error (.fromErrno e "write") ∧ fs'.data i <+: bytes) := by
  obtain ⟨⟨r', fd⟩, hrun, heq⟩ := Option.map_eq_some_iff.1 h
  cases heq
  obtain ⟨made, hcalls, -, hmade⟩ := PosixWrite.Loop.run_made hrun
  obtain rfl : fd.calls = made := hcalls
  obtain ⟨hdata, hnames⟩ := Files.wrote_data hempty fd.calls
  rw [hdata]
  exact ⟨hnames, writeAll_made hmade⟩

theorem write_cases {r : Except Error Unit} (h : write o fs path bytes = some (r, fs')) :
    (∃ e, r = .error e ∧ e.what ≠ "write" ∧ fs' = fs) ∨
    ∃ j, fs'.names (Path.kernel path) = some j ∧
      ((r = .ok () ∧ fs'.data j = bytes) ∨
        ∃ e, r = .error (.fromErrno e "write") ∧ fs'.data j <+: bytes) := by
  cases hfault : o.create with
  | some e =>
    simp only [write, create, hfault] at h
    cases h
    exact .inl ⟨_, rfl, by simp [Error.fromErrno], rfl⟩
  | none =>
    simp only [write, create, hfault] at h
    obtain ⟨hnames, hleft⟩ := writeAllTo_cases (fs.create_data (Path.kernel path)) h
    exact .inr ⟨_, by rw [hnames, fs.create_names], hleft⟩

/-- **A copy copies**: whatever the reads and the writes answer, and whether or not the destination
    exists or is the source. -/
theorem copy_copies (o : Outcomes) (fs : Files) (src dst : Bytes) {r : Except Error ℕ} {fs' : Files}
    (h : copy o fs src dst = some (r, fs') ∨ Fs.copy o fs src dst = some (r, fs')) :
    Copies fs src dst r fs' := by
  rw [copy_eq, or_self] at h
  unfold copy at h
  rcases read_opened o fs src with ⟨i, hi, hread⟩ | ⟨e, hread, hwhat⟩
  · rw [hread] at h
    obtain ⟨⟨r', fs₁⟩, hw, heq⟩ := Option.map_eq_some_iff.1 h
    cases heq
    rcases write_cases hw with ⟨e, rfl, hwhat, rfl⟩ | ⟨j, hj, ⟨rfl, hdata⟩ | ⟨e, rfl, hpart⟩⟩
    · refine ⟨fun n hn => (by cases hn), fun e' he hw => ?_, fun _ _ _ => rfl⟩
      cases he
      exact absurd hw hwhat
    · refine ⟨fun n hn => ?_, fun e he => (by cases he), fun e he => (by cases he)⟩
      cases hn
      exact ⟨i, j, hi, hj, hdata, rfl⟩
    · refine ⟨fun n hn => (by cases hn), fun e he _ => ⟨i, j, hi, hj, hpart⟩, fun e' he hw => ?_⟩
      cases he
      exact absurd rfl hw
  · rw [hread] at h
    cases h
    refine ⟨fun n hn => (by cases hn), fun e' he hw => ?_, fun _ _ _ => rfl⟩
    cases he
    exact absurd hw hwhat

theorem linked_named : ∀ (p : Bytes) (i : ℕ),
    (if p = [97] ∨ p = [98] then some 0 else none) = some i → i < 1 := by
  intro p i h
  split_ifs at h
  cases h
  exact Nat.one_pos

/-- A file with the names `a` and `b`. -/
def linked : Files :=
  ⟨fun p => if p = [97] ∨ p = [98] then some 0 else none, fun _ => [104, 105], 1, linked_named⟩

/-- `a` is copied to `b`, a byte at a time and with interruptions. -/
theorem copy_copies_linked : ∃ fs', copy ⟨none, [.ok 1, .error Errno.EINTR], none,
      [.ok 1, .error Errno.EINTR, .ok 1]⟩ linked [97] [98] = some (.ok 2, fs') ∧
    fs'.data 0 = [104, 105] ∧ Copies linked [97] [98] (.ok 2) fs' := by
  exact ⟨_, rfl, rfl, copy_copies ⟨none, [.ok 1, .error Errno.EINTR], none,
    [.ok 1, .error Errno.EINTR, .ok 1]⟩ linked [97] [98] (.inl rfl)⟩

end File

end Ekostd
