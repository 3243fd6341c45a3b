/-
  `file.rs` — the error of a file operation, and what `lstat` says of a name.
-/
import Ekostd.Path.Basic

namespace Ekostd.File

open PosixFs

/-- `ErrorKind`. -/
inductive ErrorKind where
  | notFound
  | permissionDenied
  | isADirectory
  | invalidInput
  | invalidData
  | other
  deriving DecidableEq

/-- `ErrorKind::of`. -/
def ErrorKind.of (errno : Errno) : ErrorKind :=
  if errno = Errno.ENOENT then .notFound
  else if errno = Errno.EACCES ∨ errno = Errno.EPERM then .permissionDenied
  else if errno = Errno.EISDIR then .isADirectory
  else if errno = Errno.EILSEQ then .invalidData
  else .other

/-- `Error`. -/
structure Error where
  errno : Errno
  kind : ErrorKind
  what : String
  deriving DecidableEq

/-- `Error::from_errno`; `err` is the same with the current `errno`. -/
def Error.fromErrno (errno : Errno) (what : String) : Error := ⟨errno, .of errno, what⟩

/-- The file type in `st_mode`. -/
inductive FileType where
  | dir
  | link
  | file
  deriving DecidableEq

/-- The file type of a node. -/
def fileType (fs : Fs) (i : ℕ) : FileType :=
  match fs.nodes i with
  | some (.dir _) => .dir
  | some (.link _) => .link
  | _ => .file

/-- `Metadata`. -/
structure Metadata where
  st : FileType

/-- `Metadata::is_dir`. -/
def Metadata.isDir (self : Metadata) : Bool := self.st = .dir

/-- `symlink_metadata`. -/
def symlinkMetadata (faults : ℕ → Option Errno) (s : Sys) (path : Bytes) :
    Except Error Metadata × Sys :=
  match s.query faults fun fs => (fs.lstat (Path.kernel path)).map (fileType fs) with
  | (.error e, s) => (.error (.fromErrno e "lstat"), s)
  | (.ok st, s) => (.ok ⟨st⟩, s)

theorem fileType_eq_dir {fs : Fs} {i : ℕ} : fileType fs i = .dir ↔ (fs.dir? i).isSome := by
  unfold fileType Fs.dir?
  split <;> simp_all

/-- **What is answered about a name** is about the node that it names. -/
theorem symlinkMetadata_ok {faults : ℕ → Option Errno} {s t : Sys} {path : Bytes} {m : Metadata}
    (h : symlinkMetadata faults s path = (.ok m, t)) :
    t.fs = s.fs ∧ ∃ i, s.fs.lstat (Path.kernel path) = .ok i ∧
      (m.isDir ↔ (s.fs.dir? i).isSome) := by
  unfold symlinkMetadata at h
  split at h
  · cases h
  · next st t' hq =>
    obtain ⟨hst, hfs⟩ := Sys.query_ok faults hq
    cases h
    refine ⟨hfs, ?_⟩
    cases hl : s.fs.lstat (Path.kernel path) with
    | error e => rw [hl] at hst; cases hst
    | ok i =>
      rw [hl] at hst
      cases hst
      exact ⟨i, rfl, by simp [Metadata.isDir, fileType_eq_dir]⟩

theorem symlinkMetadata_fs (faults : ℕ → Option Errno) (s : Sys) (path : Bytes) :
    (symlinkMetadata faults s path).2.fs = s.fs := by
  have := s.query_fs faults fun fs => (fs.lstat (Path.kernel path)).map (fileType fs)
  unfold symlinkMetadata
  split <;> next h => rwa [h] at this

end Ekostd.File
