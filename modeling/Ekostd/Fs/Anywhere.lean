/-
  Removals by absolute paths, in a process that changes its working directory.

  A removal looks its names up from the working directory when it comes to them;
  one by an absolute path does not.

  The filesystem is the same for every process: there are no links in it, as those
  of `/proc/self` are, that lead where a process has its working directory.

  * `names_absolute`: to the calls, an absolute path is the same from everywhere;
  * `removeChildren_chdir`, `removeEntries_chdir`: the loops, over absolute names;
  * `removals_anywhere`: both `remove_dir_all`s, and the drop of a `TempDir` that
    was made by an absolute path.
-/
import Ekostd.File.Absolute
import Ekostd.File.TempDir
import Ekostd.Fs.Removal

namespace Ekostd

open Ekostd.Path PosixFs

variable (faults : ℕ → Option Errno) {s : Sys} {path : Bytes} (i : ℕ)

theorem names_absolute (fs : Fs) (h : isAbsolute path) :
    fs.Names (fs.chdir i) (kernel path) (kernel path) := by
  obtain ⟨rest, rfl⟩ := isAbsolute_iff.1 h
  exact (Fs.behind_absolute rfl i).names.free (Limits.upTo_free _) (Nat.lt_succ_self _)
    (Nat.lt_succ_self _)

theorem isAbsolute_join (h : isAbsolute path) (name : Bytes) : isAbsolute (join path name) :=
  File.isAbsolute_push (by simpa [isAbsolute] using h)

theorem lstat_chdir (fs : Fs) (h : isAbsolute path) :
    ((fs.chdir i).lstat (kernel path)).map (File.fileType (fs.chdir i)) =
      (fs.lstat (kernel path)).map (File.fileType fs) := by
  rw [(names_absolute i fs h).lstat]
  rfl

namespace Fs

theorem readEntries_chdir (names out : List Bytes) (s : Sys) :
    readEntries faults path names out (s.chdir i) =
      elsewhere i (readEntries faults path names out s) := by
  induction names generalizing out s with
  | nil =>
    rw [readEntries, readEntries, Sys.tick_chdir]
    rcases s.query faults fun _ => .ok () with ⟨e | ⟨⟩, t⟩ <;> rfl
  | cons name names ih =>
    rw [readEntries, readEntries, Sys.tick_chdir]
    rcases s.query faults fun _ => .ok () with ⟨e | ⟨⟩, t⟩
    · rfl
    · simp only [elsewhere]
      split_ifs
      · exact ih out t
      · exact ih _ t

theorem readDir_chdir (h : isAbsolute path) (s : Sys) :
    readDir faults (s.chdir i) path = elsewhere i (readDir faults s path) := by
  rw [readDir, readDir, Sys.query_chdir faults (names_absolute i s.fs h).opendir]
  rcases s.query faults fun fs => fs.opendir (kernel path) with ⟨e | d, t⟩
  · rfl
  · exact readEntries_chdir faults i _ _ t

theorem unlink_chdir (h : isAbsolute path) (s : Sys) :
    unlink faults (s.chdir i) path = (unlink faults s path).chdir i := by
  rw [unlink, unlink, Sys.update_chdir faults (names_absolute i s.fs h).unlink]
  rfl

theorem rmdir_chdir (h : isAbsolute path) (s : Sys) :
    rmdir faults (s.chdir i) path = elsewhere i (rmdir faults s path) := by
  rw [rmdir, rmdir, Sys.update_chdir faults (names_absolute i s.fs h).rmdir]
  rcases s.update faults fun fs => fs.rmdir (kernel path) with ⟨e | ⟨⟩, t⟩ <;> rfl

theorem symlinkMetadata_chdir (h : isAbsolute path) (s : Sys) :
    File.symlinkMetadata faults (s.chdir i) path =
      elsewhere i (File.symlinkMetadata faults s path) := by
  rw [File.symlinkMetadata, File.symlinkMetadata, Sys.query_chdir faults (lstat_chdir i s.fs h)]
  rcases s.query faults fun fs => (fs.lstat (kernel path)).map (File.fileType fs) with ⟨e | st, t⟩
    <;> rfl

/-- **The loop**, over absolute paths. -/
theorem removeChildren_chdir {rec : Sys → Bytes → Option (Except File.Error Unit) × Sys}
    (hrec : ∀ s q, isAbsolute q → rec (s.chdir i) q = elsewhere i (rec s q))
    {children : List Bytes} (habs : ∀ q ∈ children, isAbsolute q) (s : Sys) :
    removeChildren faults rec children (s.chdir i) =
      elsewhere i (removeChildren faults rec children s) := by
  induction children generalizing s with
  | nil => rfl
  | cons child children ih =>
    have hchild := habs child List.mem_cons_self
    have hrest := ih fun q hq => habs q (List.mem_cons_of_mem _ hq)
    rw [removeChildren, removeChildren, symlinkMetadata_chdir faults i hchild]
    rcases File.symlinkMetadata faults s child with ⟨e | link, t⟩
    · rfl
    · simp only [elsewhere]
      by_cases hdir : link.isDir
      · rw [if_pos hdir, if_pos hdir, hrec t child hchild]
        rcases rec t child with ⟨_ | e | ⟨⟩, t'⟩
        · rfl
        · rfl
        · exact hrest t'
      · rw [if_neg hdir, if_neg hdir, unlink_chdir faults i hchild]
        exact hrest _

/-- **The removal that stops**: by induction on its fuel. -/
theorem removeDirAll_chdir (fuel : ℕ) (h : isAbsolute path) (s : Sys) :
    removeDirAll faults fuel (s.chdir i) path = elsewhere i (removeDirAll faults fuel s path) := by
  induction fuel generalizing path s with
  | zero => rfl
  | succ fuel ih =>
    rw [removeDirAll, removeDirAll, readDir_chdir faults i h]
    rcases hread : readDir faults s path with ⟨e | children, t⟩
    · rfl
    · have habs : ∀ q ∈ children, isAbsolute q := by
        intro q hq
        obtain ⟨m, -, rfl⟩ := (readDir_children faults hread).2 q hq
        exact isAbsolute_join h m
      simp only [elsewhere]
      rw [removeChildren_chdir faults i (fun s q hq => ih hq s) habs]
      rcases removeChildren faults (removeDirAll faults fuel) children t with ⟨_ | e | ⟨⟩, t'⟩
      · rfl
      · rfl
      · simp only [elsewhere]
        rw [rmdir_chdir faults i h]
        rfl

end Fs

namespace File

theorem removeChild_chdir {rec : Sys → Bytes → Option Unit × Sys}
    (hrec : ∀ s q, isAbsolute q → rec (s.chdir i) q = elsewhere i (rec s q)) (h : isAbsolute path)
    (s : Sys) :
    removeChild faults rec (s.chdir i) path = elsewhere i (removeChild faults rec s path) := by
  have hunlink : ∀ t : Sys, ((t.chdir i).update faults fun fs => fs.unlink (kernel path)) =
      elsewhere i (t.update faults fun fs => fs.unlink (kernel path)) := fun t =>
    Sys.update_chdir faults (names_absolute i t.fs h).unlink
  rw [removeChild, removeChild, Sys.query_chdir faults (lstat_chdir i s.fs h)]
  rcases s.query faults fun fs => (fs.lstat (kernel path)).map (fileType fs) with ⟨e | st, t⟩
  · simp only [elsewhere, hunlink]
  · cases st with
    | dir => exact hrec t path h
    | link | file => simp only [elsewhere, hunlink]

/-- **The loop**, over the names of an absolute path. -/
theorem removeEntries_chdir {rec : Sys → Bytes → Option Unit × Sys}
    (hrec : ∀ s q, isAbsolute q → rec (s.chdir i) q = elsewhere i (rec s q)) (h : isAbsolute path)
    (names : List Bytes) (s : Sys) :
    removeEntries faults rec path names (s.chdir i) =
      elsewhere i (removeEntries faults rec path names s) := by
  induction names generalizing s with
  | nil =>
    rw [removeEntries, removeEntries, Sys.tick_chdir]
    rfl
  | cons name names ih =>
    rw [removeEntries, removeEntries, Sys.tick_chdir]
    rcases s.query faults fun _ => .ok () with ⟨e | ⟨⟩, t⟩
    · rfl
    · simp only [elsewhere]
      split_ifs
      · exact ih t
      · rw [removeChild_chdir faults i hrec (isAbsolute_join h _)]
        rcases removeChild faults rec t (join path (cstr (name ++ [0]))) with ⟨_ | ⟨⟩, t'⟩
        · rfl
        · exact ih t'

/-- **The removal that goes on**: by induction on its fuel. -/
theorem removeDirAll_chdir (fuel : ℕ) (h : isAbsolute path) (s : Sys) :
    removeDirAll faults fuel (s.chdir i) path = elsewhere i (removeDirAll faults fuel s path) := by
  induction fuel generalizing path s with
  | zero => rfl
  | succ fuel ih =>
    rw [removeDirAll, removeDirAll, Sys.query_chdir faults (names_absolute i s.fs h).opendir]
    rcases s.query faults fun fs => fs.opendir (kernel path) with ⟨e | d, t⟩
    · rfl
    · simp only [elsewhere]
      rw [removeEntries_chdir faults i (fun s q hq => ih hq s) h]
      rcases removeEntries faults (removeDirAll faults fuel) path (Fs.names d) t with ⟨_ | ⟨⟩, t'⟩
      · rfl
      · simp only [elsewhere]
        rw [Sys.update_chdir faults (names_absolute i t'.fs h).rmdir]
        rfl

theorem TempDir.attempts_absolute {alloc : PosixFs.Fs.Alloc} {base pre suffix : Bytes} {pid : ℕ}
    {counter : ℕ → ℕ} {left : ℕ} {t : Sys} {d : TempDir} (h : isAbsolute base)
    (hnew : attempts faults alloc base pre suffix pid counter left s = (.ok d, t)) :
    isAbsolute d.path := by
  induction left generalizing s with
  | zero => cases hnew
  | succ left ih =>
    rw [attempts] at hnew
    split at hnew
    · cases hnew
      exact isAbsolute_join h _
    · split_ifs at hnew
      · cases hnew
      · exact ih hnew

end File

/-- **A removal by an absolute path** does the same from everywhere: the one that stops, the one
    that goes on, and the drop of a `TempDir` that was made under such a path.  A link like
    `/proc/self/cwd`, whose target depends on the process, is outside of the model. -/
theorem Fs.removals_anywhere (h : isAbsolute path) :
    (∀ fuel s, removeDirAll faults fuel (s.chdir i) path =
      elsewhere i (removeDirAll faults fuel s path)) ∧
    (∀ fuel s, File.removeDirAll faults fuel (s.chdir i) path =
      elsewhere i (File.removeDirAll faults fuel s path)) ∧
    ∀ alloc pre suffix pid counter s d t,
      File.TempDir.newIn faults alloc path pre suffix pid counter s = (.ok d, t) →
      ∀ faults' fuel u, d.drop faults' fuel (u.chdir i) = elsewhere i (d.drop faults' fuel u) := by
  refine ⟨fun fuel => removeDirAll_chdir faults i fuel h,
    fun fuel => File.removeDirAll_chdir faults i fuel h, ?_⟩
  intro alloc pre suffix pid counter s d t hnew faults' fuel u
  exact File.removeDirAll_chdir faults' i fuel (File.TempDir.attempts_absolute faults h hnew) u

/-- The directory `d` is removed by `/d`, from inside of it. -/
theorem Fs.removals_anywhere_inside :
    File.removeDirAll (fun _ => none) 2 (Sys.chdir ⟨linkBeside, 0⟩ 2) [47, 100] =
      elsewhere 2 (File.removeDirAll (fun _ => none) 2 ⟨linkBeside, 0⟩ [47, 100]) ∧
    (File.removeDirAll (fun _ => none) 2 ⟨linkBeside, 0⟩ [47, 100]).2.fs.entry 0 [100] = none :=
  ⟨(removals_anywhere (fun _ => none) 2 (by decide)).2.1 2 _, by decide +kernel⟩

end Ekostd
