/-
  `file.rs` — `absolute`, and `current_dir` of `env.rs`.

  A relative path is put behind the working directory, and an absolute one stays
  as it is; nothing is resolved.  What is made is longer than the path, and goes
  down to the working directory from the root, so that the system may refuse it
  where it would have taken the path (`Admits`).

  * `absolute_pins`: what it makes names, where it is not refused, what the path
    names, to every call and wherever the process goes from there;
  * `absolute_nothing`: but of a path that names nothing, being empty, it makes
    the working directory.
-/
import Ekostd.Lib.PosixCwd
import Ekostd.File.Error
import Ekostd.Fs.Contained
import Ekostd.Path.Basic

namespace Ekostd

open Ekostd.Path PosixFs

/-- `current_dir`; `getcwd` fills a buffer of a size or fails, and then `errno` tells why. -/
def Env.currentDir (getcwd : ℕ → Except Errno Bytes) : Except Errno Bytes :=
  match getcwd 4096 with
  | .error e => .error e
  | .ok buf => .ok (cstr (buf ++ [0]))

namespace File

/-- `absolute`. -/
def absolute (getcwd : ℕ → Except Errno Bytes) (path : Bytes) : Except Error Bytes :=
  if isAbsolute path then .ok path
  else match Env.currentDir getcwd with
    | .error e => .error (.fromErrno e "getcwd")
    | .ok cwd => .ok (push cwd path)

variable {l : Limits} {fs : Fs} {getcwd : ℕ → Except Errno Bytes} {path q c : Bytes}

/-- The process may use `q`: it is not too long, and the directories that are above the working
    directory may be searched. -/
structure Admits (l : Limits) (fs : Fs) (q : Bytes) : Prop where
  short : (kernel q).length < l.pathMax
  search : ∀ i, fs.Above i fs.cwd → l.search i

/-- To every call `q` is from anywhere what `path` is, errors included. -/
def Pins (l : Limits) (fs : Fs) (path q : Bytes) : Prop :=
  ∀ i, l.Names fs (fs.chdir i) (kernel path) (kernel q)

theorem currentDir_cases (getcwd : ℕ → Except Errno Bytes) :
    (∃ e, getcwd 4096 = .error e ∧ Env.currentDir getcwd = .error e) ∨
      ∃ buf, getcwd 4096 = .ok buf ∧ Env.currentDir getcwd = .ok (kernel buf) := by
  rcases h : getcwd 4096 with e | buf
  · exact .inl ⟨e, rfl, by rw [Env.currentDir, h]⟩
  · exact .inr ⟨buf, rfl, by rw [Env.currentDir, h]; rfl⟩

theorem isAbsolute_kernel (h : kernel path ≠ []) : isAbsolute (kernel path) = isAbsolute path := by
  cases path with
  | nil => exact absurd rfl h
  | cons b path =>
    by_cases hb : b = 0
    · subst hb
      exact absurd rfl h
    · simp [kernel, asC, cstr, isAbsolute, hb]

theorem isAbsolute_push (hc : c.head? = some slash) : isAbsolute (push c path) := by
  have hne : c ≠ [] := by
    rintro rfl
    cases hc
  unfold push
  split_ifs with habs hlast
  · simpa [isAbsolute] using habs
  · simp [isAbsolute, List.head?_append_of_ne_nil _ hne, hc]
  · simp [isAbsolute, List.head?_append_of_ne_nil _ hne, hc]

theorem kernel_push (hnul : 0 ∉ c) (hne : c ≠ []) (hrel : ¬ isAbsolute path) :
    kernel (push c path) = c ++ slash :: kernel path ∨
      c.getLast? = some slash ∧ kernel (push c path) = c ++ kernel path := by
  have hslash : (0 : UInt8) ≠ slash := by decide
  have hhead : path.head? ≠ some slash := by simpa [isAbsolute] using hrel
  rw [push, if_neg hhead]
  split_ifs with hlast
  · refine .inl ?_
    rw [kernel, asC, List.append_assoc, cstr_append (by simp [hnul, hslash]), List.append_assoc]
    rfl
  · refine .inr ⟨?_, ?_⟩
    · by_contra hno
      exact hlast ⟨hne, hno⟩
    · rw [kernel, asC, List.append_assoc, cstr_append hnul]
      rfl

/-- **An absolute path for good.**  What `absolute` makes of a path is absolute and, if the process
    may use it, to every call what the path is, also when the working directory changes; of an
    absolute path that needs no leave.  `absolute` fails only if `getcwd` does. -/
theorem absolute_pins (hgetcwd : ∀ size c, getcwd size = .ok c → fs.Locates c fs.cwd)
    (hpath : kernel path ≠ []) :
    match absolute getcwd path with
    | .ok q => (∀ getcwd', absolute getcwd' q = .ok q) ∧
        ∀ l, isAbsolute path ∨ Admits l fs q → Pins l fs path q
    | .error e => ¬ isAbsolute path ∧
        ∃ errno, getcwd 4096 = .error errno ∧ e = .fromErrno errno "getcwd" := by
  have hkernel := isAbsolute_kernel hpath
  by_cases habs : isAbsolute path
  · have hhead : (kernel path).head? = some slash := by
      rw [habs] at hkernel
      simpa [isAbsolute] using hkernel
    rw [absolute, if_pos habs]
    refine ⟨fun getcwd' => ?_, fun l _ i => (Fs.behind_absolute hhead i).names⟩
    rw [absolute, if_pos habs]
  · rw [absolute, if_neg habs]
    rcases currentDir_cases getcwd with ⟨e, hget, hcur⟩ | ⟨c, hget, hcur⟩
    · rw [hcur]
      exact ⟨habs, e, hget, rfl⟩
    · have hloc := hgetcwd _ _ hget
      have hne : c ≠ [] := by
        rintro rfl
        cases hloc.head
      have hhead : (kernel path).head? ≠ some slash := by
        rw [Bool.eq_false_iff.2 habs] at hkernel
        simpa [isAbsolute] using hkernel
      rw [hcur, kernel_of_notMem hloc.noNul]
      refine ⟨fun getcwd' => ?_, fun l hl i => ?_⟩
      · rw [absolute, if_pos (isAbsolute_push hloc.head)]
      · obtain ⟨hshort, hsearch⟩ := hl.resolve_left habs
        have hpush := kernel_push hloc.noNul hne habs
        exact (hloc.behind hpath hhead hpush hshort hsearch i).names

/-- **An empty path** names nothing, and what `absolute` makes of it the working directory. -/
theorem absolute_nothing (hgetcwd : ∀ size c, getcwd size = .ok c → fs.Locates c fs.cwd)
    (hpath : kernel path = []) (h : absolute getcwd path = .ok q) (hl : Admits l fs q)
    (hcwd : l.search fs.cwd) (i : ℕ) :
    l.resolve fs (kernel path) = .error Errno.ENOENT ∧
      l.resolve (fs.chdir i) (kernel q) = .ok fs.cwd := by
  have hpos : 0 < l.pathMax := Nat.zero_lt_of_lt hl.short
  refine ⟨by rw [hpath]; exact (Limits.fit_of_lt (p := []) hpos _).trans (if_pos rfl), ?_⟩
  have habs : ¬ isAbsolute path := by
    intro habs
    obtain ⟨rest, rfl⟩ := isAbsolute_iff.1 habs
    cases hpath
  have hshort := hl.short
  rw [absolute, if_neg habs] at h
  rcases currentDir_cases getcwd with ⟨e, -, hcur⟩ | ⟨c, hget, hcur⟩
  · rw [hcur] at h
    cases h
  · have hloc := hgetcwd _ _ hget
    have hne : c ≠ [] := by
      rintro rfl
      cases hloc.head
    rw [hcur, kernel_of_notMem hloc.noNul] at h
    cases h
    have hq := kernel_push hloc.noNul hne habs
    rw [hpath, List.append_nil] at hq
    exact hloc.resolve hq hshort hl.search hcwd i

/-- `../l/f` from the directory `d`, where `l` is a link to `d`. -/
theorem absolute_pins_link :
    ∃ q, absolute (fun _ => .ok [47, 100]) [46, 46, 47, 108, 47, 102] = .ok q ∧
      Pins (Limits.upTo 4096) (Fs.linkBeside.chdir 2) [46, 46, 47, 108, 47, 102] q ∧
      (Limits.upTo 4096).resolve (Fs.linkBeside.chdir 0) (kernel q) = .ok 3 := by
  have hgetcwd : ∀ size c, (fun _ : ℕ => (Except.ok [47, 100] : Except Errno Bytes)) size = .ok c →
      (Fs.linkBeside.chdir 2).Locates c 2 := by
    intro size c h
    cases h
    have hpieces : List.pieces slash [47, 100] = [[100]] := by decide
    refine ⟨rfl, by decide, ?_, rfl⟩
    rw [hpieces]
    exact .cons (k := 2) rfl rfl .nil
  have hpath : kernel [46, 46, 47, 108, 47, 102] ≠ [] := by decide
  have hpins := (absolute_pins hgetcwd hpath).2 (Limits.upTo 4096)
    (.inr ⟨by decide, fun _ _ => rfl⟩)
  exact ⟨_, rfl, hpins, by decide +kernel⟩

/-- Where the root may not be searched, `f` is there in `d`, and `/d/f` is refused. -/
example : let l : Limits := { Limits.upTo 4096 with search := fun i => i ≠ 0 }
    l.resolve (Fs.linkBeside.chdir 2) [102] = .ok 3 ∧
      l.resolve Fs.linkBeside [47, 100, 47, 102] = .error Errno.EACCES := by
  decide +kernel

end File

end Ekostd
