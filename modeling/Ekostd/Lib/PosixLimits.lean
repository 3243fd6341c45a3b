/-
  A process with limits — how long a pathname may be, and what the process may
  do in which directory.

  The calls of `PosixFs` are those of a process without any.  Here a pathname of
  `pathMax` bytes is too long (its NUL is counted), a directory that may not be
  searched ends a walk that has a component left to look up in it, and a name is
  removed only from a directory that may be written.

  * `walk`, `resolve`, `lstat`, `opendir`, `leaf`, `unlink`, `rmdir`: the calls;
  * `Free.resolve` and so on: where no limit is in the way, they are the others.
-/
import Ekostd.Lib.PosixFs

namespace PosixFs

open Errno

/-- What a process may do in the directories, and `PATH_MAX`. -/
structure Limits where
  pathMax : ℕ
  search : ℕ → Bool
  read : ℕ → Bool
  write : ℕ → Bool

namespace Limits

/-- It may do everything. -/
structure Free (l : Limits) : Prop where
  search : ∀ i, l.search i
  read : ∀ i, l.read i
  write : ∀ i, l.write i

/-- No limits but one of the length. -/
def upTo (pathMax : ℕ) : Limits := ⟨pathMax, fun _ => true, fun _ => true, fun _ => true⟩

theorem upTo_free (pathMax : ℕ) : (upTo pathMax).Free :=
  ⟨fun _ => rfl, fun _ => rfl, fun _ => rfl⟩

variable (l : Limits) (fs : Fs)

/-- `Fs.walkWith`, in directories that may be searched. -/
def walkWith (budget : ℕ) (onLink : ℕ → List Bytes → Except Errno (ℕ × ℕ)) :
    ℕ → List Bytes → Except Errno (ℕ × ℕ)
  | cur, [] => .ok (cur, budget)
  | cur, c :: cs =>
    match fs.dir? cur with
    | none => .error ENOTDIR
    | some d =>
      if l.search cur = false then .error EACCES
      else if c = dot then walkWith budget onLink cur cs
      else if c = dotdot then walkWith budget onLink d.parent cs
      else match d.lookup c with
        | none => .error ENOENT
        | some i =>
          match fs.nodes i with
          | some (.link target) =>
            if target = [] then .error ENOENT
            else onLink (fs.start cur target) (Fs.comps target ++ cs)
          | _ => walkWith budget onLink i cs

def walk : ℕ → ℕ → List Bytes → Except Errno (ℕ × ℕ)
  | 0 => l.walkWith fs 0 fun _ _ => .error ELOOP
  | budget + 1 => l.walkWith fs (budget + 1) (walk budget)

def walkFrom (p : Bytes) (cs : List Bytes) : Except Errno (ℕ × ℕ) :=
  l.walk fs Fs.symloopMax (fs.start fs.cwd p) cs

def look (cur : ℕ) (c : Bytes) : Except Errno ℕ :=
  match fs.dir? cur with
  | none => .error ENOTDIR
  | some _ => if l.search cur = false then .error EACCES else fs.look cur c

/-- A call with the pathname `p`, which may be too long. -/
def fit {α : Type*} (p : Bytes) (r : Except Errno α) : Except Errno α :=
  if p.length < l.pathMax then r else .error ENAMETOOLONG

/-! ## Calls -/

def resolve (p : Bytes) : Except Errno ℕ :=
  l.fit p (if p = [] then .error ENOENT else (l.walkFrom fs p (Fs.comps p)).map Prod.fst)

def lstat (p : Bytes) : Except Errno ℕ :=
  l.fit p (if p = [] then .error ENOENT
  else match (Fs.comps p).getLast? with
    | none => .ok (fs.start fs.cwd p)
    | some c => match l.walkFrom fs p (Fs.comps p).dropLast with
      | .error e => .error e
      | .ok (cur, _) => l.look fs cur c)

def opendir (p : Bytes) : Except Errno Dir :=
  match l.resolve fs p with
  | .error e => .error e
  | .ok i => match fs.dir? i with
    | none => .error ENOTDIR
    | some d => if l.read i then .ok d else .error EACCES

def leaf (p : Bytes) : Except Errno (ℕ × Bytes) :=
  l.fit p (match (p.pieces slash).getLast? with
  | none => .error (if p = [] then ENOENT else EBUSY)
  | some c => match l.walkFrom fs p (p.pieces slash).dropLast with
    | .error e => .error e
    | .ok (cur, _) => .ok (cur, c))

def unlink (p : Bytes) : Except Errno Fs :=
  l.fit p (if p.getLast? = some slash then .error ENOTDIR
  else match l.leaf fs p with
    | .error e => .error e
    | .ok (cur, c) => match l.look fs cur c with
      | .error e => .error e
      | .ok i =>
        if l.write cur = false then .error EACCES
        else if (fs.dir? i).isSome then .error EISDIR
        else .ok (fs.erase cur c))

def rmdir (p : Bytes) : Except Errno Fs :=
  match l.leaf fs p with
  | .error e => .error e
  | .ok (cur, c) =>
    if c = dot then .error EINVAL
    else if c = dotdot then .error ENOTEMPTY
    else match l.look fs cur c with
      | .error e => .error e
      | .ok i =>
        if l.write cur = false then .error EACCES
        else match fs.dir? i with
          | none => .error ENOTDIR
          | some d => if d.entries = [] then .ok (fs.erase cur c) else .error ENOTEMPTY

/-! ## Without limits -/

variable {l fs} {p : Bytes}

theorem fit_of_lt {α : Type*} (hp : p.length < l.pathMax) (r : Except Errno α) : l.fit p r = r :=
  if_pos hp

namespace Free

variable (h : l.Free)

include h

theorem walkWith (budget cur : ℕ) (onLink : ℕ → List Bytes → Except Errno (ℕ × ℕ))
    (cs : List Bytes) :
    l.walkWith fs budget onLink cur cs = fs.walkWith budget onLink cur cs := by
  induction cs generalizing cur with
  | nil => rfl
  | cons c cs ih =>
    rw [Limits.walkWith, Fs.walkWith]
    rcases fs.dir? cur with - | d
    · rfl
    · dsimp only
      rw [if_neg (by simp [h.search])]
      split_ifs
      · exact ih cur
      · exact ih d.parent
      · rcases d.lookup c with - | i
        · rfl
        · rcases hnode : fs.nodes i with - | (d | target | content) <;> simp [hnode, ih]

theorem walk (budget cur : ℕ) (cs : List Bytes) :
    l.walk fs budget cur cs = fs.walk budget cur cs := by
  induction budget generalizing cur cs with
  | zero => exact h.walkWith 0 cur _ cs
  | succ b ih =>
    have hlink : l.walk fs b = fs.walk b := by
      funext cur cs
      exact ih cur cs
    rw [Limits.walk, Fs.walk, hlink]
    exact h.walkWith (b + 1) cur _ cs

theorem walkFrom (p : Bytes) (cs : List Bytes) : l.walkFrom fs p cs = fs.walkFrom p cs :=
  h.walk ..

theorem look (cur : ℕ) (c : Bytes) : l.look fs cur c = fs.look cur c := by
  unfold Limits.look Fs.look
  cases fs.dir? cur <;> simp [h.search]

variable (hp : p.length < l.pathMax)

include hp

theorem resolve : l.resolve fs p = fs.resolve p := by
  rw [Limits.resolve, fit_of_lt hp, h.walkFrom]
  rfl

theorem lstat : l.lstat fs p = fs.lstat p := by
  simp only [Limits.lstat, fit_of_lt hp, h.walkFrom, h.look]
  rfl

theorem opendir : l.opendir fs p = fs.opendir p := by
  simp only [Limits.opendir, h.resolve hp, h.read, if_true]
  rfl

theorem leaf : l.leaf fs p = fs.leaf p := by
  simp only [Limits.leaf, fit_of_lt hp, h.walkFrom]
  rfl

theorem unlink : l.unlink fs p = fs.unlink p := by
  simp only [Limits.unlink, fit_of_lt hp, h.leaf hp, h.look, h.write, Bool.true_eq_false, if_false]
  rfl

theorem rmdir : l.rmdir fs p = fs.rmdir p := by
  simp only [Limits.rmdir, h.leaf hp, h.look, h.write, Bool.true_eq_false, if_false]
  rfl

end Free

end Limits

end PosixFs
