/-
  A POSIX filesystem — its names, and the calls that resolve, list and remove
  them.

  A filesystem is a graph of nodes: directories with their entries, symbolic
  links with their target, and files.  A pathname is resolved by walking its
  pieces from the root or the working directory; every symbolic link met on
  the way is followed, and the calls differ in whether they follow one that
  the pathname ends in.

  * `walk`: pathname resolution, with a bound on the links followed;
  * `lstat`, `opendir`, `unlink`, `rmdir`: the calls, as partial functions of
    the filesystem;
  * `Sys.call`: a call in a world where any call may also fail for a reason of
    its own (`faults`), and then does nothing.
-/
import Ekostd.Lib.Pieces

/-- Bytes, as C strings and pathnames are made of. -/
abbrev Bytes := List UInt8

/-- The number of an error; 0 is none. -/
abbrev Errno := ℕ

namespace Errno

def EPERM : Errno := 1
def ENOENT : Errno := 2
def ESRCH : Errno := 3
def EINTR : Errno := 4
def EBADF : Errno := 9
def EAGAIN : Errno := 11
def EWOULDBLOCK : Errno := EAGAIN
def ENOMEM : Errno := 12
def EACCES : Errno := 13
def EBUSY : Errno := 16
def EEXIST : Errno := 17
def ENOTDIR : Errno := 20
def EISDIR : Errno := 21
def EINVAL : Errno := 22
def EMFILE : Errno := 24
def ENOSPC : Errno := 28
def EPIPE : Errno := 32
def EDEADLK : Errno := 35
def ENAMETOOLONG : Errno := 36
def ENOTEMPTY : Errno := 39
def ELOOP : Errno := 40
def EILSEQ : Errno := 84

end Errno

namespace PosixFs

open Errno

/-- The separator of pathnames. -/
def slash : UInt8 := 47

/-- The name `.`, a directory's own. -/
def dot : Bytes := [46]

/-- The name `..`, a directory's parent's. -/
def dotdot : Bytes := [46, 46]

/-- A name that a directory can have for an entry. -/
structure ValidName (n : Bytes) : Prop where
  nonempty : n ≠ []
  noSlash : slash ∉ n
  noNul : 0 ∉ n
  notDot : n ≠ dot
  notDotdot : n ≠ dotdot

instance (n : Bytes) : Decidable (ValidName n) :=
  decidable_of_iff (n ≠ [] ∧ slash ∉ n ∧ 0 ∉ n ∧ n ≠ dot ∧ n ≠ dotdot)
    ⟨fun ⟨a, b, c, d, e⟩ => ⟨a, b, c, d, e⟩, fun ⟨a, b, c, d, e⟩ => ⟨a, b, c, d, e⟩⟩

/-- A directory: its parent and its entries, each name once. -/
structure Dir where
  parent : ℕ
  entries : List (Bytes × ℕ)
  nodup : (entries.map Prod.fst).Nodup
  valid : ∀ e ∈ entries, ValidName e.1

/-- What a node is. -/
inductive Node where
  | dir (d : Dir)
  | link (target : Bytes)
  | file (content : Bytes)

/-- The node of the entry `n`. -/
def Dir.lookup (d : Dir) (n : Bytes) : Option ℕ := d.entries.lookup n

/-- The directory without the entry `n`. -/
def Dir.erase (d : Dir) (n : Bytes) : Dir where
  parent := d.parent
  entries := d.entries.filter fun e => e.1 ≠ n
  nodup := d.nodup.sublist (List.filter_sublist.map _)
  valid e he := d.valid e (List.mem_of_mem_filter he)

theorem Dir.lookup_erase (d : Dir) (n m : Bytes) :
    (d.erase n).lookup m = if m = n then none else d.lookup m := by
  simp only [Dir.lookup, Dir.erase]
  generalize d.entries = es
  induction es with
  | nil => simp
  | cons e es ih =>
    obtain ⟨k, i⟩ := e
    by_cases hkn : k = n
    · subst hkn
      rw [List.filter_cons_of_neg (by simp), ih]
      split_ifs with hmk
      · rfl
      · rw [List.lookup_cons, beq_eq_false_iff_ne.2 hmk]
    · rw [List.filter_cons_of_pos (by simpa using hkn), List.lookup_cons, List.lookup_cons, ih]
      by_cases hmk : m = k
      · subst hmk; simp [hkn]
      · rw [beq_eq_false_iff_ne.2 hmk]

theorem Dir.lookup_eq_some {d : Dir} {n : Bytes} {i : ℕ} :
    d.lookup n = some i ↔ (n, i) ∈ d.entries := by
  have hnodup := d.nodup
  simp only [Dir.lookup]
  generalize d.entries = es at hnodup
  induction es with
  | nil => simp
  | cons e es ih =>
    obtain ⟨k, j⟩ := e
    simp only [List.map_cons, List.nodup_cons, List.mem_map, not_exists, not_and] at hnodup
    by_cases hnk : n = k
    · subst hnk
      have hnot : (n, i) ∉ es := fun hmem => hnodup.1 (n, i) hmem rfl
      simp [hnot, eq_comm]
    · have hne : (n == k) = false := by simpa using hnk
      simp [List.lookup_cons, hne, ih hnodup.2, hnk]

/-- The nodes, the root and the working directory. The parent of a directory is one, and the
    directories that are entries of directories go down, so that each is the root of a tree. -/
structure Fs where
  nodes : ℕ → Option Node
  root : ℕ
  cwd : ℕ
  parents : ∀ i d, nodes i = some (.dir d) → ∃ e, nodes d.parent = some (.dir e)
  acyclic : ∃ height : ℕ → ℕ, ∀ i d n j e, nodes i = some (.dir d) → d.lookup n = some j →
    nodes j = some (.dir e) → height j < height i

namespace Fs

variable (fs : Fs)

/-- The directory that `i` is. -/
def dir? (i : ℕ) : Option Dir :=
  match fs.nodes i with
  | some (.dir d) => some d
  | _ => none

/-- The node of the entry `n` of the directory `i`. -/
def entry (i : ℕ) (n : Bytes) : Option ℕ := (fs.dir? i).bind fun d => d.lookup n

/-- The directory `j` is an entry of the directory `i`. -/
def Child (i j : ℕ) : Prop := (∃ n, fs.entry i n = some j) ∧ (fs.dir? j).isSome

variable {fs}

theorem dir?_eq_some {i : ℕ} {d : Dir} : fs.dir? i = some d ↔ fs.nodes i = some (.dir d) := by
  unfold dir?
  split <;> simp_all

theorem entry_eq {i : ℕ} {d : Dir} (h : fs.dir? i = some d) (n : Bytes) :
    fs.entry i n = d.lookup n := by simp [entry, h]

/-- **Going down ends.** -/
theorem wellFounded_child : WellFounded fun j i => fs.Child i j := by
  obtain ⟨height, h⟩ := fs.acyclic
  refine Subrelation.wf ?_ (measure height).wf
  rintro j i ⟨⟨n, hn⟩, hj⟩
  obtain ⟨e, he⟩ := Option.isSome_iff_exists.1 hj
  obtain ⟨d, hd, hn⟩ := Option.bind_eq_some_iff.1 hn
  exact h i d n j e (dir?_eq_some.1 hd) hn (dir?_eq_some.1 he)

/-! ## Pathnames -/

/-- The components of a pathname: a trailing slash stands for `/.`. -/
def comps (p : Bytes) : List Bytes :=
  p.pieces slash ++ if p.getLast? = some slash then [dot] else []

variable (fs)

/-- Where the pathname `p` starts, in the directory `cur`. -/
def start (cur : ℕ) (p : Bytes) : ℕ := if p.head? = some slash then fs.root else cur

/-- Walk components from the node `cur`; at a symbolic link, `onLink` walks on. The answer is the
    node and how many links may still be followed. -/
def walkWith (budget : ℕ) (onLink : ℕ → List Bytes → Except Errno (ℕ × ℕ)) :
    ℕ → List Bytes → Except Errno (ℕ × ℕ)
  | cur, [] => .ok (cur, budget)
  | cur, c :: cs =>
    match fs.dir? cur with
    | none => .error ENOTDIR
    | some d =>
      if c = dot then walkWith budget onLink cur cs
      else if c = dotdot then walkWith budget onLink d.parent cs
      else match d.lookup c with
        | none => .error ENOENT
        | some i =>
          match fs.nodes i with
          | some (.link target) =>
            if target = [] then .error ENOENT
            else onLink (fs.start cur target) (comps target ++ cs)
          | _ => walkWith budget onLink i cs

/-- Walk components from the node `cur`, following at most `budget` symbolic links. -/
def walk : ℕ → ℕ → List Bytes → Except Errno (ℕ × ℕ)
  | 0 => fs.walkWith 0 fun _ _ => .error ELOOP
  | budget + 1 => fs.walkWith (budget + 1) (walk budget)

/-- How many symbolic links a resolution may follow. -/
def symloopMax : ℕ := 40

/-- Walk the components `cs` of the pathname `p`. -/
def walkFrom (p : Bytes) (cs : List Bytes) : Except Errno (ℕ × ℕ) :=
  fs.walk symloopMax (fs.start fs.cwd p) cs

/-- The node a component names in the directory `cur`, a symbolic link being itself. -/
def look (cur : ℕ) (c : Bytes) : Except Errno ℕ :=
  match fs.dir? cur with
  | none => .error ENOTDIR
  | some d =>
    if c = dot then .ok cur
    else if c = dotdot then .ok d.parent
    else match d.lookup c with
      | none => .error ENOENT
      | some i => .ok i

/-! ## Calls -/

/-- The node that `p` resolves to, links followed. -/
def resolve (p : Bytes) : Except Errno ℕ :=
  if p = [] then .error ENOENT else (fs.walkFrom p (comps p)).map Prod.fst

/-- The node that `p` names, without following a link that it ends in. -/
def lstat (p : Bytes) : Except Errno ℕ :=
  if p = [] then .error ENOENT
  else match (comps p).getLast? with
    | none => .ok (fs.start fs.cwd p)
    | some c => match fs.walkFrom p (comps p).dropLast with
      | .error e => .error e
      | .ok (cur, _) => fs.look cur c

/-- The directory that `p` resolves to. -/
def opendir (p : Bytes) : Except Errno Dir :=
  match fs.resolve p with
  | .error e => .error e
  | .ok i => match fs.dir? i with
    | none => .error ENOTDIR
    | some d => .ok d

/-- What reading a directory yields. -/
def names (d : Dir) : List Bytes := dot :: dotdot :: d.entries.map Prod.fst

/-- The nodes when the directory `i` has lost the entry `n`. -/
def eraseNodes (i : ℕ) (n : Bytes) (j : ℕ) : Option Node :=
  match fs.nodes j with
  | some (.dir d) => some (.dir (if j = i then d.erase n else d))
  | node => node

variable {fs} in
theorem eraseNodes_dir {i j : ℕ} {n : Bytes} {d : Dir} (h : fs.eraseNodes i n j = some (.dir d)) :
    ∃ d₀, fs.nodes j = some (.dir d₀) ∧ d.parent = d₀.parent ∧
      ∀ m k, d.lookup m = some k → d₀.lookup m = some k := by
  unfold eraseNodes at h
  split at h
  · next d₀ hd₀ =>
    cases h
    refine ⟨d₀, hd₀, by split_ifs <;> rfl, fun m k hk => ?_⟩
    split_ifs at hk
    · rw [Dir.lookup_erase] at hk
      split_ifs at hk
      exact hk
    · exact hk
  · next hne => exact absurd h (hne d)

/-- The directory `i` loses the entry `n`. -/
def erase (i : ℕ) (n : Bytes) : Fs where
  nodes := fs.eraseNodes i n
  root := fs.root
  cwd := fs.cwd
  parents j d hj := by
    obtain ⟨d₀, hd₀, hp, -⟩ := eraseNodes_dir hj
    obtain ⟨e, he⟩ := fs.parents j d₀ hd₀
    exact ⟨if d.parent = i then e.erase n else e, by rw [eraseNodes, hp, he]⟩
  acyclic := by
    obtain ⟨height, h⟩ := fs.acyclic
    refine ⟨height, fun j d m k e hj hm hk => ?_⟩
    obtain ⟨d₀, hd₀, -, hsub⟩ := eraseNodes_dir hj
    obtain ⟨e₀, he₀, -⟩ := eraseNodes_dir hk
    exact h j d₀ m k e₀ hd₀ (hsub m k hm) he₀

/-- The last piece of `p` and the directory that `p` names it in. -/
def leaf (p : Bytes) : Except Errno (ℕ × Bytes) :=
  match (p.pieces slash).getLast? with
  | none => .error (if p = [] then ENOENT else EBUSY)
  | some c => match fs.walkFrom p (p.pieces slash).dropLast with
    | .error e => .error e
    | .ok (cur, _) => .ok (cur, c)

/-- `unlink`: a name that is no directory is removed. -/
def unlink (p : Bytes) : Except Errno Fs :=
  if p.getLast? = some slash then .error ENOTDIR
  else match fs.leaf p with
    | .error e => .error e
    | .ok (cur, c) => match fs.look cur c with
      | .error e => .error e
      | .ok i => if (fs.dir? i).isSome then .error EISDIR else .ok (fs.erase cur c)

/-- `rmdir`: the name of an empty directory is removed; trailing slashes are allowed, and do not
    make it follow a link. -/
def rmdir (p : Bytes) : Except Errno Fs :=
  match fs.leaf p with
  | .error e => .error e
  | .ok (cur, c) =>
    if c = dot then .error EINVAL
    else if c = dotdot then .error ENOTEMPTY
    else match fs.look cur c with
      | .error e => .error e
      | .ok i => match fs.dir? i with
        | none => .error ENOTDIR
        | some d => if d.entries = [] then .ok (fs.erase cur c) else .error ENOTEMPTY

end Fs

/-! ## A world with faults -/

/-- The part of a buffer that a C function reads as a string. -/
def cstr (buf : Bytes) : Bytes := buf.takeWhile fun b => b ≠ 0

theorem cstr_append {p : Bytes} (h : 0 ∉ p) (rest : Bytes) : cstr (p ++ rest) = p ++ cstr rest := by
  refine List.takeWhile_append_of_pos fun b hb => ?_
  simpa using fun h0 : b = 0 => h (h0 ▸ hb)

/-- **A C string is read whole** exactly if no byte of it is NUL. -/
theorem cstr_eq_iff {p : Bytes} (rest : Bytes) : cstr (p ++ 0 :: rest) = p ↔ 0 ∉ p := by
  constructor
  · intro h hmem
    rw [← h] at hmem
    simpa using List.all_eq_true.1 List.all_takeWhile 0 hmem
  · intro h
    rw [cstr_append h]
    simp [cstr]

/-- The filesystem and the number of calls made. -/
structure Sys where
  fs : Fs
  clock : ℕ

variable (faults : ℕ → Option Errno)

/-- A call that is over with the answer of `f`, unless the world makes it fail. -/
def Sys.query {α : Type*} (s : Sys) (f : Fs → Except Errno α) : Except Errno α × Sys :=
  let t : Sys := { s with clock := s.clock + 1 }
  match faults s.clock with
  | some e => (.error e, t)
  | none => (f s.fs, t)

/-- A call that changes the filesystem as `f` says, unless it or the world makes it fail. -/
def Sys.update (s : Sys) (f : Fs → Except Errno Fs) : Except Errno Unit × Sys :=
  match s.query faults f with
  | (.error e, t) => (.error e, t)
  | (.ok fs, t) => (.ok (), { t with fs := fs })

@[simp] theorem Sys.query_fs {α : Type*} (s : Sys) (f : Fs → Except Errno α) :
    (s.query faults f).2.fs = s.fs := by
  unfold Sys.query
  split <;> rfl

theorem Sys.query_ok {α : Type*} {s t : Sys} {f : Fs → Except Errno α} {a : α}
    (h : s.query faults f = (.ok a, t)) : f s.fs = .ok a ∧ t.fs = s.fs := by
  unfold Sys.query at h
  split at h
  · cases h
  · obtain ⟨ha, rfl⟩ := Prod.mk.inj h
    exact ⟨ha, rfl⟩

theorem Sys.update_ok {s t : Sys} {f : Fs → Except Errno Fs} {u : Unit}
    (h : s.update faults f = (.ok u, t)) : f s.fs = .ok t.fs := by
  unfold Sys.update at h
  split at h
  · cases h
  · next hq =>
    obtain ⟨-, rfl⟩ := Prod.mk.inj h
    exact (Sys.query_ok faults hq).1

theorem Sys.update_error {s t : Sys} {f : Fs → Except Errno Fs} {e : Errno}
    (h : s.update faults f = (.error e, t)) :
    t.fs = s.fs ∧ (f s.fs = .error e ∨ faults s.clock = some e) := by
  unfold Sys.update at h
  split at h
  · next e' t' hq =>
    obtain ⟨he, rfl⟩ := Prod.mk.inj h
    cases he
    unfold Sys.query at hq
    split at hq
    · next hf =>
      obtain ⟨he, rfl⟩ := Prod.mk.inj hq
      cases he
      exact ⟨rfl, .inr hf⟩
    · obtain ⟨hf, rfl⟩ := Prod.mk.inj hq
      exact ⟨rfl, .inl hf⟩
  · cases h

theorem Sys.update_none (s : Sys) (f : Fs → Except Errno Fs) :
    s.update (fun _ => none) f = match f s.fs with
      | .error e => (.error e, ⟨s.fs, s.clock + 1⟩)
      | .ok fs => (.ok (), ⟨fs, s.clock + 1⟩) := by
  unfold Sys.update Sys.query
  cases f s.fs <;> rfl

theorem Sys.update_fs (s : Sys) (f : Fs → Except Errno Fs) :
    (s.update faults f).2.fs = s.fs ∨ f s.fs = .ok (s.update faults f).2.fs := by
  unfold Sys.update
  split
  · next e t h =>
    left
    have := s.query_fs faults f
    rwa [h] at this
  · next fs t h =>
    right
    exact (Sys.query_ok faults h).1

end PosixFs
