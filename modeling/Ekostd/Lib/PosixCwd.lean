/-
  The working directory — what a pathname names from another one.

  `getcwd` answers with a pathname that goes down from the root to the working
  directory, by entries that are directories and by no symbolic link.  With it in
  front, a relative pathname names wherever the process goes what it names now, if
  it is not too long then and the directories above the working directory may be
  searched.

  * `Down`, `Locates`: going down by entries, and a pathname that does;
  * `Limits.Names`, `Names`: two pathnames that are the same to every call, each
    from its working directory;
  * `Behind`: a pathname behind a way to the working directory;
  * `Behind.names`: then it is the same to every call;
  * `Sys.query_chdir`, `Sys.update_chdir`: such a call, in a world with faults.
-/
import Ekostd.Lib.PosixErase
import Ekostd.Lib.PosixLimits

namespace PosixFs

variable {l : Limits}

namespace Fs

variable {fs : Fs} {i j k budget : ℕ} {n p q c : Bytes} {ns cs : List Bytes}

/-- From the node `i` the entries `ns` go down to the node `j`, each of them a directory. -/
inductive Down (fs : Fs) : ℕ → List Bytes → ℕ → Prop
  | nil {i : ℕ} : Down fs i [] i
  | cons {i j k : ℕ} {n : Bytes} {ns : List Bytes} : fs.entry i n = some k → (fs.dir? k).isSome →
      Down fs k ns j → Down fs i (n :: ns) j

/-- The directory `i` is above the directory `j`. -/
def Above (fs : Fs) : ℕ → ℕ → Prop := Relation.TransGen fs.Child

/-- The pathname `p` goes down from the root to the directory `i`. -/
structure Locates (fs : Fs) (p : Bytes) (i : ℕ) : Prop where
  head : p.head? = some slash
  noNul : 0 ∉ p
  down : fs.Down fs.root (p.pieces slash) i
  dir : (fs.dir? i).isSome

/-- The working directory becomes `i`. -/
def chdir (fs : Fs) (i : ℕ) : Fs := { fs with cwd := i }

end Fs

/-- What `p` is to the calls in `fs`, `q` is in `fs'`, which differs in its working directory; the
    calls are those of a process with limits. -/
structure Limits.Names (l : Limits) (fs fs' : Fs) (p q : Bytes) : Prop where
  resolve : l.resolve fs' q = l.resolve fs p
  lstat : l.lstat fs' q = l.lstat fs p
  opendir : l.opendir fs' q = l.opendir fs p
  leaf : l.leaf fs' q = l.leaf fs p
  unlink : l.unlink fs' q = (l.unlink fs p).map fun g => g.chdir fs'.cwd
  rmdir : l.rmdir fs' q = (l.rmdir fs p).map fun g => g.chdir fs'.cwd

/-- The same of the calls of a process without any. -/
structure Fs.Names (fs fs' : Fs) (p q : Bytes) : Prop where
  resolve : fs'.resolve q = fs.resolve p
  lstat : fs'.lstat q = fs.lstat p
  opendir : fs'.opendir q = fs.opendir p
  leaf : fs'.leaf q = fs.leaf p
  unlink : fs'.unlink q = (fs.unlink p).map fun g => g.chdir fs'.cwd
  rmdir : fs'.rmdir q = (fs.rmdir p).map fun g => g.chdir fs'.cwd

/-- A pathname that is short enough names the same where no limit is in the way. -/
theorem Limits.Names.free {fs fs' : Fs} {p q : Bytes} (h : l.Names fs fs' p q) (hl : l.Free)
    (hp : p.length < l.pathMax) (hq : q.length < l.pathMax) : fs.Names fs' p q where
  resolve := by simpa only [hl.resolve hp, hl.resolve hq] using h.resolve
  lstat := by simpa only [hl.lstat hp, hl.lstat hq] using h.lstat
  opendir := by simpa only [hl.opendir hp, hl.opendir hq] using h.opendir
  leaf := by simpa only [hl.leaf hp, hl.leaf hq] using h.leaf
  unlink := by simpa only [hl.unlink hp, hl.unlink hq] using h.unlink
  rmdir := by simpa only [hl.rmdir hp, hl.rmdir hq] using h.rmdir

namespace Fs

variable {fs : Fs} {i j k budget : ℕ} {n p q c : Bytes} {ns cs : List Bytes}

/-! ## Going down -/

theorem validName_of_entry (h : fs.entry i n = some k) : ValidName n := by
  obtain ⟨d, -, hn⟩ := Option.bind_eq_some_iff.1 h
  exact d.valid _ (Dir.lookup_eq_some.1 hn)

theorem walk_entry (hn : fs.entry i n = some k) (hk : (fs.dir? k).isSome) (hi : l.search i)
    (cs : List Bytes) : l.walk fs budget i (n :: cs) = l.walk fs budget k cs := by
  have hvalid := validName_of_entry hn
  obtain ⟨d, hd, hlook⟩ := Option.bind_eq_some_iff.1 hn
  obtain ⟨e, he⟩ := Option.isSome_iff_exists.1 hk
  have hnode := dir?_eq_some.1 he
  cases budget <;>
    simp [Limits.walk, Limits.walkWith, hd, hi, hvalid.notDot, hvalid.notDotdot, hlook, hnode]

/-- **Going down uses no link**, so that the rest is walked as from there; but it searches what is
    on the way. -/
theorem Down.walk (h : fs.Down i ns j) (hl : ∀ k, fs.Above k j → l.search k) (cs : List Bytes) :
    l.walk fs budget i (ns ++ cs) = l.walk fs budget j cs ∧ (ns ≠ [] → fs.Above i j) := by
  induction h with
  | nil => exact ⟨rfl, fun hne => absurd rfl hne⟩
  | @cons i j k n ns hn hk hdown ih =>
    obtain ⟨hwalk, habove⟩ := ih hl
    have hchild : fs.Child i k := ⟨⟨n, hn⟩, hk⟩
    have hij : fs.Above i j := by
      cases hdown with
      | nil => exact .single hchild
      | cons => exact .head hchild (habove (by simp))
    exact ⟨(walk_entry hn hk (hl i hij) (ns ++ cs)).trans hwalk, fun _ => hij⟩

@[simp] theorem dir?_chdir (i j : ℕ) : (fs.chdir i).dir? j = fs.dir? j := rfl

@[simp] theorem look_chdir (i j : ℕ) (c : Bytes) : l.look (fs.chdir i) j c = l.look fs j c := rfl

@[simp] theorem erase_chdir (i j : ℕ) (n : Bytes) :
    (fs.chdir i).erase j n = (fs.erase j n).chdir i := rfl

theorem walkWith_chdir (i budget cur : ℕ) (onLink : ℕ → List Bytes → Except Errno (ℕ × ℕ))
    (cs : List Bytes) : l.walkWith (fs.chdir i) budget onLink cur cs =
      l.walkWith fs budget onLink cur cs := by
  induction cs generalizing cur with
  | nil => rfl
  | cons c cs ih =>
    simp only [Limits.walkWith, ih, dir?_chdir]
    rfl

theorem walk_chdir (i cur : ℕ) (cs : List Bytes) :
    l.walk (fs.chdir i) budget cur cs = l.walk fs budget cur cs := by
  induction budget generalizing cur cs with
  | zero => exact walkWith_chdir i 0 cur _ cs
  | succ b ih =>
    have hlink : l.walk (fs.chdir i) b = l.walk fs b := by
      funext cur cs
      exact ih cur cs
    rw [Limits.walk, Limits.walk, hlink]
    exact walkWith_chdir i (b + 1) cur _ cs

theorem Locates.resolve (h : fs.Locates c j)
    (hq : q = c ++ [slash] ∨ c.getLast? = some slash ∧ q = c) (hlen : q.length < l.pathMax)
    (hl : ∀ k, fs.Above k j → l.search k) (hj : l.search j) (i : ℕ) :
    l.resolve (fs.chdir i) q = .ok j := by
  obtain ⟨d, hd⟩ := Option.isSome_iff_exists.1 h.dir
  have hne : c ≠ [] := by
    rintro rfl
    cases h.head
  obtain ⟨hhead, hlast, hpieces⟩ : q.head? = some slash ∧ q.getLast? = some slash ∧
      q.pieces slash = c.pieces slash := by
    rcases hq with rfl | ⟨hlast, rfl⟩
    · exact ⟨by rw [List.head?_append_of_ne_nil _ hne, h.head], List.getLast?_concat,
        List.pieces_snoc_sep c⟩
    · exact ⟨h.head, hlast, rfl⟩
  have hq : q ≠ [] := by
    rintro rfl
    cases hhead
  have hdot : l.walk fs symloopMax j [dot] = .ok (j, symloopMax) := by
    simp [symloopMax, Limits.walk, Limits.walkWith, hd, hj]
  have hwalk : l.walk fs symloopMax fs.root (c.pieces slash ++ [dot]) = .ok (j, symloopMax) :=
    (h.down.walk hl [dot]).1.trans hdot
  rw [Limits.resolve, Limits.fit_of_lt hlen, if_neg hq, comps, hpieces, if_pos hlast,
    Limits.walkFrom, start, if_pos hhead, walk_chdir]
  exact congrArg (Except.map Prod.fst) hwalk

/-! ## Behind a way to the working directory -/

/-- Wherever the process is, `q` is walked as `p` from the working directory of `fs`, after the
    components `ns`, and is too long exactly if `p` is. -/
structure Behind (l : Limits) (fs : Fs) (i : ℕ) (ns : List Bytes) (p q : Bytes) : Prop where
  walkFrom : ∀ cs, l.walkFrom (fs.chdir i) q (ns ++ cs) = l.walkFrom fs p cs
  pieces : q.pieces slash = ns ++ p.pieces slash
  last : q.getLast? = p.getLast?
  nonempty : p ≠ [] ∧ q ≠ []
  bare : p.pieces slash = [] → ns = []
  short : q.length < l.pathMax ↔ p.length < l.pathMax

theorem behind_absolute (h : p.head? = some slash) (i : ℕ) : Behind l fs i [] p p := by
  have hne : p ≠ [] := by
    rintro rfl
    cases h
  refine ⟨fun cs => ?_, rfl, rfl, ⟨hne, hne⟩, fun _ => rfl, Iff.rfl⟩
  rw [List.nil_append, Limits.walkFrom, Limits.walkFrom, start, start, if_pos h, if_pos h,
    walk_chdir]
  rfl

/-- **A relative pathname behind one of the working directory.** -/
theorem Locates.behind (h : fs.Locates c fs.cwd) (hp : p ≠ []) (hrel : p.head? ≠ some slash)
    (hq : q = c ++ slash :: p ∨ c.getLast? = some slash ∧ q = c ++ p)
    (hlen : q.length < l.pathMax) (hl : ∀ k, fs.Above k fs.cwd → l.search k) (i : ℕ) :
    Behind l fs i (c.pieces slash) p q := by
  have hc : c ≠ [] := by
    rintro rfl
    cases h.head
  have hpieces : q.pieces slash = c.pieces slash ++ p.pieces slash := by
    rcases hq with rfl | ⟨hlast, rfl⟩
    · exact List.pieces_append c p
    · exact List.pieces_append_of_ended (.inr hlast) p
  have hhead : q.head? = some slash := by
    rcases hq with rfl | ⟨-, rfl⟩ <;> rw [List.head?_append_of_ne_nil _ hc, h.head]
  have hlast : q.getLast? = p.getLast? := by
    rcases hq with rfl | ⟨-, rfl⟩
    · rw [← List.singleton_append, ← List.append_assoc, List.getLast?_append_of_ne_nil _ hp]
    · rw [List.getLast?_append_of_ne_nil _ hp]
  have hle : p.length ≤ q.length := by
    rcases hq with rfl | ⟨-, rfl⟩
    · rw [List.length_append, List.length_cons]
      omega
    · simp
  refine ⟨fun cs => ?_, hpieces, hlast, ⟨hp, ?_⟩, fun hbare => ?_, by omega⟩
  · rw [Limits.walkFrom, Limits.walkFrom, start, start, if_pos hhead, if_neg hrel, walk_chdir]
    exact (h.down.walk hl cs).1
  · rintro rfl
    cases hhead
  · -- a pathname that starts with another byte than a slash has a piece
    obtain ⟨b, p, rfl⟩ := List.exists_cons_of_ne_nil hp
    have hb : b ≠ slash := fun heq => hrel (by rw [heq]; rfl)
    exact absurd hbare (List.pieces_ne_nil List.mem_cons_self hb)

namespace Behind

theorem comps (h : Behind l fs i ns p q) : Fs.comps q = ns ++ Fs.comps p := by
  rw [Fs.comps, Fs.comps, h.pieces, h.last, List.append_assoc]

theorem fit {α : Type*} (h : Behind l fs i ns p q) {r r' : Except Errno α} (hr : r = r') :
    l.fit q r = l.fit p r' := by
  rw [Limits.fit, Limits.fit, hr]
  exact if_congr h.short rfl rfl

theorem resolve (h : Behind l fs i ns p q) : l.resolve (fs.chdir i) q = l.resolve fs p := by
  refine h.fit ?_
  rw [if_neg h.nonempty.1, if_neg h.nonempty.2, h.comps, h.walkFrom]

theorem lstat (h : Behind l fs i ns p q) : l.lstat (fs.chdir i) q = l.lstat fs p := by
  have hne := comps_ne_nil h.nonempty.1
  refine h.fit ?_
  rw [if_neg h.nonempty.1, if_neg h.nonempty.2, h.comps, List.getLast?_append_of_ne_nil _ hne,
    List.dropLast_append_of_ne_nil hne, h.walkFrom, List.getLast?_eq_some_getLast hne]
  rfl

theorem opendir (h : Behind l fs i ns p q) : l.opendir (fs.chdir i) q = l.opendir fs p := by
  rw [Limits.opendir, Limits.opendir, h.resolve]
  rfl

theorem leaf (h : Behind l fs i ns p q) : l.leaf (fs.chdir i) q = l.leaf fs p := by
  refine h.fit ?_
  rw [h.pieces]
  by_cases hbare : p.pieces slash = []
  · rw [h.bare hbare, hbare]
    simp [h.nonempty]
  · rw [List.getLast?_append_of_ne_nil _ hbare, List.dropLast_append_of_ne_nil hbare, h.walkFrom,
      List.getLast?_eq_some_getLast hbare]

theorem unlink (h : Behind l fs i ns p q) :
    l.unlink (fs.chdir i) q = (l.unlink fs p).map fun g => g.chdir i := by
  by_cases hlen : p.length < l.pathMax
  · rw [Limits.unlink, Limits.unlink, Limits.fit_of_lt hlen, Limits.fit_of_lt (h.short.2 hlen),
      h.last, h.leaf]
    by_cases hlast : p.getLast? = some slash
    · rw [if_pos hlast, if_pos hlast]
      rfl
    · rw [if_neg hlast, if_neg hlast]
      rcases l.leaf fs p with e | ⟨cur, n⟩
      · rfl
      · rcases hlook : l.look fs cur n with e | j
        · simp [hlook, Except.map]
        · by_cases hwrite : l.write cur = false
          · simp [hlook, hwrite, Except.map]
          · by_cases hj : (fs.dir? j).isSome <;> simp [hlook, hwrite, hj, Except.map]
  · rw [Limits.unlink, Limits.unlink, Limits.fit, Limits.fit, if_neg hlen,
      if_neg (h.short.not.2 hlen)]
    rfl

theorem rmdir (h : Behind l fs i ns p q) :
    l.rmdir (fs.chdir i) q = (l.rmdir fs p).map fun g => g.chdir i := by
  rw [Limits.rmdir, Limits.rmdir, h.leaf]
  rcases l.leaf fs p with e | ⟨cur, n⟩
  · rfl
  · by_cases hdot : n = dot
    · simp [hdot, Except.map]
    · by_cases hdotdot : n = dotdot
      · simp [hdotdot, dot, dotdot, Except.map]
      · rcases hlook : l.look fs cur n with e | j
        · simp [hdot, hdotdot, hlook, Except.map]
        · by_cases hwrite : l.write cur = false
          · simp [hdot, hdotdot, hlook, hwrite, Except.map]
          · rcases hj : fs.dir? j with - | d
            · simp [hdot, hdotdot, hlook, hwrite, hj, Except.map]
            · by_cases hd : d.entries = [] <;>
                simp [hdot, hdotdot, hlook, hwrite, hj, hd, Except.map]

/-- **It is the same to every call.** -/
theorem names (h : Behind l fs i ns p q) : l.Names fs (fs.chdir i) p q where
  resolve := h.resolve
  lstat := h.lstat
  opendir := h.opendir
  leaf := h.leaf
  unlink := h.unlink
  rmdir := h.rmdir

end Behind

end Fs

/-! ## Calls from elsewhere -/

variable (faults : ℕ → Option Errno) {s : Sys}

/-- The working directory becomes `i`. -/
def Sys.chdir (s : Sys) (i : ℕ) : Sys := { s with fs := s.fs.chdir i }

/-- The same answer, in the working directory `i`. -/
def elsewhere {α : Type*} (i : ℕ) (r : α × Sys) : α × Sys := (r.1, r.2.chdir i)

/-- **A call that answers the same there** does so, faults and all. -/
theorem Sys.query_chdir {α : Type*} {f : Fs → Except Errno α} {i : ℕ}
    (hf : f (s.fs.chdir i) = f s.fs) :
    (s.chdir i).query faults f = elsewhere i (s.query faults f) := by
  have hfs : (s.chdir i).fs = s.fs.chdir i := rfl
  have hclock : (s.chdir i).clock = s.clock := rfl
  rw [Sys.query, Sys.query, hclock, hfs, hf]
  cases faults s.clock <;> rfl

theorem Sys.tick_chdir (i : ℕ) : ((s.chdir i).query faults fun _ => .ok ()) =
    elsewhere i (s.query faults fun _ => .ok ()) := Sys.query_chdir faults rfl

theorem Sys.update_chdir {f : Fs → Except Errno Fs} {i : ℕ}
    (hf : f (s.fs.chdir i) = (f s.fs).map fun fs => fs.chdir i) :
    (s.chdir i).update faults f = elsewhere i (s.update faults f) := by
  have hfs : (s.chdir i).fs = s.fs.chdir i := rfl
  have hclock : (s.chdir i).clock = s.clock := rfl
  rw [Sys.update, Sys.update, Sys.query, Sys.query, hclock, hfs, hf]
  cases faults s.clock with
  | some e => rfl
  | none => cases f s.fs <;> rfl

end PosixFs
