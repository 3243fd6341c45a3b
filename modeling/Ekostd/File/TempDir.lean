/-
  `file.rs` — `TempDir`, a directory that removes itself and its contents.

  `remove_dir_all` reads the directory as it goes (`readdir`), asks of every
  name what it is (`lstat`), removes directories by recursion and everything
  else by `unlink`, and last removes the directory itself (`rmdir`).  No
  failure stops it.

  The recursion takes fuel, as it has no bound of its own; that it ends is to
  say that with fuel enough it does.  How many descriptors a process can have and
  how long a path can be is left out.

  * `CleansUp`: it ends, the directory and everything under it are gone, and
    nothing else;
  * `drop_cleans_up`: it does exactly if there is no NUL byte in the path, or
    there was nothing in the directory.
-/
import Ekostd.Daemonize.FormatPid
import Ekostd.File.CreateDirAll
import Ekostd.Lib.PosixClear

namespace Ekostd.File

open PosixFs Ekostd.Path List

variable (faults : ℕ → Option Errno)

/-- What `remove_dir_all` does about one name, with `rec` for its recursive call. -/
def removeChild (rec : Sys → Bytes → Option Unit × Sys) (s : Sys) (child : Bytes) :
    Option Unit × Sys :=
  match s.query faults fun fs => (fs.lstat (kernel child)).map (fileType fs) with
  | (.ok .dir, s) => rec s child
  | (_, s) => (some (), (s.update faults fun fs => fs.unlink (kernel child)).2)

/-- The loop of `remove_dir_all`, with the names still to be read. -/
def removeEntries (rec : Sys → Bytes → Option Unit × Sys) (path : Bytes) :
    List Bytes → Sys → Option Unit × Sys
  | [], s => (some (), (s.query faults fun _ => .ok ()).2)
  | name :: names, s =>
    match s.query faults fun _ => .ok () with
    | (.error _, s) => (some (), s)
    | (.ok (), s) =>
      let name := cstr (name ++ [0])
      if name = dot ∨ name = dotdot then removeEntries rec path names s
      else match removeChild faults rec s (join path name) with
        | (some (), s) => removeEntries rec path names s
        | (none, s) => (none, s)

/-- `remove_dir_all`; `none` is the answer of a removal that runs out of fuel. -/
def removeDirAll : ℕ → Sys → Bytes → Option Unit × Sys
  | 0, s, _ => (none, s)
  | fuel + 1, s, path =>
    match s.query faults fun fs => fs.opendir (kernel path) with
    | (.error _, s) => (some (), s)
    | (.ok dir, s) =>
      match removeEntries faults (removeDirAll fuel) path (Fs.names dir) s with
      | (some (), s) => (some (), (s.update faults fun fs => fs.rmdir (kernel path)).2)
      | (none, s) => (none, s)

/-- `TempDir`. -/
structure TempDir where
  path : Bytes
  deriving DecidableEq

/-- The loop of `new_in`, with the attempts left; `counter` is what `COUNTER` gives to each. -/
def TempDir.attempts (alloc : Fs.Alloc) (base pre suffix : Bytes) (pid : ℕ) (counter : ℕ → ℕ) :
    ℕ → Sys → Except Error TempDir × Sys
  | 0, s => (.error (.fromErrno Errno.EEXIST "tempdir"), s)
  | left + 1, s =>
    let name := pre ++ Daemonize.decimal pid ++ [45] ++ Daemonize.decimal (counter left) ++ suffix
    let path := join base name
    match mkdirCall faults alloc (asC path) 0o700 s with
    | (.ok (), s) => (.ok ⟨path⟩, s)
    | (.error e, s) =>
      if e ≠ Errno.EEXIST then (.error (.fromErrno e "mkdir"), s)
      else attempts alloc base pre suffix pid counter left s

/-- `TempDir::new_in`. -/
def TempDir.newIn (alloc : Fs.Alloc) (dir pre suffix : Bytes) (pid : ℕ) (counter : ℕ → ℕ)
    (s : Sys) : Except Error TempDir × Sys :=
  attempts faults alloc dir pre suffix pid counter 64 s

/-- `TempDir::drop`. -/
def TempDir.drop (fuel : ℕ) (self : TempDir) (s : Sys) : Option Unit × Sys :=
  removeDirAll faults fuel s self.path

/-- A removal ended: the directory `T` that `p` names is gone with everything under it, and nothing
    else is. -/
structure CleansUp (fs : Fs) (p : Bytes) (T : ℕ) (r : Option Unit × Sys) : Prop where
  ended : r.1 = some ()
  absent : r.2.fs.lstat p = .error Errno.ENOENT
  cleared : ∃ P n, fs.leaf p = .ok (P, n) ∧ fs.entry P n = some T ∧ Fs.Cleared P n T fs r.2.fs

variable {faults} {s t : Sys} {P T c : ℕ} {n m path q : Bytes}

/-! ## A directory that is made -/

theorem mkdirCall_ok {alloc : Fs.Alloc} {mode : ℕ} {u : Unit}
    (h : mkdirCall faults alloc (asC path) mode s = (.ok u, t)) :
    ∃ P n T, Fs.Made s.fs t.fs (kernel path) P n T :=
  Fs.mkdir_ok (Sys.update_ok faults h)

/-- **A success made the directory.** -/
theorem TempDir.newIn_ok {alloc : Fs.Alloc} {dir pre suffix : Bytes} {pid : ℕ} {counter : ℕ → ℕ}
    {self : TempDir} (h : newIn faults alloc dir pre suffix pid counter s = (.ok self, t)) :
    ∃ fs P n T, Fs.Made fs t.fs (kernel self.path) P n T := by
  unfold newIn at h
  generalize 64 = left at h
  induction left generalizing s with
  | zero => cases h
  | succ left ih =>
    rw [attempts] at h
    split at h
    · next u t' hcall =>
      cases h
      exact ⟨s.fs, mkdirCall_ok hcall⟩
    · split_ifs at h
      · cases h
      · exact ih h

theorem TempDir.newIn_made {alloc : Fs.Alloc} {dir pre suffix : Bytes} {pid : ℕ}
    {counter : ℕ → ℕ} {self : TempDir}
    (h : newIn faults alloc dir pre suffix pid counter s = (.ok self, t))
    (hT : t.fs.lstat (kernel self.path) = .ok T) :
    ∃ fs P n, Fs.Made fs t.fs (kernel self.path) P n T := by
  obtain ⟨fs, P, n, T', hmade⟩ := newIn_ok h
  obtain ⟨d, hd, -, -⟩ := hmade.dir
  have hlook := Fs.look_of_entry hmade.parent.1 hmade.valid.notDot hmade.valid.notDotdot
  rw [Fs.lstat_of_leaf (hmade.grown.leaf hmade.leaf) hlook hd] at hT
  obtain rfl := Except.ok.inj hT
  exact ⟨fs, P, n, hmade⟩

/-! ## A removal -/

/-- Without faults one name of a directory goes, with what is under it. -/
theorem removeChild_clears {rec : Sys → Bytes → Option Unit × Sys} (hnul : 0 ∉ q)
    (h : s.fs.Stands path P n T) (hq : Fs.Extends path m q) (hm : ValidName m)
    (hc : s.fs.entry T m = some c)
    (hrec : ∀ s', s'.fs = s.fs → s.fs.Stands q T m c →
      ∃ t, rec s' q = (some (), t) ∧ Fs.Cleared T m c s.fs t.fs) :
    ∃ t, removeChild (fun _ => none) rec s q = (some (), t) ∧ Fs.Cleared T m c s.fs t.fs := by
  have hlstat := (hq.entry hm h.leads hc).1
  unfold removeChild
  rw [kernel_of_notMem hnul]
  cases hdir : s.fs.dir? c with
  | some d =>
    have hsome : (s.fs.dir? c).isSome := by rw [hdir]; rfl
    have htype : fileType s.fs c = .dir := fileType_eq_dir.2 hsome
    simp only [Sys.query, hlstat, Except.map, htype]
    exact hrec _ rfl (h.child hq hm hc hsome)
  | none =>
    have htype : fileType s.fs c ≠ .dir := by simp [fileType_eq_dir.not, hdir]
    have hunlink := h.unlink hq hm hc hdir
    refine ⟨⟨s.fs.erase T m, s.clock + 2⟩, ?_, (Fs.bare_of_not_dir hdir).cleared T m⟩
    simp only [Sys.query, hlstat, Except.map]
    split
    · next heq => exact absurd (Except.ok.inj (Prod.mk.inj heq).1) htype
    · next heq =>
      obtain rfl := (Prod.mk.inj heq).2
      simp only [Sys.update_none, hunlink]

theorem removeEntries_cons {rec : Sys → Bytes → Option Unit × Sys} {names : List Bytes}
    (hm : ValidName m) (s : Sys) :
    removeEntries (fun _ => none) rec path (m :: names) s =
      match removeChild (fun _ => none) rec ⟨s.fs, s.clock + 1⟩ (join path m) with
      | (some (), s) => removeEntries (fun _ => none) rec path names s
      | (none, s) => (none, s) := by
  have hname : cstr (m ++ [0]) = m := (cstr_eq_iff []).2 hm.noNul
  simp only [removeEntries, Sys.query, hname, hm.notDot, hm.notDotdot, or_self, if_false]

theorem removeEntries_names {rec : Sys → Bytes → Option Unit × Sys} (d : Dir) (s : Sys) :
    removeEntries (fun _ => none) rec path (Fs.names d) s =
      removeEntries (fun _ => none) rec path (d.entries.map Prod.fst) ⟨s.fs, s.clock + 2⟩ := by
  have hdot : cstr (dot ++ [0]) = dot := by decide
  have hdotdot : cstr (dotdot ++ [0]) = dotdot := by decide
  simp [Fs.names, removeEntries, Sys.query, hdot, hdotdot]

/-- **The loop** empties the directory, if the recursive calls do theirs. -/
theorem removeEntries_clears {rec : Sys → Bytes → Option Unit × Sys} {es : List (Bytes × ℕ)}
    (hnul : 0 ∉ path)
    (hrec : ∀ s' : Sys, Fs.Erased s.fs s'.fs → ∀ q m c, 0 ∉ q → s'.fs.Stands q T m c →
      ∃ t, rec s' q = (some (), t) ∧ Fs.Cleared T m c s'.fs t.fs)
    (hvalid : ∀ e ∈ es, ValidName e.1) (hnodup : (es.map Prod.fst).Nodup)
    (h : s.fs.Stands path P n T) (hes : ∀ e ∈ es, s.fs.entry T e.1 = some e.2) :
    ∃ t, removeEntries (fun _ => none) rec path (es.map Prod.fst) s = (some (), t) ∧
      Fs.Frame (fun i _ => s.fs.Under T i) s.fs t.fs ∧ Fs.Swept s.fs t.fs ∧
      ∀ e ∈ es, t.fs.entry T e.1 = none := by
  induction es generalizing s with
  | nil => exact ⟨_, rfl, Fs.Frame.refl _ s.fs, Fs.Swept.refl s.fs, by simp⟩
  | cons e es ih =>
    obtain ⟨m, c⟩ := e
    rw [map_cons, nodup_cons] at hnodup
    have hm : ValidName m := hvalid _ mem_cons_self
    have hc : s.fs.entry T m = some c := hes _ mem_cons_self
    obtain ⟨t, ht, hclear⟩ := removeChild_clears (s := ⟨s.fs, s.clock + 1⟩)
      (join_noNul hnul hm.noNul) h (join_extends hm h.leads.1) hm hc
      fun s' hs' hstands => by
        obtain ⟨t, ht, hclear⟩ := hrec s' (by rw [hs']; exact Fs.Erased.refl _) _ m c
          (join_noNul hnul hm.noNul) (by rw [hs']; exact hstands)
        exact ⟨t, ht, by rwa [hs'] at hclear⟩
    have hframe := hclear.frame hc
    -- the other entries are still there
    have hrest : ∀ e ∈ es, t.fs.entry T e.1 = some e.2 := by
      intro e he
      have hne : e.1 ≠ m := fun hname => hnodup.1 (mem_map.2 ⟨e, he, hname⟩)
      rw [hclear.other hc hne]
      exact hes e (mem_cons_of_mem _ he)
    obtain ⟨t', ht', hframe', hswept', hgone'⟩ := ih (s := t)
      (fun s' he => hrec s' (hframe.erased.trans he))
      (fun e he => hvalid e (mem_cons_of_mem _ he)) hnodup.2 (h.frame hframe) hrest
    refine ⟨t', ?_, hframe.trans (hframe'.mono fun _ _ hu => hu.mono hframe.erased),
      (hclear.swept hc).trans hframe.erased hswept' hframe'.erased, ?_⟩
    · rw [map_cons, removeEntries_cons hm, ht]
      exact ht'
    · intro e he
      rcases mem_cons.1 he with rfl | he
      · exact hframe'.erased.entry_none hclear.gone
      · exact hgone' e he

/-- **A removal clears its directory**, without faults: by induction on its fuel, of which it takes
    as much as there are directories on the way down. -/
theorem removeDirAll_clears {height : ℕ → ℕ} {fuel : ℕ} (hnul : 0 ∉ path)
    (hheight : ∀ i j, s.fs.Child i j → height j < height i) (hfuel : height T < fuel)
    (h : s.fs.Stands path P n T) :
    ∃ t, removeDirAll (fun _ => none) fuel s path = (some (), t) ∧
      Fs.Cleared P n T s.fs t.fs := by
  induction fuel generalizing s path P n T with
  | zero => cases hfuel
  | succ fuel ih =>
    obtain ⟨d, hd⟩ := Option.isSome_iff_exists.1 h.dir
    obtain ⟨t, ht, hframe, hswept, hgone⟩ := removeEntries_clears
      (s := ⟨s.fs, s.clock + 3⟩) hnul
      (fun s' he q m c hq hstands => by
        have hchild := he.child hstands.child_root
        have hlt := hheight T c hchild
        exact ih hq (fun i j hc => hheight i j (he.child hc)) (by omega) hstands)
      d.valid d.nodup h fun e he => by rw [Fs.entry_eq hd, Dir.lookup_eq_some.2 he]
    have hbare : t.fs.Bare T := by
      intro m
      cases hm : s.fs.entry T m with
      | none => exact hframe.erased.entry_none hm
      | some c =>
        rw [Fs.entry_eq hd, Dir.lookup_eq_some] at hm
        exact hgone (m, c) hm
    refine ⟨⟨t.fs.erase P n, t.clock + 1⟩, ?_, Fs.cleared_erase hframe hswept hbare P n⟩
    rw [removeDirAll, kernel_of_notMem hnul]
    simp only [Sys.query, h.leads.opendir hd, removeEntries_names, ht, Sys.update_none,
      (h.frame hframe).rmdir hbare]

/-! ## A path with NUL -/

theorem removeDirAll_bare {fuel : ℕ} (h : s.fs.Stands (kernel path) P n T) (hbare : s.fs.Bare T) :
    ∃ t, removeDirAll (fun _ => none) (fuel + 1) s path = (some (), t) ∧
      Fs.Cleared P n T s.fs t.fs := by
  obtain ⟨d, hd⟩ := Option.isSome_iff_exists.1 h.dir
  refine ⟨⟨s.fs.erase P n, s.clock + 5⟩, ?_, hbare.cleared P n⟩
  simp only [removeDirAll, Sys.query, h.leads.opendir hd, removeEntries_names,
    (Fs.bare_iff hd).1 hbare, map_nil, removeEntries, Sys.update_none, h.rmdir hbare]

/-- **With a NUL byte in the path** the removal of a directory that is not empty never ends: to the
    kernel the path of every name in it is the path of the directory. -/
theorem removeDirAll_endless (hnul : 0 ∈ path) (h : s.fs.Stands (kernel path) P n T)
    (hbare : ¬ s.fs.Bare T) (fuel : ℕ) : (removeDirAll (fun _ => none) fuel s path).1 = none := by
  induction fuel generalizing s path with
  | zero => rfl
  | succ fuel ih =>
    obtain ⟨d, hd⟩ := Option.isSome_iff_exists.1 h.dir
    obtain ⟨⟨m, c⟩, es, hes⟩ := exists_cons_of_ne_nil (mt (Fs.bare_iff hd).2 hbare)
    have hm : ValidName m := d.valid (m, c) (by rw [hes]; exact mem_cons_self)
    obtain ⟨r, hr⟩ := join_prefix (p := path) hm
    have hkernel : kernel (join path m) = kernel path := by rw [hr, kernel_append hnul]
    have hlstat : s.fs.lstat (kernel path) = .ok T := h.lstat
    have htype : fileType s.fs T = .dir := fileType_eq_dir.2 h.dir
    have hrec : (removeDirAll (fun _ => none) fuel ⟨s.fs, s.clock + 5⟩ (join path m)).1 = none :=
      ih (by rw [hr]; exact mem_append_left _ hnul) (by rw [hkernel]; exact h) hbare
    rw [removeDirAll]
    simp only [Sys.query, h.leads.opendir hd, removeEntries_names, hes, map_cons,
      removeEntries_cons hm, removeChild, hkernel, hlstat, Except.map, htype]
    split
    · next heq =>
      split at heq
      · next hdone => simp only [hdone] at hrec; cases hrec
      · cases heq
    · rfl

/-- **When a dropped `TempDir` cleans up**, without faults and whatever was put into it: exactly if
    there is no NUL byte in its path, or nothing was put into it.  Descriptors do not run out, of
    which it holds one for each level, nor is a path ever too long. -/
theorem TempDir.drop_cleans_up {alloc : Fs.Alloc} {dir pre suffix : Bytes} {pid : ℕ}
    {counter : ℕ → ℕ} {self : TempDir} {fs : Fs}
    (hnew : newIn faults alloc dir pre suffix pid counter s = (.ok self, t))
    (hT : t.fs.lstat (kernel self.path) = .ok T) (hfill : Fs.Filled T t.fs fs) (clock : ℕ) :
    (∃ enough, ∀ fuel ≥ enough,
      CleansUp fs (kernel self.path) T (self.drop (fun _ => none) fuel ⟨fs, clock⟩)) ↔
    0 ∉ self.path ∨ fs.Bare T := by
  obtain ⟨fs₀, P, n, hmade⟩ := newIn_made hnew hT
  have hstands := hmade.stands hfill
  have hclean : ∀ {r : Option Unit × Sys}, r.1 = some () → Fs.Cleared P n T fs r.2.fs →
      CleansUp fs (kernel self.path) T r := fun hended hclear =>
    ⟨hended, hmade.absent hfill hclear, P, n, hstands.here.1, hstands.here.2, hclear⟩
  constructor
  · rintro ⟨enough, h⟩
    by_contra! hnot
    have hended := (h enough le_rfl).ended
    rw [drop, removeDirAll_endless (s := ⟨fs, clock⟩) hnot.1 hstands hnot.2] at hended
    cases hended
  · rintro (hnul | hbare)
    · obtain ⟨height, hheight⟩ := fs.exists_height
      refine ⟨height T + 1, fun fuel hfuel => ?_⟩
      rw [kernel_of_notMem hnul] at hstands
      obtain ⟨t', ht', hclear⟩ :=
        removeDirAll_clears (s := ⟨fs, clock⟩) hnul hheight hfuel hstands
      rw [drop, ht']
      exact hclean rfl hclear
    · refine ⟨1, fun fuel hfuel => ?_⟩
      obtain ⟨fuel, rfl⟩ := Nat.exists_eq_add_of_le' hfuel
      obtain ⟨t', ht', hclear⟩ : ∃ t', removeDirAll (fun _ => none) (fuel + 1) ⟨fs, clock⟩
          self.path = (some (), t') ∧ Fs.Cleared P n T fs t'.fs :=
        removeDirAll_bare hstands hbare
      rw [drop, ht']
      exact hclean rfl hclear

/-- A working directory without entries. -/
def emptyCwd : Fs where
  nodes
    | 0 => some (.dir ⟨0, [], nodup_nil, Dir.valid_nil⟩)
    | _ => none
  root := 0
  cwd := 0
  parents i d h := by
    split at h
    · cases h
      exact ⟨_, rfl⟩
    · cases h
  acyclic := by
    refine ⟨fun _ => 0, fun i d n j e hi hn _ => ?_⟩
    split at hi
    · cases hi
      cases hn
    · cases hi

theorem emptyCwd_dir : (emptyCwd.dir? 0).isSome := rfl

theorem emptyCwd_bare (i : ℕ) : emptyCwd.Bare i := by
  intro m
  cases i with
  | zero => rfl
  | succ i => rfl

theorem one_not_used : ¬ emptyCwd.Used 1 := by
  rintro (h | h | h | ⟨i, n, h⟩)
  · exact h rfl
  · cases h
  · cases h
  · rw [emptyCwd_bare i n] at h
    cases h

open Classical in
/-- The next number. -/
noncomputable def next (fs : Fs) : Option {j // ¬ fs.Used j} :=
  if h : fs.Used 1 then none else some ⟨1, h⟩

/-- The working directory with the new directory `n`. -/
def withDir (n : Bytes) (hn : ValidName n) : Fs :=
  emptyCwd.insert 0 n 1 hn emptyCwd_dir one_not_used

theorem withDir_dir (hn : ValidName n) : ((withDir n hn).dir? 1).isSome := rfl

theorem two_not_used (hn : ValidName n) : ¬ (withDir n hn).Used 2 := by
  rintro (h | h | h | ⟨i, m, h⟩)
  · exact h rfl
  · cases h
  · cases h
  · rw [withDir, Fs.entry_insert _ _ _ (emptyCwd_bare 0 n)] at h
    split_ifs at h
    · cases h
    · rw [emptyCwd_bare i m] at h
      cases h

/-- The same with the directory `x` in it. -/
def withContents (n : Bytes) (hn : ValidName n) : Fs :=
  (withDir n hn).insert 1 [120] 2 (by decide) (withDir_dir hn) (two_not_used hn)

theorem filled_withContents (hn : ValidName n) :
    Fs.Filled 1 (withDir n hn) (withContents n hn) :=
  Fs.Bare.filled_insert (fun _ => rfl) _ _ _

theorem newIn_withDir (pre : Bytes) (hn : ValidName n)
    (hpath : kernel (pre ++ [49, 45, 48]) = n) :
    TempDir.newIn (fun _ => none) next [] pre [] 1 (fun _ => 0) ⟨emptyCwd, 0⟩ =
      (.ok ⟨pre ++ [49, 45, 48]⟩, ⟨withDir n hn, 1⟩) := by
  have hname : pre ++ Daemonize.decimal 1 ++ [45] ++ Daemonize.decimal 0 ++ [] =
      pre ++ [49, 45, 48] := by simp [Daemonize.decimal]
  have hjoin : join [] (pre ++ [49, 45, 48]) = pre ++ [49, 45, 48] := by simp [join, push]
  have hnext : next emptyCwd = some ⟨1, one_not_used⟩ := dif_neg one_not_used
  have hmk : Fs.mkdir next n emptyCwd = .ok (withDir n hn) := by
    have hstart : emptyCwd.start emptyCwd.cwd n = 0 := by
      unfold Fs.start
      split_ifs <;> rfl
    simp only [Fs.mkdir, pieces_of_notMem hn.noSlash hn.nonempty, getLast?_singleton,
      dropLast_singleton, Fs.walkFrom, hstart, Fs.walk_nil]
    exact Fs.mkdirIn_new rfl hn rfl hnext
  rw [TempDir.newIn, TempDir.attempts]
  simp only [hname, hjoin, mkdirCall]
  rw [Sys.update_none, ← kernel, hpath, hmk]

/-- The prefix `t`, and the directory `x` put into the new one. -/
theorem TempDir.drop_cleans_up_contents :
    (∃ enough, ∀ fuel ≥ enough,
      CleansUp (withContents [116, 49, 45, 48] (by decide)) (kernel [116, 49, 45, 48]) 1
        (drop (fun _ => none) fuel ⟨[116, 49, 45, 48]⟩
          ⟨withContents [116, 49, 45, 48] (by decide), 1⟩)) ↔
    0 ∉ ([116, 49, 45, 48] : Bytes) ∨ (withContents [116, 49, 45, 48] (by decide)).Bare 1 :=
  drop_cleans_up (newIn_withDir [116] (by decide) (by decide)) rfl
    (filled_withContents (by decide)) 1

/-- **The prefix `t` and a NUL byte**: the directory `t` is made, the directory `x` is put into it,
    and the drop never ends. -/
theorem TempDir.drop_never_ends :
    newIn (fun _ => none) next [] [116, 0] [] 1 (fun _ => 0) ⟨emptyCwd, 0⟩ =
      (.ok ⟨[116, 0, 49, 45, 48]⟩, ⟨withDir [116] (by decide), 1⟩) ∧
    (withDir [116] (by decide)).lstat (kernel [116, 0, 49, 45, 48]) = .ok 1 ∧
    Fs.Filled 1 (withDir [116] (by decide)) (withContents [116] (by decide)) ∧
    ∀ fuel, (drop (fun _ => none) fuel ⟨[116, 0, 49, 45, 48]⟩
      ⟨withContents [116] (by decide), 1⟩).1 = none := by
  have hnew := newIn_withDir (n := [116]) [116, 0] (by decide) (by decide)
  have hfill := filled_withContents (n := [116]) (by decide)
  obtain ⟨fs₀, P, n, hmade⟩ := newIn_made hnew rfl
  refine ⟨hnew, rfl, hfill, removeDirAll_endless (by decide) (hmade.stands hfill) fun hbare => ?_⟩
  exact absurd (hbare [120]) (by decide)

end Ekostd.File
