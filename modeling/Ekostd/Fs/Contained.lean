/-
  `fs.rs` — what a recursive removal removes.

  The path is resolved anew by every call, while the removal goes on.  What
  keeps it in its tree is that resolution is monotone: a path that led to a
  directory leads there or nowhere when some names are gone, and every child
  is asked for its own name.  Only the listing of the path that the removal
  was called with follows a link that this path ends in, and that is where it
  leaves the tree.

  * `removes_below`: a removal of a directory, by induction on its fuel;
  * `removes_something`: without faults it removes something there, by
    induction on the tree;
  * `contained_iff`: the two together.
-/
import Ekostd.Fs.RemoveDirAll

namespace Ekostd.Fs

open PosixFs Ekostd.File Ekostd.Path

/-- From `fs` to `fs'`, only the name `p` itself, and names under `p` if it is a directory, through
    directories only, are gone; and if `p` is a link, then nothing is gone of what it points at
    and of what is in it. -/
structure Contained (fs fs' : Fs) (p : Bytes) : Prop where
  frame : Fs.Frame (fun i n => fs.leaf p = .ok (i, n) ∨
    ∃ E, fs.lstat p = .ok E ∧ (fs.dir? E).isSome ∧ fs.Under E i) fs fs'
  target : ∀ i t D, fs.lstat p = .ok i → fs.nodes i = some (.link t) → fs.resolve p = .ok D →
    ∀ j n, fs.Under D j → fs'.entry j n = fs.entry j n

/-- The path names a link that leads to a directory which is not empty; and, if it has a NUL byte, so
    that the kernel sees the part before it only, the link itself is in that directory or under
    it. -/
def Astray (fs : Fs) (path : Bytes) : Prop :=
  ∃ i t D d, fs.lstat (kernel path) = .ok i ∧ fs.nodes i = some (.link t) ∧
    fs.resolve (kernel path) = .ok D ∧ fs.dir? D = some d ∧ d.entries ≠ [] ∧
    (0 ∈ path → ∃ j n, fs.leaf (kernel path) = .ok (j, n) ∧ fs.Under D j)

theorem Contained.refl (fs : Fs) (p : Bytes) : Contained fs fs p :=
  ⟨Fs.Frame.refl _ fs, fun _ _ _ _ _ _ _ _ _ => rfl⟩

variable (faults : ℕ → Option Errno)

/-! ## A directory -/

/-- **A removal of a directory** removes its name and names under it. -/
theorem removes_below (fuel : ℕ) (s : Sys) {path : Bytes} {E : ℕ} (hpath : 0 ∉ path)
    (hE : s.fs.lstat path = .ok E) (hdir : (s.fs.dir? E).isSome) :
    Fs.Frame (fun i n => s.fs.leaf path = .ok (i, n) ∨ s.fs.Under E i) s.fs
      (removeDirAll faults fuel s path).2.fs := by
  induction fuel generalizing s path E with
  | zero => exact Fs.Frame.refl _ s.fs
  | succ fuel ih =>
    obtain ⟨dE, hdE⟩ := Option.isSome_iff_exists.1 hdir
    have hleads : s.fs.Leads path E := Fs.leads_of_lstat hE hdE
    refine removeDirAll_keeps faults
      (I := Fs.Frame (fun i n => s.fs.leaf path = .ok (i, n) ∨ s.fs.Under E i) s.fs)
      (Fs.Frame.refl _ s.fs) fun children t ht => ⟨?_, ?_⟩
    · obtain ⟨hfs, d, hd, hchild⟩ := readDir_ok faults ht
      rw [kernel_of_notMem hpath, hleads.opendir hdE] at hd
      obtain rfl := Except.ok.inj hd
      -- where a child's path leads, whatever is gone by then
      have hlooks : ∀ {fs' : Fs} {e i}, s.fs.Erased fs' → e ∈ dE.entries →
          fs'.lstat (join path e.1) = .ok i → fs'.look E e.1 = .ok i := by
        intro fs' e i her he hi
        obtain ⟨cur, b, hw, hl⟩ := (join_extends (dE.valid e he) hleads.1).lstat hi
        rwa [her.leads_eq hleads hw] at hl
      have hleaf : ∀ {fs' : Fs} {e j n}, s.fs.Erased fs' → e ∈ dE.entries →
          fs'.leaf (join path e.1) = .ok (j, n) → j = E := by
        intro fs' e j n her he hl
        obtain ⟨cur, b, hw, hr⟩ := (join_extends (dE.valid e he) hleads.1).leaf hl
        rw [(Prod.mk.inj hr).1, her.leads_eq hleads hw]
      refine removeChildren_keeps faults ?_ ?_ (by rw [hfs]; exact Fs.Frame.refl _ s.fs)
      · intro c hc t i ht hi hdi
        obtain ⟨e, he, rfl⟩ := hchild c hc
        have hnul := join_noNul hpath (dE.valid e he).noNul
        rw [kernel_of_notMem hnul] at hi
        refine ht.trans ((ih t hnul hi hdi).mono fun j n hj => Or.inr ?_)
        rcases hj with hj | hj
        · rw [hleaf ht.erased he hj]; exact Relation.ReflTransGen.refl
        · have hlook := ht.erased.look (hlooks ht.erased he hi)
          rw [ht.erased.isSome] at hdi
          obtain ⟨di, hdi⟩ := Option.isSome_iff_exists.1 hdi
          have hentry : s.fs.entry E e.1 = some i := by
            have hv := dE.valid e he
            simp only [Fs.look, hdE, hv.notDot, hv.notDotdot, if_false] at hlook
            rw [Fs.entry_eq hdE]
            split at hlook
            · cases hlook
            · next j' hj' => rw [hj', Except.ok.inj hlook]
          exact Fs.Under.head hentry hdi (Fs.Under.mono ht.erased hj)
      · intro c hc t i ht _
        obtain ⟨e, he, rfl⟩ := hchild c hc
        have hnul := join_noNul hpath (dE.valid e he).noNul
        refine ht.trans (Fs.frame_update faults t Fs.unlink_ok fun j n hj => Or.inr ?_)
        rw [kernel_of_notMem hnul] at hj
        rw [hleaf ht.erased he hj]
        exact Relation.ReflTransGen.refl
    · intro t ht
      rw [rmdir_fs]
      refine ht.trans (Fs.frame_update faults t Fs.rmdir_ok fun j n hj => Or.inl ?_)
      rw [kernel_of_notMem hpath] at hj
      exact ht.erased.leaf hj

/-! ## A path with NUL -/

/-- With a NUL byte in it, every path that the removal makes is the same one to the kernel. -/
theorem removes_own (fuel : ℕ) (s : Sys) {path : Bytes} (hpath : 0 ∈ path) :
    Fs.Frame (fun i n => s.fs.leaf (kernel path) = .ok (i, n)) s.fs
      (removeDirAll faults fuel s path).2.fs := by
  induction fuel generalizing s path with
  | zero => exact Fs.Frame.refl _ s.fs
  | succ fuel ih =>
    refine removeDirAll_keeps faults
      (I := Fs.Frame (fun i n => s.fs.leaf (kernel path) = .ok (i, n)) s.fs)
      (Fs.Frame.refl _ s.fs) fun children t ht => ⟨?_, ?_⟩
    · obtain ⟨hfs, d, -, hchild⟩ := readDir_ok faults ht
      have hsame : ∀ c ∈ children, kernel c = kernel path ∧ 0 ∈ c := by
        intro c hc
        obtain ⟨e, he, rfl⟩ := hchild c hc
        obtain ⟨q, hq⟩ := join_prefix (p := path) (d.valid e he)
        rw [hq]
        exact ⟨kernel_append hpath q, List.mem_append_left _ hpath⟩
      refine removeChildren_keeps faults ?_ ?_ (by rw [hfs]; exact Fs.Frame.refl _ s.fs)
      · intro c hc t i ht _ _
        obtain ⟨hk, hnul⟩ := hsame c hc
        refine ht.trans ((ih t hnul).mono fun j n hj => ?_)
        rw [hk] at hj
        exact ht.erased.leaf hj
      · intro c hc t i ht _
        refine ht.trans (Fs.frame_update faults t Fs.unlink_ok fun j n hj => ?_)
        rw [(hsame c hc).1] at hj
        exact ht.erased.leaf hj
    · intro t ht
      rw [rmdir_fs]
      exact ht.trans (Fs.frame_update faults t Fs.rmdir_ok fun j n hj => ht.erased.leaf hj)

/-! ## A name that is no directory -/

theorem under_nonempty {fs : Fs} {D j k : ℕ} {n : Bytes} (h : fs.Under D j)
    (hn : fs.entry j n = some k) : ∃ d, fs.dir? D = some d ∧ d.entries ≠ [] := by
  have hne : ∀ {m i}, fs.entry D m = some i → ∃ d, fs.dir? D = some d ∧ d.entries ≠ [] := by
    intro m i hm
    obtain ⟨d, hd, hl⟩ := Option.bind_eq_some_iff.1 hm
    refine ⟨d, hd, fun he => ?_⟩
    simp [Dir.lookup, he] at hl
  rcases Relation.ReflTransGen.cases_head h with rfl | ⟨c, ⟨⟨m, hm⟩, -⟩, -⟩
  · exact hne hn
  · exact hne hm

/-- **A removal of a name that is no directory** does nothing, unless it is a link that leads to a
    directory which is not empty. -/
theorem removes_nothing (fuel : ℕ) (s : Sys) {path : Bytes} (hpath : 0 ∉ path)
    (hdir : ∀ E, s.fs.lstat path = .ok E → s.fs.dir? E = none) (hA : ¬ Astray s.fs path) :
    (removeDirAll faults fuel s path).2.fs = s.fs := by
  cases fuel with
  | zero => rfl
  | succ fuel =>
    refine removeDirAll_keeps faults (I := fun fs => fs = s.fs) rfl fun children t ht => ?_
    obtain ⟨hfs, d, hd, hchild⟩ := readDir_ok faults ht
    rw [kernel_of_notMem hpath] at hd
    obtain ⟨D, i, hD, hdD, hi, hlink⟩ := Fs.lstat_of_opendir hd
    have hnone := hdir i hi
    constructor
    · have hempty : d.entries = [] := by
        rcases hlink with ⟨link, hlink⟩ | rfl
        · by_contra hne
          refine hA ⟨i, link, D, d, ?_, hlink, ?_, hdD, hne, fun h0 => absurd h0 hpath⟩
          · rwa [kernel_of_notMem hpath]
          · rwa [kernel_of_notMem hpath]
        · rw [hdD] at hnone; cases hnone
      have hnil : children = [] := by
        by_contra hne
        obtain ⟨c, hc⟩ := List.exists_mem_of_ne_nil _ hne
        obtain ⟨e, he, -⟩ := hchild c hc
        rw [hempty] at he; cases he
      rw [hnil]
      exact hfs
    · intro t' ht'
      obtain ⟨-, -, -, -, -, hrmdir⟩ := Fs.leaf_of_lstat hi hnone
      rw [rmdir_fs, kernel_of_notMem hpath]
      rcases t'.update_fs faults fun fs => fs.rmdir path with h | h
      · rw [h, ht']
      · rw [ht'] at h
        exact absurd h (hrmdir _)

/-- **A removal that does not go astray is contained.** -/
theorem contained_of_not_astray (fuel : ℕ) (s : Sys) {path : Bytes} (hA : ¬ Astray s.fs path) :
    Contained s.fs (removeDirAll faults fuel s path).2.fs (kernel path) := by
  by_cases hpath : 0 ∈ path
  · have hframe := removes_own faults fuel s hpath
    refine ⟨hframe.mono fun _ _ h => Or.inl h, fun i t D hi ht hD j n hj => ?_⟩
    -- what is gone was there, and it is the link's own name
    by_contra hne
    have hthere : s.fs.entry j n ≠ none := fun h0 => hne (by rw [h0, hframe.erased.entry_none h0])
    obtain ⟨k, hk⟩ := Option.ne_none_iff_exists'.1 hthere
    obtain ⟨d, hd, hdne⟩ := under_nonempty hj hk
    exact hA ⟨i, t, D, d, hi, ht, hD, hd, hdne, fun _ => ⟨j, n, hframe.only j n hne, hj⟩⟩
  · by_cases hdir : ∃ E, s.fs.lstat path = .ok E ∧ (s.fs.dir? E).isSome
    · obtain ⟨E, hE, hdE⟩ := hdir
      rw [kernel_of_notMem hpath]
      refine ⟨(removes_below faults fuel s hpath hE hdE).mono fun i n h => ?_,
        fun i t D hi ht _ => ?_⟩
      · rcases h with h | h
        · exact Or.inl h
        · exact Or.inr ⟨E, hE, hdE, h⟩
      · rw [hE] at hi
        obtain rfl := Except.ok.inj hi
        simp [Fs.dir?, ht] at hdE
    · rw [removes_nothing faults fuel s hpath (fun E hE => ?_) hA]
      · exact Contained.refl _ _
      · by_contra hne
        exact hdir ⟨E, hE, Option.isSome_iff_ne_none.2 hne⟩

/-! ## What is lost -/

theorem readEntries_none (path : Bytes) (out : List Bytes) (es : List (Bytes × ℕ))
    (hes : ∀ e ∈ es, ValidName e.1) (s : Sys) :
    ∃ t : Sys, t.fs = s.fs ∧ readEntries (fun _ => none) path (es.map Prod.fst) out s =
      (.ok (out ++ es.map fun e => join path e.1), t) := by
  induction es generalizing out s with
  | nil => exact ⟨{ s with clock := s.clock + 1 }, rfl, by simp [readEntries, Sys.query]⟩
  | cons e es ih =>
    have hv := hes e List.mem_cons_self
    have hname : cstr (e.1 ++ [0]) = e.1 := by rw [← asC, ← kernel, kernel_of_notMem hv.noNul]
    obtain ⟨t, ht, hread⟩ := ih (out ++ [join path e.1])
      (fun e he => hes e (List.mem_cons_of_mem _ he)) { s with clock := s.clock + 1 }
    refine ⟨t, ht, ?_⟩
    simp only [List.map_cons, readEntries, Sys.query, hname, hv.notDot, hv.notDotdot, or_self,
      if_false, hread, List.append_assoc, List.singleton_append]

theorem readDir_none {s : Sys} {p : Bytes} {d : Dir}
    (hd : s.fs.opendir (kernel p) = .ok d) :
    ∃ t : Sys, t.fs = s.fs ∧ readDir (fun _ => none) s p =
      (.ok (d.entries.map fun e => join p e.1), t) := by
  obtain ⟨t, ht, hread⟩ := readEntries_none p [] d.entries d.valid
    { s with clock := s.clock + 3 }
  refine ⟨t, ht, ?_⟩
  have hdot : cstr (dot ++ [0]) = dot := by decide
  have hdotdot : cstr (dotdot ++ [0]) = dotdot := by decide
  simp [readDir, Sys.query, hd, Fs.names, readEntries, hdot, hdotdot, hread]

/-- What is gone when the first child was dealt with is gone in the end. -/
theorem erased_after_first (fuel : ℕ) {s t t₁ : Sys} {path c : Bytes} {cs : List Bytes}
    {link : Metadata} (hread : readDir faults s path = (.ok (c :: cs), t))
    (hstat : symlinkMetadata faults t c = (.ok link, t₁)) :
    (if link.isDir then (removeDirAll faults fuel t₁ c).2 else unlink faults t₁ c).fs.Erased
      (removeDirAll faults (fuel + 1) s path).2.fs := by
  have hrest : ∀ {fs₀ : Fs} (t : Sys), fs₀.Erased t.fs →
      fs₀.Erased (removeChildren faults (removeDirAll faults fuel) cs t).2.fs := by
    intro fs₀ t ht
    exact removeChildren_keeps faults (I := fs₀.Erased)
      (fun c _ t _ ht _ _ => ht.trans (removeDirAll_erased faults fuel t c))
      (fun c _ t _ ht _ => ht.trans (unlink_erased faults t c)) ht
  have hend : ∀ {fs₀ : Fs},
      fs₀.Erased (removeChildren faults (removeDirAll faults fuel) (c :: cs) t).2.fs →
      fs₀.Erased (removeDirAll faults (fuel + 1) s path).2.fs := by
    intro fs₀ hloop
    rw [removeDirAll, hread]
    simp only
    split
    · next t₂ ht₂ =>
      rw [ht₂] at hloop
      exact hloop.trans (rmdir_erased faults t₂ path)
    · exact hloop
  apply hend
  rw [removeChildren, hstat]
  simp only
  split_ifs
  · split
    · next t₂ ht₂ => rw [ht₂]; exact hrest t₂ (Fs.Erased.refl _)
    · exact Fs.Erased.refl _
  · exact hrest _ (Fs.Erased.refl _)

theorem symlinkMetadata_none {s t : Sys} {p : Bytes} {i : ℕ} (hfs : t.fs = s.fs)
    (hi : s.fs.lstat (kernel p) = .ok i) :
    symlinkMetadata (fun _ => none) t p =
      (.ok ⟨fileType s.fs i⟩, { t with clock := t.clock + 1 }) := by
  simp [symlinkMetadata, Sys.query, hfs, hi, Except.map]

theorem unlink_first (fuel : ℕ) {s : Sys} {path c : Bytes} {cs : List Bytes} {i j : ℕ}
    {n : Bytes} {t : Sys} (hread : readDir (fun _ => none) s path = (.ok (c :: cs), t))
    (hfs : t.fs = s.fs) (hi : s.fs.lstat (kernel c) = .ok i) (hdir : s.fs.dir? i = none)
    (hleaf : s.fs.leaf (kernel c) = .ok (j, n)) :
    s.fs.entry j n = some i ∧
      (removeDirAll (fun _ => none) (fuel + 1) s path).2.fs.entry j n = none := by
  obtain ⟨j', n', hleaf', hentry, hunlink, -⟩ := Fs.leaf_of_lstat hi hdir
  obtain ⟨rfl, rfl⟩ := Prod.mk.inj (Except.ok.inj (hleaf.symm.trans hleaf'))
  have hno : (⟨fileType s.fs i⟩ : Metadata).isDir = false := by
    simp [Metadata.isDir, fileType_eq_dir, hdir]
  have herased := erased_after_first (fun _ => none) fuel hread (symlinkMetadata_none hfs hi)
  rw [hno, if_neg (by simp)] at herased
  refine ⟨hentry, herased.entry_none ?_⟩
  simp [unlink, Sys.update, Sys.query, hfs, hunlink, Fs.entry_erase]

theorem removes_empty (fuel : ℕ) {s : Sys} {path : Bytes} {P T : ℕ} {n : Bytes} {d : Dir}
    (hpath : 0 ∉ path) (hT : s.fs.Leads path T) (hd : s.fs.dir? T = some d)
    (hempty : d.entries = []) (hrm : s.fs.rmdir path = .ok (s.fs.erase P n)) :
    (removeDirAll (fun _ => none) (fuel + 1) s path).2.fs.entry P n = none := by
  obtain ⟨t, ht, hread⟩ := readDir_none (s := s) (p := path) (d := d)
    (by rw [kernel_of_notMem hpath]; exact hT.opendir hd)
  rw [hempty, List.map_nil] at hread
  simp [removeDirAll, hread, removeChildren, rmdir, Sys.update, Sys.query,
    kernel_of_notMem hpath, ht, hrm, Fs.entry_erase]

/-- **Without faults something is removed**: a removal of a directory that is not empty, with fuel
    enough, makes a name go that was in it or under it. -/
theorem removes_something {fs : Fs} {E : ℕ} {d : Dir} {path : Bytes} (hpath : 0 ∉ path)
    (hE : fs.Leads path E) (hd : fs.dir? E = some d) (hne : d.entries ≠ []) :
    ∃ fuel, ∀ s : Sys, s.fs = fs → ∃ j n, fs.Under E j ∧ fs.entry j n ≠ none ∧
      (removeDirAll (fun _ => none) fuel s path).2.fs.entry j n = none := by
  induction E using fs.wellFounded_child.induction generalizing d path with
  | _ E ih =>
    obtain ⟨⟨m, i⟩, es, hes⟩ := List.exists_cons_of_ne_nil hne
    have hmem : (m, i) ∈ d.entries := by rw [hes]; exact List.mem_cons_self
    have hv : ValidName m := d.valid _ hmem
    have hentry : fs.entry E m = some i := by
      rw [Fs.entry_eq hd]; exact Dir.lookup_eq_some.2 hmem
    have hext : Fs.Extends path m (join path m) := join_extends hv hE.1
    have hnul : 0 ∉ join path m := join_noNul hpath hv.noNul
    obtain ⟨hlstat, hleaf⟩ := hext.entry hv hE hentry
    have hread : ∀ s : Sys, s.fs = fs → ∃ t : Sys, t.fs = s.fs ∧
        readDir (fun _ => none) s path =
          (.ok (join path m :: es.map fun e => join path e.1), t) := by
      rintro s rfl
      obtain ⟨t, ht, hread⟩ := readDir_none (s := s) (p := path) (d := d)
        (by rw [kernel_of_notMem hpath]; exact hE.opendir hd)
      exact ⟨t, ht, by rw [hread, hes]; rfl⟩
    cases hdi : fs.dir? i with
    | none =>
      refine ⟨1, fun s hs => ⟨E, m, Relation.ReflTransGen.refl, by rw [hentry]; simp, ?_⟩⟩
      obtain ⟨t, ht, hlist⟩ := hread s hs
      subst hs
      exact (unlink_first 0 (i := i) hlist ht (by rw [kernel_of_notMem hnul]; exact hlstat) hdi
        (by rw [kernel_of_notMem hnul]; exact hleaf)).2
    | some di =>
      have hleads : fs.Leads (join path m) i := Fs.leads_of_lstat hlstat hdi
      -- the first child is a directory, in which or under which something goes, or which goes
      obtain ⟨fuel, hfuel⟩ : ∃ fuel, ∀ s : Sys, s.fs = fs → ∃ j n, fs.Under E j ∧
          fs.entry j n ≠ none ∧
          (removeDirAll (fun _ => none) fuel s (join path m)).2.fs.entry j n = none := by
        by_cases hempty : di.entries = []
        · refine ⟨1, fun s hs => ⟨E, m, Relation.ReflTransGen.refl, by rw [hentry]; simp, ?_⟩⟩
          subst hs
          exact removes_empty 0 hnul hleads hdi hempty (hext.rmdir hv hE hentry hdi hempty)
        · obtain ⟨fuel, hfuel⟩ := ih i ⟨⟨m, hentry⟩, by rw [hdi]; rfl⟩ hnul hleads hdi hempty
          refine ⟨fuel, fun s hs => ?_⟩
          obtain ⟨j, n, hj, hn, hgone⟩ := hfuel s hs
          exact ⟨j, n, Fs.Under.head hentry hdi hj, hn, hgone⟩
      refine ⟨fuel + 1, fun s hs => ?_⟩
      obtain ⟨t, ht, hlist⟩ := hread s hs
      subst hs
      have hstat := symlinkMetadata_none (p := join path m) ht
        (by rw [kernel_of_notMem hnul]; exact hlstat)
      have hyes : (⟨fileType s.fs i⟩ : Metadata).isDir = true := by
        simp [Metadata.isDir, fileType_eq_dir, hdi]
      have herased := erased_after_first (fun _ => none) fuel hlist hstat
      rw [hyes, if_pos rfl] at herased
      obtain ⟨j, n, hj, hn, hgone⟩ := hfuel { t with clock := t.clock + 1 } ht
      exact ⟨j, n, hj, hn, herased.entry_none hgone⟩

/-- **A removal that goes astray is not contained**, with fuel enough and no faults. -/
theorem not_contained_of_astray {fs : Fs} {path : Bytes} (hA : Astray fs path) :
    ∃ fuel, ¬ Contained fs (removeDirAll (fun _ => none) fuel ⟨fs, 0⟩ path).2.fs (kernel path) := by
  obtain ⟨i, t, D, d, hi, ht, hD, hd, hne, hown⟩ := hA
  have hleads : fs.Leads (kernel path) D := Fs.leads_of_resolve hD hd
  by_cases hpath : 0 ∈ path
  · obtain ⟨j, n, hleaf, hj⟩ := hown hpath
    refine ⟨1, fun hC => ?_⟩
    obtain ⟨u, hu, hread⟩ := readDir_none (s := ⟨fs, 0⟩) (hleads.opendir hd)
    obtain ⟨⟨m, k⟩, es, hes⟩ := List.exists_cons_of_ne_nil hne
    rw [hes, List.map_cons] at hread
    have hsame : kernel (join path m) = kernel path := by
      obtain ⟨q, hq⟩ := join_prefix (p := path)
        (d.valid (m, k) (by rw [hes]; exact List.mem_cons_self))
      rw [hq, kernel_append hpath]
    have hdir : fs.dir? i = none := by simp [Fs.dir?, ht]
    obtain ⟨hthere, hgone⟩ := unlink_first 0 hread hu (i := i) (by rw [hsame]; exact hi)
      hdir (by rw [hsame]; exact hleaf)
    have hkeep := hC.target i t D hi ht hD j n hj
    rw [hgone] at hkeep
    rw [← hkeep] at hthere
    cases hthere
  · rw [kernel_of_notMem hpath] at hleads hi hD
    obtain ⟨fuel, hfuel⟩ := removes_something hpath hleads hd hne
    refine ⟨fuel, fun hC => ?_⟩
    obtain ⟨j, n, hj, hthere, hgone⟩ := hfuel ⟨fs, 0⟩ rfl
    rw [kernel_of_notMem hpath] at hC
    have hkeep := hC.target i t D hi ht hD j n hj
    rw [hgone] at hkeep
    exact hthere hkeep.symm

/-- **When a removal is contained**: whatever fails and however long it goes on, exactly if its path
    does not lead it astray. -/
theorem contained_iff (fs : Fs) (path : Bytes) :
    (∀ (faults : ℕ → Option Errno) (fuel : ℕ),
      Contained fs (removeDirAll faults fuel ⟨fs, 0⟩ path).2.fs (kernel path)) ↔
    ¬ Astray fs path := by
  constructor
  · intro h hA
    obtain ⟨fuel, hfuel⟩ := not_contained_of_astray hA
    exact hfuel (h _ fuel)
  · intro hA faults fuel
    exact contained_of_not_astray faults fuel ⟨fs, 0⟩ hA

/-- A link `l` beside the directory `d` that it points at, with the file `f` in it. -/
def linkBeside : Fs where
  nodes
    | 0 => some (.dir ⟨0, [([108], 1), ([100], 2)], by decide, by decide⟩)
    | 1 => some (.link [100])
    | 2 => some (.dir ⟨0, [([102], 3)], by decide, by decide⟩)
    | 3 => some (.file [1])
    | _ => none
  root := 0
  cwd := 0
  parents i d h := by
    split at h <;> first
      | (cases h; exact ⟨_, rfl⟩)
      | cases h
  acyclic := by
    refine ⟨fun i => if i = 0 then 1 else 0, fun i d n j e hi hn hj => ?_⟩
    split at hi
    · cases hi
      have hne : j ≠ 0 := by
        rintro rfl
        simp [Dir.lookup_eq_some] at hn
      simp [hne]
    · cases hi
    · cases hi
      rw [Dir.lookup_eq_some] at hn
      simp only [List.mem_singleton, Prod.mk.injEq] at hn
      rw [hn.2] at hj
      cases hj
    · cases hi
    · cases hi

/-- **A removal of the link** removes the file. -/
theorem not_contained :
    linkBeside.entry 2 [102] = some 3 ∧
    (removeDirAll (fun _ => none) 1 ⟨linkBeside, 0⟩ [108]).2.fs.entry 2 [102] = none ∧
    ¬ Contained linkBeside (removeDirAll (fun _ => none) 1 ⟨linkBeside, 0⟩ [108]).2.fs [108] := by
  have hgone : (removeDirAll (fun _ => none) 1 ⟨linkBeside, 0⟩ [108]).2.fs.entry 2 [102] = none := by
    decide +kernel
  refine ⟨rfl, hgone, fun hC => ?_⟩
  have hkeep := hC.target 1 [100] 2 (by rfl) rfl (by rfl) 2 [102] Relation.ReflTransGen.refl
  rw [hgone] at hkeep
  cases hkeep

end Ekostd.Fs
