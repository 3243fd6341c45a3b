/-
  The two recursive removals, whatever fails.

  `fs::remove_dir_all` lists a directory before it removes anything, stops at
  the first call that fails, and says so; an `unlink` that fails it does not
  notice, but then the directory is not empty when its turn comes.
  `file::remove_dir_all` reads the directory as it goes, goes on when a call
  fails, and says nothing.

  * `Answers`: a success means that the directory is gone with everything under
    it; anything else, that what is gone was under it;
  * `removeDirAll_answers`, `File.removeDirAll_removal`: by induction on the
    fuel, for any faults;
  * `removals_are_whole`: the two side by side.
-/
import Ekostd.File.TempDir
import Ekostd.Fs.Contained
import Ekostd.Lib.PosixPrune

namespace Ekostd

open PosixFs Ekostd.Path List

variable (faults : ℕ → Option Errno) {s t : Sys} {fs : PosixFs.Fs} {P T c : ℕ}
  {n m path q : Bytes} {fuel : ℕ}

theorem update_pruned {f : PosixFs.Fs → Except Errno PosixFs.Fs}
    (hf : ∀ fs', f s.fs = .ok fs' → Fs.Pruned T s.fs fs') :
    Fs.Pruned T s.fs (s.update faults f).2.fs := by
  rcases s.update_fs faults f with h | h
  · rw [h]
    exact Fs.Pruned.refl T s.fs
  · exact hf _ h

namespace Fs

/-- The answer of a removal tells what it has left. -/
structure Answers (P : ℕ) (n : Bytes) (T : ℕ) (fs : PosixFs.Fs)
    (r : Option (Except File.Error Unit) × Sys) : Prop where
  ok : r.1 = some (.ok ()) → Fs.Cleared P n T fs r.2.fs
  failed : r.1 ≠ some (.ok ()) → Fs.Pruned T fs r.2.fs

theorem Answers.pruned {r : Option (Except File.Error Unit) × Sys}
    (h : Answers T m c fs r) (hm : fs.entry T m = some c) (hc : (fs.dir? c).isSome) :
    Fs.Pruned T fs r.2.fs := by
  by_cases hok : r.1 = some (.ok ())
  · exact (h.ok hok).pruned hm
  · exact (h.failed hok).child hm hc

theorem unlink_pruned (hnul : 0 ∉ path) (h : t.fs.Stands path P n T) (hm : ValidName m) :
    Fs.Pruned T t.fs (unlink faults t (join path m)).fs := by
  refine update_pruned faults fun fs' hfs' => ?_
  rw [kernel_of_notMem (join_noNul hnul hm.noNul)] at hfs'
  exact h.unlink_ok (join_extends hm h.leads.1) hm hfs'

theorem child_stands (hnul : 0 ∉ path) (h : t.fs.Stands path P n T) (hm : ValidName m)
    (hl : t.fs.lstat (kernel (join path m)) = .ok c) (hdir : (t.fs.dir? c).isSome) :
    t.fs.entry T m = some c ∧ t.fs.Stands (join path m) T m c := by
  have hq := join_extends hm h.leads.1
  rw [kernel_of_notMem (join_noNul hnul hm.noNul)] at hl
  have hentry := h.lstat_ok hq hm hl
  exact ⟨hentry, h.child hq hm hentry hdir⟩

section Loop

variable {rec : Sys → Bytes → Option (Except File.Error Unit) × Sys} {children : List Bytes}

/-- **The loop** removes from under the directory, if the recursive calls do. -/
theorem removeChildren_pruned (hnul : 0 ∉ path)
    (hrec : ∀ s' q m c, 0 ∉ q → s'.fs.Stands q T m c → Answers T m c s'.fs (rec s' q))
    (h : s.fs.Stands path P n T) (hchild : ∀ q ∈ children, ∃ m, ValidName m ∧ q = join path m) :
    Fs.Pruned T s.fs (removeChildren faults rec children s).2.fs := by
  refine removeChildren_keeps faults (I := Fs.Pruned T s.fs) ?_ ?_ (Fs.Pruned.refl T s.fs)
  · intro q hq t c ht hl hdir
    obtain ⟨m, hm, rfl⟩ := hchild q hq
    obtain ⟨hentry, hstands⟩ := child_stands hnul (h.frame ht.frame) hm hl hdir
    have hanswers := hrec t _ m c (join_noNul hnul hm.noNul) hstands
    exact ht.trans (hanswers.pruned hentry hdir)
  · intro q hq t c ht _
    obtain ⟨m, hm, rfl⟩ := hchild q hq
    exact ht.trans (unlink_pruned faults hnul (h.frame ht.frame) hm)

theorem removeChildren_ends (hnul : 0 ∉ path)
    (hrec : ∀ s' q m c, s.fs.Erased s'.fs → 0 ∉ q → s'.fs.Stands q T m c →
      Answers T m c s'.fs (rec s' q) ∧ (rec s' q).1.isSome)
    (h : s.fs.Stands path P n T) (hchild : ∀ q ∈ children, ∃ m, ValidName m ∧ q = join path m) :
    (removeChildren faults rec children s).1.isSome := by
  induction children generalizing s with
  | nil => rfl
  | cons q qs ih =>
    have hrest : ∀ {t : Sys}, Fs.Pruned T s.fs t.fs →
        (removeChildren faults rec qs t).1.isSome := by
      intro t ht
      exact ih (fun s' q m c he => hrec s' q m c (ht.frame.erased.trans he)) (h.frame ht.frame)
        fun q hq => hchild q (mem_cons_of_mem _ hq)
    obtain ⟨m, hm, rfl⟩ := hchild q mem_cons_self
    rw [removeChildren]
    split
    · rfl
    · next link t ht =>
      obtain ⟨hfs, c, hl, hdir⟩ := File.symlinkMetadata_ok ht
      rw [← hfs] at hl hdir h
      split_ifs with hlink
      · obtain ⟨hentry, hstands⟩ := child_stands hnul h hm hl (hdir.1 hlink)
        obtain ⟨hanswers, hends⟩ := hrec t _ m c (by rw [hfs]; exact Fs.Erased.refl _)
          (join_noNul hnul hm.noNul) hstands
        split
        · next t' ht' =>
          have hpruned := hanswers.pruned hentry (hdir.1 hlink)
          rw [ht', hfs] at hpruned
          exact hrest hpruned
        · exact hends
      · have hpruned := unlink_pruned faults hnul h hm
        rw [hfs] at hpruned
        exact hrest hpruned

theorem removeChildren_all {es : List (Bytes × ℕ)} (hnul : 0 ∉ path)
    (hrec : ∀ s' q m c, s.fs.Erased s'.fs → 0 ∉ q → s'.fs.Stands q T m c →
      ∃ t, rec s' q = (some (.ok ()), t) ∧ Fs.Cleared T m c s'.fs t.fs)
    (hvalid : ∀ e ∈ es, ValidName e.1) (hnodup : (es.map Prod.fst).Nodup)
    (h : s.fs.Stands path P n T) (hes : ∀ e ∈ es, s.fs.entry T e.1 = some e.2) :
    ∃ t, removeChildren (fun _ => none) rec (es.map fun e => join path e.1) s =
        (some (.ok ()), t) ∧ Fs.Pruned T s.fs t.fs ∧ ∀ e ∈ es, t.fs.entry T e.1 = none := by
  induction es generalizing s with
  | nil => exact ⟨s, rfl, Fs.Pruned.refl T s.fs, by simp⟩
  | cons e es ih =>
    obtain ⟨m, c⟩ := e
    rw [map_cons, nodup_cons] at hnodup
    have hm : ValidName m := hvalid _ mem_cons_self
    have hc : s.fs.entry T m = some c := hes _ mem_cons_self
    have hq := join_extends hm h.leads.1
    have hqnul := join_noNul hnul hm.noNul
    have hlstat := (hq.entry hm h.leads hc).1
    -- the first child goes
    obtain ⟨t, ht, hclear⟩ : ∃ t, removeChildren (fun _ => none) rec
        ((m, c) :: es |>.map fun e => join path e.1) s =
          removeChildren (fun _ => none) rec (es.map fun e => join path e.1) t ∧
        Fs.Cleared T m c s.fs t.fs := by
      rw [map_cons, removeChildren, symlinkMetadata_none rfl (by rwa [kernel_of_notMem hqnul])]
      cases hdir : s.fs.dir? c with
      | some d =>
        have hsome : (s.fs.dir? c).isSome := by rw [hdir]; rfl
        obtain ⟨t, ht, hclear⟩ := hrec ⟨s.fs, s.clock + 1⟩ (join path m) m c (Fs.Erased.refl _)
          hqnul (h.child hq hm hc hsome)
        refine ⟨t, ?_, hclear⟩
        simp only [File.Metadata.isDir, File.fileType_eq_dir.2 hsome, decide_true, if_true, ht]
      | none =>
        have htype : File.fileType s.fs c ≠ .dir := by simp [File.fileType_eq_dir.not, hdir]
        refine ⟨⟨s.fs.erase T m, s.clock + 2⟩, ?_, (Fs.bare_of_not_dir hdir).cleared T m⟩
        simp [File.Metadata.isDir, htype, unlink, kernel_of_notMem hqnul, Sys.update_none,
          h.unlink hq hm hc hdir]
    have hpruned := hclear.pruned hc
    have hrest : ∀ e ∈ es, t.fs.entry T e.1 = some e.2 := by
      intro e he
      have hne : e.1 ≠ m := fun hname => hnodup.1 (mem_map.2 ⟨e, he, hname⟩)
      rw [hclear.other hc hne]
      exact hes e (mem_cons_of_mem _ he)
    obtain ⟨t', ht', hpruned', hgone⟩ := ih (s := t)
      (fun s' q m c he => hrec s' q m c (hpruned.frame.erased.trans he))
      (fun e he => hvalid e (mem_cons_of_mem _ he)) hnodup.2 (h.frame hpruned.frame) hrest
    refine ⟨t', ht.trans ht', hpruned.trans hpruned', ?_⟩
    intro e he
    rcases mem_cons.1 he with rfl | he
    · exact hpruned'.frame.erased.entry_none hclear.gone
    · exact hgone e he

end Loop

theorem readDir_children {children : List Bytes}
    (hread : readDir faults s path = (.ok children, t)) :
    t.fs = s.fs ∧ ∀ q ∈ children, ∃ m, ValidName m ∧ q = join path m := by
  obtain ⟨hfs, d, -, hchild⟩ := readDir_ok faults hread
  refine ⟨hfs, fun q hq => ?_⟩
  obtain ⟨e, he, rfl⟩ := hchild q hq
  exact ⟨e.1, d.valid e he, rfl⟩

/-- **The answer of a removal is right**, whatever fails: by induction on its fuel. -/
theorem removeDirAll_answers (hnul : 0 ∉ path) (h : s.fs.Stands path P n T) :
    Answers P n T s.fs (removeDirAll faults fuel s path) := by
  induction fuel generalizing s path P n T with
  | zero => exact ⟨(fun hok => by cases hok), fun _ => Fs.Pruned.refl T s.fs⟩
  | succ fuel ih =>
    rw [removeDirAll]
    split
    · next e t hread =>
      have hfs := readDir_fs faults s path
      rw [hread] at hfs
      refine ⟨(fun hok => by cases hok), fun _ => ?_⟩
      rw [hfs]
      exact Fs.Pruned.refl T s.fs
    · next children t hread =>
      obtain ⟨hfs, hchild⟩ := readDir_children faults hread
      have hloop := removeChildren_pruned faults hnul (fun s' q m c hq hs => ih (s := s') hq hs)
        (by rwa [hfs]) hchild
      rw [hfs] at hloop
      split
      · next t' ht' =>
        rw [ht'] at hloop
        dsimp only at hloop ⊢
        rw [rmdir, kernel_of_notMem hnul]
        split
        · next e t'' hrm =>
          refine ⟨(fun hok => by cases hok), fun _ => ?_⟩
          rw [(Sys.update_error faults hrm).1]
          exact hloop
        · next t'' hrm =>
          have hclear := h.removal_rmdir hloop (Sys.update_ok faults hrm)
          exact ⟨fun _ => hclear, fun hno => absurd rfl hno⟩
      · next r hno => exact ⟨fun hok => (hno _ (Prod.ext hok rfl)).elim, fun _ => hloop⟩

/-- `fs::remove_dir_all` ends, with as much fuel as there are directories on the way down. -/
theorem removeDirAll_ends {height : ℕ → ℕ} (hnul : 0 ∉ path)
    (hheight : ∀ i j, s.fs.Child i j → height j < height i) (hfuel : height T < fuel)
    (h : s.fs.Stands path P n T) : (removeDirAll faults fuel s path).1.isSome := by
  induction fuel generalizing s path P n T with
  | zero => cases hfuel
  | succ fuel ih =>
    rw [removeDirAll]
    split
    · rfl
    · next children t hread =>
      obtain ⟨hfs, hchild⟩ := readDir_children faults hread
      rw [← hfs] at h hheight
      have hloop := removeChildren_ends faults hnul
        (fun s' q m c he hq hstands => by
          have hlt := hheight T c (he.child hstands.child_root)
          exact ⟨removeDirAll_answers faults hq hstands,
            ih (s := s') hq (fun i j hc => hheight i j (he.child hc)) (by omega) hstands⟩) h hchild
      split
      · rfl
      · exact hloop

theorem removeDirAll_clears {height : ℕ → ℕ} (hnul : 0 ∉ path)
    (hheight : ∀ i j, s.fs.Child i j → height j < height i) (hfuel : height T < fuel)
    (h : s.fs.Stands path P n T) :
    ∃ t, removeDirAll (fun _ => none) fuel s path = (some (.ok ()), t) ∧
      Fs.Cleared P n T s.fs t.fs := by
  induction fuel generalizing s path P n T with
  | zero => cases hfuel
  | succ fuel ih =>
    obtain ⟨d, hd⟩ := Option.isSome_iff_exists.1 h.dir
    obtain ⟨t, hfs, hread⟩ := readDir_none (s := s) (p := path) (d := d)
      (by rw [kernel_of_notMem hnul, h.leads.opendir hd])
    rw [← hfs] at h hheight hd ⊢
    obtain ⟨t', ht', hpruned, hgone⟩ := removeChildren_all hnul
      (fun s' q m c he hq hstands => by
        have hlt := hheight T c (he.child hstands.child_root)
        exact ih hq (fun i j hc => hheight i j (he.child hc)) (by omega) hstands)
      d.valid d.nodup h fun e he => by rw [Fs.entry_eq hd, Dir.lookup_eq_some.2 he]
    have hbare : t'.fs.Bare T := by
      intro m
      cases hm : t.fs.entry T m with
      | none => exact hpruned.frame.erased.entry_none hm
      | some c =>
        rw [Fs.entry_eq hd, Dir.lookup_eq_some] at hm
        exact hgone (m, c) hm
    refine ⟨⟨t'.fs.erase P n, t'.clock + 1⟩, ?_,
      Fs.cleared_erase hpruned.frame hpruned.swept hbare P n⟩
    rw [removeDirAll, hread]
    simp only [ht', rmdir, kernel_of_notMem hnul, Sys.update_none,
      (h.frame hpruned.frame).rmdir hbare]

end Fs

/-! ## The removal that goes on -/

namespace File

variable {rec : Sys → Bytes → Option Unit × Sys}

theorem removeChild_pruned (ends : Prop) (hnul : 0 ∉ path)
    (hrec : ∀ s' q m c, s.fs.Erased s'.fs → 0 ∉ q → s'.fs.Stands q T m c →
      Fs.Removal T m c s'.fs (rec s' q).2.fs ∧ (ends → (rec s' q).1.isSome))
    (h : s.fs.Stands path P n T) (hm : ValidName m) :
    Fs.Pruned T s.fs (removeChild faults rec s (join path m)).2.fs ∧
      (ends → (removeChild faults rec s (join path m)).1.isSome) := by
  have hqnul := join_noNul hnul hm.noNul
  have hquery := s.query_fs faults fun fs =>
    (fs.lstat (kernel (join path m))).map (fileType fs)
  rw [removeChild]
  split
  · next t hl =>
    obtain ⟨htype, hfs⟩ := Sys.query_ok faults hl
    rw [← hfs] at htype h ⊢
    obtain ⟨c, hc, hdir⟩ : ∃ c, t.fs.lstat (kernel (join path m)) = .ok c ∧
        (t.fs.dir? c).isSome := by
      cases hc : t.fs.lstat (kernel (join path m)) with
      | error e =>
        rw [hc] at htype
        cases htype
      | ok c =>
        rw [hc] at htype
        exact ⟨c, rfl, fileType_eq_dir.1 (Except.ok.inj htype)⟩
    obtain ⟨hentry, hstands⟩ := Fs.child_stands hnul h hm hc hdir
    obtain ⟨hremoval, hends⟩ := hrec t _ m c (by rw [hfs]; exact Fs.Erased.refl _) hqnul hstands
    exact ⟨hremoval.pruned hentry hdir, hends⟩
  · next r t _ hl =>
    rw [hl] at hquery
    dsimp only at hquery
    rw [← hquery] at h ⊢
    exact ⟨Fs.unlink_pruned faults hnul h hm, fun _ => rfl⟩

/-- **The loop**, over the names that `readdir` gives. -/
theorem removeEntries_pruned (ends : Prop) {names : List Bytes} (hnul : 0 ∉ path)
    (hrec : ∀ s' q m c, s.fs.Erased s'.fs → 0 ∉ q → s'.fs.Stands q T m c →
      Fs.Removal T m c s'.fs (rec s' q).2.fs ∧ (ends → (rec s' q).1.isSome))
    (h : s.fs.Stands path P n T)
    (hnames : ∀ name ∈ names, name = dot ∨ name = dotdot ∨ ValidName name) :
    Fs.Pruned T s.fs (removeEntries faults rec path names s).2.fs ∧
      (ends → (removeEntries faults rec path names s).1.isSome) := by
  induction names generalizing s with
  | nil =>
    rw [removeEntries, Sys.query_fs]
    exact ⟨Fs.Pruned.refl T s.fs, fun _ => rfl⟩
  | cons name names ih =>
    have hquery := s.query_fs faults fun _ => .ok ()
    have hrest : ∀ {t : Sys}, Fs.Pruned T s.fs t.fs →
        Fs.Pruned T s.fs (removeEntries faults rec path names t).2.fs ∧
          (ends → (removeEntries faults rec path names t).1.isSome) := by
      intro t ht
      obtain ⟨hpruned, hends⟩ := ih (s := t)
        (fun s' q m c he => hrec s' q m c (ht.frame.erased.trans he)) (h.frame ht.frame)
        fun name hname => hnames name (mem_cons_of_mem _ hname)
      exact ⟨ht.trans hpruned, hends⟩
    rw [removeEntries]
    split
    · next e t hq =>
      rw [hq] at hquery
      dsimp only at hquery ⊢
      rw [hquery]
      exact ⟨Fs.Pruned.refl T s.fs, fun _ => rfl⟩
    · next t hq =>
      rw [hq] at hquery
      dsimp only at hquery ⊢
      have hstay : Fs.Pruned T s.fs t.fs := by
        rw [hquery]
        exact Fs.Pruned.refl T s.fs
      split_ifs with hdot
      · exact hrest hstay
      · have hm : ValidName name := by
          have hcstr : cstr (dot ++ [0]) = dot ∧ cstr (dotdot ++ [0]) = dotdot := by decide
          rcases hnames name mem_cons_self with rfl | rfl | hm
          · exact absurd (.inl hcstr.1) hdot
          · exact absurd (.inr hcstr.2) hdot
          · exact hm
        rw [(cstr_eq_iff []).2 hm.noNul]
        obtain ⟨hpruned, hends⟩ := removeChild_pruned faults ends hnul
          (fun s' q m c he => hrec s' q m c (hstay.frame.erased.trans he))
          (h.frame hstay.frame) hm
        split
        · next t' ht' =>
          rw [ht'] at hpruned
          exact hrest (hstay.trans hpruned)
        · next t' ht' =>
          rw [ht'] at hpruned hends
          exact ⟨hstay.trans hpruned, hends⟩

/-- **A removal that goes on** takes its directory away only with everything under it, whatever
    fails; and it ends. -/
theorem removeDirAll_removal {height : ℕ → ℕ} (hnul : 0 ∉ path)
    (hheight : ∀ i j, s.fs.Child i j → height j < height i) (h : s.fs.Stands path P n T) :
    Fs.Removal P n T s.fs (removeDirAll faults fuel s path).2.fs ∧
      (height T < fuel → (removeDirAll faults fuel s path).1.isSome) := by
  induction fuel generalizing s path P n T with
  | zero => exact ⟨h.removal (Fs.Pruned.refl T s.fs), fun hfuel => absurd hfuel (Nat.not_lt_zero _)⟩
  | succ fuel ih =>
    have hquery := s.query_fs faults fun fs => fs.opendir (kernel path)
    rw [removeDirAll]
    split
    · next e t hq =>
      rw [hq] at hquery
      dsimp only at hquery ⊢
      rw [hquery]
      exact ⟨h.removal (Fs.Pruned.refl T s.fs), fun _ => rfl⟩
    · next d t hq =>
      rw [hq] at hquery
      dsimp only at hquery
      rw [← hquery] at h hheight ⊢
      have hnames : ∀ name ∈ Fs.names d, name = dot ∨ name = dotdot ∨ ValidName name := by
        intro name hname
        simp only [PosixFs.Fs.names, mem_cons, mem_map] at hname
        rcases hname with rfl | rfl | ⟨e, he, rfl⟩
        · exact .inl rfl
        · exact .inr (.inl rfl)
        · exact .inr (.inr (d.valid e he))
      obtain ⟨hloop, hends⟩ := removeEntries_pruned faults (height T ≤ fuel) hnul
        (fun s' q m c he hq hstands => by
          obtain ⟨hremoval, hends⟩ := ih (s := s') hq (fun i j hc => hheight i j (he.child hc))
            hstands
          have hlt := hheight T c (he.child hstands.child_root)
          exact ⟨hremoval, fun hfuel => hends (by omega)⟩) h hnames
      split
      · next t' ht' =>
        rw [ht'] at hloop
        refine ⟨?_, fun _ => rfl⟩
        rw [kernel_of_notMem hnul]
        dsimp only at hloop ⊢
        rcases t'.update_fs faults fun fs => fs.rmdir path with hstay | hrm
        · rw [hstay]
          exact h.removal hloop
        · exact .inl (h.removal_rmdir hloop hrm)
      · next t' ht' =>
        rw [ht'] at hloop hends
        exact ⟨h.removal hloop, fun hfuel => hends (Nat.lt_succ_iff.1 hfuel)⟩

end File

/-! ## Side by side -/

namespace Fs

/-- **Both removals take a directory away as a whole, or not.**  Whatever calls fail, they end; the
    directory is gone with everything under it and nothing else, or it is there and what is gone was
    under it, each thing with everything under it.  One of them says which; and when no call fails
    both have left the same entries.  The path has no NUL byte, and it `Stands`: its last piece is
    the name of the directory, which is not a link, and it needs nothing from under it. -/
theorem removals_are_whole (hnul : 0 ∉ path) (h : fs.Stands path P n T) (clock : ℕ) :
    ∃ enough, ∀ (faults : ℕ → Option Errno), ∀ fuel ≥ enough, ∃ r t t',
      removeDirAll faults fuel ⟨fs, clock⟩ path = (some r, t) ∧
      File.removeDirAll faults fuel ⟨fs, clock⟩ path = (some (), t') ∧
      Fs.Removal P n T fs t.fs ∧ Fs.Removal P n T fs t'.fs ∧
      (r = .ok () ↔ t.fs.entry P n = none) ∧
      ((∀ k, faults k = none) → r = .ok () ∧ t'.fs.entry = t.fs.entry) := by
  obtain ⟨height, hheight⟩ := fs.exists_height
  refine ⟨height T + 1, fun faults fuel hfuel => ?_⟩
  have hanswers : Answers P n T fs (removeDirAll faults fuel ⟨fs, clock⟩ path) :=
    removeDirAll_answers (s := ⟨fs, clock⟩) faults hnul h
  have hends := removeDirAll_ends (s := ⟨fs, clock⟩) faults hnul hheight hfuel h
  obtain ⟨hremoval', hends'⟩ : Fs.Removal P n T fs
        (File.removeDirAll faults fuel ⟨fs, clock⟩ path).2.fs ∧
      (height T < fuel → (File.removeDirAll faults fuel ⟨fs, clock⟩ path).1.isSome) :=
    File.removeDirAll_removal (s := ⟨fs, clock⟩) faults hnul hheight h
  rcases hr : removeDirAll faults fuel ⟨fs, clock⟩ path with ⟨o, t⟩
  rcases hr' : File.removeDirAll faults fuel ⟨fs, clock⟩ path with ⟨o', t'⟩
  rw [hr] at hanswers hends
  rw [hr'] at hremoval' hends'
  obtain ⟨r, rfl⟩ := Option.isSome_iff_exists.1 hends
  obtain ⟨⟨⟩, rfl⟩ := Option.isSome_iff_exists.1 (hends' hfuel)
  have hfailed : r ≠ .ok () → Fs.Pruned T fs t.fs := fun hno =>
    hanswers.failed fun hok => hno (Option.some.inj hok)
  refine ⟨r, t, t', rfl, rfl, ?_, hremoval', ⟨?_, ?_⟩, ?_⟩
  · by_cases hok : r = .ok ()
    · exact .inl (hanswers.ok (congrArg some hok))
    · exact h.removal (hfailed hok)
  · intro hok
    exact (hanswers.ok (congrArg some hok)).gone
  · intro hgone
    by_contra hno
    cases hgone.symm.trans (h.there t.fs (hfailed hno).frame).2
  · intro hnone
    obtain rfl : faults = fun _ => none := funext hnone
    obtain ⟨t₁, ht₁, hclear⟩ := removeDirAll_clears (s := ⟨fs, clock⟩) hnul hheight hfuel h
    obtain ⟨t₂, ht₂, hclear'⟩ := File.removeDirAll_clears (s := ⟨fs, clock⟩) hnul hheight hfuel h
    cases hr.symm.trans ht₁
    cases hr'.symm.trans ht₂
    exact ⟨rfl, hclear.entry_eq hclear'⟩

/-- A directory `t` with a directory in it. -/
theorem removals_are_whole_nested :
    ∃ enough, ∀ (faults : ℕ → Option Errno), ∀ fuel ≥ enough, ∃ r t t',
      removeDirAll faults fuel ⟨File.withContents [116] (by decide), 1⟩ [116] = (some r, t) ∧
      File.removeDirAll faults fuel ⟨File.withContents [116] (by decide), 1⟩ [116] =
        (some (), t') ∧
      Fs.Removal 0 [116] 1 (File.withContents [116] (by decide)) t.fs ∧
      Fs.Removal 0 [116] 1 (File.withContents [116] (by decide)) t'.fs ∧
      (r = .ok () ↔ t.fs.entry 0 [116] = none) ∧
      ((∀ k, faults k = none) → r = .ok () ∧ t'.fs.entry = t.fs.entry) := by
  have hnew := File.newIn_withDir (n := [116]) [116, 0] (by decide) (by decide)
  obtain ⟨fs₀, P, n, hmade⟩ := File.TempDir.newIn_made hnew rfl
  have hstands := hmade.stands (File.filled_withContents (n := [116]) (by decide))
  rw [show kernel ([116, 0] ++ [49, 45, 48]) = [116] by decide] at hstands
  cases hstands.here.1
  exact removals_are_whole (by decide) hstands 1

end Fs

end Ekostd
