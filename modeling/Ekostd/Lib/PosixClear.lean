/-
  A POSIX filesystem that loses a directory and everything under it.

  * `Swept`: what is gone is gone with everything under it, and that adds up
    over any number of removals (`Swept.trans`), also where a directory has
    more than one name;
  * `Stands`: a pathname that names a directory whatever goes under that, and
    so do those of its directories (`Stands.child`);
  * `Cleared`: the name and everything under it are gone, and nothing else;
  * `Filled`: a directory has got contents, and everything else is as it was.
-/
import Ekostd.Lib.PosixMkdir

namespace PosixFs

namespace Fs

open Errno

variable {fs fs' fs'' : Fs} {i j k P T c : ℕ} {n m p q : Bytes} {d : Dir}

/-- There are no entries of `i`. -/
def Bare (fs : Fs) (i : ℕ) : Prop := ∀ m, fs.entry i m = none

theorem bare_of_not_dir (h : fs.dir? i = none) : fs.Bare i := fun m => by simp [entry, h]

theorem bare_iff (h : fs.dir? i = some d) : fs.Bare i ↔ d.entries = [] := by
  constructor
  · intro hbare
    by_contra hne
    obtain ⟨⟨m, j⟩, hmem⟩ := List.exists_mem_of_ne_nil _ hne
    have hthere := hbare m
    rw [entry_eq h, Dir.lookup_eq_some.2 hmem] at hthere
    cases hthere
  · intro hnil m
    rw [entry_eq h, Dir.lookup, hnil]
    rfl

theorem Bare.erased (h : fs.Bare i) (he : Erased fs fs') : fs'.Bare i :=
  fun m => he.entry_none (h m)

theorem Bare.under_eq (h : fs.Bare j) (hu : fs.Under j k) : k = j := by
  rcases Relation.ReflTransGen.cases_head hu with rfl | ⟨l, ⟨⟨m, hm⟩, -⟩, -⟩
  · rfl
  · rw [h m] at hm
    cases hm

theorem exists_height (fs : Fs) : ∃ height : ℕ → ℕ, ∀ i j, fs.Child i j → height j < height i := by
  obtain ⟨height, h⟩ := fs.acyclic
  refine ⟨height, ?_⟩
  rintro i j ⟨⟨n, hn⟩, hj⟩
  obtain ⟨e, he⟩ := Option.isSome_iff_exists.1 hj
  obtain ⟨d, hd, hn⟩ := Option.bind_eq_some_iff.1 hn
  exact h i d n j e (dir?_eq_some.1 hd) hn (dir?_eq_some.1 he)

theorem Child.not_under (h : fs.Child i j) : ¬ fs.Under j i := by
  obtain ⟨height, hheight⟩ := fs.exists_height
  have hle : ∀ k, fs.Under j k → height k ≤ height j := by
    intro k hu
    induction hu with
    | refl => exact le_rfl
    | tail _ hc ih => exact (hheight _ _ hc).le.trans ih
  exact fun hu => absurd (hheight i j h) (hle i hu).not_gt

/-! ## What is gone -/

/-- What is gone is gone with everything under it. -/
def Swept (fs fs' : Fs) : Prop :=
  ∀ i m j, fs.entry i m = some j → fs'.entry i m = none → ∀ k, fs.Under j k → fs'.Bare k

theorem Swept.refl (fs : Fs) : Swept fs fs := by
  intro i m j hthere hgone
  rw [hthere] at hgone
  cases hgone

theorem Swept.under_or_bare (h : Swept fs fs') (he : Erased fs fs') (hu : fs.Under j k) :
    fs'.Under j k ∨ fs'.Bare k := by
  induction hu using Relation.ReflTransGen.head_induction_on with
  | refl => exact .inl Relation.ReflTransGen.refl
  | head hc hu ih =>
    obtain ⟨⟨n, hn⟩, hdir⟩ := hc
    rename_i i l
    cases hn' : fs'.entry i n with
    | none => exact .inr (h i n l hn hn' k hu)
    | some l' =>
      obtain rfl : l' = l := Option.some.inj ((he.entry hn').symm.trans hn)
      exact ih.imp_left (Relation.ReflTransGen.head ⟨⟨n, hn'⟩, by rwa [he.isSome]⟩)

/-- **Removals add up.** -/
theorem Swept.trans (h : Swept fs fs') (he : Erased fs fs') (h' : Swept fs' fs'')
    (he' : Erased fs' fs'') : Swept fs fs'' := by
  intro i m j hthere hgone k hu
  cases hm : fs'.entry i m with
  | none => exact (h i m j hthere hm k hu).erased he'
  | some j' =>
    obtain rfl : j' = j := Option.some.inj ((he.entry hm).symm.trans hthere)
    rcases h.under_or_bare he hu with hu' | hbare
    · exact h' i m j' hm hgone k hu'
    · exact hbare.erased he'

/-- From `fs` to `fs'` the entry `n` of `P` is gone with everything under `T`, and nothing else. -/
structure Cleared (P : ℕ) (n : Bytes) (T : ℕ) (fs fs' : Fs) : Prop where
  erased : Erased fs fs'
  gone : fs'.entry P n = none
  bare : ∀ i, fs.Under T i → fs'.Bare i
  kept : ∀ i m, ¬ (i = P ∧ m = n) → ¬ fs.Under T i → fs'.entry i m = fs.entry i m

theorem Cleared.swept (h : Cleared P n T fs fs') (hn : fs.entry P n = some T) :
    Swept fs fs' := by
  intro i m j hthere hgone k hu
  by_cases hname : i = P ∧ m = n
  · obtain ⟨rfl, rfl⟩ := hname
    obtain rfl := Option.some.inj (hn.symm.trans hthere)
    exact h.bare k hu
  · have hT : fs.Under T i := by
      by_contra hT
      rw [h.kept i m hname hT, hthere] at hgone
      cases hgone
    cases hj : fs.dir? j with
    | none =>
      have hbare := bare_of_not_dir hj
      rw [hbare.under_eq hu]
      exact hbare.erased h.erased
    | some d =>
      exact h.bare k (hT.trans (Under.head hthere hj hu))

theorem Cleared.frame_name (h : Cleared P n T fs fs') :
    Frame (fun i m => (i = P ∧ m = n) ∨ fs.Under T i) fs fs' := by
  refine ⟨h.erased, fun i m hne => ?_⟩
  by_contra! hnot
  exact hne (h.kept i m (fun hname => hnot.1 hname.1 hname.2) hnot.2)

theorem Cleared.frame (h : Cleared T m c fs fs') (hm : fs.entry T m = some c) :
    Frame (fun i _ => fs.Under T i) fs fs' := by
  refine ⟨h.erased, fun i x hne => ?_⟩
  by_contra hT
  refine hne (h.kept i x ?_ fun hc => ?_)
  · rintro ⟨rfl, -⟩
    exact hT Relation.ReflTransGen.refl
  · cases hd : fs.dir? c with
    | some d => exact hT (Under.head hm hd hc)
    | none =>
      obtain rfl := (bare_of_not_dir hd).under_eq hc
      have hnone := fun x => bare_of_not_dir hd x
      exact hne ((h.erased.entry_none (hnone x)).trans (hnone x).symm)

theorem Cleared.other (h : Cleared T m c fs fs') (hm : fs.entry T m = some c) (hne : n ≠ m) :
    fs'.entry T n = fs.entry T n := by
  refine h.kept T n (fun hname => hne hname.2) fun hu => ?_
  cases hd : fs.dir? c with
  | some d => exact Child.not_under ⟨⟨m, hm⟩, by rw [hd]; rfl⟩ hu
  | none =>
    have hbare := bare_of_not_dir hd
    obtain rfl := hbare.under_eq hu
    rw [hbare m] at hm
    cases hm

theorem cleared_erase (hframe : Frame (fun i _ => fs.Under T i) fs fs') (hswept : Swept fs fs')
    (hbare : fs'.Bare T) (P : ℕ) (n : Bytes) : Cleared P n T fs (fs'.erase P n) := by
  have herase : Erased fs' (fs'.erase P n) := erased_erase P n
  refine ⟨hframe.erased.trans herase, by simp [entry_erase], fun i hu => ?_, fun i m hne hT => ?_⟩
  · refine Bare.erased ?_ herase
    rcases Relation.ReflTransGen.cases_head hu with rfl | ⟨j, ⟨⟨m, hm⟩, -⟩, hu⟩
    · exact hbare
    · exact hswept T m j hm (hbare m) i hu
  · rw [entry_erase, if_neg hne]
    by_contra hdiff
    exact hT (hframe.only i m hdiff)

theorem Bare.cleared (h : fs.Bare T) (P : ℕ) (n : Bytes) : Cleared P n T fs (fs.erase P n) :=
  cleared_erase (Frame.refl _ fs) (Swept.refl fs) h P n

/-! ## Pathnames that stand -/

/-- Whatever goes under `T`, the pathname `p` names the entry `n` of `P`, and that is the directory
    `T`. -/
structure Stands (fs : Fs) (p : Bytes) (P : ℕ) (n : Bytes) (T : ℕ) : Prop where
  valid : ValidName n
  dir : (fs.dir? T).isSome
  there : ∀ fs', Frame (fun i _ => fs.Under T i) fs fs' →
    fs'.leaf p = .ok (P, n) ∧ fs'.entry P n = some T

theorem Stands.here (h : Stands fs p P n T) : fs.leaf p = .ok (P, n) ∧ fs.entry P n = some T :=
  h.there fs (Frame.refl _ fs)

theorem Stands.frame (h : Stands fs p P n T) (hf : Frame (fun i _ => fs.Under T i) fs fs') :
    Stands fs' p P n T :=
  ⟨h.valid, by rw [hf.erased.isSome]; exact h.dir, fun fs'' hf' =>
    h.there fs'' (hf.trans (hf'.mono fun _ _ hu => hu.mono hf.erased))⟩

theorem Stands.child_root (h : Stands fs p P n T) : fs.Child P T := ⟨⟨n, h.here.2⟩, h.dir⟩

theorem Stands.look (h : Stands fs p P n T) : fs.look P n = .ok T :=
  look_of_entry h.here.2 h.valid.notDot h.valid.notDotdot

theorem Stands.leads (h : Stands fs p P n T) : fs.Leads p T := by
  obtain ⟨d, hd⟩ := Option.isSome_iff_exists.1 h.dir
  exact leads_of_leaf h.here.1 h.look hd

theorem Stands.lstat (h : Stands fs p P n T) : fs.lstat p = .ok T := by
  obtain ⟨d, hd⟩ := Option.isSome_iff_exists.1 h.dir
  exact lstat_of_leaf h.here.1 h.look hd

/-- **A pathname of a directory in one that stands** stands, too. -/
theorem Stands.child (h : Stands fs p P n T) (hq : Extends p m q) (hm : ValidName m)
    (hc : fs.entry T m = some c) (hdir : (fs.dir? c).isSome) : Stands fs q T m c := by
  refine ⟨hm, hdir, fun fs' hf => ?_⟩
  obtain ⟨d, hd⟩ := Option.isSome_iff_exists.1 hdir
  have hfT : Frame (fun i _ => fs.Under T i) fs fs' :=
    hf.mono fun _ _ hu => Under.head hc hd hu
  have hc' : fs'.entry T m = some c := by
    by_contra hne
    exact Child.not_under ⟨⟨m, hc⟩, hdir⟩ (hf.only T m (by rwa [hc]))
  exact ⟨(hq.entry hm (h.frame hfT).leads hc').2, hc'⟩

theorem Stands.rmdir (h : Stands fs p P n T) (hbare : fs.Bare T) :
    fs.rmdir p = .ok (fs.erase P n) := by
  obtain ⟨d, hd⟩ := Option.isSome_iff_exists.1 h.dir
  simp [Fs.rmdir, h.here.1, h.valid.notDot, h.valid.notDotdot, h.look, hd, (bare_iff hd).1 hbare]

theorem Stands.unlink (h : Stands fs p P n T) (hq : Extends p m q) (hm : ValidName m)
    (hc : fs.entry T m = some c) (hdir : fs.dir? c = none) :
    fs.unlink q = .ok (fs.erase T m) := by
  obtain ⟨hlstat, hleaf⟩ := hq.entry hm h.leads hc
  obtain ⟨cur, x, hleaf', -, hunlink, -⟩ := leaf_of_lstat hlstat hdir
  rw [hleaf] at hleaf'
  cases hleaf'
  exact hunlink

/-! ## Contents -/

/-- From `fs` to `fs'` the directory `T` has got contents: files, links, and directories that are
    new. -/
structure Filled (T : ℕ) (fs fs' : Fs) : Prop where
  root : fs'.root = fs.root
  cwd : fs'.cwd = fs.cwd
  dir : (fs'.dir? T).isSome
  same : ∀ i, fs.Used i → i ≠ T → fs'.nodes i = fs.nodes i
  new : ∀ i, fs'.Under T i → i = T ∨ ¬ fs.Used i

theorem Bare.filled_insert (h : fs.Bare i) (hn : ValidName n) (hi : (fs.dir? i).isSome)
    (hj : ¬ fs.Used j) : Filled i fs (fs.insert i n j hn hi hj) := by
  obtain ⟨d, hd⟩ := Option.isSome_iff_exists.1 hi
  obtain ⟨e, he, -, hnil⟩ := insert_new hn hi hj
  refine ⟨rfl, rfl, by rw [insert_dir hn hi hj hd]; rfl, fun k hk hki => ?_, fun k hu => ?_⟩
  · show fs.insertNodes i n hn j k = fs.nodes k
    have hkj : k ≠ j := fun hkj => hj (hkj ▸ hk)
    rw [insertNodes, if_neg hkj]
    split
    · next d hd => rw [if_neg hki, hd]
    · rfl
  · rcases Relation.ReflTransGen.cases_head hu with rfl | ⟨l, ⟨⟨m, hm⟩, -⟩, hu⟩
    · exact .inl rfl
    · rw [entry_insert hn hi hj (h n)] at hm
      split_ifs at hm
      · obtain rfl := Option.some.inj hm
        obtain rfl := ((bare_iff he).2 hnil).under_eq hu
        exact .inr hj
      · rw [h m] at hm
        cases hm

theorem dir?_congr (h : fs'.nodes i = fs.nodes i) : fs'.dir? i = fs.dir? i := by
  simp only [dir?, h]

/-- What there was before the directory was made is there, whatever goes under it and when its name
    goes. -/
theorem Made.grown_of_filled {fs₀ : Fs} (h : Made fs₀ fs p P n T) (hfill : Filled T fs fs')
    (hf : Frame (fun i m => (i = P ∧ m = n) ∨ fs'.Under T i) fs' fs'') : Grown fs₀ fs'' := by
  have hne : ∀ {i}, fs₀.Used i → i ≠ T := fun hi hT => h.fresh (hT ▸ hi)
  have hsame : ∀ {i}, fs₀.Used i → fs'.nodes i = fs.nodes i := fun hi =>
    hfill.same _ (h.grown.used hi) (hne hi)
  have hkept : ∀ {i m}, fs₀.Used i → ¬ (i = P ∧ m = n) → fs''.entry i m = fs'.entry i m := by
    intro i m hi hname
    by_contra hdiff
    exact (hfill.new i ((hf.only i m hdiff).resolve_left hname)).elim (hne hi)
      fun hno => hno (h.grown.used hi)
  refine ⟨hf.erased.root.trans (hfill.root.trans h.grown.root),
    hf.erased.cwd.trans (hfill.cwd.trans h.grown.cwd), fun i d hd => ?_, fun i hi hd => ?_⟩
  · have hi := used_of_dir hd
    obtain ⟨d', hd', hp, hl⟩ := h.grown.dirs i d hd
    rw [← dir?_congr (hsame hi)] at hd'
    obtain ⟨d'', hd''⟩ := Option.isSome_iff_exists.1
      (show (fs''.dir? i).isSome by rw [hf.erased.isSome, hd']; rfl)
    obtain ⟨d₁, hd₁, hp', -⟩ := hf.erased.dirs i d'' hd''
    obtain rfl := Option.some.inj (hd'.symm.trans hd₁)
    refine ⟨d'', hd'', hp.trans hp'.symm, fun m j hm => ?_⟩
    have hname : ¬ (i = P ∧ m = n) := by
      rintro ⟨rfl, rfl⟩
      have hnew := h.new
      rw [entry_eq hd, hm] at hnew
      cases hnew
    rw [← entry_eq hd'', hkept hi hname, entry_eq hd']
    exact hl m j hm
  · have hdir : fs'.dir? i = none := by
      rw [dir?_congr (hsame hi)]
      exact h.grown.dir?_none hi hd
    have hdir' : fs''.dir? i = none := by
      rw [← Option.not_isSome_iff_eq_none, hf.erased.isSome, hdir]
      simp
    rw [hf.erased.others i hdir', hsame hi, h.grown.others i hi hd]

theorem Made.parent {fs₀ : Fs} (h : Made fs₀ fs p P n T) :
    fs.entry P n = some T ∧ (fs.dir? P).isSome ∧ P ≠ T := by
  obtain ⟨d, hd, -, hnil⟩ := h.dir
  have hentry : fs.entry P n = some T := by rw [h.entries, if_pos ⟨rfl, rfl⟩]
  obtain ⟨dP, hdP, -⟩ := Option.bind_eq_some_iff.1 hentry
  refine ⟨hentry, by rw [hdP]; rfl, ?_⟩
  rintro rfl
  rw [(bare_iff hd).2 hnil n] at hentry
  cases hentry

/-- **The pathname of a new directory stands**, whatever it is filled with. -/
theorem Made.stands {fs₀ : Fs} (h : Made fs₀ fs p P n T) (hfill : Filled T fs fs') :
    Stands fs' p P n T := by
  obtain ⟨hentry, hdir, hne⟩ := h.parent
  obtain ⟨dP, hdP⟩ := Option.isSome_iff_exists.1 hdir
  have hP := used_of_dir hdP
  refine ⟨h.valid, hfill.dir, fun fs'' hf => ⟨?_, ?_⟩⟩
  · exact (h.grown_of_filled hfill (hf.mono fun _ _ => .inr)).leaf h.leaf
  · have hfs' : fs'.entry P n = some T := by
      rw [← hentry, entry, entry, dir?_congr (hfill.same P hP hne)]
    rw [← hfs']
    by_contra hdiff
    exact (hfill.new P (hf.only P n hdiff)).elim hne fun hno => hno hP

/-- **When the directory is gone its pathname names nothing.** -/
theorem Made.absent {fs₀ : Fs} (h : Made fs₀ fs p P n T) (hfill : Filled T fs fs')
    (hclear : Cleared P n T fs' fs'') : fs''.lstat p = .error ENOENT := by
  obtain ⟨-, hdir, hne⟩ := h.parent
  have hgrown := h.grown_of_filled hfill hclear.frame_name
  refine lstat_of_missing (hgrown.leaf h.leaf) ?_ h.valid.notDot h.valid.notDotdot hclear.gone
  obtain ⟨dP, hdP⟩ := Option.isSome_iff_exists.1 hdir
  rw [hclear.erased.isSome, dir?_congr (hfill.same P (used_of_dir hdP) hne)]
  exact hdir

end Fs

end PosixFs
