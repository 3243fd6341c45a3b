/-
  Removals that may stop part-way.

  Such a removal takes away things from under a directory, each with everything
  under it, and the directory itself only when there is nothing left in it.

  * `Pruned`: what is gone so far;
  * `Stands.unlink_ok`, `Stands.rmdir_ok`: when a call removes something, with
    the pathname of a directory that stands;
  * `Removal`: a removal that came to its end, or did not.
-/
import Ekostd.Lib.PosixClear

namespace PosixFs

namespace Fs

variable {fs fs' fs'' : Fs} {P T c : ℕ} {n m p q : Bytes}

/-- From `fs` to `fs'` things under `T` are gone, each with everything under it. -/
structure Pruned (T : ℕ) (fs fs' : Fs) : Prop where
  frame : Frame (fun i _ => fs.Under T i) fs fs'
  swept : Swept fs fs'

theorem Pruned.refl (T : ℕ) (fs : Fs) : Pruned T fs fs := ⟨Frame.refl _ fs, Swept.refl fs⟩

theorem Pruned.trans (h : Pruned T fs fs') (h' : Pruned T fs' fs'') : Pruned T fs fs'' where
  frame := h.frame.trans (h'.frame.mono fun _ _ hu => hu.mono h.frame.erased)
  swept := h.swept.trans h.frame.erased h'.swept h'.frame.erased

theorem Pruned.child (h : Pruned c fs fs') (hm : fs.entry T m = some c)
    (hc : (fs.dir? c).isSome) : Pruned T fs fs' := by
  obtain ⟨d, hd⟩ := Option.isSome_iff_exists.1 hc
  exact ⟨h.frame.mono fun _ _ hu => Under.head hm hd hu, h.swept⟩

theorem Cleared.pruned (h : Cleared T m c fs fs') (hm : fs.entry T m = some c) :
    Pruned T fs fs' :=
  ⟨h.frame hm, h.swept hm⟩

theorem Cleared.entry_eq (h : Cleared P n T fs fs') (h' : Cleared P n T fs fs'') :
    fs''.entry = fs'.entry := by
  funext i m
  by_cases hname : i = P ∧ m = n
  · rw [hname.1, hname.2, h.gone, h'.gone]
  · by_cases hT : fs.Under T i
    · rw [h.bare i hT m, h'.bare i hT m]
    · rw [h.kept i m hname hT, h'.kept i m hname hT]

/-! ## The calls -/

theorem entry_of_look (h : fs.look T m = .ok c) (hm : ValidName m) : fs.entry T m = some c := by
  unfold look at h
  split at h
  · cases h
  · next d hd =>
    rw [if_neg hm.notDot, if_neg hm.notDotdot] at h
    rw [entry_eq hd]
    split at h
    · cases h
    · next j hj => rw [hj, Except.ok.inj h]

theorem Stands.lstat_ok (h : Stands fs p P n T) (hq : Extends p m q) (hm : ValidName m)
    (hl : fs.lstat q = .ok c) : fs.entry T m = some c := by
  obtain ⟨cur, b, hw, hlook⟩ := hq.lstat hl
  rw [(Erased.refl fs).leads_eq h.leads hw] at hlook
  exact entry_of_look hlook hm

/-- **What `unlink` removes** in a directory that stands has nothing under it. -/
theorem Stands.unlink_ok (h : Stands fs p P n T) (hq : Extends p m q) (hm : ValidName m)
    (hun : fs.unlink q = .ok fs') : Pruned T fs fs' := by
  unfold Fs.unlink at hun
  split_ifs at hun
  split at hun
  · cases hun
  · next cur x hleaf =>
    obtain ⟨cur', b, hw, hx⟩ := hq.leaf hleaf
    cases hx
    rw [(Erased.refl fs).leads_eq h.leads hw] at hun
    split at hun
    · cases hun
    · next c hlook =>
      split_ifs at hun with hdir
      cases hun
      rw [Bool.not_eq_true, Option.isSome_eq_false_iff, Option.isNone_iff_eq_none] at hdir
      exact ((bare_of_not_dir hdir).cleared T m).pruned (entry_of_look hlook hm)

/-- **`rmdir` removes** what has nothing in it. -/
theorem Stands.rmdir_ok (h : Stands fs p P n T) (hrm : fs.rmdir p = .ok fs') :
    fs.Bare T ∧ fs' = fs.erase P n := by
  obtain ⟨d, hd⟩ := Option.isSome_iff_exists.1 h.dir
  simp only [Fs.rmdir, h.here.1, h.valid.notDot, h.valid.notDotdot, h.look, hd, if_false] at hrm
  split_ifs at hrm with hempty
  cases hrm
  exact ⟨(bare_iff hd).2 hempty, rfl⟩

/-! ## What is left -/

/-- A removal of the directory `T`, the entry `n` of `P`: it is gone with everything under it, or it
    is there, and what is gone was under it. -/
def Removal (P : ℕ) (n : Bytes) (T : ℕ) (fs fs' : Fs) : Prop :=
  Cleared P n T fs fs' ∨ Pruned T fs fs' ∧ fs'.entry P n = some T

theorem Stands.removal (h : Stands fs p P n T) (hp : Pruned T fs fs') : Removal P n T fs fs' :=
  .inr ⟨hp, (h.there fs' hp.frame).2⟩

theorem Removal.pruned (h : Removal T m c fs fs') (hm : fs.entry T m = some c)
    (hc : (fs.dir? c).isSome) : Pruned T fs fs' := by
  rcases h with h | ⟨h, -⟩
  · exact h.pruned hm
  · exact h.child hm hc

/-- **The last `rmdir`**, on what is left of a directory. -/
theorem Stands.removal_rmdir (h : Stands fs p P n T) (hp : Pruned T fs fs')
    (hrm : fs'.rmdir p = .ok fs'') : Cleared P n T fs fs'' := by
  obtain ⟨hbare, rfl⟩ := (h.frame hp.frame).rmdir_ok hrm
  exact cleared_erase hp.frame hp.swept hbare P n

end Fs

end PosixFs
