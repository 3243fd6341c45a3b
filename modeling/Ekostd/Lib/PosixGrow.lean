/-
  A POSIX filesystem that is part of another one.

  `Grown fs fs'` says that `fs'` is `fs` with more entries and more nodes: what
  there was is there, and is what it was.  Resolution is monotone in it
  (`Grown.walk`): a pathname that resolves resolves as before.
-/
import Ekostd.Lib.PosixFs

namespace PosixFs

namespace Fs

variable {fs fs' fs'' : Fs}

/-- The number `j` is in use: a node, an entry, the root or the working directory has it. -/
def Used (fs : Fs) (j : ℕ) : Prop :=
  fs.nodes j ≠ none ∨ j = fs.root ∨ j = fs.cwd ∨ ∃ i n, fs.entry i n = some j

theorem used_of_dir {i : ℕ} {d : Dir} (h : fs.dir? i = some d) : fs.Used i :=
  .inl (by simp [dir?_eq_some.1 h])

theorem used_of_lookup {i j : ℕ} {d : Dir} {n : Bytes} (h : fs.dir? i = some d)
    (hn : d.lookup n = some j) : fs.Used j :=
  .inr (.inr (.inr ⟨i, n, by rw [entry_eq h, hn]⟩))

/-- `fs'` is `fs` with more entries and nodes. -/
structure Grown (fs fs' : Fs) : Prop where
  root : fs'.root = fs.root
  cwd : fs'.cwd = fs.cwd
  dirs : ∀ i d, fs.dir? i = some d → ∃ d', fs'.dir? i = some d' ∧ d.parent = d'.parent ∧
    ∀ n j, d.lookup n = some j → d'.lookup n = some j
  others : ∀ i, fs.Used i → fs.dir? i = none → fs.nodes i = fs'.nodes i

theorem Grown.refl (fs : Fs) : Grown fs fs :=
  ⟨rfl, rfl, fun _ d hd => ⟨d, hd, rfl, fun _ _ h => h⟩, fun _ _ _ => rfl⟩

theorem Grown.entry (h : Grown fs fs') {i j : ℕ} {n : Bytes} (hn : fs.entry i n = some j) :
    fs'.entry i n = some j := by
  obtain ⟨d, hd, hn⟩ := Option.bind_eq_some_iff.1 hn
  obtain ⟨d', hd', -, hl⟩ := h.dirs i d hd
  rw [entry_eq hd']
  exact hl n j hn

theorem Grown.used (h : Grown fs fs') {i : ℕ} (hi : fs.Used i) : fs'.Used i := by
  rcases hi with hnode | hroot | hcwd | ⟨k, n, hk⟩
  · cases hd : fs.dir? i with
    | some d =>
      obtain ⟨d', hd', -⟩ := h.dirs i d hd
      exact used_of_dir hd'
    | none => exact .inl (by rwa [← h.others i (.inl hnode) hd])
  · exact .inr (.inl (by rw [h.root, hroot]))
  · exact .inr (.inr (.inl (by rw [h.cwd, hcwd])))
  · exact .inr (.inr (.inr ⟨k, n, h.entry hk⟩))

theorem Grown.dir?_none (h : Grown fs fs') {i : ℕ} (hi : fs.Used i) (hd : fs.dir? i = none) :
    fs'.dir? i = none := by
  have hn := h.others i hi hd
  unfold dir? at hd ⊢
  rwa [← hn]

theorem Grown.trans (h : Grown fs fs') (h' : Grown fs' fs'') : Grown fs fs'' := by
  refine ⟨h'.root.trans h.root, h'.cwd.trans h.cwd, fun i d hd => ?_, fun i hi hd => ?_⟩
  · obtain ⟨d', hd', hp, hl⟩ := h.dirs i d hd
    obtain ⟨d'', hd'', hp', hl'⟩ := h'.dirs i d' hd'
    exact ⟨d'', hd'', hp.trans hp', fun n j hn => hl' n j (hl n j hn)⟩
  · exact (h.others i hi hd).trans (h'.others i (h.used hi) (h.dir?_none hi hd))

theorem Grown.look (h : Grown fs fs') {cur i : ℕ} {c : Bytes} (hl : fs.look cur c = .ok i) :
    fs'.look cur c = .ok i := by
  unfold Fs.look at hl ⊢
  split at hl
  · cases hl
  · next d hd =>
    obtain ⟨d', hd', hp, hsub⟩ := h.dirs cur d hd
    rw [hd']
    simp only
    split_ifs at hl ⊢ with hdot hdotdot
    · exact hl
    · rwa [← hp]
    · split at hl
      · cases hl
      · next j hj => rw [hsub c j hj]; exact hl

/-- **Resolution is monotone**: a walk that succeeds with fewer names succeeds with more. -/
theorem Grown.walk (h : Grown fs fs') {budget cur : ℕ} {cs : List Bytes} {r : ℕ × ℕ}
    (hw : fs.walk budget cur cs = .ok r) : fs'.walk budget cur cs = .ok r := by
  have step : ∀ (b : ℕ) (onLink onLink' : ℕ → List Bytes → Except Errno (ℕ × ℕ)),
      (∀ cur cs r, onLink cur cs = .ok r → onLink' cur cs = .ok r) →
      ∀ cur cs r, fs.walkWith b onLink cur cs = .ok r → fs'.walkWith b onLink' cur cs = .ok r := by
    intro b onLink onLink' hlink cur cs r hw
    induction cs generalizing cur with
    | nil => exact hw
    | cons c cs ih =>
      simp only [walkWith] at hw ⊢
      split at hw
      · cases hw
      · next d hd =>
        obtain ⟨d', hd', hp, hsub⟩ := h.dirs cur d hd
        rw [hd']
        simp only
        split_ifs at hw ⊢ with hdot hdotdot
        · exact ih cur hw
        · rw [← hp]; exact ih _ hw
        · split at hw
          · cases hw
          · next i hi =>
            rw [hsub c i hi]
            simp only
            cases hdir : fs.dir? i with
            | none =>
              rw [← h.others i (used_of_lookup hd hi) hdir]
              split at hw
              · split_ifs at hw ⊢
                refine hlink _ _ _ ?_
                simpa [start, h.root] using hw
              · exact ih i hw
            | some e =>
              obtain ⟨e', he', -⟩ := h.dirs i e hdir
              rw [dir?_eq_some.1 hdir] at hw
              rw [dir?_eq_some.1 he']
              exact ih i hw
  induction budget generalizing cur cs r with
  | zero => exact step 0 _ _ (fun _ _ _ h => h) cur cs r hw
  | succ b ih => exact step (b + 1) _ _ (fun _ _ _ h => ih h) cur cs r hw

theorem Grown.walkFrom (h : Grown fs fs') {p : Bytes} {cs : List Bytes} {r : ℕ × ℕ}
    (hw : fs.walkFrom p cs = .ok r) : fs'.walkFrom p cs = .ok r := by
  have hstart : fs.start fs.cwd p = fs'.start fs'.cwd p := by simp [start, h.root, h.cwd]
  rw [Fs.walkFrom, hstart] at hw
  exact h.walk hw

theorem Grown.leaf (h : Grown fs fs') {p : Bytes} {r : ℕ × Bytes} (hl : fs.leaf p = .ok r) :
    fs'.leaf p = .ok r := by
  unfold Fs.leaf at hl ⊢
  split at hl
  · cases hl
  · split at hl
    · cases hl
    · next cur b hw => rw [h.walkFrom hw]; exact hl

end Fs

end PosixFs
