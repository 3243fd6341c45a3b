/-
  A POSIX filesystem that loses names.

  `Erased fs fs'` says that `fs'` is `fs` with some entries of directories
  gone: the order in which a removal goes through its states.  Then `fs` is
  `fs'` grown (`Erased.grown`): a pathname that still resolves resolves as
  before.  So what a removal reaches by pathnames, at whatever time, it could
  reach at its beginning.

  `Frame S` adds that only entries in `S` are gone.
-/
import Mathlib.Logic.Relation
import Ekostd.Lib.PosixGrow

namespace PosixFs

namespace Fs

variable {fs fs' fs'' : Fs}

/-! ## Walking -/

/-- **Walking on**: first the components `cs`, then `cs'` with the links left. -/
theorem walk_append (budget cur : ℕ) (cs cs' : List Bytes) :
    fs.walk budget cur (cs ++ cs') = (fs.walk budget cur cs).bind fun r => fs.walk r.2 r.1 cs' := by
  have step : ∀ (b : ℕ) (onLink : ℕ → List Bytes → Except Errno (ℕ × ℕ)),
      (∀ cur cs, onLink cur (cs ++ cs') = (onLink cur cs).bind fun r => fs.walk r.2 r.1 cs') →
      (∀ cur, fs.walkWith b onLink cur cs' = fs.walk b cur cs') →
      ∀ cur cs, fs.walkWith b onLink cur (cs ++ cs') =
        (fs.walkWith b onLink cur cs).bind fun r => fs.walk r.2 r.1 cs' := by
    intro b onLink hlink hend cur cs
    induction cs generalizing cur with
    | nil => exact hend cur
    | cons c cs ih =>
      simp only [List.cons_append, walkWith]
      split
      · rfl
      · split_ifs
        · exact ih _
        · exact ih _
        · split
          · rfl
          · split
            · split_ifs
              · rfl
              · rw [← List.append_assoc]; exact hlink _ _
            · exact ih _
  induction budget generalizing cur cs with
  | zero => exact step 0 _ (fun _ _ => rfl) (fun _ => rfl) cur cs
  | succ b ih => exact step (b + 1) _ ih (fun _ => rfl) cur cs

theorem walk_nil (budget cur : ℕ) : fs.walk budget cur [] = .ok (cur, budget) := by
  cases budget <;> rfl

theorem walk_dot {budget cur : ℕ} {d : Dir} (h : fs.dir? cur = some d) :
    fs.walk budget cur [dot] = .ok (cur, budget) := by
  cases budget <;> simp [walk, walkWith, h]

theorem walk_look {budget cur i : ℕ} {c : Bytes} {d : Dir} (h : fs.look cur c = .ok i)
    (hi : fs.dir? i = some d) : fs.walk budget cur [c] = .ok (i, budget) := by
  have hnode := dir?_eq_some.1 hi
  unfold look at h
  split at h
  · cases h
  · next e he =>
    split_ifs at h with hdot hdotdot
    · cases h; cases budget <;> simp [walk, walkWith, he, hdot]
    · cases h; cases budget <;> simp [walk, walkWith, he, hdotdot, dot, dotdot]
    · split at h
      · cases h
      · next j hj =>
        cases h
        cases budget <;> simp [walk, walkWith, he, hdot, hdotdot, hj, hnode]

/-! ## Fewer names -/

/-- `fs'` is `fs` with some entries gone. -/
structure Erased (fs fs' : Fs) : Prop where
  root : fs'.root = fs.root
  cwd : fs'.cwd = fs.cwd
  dirs : ∀ i d', fs'.dir? i = some d' → ∃ d, fs.dir? i = some d ∧ d'.parent = d.parent ∧
    ∀ n j, d'.lookup n = some j → d.lookup n = some j
  others : ∀ i, fs'.dir? i = none → fs'.nodes i = fs.nodes i

theorem Erased.refl (fs : Fs) : Erased fs fs :=
  ⟨rfl, rfl, fun _ d hd => ⟨d, hd, rfl, fun _ _ h => h⟩, fun _ _ => rfl⟩

theorem Erased.dir?_none (h : Erased fs fs') {i : ℕ} (hi : fs'.dir? i = none) :
    fs.dir? i = none := by
  have hn := h.others i hi
  unfold dir? at hi ⊢
  rwa [← hn]

theorem Erased.trans (h : Erased fs fs') (h' : Erased fs' fs'') : Erased fs fs'' := by
  refine ⟨h'.root.trans h.root, h'.cwd.trans h.cwd, fun i d'' hd'' => ?_, fun i hi => ?_⟩
  · obtain ⟨d', hd', hp', hl'⟩ := h'.dirs i d'' hd''
    obtain ⟨d, hd, hp, hl⟩ := h.dirs i d' hd'
    exact ⟨d, hd, hp'.trans hp, fun n j hn => hl n j (hl' n j hn)⟩
  · rw [h'.others i hi, h.others i (h'.dir?_none hi)]

theorem Erased.isSome (h : Erased fs fs') (i : ℕ) : (fs'.dir? i).isSome = (fs.dir? i).isSome := by
  cases hi : fs'.dir? i with
  | none => rw [h.dir?_none hi]
  | some d' =>
    obtain ⟨d, hd, -⟩ := h.dirs i d' hi
    rw [hd]; rfl

theorem Erased.grown (h : Erased fs fs') : Grown fs' fs :=
  ⟨h.root.symm, h.cwd.symm, h.dirs, fun i _ hi => h.others i hi⟩

theorem Erased.entry (h : Erased fs fs') {i j : ℕ} {n : Bytes} (hn : fs'.entry i n = some j) :
    fs.entry i n = some j :=
  h.grown.entry hn

theorem Erased.child (h : Erased fs fs') {i j : ℕ} (hc : fs'.Child i j) : fs.Child i j := by
  obtain ⟨⟨n, hn⟩, hj⟩ := hc
  exact ⟨⟨n, h.entry hn⟩, by rwa [← h.isSome]⟩

theorem Erased.look (h : Erased fs fs') {cur i : ℕ} {c : Bytes} (hl : fs'.look cur c = .ok i) :
    fs.look cur c = .ok i :=
  h.grown.look hl

theorem Erased.walkFrom (h : Erased fs fs') {p : Bytes} {cs : List Bytes} {r : ℕ × ℕ}
    (hw : fs'.walkFrom p cs = .ok r) : fs.walkFrom p cs = .ok r :=
  h.grown.walkFrom hw

theorem Erased.leaf (h : Erased fs fs') {p : Bytes} {r : ℕ × Bytes} (hl : fs'.leaf p = .ok r) :
    fs.leaf p = .ok r :=
  h.grown.leaf hl

/-! ## Removing one name -/

theorem dir?_erase (i j : ℕ) (n : Bytes) :
    (fs.erase i n).dir? j = (fs.dir? j).map fun d => if j = i then d.erase n else d := by
  cases hj : fs.nodes j with
  | none => simp [dir?, erase, eraseNodes, hj]
  | some node => cases node <;> simp [dir?, erase, eraseNodes, hj]

theorem entry_erase (i j : ℕ) (n m : Bytes) :
    (fs.erase i n).entry j m = if j = i ∧ m = n then none else fs.entry j m := by
  unfold entry
  rw [dir?_erase]
  cases fs.dir? j with
  | none => simp
  | some d =>
    by_cases hj : j = i
    · simp [hj, Dir.lookup_erase]
    · simp [hj]

theorem erased_erase (i : ℕ) (n : Bytes) : Erased fs (fs.erase i n) := by
  refine ⟨rfl, rfl, fun j d' hd' => ?_, fun j hj => ?_⟩
  · obtain ⟨d, hd, hp, hsub⟩ := eraseNodes_dir (dir?_eq_some.1 hd')
    exact ⟨d, dir?_eq_some.2 hd, hp, hsub⟩
  · rw [dir?_erase, Option.map_eq_none_iff] at hj
    simp only [erase, eraseNodes]
    split
    · next d hd => rw [dir?_eq_some.2 hd] at hj; cases hj
    · rfl

theorem unlink_ok {p : Bytes} (h : fs.unlink p = .ok fs') :
    ∃ i n, fs.leaf p = .ok (i, n) ∧ fs' = fs.erase i n := by
  unfold unlink at h
  split_ifs at h
  split at h
  · cases h
  · next i n hl =>
    split at h
    · cases h
    · split_ifs at h
      cases h
      exact ⟨i, n, hl, rfl⟩

theorem rmdir_ok {p : Bytes} (h : fs.rmdir p = .ok fs') :
    ∃ i n, fs.leaf p = .ok (i, n) ∧ fs' = fs.erase i n := by
  unfold rmdir at h
  split at h
  · cases h
  · next i n hl =>
    split_ifs at h
    split at h
    · cases h
    · split at h
      · cases h
      · split_ifs at h
        cases h
        exact ⟨i, n, hl, rfl⟩

/-! ## What may be gone -/

/-- `fs'` is `fs` with some of the entries in `S` gone, and nothing else. -/
structure Frame (S : ℕ → Bytes → Prop) (fs fs' : Fs) : Prop where
  erased : Erased fs fs'
  only : ∀ i n, fs'.entry i n ≠ fs.entry i n → S i n

variable {S T : ℕ → Bytes → Prop}

theorem Frame.refl (S : ℕ → Bytes → Prop) (fs : Fs) : Frame S fs fs :=
  ⟨Erased.refl fs, fun _ _ h => absurd rfl h⟩

theorem Frame.trans (h : Frame S fs fs') (h' : Frame S fs' fs'') : Frame S fs fs'' := by
  refine ⟨h.erased.trans h'.erased, fun i n hne => ?_⟩
  by_cases heq : fs''.entry i n = fs'.entry i n
  · exact h.only i n (by rwa [← heq])
  · exact h'.only i n heq

theorem Frame.mono (h : Frame S fs fs') (hST : ∀ i n, S i n → T i n) : Frame T fs fs' :=
  ⟨h.erased, fun i n hne => hST i n (h.only i n hne)⟩

theorem Frame.erase {i : ℕ} {n : Bytes} (h : S i n) : Frame S fs (fs.erase i n) := by
  refine ⟨erased_erase i n, fun j m hne => ?_⟩
  rw [entry_erase] at hne
  split_ifs at hne with hjm
  · rw [hjm.1, hjm.2]; exact h
  · exact absurd rfl hne

theorem Erased.entry_none (h : Erased fs fs') {i : ℕ} {n : Bytes} (hn : fs.entry i n = none) :
    fs'.entry i n = none := by
  by_contra hne
  obtain ⟨j, hj⟩ := Option.ne_none_iff_exists'.1 hne
  rw [h.entry hj] at hn
  cases hn

/-- A call that removes the last piece of its pathname, or does nothing. -/
theorem frame_update (faults : ℕ → Option Errno) (s : Sys) {f : Fs → Except Errno Fs} {p : Bytes}
    (hf : ∀ {fs'}, f s.fs = .ok fs' → ∃ i n, s.fs.leaf p = .ok (i, n) ∧ fs' = s.fs.erase i n)
    (hS : ∀ i n, s.fs.leaf p = .ok (i, n) → S i n) :
    Frame S s.fs (s.update faults f).2.fs := by
  rcases s.update_fs faults f with h | h
  · rw [h]; exact Frame.refl S s.fs
  · obtain ⟨i, n, hl, he⟩ := hf h
    rw [he]
    exact Frame.erase (hS i n hl)

/-! ## Trees -/

/-- The directory `j` is `i`, or under it through directories. -/
def Under (fs : Fs) : ℕ → ℕ → Prop := Relation.ReflTransGen fs.Child

theorem Under.mono (h : Erased fs fs') {i j : ℕ} (hu : fs'.Under i j) : fs.Under i j :=
  Relation.ReflTransGen.mono (fun _ _ hc => h.child hc) _ _ hu

theorem Under.head {i j k : ℕ} {n : Bytes} {d : Dir} (hn : fs.entry i n = some j)
    (hj : fs.dir? j = some d) (hu : fs.Under j k) : fs.Under i k :=
  Relation.ReflTransGen.head ⟨⟨n, hn⟩, by rw [hj]; rfl⟩ hu

/-! ## Pathnames of entries -/

/-- The pathname `q` is `p` and then the name `n`. -/
structure Extends (p n q : Bytes) : Prop where
  pieces : q.pieces slash = p.pieces slash ++ [n]
  head : q.head? = p.head?
  last : q.getLast? ≠ some slash
  nonempty : q ≠ []

theorem ValidName.extends {p n : Bytes} (hn : ValidName n) (hp : p ≠ []) :
    Extends p n (p ++ slash :: n) := by
  refine ⟨?_, ?_, ?_, by simp⟩
  · rw [List.pieces_append, List.pieces_of_notMem hn.noSlash hn.nonempty]
  · cases p with
    | nil => exact absurd rfl hp
    | cons => rfl
  · intro hlast
    have hmem : slash ∈ n := by
      obtain ⟨a, n', rfl⟩ := List.exists_cons_of_ne_nil hn.nonempty
      rw [List.getLast?_append_of_ne_nil _ (by simp), List.getLast?_cons_cons] at hlast
      exact List.mem_of_getLast? hlast
    exact hn.noSlash hmem

theorem ValidName.extends_slash {p n : Bytes} (hn : ValidName n) (hp : p.getLast? = some slash) :
    Extends p n (p ++ n) := by
  obtain ⟨p', rfl⟩ : ∃ p', p = p' ++ [slash] := by
    obtain ⟨p', hp'⟩ := List.getLast?_eq_some_iff.1 hp
    exact ⟨p', hp'⟩
  refine ⟨?_, ?_, ?_, by simp⟩
  · rw [List.append_assoc, List.singleton_append, List.pieces_append, List.pieces_snoc_sep,
      List.pieces_of_notMem hn.noSlash hn.nonempty]
  · cases p' <;> rfl
  · intro hlast
    rw [List.getLast?_append_of_ne_nil _ hn.nonempty] at hlast
    exact hn.noSlash (List.mem_of_getLast? hlast)

theorem Extends.comps {p n q : Bytes} (h : Extends p n q) : comps q = p.pieces slash ++ [n] := by
  simp [Fs.comps, h.last, h.pieces]

theorem Extends.walkFrom {p n q : Bytes} (h : Extends p n q) (cs : List Bytes) :
    fs.walkFrom q cs = fs.walkFrom p cs := by
  simp [Fs.walkFrom, start, h.head]

/-- `lstat` of an entry looks its name up where the pathname of the directory leads. -/
theorem Extends.lstat {p n q : Bytes} (h : Extends p n q) {i : ℕ} (hl : fs.lstat q = .ok i) :
    ∃ cur b, fs.walkFrom p (p.pieces slash) = .ok (cur, b) ∧ fs.look cur n = .ok i := by
  simp only [Fs.lstat, h.nonempty, h.comps, if_false, List.getLast?_concat, List.dropLast_concat,
    h.walkFrom] at hl
  split at hl
  · cases hl
  · next cur b hw => exact ⟨cur, b, hw, hl⟩

theorem Extends.leaf {p n q : Bytes} (h : Extends p n q) {r : ℕ × Bytes} (hl : fs.leaf q = .ok r) :
    ∃ cur b, fs.walkFrom p (p.pieces slash) = .ok (cur, b) ∧ r = (cur, n) := by
  simp only [Fs.leaf, h.pieces, List.getLast?_concat, List.dropLast_concat, h.walkFrom] at hl
  split at hl
  · cases hl
  · next cur b hw => exact ⟨cur, b, hw, (Except.ok.inj hl).symm⟩

/-- The pathname `p` leads to the directory `i`. -/
def Leads (fs : Fs) (p : Bytes) (i : ℕ) : Prop :=
  p ≠ [] ∧ (fs.dir? i).isSome ∧ ∃ b, fs.walkFrom p (p.pieces slash) = .ok (i, b)

/-- A walk that gets through `.` at the end of its way was in a directory. -/
theorem walk_dot_eq {budget cur : ℕ} {r : ℕ × ℕ} (h : fs.walk budget cur [dot] = .ok r) :
    r = (cur, budget) ∧ (fs.dir? cur).isSome := by
  cases hd : fs.dir? cur with
  | none => cases budget <;> simp [walk, walkWith, hd] at h
  | some d =>
    rw [walk_dot hd] at h
    exact ⟨(Except.ok.inj h).symm, rfl⟩

theorem leads_of_resolve {p : Bytes} {i : ℕ} {d : Dir} (h : fs.resolve p = .ok i)
    (hi : fs.dir? i = some d) : fs.Leads p i := by
  unfold resolve at h
  split_ifs at h with hp
  refine ⟨hp, by rw [hi]; rfl, ?_⟩
  obtain ⟨⟨i', b⟩, hw, hi'⟩ : ∃ r, fs.walkFrom p (comps p) = .ok r ∧ r.1 = i := by
    cases hw : fs.walkFrom p (comps p) with
    | error e => rw [hw] at h; cases h
    | ok r => rw [hw] at h; exact ⟨r, rfl, Except.ok.inj h⟩
  obtain rfl : i' = i := hi'
  unfold comps at hw
  split_ifs at hw
  · rw [walkFrom, walk_append] at hw
    cases hw' : fs.walk symloopMax (fs.start fs.cwd p) (p.pieces slash) with
    | error e => rw [hw'] at hw; cases hw
    | ok r =>
      rw [hw'] at hw
      obtain ⟨hr, -⟩ := walk_dot_eq hw
      exact ⟨r.2, by rw [walkFrom, hw', Prod.mk.injEq .. |>.mp hr |>.1]⟩
  · rw [List.append_nil] at hw
    exact ⟨b, hw⟩

/-- A walk of one component goes where the component names, or through a link that it names. -/
theorem look_of_walk {budget cur i : ℕ} {c : Bytes}
    (h : (fs.walk budget cur [c]).map Prod.fst = .ok i) :
    ∃ j, fs.look cur c = .ok j ∧ ((∃ t, fs.nodes j = some (.link t)) ∨ j = i) := by
  have step : ∀ onLink, (fs.walkWith budget onLink cur [c]).map Prod.fst = .ok i →
      ∃ j, fs.look cur c = .ok j ∧ ((∃ t, fs.nodes j = some (.link t)) ∨ j = i) := by
    intro onLink h
    simp only [walkWith] at h
    unfold look
    split at h
    · cases h
    · split_ifs at h ⊢
      · exact ⟨_, rfl, Or.inr (Except.ok.inj h)⟩
      · exact ⟨_, rfl, Or.inr (Except.ok.inj h)⟩
      · split at h
        · cases h
        · next j hj =>
          refine ⟨j, rfl, ?_⟩
          split at h
          · next t ht => exact Or.inl ⟨t, ht⟩
          · exact Or.inr (Except.ok.inj h)
  cases budget <;> exact step _ h

theorem Leads.resolve {p : Bytes} {i : ℕ} (h : fs.Leads p i) : fs.resolve p = .ok i := by
  obtain ⟨hp, hi, b, hw⟩ := h
  obtain ⟨d, hd⟩ := Option.isSome_iff_exists.1 hi
  unfold Fs.resolve comps
  rw [if_neg hp]
  split_ifs
  · rw [walkFrom] at hw
    rw [walkFrom, walk_append, hw]
    show ((fs.walk b i [dot]).map Prod.fst) = _
    rw [walk_dot hd]
    rfl
  · rw [List.append_nil, hw]
    rfl

theorem Leads.opendir {p : Bytes} {i : ℕ} {d : Dir} (h : fs.Leads p i) (hd : fs.dir? i = some d) :
    fs.opendir p = .ok d := by
  rw [Fs.opendir, h.resolve]
  simp only [hd]

theorem leads_of_lstat {p : Bytes} {i : ℕ} {d : Dir} (h : fs.lstat p = .ok i)
    (hi : fs.dir? i = some d) : fs.Leads p i := by
  refine leads_of_resolve (d := d) ?_ hi
  unfold lstat at h
  split_ifs at h with hp
  unfold resolve
  rw [if_neg hp]
  split at h
  · next hnone =>
    rw [List.getLast?_eq_none_iff] at hnone
    rw [hnone, walkFrom, walk_nil]
    exact h
  · next c hc =>
    obtain ⟨cs, hcs⟩ := List.getLast?_eq_some_iff.1 hc
    rw [hcs, List.dropLast_concat] at h
    split at h
    · cases h
    · next cur b hw =>
      rw [walkFrom] at hw
      rw [hcs, walkFrom, walk_append, hw]
      show ((fs.walk b cur [c]).map Prod.fst) = _
      rw [walk_look h hi]
      rfl

/-- The parts of a pathname: where all but the last one lead, and the last one. -/
theorem leaf_ok {p : Bytes} {cur : ℕ} {c : Bytes} (h : fs.leaf p = .ok (cur, c)) :
    p ≠ [] ∧ ∃ cs b, p.pieces slash = cs ++ [c] ∧
      fs.walk symloopMax (fs.start fs.cwd p) cs = .ok (cur, b) := by
  unfold Fs.leaf at h
  split at h
  · cases h
  · next c' hlast =>
    split at h
    · cases h
    · next cur' b hw =>
      cases h
      obtain ⟨cs, hcs⟩ := List.getLast?_eq_some_iff.1 hlast
      rw [hcs, List.dropLast_concat, walkFrom] at hw
      refine ⟨?_, cs, b, hcs, hw⟩
      rintro rfl
      simp at hlast

theorem leads_of_leaf {p : Bytes} {cur i : ℕ} {c : Bytes} {d : Dir} (h : fs.leaf p = .ok (cur, c))
    (hlook : fs.look cur c = .ok i) (hi : fs.dir? i = some d) : fs.Leads p i := by
  obtain ⟨hp, cs, b, hcs, hw⟩ := leaf_ok h
  refine ⟨hp, by rw [hi]; rfl, b, ?_⟩
  rw [hcs, walkFrom, walk_append, hw]
  exact walk_look hlook hi

theorem comps_ne_nil {p : Bytes} (hp : p ≠ []) : comps p ≠ [] := by
  unfold comps
  split_ifs with hlast
  · simp
  · rw [List.append_nil]
    refine List.pieces_ne_nil (List.getLast_mem hp) fun he => hlast ?_
    rw [List.getLast?_eq_some_getLast hp, he]

theorem look_entry {cur i : ℕ} {c : Bytes} (h : fs.look cur c = .ok i) (hi : fs.dir? i = none) :
    fs.entry cur c = some i ∧ c ≠ dot ∧ c ≠ dotdot := by
  unfold look at h
  split at h
  · cases h
  · next d hd =>
    split_ifs at h with hdot hdotdot
    · cases h; rw [hd] at hi; cases hi
    · cases h
      obtain ⟨e, he⟩ := fs.parents cur d (dir?_eq_some.1 hd)
      rw [dir?_eq_some.2 he] at hi; cases hi
    · split at h
      · cases h
      · next j hj =>
        cases h
        exact ⟨by rw [entry_eq hd, hj], hdot, hdotdot⟩

theorem look_of_entry {cur i : ℕ} {c : Bytes} (h : fs.entry cur c = some i) (hdot : c ≠ dot)
    (hdotdot : c ≠ dotdot) : fs.look cur c = .ok i := by
  obtain ⟨d, hd, hl⟩ := Option.bind_eq_some_iff.1 h
  simp [look, hd, hdot, hdotdot, hl]

/-- **A name that is no directory** is the last piece of its pathname: `unlink` removes it, and
    `rmdir` does not. -/
theorem leaf_of_lstat {p : Bytes} {i : ℕ} (h : fs.lstat p = .ok i) (hi : fs.dir? i = none) :
    ∃ cur n, fs.leaf p = .ok (cur, n) ∧ fs.entry cur n = some i ∧
      fs.unlink p = .ok (fs.erase cur n) ∧ ∀ fs', fs.rmdir p ≠ .ok fs' := by
  unfold lstat at h
  split_ifs at h with hp
  split at h
  · next hnone => exact absurd (List.getLast?_eq_none_iff.1 hnone) (comps_ne_nil hp)
  · next c hc =>
    split at h
    · cases h
    · next cur b hw =>
      obtain ⟨hentry, hdot, hdotdot⟩ := look_entry h hi
      have hlast : p.getLast? ≠ some slash := by
        intro hlast
        simp only [comps, hlast, if_true, List.getLast?_concat, Option.some.injEq] at hc
        exact hdot hc.symm
      have hcomps : comps p = p.pieces slash := by simp [comps, hlast]
      rw [hcomps] at hc hw
      have hleaf : fs.leaf p = .ok (cur, c) := by simp only [leaf, hc, hw]
      refine ⟨cur, c, hleaf, hentry, ?_, fun fs' => ?_⟩
      · simp [unlink, hlast, hleaf, h, hi]
      · simp [rmdir, hleaf, hdot, hdotdot, h, hi]

theorem lstat_of_leaf {p : Bytes} {cur i : ℕ} {c : Bytes} {d : Dir} (h : fs.leaf p = .ok (cur, c))
    (hlook : fs.look cur c = .ok i) (hi : fs.dir? i = some d) : fs.lstat p = .ok i := by
  obtain ⟨hp, cs, b, hcs, hw⟩ := leaf_ok h
  unfold lstat comps
  rw [if_neg hp]
  split_ifs
  · have hdot : fs.look i dot = .ok i := by simp [Fs.look, hi]
    simp only [List.getLast?_concat, List.dropLast_concat, hcs, walkFrom, walk_append, hw,
      Except.bind, walk_look hlook hi, hdot]
  · simp only [hcs, List.append_nil, List.getLast?_concat, List.dropLast_concat, walkFrom, hw,
      hlook]

/-- **A pathname whose last piece is missing** names nothing. -/
theorem lstat_of_missing {p : Bytes} {cur : ℕ} {c : Bytes} (h : fs.leaf p = .ok (cur, c))
    (hdir : (fs.dir? cur).isSome) (hdot : c ≠ dot) (hdotdot : c ≠ dotdot)
    (hnone : fs.entry cur c = none) : fs.lstat p = .error Errno.ENOENT := by
  obtain ⟨hp, cs, b, hcs, hw⟩ := leaf_ok h
  obtain ⟨d, hd⟩ := Option.isSome_iff_exists.1 hdir
  rw [entry_eq hd] at hnone
  unfold lstat comps
  rw [if_neg hp]
  split_ifs
  · -- the walk goes on to the `.` behind the missing name
    have hmiss : fs.walk b cur [c] = .error Errno.ENOENT := by
      cases b <;> simp [walk, walkWith, hd, hdot, hdotdot, hnone]
    simp only [List.getLast?_concat, List.dropLast_concat, hcs, walkFrom, walk_append, hw,
      Except.bind, hmiss]
  · simp only [hcs, List.append_nil, List.getLast?_concat, List.dropLast_concat, walkFrom, hw,
      look, hd, if_neg hdot, if_neg hdotdot, hnone]

/-- **A pathname that resolves to a directory** names it, or a link. -/
theorem lstat_of_opendir {p : Bytes} {d : Dir} (h : fs.opendir p = .ok d) :
    ∃ D i, fs.resolve p = .ok D ∧ fs.dir? D = some d ∧ fs.lstat p = .ok i ∧
      ((∃ t, fs.nodes i = some (.link t)) ∨ i = D) := by
  unfold opendir at h
  split at h
  · cases h
  · next D hD =>
    split at h
    · cases h
    · next d' hd' =>
      cases h
      refine ⟨D, ?_⟩
      unfold resolve at hD
      split_ifs at hD with hp
      unfold resolve lstat
      rw [if_neg hp, if_neg hp]
      cases hc : (comps p).getLast? with
      | none =>
        rw [List.getLast?_eq_none_iff] at hc
        rw [hc, walkFrom, walk_nil] at hD
        refine ⟨_, ?_, hd', rfl, Or.inr ?_⟩
        · rw [hc, walkFrom, walk_nil]; exact hD
        · exact Except.ok.inj hD
      | some c =>
        obtain ⟨cs, hcs⟩ := List.getLast?_eq_some_iff.1 hc
        rw [hcs, List.dropLast_concat]
        rw [hcs] at hD
        have hwalk := hD
        rw [walkFrom, walk_append] at hwalk
        cases hw : fs.walk symloopMax (fs.start fs.cwd p) cs with
        | error e => rw [hw] at hwalk; cases hwalk
        | ok r =>
          rw [hw] at hwalk
          obtain ⟨i, hi, hlink⟩ := look_of_walk (show (fs.walk r.2 r.1 [c]).map Prod.fst = .ok D
            from hwalk)
          refine ⟨i, hD, hd', ?_, hlink⟩
          simp only [walkFrom, hw]
          exact hi

theorem Extends.entry {p n q : Bytes} (h : Extends p n q) (hn : ValidName n) {E i : ℕ}
    (hE : fs.Leads p E) (hi : fs.entry E n = some i) :
    fs.lstat q = .ok i ∧ fs.leaf q = .ok (E, n) := by
  obtain ⟨-, -, b, hw⟩ := hE
  have hlook : fs.look E n = .ok i := look_of_entry hi hn.notDot hn.notDotdot
  constructor
  · simp only [Fs.lstat, h.nonempty, h.comps, if_false, List.getLast?_concat,
      List.dropLast_concat, h.walkFrom, hw, hlook]
  · simp only [Fs.leaf, h.pieces, List.getLast?_concat, List.dropLast_concat, h.walkFrom, hw]

theorem Extends.rmdir {p n q : Bytes} (h : Extends p n q) (hn : ValidName n) {E i : ℕ} {d : Dir}
    (hE : fs.Leads p E) (hi : fs.entry E n = some i) (hd : fs.dir? i = some d)
    (hempty : d.entries = []) : fs.rmdir q = .ok (fs.erase E n) := by
  simp [Fs.rmdir, (h.entry hn hE hi).2, hn.notDot, hn.notDotdot,
    look_of_entry hi hn.notDot hn.notDotdot, hd, hempty]

theorem Erased.leads_eq (h : Erased fs fs') {p : Bytes} {i cur b : ℕ} (hl : fs.Leads p i)
    (hw : fs'.walkFrom p (p.pieces slash) = .ok (cur, b)) : cur = i := by
  obtain ⟨-, -, b', hw'⟩ := hl
  rw [h.walkFrom hw] at hw'
  exact (Prod.mk.inj (Except.ok.inj hw')).1

end Fs

end PosixFs
