/-
  A POSIX filesystem that gets directories — `mkdir`.

  A new node has a number that was not in use.  Which one it gets, and whether
  there is one left, is up to the filesystem (`Alloc`).

  * `insert`: a new directory as an entry, and `insert_grown`: everything else
    is as it was;
  * `mkdir`: the call; `Made.leads`: the pathname leads to the new directory.
-/
import Ekostd.Lib.PosixErase

namespace PosixFs

/-- The directory with the entry `n` besides, unless it has one of that name. -/
def Dir.insert (d : Dir) (n : Bytes) (hn : ValidName n) (j : ℕ) : Dir :=
  if h : d.lookup n = none then
    { parent := d.parent
      entries := (n, j) :: d.entries
      nodup := by
        rw [List.map_cons, List.nodup_cons]
        refine ⟨fun hmem => ?_, d.nodup⟩
        obtain ⟨⟨m, i⟩, he, rfl⟩ := List.mem_map.1 hmem
        rw [Dir.lookup_eq_some.2 he] at h
        cases h
      valid := fun e he => by
        rcases List.mem_cons.1 he with rfl | he
        · exact hn
        · exact d.valid e he }
  else d

theorem Dir.lookup_insert {d : Dir} {n : Bytes} (hn : ValidName n) (j : ℕ) (h : d.lookup n = none)
    (m : Bytes) : (d.insert n hn j).lookup m = if m = n then some j else d.lookup m := by
  unfold Dir.insert
  rw [dif_pos h]
  simp only [Dir.lookup, List.lookup_cons]
  by_cases hm : m = n
  · simp [hm]
  · rw [if_neg hm, beq_eq_false_iff_ne.2 hm]

theorem Dir.insert_parent (d : Dir) (n : Bytes) (hn : ValidName n) (j : ℕ) :
    (d.insert n hn j).parent = d.parent := by
  unfold Dir.insert
  split_ifs <;> rfl

theorem Dir.valid_nil : ∀ e ∈ ([] : List (Bytes × ℕ)), ValidName e.1 :=
  fun _ he => absurd he List.not_mem_nil

namespace Fs

open Errno

variable {fs fs' : Fs} {i j k : ℕ} {n m p : Bytes} {d : Dir}

/-- How the number of a new node is found; `none` if there is none left. -/
abbrev Alloc := (fs : Fs) → Option {j // ¬ fs.Used j}

/-- The nodes when the directory `i` has got the new directory `j` as its entry `n`. -/
def insertNodes (fs : Fs) (i : ℕ) (n : Bytes) (hn : ValidName n) (j k : ℕ) : Option Node :=
  if k = j then some (.dir ⟨i, [], List.nodup_nil, Dir.valid_nil⟩)
  else match fs.nodes k with
    | some (.dir d) => some (.dir (if k = i then d.insert n hn j else d))
    | node => node

theorem Used.not_dir (hj : ¬ fs.Used j) : fs.dir? j = none := by
  by_contra hne
  obtain ⟨d, hd⟩ := Option.ne_none_iff_exists'.1 hne
  exact hj (used_of_dir hd)

/-- What a directory of the new filesystem is: the new one, or an old one with the same parent and
    entries, save that `i` has the new entry. -/
theorem insertNodes_dir {hn : ValidName n} (h : fs.insertNodes i n hn j k = some (.dir d)) :
    k = j ∧ d.parent = i ∧ d.entries = [] ∨
      k ≠ j ∧ ∃ d₀, fs.nodes k = some (.dir d₀) ∧ d = if k = i then d₀.insert n hn j else d₀ := by
  unfold insertNodes at h
  by_cases hkj : k = j
  · rw [if_pos hkj] at h
    cases h
    exact .inl ⟨hkj, rfl, rfl⟩
  · rw [if_neg hkj] at h
    refine .inr ⟨hkj, ?_⟩
    split at h
    next d₀ hd₀ =>
      cases h
      exact ⟨d₀, hd₀, rfl⟩
    next hne => exact absurd h (hne d)

theorem insertNodes_of_dir {hn : ValidName n} (hj : ¬ fs.Used j) (h : fs.nodes k = some (.dir d)) :
    fs.insertNodes i n hn j k = some (.dir (if k = i then d.insert n hn j else d)) := by
  have hkj : k ≠ j := by
    rintro rfl
    exact hj (used_of_dir (dir?_eq_some.2 h))
  rw [insertNodes, if_neg hkj, h]

theorem lookup_insert_eq {hn : ValidName n} {d : Dir} {k : ℕ} {x : Bytes}
    (h : (d.insert n hn j).lookup x = some k) : k = j ∨ d.lookup x = some k := by
  by_cases hnone : d.lookup n = none
  · rw [Dir.lookup_insert hn j hnone] at h
    split_ifs at h with hx
    · cases h
      exact .inl rfl
    · exact .inr h
  · rw [Dir.insert, dif_neg hnone] at h
    exact .inr h

theorem insertNodes_parents {hn : ValidName n} (hi : (fs.dir? i).isSome) (hj : ¬ fs.Used j)
    (hk : fs.insertNodes i n hn j k = some (.dir d)) :
    ∃ e, fs.insertNodes i n hn j d.parent = some (.dir e) := by
  have hdir : ∀ p e, fs.nodes p = some (.dir e) →
      ∃ e', fs.insertNodes i n hn j p = some (.dir e') :=
    fun p e he => ⟨_, insertNodes_of_dir hj he⟩
  rcases insertNodes_dir hk with ⟨-, rfl, -⟩ | ⟨-, d₀, hd₀, rfl⟩
  · obtain ⟨e, he⟩ := Option.isSome_iff_exists.1 hi
    exact hdir _ e (dir?_eq_some.1 he)
  · obtain ⟨e, he⟩ := fs.parents k d₀ hd₀
    have hp : (if k = i then d₀.insert n hn j else d₀).parent = d₀.parent := by
      split_ifs
      · exact Dir.insert_parent d₀ n hn j
      · rfl
    rw [hp]
    exact hdir _ e he

theorem insertNodes_acyclic (fs : Fs) (i : ℕ) (n : Bytes) (hn : ValidName n) (j : ℕ) :
    ∃ height : ℕ → ℕ, ∀ k d x l e, fs.insertNodes i n hn j k = some (.dir d) →
      d.lookup x = some l → fs.insertNodes i n hn j l = some (.dir e) → height l < height k := by
  obtain ⟨height, h⟩ := fs.acyclic
  -- the new directory is at the bottom, and every other one a step higher than before
  refine ⟨fun k => if k = j then 0 else height k + 1, fun k d x l e hk hx hl => ?_⟩
  rcases insertNodes_dir hk with ⟨-, -, hnil⟩ | ⟨hkj, d₀, hd₀, rfl⟩
  · rw [Dir.lookup, hnil] at hx
    cases hx
  · simp only [if_neg hkj]
    by_cases hlj : l = j
    · rw [if_pos hlj]
      omega
    · have hx₀ : d₀.lookup x = some l := by
        split_ifs at hx
        · exact (lookup_insert_eq hx).resolve_left hlj
        · exact hx
      rcases insertNodes_dir hl with ⟨hl, -⟩ | ⟨-, e₀, he₀, -⟩
      · exact absurd hl hlj
      · rw [if_neg hlj]
        have hlt := h k d₀ x l e₀ hd₀ hx₀ he₀
        omega

/-- The directory `i` gets the new directory `j` as its entry `n`. -/
def insert (fs : Fs) (i : ℕ) (n : Bytes) (j : ℕ) (hn : ValidName n) (hi : (fs.dir? i).isSome)
    (hj : ¬ fs.Used j) : Fs where
  nodes := fs.insertNodes i n hn j
  root := fs.root
  cwd := fs.cwd
  parents _ _ hk := insertNodes_parents hi hj hk
  acyclic := fs.insertNodes_acyclic i n hn j

section
variable (hn : ValidName n) (hi : (fs.dir? i).isSome) (hj : ¬ fs.Used j)

theorem insert_dir (hd : fs.dir? k = some d) :
    (fs.insert i n j hn hi hj).dir? k = some (if k = i then d.insert n hn j else d) :=
  dir?_eq_some.2 (insertNodes_of_dir hj (dir?_eq_some.1 hd))

theorem insert_new : ∃ d, (fs.insert i n j hn hi hj).dir? j = some d ∧ d.parent = i ∧
    d.entries = [] :=
  ⟨_, dir?_eq_some.2 (if_pos rfl), rfl, rfl⟩

/-- **Nothing else changes.** -/
theorem insert_grown (hnew : fs.entry i n = none) : Grown fs (fs.insert i n j hn hi hj) := by
  refine ⟨rfl, rfl, fun k d hd => ⟨_, insert_dir hn hi hj hd, ?_, fun x l hx => ?_⟩, ?_⟩
  · split_ifs
    · exact (Dir.insert_parent d n hn j).symm
    · rfl
  · split_ifs with hk
    · subst hk
      rw [entry_eq hd] at hnew
      rw [Dir.lookup_insert hn j hnew, if_neg, hx]
      rintro rfl
      rw [hnew] at hx
      cases hx
    · exact hx
  · intro k hk hd
    have hkj : k ≠ j := by
      rintro rfl
      exact hj hk
    show fs.nodes k = fs.insertNodes i n hn j k
    rw [insertNodes, if_neg hkj]
    split
    · next d hd' => rw [dir?_eq_some.2 hd'] at hd; cases hd
    · rfl

theorem entry_insert (hnew : fs.entry i n = none) (k : ℕ) (m : Bytes) :
    (fs.insert i n j hn hi hj).entry k m = if k = i ∧ m = n then some j else fs.entry k m := by
  by_cases hkj : k = j
  · subst hkj
    obtain ⟨d, hd, -, hnil⟩ := insert_new hn hi hj
    have hki : k ≠ i := by
      rintro rfl
      rw [Used.not_dir hj] at hi
      cases hi
    rw [entry_eq hd, if_neg fun h => hki h.1, Dir.lookup, hnil, entry, Used.not_dir hj]
    rfl
  · cases hk : fs.dir? k with
    | some d =>
      rw [entry_eq (insert_dir hn hi hj hk), entry_eq hk]
      by_cases hki : k = i
      · subst hki
        rw [entry_eq hk] at hnew
        rw [if_pos rfl, Dir.lookup_insert hn j hnew]
        simp
      · rw [if_neg hki, if_neg fun h => hki h.1]
    | none =>
      have hki : k ≠ i := by
        rintro rfl
        rw [hk] at hi
        cases hi
      have hnone : (fs.insert i n j hn hi hj).dir? k = none := by
        by_contra hne
        obtain ⟨d, hd⟩ := Option.ne_none_iff_exists'.1 hne
        rcases insertNodes_dir (dir?_eq_some.1 hd) with ⟨h, -⟩ | ⟨-, d₀, hd₀, -⟩
        · exact hkj h
        · rw [dir?_eq_some.2 hd₀] at hk
          cases hk
      rw [if_neg fun h => hki h.1, entry, entry, hnone, hk]

end

/-- The last step of `mkdir`: a new directory `c` in the directory `cur`. -/
def mkdirIn (alloc : Alloc) (fs : Fs) (cur : ℕ) (c : Bytes) : Except Errno Fs :=
  match hd : fs.dir? cur with
  | none => .error ENOTDIR
  | some d =>
    -- a piece of a C string that is no name is `.` or `..`
    if hc : ValidName c then match d.lookup c with
      | some _ => .error EEXIST
      | none => match alloc fs with
        | none => .error ENOSPC
        | some j => .ok (fs.insert cur c j.1 hc (by rw [hd]; rfl) j.2)
    else .error EEXIST

/-- `mkdir`. -/
def mkdir (alloc : Alloc) (p : Bytes) (fs : Fs) : Except Errno Fs :=
  match (p.pieces slash).getLast? with
  | none => .error (if p = [] then ENOENT else EEXIST)
  | some c => match fs.walkFrom p (p.pieces slash).dropLast with
    | .error e => .error e
    | .ok (cur, _) => mkdirIn alloc fs cur c

/-- What `mkdir` has done: `c` is a new entry of the directory `cur`, where `p` names it, and it is
    the new empty directory `j`. -/
structure Made (fs fs' : Fs) (p : Bytes) (cur : ℕ) (c : Bytes) (j : ℕ) : Prop where
  leaf : fs.leaf p = .ok (cur, c)
  valid : ValidName c
  new : fs.entry cur c = none
  fresh : ¬ fs.Used j
  grown : Grown fs fs'
  dir : ∃ d, fs'.dir? j = some d ∧ d.parent = cur ∧ d.entries = []
  entries : ∀ k m, fs'.entry k m = if k = cur ∧ m = c then some j else fs.entry k m

/-- The last piece of `p` names the node `i`, a link being itself. -/
def Named (fs : Fs) (p : Bytes) (i : ℕ) : Prop :=
  ∃ cur c, fs.leaf p = .ok (cur, c) ∧ fs.look cur c = .ok i

theorem walk_error {budget cur : ℕ} {cs : List Bytes} {e : Errno}
    (h : fs.walk budget cur cs = .error e) : e = ENOTDIR ∨ e = ENOENT ∨ e = ELOOP := by
  have step : ∀ (b : ℕ) (onLink : ℕ → List Bytes → Except Errno (ℕ × ℕ)),
      (∀ cur cs, onLink cur cs = .error e → e = ENOTDIR ∨ e = ENOENT ∨ e = ELOOP) →
      ∀ cur cs, fs.walkWith b onLink cur cs = .error e → e = ENOTDIR ∨ e = ENOENT ∨ e = ELOOP := by
    intro b onLink hlink cur cs hw
    induction cs generalizing cur with
    | nil => cases hw
    | cons c cs ih =>
      simp only [walkWith] at hw
      split at hw
      · exact .inl (Except.error.inj hw).symm
      · split_ifs at hw
        · exact ih _ hw
        · exact ih _ hw
        · split at hw
          · exact .inr (.inl (Except.error.inj hw).symm)
          · split at hw
            · split_ifs at hw
              · exact .inr (.inl (Except.error.inj hw).symm)
              · exact hlink _ _ hw
            · exact ih _ hw
  induction budget generalizing cur cs with
  | zero => exact step 0 _ (fun _ _ h => .inr (.inr (Except.error.inj h).symm)) cur cs h
  | succ b ih => exact step (b + 1) _ (fun _ _ h => ih h) cur cs h

theorem mkdirIn_ok {alloc : Alloc} {cur : ℕ} {c : Bytes} (h : mkdirIn alloc fs cur c = .ok fs')
    (hleaf : fs.leaf p = .ok (cur, c)) : ∃ j, Made fs fs' p cur c j := by
  unfold mkdirIn at h
  split at h
  · cases h
  next d hd =>
    split_ifs at h with hc
    split at h
    · cases h
    next hnone =>
      split at h
      · cases h
      next j _ =>
        cases h
        have hnew : fs.entry cur c = none := by rw [entry_eq hd, hnone]
        exact ⟨j.1, hleaf, hc, hnew, j.2, insert_grown _ _ _ hnew, insert_new _ _ _,
          entry_insert _ _ _ hnew⟩

theorem mkdirIn_new {alloc : Alloc} {cur : ℕ} {c : Bytes} {j : {j // ¬ fs.Used j}}
    (hd : fs.dir? cur = some d) (hc : ValidName c) (hnone : d.lookup c = none)
    (hj : alloc fs = some j) :
    mkdirIn alloc fs cur c = .ok (fs.insert cur c j.1 hc (by rw [hd]; rfl) j.2) := by
  unfold mkdirIn
  split
  next h =>
    rw [hd] at h
    cases h
  next d' hd' =>
    obtain rfl := Option.some.inj (hd.symm.trans hd')
    simp only [dif_pos hc, hnone, hj]

theorem mkdirIn_exists {alloc : Alloc} {cur : ℕ} {c : Bytes} (hne : c ≠ []) (hslash : slash ∉ c)
    (hnul : 0 ∉ c) : mkdirIn alloc fs cur c = .error EEXIST ↔ ∃ i, fs.look cur c = .ok i := by
  have hdir : ENOTDIR ≠ EEXIST := by decide
  have hspace : ENOSPC ≠ EEXIST := by decide
  unfold mkdirIn
  split
  next hd => simp [look, hd, hdir]
  next d hd =>
    split_ifs with hc
    · simp only [look, hd, if_neg hc.notDot, if_neg hc.notDotdot]
      cases d.lookup c with
      | some i => simp
      | none => cases alloc fs <;> simp [hspace]
    · have hstep : c = dot ∨ c = dotdot := by
        by_contra! hnot
        exact hc ⟨hne, hslash, hnul, hnot.1, hnot.2⟩
      rcases hstep with rfl | rfl
      · simp [look, hd]
      · simp [look, hd, dot, dotdot]

theorem mkdir_ok {alloc : Alloc} (h : fs.mkdir alloc p = .ok fs') :
    ∃ cur c j, Made fs fs' p cur c j := by
  unfold mkdir at h
  split at h
  · cases h
  next c hlast =>
    split at h
    · cases h
    next cur b hw => exact ⟨cur, c, mkdirIn_ok h (by simp only [Fs.leaf, hlast, hw])⟩

/-- **`mkdir` finds something there** exactly if its pathname names something. -/
theorem mkdir_exists {alloc : Alloc} (hp : p.pieces slash ≠ []) (hnul : 0 ∉ p) :
    fs.mkdir alloc p = .error EEXIST ↔ ∃ i, fs.Named p i := by
  obtain ⟨c, hlast⟩ := Option.ne_none_iff_exists'.1 (mt List.getLast?_eq_none_iff.1 hp)
  have hpiece := List.mem_of_getLast? hlast
  obtain ⟨hne, hslash⟩ := List.of_mem_pieces hpiece
  unfold mkdir Named Fs.leaf
  simp only [hlast]
  cases hw : fs.walkFrom p (p.pieces slash).dropLast with
  | error e =>
    have he : e ≠ EEXIST := by
      rcases walk_error hw with rfl | rfl | rfl <;> decide
    simp [he]
  | ok r =>
    have hlook := @mkdirIn_exists fs alloc r.1 c hne hslash
      fun h => hnul (List.mem_of_mem_pieces hpiece h)
    simp [hlook]

/-- **The pathname leads to the new directory.** -/
theorem Made.leads {cur j : ℕ} {c : Bytes} (h : Made fs fs' p cur c j) : fs'.Leads p j := by
  obtain ⟨d, hd, -, -⟩ := h.dir
  have hentry : fs'.entry cur c = some j := by rw [h.entries, if_pos ⟨rfl, rfl⟩]
  have hlook := look_of_entry hentry h.valid.notDot h.valid.notDotdot
  exact leads_of_leaf (h.grown.leaf h.leaf) hlook hd

end Fs

end PosixFs
