/-
  `create_dir_all` in a filesystem.

  `mkdir(2)` says of a name that is there only that it is there.  On the way
  down that is harmless, as nothing can be made under what is no directory; at
  the end of the path nothing comes after it.

  * `ensureAll`: the filesystem after `mkdir` for some paths, where one that is
    there will do;
  * `Misled`: at the end of the path there is something else than a directory;
  * `create_dir_all_makes`: a success means a directory exactly if it is not
    misled, and nothing that was there is changed.
-/
import Ekostd.Fs.CreateDirAll
import Ekostd.Lib.PosixMkdir

namespace Ekostd.Fs

open PosixFs Ekostd.Path Ekostd.File List

variable (faults : ℕ → Option Errno) (alloc : PosixFs.Fs.Alloc)

/-- The filesystem after `mkdir` for each of the paths, if none fails otherwise than because its
    directory is there. -/
def ensureAll : List Bytes → Fs → Option Fs
  | [], fs => some fs
  | q :: qs, fs =>
    match fs.mkdir alloc q with
    | .ok fs => ensureAll qs fs
    | .error e => if e = Errno.EEXIST then ensureAll qs fs else none

/-- A success means that the path leads to a directory. -/
def MakesDir (p : Bytes) (d : Except Error Unit × Sys) : Prop :=
  d.1 = .ok () → ∃ i, d.2.fs.resolve p = .ok i ∧ (d.2.fs.dir? i).isSome

/-- When there is something at all shorter prefixes of the path, what is at its end is no directory,
    nor a link to one. -/
def Misled (fs : Fs) (p : Bytes) : Prop :=
  ∃ fs' q, ensureAll alloc (prefixes p).dropLast fs = some fs' ∧ (prefixes p).getLast? = some q ∧
    (∃ i, fs'.Named q i) ∧ ∀ i, ¬ fs'.Leads q i

variable {faults alloc} {fs fs' : Fs} {p q : Bytes} {qs : List Bytes} {s t : Sys}

/-! ## The prefixes -/

theorem pieces_intercalate (h : Parts qs) : ([slash].intercalate qs).pieces slash = qs := by
  induction qs with
  | nil => simp
  | cons q qs ih =>
    obtain ⟨hne, hslash⟩ := h q mem_cons_self
    have ih := ih fun r hr => h r (mem_cons_of_mem q hr)
    cases qs with
    | nil => rw [intercalate_singleton, pieces_of_notMem hslash hne]
    | cons r rs =>
      rw [intercalate_cons_cons, append_assoc, singleton_append, pieces_append, ih,
        pieces_of_notMem hslash hne]
      rfl

theorem mem_of_mem_intercalate {b : UInt8} (h : b ∈ [slash].intercalate qs) :
    b = slash ∨ ∃ q ∈ qs, b ∈ q := by
  induction qs with
  | nil => simp at h
  | cons q qs ih =>
    cases qs with
    | nil => exact .inr ⟨q, mem_cons_self, by simpa using h⟩
    | cons r rs =>
      rw [intercalate_cons_cons, mem_append, mem_append, mem_singleton] at h
      rcases h with (h | h) | h
      · exact .inr ⟨q, mem_cons_self, h⟩
      · exact .inl h
      · exact (ih h).imp_right fun ⟨x, hx, hb⟩ => ⟨x, mem_cons_of_mem q hx, hb⟩

theorem of_mem_prefixes (hnul : 0 ∉ p) (h : q ∈ prefixes p) :
    q.pieces slash ∈ (p.pieces slash).inits.tail ∧ 0 ∉ q := by
  obtain ⟨qs, hqs, rfl⟩ := mem_map.1 h
  have hsub : qs <+: p.pieces slash := (mem_inits _ _).1 (mem_of_mem_tail hqs)
  have hparts : Parts qs := fun q hq => parts_pieces p q (hsub.subset hq)
  have hpieces := pieces_intercalate hparts
  have hroot : ∀ b ∈ (if isAbsolute p then [slash] else []), b = slash := by
    split_ifs <;> simp
  constructor
  · have hsame : ((if isAbsolute p then [slash] else []) ++ [slash].intercalate qs).pieces slash =
        qs := by
      split_ifs <;> simp [hpieces]
    rwa [hsame]
  · intro hmem
    have hzero : (0 : UInt8) ≠ slash := by decide
    rcases mem_append.1 hmem with hmem | hmem
    · exact hzero (hroot 0 hmem)
    · rcases mem_of_mem_intercalate hmem with hmem | ⟨q, hq, hmem⟩
      · exact hzero hmem
      · exact hnul (mem_of_mem_pieces (hsub.subset hq) hmem)

theorem leads_congr (hp : p ≠ []) (hq : q ≠ []) (hpieces : q.pieces slash = p.pieces slash)
    (habs : isAbsolute q = isAbsolute p) (fs : Fs) (i : ℕ) : fs.Leads q i ↔ fs.Leads p i := by
  have hhead : q.head? = some slash ↔ p.head? = some slash := by
    rw [← decide_eq_decide]
    exact habs
  simp [Fs.Leads, hp, hq, hpieces, Fs.walkFrom, Fs.start, hhead]

theorem exists_last (hp : p.pieces slash ≠ []) : ∃ qs q, prefixes p = qs ++ [q] ∧
    q.pieces slash ≠ [] ∧ ∀ (fs : Fs) i, fs.Leads q i ↔ fs.Leads p i := by
  obtain ⟨parts, part, hparts⟩ := (eq_nil_or_concat (p.pieces slash)).resolve_left hp
  have hinits : (p.pieces slash).inits.tail = parts.inits.tail ++ [p.pieces slash] := by
    rw [hparts, concat_eq_append, inits_append]
    cases parts <;> simp
  obtain ⟨qs, q, hlast, hq⟩ : ∃ qs q, prefixes p = qs ++ [q] ∧
      q = (if isAbsolute p then [slash] else []) ++ [slash].intercalate (p.pieces slash) := by
    rw [prefixes, hinits, map_append, map_singleton]
    exact ⟨_, _, rfl, rfl⟩
  have hpieces : q.pieces slash = p.pieces slash := by
    have hparts := pieces_intercalate (parts_pieces p)
    rw [hq]
    split_ifs <;> simp [hparts]
  have habs : isAbsolute q = isAbsolute p := isAbsolute_of_mem_prefixes (by rw [hlast]; simp)
  have hne : ∀ r : Bytes, r.pieces slash ≠ [] → r ≠ [] := by
    rintro r hr rfl
    exact hr pieces_nil
  exact ⟨qs, q, hlast, hpieces ▸ hp, leads_congr (hne p hp) (hne q (hpieces ▸ hp)) hpieces habs⟩

/-! ## The calls -/

theorem ensureAll_append (qs rs : List Bytes) (fs : Fs) :
    ensureAll alloc (qs ++ rs) fs = (ensureAll alloc qs fs).bind (ensureAll alloc rs) := by
  induction qs generalizing fs with
  | nil => rfl
  | cons q qs ih =>
    simp only [cons_append, ensureAll]
    split
    · exact ih _
    · split_ifs
      · exact ih _
      · rfl

theorem mkdirCall_eq (faults : ℕ → Option Errno) (h : 0 ∉ q) (mode : ℕ) (s : Sys) :
    mkdirCall faults alloc (q ++ [0]) mode s = s.update faults (PosixFs.Fs.mkdir alloc q) := by
  have hq : cstr (q ++ [0]) = q := (cstr_eq_iff []).2 h
  rw [mkdirCall, hq]

/-- **A success**, in a world that does not make up that something is there: each directory was made
    or was there. -/
theorem ensureAll_of_mkdirs (hfaults : ∀ n, faults n ≠ some Errno.EEXIST) (hqs : ∀ q ∈ qs, 0 ∉ q)
    (h : mkdirs (mkdirCall faults alloc) qs s = (.ok (), t)) :
    ensureAll alloc qs s.fs = some t.fs := by
  induction qs generalizing s with
  | nil =>
    cases h
    rfl
  | cons q qs ih =>
    have ih := fun s => @ih s fun r hr => hqs r (mem_cons_of_mem q hr)
    rw [mkdirs, mkdirCall_eq faults (hqs q mem_cons_self)] at h
    split at h
    · next e s' hcall =>
      obtain ⟨hfs, hwhy⟩ := Sys.update_error faults hcall
      split_ifs at h with he
      · cases h
      rw [not_not] at he
      subst he
      have hthere := hwhy.resolve_right (hfaults _)
      simp only [ensureAll, hthere, if_true]
      rw [← hfs]
      exact ih s' h
    · next s' hcall =>
      rw [ensureAll, Sys.update_ok faults hcall]
      exact ih s' h

theorem mkdirs_of_ensureAll (hqs : ∀ q ∈ qs, 0 ∉ q) (h : ensureAll alloc qs s.fs = some fs') :
    ∃ t, mkdirs (mkdirCall (fun _ => none) alloc) qs s = (.ok (), t) ∧ t.fs = fs' := by
  induction qs generalizing s with
  | nil => exact ⟨s, rfl, Option.some.inj h⟩
  | cons q qs ih =>
    have ih := fun s => @ih s fun r hr => hqs r (mem_cons_of_mem q hr)
    rw [mkdirs, mkdirCall_eq _ (hqs q mem_cons_self), Sys.update_none]
    rw [ensureAll] at h
    cases hmk : s.fs.mkdir alloc q with
    | ok fs =>
      rw [hmk] at h
      exact ih ⟨fs, s.clock + 1⟩ h
    | error e =>
      rw [hmk] at h
      dsimp only at h ⊢
      split_ifs at h with he
      rw [if_neg (not_not.2 he)]
      exact ih ⟨s.fs, s.clock + 1⟩ h

/-- **Nothing that was there is changed**, whatever fails. -/
theorem mkdirs_grown (faults : ℕ → Option Errno) (qs : List Bytes) (s : Sys) :
    Fs.Grown s.fs (mkdirs (mkdirCall faults alloc) qs s).2.fs := by
  induction qs generalizing s with
  | nil => exact Fs.Grown.refl s.fs
  | cons q qs ih =>
    rw [mkdirs]
    split
    · next e s' hcall =>
      have hfs := (Sys.update_error faults hcall).1
      split_ifs
      · rw [hfs]
        exact Fs.Grown.refl s.fs
      · rw [← hfs]
        exact ih s'
    · next s' hcall =>
      obtain ⟨cur, c, j, hmade⟩ := Fs.mkdir_ok (Sys.update_ok faults hcall)
      exact hmade.grown.trans (ih s')

/-! ## What a success means -/

theorem exists_leads_iff :
    (∃ i, fs.resolve p = .ok i ∧ (fs.dir? i).isSome) ↔ ∃ i, fs.Leads p i := by
  constructor
  · rintro ⟨i, hi, hdir⟩
    obtain ⟨d, hd⟩ := Option.isSome_iff_exists.1 hdir
    exact ⟨i, Fs.leads_of_resolve hi hd⟩
  · rintro ⟨i, hi⟩
    exact ⟨i, hi.resolve, hi.2.1⟩

/-- With something at all prefixes, the path leads to a directory unless it is misled. -/
theorem leads_of_not_misled (hnul : 0 ∉ p) (hp : p.pieces slash ≠ [])
    (h : ensureAll alloc (prefixes p) fs = some fs') (hmis : ¬ Misled alloc fs p) :
    ∃ i, fs'.Leads p i := by
  obtain ⟨qs, q, hlast, hq, hleads⟩ := exists_last hp
  have hqnul : 0 ∉ q := (of_mem_prefixes hnul (by rw [hlast]; simp)).2
  rw [hlast, ensureAll_append, Option.bind_eq_some_iff] at h
  obtain ⟨fs₁, hinit, h⟩ := h
  simp only [← hleads]
  rw [ensureAll] at h
  split at h
  · next fs₂ hmk =>
    cases h
    obtain ⟨cur, c, j, hmade⟩ := Fs.mkdir_ok hmk
    exact ⟨j, hmade.leads⟩
  · next e hmk =>
    split_ifs at h with he
    subst he
    cases h
    by_contra! hnone
    have hnamed := (Fs.mkdir_exists hq hqnul).1 hmk
    exact hmis ⟨fs', q, by rw [hlast, dropLast_concat, hinit], by rw [hlast, getLast?_concat],
      hnamed, hnone⟩

/-- When it is misled there is something at all prefixes, and the path does not lead to a
    directory. -/
theorem Misled.exists (hnul : 0 ∉ p) (hp : p.pieces slash ≠ []) (h : Misled alloc fs p) :
    ∃ fs', ensureAll alloc (prefixes p) fs = some fs' ∧ ∀ i, ¬ fs'.Leads p i := by
  obtain ⟨fs', q, hinit, hq, hnamed, hnone⟩ := h
  obtain ⟨qs, q', hlast, hpieces, hleads⟩ := exists_last hp
  have hqnul : 0 ∉ q' := (of_mem_prefixes hnul (by rw [hlast]; simp)).2
  rw [hlast, getLast?_concat, Option.some.injEq] at hq
  subst hq
  rw [hlast, dropLast_concat] at hinit
  refine ⟨fs', ?_, fun i hi => hnone i ((hleads fs' i).2 hi)⟩
  rw [hlast, ensureAll_append, hinit, Option.bind_some, ensureAll,
    (Fs.mkdir_exists hpieces hqnul).2 hnamed]
  rfl

/-- **When a success means a directory**: exactly if the path is not misled.  Whatever fails,
    nothing that was there is changed or gone. -/
theorem create_dir_all_makes (alloc : PosixFs.Fs.Alloc) (fs : Fs) (hnul : 0 ∉ p)
    (hp : p.pieces slash ≠ []) :
    ((∀ faults : ℕ → Option Errno, (∀ n, faults n ≠ some Errno.EEXIST) →
      MakesDir p (File.createDirAll (mkdirCall faults alloc) ⟨fs, 0⟩ p) ∧
      MakesDir p (createDirAll (mkdirCall faults alloc) ⟨fs, 0⟩ p)) ↔ ¬ Misled alloc fs p) ∧
    ∀ faults : ℕ → Option Errno,
      Fs.Grown fs (File.createDirAll (mkdirCall faults alloc) ⟨fs, 0⟩ p).2.fs ∧
      Fs.Grown fs (createDirAll (mkdirCall faults alloc) ⟨fs, 0⟩ p).2.fs := by
  simp only [createDirAll_eq, File.createDirAll_eq, and_self]
  have hqs : ∀ q ∈ prefixes p, 0 ∉ q := fun q hq => (of_mem_prefixes hnul hq).2
  refine ⟨⟨fun h hmis => ?_, fun hmis faults hfaults hok => ?_⟩, fun faults => ?_⟩
  · obtain ⟨fs', hall, hnone⟩ := hmis.exists hnul hp
    obtain ⟨t, hrun, rfl⟩ := mkdirs_of_ensureAll (s := ⟨fs, 0⟩) hqs hall
    have hdir := h (fun _ => none) (fun _ => by simp)
    rw [hrun, MakesDir, exists_leads_iff] at hdir
    obtain ⟨i, hi⟩ := hdir rfl
    exact hnone i hi
  · rw [exists_leads_iff]
    exact leads_of_not_misled hnul hp (ensureAll_of_mkdirs hfaults hqs (Prod.ext hok rfl)) hmis
  · exact mkdirs_grown faults (prefixes p) ⟨fs, 0⟩

/-- A file `f`. -/
def fileThere : Fs where
  nodes
    | 0 => some (.dir ⟨0, [([102], 1)], by decide, by decide⟩)
    | 1 => some (.file [])
    | _ => none
  root := 0
  cwd := 0
  parents i d h := by
    split at h
    · cases h
      exact ⟨_, rfl⟩
    · cases h
    · cases h
  acyclic := by
    refine ⟨fun _ => 0, fun i d n j e hi hn hj => ?_⟩
    split at hi
    · cases hi
      simp only [Dir.lookup_eq_some, mem_singleton, Prod.mk.injEq] at hn
      rw [hn.2] at hj
      cases hj
    · cases hi
    · cases hi

/-- `create_dir_all` of `f`. -/
theorem create_dir_all_makes_nothing :
    ((∀ faults : ℕ → Option Errno, (∀ n, faults n ≠ some Errno.EEXIST) →
      MakesDir [102] (File.createDirAll (mkdirCall faults fun _ => none) ⟨fileThere, 0⟩ [102]) ∧
      MakesDir [102] (createDirAll (mkdirCall faults fun _ => none) ⟨fileThere, 0⟩ [102])) ↔
        ¬ Misled (fun _ => none) fileThere [102]) ∧
    ∀ faults : ℕ → Option Errno,
      Fs.Grown fileThere
        (File.createDirAll (mkdirCall faults fun _ => none) ⟨fileThere, 0⟩ [102]).2.fs ∧
      Fs.Grown fileThere (createDirAll (mkdirCall faults fun _ => none) ⟨fileThere, 0⟩ [102]).2.fs :=
  create_dir_all_makes _ fileThere (by decide) (by decide)

/-- **`create_dir_all` of `f`** is a success, and `f` is a file. -/
theorem file_in_the_way :
    (File.createDirAll (mkdirCall (fun _ => none) fun _ => none) ⟨fileThere, 0⟩ [102]).1 =
      .ok () ∧
    (createDirAll (mkdirCall (fun _ => none) fun _ => none) ⟨fileThere, 0⟩ [102]).1 = .ok () ∧
    (File.createDirAll (mkdirCall (fun _ => none) fun _ => none) ⟨fileThere, 0⟩ [102]).2.fs.resolve
      [102] = .ok 1 ∧
    ¬ MakesDir [102]
      (File.createDirAll (mkdirCall (fun _ => none) fun _ => none) ⟨fileThere, 0⟩ [102]) := by
  have hok : (File.createDirAll (mkdirCall (fun _ => none) fun _ => none) ⟨fileThere, 0⟩ [102]).1 =
      .ok () := by decide +kernel
  have hfile : (File.createDirAll (mkdirCall (fun _ => none) fun _ => none) ⟨fileThere, 0⟩
      [102]).2.fs.resolve [102] = .ok 1 := by decide +kernel
  refine ⟨hok, by decide +kernel, hfile, fun h => ?_⟩
  obtain ⟨i, hi, hdir⟩ := h hok
  rw [hfile, Except.ok.injEq] at hi
  subst hi
  exact absurd hdir (by decide +kernel)

end Ekostd.Fs
