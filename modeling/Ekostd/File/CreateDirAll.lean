/-
  `file.rs` — `create_dir_all`.

  The loop is over any `mkdir(2)`: what is made, or recorded, is up to the
  state that this works on.

  * `prefixes`: the path up to the end of each of its parts;
  * `mkdirs`: a directory for each of some paths, one after the other, where
    one that is there already will do;
  * `createDirAll_eq`: `create_dir_all` makes a directory for each of the
    prefixes.
-/
import Ekostd.File.Error
import Ekostd.Lib.PosixMkdir
import Ekostd.Path.Components

namespace Ekostd.File

open PosixFs Ekostd.Path List

/-- `mkdir(2)`, of the bytes it is given and a mode. -/
abbrev Mkdir (σ : Type*) := Bytes → ℕ → σ → Except Errno Unit × σ

/-- `mkdir(2)` in a world. -/
def mkdirCall (faults : ℕ → Option Errno) (alloc : Fs.Alloc) : Mkdir Sys := fun path _ s =>
  s.update faults (Fs.mkdir alloc (cstr path))

variable {σ : Type*} (mkdir : Mkdir σ)

/-- The loop of `create_dir_all`, with the parts still to come. -/
def createDirs : List Bytes → Bytes → σ → Except Error Unit × σ
  | [], _, s => (.ok (), s)
  | part :: parts, here, s =>
    let here := if here.length > 1 ∨ (here.length = 1 ∧ here[0]? ≠ some slash) then here ++ [slash]
      else here
    let here := here ++ part
    match mkdir (here ++ [0]) 0o755 s with
    | (.error e, s) =>
      if e ≠ Errno.EEXIST then (.error (.fromErrno e "mkdir"), s) else createDirs parts here s
    | (.ok (), s) => createDirs parts here s

/-- `create_dir_all`. -/
def createDirAll (s : σ) (path : Bytes) : Except Error Unit × σ :=
  createDirs mkdir (path.pieces slash) (if isAbsolute path then [slash] else []) s

/-- The path up to the end of each of its parts, shortest first. -/
def prefixes (p : Bytes) : List Bytes :=
  (p.pieces slash).inits.tail.map fun parts =>
    (if isAbsolute p then [slash] else []) ++ [slash].intercalate parts

/-- A directory for each of the paths, where one that is there already will do. -/
def mkdirs : List Bytes → σ → Except Error Unit × σ
  | [], s => (.ok (), s)
  | q :: qs, s =>
    match mkdir (q ++ [0]) 0o755 s with
    | (.error e, s) =>
      if e ≠ Errno.EEXIST then (.error (.fromErrno e "mkdir"), s) else mkdirs qs s
    | (.ok (), s) => mkdirs qs s

variable {p q acc : Bytes} {parts : List Bytes}

/-! ## The paths on the way -/

/-- The paths when parts are pushed one after the other. -/
def pushed : Bytes → List Bytes → List Bytes
  | _, [] => []
  | acc, part :: parts => push acc part :: pushed (push acc part) parts

/-- What can be pushed as one part. -/
def Parts (parts : List Bytes) : Prop := ∀ q ∈ parts, q ≠ [] ∧ slash ∉ q

theorem parts_pieces (p : Bytes) : Parts (p.pieces slash) := fun _ hq => of_mem_pieces hq

theorem push_part (acc : Bytes) (hne : q ≠ []) (hslash : slash ∉ q) :
    push acc q = withSep acc ++ q :=
  join_of_relative acc (components_part hne hslash).1

theorem withSep_part (acc : Bytes) (hne : q ≠ []) (hslash : slash ∉ q) :
    withSep (withSep acc ++ q) = withSep acc ++ (q ++ [slash]) := by
  have hlast : q.getLast? ≠ some slash := fun h => hslash (mem_of_getLast? h)
  rw [withSep_append, withSep.eq_def q, if_pos ⟨hne, hlast⟩]

theorem exists_of_mem_inits_tail {qs : List Bytes} (h : qs ∈ parts.inits.tail) :
    ∃ r rs qs', parts = r :: rs ∧ qs = r :: qs' := by
  cases parts with
  | nil => cases h
  | cons r rs =>
    rw [inits_cons, tail_cons, mem_map] at h
    obtain ⟨qs', -, rfl⟩ := h
    exact ⟨r, rs, qs', rfl, rfl⟩

/-- **Pushing the parts** goes through all their beginnings. -/
theorem pushed_eq (h : Parts parts) (acc : Bytes) :
    pushed acc parts =
      parts.inits.tail.map fun parts => withSep acc ++ [slash].intercalate parts := by
  induction parts generalizing acc with
  | nil => rfl
  | cons part parts ih =>
    obtain ⟨hne, hslash⟩ := h part mem_cons_self
    have hpush := push_part acc hne hslash
    have hinits : parts.inits = [] :: parts.inits.tail := by cases parts <;> rfl
    rw [pushed, ih (fun q hq => h q (mem_cons_of_mem part hq)), inits_cons, tail_cons, hinits,
      map_cons, map_cons, hpush, tail_cons, map_map]
    refine congrArg₂ _ (by simp) (map_congr_left fun qs hqs => ?_)
    obtain ⟨r, -, qs, -, rfl⟩ := exists_of_mem_inits_tail hqs
    rw [withSep_part acc hne hslash, Function.comp_apply, intercalate_cons_cons, append_assoc,
      append_assoc]

theorem prefixes_eq (p : Bytes) :
    prefixes p = pushed (if isAbsolute p then [slash] else []) (p.pieces slash) := by
  rw [prefixes, pushed_eq (parts_pieces p)]
  split_ifs <;> rfl

theorem isAbsolute_of_mem_prefixes (h : q ∈ prefixes p) : isAbsolute q = isAbsolute p := by
  obtain ⟨qs, hqs, rfl⟩ := mem_map.1 h
  by_cases habs : isAbsolute p
  · rw [habs, if_pos rfl]
    rfl
  · obtain ⟨r, rs, qs, hparts, rfl⟩ := exists_of_mem_inits_tail hqs
    obtain ⟨hne, hslash⟩ := parts_pieces p r (by rw [hparts]; exact mem_cons_self)
    obtain ⟨b, bs, rfl⟩ := exists_cons_of_ne_nil hne
    have hb : b ≠ slash := fun hb => hslash (hb ▸ mem_cons_self)
    rw [if_neg habs, eq_false_of_ne_true habs]
    cases qs <;> simp [isAbsolute, hb]

/-! ## The loop -/

/-- What the loop has in hand: the root, or something that does not end with a separator. -/
def Midway (here : Bytes) : Prop := here = [slash] ∨ here.getLast? ≠ some slash

theorem Midway.withSep (h : Midway acc) :
    (if acc.length > 1 ∨ (acc.length = 1 ∧ acc[0]? ≠ some slash) then acc ++ [slash] else acc) =
      Path.withSep acc := by
  rcases acc with _ | ⟨a, _ | ⟨b, acc⟩⟩
  · rfl
  · simp [Path.withSep]
  · have hlast : (b :: acc).getLast? ≠ some slash := by
      rcases h with h | h
      · cases h
      · rwa [getLast?_cons_cons] at h
    simp [Path.withSep, hlast]

theorem midway_part (acc : Bytes) (hne : q ≠ []) (hslash : slash ∉ q) : Midway (acc ++ q) := by
  refine .inr fun hlast => hslash ?_
  rw [getLast?_append_of_ne_nil _ hne] at hlast
  exact mem_of_getLast? hlast

theorem createDirs_eq (h : Parts parts) (hacc : Midway acc) (s : σ) :
    createDirs mkdir parts acc s = mkdirs mkdir (pushed acc parts) s := by
  induction parts generalizing acc s with
  | nil => rfl
  | cons part parts ih =>
    obtain ⟨hne, hslash⟩ := h part mem_cons_self
    have ih := fun s => ih (fun q hq => h q (mem_cons_of_mem part hq))
      (midway_part (withSep acc) hne hslash) s
    simp only [createDirs, pushed, mkdirs, hacc.withSep, push_part acc hne hslash, ih]

/-- **`create_dir_all` makes a directory for each prefix of its path**, shortest first. -/
theorem createDirAll_eq (s : σ) (p : Bytes) :
    createDirAll mkdir s p = mkdirs mkdir (prefixes p) s := by
  have hroot : Midway (if isAbsolute p then [slash] else []) := by
    split_ifs
    · exact .inl rfl
    · exact .inr (by simp)
  rw [createDirAll, createDirs_eq mkdir (parts_pieces p) hroot, prefixes_eq]

end Ekostd.File
