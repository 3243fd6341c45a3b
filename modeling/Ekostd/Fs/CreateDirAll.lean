/-
  `fs.rs` — `create_dir_all`, beside the one of `file.rs`.

  * `createDirAll_eq`: it makes a directory for each prefix of its path, as
    the other one does;
  * `record`: an `mkdir(2)` that keeps the calls and gives any answers;
  * `create_dir_all_same`: the calls that both make, and what both return.
-/
import Ekostd.File.CreateDirAll

namespace Ekostd.Fs

open PosixFs Ekostd.Path Ekostd.File List

section
variable {σ : Type*} (sys : Mkdir σ)

/-- `mkdir`. -/
def mkdir (path : Bytes) (mode : ℕ) (s : σ) : Except Errno Unit × σ :=
  match sys path mode s with
  | (.ok (), s) => (.ok (), s)
  | (.error e, s) => if e = Errno.EEXIST then (.ok (), s) else (.error e, s)

/-- The loop of `create_dir_all`, with the parts still to come. -/
def createDirs : List Bytes → Bytes → σ → Except Error Unit × σ
  | [], _, s => (.ok (), s)
  | part :: parts, soFar, s =>
    if part.isEmpty then createDirs parts soFar s
    else
      let soFar := push soFar part
      match mkdir sys (asC soFar) 0o755 s with
      | (.ok (), s) => createDirs parts soFar s
      | (.error e, s) => (.error (.fromErrno e "mkdir"), s)

/-- `create_dir_all`. -/
def createDirAll (s : σ) (path : Bytes) : Except Error Unit × σ :=
  let soFar := if isAbsolute path then push [] [slash] else []
  createDirs sys (path.pieces slash) soFar s

theorem createDirs_eq {parts : List Bytes} (h : Parts parts) (acc : Bytes) (s : σ) :
    createDirs sys parts acc s = mkdirs sys (pushed acc parts) s := by
  induction parts generalizing acc s with
  | nil => rfl
  | cons part parts ih =>
    have hne : part.isEmpty = false := by simpa using (h part mem_cons_self).1
    have ih := fun acc s => ih (fun q hq => h q (mem_cons_of_mem part hq)) acc s
    simp only [createDirs, hne, Bool.false_eq_true, if_false, pushed, mkdirs, mkdir, asC, ih]
    rcases sys (push acc part ++ [0]) 0o755 s with ⟨_ | _, t⟩
    · dsimp only
      split_ifs <;> simp_all
    · rfl

/-- **`create_dir_all` makes a directory for each prefix of its path**, shortest first. -/
theorem createDirAll_eq (s : σ) (p : Bytes) :
    createDirAll sys s p = mkdirs sys (prefixes p) s := by
  rw [createDirAll, createDirs_eq sys (parts_pieces p), prefixes_eq]
  rfl

end

/-! ## The calls -/

/-- What a call is given. -/
abbrev Call := Bytes × ℕ

/-- An `mkdir(2)` that gives its answers in order, and keeps what it is given. -/
def record (answers : ℕ → Except Errno Unit) : Mkdir (List Call) := fun path mode calls =>
  (answers calls.length, calls ++ [(path, mode)])

/-- The call for a directory. -/
def callFor (q : Bytes) : Call := (q ++ [0], 0o755)

/-- An answer by which the directory is there. -/
def Passes (answer : Except Errno Unit) : Prop := answer = .ok () ∨ answer = .error Errno.EEXIST

/-- Calls that are made until one fails otherwise than because its directory is there: what is
    returned, and the calls that are made. -/
inductive Stops (answers : ℕ → Except Errno Unit) (calls : List Call) :
    Except Error Unit × List Call → Prop
  | all : (∀ n < calls.length, Passes (answers n)) → Stops answers calls (.ok (), calls)
  | failed (n : ℕ) (e : Errno) : n < calls.length → (∀ m < n, Passes (answers m)) →
      answers n = .error e → e ≠ Errno.EEXIST →
      Stops answers calls (.error (.fromErrno e "mkdir"), calls.take (n + 1))

variable {answers : ℕ → Except Errno Unit} {calls made : List Call} {r : Except Error Unit}

theorem Stops.cons (c : Call) (hpass : Passes (answers 0))
    (h : Stops (fun n => answers (n + 1)) calls (r, made)) :
    Stops answers (c :: calls) (r, c :: made) := by
  cases h with
  | all hall =>
    refine .all fun n hn => ?_
    cases n with
    | zero => exact hpass
    | succ n => exact hall n (Nat.lt_of_succ_lt_succ hn)
  | failed n e hn hbefore he hne =>
    refine .failed (n + 1) e (Nat.succ_lt_succ hn) (fun m hm => ?_) he hne
    cases m with
    | zero => exact hpass
    | succ m => exact hbefore m (Nat.lt_of_succ_lt_succ hm)

theorem mkdirs_record (qs : List Bytes) (before : List Call) : ∃ r made,
    mkdirs (record answers) qs before = (r, before ++ made) ∧
      Stops (fun n => answers (before.length + n)) (qs.map callFor) (r, made) := by
  induction qs generalizing before with
  | nil => exact ⟨.ok (), [], by rw [append_nil]; rfl, .all fun n hn => absurd hn (Nat.not_lt_zero n)⟩
  | cons q qs ih =>
    obtain ⟨r, made, hrest, hstops⟩ := ih (before ++ [callFor q])
    have hlater : (fun n => answers ((before ++ [callFor q]).length + n)) =
        fun n => answers (before.length + (n + 1)) := by
      funext n
      rw [length_append, length_singleton, Nat.add_assoc, Nat.add_comm 1]
    rw [hlater] at hstops
    rw [append_assoc, singleton_append] at hrest
    rw [mkdirs]
    cases ha : answers before.length with
    | ok u =>
      exact ⟨r, callFor q :: made, by simpa [record, ha, callFor] using hrest,
        hstops.cons _ (.inl ha)⟩
    | error e =>
      by_cases he : e = Errno.EEXIST
      · subst he
        exact ⟨r, callFor q :: made, by simpa [record, ha, callFor] using hrest,
          hstops.cons _ (.inr ha)⟩
      · exact ⟨_, [callFor q], by simp [record, ha, he, callFor], .failed 0 e (Nat.succ_pos _)
          (fun m hm => absurd hm (Nat.not_lt_zero m)) ha he⟩

/-- **The two are the same function**: whatever `mkdir(2)` answers, they make the same calls and
    return the same.  The calls are for the prefixes of the path, shortest first, up to the first
    one that fails otherwise than because its directory is there; and all of them are absolute if
    the path is, and none otherwise. -/
theorem create_dir_all_same (answers : ℕ → Except Errno Unit) (p : Bytes) :
    createDirAll (record answers) [] p = File.createDirAll (record answers) [] p ∧
    Stops answers ((prefixes p).map callFor) (createDirAll (record answers) [] p) ∧
    ∀ q ∈ prefixes p, isAbsolute q = isAbsolute p := by
  rw [createDirAll_eq, File.createDirAll_eq]
  refine ⟨rfl, ?_, fun q hq => isAbsolute_of_mem_prefixes hq⟩
  obtain ⟨r, made, hrun, hstops⟩ := @mkdirs_record answers (prefixes p) []
  rw [hrun]
  simpa using hstops

end Ekostd.Fs
