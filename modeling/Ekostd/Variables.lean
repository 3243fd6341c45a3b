/-
  `env.rs` — the variables of a process, and of the programs it starts.

  A process sets variables (`set_var`, `set_var_bytes`) and starts programs
  (`Command::env`, `Command::spawn`), whose environment is made from its own;
  such a program does the same.  A name or a value with a NUL byte is read up to
  there, and so is an entry that an override has made.

  * `Turn`, `environment`: what happens to the entries on the way to some
    program;
  * `assigned`: what that means for the variables;
  * `variables_assigned`: `var_os` in that program is what was assigned last.
-/
import Ekostd.Command.Environment
import Ekostd.Lib.PosixEnv

namespace Ekostd.Env

open PosixFs PosixEnv Command List

/-! ## The process -/

/-- What a C function reads of a string that is passed with a NUL byte behind it. -/
def passed (s : Bytes) : Bytes := cstr (nulTerminated s)

/-- `var_os`. -/
def varOs (entries : List Bytes) (name : Bytes) : Option Bytes :=
  (getenv equals entries (passed name)).map fun p => cstr (nulTerminated p)

/-- `set_var` and `set_var_bytes`; that `setenv` has no memory is not noticed. -/
def setVar (name value : Bytes) (fails : Bool) (entries : List Bytes) : List Bytes :=
  if fails then entries else setenv equals (passed name) (passed value) entries

/-- `PATH`. -/
def pathName : Bytes := "PATH".toUTF8.toList

/-- What a process with these entries meets when it spawns. -/
def found (w : World) (entries : List Bytes) : World :=
  { w with path := varOs entries pathName, environ := environ (some (pointers entries)) }

/-- What happens on the way to a program. -/
inductive Turn where
  | setVar (name value : Bytes) (fails : Bool)
  /-- A program is started, and from here on it is about that one. -/
  | spawn (w : World) (program : Bytes) (settings : List Setting)

/-- The entries after a turn. -/
def turn (entries : List Bytes) : Turn → List Bytes
  | .setVar name value fails => setVar name value fails entries
  | .spawn w program settings =>
    (environment (found w entries) (build program settings)).map cstr

/-- The entries of the program that is reached. -/
def reached (start : List Bytes) (turns : List Turn) : List Bytes := turns.foldl turn start

/-! ## The variables -/

instance (name : Bytes) : Decidable (Name equals name) :=
  inferInstanceAs (Decidable (_ ∧ _))

/-- The variables after a turn: what is set has its new value, if it can be a name; and the settings
    of a command do what their entries say. -/
def assign (vars : Bytes → Option Bytes) : Turn → Bytes → Option Bytes
  | .setVar name value fails =>
    if fails = false ∧ Name equals (passed name) then
      Function.update vars (passed name) (some (passed value))
    else vars
  | .spawn _ _ settings =>
    (sets settings).foldl (fun vars kv => PosixEnv.assign equals vars (passed (entryOf kv))) vars

/-- The variables of the program that is reached. -/
def assigned (start : Bytes → Option Bytes) (turns : List Turn) : Bytes → Option Bytes :=
  turns.foldl assign start

variable {entries start : List Bytes} {vars : Bytes → Option Bytes} {x y name value : Bytes}

/-! ## Strings that are passed -/

theorem prefix_passed : x <+: passed y ↔ x <+: y ∧ 0 ∉ x := by
  have hcstr : passed y = y.takeWhile (· ≠ 0) := by
    rw [passed, nulTerminated, cstr]
    induction y with
    | nil => rfl
    | cons b y ih => by_cases hb : b = 0 <;> simp [hb] at ih ⊢; exact ih
  rw [hcstr]
  constructor
  · intro h
    have hpre : y.takeWhile (· ≠ 0) <+: y := takeWhile_prefix _
    refine ⟨h.trans hpre, fun hmem => ?_⟩
    simpa using all_eq_true.1 all_takeWhile 0 (h.subset hmem)
  · rintro ⟨⟨rest, rfl⟩, hnul⟩
    have happend : (x ++ rest).takeWhile (· ≠ 0) = x ++ cstr rest := cstr_append hnul rest
    rw [happend]
    exact prefix_append x _

theorem passed_noNul (s : Bytes) : 0 ∉ passed s := (prefix_passed.1 (prefix_refl _)).2

theorem passed_of_noNul (h : 0 ∉ x) : passed x = x := (cstr_eq_iff []).2 h

/-! ## A turn -/

/-- The entries are C strings that stand for the variables. -/
structure Holds (entries : List Bytes) (vars : Bytes → Option Bytes) : Prop where
  noNul : ∀ e ∈ entries, 0 ∉ e
  means : Means equals entries vars

theorem mem_put {e : Bytes} (h : e ∈ put equals name value entries) :
    e = name ++ equals :: value ∨ e ∈ entries := by
  induction entries with
  | nil => exact .inl (mem_singleton.1 h)
  | cons entry entries ih =>
    rw [put] at h
    split_ifs at h
    · exact (mem_cons.1 h).imp_right (mem_cons_of_mem _)
    · rcases mem_cons.1 h with rfl | h
      · exact .inr mem_cons_self
      · exact (ih h).imp_right (mem_cons_of_mem _)

theorem Holds.setVar (h : Holds entries vars) (name value : Bytes) (fails : Bool) :
    Holds (setVar name value fails entries) (assign vars (.setVar name value fails)) := by
  rw [Env.setVar, assign]
  cases fails with
  | true => simpa using h
  | false =>
    by_cases hname : Name equals (passed name)
    · simp only [Bool.false_eq_true, if_false, hname, and_self, if_true]
      refine ⟨fun e he => ?_, h.means.setenv hname⟩
      rw [setenv, if_neg (not_or.2 hname)] at he
      rcases mem_put he with rfl | he
      · have hsep : (0 : UInt8) ≠ equals := by decide
        simp [passed_noNul, hsep]
      · exact h.noNul e he
    · simpa [hname, setenv_of_not hname] using h

/-- **An override** does what its entry says. -/
theorem means_override {raw : List Bytes} (h : Means equals (raw.map passed) vars)
    (kv : Bytes × Bytes) : Means equals ((override raw (entryOf kv)).map passed)
      (PosixEnv.assign equals vars (passed (entryOf kv))) := by
  -- the key of the override ends at the first separator, which may be in what was given as key
  obtain ⟨as, bs, hentry, has⟩ : ∃ as bs, entryOf kv = entryOf (as, bs) ∧ equals ∉ as := by
    obtain ⟨as, bs, hentry, has⟩ := eq_append_cons_of_mem
      (show equals ∈ entryOf kv by simp [entryOf])
    exact ⟨as, bs, hentry, has⟩
  rw [hentry, override_entryOf has, map_append, map_singleton]
  refine h.replace fun b _ name hname hb => ?_
  rw [valueOf_ne_none, prefix_passed] at hb ⊢
  obtain ⟨⟨rest, rfl⟩, hnul⟩ := hb
  rw [append_assoc, singleton_append, decide_eq_false_iff_not, not_not, keyOf_eq_iff has,
    prefix_entry has hname.2]
  constructor
  · rintro rfl
    exact ⟨⟨bs, by simp [entryOf]⟩, hnul⟩
  · rintro ⟨hpre, -⟩
    exact ((prefix_entry hname.2 has).1 hpre).symm

theorem means_overrides (kvs : List (Bytes × Bytes)) {raw : List Bytes}
    (h : Means equals (raw.map passed) vars) :
    Means equals (((kvs.map entryOf).foldl override raw).map passed)
      (kvs.foldl (fun vars kv => PosixEnv.assign equals vars (passed (entryOf kv))) vars) := by
  induction kvs generalizing raw vars with
  | nil => exact h
  | cons kv kvs ih => exact ih (means_override h kv)

theorem Holds.spawn (h : Holds entries vars) (w : World) (program : Bytes)
    (settings : List Setting) :
    Holds (turn entries (.spawn w program settings)) (assign vars (.spawn w program settings)) := by
  have hself : entries.map passed = entries := by
    rw [map_congr_left fun e he => passed_of_noNul (h.noNul e he), map_id']
  have hturn : turn entries (.spawn w program settings) =
      (((sets settings).map entryOf).foldl override entries).map passed := by
    rw [turn, environment, overrides_build, found, environ_pointers h.noNul, map_map]
    rfl
  rw [hturn]
  constructor
  · intro e he
    obtain ⟨b, -, rfl⟩ := mem_map.1 he
    exact passed_noNul b
  · exact means_overrides (sets settings) (by rw [hself]; exact h.means)

/-- **Every turn.** -/
theorem Holds.turn (h : Holds entries vars) (t : Turn) :
    Holds (turn entries t) (assign vars t) := by
  cases t with
  | setVar name value fails => exact h.setVar name value fails
  | spawn w program settings => exact h.spawn w program settings

theorem Holds.reached (h : Holds entries vars) (turns : List Turn) :
    Holds (reached entries turns) (assigned vars turns) := by
  induction turns generalizing entries vars with
  | nil => exact h
  | cons t turns ih => exact ih (h.turn t)

/-- **A variable is what was assigned last.**  Whatever was set on the way to a program, in the
    processes before it or by the commands that started them, and however often: `var_os` answers
    with the last of it, or with what there was at the start. -/
theorem variables_assigned (hstart : ∀ e ∈ start, 0 ∉ e) (turns : List Turn)
    (hname : Name equals (passed name)) :
    varOs (reached start turns) name = assigned (getenv equals start) turns (passed name) := by
  have hholds : Holds start (getenv equals start) := ⟨hstart, fun _ _ => rfl⟩
  obtain ⟨hnul, hmeans⟩ := hholds.reached turns
  rw [varOs, ← hmeans (passed name) hname]
  cases hv : getenv equals (reached start turns) (passed name) with
  | none => rfl
  | some v =>
    -- a value in a C string has no NUL byte
    rw [getenv, if_neg hname.1] at hv
    obtain ⟨e, he, hv⟩ := exists_of_findSome?_eq_some hv
    rw [valueOf, Option.ite_none_right_eq_some, Option.some.injEq] at hv
    obtain ⟨-, rfl⟩ := hv
    have hv : 0 ∉ e.drop ((passed name).length + 1) := fun hmem =>
      hnul e he (mem_of_mem_drop hmem)
    rw [Option.map_some, ← passed, passed_of_noNul hv]

/-- `A` is there twice and set to `2` and a NUL byte; a program is started with `A=3`, and sets what
    cannot be a name. -/
theorem variables_assigned_twice :
    varOs (reached [[65, 61, 49], [66], [65, 61, 48]] [.setVar [65] [50, 0, 51] false,
      .spawn ⟨true, fun _ => false, fun _ => false, none, none, []⟩ [112] [.env [65] [51]],
      .setVar [65, 61] [52] false]) [65] = some [51] :=
  variables_assigned (by decide) _ (by decide)

end Ekostd.Env
