/-
  The read-write lock of POSIX threads — what its calls may answer and do.

  A lock is the list of its holds.  An acquisition either adds a hold and
  answers 0, or adds none and answers an error code; the caller learns which
  only from the code.  An unlock gives up a hold of the calling thread; when
  that thread has none it is undefined, and may give up any hold, or none.

  A hold carries a tag, which the lock does not look at except to tell holds
  of one thread apart.
-/
import Mathlib.Tactic

namespace PosixRwLock

/-- How a lock is held. -/
inductive Mode where
  | read
  | write
  deriving DecidableEq

/-- A hold: by whom, how, and its tag. -/
structure Hold (ι τ : Type*) where
  thread : ι
  mode : Mode
  tag : τ
  deriving DecidableEq

/-- What an acquisition answers: 0, or an error code. -/
inductive Code where
  | ok
  | EDEADLK
  | EAGAIN
  deriving DecidableEq

variable {ι τ : Type*}

/-- Nobody stands in the way of a hold in mode `m`. -/
def Available (held : List (Hold ι τ)) : Mode → Prop
  | .read => ∀ h ∈ held, h.mode = .read
  | .write => held = []

instance (held : List (Hold ι τ)) (m : Mode) : Decidable (Available held m) := by
  cases m
  · exact inferInstanceAs (Decidable (∀ h ∈ held, h.mode = .read))
  · exact decidable_of_iff (held.isEmpty = true) List.isEmpty_iff

/-- The thread `t` holds the lock in a mode that does not go with a hold in mode `m`. -/
def Conflicts [DecidableEq ι] (held : List (Hold ι τ)) (t : ι) (m : Mode) : Prop :=
  ∃ h ∈ held, h.thread = t ∧ ¬ (h.mode = .read ∧ m = .read)

instance [DecidableEq ι] (held : List (Hold ι τ)) (t : ι) (m : Mode) :
    Decidable (Conflicts held t m) :=
  inferInstanceAs (Decidable (∃ h ∈ held, h.thread = t ∧ ¬ (h.mode = .read ∧ m = .read)))

/-- There are as many readers as the lock can count. -/
def AtLimit (limit : ℕ) (held : List (Hold ι τ)) (m : Mode) : Prop :=
  m = .read ∧ limit ≤ held.length

instance (limit : ℕ) (held : List (Hold ι τ)) (m : Mode) : Decidable (AtLimit limit held m) :=
  inferInstanceAs (Decidable (m = .read ∧ limit ≤ held.length))

variable [DecidableEq ι]

/-- An acquisition by `t` that answers `code`, if it may; one that may answer nothing blocks. -/
def acquire (limit : ℕ) (held : List (Hold ι τ)) (t : ι) (m : Mode) (tag : τ) :
    Code → Option (List (Hold ι τ))
  | .ok => if Available held m ∧ ¬ AtLimit limit held m then some (⟨t, m, tag⟩ :: held) else none
  | .EDEADLK => if Conflicts held t m then some held else none
  | .EAGAIN => if AtLimit limit held m then some held else none

variable [DecidableEq τ]

/-- The hold that an unlock by `t` for the tag `tag` gives up: that of the tag, else another of
    the thread, else the one at `pick`, if there is one. -/
def released (held : List (Hold ι τ)) (t : ι) (tag : τ) (pick : ℕ) : Option (Hold ι τ) :=
  (held.find? fun h => h.thread = t ∧ h.tag = tag) <|>
    (held.find? fun h => h.thread = t) <|> held[pick]?

/-- An unlock. -/
def release (held : List (Hold ι τ)) (t : ι) (tag : τ) (pick : ℕ) : List (Hold ι τ) :=
  match released held t tag pick with
  | some h => held.erase h
  | none => held

/-- Any two of the holds are readers. -/
def Exclusive (held : List (Hold ι τ)) : Prop :=
  held.Pairwise fun h h' => h.mode = .read ∧ h'.mode = .read

omit [DecidableEq τ] in
/-- **An acquisition keeps the exclusion.** -/
theorem Exclusive.acquire {limit : ℕ} {held held' : List (Hold ι τ)} {t : ι} {m : Mode} {tag : τ}
    {code : Code} (hx : Exclusive held)
    (h : PosixRwLock.acquire limit held t m tag code = some held') : Exclusive held' := by
  cases code with
  | ok =>
    simp only [PosixRwLock.acquire] at h
    split_ifs at h with hc
    cases h
    refine List.pairwise_cons.2 ⟨fun h' hh' => ?_, hx⟩
    cases m with
    | read => exact ⟨rfl, hc.1 h' hh'⟩
    | write =>
      have hnil : held = [] := hc.1
      simp [hnil] at hh'
  | EDEADLK | EAGAIN =>
    simp only [PosixRwLock.acquire] at h
    split_ifs at h
    cases h
    exact hx

/-- **An unlock keeps the exclusion.** -/
theorem Exclusive.release {held : List (Hold ι τ)} (hx : Exclusive held) (t : ι) (tag : τ)
    (pick : ℕ) : Exclusive (PosixRwLock.release held t tag pick) := by
  unfold PosixRwLock.release
  split
  · exact hx.sublist List.erase_sublist
  · exact hx

/-- A thread that unlocks for a tag of which it has a hold gives that one up. -/
theorem released_eq {held : List (Hold ι τ)} {h : Hold ι τ} (hh : h ∈ held)
    (hu : ∀ h' ∈ held, h'.tag = h.tag → h' = h) (pick : ℕ) :
    released held h.thread h.tag pick = some h := by
  have hfind : (held.find? fun h' => h'.thread = h.thread ∧ h'.tag = h.tag) = some h := by
    obtain ⟨h', hh'⟩ : ∃ h', (held.find? fun h' => h'.thread = h.thread ∧ h'.tag = h.tag) =
        some h' := by
      rw [← Option.isSome_iff_exists, List.find?_isSome]
      exact ⟨h, hh, by simp⟩
    have hp := List.find?_some hh'
    simp only [decide_eq_true_eq] at hp
    rw [hh', hu h' (List.mem_of_find?_eq_some hh') hp.2]
  rw [released, hfind]
  rfl

end PosixRwLock
