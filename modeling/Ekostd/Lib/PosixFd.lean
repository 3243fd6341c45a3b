/-
  Descriptor tables (POSIX) — what a process holds open, and the calls that
  change it.

  A descriptor refers to an open file and carries the close-on-exec flag; the
  open file has a number of its own, which the two ends of a pipe share.  A
  call that makes a descriptor takes the lowest number that is free (from some
  bound on), if there is one below the limit of the process.

  * `alloc`, `openFile`, `pipe`, `dup`, `dupfd`, `dup2`, `close`, `setCloexec`,
    `exec`: the calls, `none` where they fail;
  * `Allocated`: what every call that makes a descriptor does;
  * `Full`: the first numbers are all in use, and `Allocated.full`, by which
    each lowest number taken makes it one more;
  * `Sealed`: of the files opened since some moment, no descriptor outside of
    a given set survives `exec`;
  * `Adds`: what has come in between closes on `exec`, so that the same survives.
-/
import Mathlib.Tactic

namespace PosixFd

variable {κ : Type*}

/-- What an open file is: an end of a pipe, or what was opened under a name. -/
inductive Kind (κ : Type*) where
  | readEnd
  | writeEnd
  | named (name : κ)
  deriving DecidableEq

/-- An open file.  The ends of a pipe have the same number, any others have different ones. -/
structure File (κ : Type*) where
  id : ℕ
  kind : Kind κ
  deriving DecidableEq

/-- A descriptor. -/
structure Desc (κ : Type*) where
  file : File κ
  cloexec : Bool
  deriving DecidableEq

/-- The descriptors of a process.  Numbers from `opened` on are those of files not yet opened. -/
structure Proc (κ : Type*) where
  fd : ℕ → Option (Desc κ)
  limit : ℕ
  opened : ℕ
  known : ∀ n d, fd n = some d → d.file.id < opened

namespace Proc

variable (p : Proc κ)

/-! ## The calls -/

/-- The lowest free number from `k` on. -/
def lowest (k : ℕ) : Option ℕ :=
  (List.range' k (p.limit - k)).find? fun n => (p.fd n).isNone

/-- Make `n` the descriptor `d`. -/
def set (n : ℕ) (d : Desc κ) (hd : d.file.id < p.opened) : Proc κ where
  fd := Function.update p.fd n (some d)
  limit := p.limit
  opened := p.opened
  known m e h := by
    by_cases hm : m = n
    · subst hm
      rw [Function.update_self] at h
      cases h
      exact hd
    · exact p.known m e ((Function.update_of_ne hm _ _).symm.trans h)

/-- Make the lowest free number from `k` on the descriptor `d`. -/
def alloc (k : ℕ) (d : Desc κ) (hd : d.file.id < p.opened) : Option (ℕ × Proc κ) :=
  (p.lowest k).map fun n => (n, p.set n d hd)

theorem alloc_opened {p q : Proc κ} {k n : ℕ} {d : Desc κ} {hd : d.file.id < p.opened}
    (h : p.alloc k d hd = some (n, q)) : q.opened = p.opened := by
  obtain ⟨m, -, hm⟩ := Option.map_eq_some_iff.1 h
  cases hm
  rfl

/-- One more file is open, to which no descriptor refers yet. -/
def mint : Proc κ :=
  { p with opened := p.opened + 1, known := fun n d h => Nat.lt_succ_of_lt (p.known n d h) }

/-- `open`. -/
def openFile (name : κ) (cloexec : Bool) : Option (ℕ × Proc κ) :=
  p.mint.alloc 0 ⟨⟨p.opened, .named name⟩, cloexec⟩ (Nat.lt_succ_self _)

/-- `pipe`: its read and its write end.  Which of them gets the lower number is open. -/
def pipe (crossed cloexec : Bool) : Option ((ℕ × ℕ) × Proc κ) :=
  let ends : Kind κ × Kind κ := if crossed then (.writeEnd, .readEnd) else (.readEnd, .writeEnd)
  match h : p.mint.alloc 0 ⟨⟨p.opened, ends.1⟩, cloexec⟩ (Nat.lt_succ_self _) with
  | none => none
  | some (a, q) =>
    (q.alloc 0 ⟨⟨p.opened, ends.2⟩, cloexec⟩ ((alloc_opened h).symm ▸ Nat.lt_succ_self _)).map
      fun (b, r) => (if crossed then (b, a) else (a, b), r)

/-- `dup`. -/
def dup (n : ℕ) : Option (ℕ × Proc κ) :=
  match h : p.fd n with
  | none => none
  | some d => p.alloc 0 ⟨d.file, false⟩ (p.known n d h)

/-- `fcntl` with `F_DUPFD_CLOEXEC`. -/
def dupfd (n k : ℕ) : Option (ℕ × Proc κ) :=
  match h : p.fd n with
  | none => none
  | some d => p.alloc k ⟨d.file, true⟩ (p.known n d h)

/-- `dup2`. -/
def dup2 (m n : ℕ) : Option (Proc κ) :=
  match h : p.fd m with
  | none => none
  | some d =>
    if n < p.limit then some (if m = n then p else p.set n ⟨d.file, false⟩ (p.known m d h)) else none

/-- `close`. -/
def close (n : ℕ) : Proc κ where
  fd := Function.update p.fd n none
  limit := p.limit
  opened := p.opened
  known m d h := by
    by_cases hm : m = n
    · simp [hm] at h
    · exact p.known m d ((Function.update_of_ne hm _ _).symm.trans h)

/-- `fcntl` with `F_SETFD` and `FD_CLOEXEC`. -/
def setCloexec (n : ℕ) : Proc κ :=
  match h : p.fd n with
  | none => p
  | some d => p.set n ⟨d.file, true⟩ (p.known n d h)

/-- What `execve` leaves open. -/
def exec : Proc κ where
  fd n := (p.fd n).filter fun d => !d.cloexec
  limit := p.limit
  opened := p.opened
  known n d h := p.known n d (Option.filter_eq_some_iff.1 h).1

/-! ## What the calls do -/

/-- The numbers below `k` are all in use. -/
def Full (k : ℕ) : Prop := ∀ m < k, p.fd m ≠ none

variable {p} {q r : Proc κ}

/-- What every call that makes a descriptor does: `q` has `d` at `n`, the lowest number that
    `p` has free from `k` on. -/
structure Allocated (k : ℕ) (d : Desc κ) (n : ℕ) (p q : Proc κ) : Prop where
  fd : q.fd = Function.update p.fd n (some d)
  opened : q.opened = p.opened
  free : p.fd n = none
  above : k ≤ n
  least : ∀ m, k ≤ m → m < n → p.fd m ≠ none

namespace Allocated

variable {k n m : ℕ} {d : Desc κ}

theorem fd_self (h : Allocated k d n p q) : q.fd n = some d := by
  rw [h.fd, Function.update_self]

theorem fd_of_ne (h : Allocated k d n p q) (hm : m ≠ n) : q.fd m = p.fd m := by
  rw [h.fd, Function.update_of_ne hm]

theorem keeps (h : Allocated k d n p q) {e : Desc κ} (hm : p.fd m = some e) : q.fd m = some e := by
  rwa [h.fd_of_ne]
  rintro rfl
  rw [h.free] at hm
  cases hm

/-- **Taking the lowest free number fills one more.** -/
theorem full_succ (h : Allocated 0 d n p q) {j : ℕ} (hp : p.Full j) : q.Full (j + 1) := by
  intro m hm
  by_cases hmn : m = n
  · simp [hmn, h.fd_self]
  · rw [h.fd_of_ne hmn]
    rcases Nat.lt_succ_iff_lt_or_eq.1 hm with hlt | rfl
    · exact hp m hlt
    · apply h.least m (Nat.zero_le m)
      by_contra hle
      exact hp n (by omega) h.free

end Allocated

theorem alloc_eq_some {k n : ℕ} {d : Desc κ} {hd : d.file.id < p.opened}
    (h : p.alloc k d hd = some (n, q)) : Allocated k d n p q := by
  obtain ⟨m, hm, he⟩ := Option.map_eq_some_iff.1 h
  cases he
  unfold lowest at hm
  rw [List.find?_range'_eq_some] at hm
  obtain ⟨hfree, hmem, hleast⟩ := hm
  refine ⟨rfl, rfl, by simpa using hfree, (List.mem_range'_1.1 hmem).1, fun j hk hj => ?_⟩
  simpa [← Option.isSome_iff_ne_none] using hleast j hk hj

theorem openFile_eq_some {a : κ} {c : Bool} {n : ℕ} (h : p.openFile a c = some (n, q)) :
    Allocated 0 ⟨⟨p.opened, .named a⟩, c⟩ n p.mint q :=
  alloc_eq_some h

theorem dupfd_eq_some {m k n : ℕ} (h : dupfd p m k = some (n, q)) :
    ∃ d, p.fd m = some d ∧ Allocated k ⟨d.file, true⟩ n p q := by
  unfold dupfd at h
  split at h
  · cases h
  · next d hd => exact ⟨d, hd, alloc_eq_some h⟩

theorem dup_eq_some {m n : ℕ} (h : dup p m = some (n, q)) :
    ∃ d, p.fd m = some d ∧ Allocated 0 ⟨d.file, false⟩ n p q := by
  unfold dup at h
  split at h
  · cases h
  · next d hd => exact ⟨d, hd, alloc_eq_some h⟩

/-- What `pipe` does: `q` has the two ends of a new pipe at numbers that `p` has free. -/
structure Piped (c : Bool) (r w : ℕ) (p q : Proc κ) : Prop where
  ne : r ≠ w
  read : q.fd r = some ⟨⟨p.opened, .readEnd⟩, c⟩
  write : q.fd w = some ⟨⟨p.opened, .writeEnd⟩, c⟩
  fd_of_ne : ∀ m, m ≠ r → m ≠ w → q.fd m = p.fd m
  read_free : p.fd r = none
  write_free : p.fd w = none
  opened : q.opened = p.opened + 1
  full : ∀ k, p.Full k → q.Full (k + 2)

theorem pipe_eq_some {crossed c : Bool} {m n : ℕ}
    (h : p.pipe crossed c = some ((m, n), q)) : Piped c m n p q := by
  unfold pipe at h
  dsimp only at h
  split at h
  · cases h
  · next a s ha =>
    obtain ⟨⟨b, q'⟩, hb, he⟩ := Option.map_eq_some_iff.1 h
    have h₁ := alloc_eq_some ha
    have h₂ := alloc_eq_some hb
    have hne : b ≠ a := by
      rintro rfl
      exact absurd h₂.free (by simp [h₁.fd_self])
    have hfree : p.fd b = none := (h₁.fd_of_ne hne).symm.trans h₂.free
    have hrest : ∀ x, x ≠ a → x ≠ b → q'.fd x = p.fd x := fun x ha hb =>
      (h₂.fd_of_ne hb).trans (h₁.fd_of_ne ha)
    have hopened : q'.opened = p.opened + 1 := h₂.opened.trans h₁.opened
    have hfull : ∀ k, p.Full k → q'.Full (k + 2) := fun k hk =>
      h₂.full_succ (h₁.full_succ (p := p.mint) hk)
    cases crossed <;> cases he
    · exact ⟨hne.symm, h₂.keeps h₁.fd_self, h₂.fd_self, hrest, h₁.free, hfree, hopened, hfull⟩
    · exact ⟨hne, h₂.fd_self, h₂.keeps h₁.fd_self, fun x hb ha => hrest x ha hb, hfree, h₁.free,
        hopened, hfull⟩

theorem Piped.keeps {c : Bool} {m n x : ℕ} {d : Desc κ} (h : Piped c m n p q)
    (hx : p.fd x = some d) : q.fd x = some d := by
  rwa [h.fd_of_ne]
  · rintro rfl
    exact absurd h.read_free (by simp [hx])
  · rintro rfl
    exact absurd h.write_free (by simp [hx])

theorem dup2_eq_some {m n : ℕ} (hmn : m ≠ n) (h : dup2 p m n = some q) :
    ∃ d, p.fd m = some d ∧ q.fd = Function.update p.fd n (some ⟨d.file, false⟩) ∧
      q.opened = p.opened := by
  unfold dup2 at h
  split at h
  · cases h
  · next d hd =>
    split_ifs at h
    cases h
    exact ⟨d, hd, rfl, rfl⟩

theorem dup2_of_ne {m n k : ℕ} (h : dup2 p m n = some q) (hk : k ≠ n) : q.fd k = p.fd k := by
  by_cases hmn : m = n
  · subst hmn
    unfold dup2 at h
    split at h
    · cases h
    · rw [if_pos rfl] at h
      split_ifs at h
      cases h
      rfl
  · obtain ⟨d, -, hfd, -⟩ := dup2_eq_some hmn h
    rw [hfd, Function.update_of_ne hk]

@[simp] theorem close_self (n : ℕ) : (p.close n).fd n = none := by
  simp [close]

theorem close_of_ne {m n : ℕ} (h : m ≠ n) : (p.close n).fd m = p.fd m :=
  Function.update_of_ne h _ _

theorem setCloexec_fd {m n : ℕ} {d : Desc κ} (h : p.fd n = some d) :
    (p.setCloexec m).fd n = some ⟨d.file, d.cloexec || decide (n = m)⟩ := by
  unfold setCloexec
  split
  · next hm =>
    have hne : n ≠ m := by
      rintro rfl
      exact absurd hm (by simp [h])
    simp [h, hne]
  · next e he =>
    by_cases hne : n = m
    · subst hne
      rw [h] at he
      cases he
      simp [set]
    · simp [set, hne, h]

theorem setCloexec_of_ne {m n : ℕ} (h : n ≠ m) : (p.setCloexec m).fd n = p.fd n := by
  unfold setCloexec
  split
  · rfl
  · exact Function.update_of_ne h _ _

theorem setCloexec_eq_none {m n : ℕ} : (p.setCloexec m).fd n = none ↔ p.fd n = none := by
  unfold setCloexec
  split
  · rfl
  · next e he =>
    by_cases hne : n = m
    · simp [set, hne, he]
    · simp [set, hne]

@[simp] theorem setCloexec_opened {m : ℕ} : (p.setCloexec m).opened = p.opened := by
  unfold setCloexec
  split <;> rfl

theorem exec_fd {n : ℕ} {d : Desc κ} :
    p.exec.fd n = some d ↔ p.fd n = some d ∧ d.cloexec = false := by
  simp [exec, Option.filter_eq_some_iff]

/-! ## What does not survive `exec` -/

/-- Of the files from number `N` on, every descriptor outside of `S` closes on `exec`. -/
def Sealed (p : Proc κ) (N : ℕ) (S : Set ℕ) : Prop :=
  ∀ n d, p.fd n = some d → N ≤ d.file.id → n ∉ S → d.cloexec = true

namespace Sealed

variable {N n : ℕ} {S : Set ℕ} {d : Desc κ}

theorem opened (p : Proc κ) : p.Sealed p.opened S := fun n d h hN _ =>
  absurd (p.known n d h) (Nat.not_lt.2 hN)

theorem mono (h : p.Sealed N S) {T : Set ℕ} (hT : S ⊆ T) : p.Sealed N T :=
  fun n d hn hN hS => h n d hn hN fun hm => hS (hT hm)

theorem update (h : p.Sealed N S) (hq : q.fd = Function.update p.fd n (some d)) :
    q.Sealed N (insert n S) := by
  intro m e hm hN hS
  obtain ⟨hne, hS⟩ := not_or.1 hS
  rw [hq, Function.update_of_ne hne] at hm
  exact h m e hm hN hS

theorem update_cloexec (h : p.Sealed N S) (hq : q.fd = Function.update p.fd n (some d))
    (hd : d.cloexec = true) : q.Sealed N S := by
  intro m e hm hN hS
  by_cases hmn : m = n
  · rw [hq, hmn, Function.update_self] at hm
    cases hm
    exact hd
  · rw [hq, Function.update_of_ne hmn] at hm
    exact h m e hm hN hS

theorem piped {c : Bool} {r w : ℕ} (h : p.Sealed N S) (hq : Piped c r w p q) :
    q.Sealed N (if c then S else insert r (insert w S)) := by
  intro m e hm hN hS
  cases c with
  | false =>
    obtain ⟨hr, hS⟩ := not_or.1 hS
    obtain ⟨hw, hS⟩ := not_or.1 hS
    rw [hq.fd_of_ne m hr hw] at hm
    exact h m e hm hN hS
  | true =>
    by_cases hr : m = r
    · rw [hr, hq.read] at hm
      cases hm
      rfl
    · by_cases hw : m = w
      · rw [hw, hq.write] at hm
        cases hm
        rfl
      · rw [hq.fd_of_ne m hr hw] at hm
        exact h m e hm hN hS

theorem setCloexec (h : p.Sealed N S) : (p.setCloexec n).Sealed N (S \ {n}) := by
  intro m e hm hN hS
  obtain ⟨e', he'⟩ := Option.ne_none_iff_exists'.1
    (show p.fd m ≠ none from fun h => by simp [setCloexec_eq_none.2 h] at hm)
  rw [setCloexec_fd he'] at hm
  cases hm
  by_cases hmn : m = n
  · simp [hmn]
  · simp [h m e' he' hN fun hmS => hS ⟨hmS, hmn⟩]

theorem close (h : p.Sealed N S) : (p.close n).Sealed N (S \ {n}) := by
  intro m e hm hN hS
  by_cases hmn : m = n
  · simp [Proc.close, hmn] at hm
  · rw [close_of_ne hmn] at hm
    exact h m e hm hN fun hmS => hS ⟨hmS, hmn⟩

/-- **What `exec` leaves of a sealed file** is at the numbers left out. -/
theorem exec (h : p.Sealed N S) (hn : p.exec.fd n = some d) (hN : N ≤ d.file.id) : n ∈ S := by
  obtain ⟨hn, hc⟩ := exec_fd.1 hn
  by_contra hS
  rw [h n d hn hN hS] at hc
  cases hc

end Sealed

/-- `q` has the descriptors of `p` and maybe others, which close on `exec`. -/
structure Grows (p q : Proc κ) : Prop where
  keeps : ∀ n d, p.fd n = some d → q.fd n = some d
  sealed : ∀ N S, p.Sealed N S → q.Sealed N S
  opened : p.opened ≤ q.opened

namespace Grows

theorem refl (p : Proc κ) : p.Grows p := ⟨fun _ _ h => h, fun _ _ h => h, le_rfl⟩

theorem trans (h : p.Grows q) (h' : q.Grows r) : p.Grows r :=
  ⟨fun n d hn => h'.keeps n d (h.keeps n d hn), fun N S hs => h'.sealed N S (h.sealed N S hs),
    h.opened.trans h'.opened⟩

theorem full (h : p.Grows q) {k : ℕ} (hp : p.Full k) : q.Full k := by
  intro m hm
  obtain ⟨d, hd⟩ := Option.ne_none_iff_exists'.1 (hp m hm)
  simp [h.keeps m d hd]

end Grows

theorem Allocated.grows {k n : ℕ} {d : Desc κ} (h : Allocated k d n p q) (hd : d.cloexec = true) :
    p.Grows q :=
  ⟨fun _ _ => h.keeps, fun _ _ hs => hs.update_cloexec h.fd hd, h.opened.ge⟩

theorem Piped.grows {m n : ℕ} (h : Piped true m n p q) : p.Grows q :=
  ⟨fun _ _ => h.keeps, fun _ _ hs => hs.piped h, by rw [h.opened]; exact Nat.le_succ _⟩

/-! ## What survives `exec` as before -/

/-- What `q` has and `p` has not closes on `exec`. -/
def Within (p q : Proc κ) : Prop :=
  ∀ n d, q.fd n = some d → p.fd n = some d ∨ (p.fd n = none ∧ d.cloexec = true)

theorem Within.close (h : Within p q) (m : ℕ) : Within p (q.close m) := by
  intro n d hn
  by_cases hnm : n = m
  · rw [hnm, close_self] at hn
    cases hn
  · rw [close_of_ne hnm] at hn
    exact h n d hn

/-- `q` has the descriptors of `p`, and what else it has closes on `exec`. -/
structure Adds (p q : Proc κ) : Prop where
  keeps : ∀ n d, p.fd n = some d → q.fd n = some d
  within : Within p q

namespace Adds

theorem refl (p : Proc κ) : p.Adds p := ⟨fun _ _ h => h, fun _ _ h => .inl h⟩

theorem trans (h : p.Adds q) (h' : q.Adds r) : p.Adds r := by
  refine ⟨fun n d hn => h'.keeps n d (h.keeps n d hn), fun n d hn => ?_⟩
  rcases h'.within n d hn with hq | ⟨hq, hd⟩
  · exact h.within n d hq
  · refine .inr ⟨?_, hd⟩
    cases hp : p.fd n with
    | none => rfl
    | some e =>
      rw [h.keeps n e hp] at hq
      cases hq

/-- **The same survives.** -/
theorem exec_fd (h : p.Adds q) : q.exec.fd = p.exec.fd := by
  funext n
  ext d
  constructor
  · intro hq
    obtain ⟨hn, hd⟩ := Proc.exec_fd.1 hq
    rcases h.within n d hn with hp | ⟨-, hd'⟩
    · exact Proc.exec_fd.2 ⟨hp, hd⟩
    · rw [hd] at hd'
      cases hd'
  · intro hp
    obtain ⟨hn, hd⟩ := Proc.exec_fd.1 hp
    exact Proc.exec_fd.2 ⟨h.keeps n d hn, hd⟩

end Adds

theorem Allocated.adds {k n : ℕ} {d : Desc κ} (h : Allocated k d n p q) (hd : d.cloexec = true) :
    p.Adds q := by
  refine ⟨fun _ _ => h.keeps, fun m e hm => ?_⟩
  by_cases hmn : m = n
  · subst hmn
    rw [h.fd_self] at hm
    cases hm
    exact .inr ⟨h.free, hd⟩
  · rw [h.fd_of_ne hmn] at hm
    exact .inl hm

end Proc
end PosixFd
