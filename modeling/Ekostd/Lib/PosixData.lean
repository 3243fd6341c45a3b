/-
  The contents of files — opening, truncating and writing them.

  A name is resolved to a file, and several names may be names of one.  A file
  that is created is one that has no name yet.

  * `Files.create`: `O_CREAT` and `O_TRUNC`;
  * `Files.wrote`: what calls of `write` on a descriptor leave in a file;
  * `wrote_data`: a file that is written from its beginning has what was
    accepted.
-/
import Ekostd.Lib.PosixWrite
import Ekostd.Lib.PosixRead

namespace PosixData

open PosixFs

/-- Names and the files they name, the contents of these, and the next file. -/
structure Files where
  names : Bytes → Option ℕ
  data : ℕ → Bytes
  next : ℕ
  named : ∀ p i, names p = some i → i < next

namespace Files

variable {fs : Files} {p q : Bytes} {i off : ℕ}

theorem named_update (fs : Files) (p : Bytes) : ∀ q i,
    Function.update fs.names p (some fs.next) q = some i → i < fs.next + 1 := by
  intro q i h
  by_cases hq : q = p
  · subst hq
    rw [Function.update_self] at h
    cases h
    exact Nat.lt_succ_self _
  · rw [Function.update_of_ne hq] at h
    exact (fs.named q i h).trans (Nat.lt_succ_self _)

/-- A file is created, or truncated if it exists. -/
def create (fs : Files) (p : Bytes) : ℕ × Files :=
  match fs.names p with
  | some i => (i, { fs with data := Function.update fs.data i [] })
  | none =>
    (fs.next, ⟨Function.update fs.names p (some fs.next), Function.update fs.data fs.next [],
      fs.next + 1, fs.named_update p⟩)

/-- Bytes are written over what is at `off`. -/
def pwrite (fs : Files) (i off : ℕ) (bytes : Bytes) : Files :=
  { fs with
    data := Function.update fs.data i
      ((fs.data i).take off ++ bytes ++ (fs.data i).drop (off + bytes.length)) }

/-- A call of `write` on a descriptor of the file, at the offset of that. -/
def put (i : ℕ) (s : Files × ℕ) (c : PosixWrite.Call) : Files × ℕ :=
  (s.1.pwrite i s.2 c.accepted, s.2 + c.accepted.length)

/-- Calls on a descriptor that is at the beginning of the file. -/
def wrote (fs : Files) (i : ℕ) (calls : List PosixWrite.Call) : Files :=
  (calls.foldl (put i) (fs, 0)).1

theorem create_names (fs : Files) (p : Bytes) :
    (fs.create p).2.names p = some (fs.create p).1 := by
  unfold create
  split
  · assumption
  · exact Function.update_self p _ _

theorem create_data (fs : Files) (p : Bytes) : (fs.create p).2.data (fs.create p).1 = [] := by
  unfold create
  split <;> exact Function.update_self _ _ _

/-- **What is written at the end of a file** is added to it. -/
theorem foldl_put (i : ℕ) (calls : List PosixWrite.Call) (fs : Files) :
    (calls.foldl (put i) (fs, (fs.data i).length)).1.data i =
      fs.data i ++ PosixWrite.accepted calls ∧
    (calls.foldl (put i) (fs, (fs.data i).length)).1.names = fs.names := by
  induction calls generalizing fs with
  | nil => simp
  | cons c calls ih =>
    have hdata : (fs.pwrite i (fs.data i).length c.accepted).data i = fs.data i ++ c.accepted := by
      simp [pwrite]
    obtain ⟨hrest, hnames⟩ := ih (fs.pwrite i (fs.data i).length c.accepted)
    rw [hdata, List.length_append] at hrest hnames
    rw [List.foldl_cons, put, PosixWrite.accepted_cons, ← List.append_assoc]
    exact ⟨hrest, hnames⟩

/-- **A file that is written from its beginning** has what was accepted. -/
theorem wrote_data {fs : Files} {i : ℕ} (h : fs.data i = []) (calls : List PosixWrite.Call) :
    (fs.wrote i calls).data i = PosixWrite.accepted calls ∧
      (fs.wrote i calls).names = fs.names := by
  have hput := foldl_put i calls fs
  rw [h, List.length_nil, List.nil_append] at hput
  exact hput

end Files

end PosixData
