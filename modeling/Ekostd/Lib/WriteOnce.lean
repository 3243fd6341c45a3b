/-
  The write-once cell — what can be seen of a value that is put at most once.

  The abstract cell takes one value and then keeps it; reading it is an
  operation too, and its answers are kept.  Every answer that is a value is the
  value put, and after it all answers are.
-/
import Ekostd.Lib.Sts

/-- The cell, the values put in it so far, and the answers it gave. -/
structure WriteOnce (T : Type*) where
  cell : Option T
  puts : List T
  seen : List (Option T)

namespace WriteOnce

variable {T : Type*}

/-- Put a value, or read the cell. -/
inductive Op (T : Type*) where
  | put (v : T)
  | see

/-- A value is put only while there is none. -/
def system (T : Type*) : Sts (WriteOnce T) (Op T) where
  init := ⟨none, [], []⟩
  step c
    | .put v => if c.cell.isNone then some { c with cell := some v, puts := c.puts ++ [v] } else none
    | .see => some { c with seen := c.seen ++ [c.cell] }

/-- At most one value was put, and what was seen of it. -/
structure Agrees (c : WriteOnce T) : Prop where
  puts : c.puts = c.cell.toList
  seen : ∀ v, some v ∈ c.seen → c.cell = some v
  stays : c.seen.Pairwise fun r r' => ∀ v, r = some v → r' = some v

/-- **Every answer agrees** with the cell and with the answers after it. -/
theorem agrees : (system T).Inductive Agrees where
  init := ⟨rfl, by simp [system], List.Pairwise.nil⟩
  step {c a c'} hc ha := by
    cases a with
    | put v =>
      simp only [system] at ha
      split_ifs at ha with hnone
      cases ha
      have hcell : c.cell = none := by simpa using hnone
      refine ⟨by simp [hc.puts, hcell], fun v' hv' => ?_, hc.stays⟩
      rw [hc.seen v' hv'] at hcell
      cases hcell
    | see =>
      cases ha
      refine ⟨hc.puts, fun v hv => ?_, List.pairwise_append.2 ⟨hc.stays, by simp, ?_⟩⟩
      · rcases List.mem_append.1 hv with hv | hv
        · exact hc.seen v hv
        · exact (List.mem_singleton.1 hv).symm
      · rintro r hr r' hr' v rfl
        rw [List.mem_singleton.1 hr']
        exact hc.seen v hr

end WriteOnce
