/-
  A table that is cut up among owners.

  The part of an owner is its keys, with what is at them.  Every key that is in
  use is in the part of one owner.

  * `Parts.Cut`: the table is these parts;
  * `Cut.update`: one part changes, and the others stay;
  * `Cut.set`: what is at one key changes, in the part of one owner.
-/
import Mathlib.Tactic

namespace Parts

variable {κ α ι : Type*} {cells cells' : κ → Option α} {parts : ι → κ → Option α} {o : ι} {i : κ}
  {a : α}

/-- Every key in use is in the part of one owner. -/
structure Cut (cells : κ → Option α) (parts : ι → κ → Option α) : Prop where
  mem : ∀ i a, cells i = some a ↔ ∃ o, parts o i = some a
  apart : ∀ o o' i, parts o i ≠ none → parts o' i ≠ none → o = o'

theorem Cut.empty : Cut (fun _ : κ => (none : Option α)) (fun (_ : ι) _ => none) where
  mem i a := by simp
  apart o o' i ho := absurd rfl ho

theorem Cut.live (hc : Cut cells parts) (ho : parts o i = some a) : cells i = some a :=
  (hc.mem i a).2 ⟨o, ho⟩

theorem Cut.live_iff (hc : Cut cells parts) : cells i ≠ none ↔ ∃ o, parts o i ≠ none := by
  constructor
  · intro hi
    obtain ⟨a, ha⟩ := Option.ne_none_iff_exists'.1 hi
    obtain ⟨o, ho⟩ := (hc.mem i a).1 ha
    exact ⟨o, by simp [ho]⟩
  · rintro ⟨o, ho⟩
    obtain ⟨a, ha⟩ := Option.ne_none_iff_exists'.1 ho
    simp [hc.live ha]

theorem Cut.congr (hc : Cut cells parts) (hcells : ∀ i, cells' i = cells i) : Cut cells' parts where
  mem i a := by rw [hcells, hc.mem]
  apart := hc.apart

variable [DecidableEq ι]

/-- **One part changes**: its owner's keys are as told, and the others are as they were. -/
theorem Cut.update (hc : Cut cells parts) {part : κ → Option α}
    (hown : ∀ i, part i ≠ none → parts o i ≠ none ∨ cells i = none)
    (hnew : ∀ i, parts o i ≠ none ∨ part i ≠ none → cells' i = part i)
    (hold : ∀ i, parts o i = none → part i = none → cells' i = cells i) :
    Cut cells' (Function.update parts o part) := by
  -- a key of another owner is neither in the old part nor in the new one
  have hother : ∀ u i, u ≠ o → parts u i ≠ none → parts o i = none ∧ part i = none := by
    intro u i hu hlive
    have hold : parts o i = none := by
      by_contra ho
      exact hu (hc.apart u o i hlive ho)
    refine ⟨hold, ?_⟩
    by_contra hpart
    rcases hown i hpart with ho | hdead
    · exact ho hold
    · exact hc.live_iff.2 ⟨u, hlive⟩ hdead
  constructor
  · intro i a
    constructor
    · intro hi
      by_cases hin : parts o i ≠ none ∨ part i ≠ none
      · exact ⟨o, by rw [Function.update_self, ← hnew i hin, hi]⟩
      · simp only [not_or, not_not] at hin
        rw [hold i hin.1 hin.2] at hi
        obtain ⟨u, hu⟩ := (hc.mem i a).1 hi
        have huo : u ≠ o := by
          rintro rfl
          cases hu.symm.trans hin.1
        exact ⟨u, by rw [Function.update_of_ne huo, hu]⟩
    · rintro ⟨u, hu⟩
      by_cases huo : u = o
      · subst huo
        rw [Function.update_self] at hu
        rw [hnew i (.inr (by simp [hu])), hu]
      · rw [Function.update_of_ne huo] at hu
        obtain ⟨ho, hpart⟩ := hother u i huo (by simp [hu])
        rw [hold i ho hpart, hc.live hu]
  · intro u v i hu hv
    by_cases huo : u = o <;> by_cases hvo : v = o
    · rw [huo, hvo]
    · subst huo
      rw [Function.update_self] at hu
      rw [Function.update_of_ne hvo] at hv
      exact absurd (hother v i hvo hv).2 hu
    · subst hvo
      rw [Function.update_self] at hv
      rw [Function.update_of_ne huo] at hu
      exact absurd (hother u i huo hu).2 hv
    · rw [Function.update_of_ne huo] at hu
      rw [Function.update_of_ne hvo] at hv
      exact hc.apart u v i hu hv

variable [DecidableEq κ] {part : κ → Option α}

/-- **One key changes**, which is the owner's or nobody's. -/
theorem Cut.set (hc : Cut cells (Function.update parts o part)) {v : Option α}
    (hi : part i ≠ none ∨ cells i = none) (hcells : ∀ j, cells' j = if j = i then v else cells j) :
    Cut cells' (Function.update parts o (Function.update part i v)) := by
  have hlive : ∀ {j}, part j ≠ none → cells j = part j := by
    intro j hj
    obtain ⟨b, hb⟩ := Option.ne_none_iff_exists'.1 hj
    rw [hb, hc.live (o := o) (by rw [Function.update_self, hb])]
  rw [← Function.update_idem part (Function.update part i v) parts]
  refine hc.update (fun j hj => ?_) (fun j hj => ?_) fun j hj hj' => ?_
  · rw [Function.update_self]
    by_cases hji : j = i
    · rw [hji]
      exact hi
    · rw [Function.update_of_ne hji] at hj
      exact .inl hj
  · rw [hcells]
    by_cases hji : j = i
    · subst hji
      rw [if_pos rfl, Function.update_self]
    · rw [Function.update_self, Function.update_of_ne hji, or_self] at hj
      rw [if_neg hji, Function.update_of_ne hji, hlive hj]
  · rw [Function.update_self] at hj
    rw [hcells]
    by_cases hji : j = i
    · subst hji
      rw [Function.update_self] at hj'
      rw [if_pos rfl, hj', hi.resolve_left (not_not.2 hj)]
    · rw [if_neg hji]

end Parts
