/-
  Calls of a C library that is given the answers it is to have made.

  An answer that it cannot make is `never`; a call that has no meaning is
  `undefined`.

  * `CRes.Gives`: the call has a meaning, and what comes of it is as told; the
    rules for sequences of calls.
-/
import Mathlib.Tactic

/-- How a call comes out. -/
inductive CRes (α : Type*) where
  | ok (a : α)
  /-- it does not come out so -/
  | never
  /-- there is no meaning to it -/
  | undefined

namespace CRes

variable {α γ : Type*}

def bind (x : CRes α) (f : α → CRes γ) : CRes γ :=
  match x with
  | ok a => f a
  | never => never
  | undefined => undefined

def map (f : α → γ) (x : CRes α) : CRes γ := x.bind fun a => ok (f a)

@[simp] theorem bind_ok (a : α) (f : α → CRes γ) : (ok a).bind f = f a := rfl

@[simp] theorem bind_never (f : α → CRes γ) : never.bind f = never := rfl

@[simp] theorem bind_undefined (f : α → CRes γ) : undefined.bind f = undefined := rfl

@[simp] theorem map_ok (a : α) (f : α → γ) : (ok a).map f = ok (f a) := rfl

@[simp] theorem map_never (f : α → γ) : never.map f = never := rfl

/-- It has a meaning, and what comes of it is as told. -/
def Gives (x : CRes α) (P : α → Prop) : Prop :=
  match x with
  | ok a => P a
  | never => True
  | undefined => False

theorem Gives.bind {x : CRes α} {f : α → CRes γ} {P : α → Prop} {Q : γ → Prop} (hx : x.Gives P)
    (hf : ∀ a, P a → (f a).Gives Q) : (x.bind f).Gives Q := by
  cases x with
  | ok a => exact hf a hx
  | never => trivial
  | undefined => exact hx

theorem Gives.map {x : CRes α} {f : α → γ} {P : α → Prop} {Q : γ → Prop} (hx : x.Gives P)
    (hf : ∀ a, P a → Q (f a)) : (x.map f).Gives Q :=
  hx.bind hf

theorem Gives.mono {x : CRes α} {P Q : α → Prop} (hx : x.Gives P) (h : ∀ a, P a → Q a) :
    x.Gives Q := by
  cases x with
  | ok a => exact h a hx
  | never => trivial
  | undefined => exact hx

end CRes
