/-
  UTF-8, decoded lossily — what is not well formed becomes U+FFFD, one for each
  sequence that could have gone on (`broken`).
-/
import Mathlib.Tactic

namespace Utf8

open List

/-- A continuation byte. -/
def continuation (c : UInt8) : Bool := 0x80 ≤ c && c ≤ 0xBF

/-- Whether `c` may come second in a sequence of three or four bytes that starts with `b`. -/
def second (b c : UInt8) : Bool :=
  (b = 0xE0 && 0xA0 ≤ c && c ≤ 0xBF) || (0xE1 ≤ b && b ≤ 0xEC && continuation c) ||
    (b = 0xED && 0x80 ≤ c && c ≤ 0x9F) || (0xEE ≤ b && b ≤ 0xEF && continuation c) ||
    (b = 0xF0 && 0x90 ≤ c && c ≤ 0xBF) || (0xF1 ≤ b && b ≤ 0xF3 && continuation c) ||
    (b = 0xF4 && 0x80 ≤ c && c ≤ 0x8F)

/-- How many bytes of a sequence that is not well formed could start one that is, at least one. -/
def broken : List UInt8 → ℕ
  | b :: c :: d :: _ => if second b c then if 0xF0 ≤ b && continuation d then 3 else 2 else 1
  | [b, c] => if second b c then 2 else 1
  | _ => 1

theorem broken_pos (bs : List UInt8) : 0 < broken bs := by
  unfold broken
  split
  · split_ifs <;> decide
  · split_ifs <;> decide
  · decide

/-- The characters of a byte string. -/
def decodeLossy (bs : List UInt8) : List Char :=
  if _h : bs = [] then []
  else
    match bs.toByteArray.utf8DecodeChar? 0 with
    | some c => c :: decodeLossy (bs.drop c.utf8Size)
    | none => Char.ofNat 0xFFFD :: decodeLossy (bs.drop (broken bs))
termination_by bs.length
decreasing_by
  · have hpos := c.utf8Size_pos
    have hlen := length_pos_iff.2 _h
    rw [length_drop]
    omega
  · have hpos := broken_pos bs
    have hlen := length_pos_iff.2 _h
    rw [length_drop]
    omega

/-- `String::from_utf8_lossy`. -/
def fromUtf8Lossy (bs : List UInt8) : String := .ofList (decodeLossy bs)

/-- **What is well formed is decoded as it is.** -/
theorem decodeLossy_encode (cs : List Char) :
    decodeLossy (cs.flatMap String.utf8EncodeChar) = cs := by
  induction cs with
  | nil => simp [decodeLossy]
  | cons c cs ih =>
    have hne : (c :: cs).flatMap String.utf8EncodeChar ≠ [] := by
      simp [String.utf8EncodeChar_ne_nil]
    have hdecode : ((c :: cs).flatMap String.utf8EncodeChar).toByteArray.utf8DecodeChar? 0 =
        some c := by
      rw [flatMap_cons, List.toByteArray_append]
      exact ByteArray.utf8DecodeChar?_utf8EncodeChar_append
    have hdrop : ((c :: cs).flatMap String.utf8EncodeChar).drop c.utf8Size =
        cs.flatMap String.utf8EncodeChar := by
      rw [flatMap_cons, ← String.length_utf8EncodeChar, drop_left]
    rw [decodeLossy, dif_neg hne, hdecode]
    simp only [hdrop, ih]

end Utf8
