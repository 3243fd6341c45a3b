/-
  `daemonize.rs` — `format_pid`, the decimal digits of a pid in a fixed buffer.

  * `formatPid`: as in the source; an index below zero would panic (`none`);
  * `decimal`: the digits, most significant first, as text;
  * `formatPid_eq`: the buffer is long enough for every pid, and holds its
    digits.
-/
import Ekostd.Lib.PosixFs
import Mathlib.Data.Nat.Digits.Lemmas

namespace Ekostd.Daemonize

open PosixFs List

/-- The loop of `format_pid`: one digit for each pass, from the back. -/
def formatPid.loop : (i n : ℕ) → Bytes → Option (ℕ × Bytes)
  | 0, n, buf => if n > 0 then none else some (0, buf)
  | i + 1, n, buf =>
    if n > 0 then formatPid.loop i (n / 10) (buf.set i (48 + UInt8.ofNat (n % 10)))
    else some (i + 1, buf)

/-- `format_pid`, with its buffer. -/
def formatPid (pid : Int32) : Option Bytes := do
  let buf : Bytes := replicate 24 0
  let n : ℕ := if pid < 0 then 0 else pid.toInt.toNat
  let i := buf.length
  let (i, buf) := if n = 0 then (i - 1, buf.set (i - 1) 48) else (i, buf)
  let (i, buf) ← formatPid.loop i n buf
  let buf := buf.set (buf.length - 1) (buf.getD (buf.length - 1) 0)
  some (buf.drop i)

/-- The decimal digits of `n` as text. -/
def decimal (n : ℕ) : Bytes :=
  if n = 0 then [48] else ((Nat.digits 10 n).map fun d => 48 + UInt8.ofNat d).reverse

/-- **The loop** puts the digits before what is in the buffer from `i` on. -/
theorem formatPid.loop_eq {i n : ℕ} {buf : Bytes} (hbuf : i ≤ buf.length)
    (hi : (Nat.digits 10 n).length ≤ i) :
    ∃ buf', formatPid.loop i n buf = some (i - (Nat.digits 10 n).length, buf') ∧
      buf'.drop (i - (Nat.digits 10 n).length) =
        ((Nat.digits 10 n).map fun d => 48 + UInt8.ofNat d).reverse ++ buf.drop i := by
  induction i generalizing n buf with
  | zero =>
    have hnil : Nat.digits 10 n = [] := length_eq_zero_iff.1 (by omega)
    obtain rfl := Nat.digits_eq_nil_iff_eq_zero.1 hnil
    exact ⟨buf, by simp [formatPid.loop], by simp⟩
  | succ i ih =>
    by_cases hn : n > 0
    · have hdigits := Nat.digits_def' (by decide : 1 < 10) hn
      rw [hdigits, length_cons, Nat.add_le_add_iff_right] at hi
      have hset : (buf.set i (48 + UInt8.ofNat (n % 10))).drop i =
          (48 + UInt8.ofNat (n % 10)) :: buf.drop (i + 1) := by
        rw [drop_eq_getElem_cons (by rw [length_set]; omega), getElem_set_self,
          drop_set_of_lt (Nat.lt_succ_self i)]
      have hbound : i ≤ (buf.set i (48 + UInt8.ofNat (n % 10))).length := by
        rw [length_set]
        omega
      obtain ⟨buf', hloop, hdrop⟩ := ih hbound hi
      refine ⟨buf', ?_, ?_⟩
      · rw [formatPid.loop, if_pos hn, hloop, hdigits, length_cons, Nat.add_sub_add_right]
      · rw [hdigits, length_cons, Nat.add_sub_add_right, hdrop, hset, map_cons, reverse_cons,
          append_assoc, singleton_append]
    · obtain rfl : n = 0 := by omega
      exact ⟨buf, by simp [formatPid.loop], by simp⟩

/-- **`format_pid`** gives the decimal digits of every pid, and a zero for a negative one. -/
theorem formatPid_eq (pid : Int32) : formatPid pid = some (decimal pid.toInt.toNat) := by
  have hn : (if pid < 0 then 0 else pid.toInt.toNat) = pid.toInt.toNat := by
    split_ifs with h
    · have hneg : pid.toInt < 0 := by simpa [Int32.lt_iff_toInt_lt] using h
      omega
    · rfl
  have hlt : pid.toInt.toNat < 10 ^ 10 := by
    have := pid.toInt_lt
    omega
  have hlen : (Nat.digits 10 pid.toInt.toNat).length ≤ 10 :=
    (Nat.digits_length_le_iff (by decide) _).2 hlt
  have hsame : ∀ buf : Bytes, buf.set (buf.length - 1) (buf.getD (buf.length - 1) 0) = buf := by
    intro buf
    by_cases hne : buf.length = 0
    · rw [length_eq_zero_iff.1 hne]
      rfl
    · rw [getD_eq_getElem?_getD, getElem?_eq_getElem (by omega), Option.getD_some, set_getElem_self]
  unfold formatPid
  simp only [hn, hsame]
  by_cases hzero : pid.toInt.toNat = 0
  · simp only [hzero, if_true]
    rfl
  · obtain ⟨buf', hloop, hdrop⟩ := formatPid.loop_eq
      (Nat.le_refl (replicate 24 (0 : UInt8)).length) (hlen.trans (by decide))
    simp only [hzero, if_false, hloop, Option.bind_eq_bind, Option.bind_some, hdrop, drop_length,
      append_nil, decimal]

/-- **No leading zero**: only zero starts with one. -/
theorem decimal_head {n : ℕ} (hn : n ≠ 0) : (decimal n).head? ≠ some 48 := by
  intro h
  have hne : Nat.digits 10 n ≠ [] := Nat.digits_ne_nil_iff_ne_zero.2 hn
  rw [decimal, if_neg hn, head?_reverse, getLast?_map, getLast?_eq_some_getLast hne,
    Option.map_some, Option.some.injEq] at h
  have hlast := Nat.getLast_digit_ne_zero 10 hn
  have hlt : (Nat.digits 10 n).getLast hne < 10 := Nat.digits_lt_base (by decide) (getLast_mem hne)
  have hzero : UInt8.ofNat ((Nat.digits 10 n).getLast hne) = UInt8.ofNat 0 := by simpa using h
  have hval := congrArg UInt8.toNat hzero
  rw [UInt8.toNat_ofNat', UInt8.toNat_ofNat', Nat.mod_eq_of_lt (by omega)] at hval
  exact hlast hval

end Ekostd.Daemonize
