/-
  `mmap.rs` — rounding up to pages, and the reservations made of them.

  A `usize` has some number of bits.  `page_ceil` multiplies two of them, which a
  build with overflow checks refuses to do where the product does not fit, and
  another build does modulo `2 ^ w`.

  * `page_ceil_rounds_iff`: up to the last page of the range the result is the
    least multiple that is large enough, and beyond it is `0`;
  * a reservation is rounded up all the same, because `mmap` takes no length `0`.
-/
import Ekostd.File.Error
import Mathlib.Algebra.Order.Floor.Div

namespace Ekostd.Mmap

open PosixFs

variable {w : ℕ}

/-- What the code runs on: the build, the page size it has stored, and the system. -/
structure Host (w : ℕ) where
  overflowChecks : Bool
  /-- `CACHED` -/
  cached : BitVec w
  /-- what `sysconf(_SC_PAGESIZE)` returns -/
  sysconf : ℤ
  /-- a private anonymous mapping without access, at an address the kernel chooses -/
  mmap : BitVec w → Except Errno (BitVec w)

/-- `page_size`, and what is in `CACHED` after it. -/
def pageSize (host : Host w) : BitVec w × BitVec w :=
  if host.cached ≠ 0 then (host.cached, host.cached)
  else
    let size := if 0 < host.sysconf then BitVec.ofInt w host.sysconf else 4096
    (size, size)

/-- `a * b`; `none` is the panic of a checked build. -/
def mul (host : Host w) (a b : BitVec w) : Option (BitVec w) :=
  if host.overflowChecks && 2 ^ w ≤ a.toNat * b.toNat then none else some (a * b)

/-- `usize::div_ceil`; a division by `0` panics. -/
def divCeil (n rhs : BitVec w) : Option (BitVec w) :=
  if rhs = 0 then none
  else
    let d := n / rhs
    let r := n % rhs
    some (if 0 < r then d + 1 else d)

/-- `page_ceil`. -/
def pageCeil (host : Host w) (n : BitVec w) : Option (BitVec w) :=
  let page := (pageSize host).1
  (divCeil n page).bind fun q => mul host q page

/-- `Reservation`. -/
structure Reservation (w : ℕ) where
  ptr : BitVec w
  len : BitVec w

/-- `Reservation::new`. -/
def Reservation.new (host : Host w) (len : BitVec w) :
    Option (Except File.Error (Reservation w)) :=
  if len = 0 then some (.ok ⟨0, 0⟩)
  else
    (pageCeil host len).map fun len =>
      match host.mmap len with
      | .error e => .error (.fromErrno e "mmap")
      | .ok ptr => .ok ⟨ptr, len⟩

/-! ## Rounding -/

theorem isLeast_mul_ceilDiv {p : ℕ} (hp : 0 < p) (n : ℕ) :
    IsLeast {m | p ∣ m ∧ n ≤ m} (n ⌈/⌉ p * p) := by
  refine ⟨⟨Dvd.intro_left _ rfl, ?_⟩, ?_⟩
  · rw [mul_comm]
    exact (ceilDiv_le_iff_le_mul hp).1 le_rfl
  · rintro _ ⟨⟨c, rfl⟩, hn⟩
    rw [mul_comm]
    exact Nat.mul_le_mul_left p ((ceilDiv_le_iff_le_mul hp).2 hn)

theorem ceilDiv_eq (n : ℕ) {p : ℕ} (hp : 0 < p) :
    n ⌈/⌉ p = if 0 < n % p then n / p + 1 else n / p := by
  have hdiv : n / p * p + n % p = n := Nat.div_add_mod' n p
  have hmod : n % p < p := Nat.mod_lt n hp
  rw [Nat.ceilDiv_eq_add_pred_div, Nat.div_eq_iff hp]
  split_ifs with hr
  · rw [Nat.add_mul, Nat.one_mul]
    omega
  · omega

/-- **`div_ceil`** is the quotient rounded up: the `+ 1` stays in the range. -/
theorem divCeil_eq (n : BitVec w) {p : BitVec w} (hp : 0 < p.toNat) :
    ∃ q, divCeil n p = some q ∧ q.toNat = n.toNat ⌈/⌉ p.toNat := by
  have hne : p ≠ 0 := by
    rintro rfl
    simp at hp
  have hpos : 0 < n % p ↔ 0 < n.toNat % p.toNat := by
    rw [BitVec.lt_def, BitVec.toNat_umod]
    simp
  refine ⟨_, by rw [divCeil, if_neg hne], ?_⟩
  rw [ceilDiv_eq _ hp]
  simp only [hpos]
  split_ifs with hr
  · -- a remainder is left only by a divisor of two at least
    have htwo : 2 ≤ p.toNat := by
      by_contra hone
      rw [show p.toNat = 1 by omega, Nat.mod_one] at hr
      exact lt_irrefl 0 hr
    have hdouble : n.toNat / p.toNat * 2 ≤ n.toNat / p.toNat * p.toNat :=
      Nat.mul_le_mul_left _ htwo
    have hdiv : n.toNat / p.toNat * p.toNat + n.toNat % p.toNat = n.toNat := Nat.div_add_mod' _ _
    have hlt : n.toNat / p.toNat + 1 < 2 ^ w := lt_of_le_of_lt (by omega) n.isLt
    have hone : (1 : BitVec w).toNat = 1 :=
      (BitVec.toNat_ofNat 1 w).trans (Nat.mod_eq_of_lt (by omega))
    rw [BitVec.toNat_add, BitVec.toNat_udiv, hone, Nat.mod_eq_of_lt hlt]
  · exact BitVec.toNat_udiv

/-- What `page_ceil` is for: it panics, or returns the least multiple of the page size that is at
    least `n`. -/
def Rounds (page n : BitVec w) : Option (BitVec w) → Prop
  | none => True
  | some m => IsLeast {m : ℕ | page.toNat ∣ m ∧ n.toNat ≤ m} m.toNat

/-- **`page_ceil`**: the product that is computed is the one that is meant, or it is the size of the
    range, and then the build refuses it or it comes out as `0`. -/
theorem pageCeil_cases (host : Host w) {k : ℕ} (hpage : (pageSize host).1.toNat = 2 ^ k)
    (n : BitVec w) :
    (n.toNat + 2 ^ k ≤ 2 ^ w ∧
      ∃ r, pageCeil host n = some r ∧ r.toNat = n.toNat ⌈/⌉ 2 ^ k * 2 ^ k) ∨
    (2 ^ w < n.toNat + 2 ^ k ∧ pageCeil host n = if host.overflowChecks then none else some 0) := by
  have hpos : 0 < 2 ^ k := by positivity
  have hk : 2 ^ k < 2 ^ w := hpage ▸ (pageSize host).1.isLt
  have hdvd : 2 ^ k ∣ 2 ^ w := pow_dvd_pow 2 ((Nat.pow_lt_pow_iff_right (by omega)).1 hk).le
  obtain ⟨q, hq, hqn⟩ := divCeil_eq n (p := (pageSize host).1) (by rw [hpage]; exact hpos)
  obtain ⟨⟨hm, hn⟩, hleast⟩ := isLeast_mul_ceilDiv hpos n.toNat
  have hprod : q.toNat * (pageSize host).1.toNat = n.toNat ⌈/⌉ 2 ^ k * 2 ^ k := by
    rw [hqn, hpage]
  have hceil : pageCeil host n = mul host q (pageSize host).1 := by
    simp only [pageCeil, hq, Option.bind_some]
  have hmul : (q * (pageSize host).1).toNat = (n.toNat ⌈/⌉ 2 ^ k * 2 ^ k) % 2 ^ w := by
    rw [BitVec.toNat_mul, hprod]
  rw [hceil, mul, hprod]
  generalize n.toNat ⌈/⌉ 2 ^ k * 2 ^ k = m at hm hn hleast hmul
  have hle : m ≤ 2 ^ w := hleast ⟨hdvd, n.isLt.le⟩
  rcases le_or_gt (n.toNat + 2 ^ k) (2 ^ w) with hroom | hlast
  · -- the multiple before `2 ^ w` is large enough
    have hbefore : m ≤ 2 ^ w - 2 ^ k := hleast ⟨Nat.dvd_sub hdvd dvd_rfl, by omega⟩
    have hlt : m < 2 ^ w := by omega
    refine .inl ⟨hroom, _, if_neg (by simp [hlt]), ?_⟩
    rw [hmul, Nat.mod_eq_of_lt hlt]
  · have hgap : 2 ^ w - m = 0 := Nat.eq_zero_of_dvd_of_lt (Nat.dvd_sub hdvd hm) (by omega)
    obtain rfl : m = 2 ^ w := by omega
    have hzero : q * (pageSize host).1 = 0 := BitVec.eq_of_toNat_eq (by simpa using hmul)
    refine .inr ⟨hlast, ?_⟩
    rw [hzero]
    simp

/-! ## Reservations -/

/-- What a reservation of `len` bytes has. -/
structure Reserved (host : Host w) (len : BitVec w) (r : Reservation w) : Prop where
  enough : len.toNat ≤ r.len.toNat
  pages : (pageSize host).1.toNat ∣ r.len.toNat
  close : r.len.toNat < len.toNat + (pageSize host).1.toNat
  mapped : r.len ≠ 0 → host.mmap r.len = .ok r.ptr

/-- **A reservation is rounded up**, where `mmap` refuses a length of `0`. -/
theorem Reservation.new_reserved (host : Host w) {k : ℕ}
    (hpage : (pageSize host).1.toNat = 2 ^ k) (hzero : ∀ ptr, host.mmap 0 ≠ .ok ptr)
    {len : BitVec w} {r : Reservation w} (h : Reservation.new host len = some (.ok r)) :
    Reserved host len r := by
  have hpos : 0 < 2 ^ k := by positivity
  unfold Reservation.new at h
  split_ifs at h with hlen
  · cases h
    exact ⟨by simp [hlen], by simp, by simp [hpage], by simp⟩
  · obtain ⟨m, hm, hr⟩ := Option.map_eq_some_iff.1 h
    split at hr
    · cases hr
    · next ptr hptr =>
      cases hr
      rcases pageCeil_cases host hpage len with ⟨-, r, hr, hrlen⟩ | ⟨-, hwrap⟩
      · obtain rfl : r = m := Option.some.inj (hr.symm.trans hm)
        obtain ⟨⟨hdvd, hle⟩, hleast⟩ := isLeast_mul_ceilDiv hpos len.toNat
        rw [← hrlen] at hdvd hle hleast
        refine ⟨hle, hpage ▸ hdvd, ?_, fun _ => hptr⟩
        rw [hpage]
        change r.toNat < len.toNat + 2 ^ k
        by_contra! hfar
        have hless : r.toNat ≤ r.toNat - 2 ^ k :=
          hleast ⟨Nat.dvd_sub hdvd dvd_rfl, by omega⟩
        omega
      · rw [hwrap] at hm
        split_ifs at hm
        cases hm
        exact absurd hptr (hzero ptr)

/-- **When `page_ceil` rounds up**: exactly if the build checks overflow or the last page of the
    range is not needed; and whatever a reservation returns is rounded up. -/
theorem page_ceil_rounds_iff (host : Host w) {k : ℕ} (hpage : (pageSize host).1.toNat = 2 ^ k)
    (hzero : host.mmap 0 = .error Errno.EINVAL) (n : BitVec w) :
    (Rounds (pageSize host).1 n (pageCeil host n) ↔
      host.overflowChecks ∨ n.toNat + 2 ^ k ≤ 2 ^ w) ∧
    ∀ r, Reservation.new host n = some (.ok r) → Reserved host n r := by
  have hpos : 0 < 2 ^ k := by positivity
  refine ⟨?_, fun r => Reservation.new_reserved host hpage fun ptr h => by cases hzero.symm.trans h⟩
  rcases pageCeil_cases host hpage n with ⟨hroom, m, hm, hmn⟩ | ⟨hlast, hwrap⟩
  · refine iff_of_true ?_ (.inr hroom)
    rw [hm, Rounds, hmn, hpage]
    exact isLeast_mul_ceilDiv hpos n.toNat
  · rw [hwrap]
    cases host.overflowChecks with
    | true => simp [Rounds]
    | false =>
      -- `0` is less than `n`, which is in the last page
      refine iff_of_false (fun hrounds => ?_) (by simpa using hlast)
      have hn : n.toNat ≤ 0 := hrounds.1.2
      have hk : 2 ^ k < 2 ^ w := hpage ▸ (pageSize host).1.isLt
      omega

/-- Sixty-four bits, pages of 4096 bytes, a system that maps whatever has a length. -/
def linux (overflowChecks : Bool) : Host 64 where
  overflowChecks := overflowChecks
  cached := 0
  sysconf := 4096
  mmap len := if len = 0 then .error Errno.EINVAL else .ok 4096

theorem page_ceil_rounds_two_pages :
    pageCeil (linux false) 5000 = some 8192 ∧
    (Rounds (pageSize (linux false)).1 5000 (pageCeil (linux false) 5000) ↔
      (linux false).overflowChecks ∨ (5000 : BitVec 64).toNat + 2 ^ 12 ≤ 2 ^ 64) ∧
    ∀ r, Reservation.new (linux false) 5000 = some (.ok r) → Reserved (linux false) 5000 r :=
  ⟨rfl, page_ceil_rounds_iff (linux false) (k := 12) rfl rfl 5000⟩

/-- `page_ceil(usize::MAX)` is `0`. -/
theorem page_ceil_max : pageCeil (linux false) (-1) = some 0 ∧
    ¬ Rounds (pageSize (linux false)).1 (-1) (pageCeil (linux false) (-1)) := by
  refine ⟨rfl, fun h => ?_⟩
  have hmax : (-1 : BitVec 64).toNat ≤ 0 := h.1.2
  revert hmax
  decide

end Ekostd.Mmap
