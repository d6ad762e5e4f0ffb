/-
Numbers in byte-addressed memory, little endian.

`leAt m o k` is the number in the `k` bytes at `o`, `putLE m o k n` stores one there; `signed` reads a number of `w`
bits as two's complement. `copy` is `memcpy` between two memories. The rules say what each store leaves where
(`leAt_putLE_self`, `leAt_putLE_of_disjoint`, `s32At_put32_self`), so that no proof looks at single bytes.
-/
import Mathlib.Tactic

namespace OsLab.Lib

/-- memory from the start of a buffer -/
abbrev Mem := ℕ → UInt8

def zeroMem : Mem := fun _ => 0

/-- `memcpy(dst + o, src + p, n)` -/
def copy (dst : Mem) (o : ℕ) (src : Mem) (p n : ℕ) : Mem :=
  fun i => if o ≤ i ∧ i < o + n then src (p + (i - o)) else dst i

/-- the number in the `k` bytes at `o` -/
def leAt (m : Mem) (o : ℕ) : ℕ → ℕ
  | 0 => 0
  | k + 1 => (m o).toNat + 256 * leAt m (o + 1) k

def putLE (m : Mem) (o k n : ℕ) : Mem :=
  fun i => if o ≤ i ∧ i < o + k then UInt8.ofNat (n / 256 ^ (i - o)) else m i

/-- `n < 2 ^ w` as a two's complement number of `w` bits -/
def signed (w n : ℕ) : ℤ := if n < 2 ^ (w - 1) then n else (n : ℤ) - 2 ^ w

/-- conversion of a number to `int` -/
def toInt32 (z : ℤ) : ℤ := signed 32 (z % 2 ^ 32).toNat

def s32At (m : Mem) (o : ℕ) : ℤ := signed 32 (leAt m o 4)

def s64At (m : Mem) (o : ℕ) : ℤ := signed 64 (leAt m o 8)

def put32 (m : Mem) (o : ℕ) (z : ℤ) : Mem := putLE m o 4 (z % 2 ^ 32).toNat

def put64 (m : Mem) (o : ℕ) (z : ℤ) : Mem := putLE m o 8 (z % 2 ^ 64).toNat

/-- `k` consecutive `int`s -/
def put32s (m : Mem) (o : ℕ) (f : ℕ → ℤ) : ℕ → Mem
  | 0 => m
  | k + 1 => put32 (put32s m o f k) (o + 4 * k) (f k)

/-- the values of an `int` -/
def InInt32 (z : ℤ) : Prop := -2 ^ 31 ≤ z ∧ z < 2 ^ 31

/-- the values of an `off_t` -/
def InInt64 (z : ℤ) : Prop := -2 ^ 63 ≤ z ∧ z < 2 ^ 63

/-! ## Loads -/

theorem leAt_congr {m m' : Mem} {o k : ℕ} (h : ∀ i, o ≤ i → i < o + k → m i = m' i) : leAt m o k = leAt m' o k := by
  induction k generalizing o with
  | zero => rfl
  | succ k ih =>
    have hhead : m o = m' o := h o (le_refl o) (by omega)
    have htail : leAt m (o + 1) k = leAt m' (o + 1) k := ih fun i h1 h2 => h i (by omega) (by omega)
    simp only [leAt, hhead, htail]

theorem leAt_zero {m : Mem} {o k : ℕ} (h : ∀ i, o ≤ i → i < o + k → m i = 0) : leAt m o k = 0 := by
  induction k generalizing o with
  | zero => rfl
  | succ k ih =>
    have hhead : m o = 0 := h o (le_refl o) (by omega)
    have htail : leAt m (o + 1) k = 0 := ih fun i h1 h2 => h i (by omega) (by omega)
    simp [leAt, hhead, htail]

@[simp] theorem leAt_zeroMem (o k : ℕ) : leAt zeroMem o k = 0 := leAt_zero fun _ _ _ => rfl

theorem leAt_lt (m : Mem) (o k : ℕ) : leAt m o k < 256 ^ k := by
  induction k generalizing o with
  | zero => simp [leAt]
  | succ k ih =>
    have hbyte : (m o).toNat < 256 := (m o).toNat_lt
    have htail := ih (o + 1)
    simp only [leAt, pow_succ]
    omega

/-- loads of a memory that was moved -/
theorem leAt_shift (m : Mem) (d o k : ℕ) : leAt (fun i => m (d + i)) o k = leAt m (d + o) k := by
  induction k generalizing o with
  | zero => rfl
  | succ k ih => simp only [leAt, ih, Nat.add_assoc]

/-! ## Stores -/

theorem putLE_of_lt {m : Mem} {o k n i : ℕ} (h : i < o) : putLE m o k n i = m i := by
  unfold putLE
  rw [if_neg]
  omega

theorem putLE_of_ge {m : Mem} {o k n i : ℕ} (h : o + k ≤ i) : putLE m o k n i = m i := by
  unfold putLE
  rw [if_neg]
  omega

/-- storing the first byte, then the others -/
theorem putLE_succ (m : Mem) (o k n i : ℕ) (hi : o + 1 ≤ i) :
    putLE m o (k + 1) n i = putLE m (o + 1) k (n / 256) i := by
  unfold putLE
  by_cases h : i < o + (k + 1)
  · have hexp : i - o = (i - (o + 1)) + 1 := by omega
    rw [if_pos ⟨by omega, h⟩, if_pos ⟨hi, by omega⟩, hexp, pow_succ, mul_comm, Nat.div_div_eq_div_mul]
  · rw [if_neg (by omega), if_neg (by omega)]

theorem leAt_putLE_self (m : Mem) (o k n : ℕ) : leAt (putLE m o k n) o k = n % 256 ^ k := by
  induction k generalizing o n with
  | zero => simp [leAt, Nat.mod_one]
  | succ k ih =>
    have hhead : (putLE m o (k + 1) n o).toNat = n % 256 := by simp [putLE]
    have htail : leAt (putLE m o (k + 1) n) (o + 1) k = n / 256 % 256 ^ k := by
      rw [← ih (o + 1) (n / 256)]
      exact leAt_congr fun i h1 _ => putLE_succ m o k n i h1
    rw [leAt, hhead, htail, pow_succ, mul_comm (256 ^ k), Nat.mod_mul]

theorem leAt_putLE_of_disjoint {m : Mem} {o k n o' k' : ℕ} (h : o' + k' ≤ o ∨ o + k ≤ o') :
    leAt (putLE m o k n) o' k' = leAt m o' k' := by
  refine leAt_congr fun i h1 h2 => ?_
  rcases h with h | h
  · exact putLE_of_lt (by omega)
  · exact putLE_of_ge (by omega)

theorem signed_toNat_32 {z : ℤ} (h : InInt32 z) : signed 32 (z % 2 ^ 32).toNat = z := by
  obtain ⟨h1, h2⟩ := h
  simp only [signed]
  split_ifs <;> omega

theorem toInt32_of_mem {z : ℤ} (h : InInt32 z) : toInt32 z = z := signed_toNat_32 h

theorem signed_toNat_64 {z : ℤ} (h : InInt64 z) : signed 64 (z % 2 ^ 64).toNat = z := by
  obtain ⟨h1, h2⟩ := h
  simp only [signed]
  split_ifs <;> omega

theorem inInt32_signed {n : ℕ} (h : n < 2 ^ 32) : InInt32 (signed 32 n) := by
  simp only [InInt32, signed]
  split_ifs <;> omega

theorem inInt64_s64At (m : Mem) (o : ℕ) : InInt64 (s64At m o) := by
  have h := leAt_lt m o 8
  simp only [s64At, InInt64, signed]
  split_ifs <;> omega

theorem s32At_put32_self {m : Mem} {o : ℕ} {z : ℤ} (h : InInt32 z) : s32At (put32 m o z) o = z := by
  have hlt : (z % 2 ^ 32).toNat < 256 ^ 4 := by omega
  rw [s32At, put32, leAt_putLE_self, Nat.mod_eq_of_lt hlt]
  exact signed_toNat_32 h

theorem s32At_put32_of_disjoint {m : Mem} {o o' : ℕ} {z : ℤ} (h : o' + 4 ≤ o ∨ o + 4 ≤ o') :
    s32At (put32 m o z) o' = s32At m o' := by
  rw [s32At, put32, leAt_putLE_of_disjoint h, s32At]

theorem s64At_put64_self {m : Mem} {o : ℕ} {z : ℤ} (h : InInt64 z) : s64At (put64 m o z) o = z := by
  have hlt : (z % 2 ^ 64).toNat < 256 ^ 8 := by omega
  rw [s64At, put64, leAt_putLE_self, Nat.mod_eq_of_lt hlt]
  exact signed_toNat_64 h

theorem s32At_put64_of_disjoint {m : Mem} {o o' : ℕ} {z : ℤ} (h : o' + 4 ≤ o ∨ o + 8 ≤ o') :
    s32At (put64 m o z) o' = s32At m o' := by
  rw [s32At, put64, leAt_putLE_of_disjoint h, s32At]

theorem s32At_congr {m m' : Mem} {o : ℕ} (h : ∀ i, o ≤ i → i < o + 4 → m i = m' i) : s32At m o = s32At m' o := by
  rw [s32At, s32At, leAt_congr h]

theorem s64At_congr {m m' : Mem} {o : ℕ} (h : ∀ i, o ≤ i → i < o + 8 → m i = m' i) : s64At m o = s64At m' o := by
  rw [s64At, s64At, leAt_congr h]

@[simp] theorem s32At_zeroMem (o : ℕ) : s32At zeroMem o = 0 := by simp [s32At, signed]

@[simp] theorem s64At_zeroMem (o : ℕ) : s64At zeroMem o = 0 := by simp [s64At, signed]

theorem leAt_put32s {m : Mem} {o : ℕ} {f : ℕ → ℤ} {k i : ℕ} (hi : i < k) :
    leAt (put32s m o f k) (o + 4 * i) 4 = (f i % 2 ^ 32).toNat := by
  induction k with
  | zero => omega
  | succ k ih =>
    by_cases h : i = k
    · subst h
      rw [put32s, put32, leAt_putLE_self]
      exact Nat.mod_eq_of_lt (by omega)
    · rw [put32s, put32, leAt_putLE_of_disjoint (by omega)]
      exact ih (by omega)

theorem s32At_put32s {m : Mem} {o : ℕ} {f : ℕ → ℤ} {k i : ℕ} (hf : InInt32 (f i)) (hi : i < k) :
    s32At (put32s m o f k) (o + 4 * i) = f i := by
  rw [s32At, leAt_put32s hi]
  exact signed_toNat_32 hf

theorem put32s_congr {m : Mem} {o : ℕ} {f g : ℕ → ℤ} {k : ℕ} (h : ∀ i < k, f i % 2 ^ 32 = g i % 2 ^ 32) :
    put32s m o f k = put32s m o g k := by
  induction k with
  | zero => rfl
  | succ k ih =>
    rw [put32s, put32s, ih fun i hi => h i (by omega), put32, put32, h k (by omega)]

theorem put32s_of_lt {m : Mem} {o : ℕ} {f : ℕ → ℤ} {k i : ℕ} (h : i < o) : put32s m o f k i = m i := by
  induction k with
  | zero => rfl
  | succ k ih => rw [put32s, put32, putLE_of_lt (by omega), ih]

theorem put32s_of_ge {m : Mem} {o : ℕ} {f : ℕ → ℤ} {k i : ℕ} (h : o + 4 * k ≤ i) : put32s m o f k i = m i := by
  induction k with
  | zero => rfl
  | succ k ih => rw [put32s, put32, putLE_of_ge (by omega), ih (by omega)]

/-! ## Copies -/

theorem copy_of_mem {dst src : Mem} {o p n i : ℕ} (h1 : o ≤ i) (h2 : i < o + n) :
    copy dst o src p n i = src (p + (i - o)) := if_pos ⟨h1, h2⟩

theorem copy_of_lt {dst src : Mem} {o p n i : ℕ} (h : i < o) : copy dst o src p n i = dst i := if_neg (by omega)

theorem copy_of_ge {dst src : Mem} {o p n i : ℕ} (h : o + n ≤ i) : copy dst o src p n i = dst i := if_neg (by omega)

@[simp] theorem copy_zero (dst src : Mem) (o p : ℕ) : copy dst o src p 0 = dst := by
  funext i
  exact if_neg (by omega)

/-- a copy in two parts -/
theorem copy_append (dst src : Mem) (o p n k : ℕ) :
    copy (copy dst o src p n) (o + n) src (p + n) k = copy dst o src p (n + k) := by
  funext i
  by_cases h1 : o + n ≤ i
  · by_cases h2 : i < o + n + k
    · rw [copy_of_mem h1 h2, copy_of_mem (by omega) (by omega)]
      congr 1
      omega
    · rw [copy_of_ge (by omega), copy_of_ge (by omega), copy_of_ge (by omega)]
  · rw [copy_of_lt (by omega)]
    by_cases h3 : o ≤ i
    · rw [copy_of_mem h3 (by omega), copy_of_mem h3 (by omega)]
    · rw [copy_of_lt (by omega), copy_of_lt (by omega)]

end OsLab.Lib
