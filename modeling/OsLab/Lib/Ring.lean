/-
A circular buffer as a queue.

`contents buf cap out n` lists the `n` entries from index `out` on, wrapping at `cap`. Storing at `(out + n) % cap`
appends (`contents_push`), stepping `out` drops the first (`contents_pop`). Full and empty differ only in `n`.
-/
import Mathlib.Tactic

namespace OsLab.Lib

open Function (update update_self update_of_ne)

variable {A : Type}

/-- the entries of a circular buffer, oldest first -/
def contents (buf : ℤ → A) (cap out : ℤ) (n : ℕ) : List A :=
  (List.range n).map fun i : ℕ => buf ((out + i) % cap)

@[simp] theorem contents_zero (buf : ℤ → A) (cap out : ℤ) : contents buf cap out 0 = [] := rfl

/-- two entries of the buffer have different indices -/
theorem emod_ne_of_lt {cap out : ℤ} {i n : ℕ} (hin : i < n) (hn : (n : ℤ) < cap) :
    (out + i) % cap ≠ (out + n) % cap := by
  intro heq
  have hdvd : cap ∣ (out + n) - (out + i) :=
    Int.dvd_of_emod_eq_zero (Int.emod_eq_emod_iff_emod_sub_eq_zero.1 heq.symm)
  have hle : cap ≤ (out + n) - (out + i) := Int.le_of_dvd (by omega) hdvd
  omega

/-- storing behind the last entry -/
theorem contents_push (buf : ℤ → A) {cap : ℤ} (out : ℤ) {n : ℕ} (hn : (n : ℤ) < cap) (x : A) :
    contents (update buf ((out + n) % cap) x) cap out (n + 1) = contents buf cap out n ++ [x] := by
  simp only [contents, List.range_succ, List.map_append, List.map_cons, List.map_nil, update_self]
  congr 1
  refine List.map_congr_left fun i hi => ?_
  rw [update_of_ne (emod_ne_of_lt (List.mem_range.1 hi) hn)]

/-- taking the first entry -/
theorem contents_pop (buf : ℤ → A) {cap out : ℤ} (n : ℕ) :
    contents buf cap out (n + 1) = buf (out % cap) :: contents buf cap ((out + 1) % cap) n := by
  simp only [contents, List.range_succ_eq_map, List.map_cons, List.map_map]
  congr 1
  · simp
  · refine List.map_congr_left fun i _ => ?_
    simp only [Function.comp]
    have hsum : out + ((i + 1 : ℕ) : ℤ) = out + 1 + i := by push_cast; ring
    rw [hsum, Int.emod_add_emod]

end OsLab.Lib
