/-
The bitmap as a set of indices.

`isset` of a word is a bit of a number (`isset_eq_testBit`); from there every operation is described by `isset` alone:
`alloc` adds the smallest clear index (`alloc_eq_some`), `unmark` takes one away (`unmark_eq_ok`). `bits` is the finite
set of the set indices and `nrAllocated` its size. The bits of the last word past the end are set (`create_returns`) and
stay set (`Padded`), and with them no call trips an assertion: `bitmap_is_set`, for every history of calls.
-/
import Mathlib.Tactic
import Mathlib.Data.Nat.Bitwise
import OsLab.Testfs.Disk

namespace OsLab.Testfs.Bitmap

open OsLab.Lib Function

variable {b b' : Bitmap} {i j : ℕ}

/-! ## Words -/

theorem toNat_mask (h : j < 8) : (mask j).toNat = 2 ^ j := by
  unfold mask
  interval_cases j <;> rfl

theorem and_mask_ne_zero (w : UInt8) (h : j < 8) : w &&& mask j ≠ 0 ↔ w.toNat.testBit j = true := by
  rw [ne_eq, ← UInt8.toNat_inj, UInt8.toNat_and, toNat_mask h, Nat.and_two_pow]
  cases hw : w.toNat.testBit j <;> simp

theorem testBit_or_mask (w : UInt8) (h : i < 8) :
    (w ||| mask i).toNat.testBit j = (w.toNat.testBit j || decide (j = i)) := by
  rw [UInt8.toNat_or, Nat.testBit_or, toNat_mask h, Nat.testBit_two_pow]
  simp [eq_comm]

theorem testBit_and_not_mask (w : UInt8) (hi : i < 8) (hj : j < 8) :
    (w &&& ~~~mask i).toNat.testBit j = (w.toNat.testBit j && decide (j ≠ i)) := by
  have hmask : (~~~mask i).toNat.testBit j = decide (j ≠ i) := by
    interval_cases i <;> interval_cases j <;> rfl
  rw [UInt8.toNat_and, Nat.testBit_and, hmask]

theorem eq_allbits_iff (w : UInt8) : w = 0xff ↔ ∀ j < 8, w.toNat.testBit j = true := by
  constructor
  · rintro rfl
    decide
  · intro h
    rw [← UInt8.toNat_inj]
    refine Nat.eq_of_testBit_eq fun j => ?_
    by_cases hj : j < 8
    · rw [h j hj]
      interval_cases j <;> rfl
    · have hpow : 2 ^ 8 ≤ 2 ^ j := Nat.pow_le_pow_right (by omega) (by omega)
      rw [Nat.testBit_lt_two_pow (lt_of_lt_of_le w.toNat_lt hpow),
        Nat.testBit_lt_two_pow (lt_of_lt_of_le (UInt8.toNat_lt _) hpow)]

theorem isset_eq_testBit (b : Bitmap) (i : ℕ) : b.isset i = (b.v (i / 8)).toNat.testBit (i % 8) := by
  rw [isset, Bool.eq_iff_iff, decide_eq_true_iff]
  exact and_mask_ne_zero _ (Nat.mod_lt _ (by omega))

theorem isset_update_or (b : Bitmap) (ix : ℕ) {offset : ℕ} (ho : offset < 8) (j : ℕ) :
    isset { b with v := update b.v ix (b.v ix ||| mask offset) } j = (b.isset j || decide (j = ix * 8 + offset)) := by
  rw [isset_eq_testBit, isset_eq_testBit]
  by_cases h : j / 8 = ix
  · have hiff : j % 8 = offset ↔ j = ix * 8 + offset := by omega
    simp only [h, update_self, testBit_or_mask _ ho, hiff]
  · have hne : j ≠ ix * 8 + offset := by omega
    simp [update_of_ne h, hne]

theorem isset_update_and (b : Bitmap) (i j : ℕ) :
    isset { b with v := update b.v (i / 8) (b.v (i / 8) &&& ~~~mask (i % 8)) } j = (b.isset j && decide (j ≠ i)) := by
  rw [isset_eq_testBit, isset_eq_testBit]
  by_cases h : j / 8 = i / 8
  · have hiff : j % 8 ≠ i % 8 ↔ j ≠ i := by omega
    rw [h]
    simp only [update_self, testBit_and_not_mask _ (Nat.mod_lt i (by omega)) (Nat.mod_lt j (by omega)), hiff]
  · have hne : j ≠ i := by rintro rfl; exact h rfl
    simp [update_of_ne h, hne]

/-- the bits tell the words -/
theorem v_eq_of_isset (h : ∀ j, b'.isset j = b.isset j) : b'.v = b.v := by
  funext ix
  rw [← UInt8.toNat_inj]
  refine Nat.eq_of_testBit_eq fun j => ?_
  by_cases hj : j < 8
  · have hbit := h (ix * 8 + j)
    rw [isset_eq_testBit, isset_eq_testBit] at hbit
    have h1 : (ix * 8 + j) / 8 = ix := by omega
    have h2 : (ix * 8 + j) % 8 = j := by omega
    rwa [h1, h2] at hbit
  · have hpow : 2 ^ 8 ≤ 2 ^ j := Nat.pow_le_pow_right (by omega) (by omega)
    rw [Nat.testBit_lt_two_pow (lt_of_lt_of_le (UInt8.toNat_lt _) hpow),
      Nat.testBit_lt_two_pow (lt_of_lt_of_le (UInt8.toNat_lt _) hpow)]

/-! ## Allocation -/

theorem scan_eq_some {v : ℕ → UInt8} {n ix r : ℕ} (h : scan v n ix = some r) :
    ix ≤ r ∧ r < ix + n ∧ v r ≠ 0xff ∧ ∀ k, ix ≤ k → k < r → v k = 0xff := by
  induction n generalizing ix with
  | zero => simp [scan] at h
  | succ n ih =>
    rw [scan] at h
    split_ifs at h with hv
    · cases h
      exact ⟨le_refl _, by omega, hv, fun k h1 h2 => by omega⟩
    · obtain ⟨h1, h2, h3, h4⟩ := ih h
      refine ⟨by omega, by omega, h3, fun k hk hkr => ?_⟩
      by_cases hk' : k = ix
      · subst hk'
        exact not_not.1 hv
      · exact h4 k (by omega) hkr

theorem scan_eq_none {v : ℕ → UInt8} {n ix : ℕ} (h : scan v n ix = none) (k : ℕ) (h1 : ix ≤ k) (h2 : k < ix + n) :
    v k = 0xff := by
  induction n generalizing ix with
  | zero => omega
  | succ n ih =>
    rw [scan] at h
    split_ifs at h with hv
    by_cases hk : k = ix
    · subst hk
      exact not_not.1 hv
    · exact ih h (by omega) (by omega)

theorem isset_of_allbits (h : b.v (i / 8) = 0xff) : b.isset i = true := by
  rw [isset_eq_testBit]
  exact (eq_allbits_iff _).1 h _ (Nat.mod_lt _ (by omega))

/-- the index `bitmap_alloc` gives out is the smallest clear one, and it is set afterwards -/
theorem alloc_eq_some (h : b.alloc = .ok (some (i, b'))) :
    i < b.nbits ∧ b.isset i = false ∧ (∀ k < i, b.isset k = true) ∧ b'.nbits = b.nbits ∧
      ∀ j, b'.isset j = (b.isset j || decide (j = i)) := by
  unfold alloc at h
  split at h
  · cases h
  · rename_i ix hscan
    obtain ⟨-, -, hix, hbefore⟩ := scan_eq_some hscan
    split at h
    · cases h
    · rename_i offset hfind
      obtain ⟨hoff, hlt, hfirst⟩ := List.find?_range_eq_some.1 hfind
      dsimp only at h
      split_ifs at h with hlim
      cases h
      have ho : offset < 8 := by simpa using hlt
      have hdiv : (ix * 8 + offset) / 8 = ix := by omega
      have hmod : (ix * 8 + offset) % 8 = offset := by omega
      refine ⟨hlim, ?_, fun k hk => ?_, rfl, isset_update_or b ix ho⟩
      · simpa [isset, hdiv, hmod] using hoff
      · by_cases hword : k / 8 = ix
        · have hclear := hfirst (k % 8) (by omega)
          rw [isset, hword]
          simpa using hclear
        · exact isset_of_allbits (hbefore _ (by omega) (by omega))

/-- the other words stay -/
theorem alloc_word (h : b.alloc = .ok (some (i, b'))) {w : ℕ} (hw : w ≠ i / 8) : b'.v w = b.v w := by
  unfold alloc at h
  split at h
  · cases h
  · rename_i ix hscan
    split at h
    · cases h
    · rename_i offset hfind
      have ho : offset < 8 := by simpa using (List.find?_range_eq_some.1 hfind).2.1
      dsimp only at h
      split_ifs at h
      cases h
      exact update_of_ne (by omega) ..

theorem alloc_eq_none (h : b.alloc = .ok none) (hi : i < b.nbits) : b.isset i = true := by
  unfold alloc at h
  split at h
  · rename_i hscan
    exact isset_of_allbits (scan_eq_none hscan _ (by omega) (by unfold words; omega))
  · split at h
    · cases h
    · dsimp only at h
      split_ifs at h
      cases h

/-- the bits past the end are set -/
def Padded (b : Bitmap) : Prop := ∀ j, b.nbits ≤ j → j < words b.nbits * 8 → b.isset j = true

/-- with the bits past the end set `bitmap_alloc` trips no assertion -/
theorem alloc_returns_of_padded (hpad : Padded b) : ∃ r, b.alloc = .ok r := by
  unfold alloc
  split
  · exact ⟨_, rfl⟩
  · rename_i ix hscan
    obtain ⟨-, hlt, hne, -⟩ := scan_eq_some hscan
    split
    · rename_i hfind
      refine absurd ((eq_allbits_iff _).2 fun j hj => ?_) hne
      have hset := List.find?_eq_none.1 hfind j (by simpa using hj)
      exact (and_mask_ne_zero _ hj).1 (by simpa using hset)
    · rename_i offset hfind
      obtain ⟨hclear, ho, -⟩ := List.find?_range_eq_some.1 hfind
      rw [List.mem_range] at ho
      have hdiv : (ix * 8 + offset) / 8 = ix := by omega
      have hmod : (ix * 8 + offset) % 8 = offset := by omega
      by_cases hin : ix * 8 + offset < b.nbits
      · exact ⟨_, if_pos hin⟩
      · -- a bit past the end is not clear
        have hset := hpad (ix * 8 + offset) (by omega) (by omega)
        rw [isset, hdiv, hmod, decide_eq_true_eq] at hset
        exact absurd (by simpa using hclear) hset

/-- with whole words there is nothing past the end -/
theorem alloc_returns (hw : 8 ∣ b.nbits) : ∃ r, b.alloc = .ok r :=
  alloc_returns_of_padded fun j h1 h2 => by
    unfold words at h2
    omega

theorem mark_eq_ok (h : b.mark i = .ok b') :
    i < b.nbits ∧ b.isset i = false ∧ b'.nbits = b.nbits ∧ ∀ j, b'.isset j = (b.isset j || decide (j = i)) := by
  unfold mark at h
  split_ifs at h with hi
  cases h
  refine ⟨hi.1, hi.2, rfl, fun j => ?_⟩
  have hindex : i / 8 * 8 + i % 8 = i := by omega
  rw [isset_update_or b (i / 8) (Nat.mod_lt i (by omega)) j, hindex]

theorem mark_returns (h1 : i < b.nbits) (h2 : b.isset i = false) : ∃ b', b.mark i = .ok b' := by
  unfold mark
  rw [if_pos ⟨h1, h2⟩]
  exact ⟨_, rfl⟩

theorem unmark_eq_ok (h : b.unmark i = .ok b') :
    i < b.nbits ∧ b.isset i = true ∧ b'.nbits = b.nbits ∧ ∀ j, b'.isset j = (b.isset j && decide (j ≠ i)) := by
  unfold unmark at h
  split_ifs at h with hi
  cases h
  exact ⟨hi.1, hi.2, rfl, isset_update_and b i⟩

theorem unmark_word (h : b.unmark i = .ok b') {w : ℕ} (hw : w ≠ i / 8) : b'.v w = b.v w := by
  unfold unmark at h
  split_ifs at h
  cases h
  exact update_of_ne hw ..

theorem unmark_returns (h1 : i < b.nbits) (h2 : b.isset i = true) : ∃ b', b.unmark i = .ok b' := by
  unfold unmark
  rw [if_pos ⟨h1, h2⟩]
  exact ⟨_, rfl⟩

/-! ## The set -/

/-- the set indices -/
def bits (b : Bitmap) : Finset ℕ := (Finset.range b.nbits).filter fun i => b.isset i = true

theorem mem_bits : i ∈ b.bits ↔ i < b.nbits ∧ b.isset i = true := by simp [bits]

theorem nrAllocated_eq_card (b : Bitmap) : b.nrAllocated = b.bits.card := by
  simp [nrAllocated, bits, Finset.filter, Finset.range, Multiset.range]

theorem card_bits_le (b : Bitmap) : b.bits.card ≤ b.nbits := by
  have hsub : b.bits ⊆ Finset.range b.nbits := Finset.filter_subset _ _
  simpa using Finset.card_le_card hsub

/-- a bit was set that was clear -/
theorem bits_insert (hn : b'.nbits = b.nbits) (hlt : i < b.nbits) (hclear : b.isset i = false)
    (hset : ∀ j, b'.isset j = (b.isset j || decide (j = i))) : b'.bits = insert i b.bits ∧ i ∉ b.bits := by
  refine ⟨?_, by simp [mem_bits, hclear]⟩
  ext j
  simp only [mem_bits, Finset.mem_insert, hn, hset, Bool.or_eq_true, decide_eq_true_eq]
  constructor
  · rintro ⟨h1, h2 | h2⟩
    · exact Or.inr ⟨h1, h2⟩
    · exact Or.inl h2
  · rintro (rfl | ⟨h1, h2⟩)
    · exact ⟨hlt, Or.inr rfl⟩
    · exact ⟨h1, Or.inl h2⟩

theorem bits_of_alloc (h : b.alloc = .ok (some (i, b'))) : b'.bits = insert i b.bits ∧ i ∉ b.bits := by
  obtain ⟨hlt, hclear, -, hn, hset⟩ := alloc_eq_some h
  exact bits_insert hn hlt hclear hset

theorem bits_of_mark (h : b.mark i = .ok b') : b'.bits = insert i b.bits ∧ i ∉ b.bits := by
  obtain ⟨hlt, hclear, hn, hset⟩ := mark_eq_ok h
  exact bits_insert hn hlt hclear hset

theorem bits_of_unmark (h : b.unmark i = .ok b') : b'.bits = b.bits.erase i ∧ i ∈ b.bits := by
  obtain ⟨hlt, hset, hn, hafter⟩ := unmark_eq_ok h
  refine ⟨?_, mem_bits.2 ⟨hlt, hset⟩⟩
  ext j
  simp only [mem_bits, Finset.mem_erase, hn, hafter, Bool.and_eq_true, decide_eq_true_eq]
  tauto

/-- while fewer bits are set than there are, one can be given out -/
theorem alloc_of_card_lt (hw : 8 ∣ b.nbits) (h : b.bits.card < b.nbits) : ∃ i b', b.alloc = .ok (some (i, b')) := by
  obtain ⟨r, hr⟩ := alloc_returns hw
  cases r with
  | some p => exact ⟨p.1, p.2, hr⟩
  | none =>
    have hall : b.bits = Finset.range b.nbits := by
      ext i
      simp only [mem_bits, Finset.mem_range, and_iff_left_iff_imp]
      exact fun hi => alloc_eq_none hr hi
    rw [hall, Finset.card_range] at h
    omega

/-! ## Any history of calls -/

/-- the bits of the last word of a new bitmap -/
theorem testBit_padding (k : ℕ) (hj : j < 8) : (padding k).toNat.testBit j = decide (k ≤ j) := by
  have hloop : ∀ (l : List ℕ) (w : UInt8), (∀ m ∈ l, m < 8) →
      (l.foldl (fun w j => if k ≤ j then w ||| mask j else w) w).toNat.testBit j =
        (w.toNat.testBit j || decide (j ∈ l ∧ k ≤ j)) := by
    intro l
    induction l with
    | nil => simp
    | cons m l ih =>
      intro w hl
      rw [List.foldl_cons, ih _ fun x hx => hl x (List.mem_cons_of_mem m hx)]
      split_ifs with hk
      · rw [testBit_or_mask w (hl m (List.mem_cons_self ..)), Bool.or_assoc]
        congr 1
        by_cases hjm : j = m
        · subst hjm
          simp [hk]
        · simp [hjm]
      · congr 1
        by_cases hjm : j = m
        · subst hjm
          simp [hk]
        · simp [hjm]
  rw [padding, hloop _ _ fun m hm => List.mem_range.1 hm]
  simp [hj]

/-- `bitmap_create` trips no assertion, and its bitmap has the bits past the end and no others -/
theorem create_returns (n : ℕ) :
    ∃ b, create n = .ok b ∧ b.nbits = n ∧ ∀ j < words n * 8, b.isset j = decide (n ≤ j) := by
  unfold create
  split
  · next hpart =>
    -- the last word is not whole
    have hlast : words n - 1 = n / 8 := by unfold words at hpart ⊢; omega
    have hover : n - n / 8 * 8 = n % 8 := by omega
    have hpos : 0 < n % 8 := by unfold words at hpart; omega
    have hasserts : n / 8 = words n - 1 ∧ 0 < n - (words n - 1) * 8 ∧ n - (words n - 1) * 8 < 8 := by omega
    refine ⟨_, if_pos hasserts, rfl, fun j hj => ?_⟩
    rw [isset_eq_testBit, hlast, hover]
    dsimp only
    by_cases hword : j / 8 = n / 8
    · rw [hword, update_self, testBit_padding _ (Nat.mod_lt j (by omega))]
      exact decide_eq_decide.2 (by omega)
    · have hlow : ¬n ≤ j := by omega
      simp [update_of_ne hword, hlow]
  · next hwhole =>
    refine ⟨_, rfl, rfl, fun j hj => ?_⟩
    have hlow : ¬n ≤ j := by unfold words at hwhole hj; omega
    rw [isset_eq_testBit]
    simp [hlow]

inductive Op where
  | alloc
  | mark (index : ℕ)
  | unmark (index : ℕ)

/-- the bitmap after a call -/
def call (b : Bitmap) : Op → Except Stop Bitmap
  | .alloc => do
    match ← b.alloc with
    | some (_, b) => return b
    | none => return b
  | .mark index => b.mark index
  | .unmark index => b.unmark index

/-- `bitmap_mark` is called for clear bits and `bitmap_unmark` for set ones -/
def allowed (b : Bitmap) : Op → Bool
  | .alloc => true
  | .mark index => decide (index < b.nbits) && !b.isset index
  | .unmark index => decide (index < b.nbits) && b.isset index

/-- a call leaves the number of the bits and the bits past the end -/
theorem call_padded {op : Op} (hpad : Padded b) (h : call b op = .ok b') : b'.nbits = b.nbits ∧ Padded b' := by
  have hgrow : b'.nbits = b.nbits → (∀ j, b.isset j = true → b.nbits ≤ j → b'.isset j = true) →
      b'.nbits = b.nbits ∧ Padded b' := by
    intro hn hkeep
    refine ⟨hn, fun j h1 h2 => ?_⟩
    rw [hn] at h1 h2
    exact hkeep j (hpad j h1 h2) h1
  cases op with
  | alloc =>
    obtain ⟨r, hr, hres⟩ := bind_eq_ok.1 h
    rcases r with _ | ⟨i, b1⟩
    · cases hres
      exact ⟨rfl, hpad⟩
    · cases hres
      obtain ⟨-, -, -, hn, hset⟩ := alloc_eq_some hr
      exact hgrow hn fun j hj _ => by rw [hset, hj, Bool.true_or]
  | mark index =>
    obtain ⟨-, -, hn, hset⟩ := mark_eq_ok h
    exact hgrow hn fun j hj _ => by rw [hset, hj, Bool.true_or]
  | unmark index =>
    obtain ⟨hlt, -, hn, hset⟩ := unmark_eq_ok h
    refine hgrow hn fun j hj hle => ?_
    rw [hset, hj, Bool.true_and, decide_eq_true_eq]
    omega

/-- what the calls do to the set of the indices below `nbits` whose bits are set, and that they return -/
structure IsSet (nbits : ℕ) (b : Bitmap) : Prop where
  size : b.nbits = nbits
  mem : ∀ j < nbits, b.isset j = true ↔ j ∈ b.bits
  below : ∀ j ∈ b.bits, j < nbits
  nrAllocated : b.nrAllocated = b.bits.card ∧ (b.nrAllocated : ℤ) < 2 ^ 31
  padding : ∀ j, nbits ≤ j → j < words nbits * 8 → b.isset j = true
  full : b.alloc = .ok none ↔ b.bits = Finset.range nbits
  alloc : b.bits ≠ Finset.range nbits → ∃ i b', b.alloc = .ok (some (i, b')) ∧ i < nbits ∧ i ∉ b.bits ∧
    (∀ j, j ∉ b.bits → i ≤ j) ∧ b'.bits = insert i b.bits
  mark : ∀ i < nbits, i ∉ b.bits → ∃ b', b.mark i = .ok b' ∧ b'.bits = insert i b.bits
  unmark : ∀ i ∈ b.bits, ∃ b', b.unmark i = .ok b' ∧ b'.bits = b.bits.erase i

theorem Padded.isSet (hpad : Padded b) (hsmall : b.nbits < 2 ^ 31) : IsSet b.nbits b where
  size := rfl
  mem := fun j hj => by rw [mem_bits, and_iff_right hj]
  below := fun j hj => (mem_bits.1 hj).1
  nrAllocated := by
    have hle := card_bits_le b
    rw [nrAllocated_eq_card]
    exact ⟨rfl, by omega⟩
  padding := hpad
  full := by
    constructor
    · intro h
      ext i
      rw [mem_bits, Finset.mem_range, and_iff_left_iff_imp]
      exact alloc_eq_none h
    · intro h
      obtain ⟨r, hr⟩ := alloc_returns_of_padded hpad
      rcases r with _ | ⟨i, b'⟩
      · exact hr
      · obtain ⟨hlt, -⟩ := alloc_eq_some hr
        exact absurd (h ▸ Finset.mem_range.2 hlt) (bits_of_alloc hr).2
  alloc := fun hne => by
    obtain ⟨r, hr⟩ := alloc_returns_of_padded hpad
    rcases r with _ | ⟨i, b'⟩
    · refine absurd ?_ hne
      ext i
      rw [mem_bits, Finset.mem_range, and_iff_left_iff_imp]
      exact alloc_eq_none hr
    · obtain ⟨hlt, -, hbefore, -⟩ := alloc_eq_some hr
      obtain ⟨hbits, hfree⟩ := bits_of_alloc hr
      refine ⟨i, b', hr, hlt, hfree, fun j hj => ?_, hbits⟩
      by_contra hji
      exact hj (mem_bits.2 ⟨by omega, hbefore j (by omega)⟩)
  mark := fun i hi hfree => by
    have hclear : b.isset i = false := by
      rw [mem_bits, and_iff_right hi] at hfree
      exact Bool.eq_false_iff.2 hfree
    obtain ⟨b', hb'⟩ := mark_returns hi hclear
    exact ⟨b', hb', (bits_of_mark hb').1⟩
  unmark := fun i hi => by
    obtain ⟨hlt, hset⟩ := mem_bits.1 hi
    obtain ⟨b', hb'⟩ := unmark_returns hlt hset
    exact ⟨b', hb', (bits_of_unmark hb').1⟩

/-- **The bitmap is a set of indices**, empty at first, after every history of calls. -/
theorem bitmap_is_set {nbits : ℕ} (hn : nbits < 2 ^ 31) :
    ∃ b0, create nbits = .ok b0 ∧ b0.bits = ∅ ∧ ∀ b, Run call allowed b0 b →
      IsSet nbits b ∧ ∀ op, allowed b op = true → ∃ b', call b op = .ok b' := by
  obtain ⟨b0, hcreate, hsize, hbits⟩ := create_returns nbits
  have hpad0 : Padded b0 := fun j h1 h2 => by
    rw [hsize] at h1 h2
    rw [hbits j h2]
    exact decide_eq_true h1
  have hempty : b0.bits = ∅ := by
    refine Finset.eq_empty_of_forall_notMem fun j hj => ?_
    obtain ⟨hlt, hset⟩ := mem_bits.1 hj
    rw [hsize] at hlt
    rw [hbits j (by unfold words; omega), decide_eq_true_eq] at hset
    omega
  refine ⟨b0, hcreate, hempty, fun b hrun => ?_⟩
  have hinv : b.nbits = nbits ∧ Padded b := by
    refine hrun.inv (fun b => b.nbits = nbits ∧ Padded b) ?_ ⟨hsize, hpad0⟩
    rintro b op b' ⟨h1, hpad⟩ - hcall
    obtain ⟨h2, hpad'⟩ := call_padded hpad hcall
    exact ⟨h2.trans h1, hpad'⟩
  obtain ⟨rfl, hpad⟩ := hinv
  refine ⟨hpad.isSet hn, fun op hop => ?_⟩
  cases op with
  | alloc =>
    obtain ⟨r, hr⟩ := alloc_returns_of_padded hpad
    rw [call, hr, ok_bind]
    rcases r with _ | ⟨i, b'⟩
    · exact ⟨b, rfl⟩
    · exact ⟨b', rfl⟩
  | mark index =>
    simp only [allowed, Bool.and_eq_true, decide_eq_true_eq, Bool.not_eq_true'] at hop
    exact mark_returns hop.1 hop.2
  | unmark index =>
    simp only [allowed, Bool.and_eq_true, decide_eq_true_eq] at hop
    exact unmark_returns hop.1 hop.2

/-- eleven bits in two words, and a history with every call -/
theorem bitmap_is_set_eleven :
    ∃ b0 b, create 11 = .ok b0 ∧ Run call allowed b0 b ∧ b.nrAllocated = 2 ∧ IsSet 11 b := by
  obtain ⟨b0, hcreate, -, hhistory⟩ := bitmap_is_set (show 11 < 2 ^ 31 by decide)
  have h : (create 11).toOption.any (fun b0 => passes call allowed (fun b => decide (b.nrAllocated = 2)) b0
    [.alloc, .mark 10, .alloc, .unmark 0]) = true := by decide
  rw [hcreate] at h
  obtain ⟨b, hrun, hb⟩ := run_of_passes _ h
  exact ⟨b0, b, hcreate, hrun, of_decide_eq_true hb, (hhistory b hrun).1⟩

end OsLab.Testfs.Bitmap
