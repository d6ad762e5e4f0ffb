/-
Texts of bytes: decimal numbers, `sscanf`, and lines.

- `scanInt_printU`, `scanInt_printD`: what `%u` and `%d` print is read back as the same number.
- `sscanf`: a format is a list of directives; the result is the list of the numbers assigned.
- `cutLine`: the first line of a text, at most `n` bytes of it; `cutLine_line` and `cutLine_append_rest`. `cutLines`:
  all of them (`cutLines_flatten`).
- `byteSum`: the sum of the bytes modulo 2^32.
-/
import Mathlib.Tactic
import Mathlib.Data.List.DropRight

namespace OsLab.Lib

/-- the bytes of an ASCII text -/
def str (s : String) : List UInt8 := s.toList.map fun c => UInt8.ofNat c.toNat

/-! ## Decimal numbers -/

def isDigit (c : UInt8) : Bool := 48 ≤ c ∧ c ≤ 57

/-- blanks, as `isspace` in the C locale -/
def isSpace (c : UInt8) : Bool := c = 32 ∨ (9 ≤ c ∧ c ≤ 13)

/-- `%u` -/
def printU (n : ℕ) : List UInt8 :=
  if n = 0 then [48] else (Nat.digits 10 n).reverse.map fun d => UInt8.ofNat (48 + d)

/-- `%d` -/
def printD (z : ℤ) : List UInt8 := if z < 0 then 45 :: printU z.natAbs else printU z.natAbs

/-- the number a string of digits denotes -/
def value (digits : List UInt8) : ℕ := digits.foldl (fun v c => 10 * v + (c.toNat - 48)) 0

/-- a number with an optional sign after blanks, and the rest of the text -/
def scanInt (text : List UInt8) : Option (ℤ × List UInt8) :=
  let text := text.dropWhile isSpace
  let negative := text.head? = some 45
  let text := if text.head? = some 45 ∨ text.head? = some 43 then text.tail else text
  let digits := text.takeWhile isDigit
  if digits = [] then none
  else some (if negative then -(value digits : ℤ) else value digits, text.dropWhile isDigit)

theorem toNat_digit {d : ℕ} (h : d < 10) : (UInt8.ofNat (48 + d)).toNat = 48 + d := by
  rw [UInt8.toNat_ofNat']
  omega

theorem isDigit_iff {c : UInt8} : isDigit c = true ↔ 48 ≤ c.toNat ∧ c.toNat ≤ 57 := by
  simp [isDigit, UInt8.le_iff_toNat_le]

theorem isDigit_of_mem_printU {n : ℕ} {c : UInt8} (h : c ∈ printU n) : isDigit c = true := by
  unfold printU at h
  split at h
  · rw [List.mem_singleton.1 h]; rfl
  · obtain ⟨d, hd, rfl⟩ := List.mem_map.1 h
    have hlt : d < 10 := Nat.digits_lt_base (by decide) (List.mem_reverse.1 hd)
    rw [isDigit_iff, toNat_digit hlt]
    omega

theorem printU_ne_nil (n : ℕ) : printU n ≠ [] := by
  unfold printU
  split
  · simp
  · next hn => simp [Nat.digits_ne_nil_iff_ne_zero.2 hn]

/-- the bytes of a number are neither 0 nor a newline -/
theorem printD_bytes {z : ℤ} {c : UInt8} (h : c ∈ printD z) : c ≠ 0 ∧ c ≠ 10 := by
  have hdigit : isDigit c = true → c ≠ 0 ∧ c ≠ 10 := fun hc => by
    have := isDigit_iff.1 hc
    constructor
    · rintro rfl
      simp at this
    · rintro rfl
      simp at this
  unfold printD at h
  split at h
  · rcases List.mem_cons.1 h with rfl | hmem
    · decide
    · exact hdigit (isDigit_of_mem_printU hmem)
  · exact hdigit (isDigit_of_mem_printU h)

theorem printU_eq_printD (n : ℕ) : printU n = printD n := by simp [printD]

theorem printU_length {n k : ℕ} (hk : 0 < k) (h : n < 10 ^ k) : (printU n).length ≤ k := by
  unfold printU
  split
  · exact hk
  · rw [List.length_map, List.length_reverse]
    exact (Nat.digits_length_le_iff (by decide) n).2 h

theorem value_printU (n : ℕ) : value (printU n) = n := by
  unfold printU
  split
  · next hn => rw [hn]; rfl
  · have hdigits : ∀ d ∈ Nat.digits 10 n, (UInt8.ofNat (48 + d)).toNat - 48 = d := fun d hd => by
      rw [toNat_digit (Nat.digits_lt_base (by decide) hd)]
      omega
    have hfold : ∀ l : List ℕ, (∀ d ∈ l, (UInt8.ofNat (48 + d)).toNat - 48 = d) →
        value (l.reverse.map fun d => UInt8.ofNat (48 + d)) = Nat.ofDigits 10 l := by
      intro l hl
      induction l with
      | nil => rfl
      | cons d l ih =>
        have ih := ih fun e he => hl e (List.mem_cons_of_mem _ he)
        rw [List.reverse_cons, List.map_append, value, List.foldl_append]
        rw [value] at ih
        rw [ih, Nat.ofDigits_cons]
        simp only [List.map_cons, List.map_nil, List.foldl_cons, List.foldl_nil, hl d List.mem_cons_self]
        omega
    rw [hfold _ hdigits, Nat.ofDigits_digits]

theorem head?_append_of_mem {A : Type} {l : List A} (rest : List A) (h : l ≠ []) :
    ∃ c ∈ l, (l ++ rest).head? = some c := by
  cases l with
  | nil => exact absurd rfl h
  | cons c l => exact ⟨c, List.mem_cons_self, rfl⟩

theorem isSpace_of_isDigit {c : UInt8} (h : isDigit c = true) : isSpace c = false ∧ c ≠ 45 ∧ c ≠ 43 := by
  have hc := isDigit_iff.1 h
  refine ⟨?_, ?_, ?_⟩
  · simp only [isSpace, decide_eq_false_iff_not, not_or, not_and, UInt8.le_iff_toNat_le]
    constructor
    · rintro rfl
      simp at hc
    · intro _
      have : (13 : UInt8).toNat = 13 := rfl
      omega
  · rintro rfl
    simp at hc
  · rintro rfl
    simp at hc

theorem takeWhile_digits {n : ℕ} {rest : List UInt8} (h : ∀ c, rest.head? = some c → isDigit c = false) :
    (printU n ++ rest).takeWhile isDigit = printU n ∧ (printU n ++ rest).dropWhile isDigit = rest := by
  have hall : ∀ c ∈ printU n, isDigit c = true := fun c hc => isDigit_of_mem_printU hc
  have hrest : rest.takeWhile isDigit = [] ∧ rest.dropWhile isDigit = rest := by
    cases rest with
    | nil => exact ⟨rfl, rfl⟩
    | cons c rest => simp [h c rfl]
  rw [List.takeWhile_append_of_pos hall, List.dropWhile_append_of_pos hall, hrest.1, hrest.2]
  simp

theorem dropWhile_isSpace {c : UInt8} {text : List UInt8} (hc : isSpace c = false) (h : text.head? = some c) :
    text.dropWhile isSpace = text := by
  cases text with
  | nil => rfl
  | cons x text =>
    simp only [List.head?_cons, Option.some.injEq] at h
    rw [h]
    simp [hc]

/-- **`%u` is read back**, up to the first byte that is not a digit. -/
theorem scanInt_printU {n : ℕ} {rest : List UInt8} (h : ∀ c, rest.head? = some c → isDigit c = false) :
    scanInt (printU n ++ rest) = some ((n : ℤ), rest) := by
  obtain ⟨c, hc, hhead⟩ := head?_append_of_mem rest (printU_ne_nil n)
  obtain ⟨hspace, hminus, hplus⟩ := isSpace_of_isDigit (isDigit_of_mem_printU hc)
  obtain ⟨htake, hleft⟩ := takeWhile_digits (n := n) h
  simp only [scanInt, dropWhile_isSpace hspace hhead, hhead, Option.some.injEq, hminus, hplus, or_self, if_false, htake,
    hleft, printU_ne_nil, value_printU]

/-- **`%d` is read back**, up to the first byte that is not a digit. -/
theorem scanInt_printD {z : ℤ} {rest : List UInt8} (h : ∀ c, rest.head? = some c → isDigit c = false) :
    scanInt (printD z ++ rest) = some (z, rest) := by
  unfold printD
  split
  · next hneg =>
    obtain ⟨htake, hleft⟩ := takeWhile_digits (n := z.natAbs) h
    have hspace : isSpace 45 = false := rfl
    have hvalue : -(z.natAbs : ℤ) = z := by omega
    simp only [scanInt, List.cons_append, List.dropWhile_cons, hspace, List.head?_cons, true_or,
      if_true, List.tail_cons, htake, hleft, printU_ne_nil, value_printU, Bool.false_eq_true, if_false, hvalue]
  · next hpos =>
    rw [scanInt_printU h, Int.natAbs_of_nonneg (not_lt.1 hpos)]

/-! ## `sscanf` -/

inductive Directive where
  /-- any number of blanks -/
  | blank
  | literal (c : UInt8)
  /-- `%d`, `%u` -/
  | number
deriving DecidableEq, Repr

/-- the directives of a format -/
def directives : List UInt8 → List Directive
  | 37 :: 100 :: format => .number :: directives format
  | 37 :: 117 :: format => .number :: directives format
  | c :: format => (if isSpace c then .blank else .literal c) :: directives format
  | [] => []

/-- the numbers assigned before a directive fails -/
def scan : List Directive → List UInt8 → List ℤ
  | [], _ => []
  | .blank :: format, text => scan format (text.dropWhile isSpace)
  | .literal c :: format, text => if text.head? = some c then scan format text.tail else []
  | .number :: format, text =>
    match scanInt text with
    | some (v, text) => v :: scan format text
    | none => []

/-- the literals a text starts with -/
theorem scan_literals (lits : List UInt8) (format : List Directive) (text : List UInt8) :
    scan (lits.map .literal ++ format) (lits ++ text) = scan format text := by
  induction lits with
  | nil => rfl
  | cons c lits ih => simpa [scan] using ih

theorem scan_mismatch {c d : UInt8} (h : d ≠ c) (format : List Directive) (text : List UInt8) :
    scan (.literal c :: format) (d :: text) = [] := by
  simp [scan, h]

/-- blanks and a number, as `printf` has printed it, up to something that is not a digit -/
theorem scan_printD {z : ℤ} {rest : List UInt8} (h : ∀ c, rest.head? = some c → isDigit c = false) :
    scan [.blank, .number, .blank] (32 :: (printD z ++ rest)) = [z] := by
  have hdrop : scanInt ((32 :: (printD z ++ rest)).dropWhile isSpace) = some (z, rest) := by
    have hskip : scanInt ((32 :: (printD z ++ rest)).dropWhile isSpace) = scanInt (printD z ++ rest) := by
      have hblank : isSpace 32 = true := rfl
      have htwice : ∀ text : List UInt8, (text.dropWhile isSpace).dropWhile isSpace = text.dropWhile isSpace :=
        fun text => List.dropWhile_idempotent isSpace text
      rw [List.dropWhile_cons, if_pos hblank]
      simp only [scanInt, htwice]
    rw [hskip, scanInt_printD h]
  simp only [scan, hdrop]

def sscanf (text : List UInt8) (format : String) : List ℤ := scan (directives (str format)) text

/-! ## Lines -/

/-- the first line of a text with its newline, or its first `n` bytes -/
def cutLine : ℕ → List UInt8 → List UInt8
  | 0, _ => []
  | _ + 1, [] => []
  | n + 1, c :: text => if c = 10 then [c] else c :: cutLine n text

theorem cutLine_line {n : ℕ} {line rest : List UInt8} (hline : 10 ∉ line) (hlen : line.length < n) :
    cutLine n (line ++ 10 :: rest) = line ++ [10] := by
  induction line generalizing n with
  | nil =>
    obtain ⟨n, rfl⟩ : ∃ m, n = m + 1 := ⟨n - 1, by simp at hlen; omega⟩
    simp [cutLine]
  | cons c line ih =>
    obtain ⟨n, rfl⟩ : ∃ m, n = m + 1 := ⟨n - 1, by simp at hlen; omega⟩
    have hc : c ≠ 10 := fun hc => hline (by rw [hc]; exact List.mem_cons_self)
    have hlen' : line.length < n := by simpa using hlen
    simp [cutLine, hc, ih (fun hmem => hline (List.mem_cons_of_mem _ hmem)) hlen']

/-- a text is its first line and the rest -/
theorem cutLine_append_rest (n : ℕ) (text : List UInt8) :
    cutLine n text ++ text.drop (cutLine n text).length = text := by
  induction n generalizing text with
  | zero => simp [cutLine]
  | succ n ih =>
    cases text with
    | nil => simp [cutLine]
    | cons c text =>
      simp only [cutLine]
      split
      · simp
      · simp [ih text]

theorem cutLine_ne_nil {n : ℕ} {text : List UInt8} (hn : 0 < n) (h : text ≠ []) : cutLine n text ≠ [] := by
  obtain ⟨n, rfl⟩ : ∃ m, n = m + 1 := ⟨n - 1, by omega⟩
  cases text with
  | nil => exact absurd rfl h
  | cons c text =>
    simp only [cutLine]
    split <;> simp

theorem cutLine_length_le (n : ℕ) (text : List UInt8) : (cutLine n text).length ≤ n := by
  induction n generalizing text with
  | zero => exact le_refl 0
  | succ n ih =>
    cases text with
    | nil => exact Nat.zero_le _
    | cons c text =>
      rw [cutLine]
      split
      · simp
      · exact Nat.succ_le_succ (ih text)

theorem cutLine_of_not_mem {n : ℕ} {text : List UInt8} (h : 10 ∉ text) : cutLine n text = text.take n := by
  induction n generalizing text with
  | zero => rfl
  | succ n ih =>
    cases text with
    | nil => rfl
    | cons c text =>
      obtain ⟨hc, htext⟩ : (10 : UInt8) ≠ c ∧ 10 ∉ text := by simpa using h
      rw [cutLine, if_neg hc.symm, ih htext, List.take_succ_cons]

/-- a first line is short when the text ends or has a newline early -/
theorem cutLine_length_lt_iff {n k : ℕ} {text : List UInt8} (hk : 0 < k) (hn : k ≤ n) :
    (cutLine n text).length < k ↔ text.length < k ∨ 10 ∈ text.take (k - 1) := by
  induction n generalizing k text with
  | zero => omega
  | succ n ih =>
    obtain ⟨k, rfl⟩ : ∃ j, k = j + 1 := ⟨k - 1, by omega⟩
    cases text with
    | nil => simp [cutLine]
    | cons c text =>
      rw [cutLine, Nat.add_sub_cancel]
      cases k with
      | zero =>
        simp only [List.take_zero, List.not_mem_nil, or_false, List.length_cons]
        split <;> simp
      | succ k =>
        by_cases hc : c = 10
        · simp [hc]
        · have hne : (10 : UInt8) ≠ c := Ne.symm hc
          have hrest := @ih (k + 1) text (Nat.succ_pos k) (by omega)
          simpa [hc, hne] using hrest

/-- the lines of a text, at most `n` bytes each; `turns` bounds their number -/
def cutTurns (n : ℕ) : ℕ → List UInt8 → List (List UInt8)
  | 0, _ => []
  | turns + 1, text =>
    if text = [] then [] else cutLine n text :: cutTurns n turns (text.drop (cutLine n text).length)

/-- a text cut after each newline or after `n` bytes, whichever comes first -/
def cutLines (n : ℕ) (text : List UInt8) : List (List UInt8) := cutTurns n text.length text

theorem cutTurns_eq {n : ℕ} (hn : 0 < n) {turns : ℕ} {text : List UInt8} (h : text.length ≤ turns) :
    cutTurns n turns text = cutLines n text := by
  induction turns using Nat.strong_induction_on generalizing text with
  | _ turns ih =>
    cases text with
    | nil => cases turns <;> rfl
    | cons c text =>
      cases turns with
      | zero => cases h
      | succ turns =>
        have hcut : 0 < (cutLine n (c :: text)).length :=
          List.length_pos_of_ne_nil (cutLine_ne_nil hn (List.cons_ne_nil c text))
        have hlen : ((c :: text).drop (cutLine n (c :: text)).length).length ≤ text.length := by
          rw [List.length_drop, List.length_cons]
          omega
        rw [List.length_cons] at h
        simp only [cutLines, List.length_cons, cutTurns, if_neg (List.cons_ne_nil c text)]
        rw [ih turns (Nat.lt_succ_self turns) (by omega), ih text.length (by omega) hlen]

@[simp] theorem cutLines_nil (n : ℕ) : cutLines n [] = [] := rfl

theorem cutLines_of_ne_nil {n : ℕ} (hn : 0 < n) {text : List UInt8} (h : text ≠ []) :
    cutLines n text = cutLine n text :: cutLines n (text.drop (cutLine n text).length) := by
  cases text with
  | nil => exact absurd rfl h
  | cons c text =>
    have hcut : 0 < (cutLine n (c :: text)).length := List.length_pos_of_ne_nil (cutLine_ne_nil hn h)
    rw [cutLines, List.length_cons, cutTurns, if_neg h, cutTurns_eq hn]
    rw [List.length_drop, List.length_cons]
    omega

/-- nothing is lost, repeated or reordered -/
theorem cutLines_flatten {n : ℕ} (hn : 0 < n) (text : List UInt8) : (cutLines n text).flatten = text := by
  induction hlen : text.length using Nat.strong_induction_on generalizing text with
  | _ k ih =>
    by_cases h : text = []
    · rw [h]; rfl
    · have hcut := List.length_pos_of_ne_nil (cutLine_ne_nil hn h)
      have hpos := List.length_pos_of_ne_nil h
      rw [cutLines_of_ne_nil hn h, List.flatten_cons,
        ih _ (by rw [List.length_drop, ← hlen]; omega) _ rfl, cutLine_append_rest]

/-! ## Sums -/

/-- the sum of the bytes modulo 2^32, on top of `csum` -/
def byteSum (csum : UInt32) (bytes : List UInt8) : UInt32 := bytes.foldl (fun csum c => csum + c.toUInt32) csum

theorem byteSum_append (csum : UInt32) (a b : List UInt8) : byteSum csum (a ++ b) = byteSum (byteSum csum a) b :=
  List.foldl_append

theorem byteSum_toNat (csum : UInt32) (bytes : List UInt8) :
    (byteSum csum bytes).toNat = (csum.toNat + (bytes.map UInt8.toNat).sum) % 4294967296 := by
  induction bytes generalizing csum with
  | nil =>
    have := csum.toNat_lt
    simp [byteSum, Nat.mod_eq_of_lt this]
  | cons c bytes ih =>
    have hcons : byteSum csum (c :: bytes) = byteSum (csum + c.toUInt32) bytes := rfl
    rw [hcons, ih, UInt32.toNat_add, UInt8.toNat_toUInt32, List.map_cons, List.sum_cons, Nat.mod_add_mod, Nat.add_assoc]

end OsLab.Lib
