/-
Texts cut at delimiters.

- `words p s`: the maximal runs of `s` without a delimiter.
- `token p s`: the next token of `strtok_r` and the text behind its one closing delimiter; it is the first word
  (`words_token`), and with fewer delimiters it splits the words (`words_token_of_le`).
- `afterTokens p n s`: the text behind `n` tokens, which has the words from the `n`-th on (`words_afterTokens`).
-/
import Mathlib.Tactic
import Mathlib.Data.List.TakeWhile

namespace OsLab.Lib

variable {A : Type} {p q : A → Bool} {s t rest : List A}

def words (p : A → Bool) (s : List A) : List (List A) := (s.splitOnP p).filter fun w => !w.isEmpty

def token (p : A → Bool) (s : List A) : Option (List A × List A) :=
  match s.dropWhile p with
  | [] => none
  | c :: s => some (c :: s.takeWhile fun x => !p x, (s.dropWhile fun x => !p x).tail)

def afterTokens (p : A → Bool) : ℕ → List A → List A
  | 0, s => s
  | n + 1, s =>
    match token p s with
    | none => []
    | some (_, rest) => afterTokens p n rest

/-! ## Words -/

@[simp] theorem words_nil (p : A → Bool) : words p [] = [] := rfl

theorem words_run (hs : s ≠ []) (h : ∀ x ∈ s, p x = false) : words p s = [s] := by
  rw [words, List.splitOnP_eq_singleton h]
  simp [hs]

theorem words_append_cons (s rest : List A) {d : A} (hd : p d = true) :
    words p (s ++ d :: rest) = words p s ++ words p rest := by
  rw [words, List.splitOnP_append_cons s rest hd, List.filter_append]
  rfl

theorem words_cons {d : A} (hd : p d = true) (s : List A) : words p (d :: s) = words p s :=
  words_append_cons [] s hd

theorem words_append_of_forall {g : List A} (hg : ∀ x ∈ g, p x = true) (s : List A) : words p (g ++ s) = words p s := by
  induction g with
  | nil => rfl
  | cons d g ih =>
    rw [List.cons_append, words_cons (hg d List.mem_cons_self), ih fun x hx => hg x (List.mem_cons_of_mem d hx)]

theorem splitOnP_mem {w : List A} (hw : w ∈ s.splitOnP p) : ∀ x ∈ w, p x = false := by
  induction s generalizing w with
  | nil =>
    rw [List.splitOnP_nil, List.mem_singleton] at hw
    rw [hw]
    exact fun x hx => absurd hx List.not_mem_nil
  | cons d s ih =>
    rw [List.splitOnP_cons_eq_if_modifyHead] at hw
    split at hw
    · rcases List.mem_cons.1 hw with rfl | hw
      · exact fun x hx => absurd hx List.not_mem_nil
      · exact ih hw
    · next hd =>
      cases hsplit : s.splitOnP p with
      | nil => exact absurd hsplit (List.splitOnP_ne_nil p s)
      | cons first others =>
        rw [hsplit, List.modifyHead_cons] at hw
        rcases List.mem_cons.1 hw with rfl | hw
        · intro x hx
          rcases List.mem_cons.1 hx with rfl | hx
          · simpa using hd
          · exact ih (by rw [hsplit]; exact List.mem_cons_self) x hx
        · exact ih (by rw [hsplit]; exact List.mem_cons_of_mem first hw)

theorem words_mem {w : List A} (hw : w ∈ words p s) : w ≠ [] ∧ ∀ x ∈ w, p x = false := by
  obtain ⟨hmem, hne⟩ := List.mem_filter.1 hw
  exact ⟨by simpa using hne, splitOnP_mem hmem⟩

/-! ## Tokens -/

theorem token_eq_none : token p s = none ↔ ∀ x ∈ s, p x = true := by
  rw [← List.dropWhile_eq_nil_iff, token]
  cases s.dropWhile p <;> simp

/-- delimiters, the token, and the rest behind a delimiter if there is one -/
theorem token_eq_some (h : token p s = some (t, rest)) :
    t ≠ [] ∧ (∀ x ∈ t, p x = false) ∧ ∃ g, (∀ x ∈ g, p x = true) ∧
      (s = g ++ t ∧ rest = [] ∨ ∃ d, p d = true ∧ s = g ++ (t ++ d :: rest)) := by
  rw [token] at h
  cases hdrop : s.dropWhile p with
  | nil => rw [hdrop] at h; cases h
  | cons c s' =>
    rw [hdrop] at h
    obtain ⟨rfl, rfl⟩ := Prod.mk.inj (Option.some.inj h)
    have hc : p c = false := by
      have := List.head?_dropWhile_not p s
      rw [hdrop] at this
      simpa using this
    have hs : s = s.takeWhile p ++ c :: s' := by rw [← hdrop, List.takeWhile_append_dropWhile]
    refine ⟨List.cons_ne_nil _ _, fun x hx => ?_, s.takeWhile p, fun x hx => List.mem_takeWhile_imp hx, ?_⟩
    · rcases List.mem_cons.1 hx with rfl | hx
      · exact hc
      · simpa using List.mem_takeWhile_imp hx
    · have hsplit : s' = (s'.takeWhile fun x => !p x) ++ s'.dropWhile fun x => !p x :=
        List.takeWhile_append_dropWhile.symm
      cases htail : s'.dropWhile fun x => !p x with
      | nil =>
        left
        rw [htail, List.append_nil] at hsplit
        exact ⟨by rw [← hsplit]; exact hs, rfl⟩
      | cons d tail =>
        right
        have hd : p d = true := by
          have := List.head?_dropWhile_not (fun x => !p x) s'
          rw [htail] at this
          simpa using this
        rw [htail] at hsplit
        exact ⟨d, hd, by rw [List.cons_append, List.tail_cons, ← hsplit]; exact hs⟩

/-- a token of a text with fewer delimiters -/
theorem words_token_of_le (hle : ∀ x, q x = true → p x = true) (h : token q s = some (t, rest)) :
    words p s = words p t ++ words p rest := by
  obtain ⟨-, -, g, hg, ⟨rfl, rfl⟩ | ⟨d, hd, rfl⟩⟩ := token_eq_some h
  · rw [words_append_of_forall (fun x hx => hle x (hg x hx)), words_nil, List.append_nil]
  · rw [words_append_of_forall (fun x hx => hle x (hg x hx)), words_append_cons _ _ (hle d hd)]

theorem words_token (h : token p s = some (t, rest)) : words p s = t :: words p rest := by
  obtain ⟨hne, hall, -⟩ := token_eq_some h
  rw [words_token_of_le (fun _ => id) h, words_run hne hall, List.singleton_append]

theorem words_eq_nil : words p s = [] ↔ token p s = none := by
  cases h : token p s with
  | none =>
    have hs := words_append_of_forall (token_eq_none.1 h) []
    rw [List.append_nil, words_nil] at hs
    simp [hs]
  | some r => simp [words_token h]

/-! ## The text behind the tokens -/

theorem words_afterTokens (n : ℕ) (s : List A) : words p (afterTokens p n s) = (words p s).drop n := by
  induction n generalizing s with
  | zero => rfl
  | succ n ih =>
    rw [afterTokens]
    cases h : token p s with
    | none => rw [words_eq_nil.2 h, List.drop_nil]; rfl
    | some r => rw [ih, words_token h, List.drop_succ_cons]

theorem afterTokens_mem {n : ℕ} {x : A} (h : x ∈ afterTokens p n s) : x ∈ s := by
  induction n generalizing s with
  | zero => exact h
  | succ n ih =>
    rw [afterTokens] at h
    cases htoken : token p s with
    | none => rw [htoken] at h; cases h
    | some r =>
      rw [htoken] at h
      have hx := ih h
      obtain ⟨-, -, g, -, ⟨rfl, hrest⟩ | ⟨d, -, rfl⟩⟩ := token_eq_some htoken
      · rw [hrest] at hx; cases hx
      · simp [hx]

/-- a text without delimiters is a token -/
theorem token_run (hs : s ≠ []) (h : ∀ x ∈ s, p x = false) : token p s = some (s, []) := by
  obtain ⟨c, s', rfl⟩ := List.exists_cons_of_ne_nil hs
  have hc := h c List.mem_cons_self
  have hs' : ∀ x ∈ s', (!p x) = true := fun x hx => by rw [h x (List.mem_cons_of_mem c hx)]; rfl
  rw [token, List.dropWhile_cons_of_neg (by rw [hc]; exact Bool.false_ne_true)]
  dsimp only
  rw [List.takeWhile_eq_self_iff.2 hs', List.dropWhile_eq_nil_iff.2 hs']
  rfl

end OsLab.Lib
