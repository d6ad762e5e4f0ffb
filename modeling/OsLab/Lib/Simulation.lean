/-
Forward simulation of a program whose calls return something.

`Calls exec good s l t`: the calls of `l`, with what they returned, lead from `s` to `t`, and each met the test `good`.
`History Does a l b`: the same list is a history of a specification, a relation that says which answers a call may have
and what it may do. If each call does what the specification says (`Simulates`), every list of calls is such a history
(`Simulates.history`). `replays` is the check of a list of calls on a concrete program.

`Returns x`: the call does not stop the process. Its rules follow the program text, as those of `Post` do.
-/
import OsLab.Lib.Run

namespace OsLab.Lib

variable {S O R E A : Type} {exec : S → O → Except E (R × S)} {good : S → O → Bool} {Does : A → O → R → A → Prop}
  {Abs : S → A → Prop} {s t u : S} {a b : A} {o : O} {r : R} {l l' : List (O × R)}

/-! ## Calls that return -/

/-- there is a result -/
def Returns {B : Type} (x : Except E B) : Prop := ∃ b, x = .ok b

theorem Returns.ok {B : Type} (b : B) : Returns (.ok b : Except E B) := ⟨b, rfl⟩

theorem Returns.bind {B C : Type} {x : Except E B} {f : B → Except E C} (hx : Returns x)
    (hf : ∀ b, x = .ok b → Returns (f b)) : Returns (x >>= f) := by
  obtain ⟨b, hb⟩ := hx
  rw [hb]
  exact hf b hb

theorem Returns.ite {B : Type} {c : Prop} [Decidable c] {x y : Except E B} (hx : c → Returns x) (hy : ¬c → Returns y) :
    Returns (if c then x else y) := by
  split_ifs with h
  · exact hx h
  · exact hy h

/-- two branches that go on in the same way -/
theorem Returns.ite_bind {B C : Type} {c : Prop} [Decidable c] {x y : Except E B}
    {f : B → Except E C} (hx : c → Returns x) (hy : ¬c → Returns y)
    (hf : ∀ b, (c ∧ x = .ok b) ∨ (¬c ∧ y = .ok b) → Returns (f b)) :
    Returns (if c then x >>= f else y >>= f) :=
  Returns.ite (fun h => (hx h).bind fun b hb => hf b (Or.inl ⟨h, hb⟩)) fun h =>
    (hy h).bind fun b hb => hf b (Or.inr ⟨h, hb⟩)

/-! ## Lists of calls -/

/-- calls that all return and all meet the test -/
inductive Calls (exec : S → O → Except E (R × S)) (good : S → O → Bool) (s : S) : List (O × R) → S → Prop
  | nil : Calls exec good s [] s
  | snoc {l : List (O × R)} {t u : S} {o : O} {r : R} : Calls exec good s l t → good t o = true →
    exec t o = .ok (r, u) → Calls exec good s (l ++ [(o, r)]) u

/-- what a specification allows -/
inductive History (Does : A → O → R → A → Prop) (a : A) : List (O × R) → A → Prop
  | nil : History Does a [] a
  | snoc {l : List (O × R)} {b c : A} {o : O} {r : R} :
    History Does a l b → Does b o r c → History Does a (l ++ [(o, r)]) c

theorem Calls.trans (h : Calls exec good s l t) (h' : Calls exec good t l' u) : Calls exec good s (l ++ l') u := by
  induction h' with
  | nil =>
    rw [List.append_nil]
    exact h
  | snoc _ hg ho ih =>
    rw [← List.append_assoc]
    exact .snoc ih hg ho

/-- an invariant kept by every good call holds after every list of calls -/
theorem Calls.inv (h : Calls exec good s l t) (I : S → Prop)
    (hstep : ∀ s o r t, I s → good s o = true → exec s o = .ok (r, t) → I t) (hs : I s) : I t := by
  induction h with
  | nil => exact hs
  | snoc _ hg ho ih => exact hstep _ _ _ _ ih hg ho

/-- calls under a stronger test are calls under a weaker one -/
theorem Calls.mono {good' : S → O → Bool} (h : Calls exec good s l t)
    (hgood : ∀ s o, good s o = true → good' s o = true) :
    Calls exec good' s l t := by
  induction h with
  | nil => exact .nil
  | snoc _ hg ho ih => exact .snoc ih (hgood _ _ hg) ho

theorem history_concat_iff {c : A} : History Does a (l ++ [(o, r)]) c ↔ ∃ b, History Does a l b ∧ Does b o r c := by
  constructor
  · intro h
    generalize hm : l ++ [(o, r)] = m at h
    cases h with
    | nil => simp at hm
    | snoc h hdoes =>
      obtain ⟨rfl, hx⟩ := List.append_inj' hm rfl
      cases hx
      exact ⟨_, h, hdoes⟩
  · rintro ⟨b, h, hdoes⟩
    exact .snoc h hdoes

/-- a history in two parts -/
theorem History.split {c : A} (h : History Does a (l ++ l') c) : ∃ b, History Does a l b ∧ History Does b l' c := by
  induction l' using List.reverseRecOn generalizing c with
  | nil => exact ⟨c, by simpa using h, .nil⟩
  | append_singleton l' x ih =>
    rw [← List.append_assoc] at h
    obtain ⟨b, h, hdoes⟩ := history_concat_iff.1 h
    obtain ⟨d, h1, h2⟩ := ih h
    exact ⟨d, h1, .snoc h2 hdoes⟩

/-- each call does what the specification says -/
def Simulates (exec : S → O → Except E (R × S)) (good : S → O → Bool) (Abs : S → A → Prop)
    (Does : A → O → R → A → Prop) :
    Prop :=
  ∀ s a o r t, Abs s a → good s o = true → exec s o = .ok (r, t) → ∃ b, Does a o r b ∧ Abs t b

/-- **A list of calls is a history of the specification.** -/
theorem Simulates.history (h : Simulates exec good Abs Does) (hs : Abs s a) (hcalls : Calls exec good s l t) :
    ∃ b, History Does a l b ∧ Abs t b := by
  induction hcalls with
  | nil => exact ⟨a, .nil, hs⟩
  | snoc _ hg ho ih =>
    obtain ⟨b, hb, habs⟩ := ih
    obtain ⟨c, hc, habs'⟩ := h _ _ _ _ _ habs hg ho
    exact ⟨c, .snoc hb hc, habs'⟩

/-- the calls `os` all return and meet the test, and `check` holds of what they returned and of the state behind them -/
def replays (exec : S → O → Except E (R × S)) (good : S → O → Bool) (check : List R → S → Bool) :
    List R → S → List O → Bool
  | rs, s, [] => check rs s
  | rs, s, o :: os => good s o && match exec s o with
    | .error _ => false
    | .ok (r, t) => replays exec good check (rs ++ [r]) t os

theorem calls_of_replays {check : List R → S → Bool} {rs : List R} {os : List O}
    (h : replays exec good check rs s os = true) :
    ∃ l t, Calls exec good s l t ∧ l.map Prod.fst = os ∧ check (rs ++ l.map Prod.snd) t = true := by
  induction os generalizing rs s with
  | nil => exact ⟨[], s, .nil, rfl, by simpa [replays] using h⟩
  | cons o os ih =>
    rw [replays, Bool.and_eq_true] at h
    obtain ⟨hg, h⟩ := h
    cases ho : exec s o with
    | error e =>
      rw [ho] at h
      cases h
    | ok x =>
      obtain ⟨r, t⟩ := x
      rw [ho] at h
      obtain ⟨l, u, hcalls, rfl, hcheck⟩ := ih h
      refine ⟨(o, r) :: l, u, (Calls.snoc .nil hg ho).trans hcalls, rfl, ?_⟩
      simpa using hcheck

end OsLab.Lib
