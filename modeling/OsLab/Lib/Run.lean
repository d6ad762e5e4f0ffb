/-
Runs of a partial step function, and the rules the machine models share.

A program whose calls may stop the process is a function into `Except E`: `.error` is the stop (an assertion, an exit,
an undefined access), `.ok` the next state. `Post x Q` says that `x`, if it returns, meets `Q`; its rules follow the
program text. `Run step good` relates two states joined by finitely many steps that all succeed and all meet `good`.
Every invariant of a machine is carried along its runs by `Run.inv`.
-/
import Mathlib.Tactic

namespace OsLab.Lib

/-! ## The error monad -/

theorem bind_eq_ok {E A B : Type} {x : Except E A} {f : A → Except E B} {b : B} :
    (x >>= f) = .ok b ↔ ∃ a, x = .ok a ∧ f a = .ok b := by
  cases x with
  | error e =>
    constructor
    · intro h; cases h
    · rintro ⟨a, h, -⟩; cases h
  | ok a =>
    constructor
    · intro h; exact ⟨a, rfl, h⟩
    · rintro ⟨a', h, h'⟩; cases h; exact h'

@[simp] theorem ok_bind {E A B : Type} (a : A) (f : A → Except E B) : ((.ok a : Except E A) >>= f) = f a := rfl

@[simp] theorem error_bind {E A B : Type} (e : E) (f : A → Except E B) :
    ((.error e : Except E A) >>= f) = .error e := rfl

@[simp] theorem pure_eq_ok {E A : Type} (a : A) : (pure a : Except E A) = .ok a := rfl

/-- two branches that go on in the same way -/
theorem ite_bind_eq_ok {E A B : Type} {c : Prop} [Decidable c] {x y : Except E A} {f : A → Except E B} {b : B}
    (h : (if c then x >>= f else y >>= f) = .ok b) : ∃ a, ((c ∧ x = .ok a) ∨ (¬c ∧ y = .ok a)) ∧ f a = .ok b := by
  split_ifs at h with hc
  · obtain ⟨a, ha, h⟩ := bind_eq_ok.1 h
    exact ⟨a, Or.inl ⟨hc, ha⟩, h⟩
  · obtain ⟨a, ha, h⟩ := bind_eq_ok.1 h
    exact ⟨a, Or.inr ⟨hc, ha⟩, h⟩

/-- if `x` returns, its result meets `Q` -/
def Post {E A : Type} (x : Except E A) (Q : A → Prop) : Prop := ∀ a, x = .ok a → Q a

section

variable {E A B : Type} {x : Except E A} {P Q : A → Prop} {n : ℕ}

theorem Post.bind {f : A → Except E B} {R : B → Prop} (hx : Post x P) (hf : ∀ a, P a → Post (f a) R) :
    Post (x >>= f) R := by
  intro b hb
  rw [bind_eq_ok] at hb
  obtain ⟨a, ha, hb⟩ := hb
  exact hf a (hx a ha) b hb

theorem Post.pure {a : A} (h : Q a) : Post (Pure.pure a : Except E A) Q := by
  intro b hb
  cases hb
  exact h

/-- what is said of the second component of a result -/
theorem Post.pair {b : B} {a : A} (h : Q a) : Post (Pure.pure (b, a) : Except E (B × A)) fun r => Q r.2 := Post.pure h

theorem Post.ok {a : A} (h : Q a) : Post (.ok a : Except E A) Q := Post.pure h

theorem Post.error {e : E} : Post (.error e : Except E A) Q := by
  intro b hb
  cases hb

theorem Post.throw {e : E} : Post (MonadExcept.throw e : Except E A) Q := Post.error

theorem Post.ite {c : Prop} [Decidable c] {y : Except E A} (hx : c → Post x Q) (hy : ¬ c → Post y Q) :
    Post (if c then x else y) Q := by
  split
  · next h => exact hx h
  · next h => exact hy h

/-- two branches that go on in the same way -/
theorem Post.ite_bind {c : Prop} [Decidable c] {y : Except E A} {f : A → Except E B} {R : B → Prop} (hx : c → Post x P)
    (hy : ¬ c → Post y P) (hf : ∀ a, P a → Post (f a) R) : Post (if c then x >>= f else y >>= f) R :=
  Post.ite (fun h => (hx h).bind hf) fun h => (hy h).bind hf

theorem Post.mono (hx : Post x P) (h : ∀ a, P a → Q a) : Post x Q := fun a ha => h a (hx a ha)

/-- nothing is known of the result -/
theorem Post.trivial : Post x fun _ => True := fun _ _ => True.intro

/-- a loop over a list, with an invariant of the state -/
theorem Post.foldlM {f : B → A → Except E B} {I : B → Prop} (l : List A) (b : B) (hb : I b)
    (hf : ∀ b a, I b → Post (f b a) I) : Post (l.foldlM f b) I := by
  induction l generalizing b with
  | nil => exact Post.pure hb
  | cons a l ih =>
    rw [List.foldlM_cons]
    exact (hf b a hb).bind fun b' hb' => ih b' hb'

/-- a loop that returns: each turn does, from a state that meets the invariant for it, and leaves the one for the
next -/
theorem foldlM_finRange {f : B → Fin n → Except E B} {I : ℕ → B → Prop} {b : B} (hb : I 0 b)
    (hf : ∀ (k : Fin n) b, I k b → ∃ b', f b k = .ok b' ∧ I (k + 1) b') :
    ∃ b', (List.finRange n).foldlM f b = .ok b' ∧ I n b' := by
  induction n with
  | zero => exact ⟨b, rfl, hb⟩
  | succ n ih =>
    obtain ⟨b1, hloop, h1⟩ := ih (f := fun b k => f b k.castSucc) fun k b hk => hf k.castSucc b hk
    obtain ⟨b2, hlast, h2⟩ := hf (Fin.last n) b1 h1
    refine ⟨b2, ?_, h2⟩
    rw [List.finRange_succ_last, List.foldlM_append, List.foldlM_map, hloop, ok_bind, List.foldlM_cons, hlast]
    rfl

theorem foldlM_range {f : B → ℕ → Except E B} {I : ℕ → B → Prop} {b : B} (hb : I 0 b)
    (hf : ∀ k < n, ∀ b, I k b → ∃ b', f b k = .ok b' ∧ I (k + 1) b') :
    ∃ b', (List.range n).foldlM f b = .ok b' ∧ I n b' := by
  rw [← List.map_coe_finRange_eq_range, List.foldlM_map]
  exact foldlM_finRange hb fun k b hk => hf k k.isLt b hk

end

/-! ## Runs -/

variable {S O E : Type}

/-- finitely many successful steps, each meeting the test `good` where it is done -/
inductive Run (step : S → O → Except E S) (good : S → O → Bool) : S → S → Prop
  | refl (s : S) : Run step good s s
  | tail {s t u : S} (o : O) : Run step good s t → good t o = true → step t o = .ok u → Run step good s u

variable {step : S → O → Except E S} {good : S → O → Bool}

theorem Run.trans {s t u : S} (h1 : Run step good s t) (h2 : Run step good t u) : Run step good s u := by
  induction h2 with
  | refl => exact h1
  | tail o _ hg hs ih => exact ih.tail o hg hs

/-- an invariant kept by every good step holds along every run -/
theorem Run.inv (I : S → Prop) (hstep : ∀ s o s', I s → good s o = true → step s o = .ok s' → I s') {s t : S}
    (h : Run step good s t) (hs : I s) : I t := by
  induction h with
  | refl => exact hs
  | tail o _ hg ho ih => exact hstep _ o _ ih hg ho

/-- a run under a stronger test is a run under a weaker one -/
theorem Run.mono {good' : S → O → Bool} (hg : ∀ s o, good s o = true → good' s o = true) {s t : S}
    (h : Run step good s t) : Run step good' s t := by
  induction h with
  | refl => exact .refl _
  | tail o _ hgo ho ih => exact ih.tail o (hg _ o hgo) ho

/-- the test that every step meets -/
def anyStep (_ : S) (_ : O) : Bool := true

/-- there is a result and it meets `check` -/
def after (x : Except E S) (check : S → Bool) : Bool :=
  match x with
  | .ok t => check t
  | .error _ => false

theorem exists_of_after {x : Except E S} {check : S → Bool} (h : after x check = true) :
    ∃ t, x = .ok t ∧ check t = true := by
  cases x with
  | error e => cases h
  | ok t => exact ⟨t, rfl, h⟩

/-- the operations succeed, each meets `good` where it is done, and the state reached meets `final` -/
def passes (step : S → O → Except E S) (good : S → O → Bool) (final : S → Bool) (s : S) : List O → Bool
  | [] => final s
  | o :: ops => good s o && after (step s o) fun t => passes step good final t ops

/-- a list of operations that passes is a run -/
theorem run_of_passes {final : S → Bool} {s : S} (ops : List O) (h : passes step good final s ops = true) :
    ∃ t, Run step good s t ∧ final t = true := by
  induction ops generalizing s with
  | nil => exact ⟨s, .refl s, h⟩
  | cons o ops ih =>
    simp only [passes, Bool.and_eq_true] at h
    obtain ⟨ho, hrest⟩ := h
    obtain ⟨t, hst, ht⟩ := exists_of_after hrest
    obtain ⟨u, hu, hfinal⟩ := ih ht
    exact ⟨u, (Run.tail o (.refl s) ho hst).trans hu, hfinal⟩

/-! ## Machines of several threads -/

/-- a sum over the threads, after one of them has moved from `f a` to `x` -/
theorem sum_update {A B M : Type} [Fintype A] [DecidableEq A] [AddCommMonoid M] (g : B → M)
    (f : A → B) (a : A) (x : B) :
    (∑ v, g (Function.update f a x v)) + g (f a) = (∑ v, g (f v)) + g x := by
  have hrest : ∑ v ∈ Finset.univ.erase a, g (Function.update f a x v) = ∑ v ∈ Finset.univ.erase a, g (f v) :=
    Finset.sum_congr rfl fun v hv => by rw [Function.update_of_ne (Finset.ne_of_mem_erase hv)]
  rw [← Finset.add_sum_erase _ _ (Finset.mem_univ a), ← Finset.add_sum_erase _ (fun v => g (f v)) (Finset.mem_univ a),
    hrest, Function.update_self]
  abel

end OsLab.Lib
