/-
Trees of named nodes.

Some nodes are directories; `entry d k n` says that directory `d` has an entry `k` for node `n`. Every directory has an
entry `dot` for itself and an entry `dotdot` for its parent, and every node but the root has exactly one entry under a
proper name (`NameTree`). The two changes that keep this are a new node with one entry for it (`NameTree.add`) and the
removal of a node without proper entries of its own (`NameTree.remove`). The way up from a directory is shorter than the
number of directories (`Depth.lt_card`). `Leads` is a path of names from one node down to another.
-/
import Mathlib.Data.Finset.Card
import Mathlib.Logic.Relation
import Mathlib.Tactic

namespace OsLab.Lib

open Relation

variable {N K : Type} {dot dotdot : K} {root d d' n m p : N} {k k' : K} {node dir node' dir' : N → Prop}
  {entry entry' : N → K → N → Prop}

/-- a name that is neither `dot` nor `dotdot` -/
def Proper (dot dotdot k : K) : Prop := k ≠ dot ∧ k ≠ dotdot

structure NameTree (dot dotdot : K) (root : N) (node dir : N → Prop) (entry : N → K → N → Prop) : Prop where
  dirNode : ∀ d, dir d → node d
  rootDir : dir root
  holder : ∀ d k n, entry d k n → dir d
  target : ∀ d k n, entry d k n → node n
  unique : ∀ d k n m, entry d k n → entry d k m → n = m
  self : ∀ d, dir d → entry d dot d
  up : ∀ d, dir d → ∃ p, entry d dotdot p
  rootUp : entry root dotdot root
  named : ∀ n, node n → n ≠ root → ∃ d k, Proper dot dotdot k ∧ entry d k n
  once : ∀ d k d' k' n, Proper dot dotdot k → Proper dot dotdot k' → entry d k n → entry d' k' n → d = d' ∧ k = k'
  parent : ∀ d k n, Proper dot dotdot k → entry d k n → dir n → entry n dotdot d
  rootFree : ∀ d k, Proper dot dotdot k → ¬entry d k root
  reach : ∀ d, dir d → ReflTransGen (fun a b => entry a dotdot b) d root

namespace NameTree

/-- the parent of a directory is a directory that has an entry for it -/
theorem up_cases (h : NameTree dot dotdot root node dir entry) (hp : entry d dotdot p) :
    (d = root ∧ p = root) ∨ (d ≠ root ∧ dir p ∧ ∃ k, Proper dot dotdot k ∧ entry p k d) := by
  have hd := h.holder d dotdot p hp
  by_cases hroot : d = root
  · subst hroot
    exact Or.inl ⟨rfl, h.unique _ _ _ _ hp h.rootUp⟩
  · obtain ⟨q, k, hk, hq⟩ := h.named d (h.dirNode d hd) hroot
    obtain rfl : p = q := h.unique _ _ _ _ hp (h.parent q k d hk hq hd)
    exact Or.inr ⟨hroot, h.holder p k d hq, k, hk, hq⟩

theorem up_dir (h : NameTree dot dotdot root node dir entry) (hp : entry d dotdot p) : dir p := by
  rcases h.up_cases hp with ⟨-, rfl⟩ | ⟨-, hdir, -⟩
  · exact h.rootDir
  · exact hdir

/-- from a directory that is its own parent there is no way to another one -/
theorem eq_root_of_up_self (h : NameTree dot dotdot root node dir entry) (hself : entry d dotdot d) : d = root := by
  have hreach := h.reach d (h.holder d dotdot d hself)
  induction hreach using ReflTransGen.head_induction_on with
  | refl => rfl
  | head hstep _ ih =>
    obtain rfl := h.unique _ _ _ _ hself hstep
    exact ih hself

/-- no directory has a proper entry for itself -/
theorem ne_of_proper (h : NameTree dot dotdot root node dir entry) (hk : Proper dot dotdot k) (he : entry d k n) :
    d ≠ n := by
  rintro rfl
  have hup := h.parent d k d hk he (h.holder d k d he)
  obtain rfl := h.eq_root_of_up_self hup
  exact h.rootFree _ _ hk he

/-- a root directory with nothing in it -/
theorem init (hnode : ∀ m, node m ↔ m = root) (hdir : ∀ m, dir m ↔ m = root)
    (hentry : ∀ a b c, entry a b c ↔ a = root ∧ (b = dot ∨ b = dotdot) ∧ c = root) :
    NameTree dot dotdot root node dir entry := by
  have hup : entry root dotdot root := (hentry ..).2 ⟨rfl, Or.inr rfl, rfl⟩
  have hproper : ∀ a b c, Proper dot dotdot b → ¬entry a b c := fun a b c hb he =>
    ((hentry a b c).1 he).2.1.elim hb.1 hb.2
  refine ⟨fun a ha => (hnode a).2 ((hdir a).1 ha), (hdir root).2 rfl,
    fun a b c he => (hdir a).2 ((hentry a b c).1 he).1,
    fun a b c he => (hnode c).2 ((hentry a b c).1 he).2.2, fun a b c c' he he' => ?_,
    fun a ha => ?_, fun a ha => ?_, hup,
    fun a ha hne => absurd ((hnode a).1 ha) hne, fun a b _ _ c hb _ he => absurd he (hproper a b c hb),
    fun a b c hb he => absurd he (hproper a b c hb), fun a b hb => hproper a b root hb, fun a ha => ?_⟩
  · rw [((hentry a b c).1 he).2.2, ((hentry a b c').1 he').2.2]
  · rw [(hdir a).1 ha]
    exact (hentry ..).2 ⟨rfl, Or.inl rfl, rfl⟩
  · rw [(hdir a).1 ha]
    exact ⟨root, hup⟩
  · rw [(hdir a).1 ha]

/-- **A new node with an entry for it**, a directory if `D` holds. -/
theorem add {D : Prop} (h : NameTree dot dotdot root node dir entry) (hdots : dot ≠ dotdot) (hd : dir d)
    (hk : Proper dot dotdot k) (hfree : ∀ m, ¬entry d k m) (hn : ¬node n)
    (hnode : ∀ m, node' m ↔ node m ∨ m = n) (hdir : ∀ m, dir' m ↔ dir m ∨ (D ∧ m = n))
    (hentry : ∀ a b c, entry' a b c ↔ entry a b c ∨ (a = d ∧ b = k ∧ c = n) ∨
      (D ∧ a = n ∧ ((b = dot ∧ c = n) ∨ (b = dotdot ∧ c = d)))) :
    NameTree dot dotdot root node' dir' entry' := by
  have hnot : ∀ b c, ¬entry n b c := fun b c hc => hn (h.dirNode n (h.holder n b c hc))
  have hdn : d ≠ n := fun hc => hn (h.dirNode n (hc ▸ hd))
  have hne : ∀ a b c, entry a b c → c ≠ n := fun a b c hc heq => hn (heq ▸ h.target a b c hc)
  have hrn : root ≠ n := fun hc => hn (h.dirNode n (hc ▸ h.rootDir))
  have hold : ∀ a, dir a → ReflTransGen (fun a b => entry' a dotdot b) a root := fun a ha =>
    ReflTransGen.mono (fun x y hxy => (hentry x dotdot y).2 (Or.inl hxy)) _ _ (h.reach a ha)
  refine ⟨fun a ha => ?_, (hdir root).2 (Or.inl h.rootDir), fun a b c he => ?_, fun a b c he => ?_,
    fun a b c c' he he' => ?_,
    fun a ha => ?_, fun a ha => ?_, (hentry ..).2 (Or.inl h.rootUp), fun c hc hroot => ?_,
    fun a b a' b' c hb hb' he he' => ?_, fun a b c hb he hc => ?_, fun a b hb he => ?_, fun a ha => ?_⟩
  · rcases (hdir a).1 ha with ha | ⟨-, rfl⟩
    · exact (hnode a).2 (Or.inl (h.dirNode a ha))
    · exact (hnode a).2 (Or.inr rfl)
  · rcases (hentry a b c).1 he with he | ⟨rfl, -, -⟩ | ⟨hD, rfl, -⟩
    · exact (hdir a).2 (Or.inl (h.holder a b c he))
    · exact (hdir a).2 (Or.inl hd)
    · exact (hdir a).2 (Or.inr ⟨hD, rfl⟩)
  · rcases (hentry a b c).1 he with he | ⟨-, -, rfl⟩ | ⟨-, -, ⟨-, rfl⟩ | ⟨-, rfl⟩⟩
    · exact (hnode c).2 (Or.inl (h.target a b c he))
    · exact (hnode c).2 (Or.inr rfl)
    · exact (hnode c).2 (Or.inr rfl)
    · exact (hnode c).2 (Or.inl (h.dirNode c hd))
  · rcases (hentry a b c).1 he with he | ⟨rfl, rfl, rfl⟩ | ⟨-, rfl, hbc⟩
    · rcases (hentry a b c').1 he' with he' | ⟨rfl, rfl, rfl⟩ | ⟨-, rfl, -⟩
      · exact h.unique a b c c' he he'
      · exact absurd he (hfree c)
      · exact absurd he (hnot b c)
    · rcases (hentry a b c').1 he' with he' | ⟨-, -, rfl⟩ | ⟨-, rfl, -⟩
      · exact absurd he' (hfree c')
      · rfl
      · exact absurd rfl hdn
    · rcases (hentry a b c').1 he' with he' | ⟨rfl, -, -⟩ | ⟨-, -, hbc'⟩
      · exact absurd he' (hnot b c')
      · exact absurd rfl hdn
      · rcases hbc with ⟨rfl, rfl⟩ | ⟨rfl, rfl⟩ <;> rcases hbc' with ⟨h1, rfl⟩ | ⟨h1, rfl⟩
        · rfl
        · exact absurd h1 hdots
        · exact absurd h1.symm hdots
        · rfl
  · rcases (hdir a).1 ha with ha | ⟨hD, rfl⟩
    · exact (hentry ..).2 (Or.inl (h.self a ha))
    · exact (hentry ..).2 (Or.inr (Or.inr ⟨hD, rfl, Or.inl ⟨rfl, rfl⟩⟩))
  · rcases (hdir a).1 ha with ha | ⟨hD, rfl⟩
    · obtain ⟨p, hp⟩ := h.up a ha
      exact ⟨p, (hentry ..).2 (Or.inl hp)⟩
    · exact ⟨d, (hentry ..).2 (Or.inr (Or.inr ⟨hD, rfl, Or.inr ⟨rfl, rfl⟩⟩))⟩
  · rcases (hnode c).1 hc with hc | rfl
    · obtain ⟨a, b, hb, hab⟩ := h.named c hc hroot
      exact ⟨a, b, hb, (hentry ..).2 (Or.inl hab)⟩
    · exact ⟨d, k, hk, (hentry ..).2 (Or.inr (Or.inl ⟨rfl, rfl, rfl⟩))⟩
  · -- a proper entry is an old one or the new one
    have hcases : ∀ a b c, Proper dot dotdot b → entry' a b c → entry a b c ∨ (a = d ∧ b = k ∧ c = n) := by
      intro a b c hb he
      rcases (hentry a b c).1 he with he | he | ⟨-, -, ⟨rfl, -⟩ | ⟨rfl, -⟩⟩
      · exact Or.inl he
      · exact Or.inr he
      · exact absurd rfl hb.1
      · exact absurd rfl hb.2
    rcases hcases a b c hb he with he | ⟨rfl, rfl, rfl⟩ <;> rcases hcases a' b' _ hb' he' with he' | ⟨rfl, rfl, h1⟩
    · exact h.once a b a' b' c hb hb' he he'
    · exact absurd h1 (hne a b c he)
    · exact absurd rfl (hne a' b' _ he')
    · exact ⟨rfl, rfl⟩
  · rcases (hentry a b c).1 he with he | ⟨rfl, rfl, rfl⟩ | ⟨-, -, ⟨rfl, -⟩ | ⟨rfl, -⟩⟩
    · have hc' : dir c := ((hdir c).1 hc).resolve_right fun hc' => hne a b c he hc'.2
      exact (hentry ..).2 (Or.inl (h.parent a b c hb he hc'))
    · have hD : D := ((hdir c).1 hc).elim (fun hc' => absurd (h.dirNode c hc') hn) And.left
      exact (hentry ..).2 (Or.inr (Or.inr ⟨hD, rfl, Or.inr ⟨rfl, rfl⟩⟩))
    · exact absurd rfl hb.1
    · exact absurd rfl hb.2
  · rcases (hentry a b root).1 he with he | ⟨-, -, h1⟩ | ⟨-, -, ⟨rfl, -⟩ | ⟨rfl, -⟩⟩
    · exact h.rootFree a b hb he
    · exact hrn h1
    · exact hb.1 rfl
    · exact hb.2 rfl
  · rcases (hdir a).1 ha with ha | ⟨hD, rfl⟩
    · exact hold a ha
    · exact (hold d hd).head ((hentry ..).2 (Or.inr (Or.inr ⟨hD, rfl, Or.inr ⟨rfl, rfl⟩⟩)))

/-- no way up goes through a directory without proper entries -/
theorem up_ne (h : NameTree dot dotdot root node dir entry) (hroot : n ≠ root)
    (hbare : ∀ b c, Proper dot dotdot b → ¬entry n b c) (hup : entry d dotdot p) (hd : d ≠ n) : p ≠ n := by
  rintro rfl
  rcases h.up_cases hup with ⟨-, rfl⟩ | ⟨-, -, b, hb, he⟩
  · exact hroot rfl
  · exact hbare b d hb he

/-- **A node without proper entries is removed**, with the one entry for it. -/
theorem remove (h : NameTree dot dotdot root node dir entry) (hk : Proper dot dotdot k) (he : entry d k n)
    (hbare : ∀ b c, Proper dot dotdot b → ¬entry n b c) (hnode : ∀ m, node' m ↔ node m ∧ m ≠ n)
    (hdir : ∀ m, dir' m ↔ dir m ∧ m ≠ n)
    (hentry : ∀ a b c, entry' a b c ↔ entry a b c ∧ a ≠ n ∧ ¬(a = d ∧ b = k)) :
    NameTree dot dotdot root node' dir' entry' := by
  have hroot : n ≠ root := by
    rintro rfl
    exact h.rootFree d k hk he
  have hdots : ∀ a b c, ¬Proper dot dotdot b → entry a b c → a ≠ n → entry' a b c := fun a b c hb hab ha =>
    (hentry a b c).2 ⟨hab, ha, fun hc => hb (hc.2 ▸ hk)⟩
  have hself : ¬Proper dot dotdot dot := fun hc => hc.1 rfl
  have hup : ¬Proper dot dotdot dotdot := fun hc => hc.2 rfl
  refine ⟨fun a ha => ?_, (hdir root).2 ⟨h.rootDir, hroot.symm⟩, fun a b c hab => ?_, fun a b c hab => ?_,
    fun a b c c' hab hab' => ?_, fun a ha => ?_, fun a ha => ?_,
    hdots _ _ _ hup h.rootUp hroot.symm, fun c hc hcr => ?_,
    fun a b a' b' c hb hb' hab hab' => ?_, fun a b c hb hab hc => ?_, fun a b hb hab => ?_, fun a ha => ?_⟩
  · obtain ⟨ha, han⟩ := (hdir a).1 ha
    exact (hnode a).2 ⟨h.dirNode a ha, han⟩
  · obtain ⟨hab, han, -⟩ := (hentry a b c).1 hab
    exact (hdir a).2 ⟨h.holder a b c hab, han⟩
  · obtain ⟨hab, han, hdk⟩ := (hentry a b c).1 hab
    refine (hnode c).2 ⟨h.target a b c hab, ?_⟩
    rintro rfl
    by_cases hb : Proper dot dotdot b
    · obtain ⟨rfl, rfl⟩ := h.once a b d k c hb hk hab he
      exact hdk ⟨rfl, rfl⟩
    · -- `dot` names the directory itself, `dotdot` one with a proper entry
      by_cases hb1 : b = dot
      · subst hb1
        exact han (h.unique _ _ _ _ (h.self a (h.holder a b c hab)) hab)
      · have hb2 : b = dotdot := by
          by_contra hb2
          exact hb ⟨hb1, hb2⟩
        subst hb2
        exact h.up_ne hroot hbare hab han rfl
  · exact h.unique a b c c' ((hentry a b c).1 hab).1 ((hentry a b c').1 hab').1
  · obtain ⟨ha, han⟩ := (hdir a).1 ha
    exact hdots _ _ _ hself (h.self a ha) han
  · obtain ⟨ha, han⟩ := (hdir a).1 ha
    obtain ⟨p, hp⟩ := h.up a ha
    exact ⟨p, hdots _ _ _ hup hp han⟩
  · obtain ⟨hc, hcn⟩ := (hnode c).1 hc
    obtain ⟨a, b, hb, hab⟩ := h.named c hc hcr
    refine ⟨a, b, hb, (hentry a b c).2 ⟨hab, ?_, ?_⟩⟩
    · rintro rfl
      exact hbare b c hb hab
    · rintro ⟨rfl, rfl⟩
      exact hcn (h.unique _ _ _ _ hab he)
  · exact h.once a b a' b' c hb hb' ((hentry a b c).1 hab).1 ((hentry a' b' c).1 hab').1
  · obtain ⟨hc, hcn⟩ := (hdir c).1 hc
    exact hdots _ _ _ hup (h.parent a b c hb ((hentry a b c).1 hab).1 hc) hcn
  · exact h.rootFree a b hb ((hentry a b root).1 hab).1
  · obtain ⟨ha, han⟩ := (hdir a).1 ha
    have hreach := h.reach a ha
    induction hreach using ReflTransGen.head_induction_on with
    | refl => exact .refl
    | head hstep _ ih =>
      have hpn := h.up_ne hroot hbare hstep han
      have hpd := h.up_dir hstep
      exact (ih ((hdir _).2 ⟨hpd, hpn⟩) hpd hpn).head (hdots _ _ _ hup hstep han)

end NameTree

/-! ## The way up -/

/-- `j` steps lead from `d` to the root -/
inductive Depth (dotdot : K) (root : N) (entry : N → K → N → Prop) : N → ℕ → Prop
  | root : Depth dotdot root entry root 0
  | up {d p : N} {j : ℕ} : d ≠ root → entry d dotdot p → Depth dotdot root entry p j → Depth dotdot root entry d (j + 1)

namespace Depth

theorem exists_of_dir (h : NameTree dot dotdot root node dir entry) (hd : dir d) :
    ∃ j, Depth dotdot root entry d j := by
  have hreach := h.reach d hd
  induction hreach using ReflTransGen.head_induction_on with
  | refl => exact ⟨0, .root⟩
  | @head a b hstep _ ih =>
    by_cases ha : a = root
    · exact ⟨0, ha ▸ .root⟩
    · obtain ⟨j, hj⟩ := ih (h.up_dir hstep)
      exact ⟨j + 1, .up ha hstep hj⟩

theorem unique (h : NameTree dot dotdot root node dir entry) {j j' : ℕ} (hj : Depth dotdot root entry d j)
    (hj' : Depth dotdot root entry d j') : j = j' := by
  induction hj generalizing j' with
  | root =>
    cases hj' with
    | root => rfl
    | up hne _ _ => exact absurd rfl hne
  | up hne hup _ ih =>
    cases hj' with
    | root => exact absurd rfl hne
    | up _ hup' hj' =>
      obtain rfl := h.unique _ _ _ _ hup hup'
      rw [ih hj']

/-- **The way up is shorter than the number of directories.** -/
theorem lt_card [DecidableEq N] (h : NameTree dot dotdot root node dir entry) {S : Finset N}
    (hS : ∀ d, dir d → d ∈ S) {j : ℕ} (hj : Depth dotdot root entry d j) (hd : dir d) : j < S.card := by
  -- the directories on the way have different depths
  have hway : ∃ T : Finset N, T ⊆ S ∧ T.card = j + 1 ∧ ∀ x ∈ T, ∃ l ≤ j, Depth dotdot root entry x l := by
    induction hj with
    | root =>
      exact ⟨{root}, by simpa using hS root h.rootDir, rfl, fun x hx => ⟨0, le_refl _, by simp_all [Depth.root]⟩⟩
    | @up a b l hne hup hl ih =>
      obtain ⟨T, hT, hcard, hdepth⟩ := ih (h.up_dir hup)
      have hnot : a ∉ T := by
        intro ha
        obtain ⟨i, hi, hai⟩ := hdepth a ha
        have := hai.unique h (.up hne hup hl)
        omega
      refine ⟨insert a T, Finset.insert_subset (hS a hd) hT, by rw [Finset.card_insert_of_notMem hnot, hcard], ?_⟩
      intro x hx
      rcases Finset.mem_insert.1 hx with rfl | hx
      · exact ⟨l + 1, le_refl _, .up hne hup hl⟩
      · obtain ⟨i, hi, hxi⟩ := hdepth x hx
        exact ⟨i, by omega, hxi⟩
  obtain ⟨T, hT, hcard, -⟩ := hway
  have hle := Finset.card_le_card hT
  omega

/-- a subdirectory is one step further down -/
theorem child (h : NameTree dot dotdot root node dir entry) {j : ℕ} (hj : Depth dotdot root entry d j)
    (hk : Proper dot dotdot k) (he : entry d k n) (hn : dir n) : Depth dotdot root entry n (j + 1) := by
  refine .up ?_ (h.parent d k n hk he hn) hj
  rintro rfl
  exact h.rootFree d k hk he

end Depth

/-! ## The way down -/

/-- the names `ks`, one after the other, lead from `a` to `b` -/
inductive Leads (entry : N → K → N → Prop) (a : N) : List K → N → Prop
  | nil : Leads entry a [] a
  | snoc {ks : List K} {p b : N} {k : K} : Leads entry a ks p → entry p k b → Leads entry a (ks ++ [k]) b

end OsLab.Lib
