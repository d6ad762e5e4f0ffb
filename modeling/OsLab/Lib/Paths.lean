/-
Paths in a tree of named nodes.

A path is a list of proper names, read from the root down. In a `NameTree` every node has exactly one path
(`NameTree.exists_path`, `NameTree.path_unique`), and a path leads to one node at most (`NameTree.target_unique`). The
two changes of the tree are one path more and one path less: a new node has the path of its directory with its name
behind it (`leads_add_iff`), a removed node takes its own path with it and no other (`leads_remove_iff`).
-/
import OsLab.Lib.Names

namespace OsLab.Lib

open Relation

variable {N K : Type} {dot dotdot : K} {root d n m p a b : N} {k : K} {ks ls : List K} {node dir node' dir' : N → Prop}
  {entry entry' : N → K → N → Prop}

/-- an entry under a proper name: one step down -/
def down (dot dotdot : K) (entry : N → K → N → Prop) (a : N) (k : K) (b : N) : Prop := Proper dot dotdot k ∧ entry a k b

/-! ## Following a path -/

theorem leads_nil_iff : Leads entry a [] b ↔ b = a := by
  constructor
  · intro h
    generalize hks : ([] : List K) = ks at h
    cases h with
    | nil => rfl
    | snoc _ _ => simp at hks
  · rintro rfl
    exact .nil

theorem leads_concat_iff : Leads entry a (ks ++ [k]) b ↔ ∃ p, Leads entry a ks p ∧ entry p k b := by
  constructor
  · intro h
    generalize hls : ks ++ [k] = ls at h
    cases h with
    | nil => simp at hls
    | snoc h he =>
      obtain ⟨rfl, hk⟩ := List.append_inj' hls rfl
      cases hk
      exact ⟨_, h, he⟩
  · rintro ⟨p, h, he⟩
    exact .snoc h he

theorem Leads.mono (h : Leads entry a ks b) (hentry : ∀ x k y, entry x k y → entry' x k y) : Leads entry' a ks b := by
  induction h with
  | nil => exact .nil
  | snoc _ he ih => exact .snoc ih (hentry _ _ _ he)

/-! ## Paths and nodes -/

namespace NameTree

/-- a path leads to a node -/
theorem node_of_leads (h : NameTree dot dotdot root node dir entry) (hp : Leads (down dot dotdot entry) root ks n) :
    node n := by
  cases hp with
  | nil => exact h.dirNode root h.rootDir
  | snoc _ he => exact h.target _ _ _ he.2

/-- a path leads to one node at most -/
theorem target_unique (h : NameTree dot dotdot root node dir entry) (hn : Leads (down dot dotdot entry) root ks n)
    (hm : Leads (down dot dotdot entry) root ks m) : n = m := by
  induction ks using List.reverseRecOn generalizing n m with
  | nil => rw [leads_nil_iff.1 hn, leads_nil_iff.1 hm]
  | append_singleton ks k ih =>
    obtain ⟨p, hp, hpn⟩ := leads_concat_iff.1 hn
    obtain ⟨q, hq, hqm⟩ := leads_concat_iff.1 hm
    obtain rfl := ih hp hq
    exact h.unique _ _ _ _ hpn.2 hqm.2

/-- a node has one path at most -/
theorem path_unique (h : NameTree dot dotdot root node dir entry) (hks : Leads (down dot dotdot entry) root ks n)
    (hls : Leads (down dot dotdot entry) root ls n) : ks = ls := by
  induction ks using List.reverseRecOn generalizing n ls with
  | nil =>
    obtain rfl := leads_nil_iff.1 hks
    rcases List.eq_nil_or_concat' ls with rfl | ⟨ls, k, rfl⟩
    · rfl
    · obtain ⟨p, -, hk, he⟩ := leads_concat_iff.1 hls
      exact absurd he (h.rootFree p k hk)
  | append_singleton ks k ih =>
    obtain ⟨p, hp, hk, he⟩ := leads_concat_iff.1 hks
    rcases List.eq_nil_or_concat' ls with rfl | ⟨ls, k', rfl⟩
    · obtain rfl := leads_nil_iff.1 hls
      exact absurd he (h.rootFree p k hk)
    · obtain ⟨q, hq, hk', he'⟩ := leads_concat_iff.1 hls
      obtain ⟨rfl, rfl⟩ := h.once p k q k' n hk hk' he he'
      rw [ih hp hq]

/-- **Every node has a path.** -/
theorem exists_path (h : NameTree dot dotdot root node dir entry) (hn : node n) :
    ∃ ks, Leads (down dot dotdot entry) root ks n := by
  -- a directory, along its way up
  have hdirs : ∀ a, dir a → ∃ ks, Leads (down dot dotdot entry) root ks a := by
    intro a ha
    have hreach := h.reach a ha
    induction hreach using ReflTransGen.head_induction_on with
    | refl => exact ⟨[], .nil⟩
    | @head a b hstep _ ih =>
      rcases h.up_cases hstep with ⟨rfl, -⟩ | ⟨-, hb, k, hk, he⟩
      · exact ⟨[], .nil⟩
      · obtain ⟨ks, hks⟩ := ih hb
        exact ⟨ks ++ [k], .snoc hks ⟨hk, he⟩⟩
  by_cases hroot : n = root
  · exact ⟨[], hroot ▸ .nil⟩
  · obtain ⟨d, k, hk, he⟩ := h.named n hn hroot
    obtain ⟨ks, hks⟩ := hdirs d (h.holder d k n he)
    exact ⟨ks ++ [k], .snoc hks ⟨hk, he⟩⟩

/-- the parent of a directory has the path without its last name -/
theorem leads_up (h : NameTree dot dotdot root node dir entry) (hd : Leads (down dot dotdot entry) root ks d)
    (hup : entry d dotdot p) : Leads (down dot dotdot entry) root ks.dropLast p := by
  rcases h.up_cases hup with ⟨rfl, rfl⟩ | ⟨hne, -, k, hk, he⟩
  · have hnil : ks = [] := h.path_unique hd .nil
    rw [hnil]
    exact .nil
  · rcases List.eq_nil_or_concat' ks with rfl | ⟨ks, k', rfl⟩
    · exact absurd (leads_nil_iff.1 hd) hne
    · obtain ⟨q, hq, hk', he'⟩ := leads_concat_iff.1 hd
      obtain ⟨rfl, rfl⟩ := h.once p k q k' d hk hk' he he'
      rw [List.dropLast_concat]
      exact hq

/-- **The paths with a new node**: one path more. -/
theorem leads_add_iff {D : Prop} (h : NameTree dot dotdot root node dir entry) (hk : Proper dot dotdot k) (hd : dir d)
    (hn : ¬node n)
    (hentry : ∀ a b c, entry' a b c ↔ entry a b c ∨ (a = d ∧ b = k ∧ c = n) ∨
      (D ∧ a = n ∧ ((b = dot ∧ c = n) ∨ (b = dotdot ∧ c = d)))) :
    Leads (down dot dotdot entry') root ks m ↔ Leads (down dot dotdot entry) root ks m ∨
      (m = n ∧ ∃ ls, Leads (down dot dotdot entry) root ls d ∧ ks = ls ++ [k]) := by
  have hmore : ∀ a b c, down dot dotdot entry a b c → down dot dotdot entry' a b c := fun a b c he =>
    ⟨he.1, (hentry a b c).2 (Or.inl he.2)⟩
  have hcases : ∀ a b c, down dot dotdot entry' a b c → down dot dotdot entry a b c ∨ (a = d ∧ b = k ∧ c = n) := by
    rintro a b c ⟨hb, he⟩
    rcases (hentry a b c).1 he with he | he | ⟨-, -, ⟨rfl, -⟩ | ⟨rfl, -⟩⟩
    · exact Or.inl ⟨hb, he⟩
    · exact Or.inr he
    · exact absurd rfl hb.1
    · exact absurd rfl hb.2
  have hdn : d ≠ n := fun hc => hn (hc ▸ h.dirNode d hd)
  constructor
  · intro hm
    induction ks using List.reverseRecOn generalizing m with
    | nil => exact Or.inl (leads_nil_iff.2 (leads_nil_iff.1 hm))
    | append_singleton ks b ih =>
      obtain ⟨q, hq, he⟩ := leads_concat_iff.1 hm
      rcases ih hq with hq | ⟨rfl, -⟩
      · rcases hcases q b m he with he | ⟨rfl, rfl, rfl⟩
        · exact Or.inl (.snoc hq he)
        · exact Or.inr ⟨rfl, ks, hq, rfl⟩
      · -- nothing hangs below the new node
        rcases hcases q b m he with he | ⟨rfl, -⟩
        · exact absurd (h.dirNode q (h.holder q b m he.2)) hn
        · exact absurd rfl hdn
  · rintro (hm | ⟨rfl, ls, hls, rfl⟩)
    · exact hm.mono hmore
    · exact .snoc (hls.mono hmore) ⟨hk, (hentry ..).2 (Or.inr (Or.inl ⟨rfl, rfl, rfl⟩))⟩

/-- **The paths without a node**: one path less. -/
theorem leads_remove_iff (h : NameTree dot dotdot root node dir entry) (hk : Proper dot dotdot k) (he : entry d k n)
    (hbare : ∀ b c, Proper dot dotdot b → ¬entry n b c)
    (hentry : ∀ a b c, entry' a b c ↔ entry a b c ∧ a ≠ n ∧ ¬(a = d ∧ b = k)) :
    Leads (down dot dotdot entry') root ks m ↔ Leads (down dot dotdot entry) root ks m ∧ m ≠ n := by
  have hless : ∀ a b c, down dot dotdot entry' a b c → down dot dotdot entry a b c := fun a b c hab =>
    ⟨hab.1, ((hentry a b c).1 hab.2).1⟩
  constructor
  · intro hm
    refine ⟨hm.mono hless, ?_⟩
    rintro rfl
    cases hm with
    | nil => exact h.rootFree d k hk he
    | snoc _ hstep =>
      obtain ⟨hb, hab⟩ := hstep
      obtain ⟨hab, -, hnot⟩ := (hentry _ _ _).1 hab
      exact hnot (h.once _ _ _ _ _ hb hk hab he)
  · rintro ⟨hm, hne⟩
    induction ks using List.reverseRecOn generalizing m with
    | nil => exact leads_nil_iff.2 (leads_nil_iff.1 hm)
    | append_singleton ks b ih =>
      obtain ⟨q, hq, hb, hqm⟩ := leads_concat_iff.1 hm
      have hqn : q ≠ n := by
        rintro rfl
        exact hbare b m hb hqm
      refine .snoc (ih hq hqn) ⟨hb, (hentry ..).2 ⟨hqm, hqn, ?_⟩⟩
      rintro ⟨rfl, rfl⟩
      exact hne (h.unique _ _ _ _ hqm he)

end NameTree

end OsLab.Lib
