/-
Thread control blocks are not leaked, except by `thread_create`.

A control block is allocated with its stack by `thread_create` and freed by `free_exited`, which walks `threads[]`. So a
block is lost when it leaves the table unfreed. `get_id` offers the slot of an exited thread as free and `thread_create`
overwrites it: `zombie_overwritten`. `no_tcb_leaked`: in every run in which no `thread_create` does that, with any
`thread_kill`, every block is in exactly one slot, and a thread that is alone and yields often enough is left with its
own block. `Owned` is the invariant; only `free_thread` and `thread_create` write the table.
-/
import Mathlib.Tactic
import OsLab.Threads.Writes

namespace OsLab.Threads

open OsLab.Lib Function State

/-- the allocated control blocks are those in the table, each in the slot of its identifier -/
structure Owned (s : State) : Prop where
  range : ∀ i p, s.threads i = some p → i ∈ tids
  slots : ∀ i p, s.threads i = some p → ∃ t, s.heap p = some t ∧ t.id = i
  owned : ∀ p t, s.heap p = some t → s.threads t.id = some p
  fresh : ∀ p, s.nextPtr ≤ p → s.heap p = none

section

variable {s s' : State}

theorem owned_iff : Owned s ↔ Kept false s :=
  ⟨fun h => ⟨h.range, h.slots, fun p t hp => .inl (h.owned p t hp), h.fresh⟩,
    fun h => ⟨h.range, h.slots, fun p t hp => (h.owned p t hp).resolve_right fun hl => Bool.noConfusion hl.1, h.fresh⟩⟩

theorem Owned.step (h : Owned s) {op : Op} (hg : freshSlot s op = true) (hs : step s op = .ok s') : Owned s' :=
  owned_iff.2 ((owned_iff.1 h).step true (fun _ => rfl) (fun _ => hg) hs)

theorem owned_init (enabled : Bool) : Owned (threadInit enabled) := owned_iff.2 (kept_init false enabled)

theorem Owned.exactly_one (h : Owned s) {p : Ptr} (hp : (s.heap p).isSome) : ∃! i, s.threads i = some p := by
  obtain ⟨t, ht⟩ := Option.isSome_iff_exists.1 hp
  refine ⟨t.id, h.owned p t ht, fun j hj => ?_⟩
  obtain ⟨u, hu, hid⟩ := h.slots j p hj
  rw [ht, Option.some.injEq] at hu
  rw [← hid, hu]

end

/-! ## The last thread -/

/-- user code of the running thread, with every other thread exited and nobody ready -/
structure Last (s : State) : Prop where
  status : ∀ p t, s.heap p = some t → t.status = if p = s.cpu.owner then .running else .exited
  ready : s.readyQueue = []
  frames : s.cpu.frames = []

/-- the slot holds an exited thread -/
def zombie (s : State) (i : Tid) : Bool := (s.tcbAt i).any fun t => t.status = .exited

/-- how many exited threads are in the table -/
def zombies (s : State) : ℕ := tids.countP (zombie s)

def yields (s : State) (wants : List Tid) : Except Stop State := wants.foldlM (fun t w => step t (.yield w)) s

section

variable {s s' : State}

/-- one element less passes the test -/
theorem countP_succ {A : Type} [DecidableEq A] {p q : A → Bool} {a : A} {l : List A} (hl : l.Nodup) (ha : a ∈ l)
    (hpa : p a = true) (hqa : q a = false) (hq : ∀ b, b ≠ a → q b = p b) : l.countP p = l.countP q + 1 := by
  induction l with
  | nil => cases ha
  | cons b l ih =>
    rw [List.nodup_cons] at hl
    by_cases hb : b = a
    · subst hb
      have hrest : l.countP p = l.countP q :=
        List.countP_congr fun c hc => by rw [hq c (by rintro rfl; exact hl.1 hc)]
      rw [List.countP_cons_of_pos hpa, List.countP_cons_of_neg (by simp [hqa]), hrest]
    · have ha' := (List.mem_cons.1 ha).resolve_left (Ne.symm hb)
      rw [List.countP_cons, List.countP_cons, hq b hb, ih hl.2 ha']
      omega

/-- `free_exited` of the last thread frees one exited thread, if there is one -/
theorem Last.freeExited (h : Last s) (ho : Owned s) (hs : freeExited s = .ok s') :
    Last s' ∧ s'.cpu = s.cpu ∧ zombies s' = zombies s - 1 := by
  unfold Threads.freeExited at hs
  split at hs
  · next hnone =>
    cases hs
    refine ⟨h, rfl, ?_⟩
    have hz : zombies s = 0 := List.countP_eq_zero.2 fun i hi => List.find?_eq_none.1 hnone i hi
    omega
  · next i hfind =>
    have hi := List.mem_of_find?_eq_some hfind
    have hz : zombie s i = true := List.find?_some hfind
    simp only [h.ready, deleteFromQueue, ok_bind, freeThread, bind_eq_ok] at hs
    obtain ⟨p, hp, t, ht, -, -, hs⟩ := hs
    have hslot : s.threads i = some p := slot_ok hp
    cases hs
    refine ⟨⟨fun x u hx => ?_, rfl, h.frames⟩, rfl, ?_⟩
    · by_cases hxp : x = p
      · subst hxp; simp at hx
      · exact h.status x u (by simpa only [update_of_ne hxp] using hx)
    · have hcount : zombies s = tids.countP (zombie { s with
          readyQueue := [], heap := update s.heap p none, threads := update s.threads i none }) + 1 := by
        refine countP_succ tids_nodup hi hz ?_ fun j hj => ?_
        · simp [zombie, State.tcbAt]
        · simp only [zombie, State.tcbAt, update_of_ne hj]
          cases hj' : s.threads j with
          | none => rfl
          | some x =>
            have hxp : x ≠ p := by
              rintro rfl
              exact hj ((ho.exactly_one (by rw [(deref_ok ht : s.heap x = some t)]; rfl)).unique hj' hslot)
            change ((update s.heap p none) x).any _ = (s.heap x).any _
            rw [update_of_ne hxp]
      rw [hcount, Nat.add_sub_cancel]
      unfold zombies; rfl

/-- a yield of the last thread returns to it -/
theorem Last.yield (h : Last s) (ho : Owned s) {want : Tid} (hs : step s (.yield want) = .ok s') :
    Last s' ∧ Owned s' ∧ s'.cpu.owner = s.cpu.owner ∧ zombies s' = zombies s - 1 := by
  have ho' : Owned s' := ho.step rfl hs
  rw [step, h.frames] at hs
  simp only [call, threadYield, bind_eq_ok] at hs
  obtain ⟨s1, hf, hs⟩ := hs
  have h0 : Last s.interruptsOff := ⟨h.status, h.ready, h.frames⟩
  obtain ⟨h1, hcpu, hz⟩ := h0.freeExited ⟨ho.range, ho.slots, ho.owned, ho.fresh⟩ hf
  have hown : s1.cpu.owner = s.cpu.owner := by rw [hcpu]; rfl
  have hret : ∀ e v, s' = s1.returns e v →
      Last s' ∧ Owned s' ∧ s'.cpu.owner = s.cpu.owner ∧ zombies s' = zombies s - 1 := by
    rintro e v rfl
    exact ⟨⟨h1.status, h1.ready, h1.frames⟩, ho', hown, hz⟩
  split at hs
  · cases hs; exact hret _ _ rfl
  · split at hs
    · rw [h1.ready] at hs
      cases hs; exact hret _ _ rfl
    · split at hs
      · next hc =>
        -- nobody is ready
        obtain ⟨t, ht, hst⟩ := (Option.any_eq_true _ _).1 hc.2
        obtain ⟨p, -, hpt⟩ := tcbAt_eq ht
        have hstatus := h1.status p t hpt
        rw [of_decide_eq_true hst] at hstatus
        split at hstatus <;> cases hstatus
      · cases hs; exact hret _ _ rfl

theorem Last.yields {wants : List Tid} (h : Last s) (ho : Owned s) (hs : yields s wants = .ok s') :
    Last s' ∧ Owned s' ∧ s'.cpu.owner = s.cpu.owner ∧ zombies s' = zombies s - wants.length := by
  induction wants generalizing s with
  | nil => cases hs; exact ⟨h, ho, rfl, (Nat.sub_zero _).symm⟩
  | cons w wants ih =>
    rw [Threads.yields, List.foldlM_cons, bind_eq_ok] at hs
    obtain ⟨t, ht, hs⟩ := hs
    obtain ⟨h1, ho1, hown1, hz1⟩ := h.yield ho ht
    obtain ⟨h2, ho2, hown2, hz2⟩ := ih h1 ho1 hs
    refine ⟨h2, ho2, hown2.trans hown1, ?_⟩
    rw [hz2, hz1, List.length_cons]
    omega

theorem Last.only (h : Last s) (ho : Owned s) (hz : zombies s = 0) {p : Ptr} (hp : (s.heap p).isSome) :
    p = s.cpu.owner := by
  obtain ⟨t, ht⟩ := Option.isSome_iff_exists.1 hp
  by_contra hne
  have hslot := ho.owned p t ht
  have hnot := List.countP_eq_zero.1 hz t.id (ho.range _ _ hslot)
  have hstatus := h.status p t ht
  rw [if_neg hne] at hstatus
  exact hnot (by simp [zombie, State.tcbAt, hslot, ht, hstatus])

/-- with no victim of `thread_kill` in the queue of an object, it is enough that every other thread has exited -/
theorem last_of_exited (h : Inv s) (hf : s.cpu.frames = [])
    (hex : ∀ p t, s.heap p = some t → p ≠ s.cpu.owner → t.status = .exited) : Last s := by
  refine ⟨fun p t ht => ?_, List.eq_nil_iff_forall_not_mem.2 fun p hp => ?_, hf⟩
  · split
    · next hp =>
      subst hp
      obtain ⟨u, hu, -, hst⟩ := stat_eq_some h.cur_stat
      rw [ht, Option.some.injEq] at hu
      rw [hu, hst]
    · next hp => exact hex p t ht hp
  · obtain ⟨t, ht, -, hst⟩ := stat_eq_some (h.ready_stat hp)
    rw [hex p t ht (h.ready_ne_owner hp)] at hst
    cases hst

end

/-- **No control block is leaked, unless `thread_create` overwrites one.** In every run, with any `thread_kill`, in
which no `thread_create` takes the slot of an exited thread, every allocated block is in exactly one slot of
`threads[]`; and when the running thread is the last one, as many yields as there are exited threads leave only its own
block. -/
theorem no_tcb_leaked (enabled : Bool) (s : State) (hrun : Run step freshSlot (threadInit enabled) s) :
    (∀ p, (s.heap p).isSome → ∃! i, s.threads i = some p) ∧
      (Last s → ∀ wants s', zombies s ≤ wants.length → yields s wants = .ok s' →
        s'.cpu.owner = s.cpu.owner ∧ ∀ p, (s'.heap p).isSome → p = s'.cpu.owner) := by
  have ho : Owned s := hrun.inv Owned (fun _ _ _ h hg hs => h.step hg hs) (owned_init enabled)
  refine ⟨fun p hp => ho.exactly_one hp, fun h wants s' hlen hs => ?_⟩
  obtain ⟨h', ho', hown, hz⟩ := h.yields ho hs
  exact ⟨hown, fun p hp => h'.only ho' (by omega) hp⟩

/-- thread 1 exits; the new thread takes its slot and its block is in no slot any more -/
theorem zombie_overwritten :
    ∃ s, Run step noKill (threadInit true) s ∧ (s.heap 1).isSome ∧ ∀ i, s.threads i ≠ some 1 := by
  have h : ∃ s, Run step noKill (threadInit true) s ∧
      decide ((s.heap 1).map Tcb.id = some 1 ∧ s.threads 1 = some 2) = true :=
    run_of_passes [.create true, .yield 1, .resume, .exit, .resume, .create true] (by decide +kernel)
  obtain ⟨s, hrun, hs⟩ := h
  obtain ⟨hid, hslot⟩ := of_decide_eq_true hs
  obtain ⟨t, ht, hid⟩ := Option.map_eq_some_iff.1 hid
  refine ⟨s, hrun, by rw [ht]; rfl, fun i hi => ?_⟩
  obtain ⟨u, hu, huid⟩ := (reachable_inv hrun).table.id i 1 hi
  rw [ht, Option.some.injEq] at hu
  rw [← huid, ← hu, hid, hslot] at hi
  cases hi

/-- two threads exit and are reclaimed by the yields of the last one -/
theorem no_tcb_leaked_two_exits :
    ∃ s s', Run step freshSlot (threadInit true) s ∧ zombies s = 1 ∧ yields s [threadAny] = .ok s' ∧
      ∀ p, (s'.heap p).isSome → p = s'.cpu.owner := by
  have h : ∃ s, Run step (fun s op => freshSlot s op && noKill s op) (threadInit true) s ∧
      (decide (s.cpu.frames = [] ∧ zombies s = 1 ∧ s.nextPtr = 3 ∧ (s.heap 1).all (fun t => t.status = .exited) ∧
        (s.heap 2).all (fun t => t.status = .exited) ∧ s.cpu.owner = 0) &&
        after (yields s [threadAny]) fun _ => true) = true :=
    run_of_passes [.create true, .create true, .yield 1, .resume, .exit, .resume, .exit, .resume]
      (by decide +kernel)
  obtain ⟨s, hrun, hs⟩ := h
  rw [Bool.and_eq_true] at hs
  obtain ⟨hf, hz, hn, h1, h2, hown⟩ := of_decide_eq_true hs.1
  obtain ⟨s', hs', -⟩ := exists_of_after hs.2
  have hinv : Inv s := reachable_inv (hrun.mono fun _ _ hg => (Bool.and_eq_true_iff.1 hg).2)
  have hfresh := hrun.mono fun _ _ hg => (Bool.and_eq_true_iff.1 hg).1
  have hcases : ∀ n : ℕ, n < 3 → n ≠ 0 → n = 1 ∨ n = 2 := by omega
  have hlast : Last s := last_of_exited hinv hf fun p t ht hne => by
    have hlt : p < 3 := by
      by_contra hge
      rw [hinv.table.fresh p (by rw [hn]; exact Nat.le_of_not_lt hge)] at ht; cases ht
    rw [hown] at hne
    obtain rfl | rfl := hcases p hlt hne
    · rw [ht] at h1; simpa using h1
    · rw [ht] at h2; simpa using h2
  refine ⟨s, s', hfresh, hz, hs', ?_⟩
  exact ((no_tcb_leaked true s hfresh).2 hlast [threadAny] s' (by rw [hz]; exact le_rfl) hs').2

end OsLab.Threads
