/-
What one step of the thread library can do.

`Effect` lists the kinds of steps with the dispatcher actions and the events of each; `Words` says what a step does to
the words of the locks. `step_spec` is the inversion lemma: a step from a state that satisfies `Inv` is of one of these
kinds, provided a `thread_kill` finds its victim in no queue but those of threads (`killSafe`).
-/
import Mathlib.Tactic
import OsLab.Threads.Calls

namespace OsLab.Threads

open OsLab.Lib Function State

/-- `p` is in the queue of a lock, of a condition variable or of a `wait_queue_create` -/
def inObjectQueue (s : State) (p : Ptr) : Bool :=
  (List.range s.nextObj).any fun n => p ∈ waiting s (.lock n) || p ∈ waiting s (.cv n) || p ∈ waiting s (.user n)

/-- a `thread_kill` finds its victim in no queue but, possibly, that of a thread -/
def killSafe (s : State) : Op → Bool
  | .kill tid => (s.threads tid).all fun p => !inObjectQueue s p
  | _ => true

def Op.destroys : Op → Bool
  | .waitQueueDestroy _ | .lockDestroy _ | .cvDestroy _ => true
  | _ => false

/-- no event, or one of the running thread that ends no thread and is no call of `thread_wait` -/
inductive Minor (s : State) : List Event → Prop
  | none : Minor s []
  | waitReturn (tid : Tid) : Minor s [.waitReturn s.cpu.owner tid]
  | acquireReturn (l : ℕ) : Minor s [.acquireReturn s.cpu.owner l]
  | releaseCall (l : ℕ) : Minor s [.releaseCall s.cpu.owner l]

inductive Effect (s : State) (op : Op) : List (Act Ptr QRef) → List Event → Prop
  | plain {acts : List (Act Ptr QRef)} {evs : List Event} :
      (∀ a ∈ acts, Plain a) → Minor s evs → Effect s op acts evs
  | exit {acts : List (Act Ptr QRef)} {t : Ptr} :
      Reclaims acts → Effect s op (acts ++ [.wakeAll (.thread s.cpu.owner), .retire t]) [.exited s.cpu.owner]
  | kill {acts : List (Act Ptr QRef)} {tid : Tid} {p : Ptr} :
      op = .kill tid → s.threads tid = some p → Reclaims acts →
      Effect s op ([.wakeAll (.thread p), .kill p] ++ acts) [.killed p]
  | wait {tid : Tid} {p t : Ptr} :
      op = .wait tid → s.threads tid = some p →
      Effect s op [.block (.thread p) t] [.waitCall s.cpu.owner tid p]
  /-- `thread_wait` when nobody is ready: `thread_sleep` returns at once -/
  | busyWait {tid : Tid} {p : Ptr} :
      op = .wait tid → s.threads tid = some p → p ≠ s.cpu.owner → s.readyQueue = [] →
      Effect s op [] [.waitCall s.cpu.owner tid p]
  | drop {r : QRef} : op.destroys → (∀ p, r ≠ .thread p) → Effect s op [.drop r] []

/-- no `lock_acquire` or `cv_wait` returns -/
def NoAcquire (evs : List Event) : Prop := ∀ c l, .acquireReturn c l ∉ evs

/-- `cv_wait` is not at its last line -/
def NoEnter (s : State) : Prop := ∀ e l, s.cpu.frames ≠ [.cvAcquire e l]

inductive Words (s s' : State) : List Event → Prop
  | keep {evs : List Event} : lockWord s' = lockWord s → NoAcquire evs → NoEnter s' → Words s s' evs
  | acquire {l : ℕ} : (∀ i, lockWord s l ≠ some (i, 1)) →
      lockWord s' = update (lockWord s) l (some (threadId s, 1)) → s'.cpu.owner = s.cpu.owner → s'.cpu.frames = [] →
      Words s s' [.acquireReturn s.cpu.owner l]
  /-- `cv_wait` gets the lock back and has still to return -/
  | reacquire {e : Bool} {l : ℕ} {evs : List Event} : (∀ i, lockWord s l ≠ some (i, 1)) →
      lockWord s' = update (lockWord s) l (some (threadId s, 1)) → s'.cpu.owner = s.cpu.owner →
      s'.cpu.frames = [.cvAcquire e l] → NoAcquire evs → Words s s' evs
  | enter {e : Bool} {l : ℕ} : s.cpu.frames = [.cvAcquire e l] → lockWord s' = lockWord s → s'.cpu.frames = [] →
      Words s s' [.acquireReturn s.cpu.owner l]
  | release {l : ℕ} : lockWord s l = some (threadId s, 1) →
      lockWord s' = update (lockWord s) l (some (threadId s, 0)) → NoEnter s' →
      Words s s' [.releaseCall s.cpu.owner l]
  | create {w : Option (Tid × ℕ)} : lockWord s' = update (lockWord s) s.nextObj w → s.nextObj < s'.nextObj →
      NoEnter s' → Words s s' []
  | destroy {l : ℕ} : (∀ i, lockWord s l ≠ some (i, 1)) → lockWord s' = update (lockWord s) l none → NoEnter s' →
      Words s s' []

/-- a step of one of the kinds -/
def Does (s : State) (op : Op) (s' : State) : Prop :=
  ∃ acts evs, Moves s s' acts evs ∧ Effect s op acts evs ∧ Words s s' evs

/-! ## Stacks and registers -/

theorem noEnter_of_saved {s : State} (h : savedStack s.cpu.frames) : NoEnter s := by
  intro e l hf
  rw [hf] at h
  simp [savedStack] at h

theorem noEnter_of_nil {s : State} (h : s.cpu.frames = []) : NoEnter s := by
  intro e l hf
  rw [h] at hf; cases hf

theorem noAcquire_nil : NoAcquire [] := by intro c l h; cases h

theorem threadId_congr {s s' : State} (hh : s'.heap = s.heap) (ht : s'.threads = s.threads) :
    threadId s' = threadId s := by
  unfold threadId State.tcbAt; rw [hh, ht]

/-- what a popped stack looks like -/
theorem liveStack_pop {f : Frame} {fs : List Frame} (h : liveStack (f :: fs)) : liveStack fs := by
  unfold liveStack at h
  split at h <;> simp_all [liveStack]
  unfold savedStack at h
  split at h <;> simp_all

/-- the same state with other registers, result and further events -/
theorem moves_regs {s : State} (h : Inv s) (cpu : Context) (ret : Option ℤ) (evs : List Event)
    (hown : cpu.owner = s.cpu.owner) (hlive : liveStack cpu.frames) :
    Moves s { s with cpu := cpu, ret := ret, log := s.log ++ evs } [] evs := by
  exact moves_refl { s with cpu := cpu, ret := ret, log := s.log ++ evs } h.table rfl rfl rfl
    (fun r => by cases r <;> rfl) hown hlive rfl le_rfl h.table.objs rfl

theorem moves_regs_quiet {s : State} (h : Inv s) (cpu : Context) (ret : Option ℤ)
    (hown : cpu.owner = s.cpu.owner) (hlive : liveStack cpu.frames) :
    Moves s { s with cpu := cpu, ret := ret } [] [] := by
  have := moves_regs h cpu ret [] hown hlive
  rwa [List.append_nil] at this

/-- a step that is a list of plain actions and leaves the locks alone -/
theorem does_plain {s s' : State} {op : Op} {acts : List (Act Ptr QRef)} {evs : List Event} (hm : Moves s s' acts evs)
    (hp : ∀ a ∈ acts, Plain a) (he : Minor s evs) (hw : lockWord s' = lockWord s) (hn : NoAcquire evs)
    (hf : NoEnter s') : Does s op s' :=
  ⟨acts, evs, hm, .plain hp he, .keep hw hn hf⟩

theorem does_quiet {s s' : State} {op : Op} {acts : List (Act Ptr QRef)} (hm : Moves s s' acts [])
    (hp : ∀ a ∈ acts, Plain a) (hw : lockWord s' = lockWord s) (hf : NoEnter s') : Does s op s' :=
  does_plain hm hp .none hw noAcquire_nil hf

/-! ## Wakeups of queues that belong to no thread -/

theorem queueAt_ok {s : State} {r : QRef} {q : List Ptr} (h : s.queueAt r = .ok q) : s.queue r = some q := by
  unfold State.queueAt at h
  split at h
  · next q' hq => cases h; exact hq
  · cases h

theorem plain_wake {r : QRef} (hr : ∀ p, r ≠ .thread p) (all : Bool) :
    Plain (if all then .wakeAll r else .wakeOne r : Act Ptr QRef) := by
  cases r with
  | thread p => exact absurd rfl (hr p)
  | lock | cv | user => cases all <;> trivial

/-- `thread_wakeup` of an existing queue that belongs to no thread -/
theorem threadWakeup_acts {s : State} (h : Inv s) {r : QRef} (hr : ∀ p, r ≠ .thread p) {q : List Ptr}
    (hq : s.queue r = some q) (all : Bool) :
    ∃ s', threadWakeup s r all = .ok s' ∧ Moves s s' [if all then .wakeAll r else .wakeOne r] [] ∧ Edits s s' := by
  have hreach : Reaches s r q := ⟨hq, fun p hp => absurd hp (hr p)⟩
  have hb : ∀ y ∈ q, stat s y = some .blocked := by
    intro y hy
    exact h.wait_stat r y (by rw [hreach.waiting]; exact hy)
  have hnd : q.Nodup := by rw [← hreach.waiting]; exact h.wait_nodup r
  cases all with
  | true =>
    obtain ⟨s1, hs1, he, ht, hv⟩ := threadWakeup_all h.table hreach hb hnd
    refine ⟨s1, hs1, he.moves ht h.live ?_ (by simp), he⟩
    rw [hv]; exact .single trivial
  | false =>
    obtain ⟨s1, hs1, he, ht, hv⟩ := threadWakeup_one h.table hreach hb
    refine ⟨s1, hs1, he.moves ht h.live ?_ (by simp), he⟩
    rw [hv]; exact .single trivial

theorem threadWakeup_spec {s s' : State} (h : Inv s) {r : QRef} (hr : ∀ p, r ≠ .thread p) {all : Bool}
    (hs : threadWakeup s r all = .ok s') : ∃ a, Moves s s' [a] [] ∧ Plain a ∧ Edits s s' := by
  cases hq : s.queue r with
  | none =>
    have : s.interruptsOff.queue r = none := by cases r <;> exact hq
    simp [threadWakeup, State.queueAt, this] at hs
  | some q =>
    obtain ⟨s1, hs1, hm, he⟩ := threadWakeup_acts h hr hq all
    rw [hs1, Except.ok.injEq] at hs
    subst hs
    exact ⟨_, hm, plain_wake hr all, he⟩

/-! ## Locks -/

theorem lockAt_eq {s : State} {l : ℕ} {k : Lock} (h : lockAt s l = .ok k) : s.locks l = some k := by
  unfold lockAt at h
  split at h
  · rename_i k' hk; cases h; exact hk
  · cases h

/-- the state after writing the words of lock `l` -/
def setWords (s : State) (l : ℕ) (k : Lock) : State := { s with locks := Function.update s.locks l (some k) }

theorem moves_setWords {s : State} (h : Inv s) {l : ℕ} {k : Lock} (k' : Lock) (hk : s.locks l = some k)
    (hq : k'.queue = k.queue) : Moves s (setWords s l k') [] [] := by
  refine moves_refl (setWords s l k') h.table rfl rfl rfl (fun r => ?_) rfl h.live rfl le_rfl (fun n hn => ?_)
    (List.append_nil _).symm
  · cases r with
    | lock l' =>
      by_cases hl : l' = l
      · subst hl; simp [State.queue, setWords, hk, hq]
      · simp [State.queue, setWords, update_of_ne hl]
    | thread | cv | user => rfl
  · obtain ⟨h1, h2, h3⟩ := h.table.objs n hn
    have hne : n ≠ l := by rintro rfl; rw [hk] at h1; cases h1
    exact ⟨by simp [setWords, update_of_ne hne, h1], h2, h3⟩

theorem lockWord_setWords (s : State) (l : ℕ) (k : Lock) :
    lockWord (setWords s l k) = update (lockWord s) l (some (k.thread, k.acquired)) := by
  funext l'
  by_cases hl : l' = l
  · subst hl; simp [lockWord, setWords]
  · simp [lockWord, setWords, update_of_ne hl]

/-- `lock_release` by the thread in the word of an acquired lock frees the lock and wakes everybody -/
theorem lockRelease_held {s : State} (h : Inv s) {l : ℕ} (hw : lockWord s l = some (threadId s, 1)) :
    ∃ s', lockRelease s l = .ok s' ∧ Moves s s' [.wakeAll (.lock l)] [] ∧ s'.cpu = s.cpu ∧
      lockWord s' = update (lockWord s) l (some (threadId s, 0)) := by
  simp only [lockWord, Option.map_eq_some_iff, Prod.mk.injEq] at hw
  obtain ⟨k, hk, hthr, hacq⟩ := hw
  have hat : lockAt s.interruptsOff l = .ok k := by
    have : s.interruptsOff.locks l = some k := hk
    simp [lockAt, this]
  have hid : threadId s.interruptsOff = threadId s := threadId_congr rfl rfl
  set k' : Lock := { k with acquired := 0 } with hk'
  have hm0 : Moves s (setWords s.interruptsOff l k') [] [] := (moves_setWords h.off k' hk rfl).of_off
  have hq : (setWords s.interruptsOff l k').queue (.lock l) = some k.queue := by simp [State.queue, setWords, hk']
  obtain ⟨s1, hs1, hm, he⟩ := threadWakeup_acts (hm0.inv h) (by simp) hq true
  refine ⟨s1.returns s.cpu.enabled none, ?_, (hm0.trans hm).returns _ _, ?_, ?_⟩
  · unfold setWords at hs1
    simp only [lockRelease, hat, ok_bind, hid, ← hk', hs1, pure_eq_ok, if_pos (And.intro hacq hthr.symm)]
  · show { s1.cpu with enabled := s.cpu.enabled } = s.cpu
    rw [he.cpu]; rfl
  · show lockWord s1 = _
    rw [he.lockWord, ← hthr]
    exact lockWord_setWords s.interruptsOff l k'

/-- `lock_release` by the thread in the lock word frees the lock and wakes everybody; by another it does nothing -/
theorem lockRelease_cases {s s' : State} (h : Inv s) {l : ℕ} (hs : lockRelease s l = .ok s') :
    (s' = s.interruptsOff.returns s.cpu.enabled none ∧ lockWord s l ≠ some (threadId s, 1)) ∨
      ∃ a, Moves s s' [a] [] ∧ Plain a ∧ s'.cpu = s.cpu ∧ lockWord s l = some (threadId s, 1) ∧
        lockWord s' = update (lockWord s) l (some (threadId s, 0)) := by
  by_cases hw : lockWord s l = some (threadId s, 1)
  · obtain ⟨s1, hs1, hm, hcpu, hw'⟩ := lockRelease_held h hw
    rw [hs1, Except.ok.injEq] at hs
    subst hs
    exact Or.inr ⟨_, hm, plain_wake (by simp) true, hcpu, hw, hw'⟩
  · left
    unfold lockRelease at hs
    simp only [bind_eq_ok] at hs
    obtain ⟨k, hk, hs⟩ := hs
    have hk' : s.locks l = some k := lockAt_eq hk
    split at hs
    · rename_i hc
      obtain ⟨hacq, hid⟩ := hc
      have hid' : k.thread = threadId s := hid.symm
      exact absurd (by simp [lockWord, hk', hacq, hid']) hw
    · cases hs
      exact ⟨rfl, hw⟩

/-- one turn of the loop of `lock_acquire`: take the lock or sleep -/
theorem lockTry_cases {s s' : State} (h : Inv s) {e : Bool} {l : ℕ}
    (hstack : ∀ b i, savedStack (.sleep b i :: .lockAcquire e l :: s.cpu.frames))
    (hlive : liveStack (.lockAcquire e l :: s.cpu.frames)) (hs : lockTry s e l = .ok s') :
    (∃ evs, Moves s s' [] evs ∧ (∀ i, lockWord s l ≠ some (i, 1)) ∧
      lockWord s' = update (lockWord s) l (some (threadId s, 1)) ∧ s'.cpu.owner = s.cpu.owner ∧
      s'.cpu.frames = s.cpu.frames ∧
      ((s.cpu.frames = [] ∧ evs = [.acquireReturn s.cpu.owner l]) ∨ (s.cpu.frames ≠ [] ∧ evs = []))) ∨
    (∃ acts, Moves s s' acts [] ∧ (∀ a ∈ acts, Plain a) ∧ lockWord s' = lockWord s ∧ NoEnter s') := by
  unfold lockTry at hs
  simp only [bind_eq_ok] at hs
  obtain ⟨k, hk, hs⟩ := hs
  have hk' := lockAt_eq hk
  split at hs
  · right
    set s0 := s.push (.lockAcquire e l) with hs0
    have hm0 : Moves s s0 [] [] := moves_regs_quiet h s0.cpu s.ret rfl hlive
    have hne : ∀ b l', (.lockAcquire e l :: s.cpu.frames) ≠ [.cvAcquire b l'] := by simp
    rcases threadSleep_cases (hm0.inv h) (by simp) (by simp) hstack hs with ⟨-, rfl⟩ | ⟨t, hm, hw, hsv⟩
    · have hm1 := ((moves_self (hm0.inv h).off).of_off.returns s0.cpu.enabled (some threadNone))
      exact ⟨[], hm0.trans hm1, by simp, rfl, hne⟩
    · refine ⟨[.block (.lock l) t], hm0.trans hm, ?_, hw, noEnter_of_saved hsv⟩
      intro a ha
      rw [List.mem_singleton.1 ha]; trivial
  · rename_i hacq
    left
    simp only [pure_eq_ok, Except.ok.injEq] at hs
    subst hs
    generalize threadId s = i
    set k' : Lock := { k with acquired := 1, thread := i } with hkk
    have hm0 : Moves s (setWords s l k') [] [] := moves_setWords h k' hk' rfl
    have hword : lockWord (setWords s l k') = update (lockWord s) l (some (i, 1)) := lockWord_setWords s l k'
    have hfree : ∀ i, lockWord s l ≠ some (i, 1) := by
      intro i hi
      simp only [lockWord, hk', Option.map_some, Option.some.injEq, Prod.mk.injEq] at hi
      exact hacq hi.2
    by_cases hf : s.cpu.frames = []
    · refine ⟨[.acquireReturn s.cpu.owner l], ?_, hfree, ?_, ?_, ?_, Or.inl ⟨hf, rfl⟩⟩
      · have hm1 := moves_regs (hm0.inv h) { s.cpu with enabled := e } none [.acquireReturn s.cpu.owner l] rfl h.live
        simp only [if_pos hf]
        exact hm0.trans hm1
      all_goals simp only [if_pos hf]
      · exact hword
      · rfl
      · rfl
    · refine ⟨[], ?_, hfree, ?_, ?_, ?_, Or.inr ⟨hf, rfl⟩⟩
      · simp only [if_neg hf]
        exact hm0.returns e none
      all_goals simp only [if_neg hf]
      · exact hword
      · rfl
      · rfl

/-- a turn of `lock_acquire` as a step: from the state `s0` in which `lock_acquire` was entered or continued -/
theorem does_lockTry {s s0 s' : State} {op : Op} {e : Bool} {l : ℕ} {evs0 : List Event} (h : Inv s)
    (hm0 : Moves s s0 [] evs0) (hev : Minor s evs0) (hna : NoAcquire evs0) (hheap : s0.heap = s.heap)
    (hthr : s0.threads = s.threads) (hlocks : s0.locks = s.locks) (hown : s0.cpu.owner = s.cpu.owner)
    (hfr : (s0.cpu.frames = [] ∧ evs0 = []) ∨ ∃ b, s0.cpu.frames = [.cvAcquire b l]) (hs : lockTry s0 e l = .ok s') :
    Does s op s' := by
  have hw0 : lockWord s0 = lockWord s := by funext x; simp only [lockWord, hlocks]
  have hid0 : threadId s0 = threadId s := threadId_congr hheap hthr
  have hstack : ∀ b i, savedStack (.sleep b i :: .lockAcquire e l :: s0.cpu.frames) := by
    intro b i
    rcases hfr with ⟨hf, -⟩ | ⟨b', hf⟩ <;> rw [hf] <;> simp [savedStack]
  have hlive : liveStack (.lockAcquire e l :: s0.cpu.frames) := by
    rcases hfr with ⟨hf, -⟩ | ⟨b', hf⟩ <;> rw [hf] <;> simp [liveStack]
  rcases lockTry_cases (hm0.inv h) hstack hlive hs with ⟨evs, hm, hfree, hw, how, hf, hev'⟩ | ⟨acts, hm, hp, hw, hne⟩
  · rw [hw0] at hfree
    rw [hid0, hw0] at hw
    rw [hown] at how
    rcases hfr with ⟨hf0, rfl⟩ | ⟨b, hf0⟩
    · rcases hev' with ⟨-, rfl⟩ | ⟨hne, -⟩
      · rw [hown] at hm
        exact ⟨[], [.acquireReturn s.cpu.owner l], hm0.trans hm, .plain (by simp) (.acquireReturn l),
          .acquire hfree hw how (hf.trans hf0)⟩
      · exact absurd hf0 hne
    · rcases hev' with ⟨hnil, -⟩ | ⟨-, rfl⟩
      · rw [hf0] at hnil; cases hnil
      · have hm' : Moves s s' [] evs0 := by simpa using hm0.trans hm
        exact ⟨[], evs0, hm', .plain (by simp) hev, .reacquire hfree hw how (hf.trans hf0) hna⟩
  · have hm' : Moves s s' acts evs0 := by simpa using hm0.trans hm
    exact does_plain hm' hp hev (hw.trans hw0) hna hne

theorem noAcquire_release {p : Ptr} {l : ℕ} : NoAcquire [.releaseCall p l] := by
  intro c l' he
  simp at he

/-- recording the call of `lock_release` or `cv_wait` -/
theorem moves_release {s : State} (h : Inv s) (l : ℕ) :
    Moves s (s.record (.releaseCall s.cpu.owner l)) [] [.releaseCall s.cpu.owner l] :=
  moves_regs h s.cpu s.ret [.releaseCall s.cpu.owner l] rfl h.live

theorem does_lockRelease {s s' : State} (h : Inv s) (hf : s.cpu.frames = []) {l : ℕ}
    (hs : lockRelease (s.record (.releaseCall s.cpu.owner l)) l = .ok s') : Does s (.lockRelease l) s' := by
  have hm0 := moves_release h l
  have hid : threadId (s.record (.releaseCall s.cpu.owner l)) = threadId s := threadId_congr rfl rfl
  rcases lockRelease_cases (hm0.inv h) hs with ⟨rfl, -⟩ | ⟨a, hm, hp, hcpu, hw, hw'⟩
  · have hm1 := (moves_self (hm0.inv h).off).of_off.returns s.cpu.enabled none
    exact does_plain (hm0.trans hm1) (by simp) (.releaseCall l) rfl noAcquire_release (noEnter_of_nil hf)
  · rw [hid] at hw hw'
    refine ⟨[a], _, hm0.trans hm, .plain ?_ (.releaseCall l), .release hw hw' (noEnter_of_nil ?_)⟩
    · intro b hb
      rw [List.mem_singleton.1 hb]; exact hp
    · rw [hcpu]; exact hf

/-- the branch of `cv_wait` taken by the thread in the lock word: release, then sleep on the condition variable -/
theorem does_cvSleep {s s' s2 : State} (h : Inv s) (hf : s.cpu.frames = []) {c l : ℕ}
    (hr : lockRelease (s.record (.releaseCall s.cpu.owner l)).interruptsOff l = .ok s2)
    (hs : threadSleep (s2.push (.cvSleep s.cpu.enabled l)) (.cv c) = .ok s') : Does s (.cvWait c l) s' := by
  have hm0 := moves_release h l
  have hm1 : Moves s (s.record (.releaseCall s.cpu.owner l)).interruptsOff [] [.releaseCall s.cpu.owner l] :=
    hm0.trans (moves_self (hm0.inv h).off).of_off
  have hid : threadId (s.record (.releaseCall s.cpu.owner l)).interruptsOff = threadId s := threadId_congr rfl rfl
  -- the release
  have hrel : ∃ acts, Moves s s2 acts [.releaseCall s.cpu.owner l] ∧ (∀ a ∈ acts, Plain a) ∧ s2.cpu.frames = [] ∧
      (lockWord s2 = lockWord s ∨ (lockWord s l = some (threadId s, 1) ∧
        lockWord s2 = update (lockWord s) l (some (threadId s, 0)))) := by
    rcases lockRelease_cases (hm1.inv h) hr with ⟨rfl, -⟩ | ⟨a, hm, hp, hcpu, hw, hw'⟩
    · refine ⟨[], hm1.trans ((moves_self (hm1.inv h).off).of_off.returns _ none), by simp, hf, Or.inl rfl⟩
    · rw [hid] at hw hw'
      refine ⟨[a], hm1.trans hm, ?_, by rw [hcpu]; exact hf, Or.inr ⟨hw, hw'⟩⟩
      intro b hb
      rw [List.mem_singleton.1 hb]; exact hp
  obtain ⟨acts, hm2, hp2, hf2, hw2⟩ := hrel
  -- the sleep
  set s3 := s2.push (.cvSleep s.cpu.enabled l) with hs3
  have hframes3 : s3.cpu.frames = [.cvSleep s.cpu.enabled l] := by simp [hs3, State.push, hf2]
  have hm3 : Moves s2 s3 [] [] := moves_regs_quiet (hm2.inv h) s3.cpu s2.ret rfl (by rw [hframes3]; rfl)
  have hsleep : ∃ acts', Moves s3 s' acts' [] ∧ (∀ a ∈ acts', Plain a) ∧ lockWord s' = lockWord s2 ∧ NoEnter s' := by
    rcases threadSleep_cases (hm3.inv (hm2.inv h)) (by simp) (by simp) (fun e i => by rw [hframes3]; rfl) hs with
      ⟨-, rfl⟩ | ⟨t, hm, hw, hsv⟩
    · refine ⟨[], (moves_self (hm3.inv (hm2.inv h)).off).of_off.returns _ _, by simp, rfl, ?_⟩
      intro b l' he
      have : s3.cpu.frames = [.cvAcquire b l'] := he
      rw [hframes3] at this; simp at this
    · refine ⟨[.block (.cv c) t], hm, ?_, hw, noEnter_of_saved hsv⟩
      intro a ha
      rw [List.mem_singleton.1 ha]; trivial
  obtain ⟨acts', hm4, hp4, hw4, hne4⟩ := hsleep
  have hmoves : Moves s s' (acts ++ ([] ++ acts')) [.releaseCall s.cpu.owner l] := by
    have := hm2.trans (hm3.trans hm4)
    simpa using this
  have hplain : ∀ a ∈ acts ++ ([] ++ acts'), Plain a := by
    intro a ha
    simp only [List.nil_append, List.mem_append] at ha
    rcases ha with ha | ha
    · exact hp2 a ha
    · exact hp4 a ha
  rcases hw2 with hw2 | ⟨hheld, hw2⟩
  · exact does_plain hmoves hplain (.releaseCall l) (hw4.trans hw2) noAcquire_release hne4
  · exact ⟨_, _, hmoves, .plain hplain (.releaseCall l), .release hheld (hw4.trans hw2) hne4⟩

theorem does_cvWait {s s' : State} (h : Inv s) (hf : s.cpu.frames = []) {c l : ℕ}
    (hs : cvWait (s.record (.releaseCall s.cpu.owner l)) c l = .ok s') : Does s (.cvWait c l) s' := by
  unfold cvWait at hs
  simp only [bind_eq_ok] at hs
  obtain ⟨k, hk, hs⟩ := hs
  split at hs
  · simp only [bind_eq_ok] at hs
    obtain ⟨s2, hs2, hs⟩ := hs
    exact does_cvSleep h hf hs2 hs
  · have hm0 := moves_release h l
    set s1 := ((s.record (.releaseCall s.cpu.owner l)).interruptsOff.push (.cvAcquire s.cpu.enabled l)).interruptsOff
      with hs1
    have hframes : s1.cpu.frames = [.cvAcquire s.cpu.enabled l] := by
      simp [hs1, State.interruptsOff, State.push, State.record, hf]
    have hm1 : Moves s s1 [] [.releaseCall s.cpu.owner l] :=
      hm0.trans (moves_regs_quiet (hm0.inv h) s1.cpu s.ret rfl (by rw [hframes]; rfl))
    exact does_lockTry h hm1 (.releaseCall l) noAcquire_release rfl rfl rfl rfl (Or.inr ⟨_, hframes⟩) hs

/-- `cv_signal` and `cv_broadcast` -/
theorem does_cvWake {s s' : State} {op : Op} (h : Inv s) (hf : s.cpu.frames = []) {all : Bool} {c l : ℕ}
    (hs : cvWake all s c l = .ok s') : Does s op s' := by
  unfold cvWake at hs
  simp only [bind_eq_ok] at hs
  obtain ⟨k, hk, hs⟩ := hs
  split at hs
  · simp only [bind_eq_ok, pure_eq_ok, Except.ok.injEq] at hs
    obtain ⟨s1, hs1, rfl⟩ := hs
    obtain ⟨a, hm, hp, he⟩ := threadWakeup_spec h.off (by simp) hs1
    refine does_quiet (hm.of_off.returns _ _) ?_ he.lockWord (noEnter_of_nil ?_)
    · intro b hb
      rw [List.mem_singleton.1 hb]; exact hp
    · show s1.cpu.frames = []
      rw [he.cpu]; exact hf
  · cases hs
    exact does_quiet ((moves_self h.off).of_off.returns _ _) (by simp) rfl (noEnter_of_nil hf)

/-! ## Objects -/

theorem waiting_drop {s s' : State} {r : QRef} (hheap : s'.heap = s.heap) (hthr : s'.threads = s.threads)
    (hq : ∀ r', s'.queue r' = if r' = r then none else s.queue r') :
    waiting s' = update (waiting s) r [] := by
  have hstat : stat s' = stat s := by funext x; exact stat_congr (by rw [hheap]) hthr
  funext r'
  by_cases hr : r' = r
  · subst hr
    rw [update_self]
    cases r' <;> simp [waiting, hq]
  · rw [update_of_ne hr]
    cases r' <;> simp only [waiting, hstat, hq, if_neg hr]

/-- destroying a queue: whoever waits there stays blocked -/
theorem moves_drop {s : State} (h : Inv s) (s' : State) {r : QRef} (hr : ∀ p, r ≠ .thread p) (hheap : s'.heap = s.heap)
    (hthr : s'.threads = s.threads) (hready : s'.readyQueue = s.readyQueue) (hcpu : s'.cpu = s.cpu)
    (hq : ∀ r', s'.queue r' = if r' = r then none else s.queue r') (hlog : s'.log = s.log)
    (hnp : s'.nextPtr = s.nextPtr) (hno : s'.nextObj = s.nextObj)
    (hobjs : ∀ n, s.nextObj ≤ n → s'.locks n = none ∧ s'.cvs n = none ∧ s'.waitQueues n = none) :
    Moves s s' [.drop r] [] := by
  have hstat : stat s' = stat s := by funext x; exact stat_congr (by rw [hheap]) hthr
  have hwait := waiting_drop hheap hthr hq
  have hview : view s' = (view s).apply (.drop r) := by
    simp only [view, hstat, hwait, hready, hcpu]; rfl
  refine ⟨by rw [hview]; exact .single trivial, ?_, by rw [hcpu]; exact h.live, by rw [hlog, List.append_nil], hnp.ge,
    hno.ge, by simp, fun x t' _ ht' => ⟨t', by rw [← hheap]; exact ht', rfl⟩⟩
  refine ⟨by rw [hthr]; exact h.table.range, by rw [hthr, hheap]; exact h.table.id,
    by rw [hheap, hnp]; exact h.table.fresh,
    by rw [hheap]; exact h.table.owner, by rw [hheap, hstat]; exact h.table.saved, fun x => ?_,
    by rw [hno]; exact hobjs⟩
  rw [hwait, update_of_ne (Ne.symm (hr x))]
  exact h.table.noSelf x

theorem does_waitQueueDestroy {s s' : State} (h : Inv s) (hf : s.cpu.frames = []) {w : ℕ}
    (hs : waitQueueDestroy s w = .ok s') : Does s (.waitQueueDestroy w) s' := by
  unfold waitQueueDestroy at hs
  simp only [bind_eq_ok, pure_eq_ok, Except.ok.injEq] at hs
  obtain ⟨q, -, -, -, rfl⟩ := hs
  refine ⟨[.drop (.user w)], [], moves_drop h _ (by simp) rfl rfl rfl rfl (fun r' => ?_) rfl rfl rfl (fun n hn => ?_),
    .drop rfl (by simp), .keep rfl noAcquire_nil (noEnter_of_nil hf)⟩
  · cases r' with
    | user w' =>
      by_cases hw : w' = w
      · subst hw; simp [State.queue]
      · simp [State.queue, hw]
    | thread | lock | cv => simp [State.queue]
  · obtain ⟨h1, h2, h3⟩ := h.table.objs n hn
    exact ⟨h1, h2, by simp [update_apply, h3]⟩

theorem does_lockDestroy {s s' : State} (h : Inv s) (hf : s.cpu.frames = []) {l : ℕ}
    (hs : lockDestroy s l = .ok s') : Does s (.lockDestroy l) s' := by
  unfold lockDestroy at hs
  simp only [bind_eq_ok] at hs
  obtain ⟨k, hk, hs⟩ := hs
  have hk' := lockAt_eq hk
  split at hs
  · rename_i hacq
    simp only [bind_eq_ok, pure_eq_ok, Except.ok.injEq] at hs
    obtain ⟨-, -, rfl⟩ := hs
    refine ⟨[.drop (.lock l)], [], moves_drop h _ (by simp) rfl rfl rfl rfl (fun r' => ?_) rfl rfl rfl (fun n hn => ?_),
      .drop rfl (by simp), .destroy (l := l) (fun i hi => ?_) ?_ (noEnter_of_nil hf)⟩
    · cases r' with
      | lock l' =>
        by_cases hl : l' = l
        · subst hl; simp [State.queue]
        · simp [State.queue, hl]
      | thread | user | cv => simp [State.queue]
    · obtain ⟨h1, h2, h3⟩ := h.table.objs n hn
      exact ⟨by simp [update_apply, h1], h2, h3⟩
    · simp [lockWord, hk', hacq] at hi
    · funext l'
      by_cases hl : l' = l
      · subst hl; simp [lockWord]
      · simp [lockWord, update_of_ne hl]
  · cases hs
    exact does_quiet (moves_regs_quiet h s.cpu none rfl h.live) (by simp) rfl (noEnter_of_nil hf)

theorem does_cvDestroy {s s' : State} (h : Inv s) (hf : s.cpu.frames = []) {c : ℕ}
    (hs : cvDestroy s c = .ok s') : Does s (.cvDestroy c) s' := by
  unfold cvDestroy at hs
  simp only [bind_eq_ok] at hs
  obtain ⟨q, hq, hs⟩ := hs
  split at hs
  · cases hs
    refine ⟨[.drop (.cv c)], [], moves_drop h _ (by simp) rfl rfl rfl rfl (fun r' => ?_) rfl rfl rfl (fun n hn => ?_),
      .drop rfl (by simp), .keep rfl noAcquire_nil (noEnter_of_nil hf)⟩
    · cases r' with
      | cv c' =>
        by_cases hc : c' = c
        · subst hc; simp [State.queue]
        · simp [State.queue, hc]
      | thread | lock | user => simp [State.queue]
    · obtain ⟨h1, h2, h3⟩ := h.table.objs n hn
      exact ⟨h1, by simp [update_apply, h2], h3⟩
  · cases hs
    exact does_quiet (moves_regs_quiet h s.cpu none rfl h.live) (by simp) rfl (noEnter_of_nil hf)

/-- a new object has an empty queue -/
theorem moves_create {s : State} (h : Inv s) (s' : State) {r : QRef} (hnone : s.queue r = none)
    (hheap : s'.heap = s.heap) (hthr : s'.threads = s.threads) (hready : s'.readyQueue = s.readyQueue)
    (hcpu : s'.cpu = s.cpu) (hq : ∀ r', s'.queue r' = if r' = r then some [] else s.queue r') (hlog : s'.log = s.log)
    (hnp : s'.nextPtr = s.nextPtr) (hno : s'.nextObj = s.nextObj + 1)
    (hobjs : ∀ n, s.nextObj + 1 ≤ n → s'.locks n = none ∧ s'.cvs n = none ∧ s'.waitQueues n = none) :
    Moves s s' [] [] := by
  refine moves_refl s' h.table hheap hthr hready (fun r' => ?_) (by rw [hcpu]) (by rw [hcpu]; exact h.live) hnp
    (by rw [hno]; omega) (by rw [hno]; exact hobjs) (by rw [hlog, List.append_nil])
  rw [hq]
  split
  · rename_i hr
    rw [hr, hnone]; rfl
  · rfl

theorem Table.objs_succ {s : State} (h : Table s) {n : ℕ} (hn : s.nextObj + 1 ≤ n) :
    n ≠ s.nextObj ∧ s.locks n = none ∧ s.cvs n = none ∧ s.waitQueues n = none := by
  obtain ⟨h1, h2, h3⟩ := h.objs n (by omega)
  exact ⟨by omega, h1, h2, h3⟩

theorem does_waitQueueCreate {s s' : State} (h : Inv s) (hf : s.cpu.frames = []) (hs : waitQueueCreate s = .ok s') :
    Does s .waitQueueCreate s' := by
  cases hs
  obtain ⟨-, -, hw⟩ := h.table.objs s.nextObj le_rfl
  refine does_quiet (moves_create (r := .user s.nextObj) h _ (by simp [State.queue, hw]) rfl rfl rfl rfl
    (fun r' => ?_) rfl rfl rfl
    fun n hn => ?_) (by simp) rfl (noEnter_of_nil hf)
  · cases r' with
    | user w' => simp only [State.queue, update_apply, QRef.user.injEq]
    | thread | lock | cv => simp [State.queue]
  · obtain ⟨hne, h1, h2, h3⟩ := h.table.objs_succ hn
    exact ⟨h1, h2, by simp [update_of_ne hne, h3]⟩

theorem does_cvCreate {s s' : State} (h : Inv s) (hf : s.cpu.frames = []) (hs : cvCreate s = .ok s') :
    Does s .cvCreate s' := by
  cases hs
  obtain ⟨-, hc, -⟩ := h.table.objs s.nextObj le_rfl
  refine does_quiet (moves_create (r := .cv s.nextObj) h _ (by simp [State.queue, hc]) rfl rfl rfl rfl
    (fun r' => ?_) rfl rfl rfl
    fun n hn => ?_) (by simp) rfl (noEnter_of_nil hf)
  · cases r' with
    | cv c' => simp only [State.queue, update_apply, QRef.cv.injEq]
    | thread | lock | user => simp [State.queue]
  · obtain ⟨hne, h1, h2, h3⟩ := h.table.objs_succ hn
    exact ⟨h1, by simp [update_of_ne hne, h2], h3⟩

theorem does_lockCreate {s s' : State} (h : Inv s) (hf : s.cpu.frames = []) {garbage : Tid}
    (hs : lockCreate s garbage = .ok s') : Does s (.lockCreate garbage) s' := by
  cases hs
  obtain ⟨hl, -, -⟩ := h.table.objs s.nextObj le_rfl
  refine ⟨[], [], moves_create (r := .lock s.nextObj) h _ (by simp [State.queue, hl]) rfl rfl rfl rfl
    (fun r' => ?_) rfl rfl rfl
    fun n hn => ?_, .plain (by simp) .none, .create (w := some (garbage, 0)) ?_ (Nat.lt_succ_self _)
      (noEnter_of_nil hf)⟩
  · cases r' with
    | lock l' =>
      by_cases hll : l' = s.nextObj
      · subst hll; simp [State.queue]
      · simp [State.queue, hll]
    | thread | cv | user => simp [State.queue]
  · obtain ⟨hne, h1, h2, h3⟩ := h.table.objs_succ hn
    exact ⟨by simp [update_of_ne hne, h1], h2, h3⟩
  · funext l'
    by_cases hll : l' = s.nextObj
    · subst hll; simp [lockWord]
    · simp [lockWord, update_of_ne hll]

/-! ## Waiting and sleeping -/

/-- `thread_sleep` called by user code on a queue that belongs to no thread -/
theorem does_sleep {s s' : State} {op : Op} (h : Inv s) (hf : s.cpu.frames = []) {w : ℕ}
    (hs : threadSleep s (.user w) = .ok s') : Does s op s' := by
  rcases threadSleep_cases h (by simp) (by simp) (fun e i => by rw [hf]; rfl) hs with ⟨-, rfl⟩ | ⟨t, hm, hw, hsv⟩
  · exact does_quiet ((moves_self h.off).of_off.returns _ _) (by simp) rfl (noEnter_of_nil hf)
  · refine does_quiet hm ?_ hw (noEnter_of_saved hsv)
    intro a ha
    rw [List.mem_singleton.1 ha]; trivial

theorem does_wait {s s' : State} (h : Inv s) (hf : s.cpu.frames = []) {tid : Tid} (hs : threadWait s tid = .ok s') :
    Does s (.wait tid) s' := by
  unfold threadWait at hs
  simp only at hs
  split at hs
  · cases hs
    exact does_quiet ((moves_self h.off).of_off.returns _ _) (by simp) rfl (noEnter_of_nil hf)
  · rename_i hv
    have hv' : validTid s.interruptsOff tid = true := by simpa using hv
    obtain ⟨p, hp, hne⟩ := (validTid_iff h.off).1 hv'
    simp only [slot_eq hp, ok_bind] at hs
    set ev : Event := .waitCall s.cpu.owner tid p with hevdef
    set s1 := (s.interruptsOff.record ev).push (.wait s.cpu.enabled tid) with hs1
    have hframes : s1.cpu.frames = [.wait s.cpu.enabled tid] := by
      simp [hs1, State.push, State.record, State.interruptsOff, hf]
    have hm1 : Moves s s1 [] [ev] := moves_regs h s1.cpu s.ret [ev] rfl (by rw [hframes]; rfl)
    have hp' : s.threads tid = some p := hp
    have hsome : (stat s1 p).isSome := by
      obtain ⟨t, -, -, hst⟩ := h.table.stat_slot hp'
      have : stat s1 p = stat s p := stat_congr rfl rfl
      rw [this, hst]; rfl
    have hna : NoAcquire [ev] := by intro c l he; simp [hevdef] at he
    rcases threadSleep_cases (hm1.inv h) (r := .thread p) (fun x hx => by cases hx; exact hsome)
      (by intro e; exact hne (QRef.thread.inj e)) (fun e i => by rw [hframes]; rfl) hs
      with ⟨hnil, rfl⟩ | ⟨t, hm, hw, hsv⟩
    · refine ⟨[], [ev], hm1.trans ((moves_self (hm1.inv h).off).of_off.returns _ _),
        .busyWait rfl hp' hne hnil, .keep rfl hna ?_⟩
      intro b l he
      have : s1.cpu.frames = [.cvAcquire b l] := he
      rw [hframes] at this; simp at this
    · exact ⟨[.block (.thread p) t], [ev], hm1.trans hm, .wait rfl hp', .keep hw hna (noEnter_of_saved hsv)⟩

/-! ## Steps -/

/-- outside the objects' queues means: only in queues of threads -/
theorem inObjectQueue_false {s : State} (h : Table s) {p : Ptr} (hp : inObjectQueue s p = false) {r : QRef}
    (hr : p ∈ waiting s r) : ∃ x, r = .thread x := by
  have hno : ∀ n, n < s.nextObj → p ∉ waiting s (.lock n) ∧ p ∉ waiting s (.cv n) ∧ p ∉ waiting s (.user n) := by
    intro n hn
    simp only [inObjectQueue, List.any_eq_false, List.mem_range, Bool.or_eq_true, decide_eq_true_eq, not_or] at hp
    exact ⟨(hp n hn).1.1, (hp n hn).1.2, (hp n hn).2⟩
  have hnew : ∀ n, ¬ n < s.nextObj → waiting s (.lock n) = [] ∧ waiting s (.cv n) = [] ∧ waiting s (.user n) = [] := by
    intro n hn
    obtain ⟨h1, h2, h3⟩ := h.objs n (by omega)
    simp [waiting, State.queue, h1, h2, h3]
  cases r with
  | thread x => exact ⟨x, rfl⟩
  | lock n =>
    by_cases hn : n < s.nextObj
    · exact absurd hr (hno n hn).1
    · rw [(hnew n hn).1] at hr; cases hr
  | cv n =>
    by_cases hn : n < s.nextObj
    · exact absurd hr (hno n hn).2.1
    · rw [(hnew n hn).2.1] at hr; cases hr
  | user n =>
    by_cases hn : n < s.nextObj
    · exact absurd hr (hno n hn).2.2
    · rw [(hnew n hn).2.2] at hr; cases hr

theorem does_kill {s s' : State} (h : Inv s) (hf : s.cpu.frames = []) {tid : Tid} (hsafe : killSafe s (.kill tid))
    (hs : threadKill s tid = .ok s') : Does s (.kill tid) s' := by
  by_cases hv : validTid s.interruptsOff tid = true
  · obtain ⟨p, hp, hne⟩ := (validTid_iff h.off).1 hv
    have hp' : s.threads tid = some p := hp
    have hout : inObjectQueue s p = false := by simpa [killSafe, hp'] using hsafe
    obtain ⟨s1, acts, hs1, hr, hm, hw, hcpu⟩ := threadKill_spec h hp' hne fun r => inObjectQueue_false h.table hout
    rw [hs1, Except.ok.injEq] at hs
    subst hs
    refine ⟨_, _, hm, .kill rfl hp' hr, .keep hw ?_ (noEnter_of_nil (by rw [hcpu]; exact hf))⟩
    intro c l he
    simp at he
  · simp only [threadKill, hv] at hs
    cases hs
    exact does_quiet ((moves_self h.off).of_off.returns _ _) (by simp) rfl (noEnter_of_nil hf)

theorem call_spec {s s' : State} (h : Inv s) (hf : s.cpu.frames = []) {op : Op} (hsafe : killSafe s op)
    (hs : call s op = .ok s') : Does s op s' := by
  have hstay : ∀ cpu ret, cpu.owner = s.cpu.owner → cpu.frames = [] → Does s op { s with cpu := cpu, ret := ret } := by
    intro cpu ret how hfr
    exact does_quiet (moves_regs_quiet h cpu ret how (by rw [hfr]; rfl)) (by simp) rfl (noEnter_of_nil hfr)
  cases op with
  | create mem =>
    obtain ⟨s1, acts, hs1, hm, hp, hw, hcpu⟩ := threadCreate_spec h mem
    rw [show call s (.create mem) = .ok s1 from hs1, Except.ok.injEq] at hs
    subst hs
    exact does_quiet hm hp hw (noEnter_of_nil (by rw [hcpu]; exact hf))
  | yield wantTid =>
    obtain ⟨s1, acts, hs1, hm, hp, hw, hfr⟩ := threadYield_spec h wantTid (fun e x => by rw [hf]; rfl)
    rw [show call s (.yield wantTid) = .ok s1 from hs1, Except.ok.injEq] at hs
    subst hs
    refine does_quiet hm hp hw ?_
    rcases hfr with hfr | hsv
    · exact noEnter_of_nil (hfr.trans hf)
    · exact noEnter_of_saved hsv
  | exit =>
    obtain ⟨acts, t, hm, hr, hw, hsv⟩ := threadExit_spec h hs
    refine ⟨_, _, hm, .exit hr, .keep hw ?_ (noEnter_of_saved hsv)⟩
    intro c l he
    simp at he
  | kill tid => exact does_kill h hf hsafe hs
  | sleep w => exact does_sleep h hf hs
  | sleepNull => cases hs; exact hstay s.cpu _ rfl hf
  | wakeup w all =>
    obtain ⟨a, hm, hp, he⟩ := threadWakeup_spec h (by simp) hs
    refine does_quiet hm ?_ he.lockWord (noEnter_of_nil (by rw [he.cpu]; exact hf))
    intro b hb
    rw [List.mem_singleton.1 hb]; exact hp
  | wakeupNull => cases hs; exact hstay s.cpu _ rfl hf
  | wait tid => exact does_wait h hf hs
  | waitQueueCreate => exact does_waitQueueCreate h hf hs
  | waitQueueDestroy w => exact does_waitQueueDestroy h hf hs
  | lockCreate garbage => exact does_lockCreate h hf hs
  | lockDestroy l => exact does_lockDestroy h hf hs
  | lockAcquire l =>
    exact does_lockTry h (moves_self h.off).of_off .none noAcquire_nil rfl rfl rfl rfl (Or.inl ⟨hf, rfl⟩) hs
  | lockRelease l => exact does_lockRelease h hf hs
  | cvCreate => exact does_cvCreate h hf hs
  | cvDestroy c => exact does_cvDestroy h hf hs
  | cvWait c l => exact does_cvWait h hf hs
  | cvSignal c l => exact does_cvWake h hf hs
  | cvBroadcast c l => exact does_cvWake h hf hs
  | interruptsSet enabled => cases hs; exact hstay { s.cpu with enabled := enabled } s.ret rfl hf
  | preempt =>
    simp only [call] at hs
    split at hs
    · set s0 := s.interruptsOff.push .handler with hs0
      have hframes : s0.cpu.frames = [.handler] := by simp [hs0, State.push, State.interruptsOff, hf]
      have hm0 : Moves s s0 [] [] := moves_regs_quiet h s0.cpu s.ret rfl (by rw [hframes]; rfl)
      obtain ⟨s1, acts, hs1, hm, hp, hw, hfr⟩ :=
        threadYield_spec (hm0.inv h) threadAny (fun e x => by rw [hframes]; rfl)
      rw [hs1, Except.ok.injEq] at hs
      subst hs
      refine does_quiet (hm0.trans hm) hp hw ?_
      rcases hfr with hfr | hsv
      · intro b l he
        rw [hfr, hframes] at he; simp at he
      · exact noEnter_of_saved hsv
    · cases hs
  | resume => cases hs

/-- the stacks from which `lock_acquire` continues -/
theorem liveStack_lockAcquire {e : Bool} {l : ℕ} {fs : List Frame} (h : liveStack (.lockAcquire e l :: fs)) :
    fs = [] ∨ ∃ b, fs = [.cvAcquire b l] := by
  unfold liveStack at h
  split at h <;> simp_all [savedStack]

theorem resume_spec {s s' : State} (h : Inv s) {f : Frame} {fs : List Frame} (hf : s.cpu.frames = f :: fs) {op : Op}
    (hs : resumeFrame { s with cpu := { s.cpu with frames := fs } } f = .ok s') : Does s op s' := by
  have hlive := h.live
  rw [hf] at hlive
  have hpop := liveStack_pop hlive
  set s0 : State := { s with cpu := { s.cpu with frames := fs } } with hs0
  have hm0 : Moves s s0 [] [] := moves_regs_quiet h s0.cpu s.ret rfl hpop
  have hstay : ∀ cpu ret, cpu.owner = s.cpu.owner → cpu.frames = fs → (∀ b l, fs ≠ [.cvAcquire b l]) →
      Does s op { s with cpu := cpu, ret := ret } := by
    intro cpu ret how hfr hne
    refine does_quiet (moves_regs_quiet h cpu ret how (by rw [hfr]; exact hpop)) (by simp) rfl fun b l he => ?_
    exact hne b l (hfr.symm.trans he)
  cases f with
  | stub =>
    cases hs
    refine hstay { s.cpu with frames := fs, enabled := true } s.ret rfl rfl fun b l he => ?_
    rw [he] at hlive; simp [liveStack, savedStack] at hlive
  | yield enabled readyThread =>
    cases hs
    refine hstay { s.cpu with frames := fs, enabled := enabled } _ rfl rfl fun b l he => ?_
    rw [he] at hlive; simp [liveStack, savedStack] at hlive
  | sleep enabled readyId =>
    obtain ⟨s1, acts, hf1, hfree⟩ := freeExited_spec (hm0.inv h)
    simp only [resumeFrame, hf1, ok_bind, pure_eq_ok, Except.ok.injEq] at hs
    subst hs
    refine does_quiet (hm0.trans (hfree.moves.returns enabled (some readyId))) hfree.reclaims.plain
      hfree.lockWord fun b l he => ?_
    have he' : s1.cpu.frames = [.cvAcquire b l] := he
    rw [hfree.cpu] at he'
    have : fs = [.cvAcquire b l] := he'
    rw [this] at hlive; simp [liveStack, savedStack] at hlive
  | wait enabled tid =>
    cases hs
    have hm : Moves s ((s0.record (.waitReturn s.cpu.owner tid)).returns enabled (some tid)) []
        [.waitReturn s.cpu.owner tid] :=
      (moves_regs h s0.cpu s.ret [.waitReturn s.cpu.owner tid] rfl hpop).returns enabled (some tid)
    refine does_plain hm (by simp) (.waitReturn tid) rfl ?_ ?_
    · intro c l he
      simp at he
    · intro b l he
      have : fs = [.cvAcquire b l] := he
      rw [this] at hlive; simp [liveStack, savedStack] at hlive
  | lockAcquire enabled l =>
    refine does_lockTry h hm0 .none noAcquire_nil rfl rfl rfl rfl ?_ hs
    rcases liveStack_lockAcquire hlive with hnil | hcv
    · exact Or.inl ⟨hnil, rfl⟩
    · exact Or.inr hcv
  | cvSleep enabled l =>
    have hnil : fs = [] := by
      unfold liveStack at hlive
      split at hlive <;> simp_all [savedStack]
    set s1 := (s0.push (.cvAcquire enabled l)).interruptsOff with hs1
    have hframes : s1.cpu.frames = [.cvAcquire enabled l] := by
      simp [hs1, hs0, State.push, State.interruptsOff, hnil]
    have hm1 : Moves s s1 [] [] := moves_regs_quiet h s1.cpu s.ret rfl (by rw [hframes]; rfl)
    exact does_lockTry h hm1 .none noAcquire_nil rfl rfl rfl rfl (Or.inr ⟨_, hframes⟩) hs
  | cvAcquire enabled l =>
    have hnil : fs = [] := by
      unfold liveStack at hlive
      split at hlive <;> simp_all [savedStack]
    cases hs
    have hm : Moves s ((s0.record (.acquireReturn s.cpu.owner l)).returns enabled none) []
      [.acquireReturn s.cpu.owner l] :=
      (moves_regs h s0.cpu s.ret [.acquireReturn s.cpu.owner l] rfl hpop).returns enabled none
    exact ⟨[], _, hm, .plain (by simp) (.acquireReturn l), .enter (hnil ▸ hf) rfl hnil⟩
  | handler =>
    cases hs
    refine hstay { s.cpu with frames := fs, enabled := true } s.ret rfl rfl fun b l he => ?_
    rw [he] at hlive; simp [liveStack, savedStack] at hlive

/-- **Inversion of a step.** From a state that satisfies the invariant, a step is of one of the listed kinds. -/
theorem step_spec {s s' : State} (h : Inv s) {op : Op} (hsafe : killSafe s op) (hs : step s op = .ok s') :
    Does s op s' := by
  unfold step at hs
  split at hs
  · rename_i hf
    exact call_spec h hf hsafe hs
  · rename_i f fs hf
    split at hs
    · exact resume_spec h hf hs
    · cases hs

end OsLab.Threads
