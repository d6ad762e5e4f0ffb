/-
Condition variables: `cv_wait` gives the lock up and goes to sleep in one go.

- `cv_wait_atomic`: in every run without `thread_kill`, a holder's `cv_wait` reaches the call of `thread_sleep` with the
  timer signal blocked and nobody else having run; the threads that waited for the lock are ready by then. If somebody
  is ready the caller is at the tail of the queue when the first of them runs. Otherwise `thread_sleep` returns at once
  and the next two steps, which only the caller can do, take the lock back.
- a holder's `cv_signal` makes ready the thread that has been in the queue longest, its `cv_broadcast` all of them in
  order: `Timed` counts the steps of a run and dates the arrivals in one queue.
- a step that leaves `cv_wait` leaves it with the lock held.
-/
import Mathlib.Tactic
import OsLab.Threads.Objects
import OsLab.Threads.Locks

namespace OsLab.Threads

open OsLab.Lib Function State

/-! ## What a step does to the queue of a condition variable -/

/-- nothing, or the running thread joins at the tail, or the first threads leave -/
inductive CvStep (s s' : State) (c : ℕ) : Prop
  | keep : waiting s' (.cv c) = waiting s (.cv c) → CvStep s s' c
  | join : waiting s' (.cv c) = waiting s (.cv c) ++ [s.cpu.owner] → CvStep s s' c
  | leave (n : ℕ) : waiting s' (.cv c) = (waiting s (.cv c)).drop n → CvStep s s' c

section

variable {s s' : State} {c : ℕ}

theorem waiting_cv (s : State) (c : ℕ) : waiting s (.cv c) = (s.cvs c).getD [] := rfl

theorem CvStep.of_cvs (h : s'.cvs = s.cvs) : CvStep s s' c := .keep (by rw [waiting_cv, waiting_cv, h])

theorem CvStep.of_objs (h : objs s' = objs s) : CvStep s s' c := .of_cvs (cvs_eq h)

theorem Moves.view_eq {a : Act Ptr QRef} {evs : List Event} (h : Moves s s' [a] evs) :
    view s' = (view s).apply a := h.trace.eq_of_single

theorem Moves.wait_eq {a : Act Ptr QRef} {evs : List Event} (h : Moves s s' [a] evs) :
    waiting s' = ((view s).apply a).wait := congrArg Sched.wait h.view_eq

/-- a wakeup takes threads off the front of one queue -/
theorem wakeup_waiting (h : Inv s) {r : QRef} (hr : ∀ p, r ≠ .thread p) {all : Bool}
    (hs : threadWakeup s r all = .ok s') :
    waiting s' = update (waiting s) r (if all then [] else (waiting s r).tail) := by
  cases hq : s.queue r with
  | none =>
    have : s.interruptsOff.queue r = none := by cases r <;> exact hq
    simp [threadWakeup, State.queueAt, this] at hs
  | some q =>
    obtain ⟨s1, hs1, hm, -⟩ := threadWakeup_acts h hr hq all
    rw [hs1, Except.ok.injEq] at hs
    subst hs
    rw [hm.wait_eq]
    cases all with
    | true => rfl
    | false =>
      simp only [Bool.false_eq_true, if_false, Sched.apply]
      cases hw : waiting s r with
      | nil =>
        have hv : (view s).wait r = [] := hw
        simp only [hv, List.tail_nil]
        exact (hw ▸ update_eq_self r (waiting s)).symm
      | cons p rest =>
        have hv : (view s).wait r = p :: rest := hw
        simp only [hv, List.tail_cons]
        rfl

theorem CvStep.of_wakeup (h : Inv s) {r : QRef} (hr : ∀ p, r ≠ .thread p) {all : Bool}
    (hs : threadWakeup s r all = .ok s') : CvStep s s' c := by
  have hw := wakeup_waiting h hr hs
  by_cases hc : QRef.cv c = r
  · subst hc
    have hwc := congrFun hw (.cv c)
    rw [update_self] at hwc
    cases all with
    | true => exact .leave (waiting s (.cv c)).length (by rw [hwc]; simp)
    | false => exact .leave 1 (by rw [hwc]; simp)
  · exact .keep (by rw [hw, update_of_ne hc])

/-- a sleep puts the running thread at the tail of one queue -/
theorem CvStep.of_sleep (h : Inv s) {r : QRef} (hr : ∀ p, r ≠ .thread p)
    (hstack : ∀ e i, savedStack (.sleep e i :: s.cpu.frames)) (hs : threadSleep s r = .ok s') : CvStep s s' c := by
  rcases threadSleep_cases h (fun p hp => absurd hp (hr p)) (hr s.cpu.owner) hstack hs with
    ⟨-, rfl⟩ | ⟨t, hm, -, -⟩
  · exact .keep rfl
  · have hw : waiting s' = update (waiting s) r (waiting s r ++ [s.cpu.owner]) := hm.wait_eq
    by_cases hc : QRef.cv c = r
    · subst hc
      exact .join (by rw [hw, update_self])
    · exact .keep (by rw [hw, update_of_ne hc])

theorem lockTry_cvs {e : Bool} {l : ℕ} (hs : lockTry s e l = .ok s') : s'.cvs = s.cvs := by
  rw [lockTry, bind_eq_ok] at hs
  obtain ⟨k, -, hs⟩ := hs
  split at hs
  · exact (threadSleep_hides (hides_cvs (by simp)) hs :)
  · cases hs
    dsimp only [State.returns]
    split <;> rfl

theorem lockRelease_cvs {l : ℕ} (hs : lockRelease s l = .ok s') : s'.cvs = s.cvs := by
  unfold lockRelease at hs
  simp only [bind_eq_ok] at hs
  obtain ⟨k, -, hs⟩ := hs
  split at hs
  · rw [bind_eq_ok] at hs
    obtain ⟨t, ht, hs⟩ := hs
    cases hs
    exact (threadWakeup_hides (hides_cvs (by simp)) ht :)
  · cases hs; rfl

/-- the branch of `cv_wait` for the thread in the lock word: the lock is released, then the caller sleeps -/
theorem CvStep.of_cvWait (h : Inv s) (hf : s.cpu.frames = []) {c0 l : ℕ} (hs : cvWait s c0 l = .ok s') :
    CvStep s s' c := by
  unfold cvWait at hs
  simp only [bind_eq_ok] at hs
  obtain ⟨k, -, hs⟩ := hs
  split at hs
  · rw [bind_eq_ok] at hs
    obtain ⟨m, hm, hs⟩ := hs
    have hcvs : m.cvs = s.cvs := (lockRelease_cvs hm :)
    have hrel : Inv m ∧ m.cpu.owner = s.cpu.owner ∧ m.cpu.frames = [] := by
      rcases lockRelease_cases h.off hm with ⟨rfl, -⟩ | ⟨a, hmv, -, hcpu, -, -⟩
      · exact ⟨h.off.aux _ rfl h.live _ _, rfl, hf⟩
      · exact ⟨hmv.inv h.off, by rw [hcpu]; rfl, by rw [hcpu]; exact hf⟩
    obtain ⟨hinv, hown, hfr⟩ := hrel
    have hpush : (m.push (.cvSleep s.cpu.enabled l)).cpu.frames = [.cvSleep s.cpu.enabled l] := by
      simp [State.push, hfr]
    have hinv2 : Inv (m.push (.cvSleep s.cpu.enabled l)) :=
      hinv.aux (m.push (.cvSleep s.cpu.enabled l)).cpu rfl (by rw [hpush]; rfl) m.ret m.log
    have hwait : waiting (m.push (.cvSleep s.cpu.enabled l)) (.cv c) = waiting s (.cv c) := by
      rw [waiting_cv, waiting_cv, ← hcvs]; rfl
    cases CvStep.of_sleep (c := c) hinv2 (by simp) (fun e i => by rw [hpush]; rfl) hs with
    | keep hw => exact .keep (hw.trans hwait)
    | join hw => exact .join (by rw [hw, hwait, ← hown]; rfl)
    | leave n hw => exact .leave n (by rw [hw, hwait])
  · exact .of_cvs (lockTry_cvs hs :)

theorem CvStep.of_cvWake (h : Inv s) {all : Bool} {c0 l : ℕ} (hs : cvWake all s c0 l = .ok s') : CvStep s s' c := by
  unfold cvWake at hs
  simp only [bind_eq_ok] at hs
  obtain ⟨k, -, hs⟩ := hs
  split at hs
  · rw [bind_eq_ok] at hs
    obtain ⟨t, ht, hs⟩ := hs
    cases hs
    cases CvStep.of_wakeup (c := c) h.off (by simp) ht with
    | keep hw => exact .keep hw
    | join hw => exact .join hw
    | leave n hw => exact .leave n hw
  · cases hs; exact .keep rfl

/-- a fresh condition variable has nobody waiting, one that is destroyed neither -/
theorem CvStep.of_cvDestroy {c0 : ℕ} (hs : cvDestroy s c0 = .ok s') : CvStep s s' c := by
  rw [cvDestroy, bind_eq_ok] at hs
  obtain ⟨q, hq, hs⟩ := hs
  split at hs
  · next hnil =>
    cases hs
    refine .keep ?_
    by_cases hc : c = c0
    · subst hc
      have hcv : s.cvs c = some q := queueAt_ok hq
      simp [waiting_cv, hcv, hnil]
    · simp [waiting_cv, update_of_ne hc]
  · cases hs; exact .keep rfl

theorem CvStep.of_cvCreate (h : Inv s) (hs : cvCreate s = .ok s') : CvStep s s' c := by
  cases hs
  refine .keep ?_
  by_cases hc : c = s.nextObj
  · subst hc
    obtain ⟨-, hcv, -⟩ := h.table.objs s.nextObj le_rfl
    simp [waiting_cv, hcv]
  · simp [waiting_cv, update_of_ne hc]

theorem call_cv (h : Inv s) (hf : s.cpu.frames = []) {op : Op} (hs : call s op = .ok s') : CvStep s s' c := by
  cases op with
  | create mem =>
    rw [call] at hs
    exact .of_objs (threadCreate_objs hs)
  | yield wantTid => exact .of_objs (threadYield_objs hs)
  | exit => exact .of_objs (threadExit_objs hs)
  | kill tid => exact .of_objs (threadKill_objs hs)
  | sleep w => exact .of_objs (threadSleep_hides (hides_user w) hs)
  | sleepNull => cases hs; exact .keep rfl
  | wakeup w all => exact .of_objs (threadWakeup_hides (hides_user w) hs)
  | wakeupNull => cases hs; exact .keep rfl
  | wait tid => exact .of_objs (threadWait_objs hs)
  | waitQueueCreate => cases hs; exact .keep rfl
  | waitQueueDestroy w =>
    simp only [call, waitQueueDestroy, bind_eq_ok] at hs
    obtain ⟨q, -, -, -, hs⟩ := hs
    cases hs; exact .keep rfl
  | lockCreate garbage => cases hs; exact .keep rfl
  | lockDestroy l =>
    simp only [call, lockDestroy, bind_eq_ok] at hs
    obtain ⟨k, -, hs⟩ := hs
    split at hs
    · rw [bind_eq_ok] at hs
      obtain ⟨-, -, hs⟩ := hs
      cases hs; exact .keep rfl
    · cases hs; exact .keep rfl
  | lockAcquire l => exact .of_cvs (lockTry_cvs hs :)
  | lockRelease l => exact .of_cvs (lockRelease_cvs hs :)
  | cvCreate => exact .of_cvCreate h hs
  | cvDestroy c0 => exact .of_cvDestroy hs
  | cvWait c0 l =>
    cases CvStep.of_cvWait (c := c) ((moves_release h l).inv h) hf hs with
    | keep hw => exact .keep hw
    | join hw => exact .join hw
    | leave n hw => exact .leave n hw
  | cvSignal c0 l => exact .of_cvWake h hs
  | cvBroadcast c0 l => exact .of_cvWake h hs
  | interruptsSet enabled => cases hs; exact .keep rfl
  | preempt =>
    simp only [call] at hs
    split at hs
    · exact .of_objs (threadYield_objs hs :)
    · cases hs
  | resume => cases hs

theorem step_cv (h : Inv s) {op : Op} (hs : step s op = .ok s') : CvStep s s' c := by
  unfold step at hs
  split at hs
  · next hf => exact call_cv h hf hs
  · next f fs hf =>
    split at hs
    · cases f with
      | stub | yield enabled p | wait enabled tid | cvAcquire enabled l | handler => cases hs; exact .keep rfl
      | sleep enabled readyId =>
        simp only [resumeFrame, bind_eq_ok] at hs
        obtain ⟨t, ht, hs⟩ := hs
        cases hs
        exact .of_objs (freeExited_objs ht :)
      | lockAcquire enabled l => exact .of_cvs (lockTry_cvs hs :)
      | cvSleep enabled l => exact .of_cvs (lockTry_cvs hs :)
    · cases hs

end

/-! ## Who has waited longest -/

/-- a run of `n` steps without `thread_kill`; `since p` is the number of the step in which the waiting thread `p` joined
the queue of condition variable `c` -/
inductive Timed (enabled : Bool) (c : ℕ) : ℕ → (Ptr → ℕ) → State → Prop
  | init : Timed enabled c 0 (fun _ => 0) (threadInit enabled)
  | next {n : ℕ} {since : Ptr → ℕ} {s s' : State} (op : Op) :
      Timed enabled c n since s → noKill s op = true → step s op = .ok s' →
      Timed enabled c (n + 1) (fun p => if p ∈ waiting s (.cv c) then since p else n + 1) s'

section

variable {enabled : Bool} {c n : ℕ} {since : Ptr → ℕ} {s s' : State}

theorem Timed.run (h : Timed enabled c n since s) : Run step noKill (threadInit enabled) s := by
  induction h with
  | init => exact .refl _
  | next op _ hg hs ih => exact ih.tail op hg hs

theorem exists_timed (h : Run step noKill (threadInit enabled) s) (c : ℕ) : ∃ n since, Timed enabled c n since s := by
  induction h with
  | refl => exact ⟨0, _, .init⟩
  | tail op _ hg hs ih =>
    obtain ⟨n, since, ht⟩ := ih
    exact ⟨n + 1, _, ht.next op hg hs⟩

/-- the queue is in the order of arrival -/
structure Ordered (c n : ℕ) (since : Ptr → ℕ) (s : State) : Prop where
  sorted : (waiting s (.cv c)).Pairwise fun p q => since p < since q
  past : ∀ p ∈ waiting s (.cv c), since p ≤ n

theorem Ordered.step (ho : Ordered c n since s) (h : Inv s) {op : Op} (hs : step s op = .ok s') :
    Ordered c (n + 1) (fun p => if p ∈ waiting s (.cv c) then since p else n + 1) s' := by
  set since' : Ptr → ℕ := fun p => if p ∈ waiting s (.cv c) then since p else n + 1 with hsince
  have hold : ∀ p ∈ waiting s (.cv c), since' p = since p := fun p hp => if_pos hp
  have hsorted : (waiting s (.cv c)).Pairwise fun p q => since' p < since' q :=
    ho.sorted.imp_of_mem fun hp hq hlt => by rw [hold _ hp, hold _ hq]; exact hlt
  have hpast : ∀ p, since' p ≤ n + 1 := by
    intro p
    by_cases hp : p ∈ waiting s (.cv c)
    · rw [hold p hp]; exact (ho.past p hp).trans (Nat.le_succ n)
    · exact (if_neg hp).le
  refine ⟨?_, fun p _ => hpast p⟩
  cases step_cv (c := c) h hs with
  | keep hw => rw [hw]; exact hsorted
  | join hw =>
    -- the newcomer is the running thread, which was not waiting
    have hnew : since' s.cpu.owner = n + 1 := if_neg (h.owner_not_wait _)
    rw [hw, List.pairwise_append]
    refine ⟨hsorted, List.pairwise_singleton _ _, fun p hp q hq => ?_⟩
    rw [List.mem_singleton.1 hq, hnew, hold p hp]
    exact Nat.lt_succ_of_le (ho.past p hp)
  | leave k hw => rw [hw]; exact hsorted.sublist (List.drop_sublist k _)

theorem Timed.ordered (h : Timed enabled c n since s) : Ordered c n since s := by
  induction h with
  | init => exact ⟨by rw [waiting_init]; exact .nil, by rw [waiting_init]; simp⟩
  | next op ht hg hs ih => exact ih.step (reachable_inv ht.run) hs

end

/-! ## The call of `cv_wait` -/

/-- between the release and the call of `thread_sleep`: the caller `s.cpu.owner` still runs, the timer signal is
blocked, and the threads that waited for the lock are ready -/
structure Released (s m : State) (l : ℕ) : Prop where
  owner : m.cpu.owner = s.cpu.owner
  blocked : m.cpu.enabled = false
  frames : m.cpu.frames = []
  word : lockWord m l = some (threadId s, 0)
  ready : m.readyQueue = s.readyQueue ++ waiting s (.lock l)
  wait : waiting m = update (waiting s) (.lock l) []

/-- the caller of `s` sleeps at the tail of the queue of `c` and the first ready thread of `m` runs -/
structure Sleeps (s m s' : State) (c : ℕ) : Prop where
  ready : m.readyQueue = s'.cpu.owner :: s'.readyQueue
  tail : waiting s' = update (waiting m) (.cv c) (waiting s (.cv c) ++ [s.cpu.owner])
  asleep : stat s' s.cpu.owner = some .blocked
  words : lockWord s' = lockWord m

/-- the caller of `s` is inside `cv_wait` and runs on, with the timer signal blocked and nobody ready -/
structure Alone (s s' : State) : Prop where
  owner : s'.cpu.owner = s.cpu.owner
  inside : s'.cpu.frames ≠ []
  blocked : s'.cpu.enabled = false
  ready : s'.readyQueue = []

/-- nobody is ready: two more steps of the caller take lock `l` back and return -/
def Retakes (s s' : State) (l : ℕ) : Prop :=
  Alone s s' ∧ ∃ s1 s2, step s' .resume = .ok s1 ∧ Alone s s1 ∧ step s1 .resume = .ok s2 ∧ s2.cpu = s.cpu ∧
    lockWord s2 l = some (threadId s2, 1) ∧ holds s2.log s.cpu.owner l = true

section

variable {s s' : State} {c l : ℕ}

theorem lockWord_eq_some {i : Tid} {n : ℕ} (h : lockWord s l = some (i, n)) :
    ∃ k, s.locks l = some k ∧ k.thread = i ∧ k.acquired = n := by
  simpa only [lockWord, Option.map_eq_some_iff, Prod.mk.injEq] using h

theorem lockAt_of_some {k : Lock} (h : s.locks l = some k) : lockAt s l = .ok k := by simp [lockAt, h]

/-- the first half of `cv_wait`, called by the thread in the lock word -/
theorem cvWait_releases (h : Inv s) (hf : s.cpu.frames = []) (hw : lockWord s l = some (threadId s, 1)) :
    ∃ m, lockRelease (s.record (.releaseCall s.cpu.owner l)).interruptsOff l = .ok m ∧ Released s m l ∧ Inv m ∧
      step s (.cvWait c l) = threadSleep (m.push (.cvSleep s.cpu.enabled l)) (.cv c) := by
  set s0 := (s.record (.releaseCall s.cpu.owner l)).interruptsOff with hs0
  have h0 : Inv s0 := ((moves_release h l).inv h).off
  have hid : threadId s0 = threadId s := threadId_congr rfl rfl
  obtain ⟨m, hm, hmv, hcpu, hw'⟩ := lockRelease_held h0 (by rw [hid]; exact hw)
  obtain ⟨k, hk, hthr, -⟩ := lockWord_eq_some hw
  have hat : lockAt s0 l = .ok k := lockAt_of_some hk
  refine ⟨m, hm, ⟨by rw [hcpu]; rfl, by rw [hcpu]; rfl, by rw [hcpu]; exact hf, ?_, ?_, ?_⟩, hmv.inv h0, ?_⟩
  · rw [hw', update_self, hid]
  · exact congrArg Sched.ready hmv.view_eq
  · exact hmv.wait_eq
  · simp only [step, hf, call, cvWait, ← hs0, hat, ok_bind, hid, if_pos hthr, hm]
    rfl

/-- the second half, with somebody ready -/
theorem cvSleep_sleeps {m : State} {e : Bool} (hr : Released s m l) (h : Inv m) {t : Ptr} {rest : List Ptr}
    (hready : m.readyQueue = t :: rest) (hs : threadSleep (m.push (.cvSleep e l)) (.cv c) = .ok s') :
    Sleeps s m s' c := by
  set m' := m.push (.cvSleep e l) with hm'
  have hframes : m'.cpu.frames = [.cvSleep e l] := by simp [hm', State.push, hr.frames]
  have hmv : Moves m m' [] [] := moves_regs_quiet h m'.cpu m.ret rfl (by rw [hframes]; rfl)
  have h' := hmv.inv h
  have hready' : m'.readyQueue = t :: rest := hready
  have hstack : ∀ b i, savedStack (.sleep b i :: m'.cpu.frames) := fun b i => by rw [hframes]; rfl
  cases hq : m'.queue (.cv c) with
  | none =>
    rw [threadSleep_crash h' hq hstack hready'] at hs
    cases hs
  | some q =>
    have hreach : Reaches m' (.cv c) q := ⟨hq, fun p hp => by cases hp⟩
    obtain ⟨u, hu, hmv', hwords, -⟩ := threadSleep_block h' hreach (by simp) hstack hready'
    rw [hu, Except.ok.injEq] at hs
    subst hs
    have hown : m'.cpu.owner = s.cpu.owner := hr.owner
    have hwait : waiting m' (.cv c) = waiting s (.cv c) := by
      have : waiting m (.cv c) = waiting s (.cv c) := by rw [hr.wait, update_of_ne (by simp)]
      exact this
    have hv := hmv'.view_eq
    have hcur : u.cpu.owner = t := congrArg Sched.cur hv
    have hrest : u.readyQueue = m'.readyQueue.erase t := congrArg Sched.ready hv
    refine ⟨?_, ?_, ?_, hwords⟩
    · rw [hcur, hrest, hready', List.erase_cons_head, hready]
    · have : waiting u = update (waiting m') (.cv c) (waiting m' (.cv c) ++ [m'.cpu.owner]) := hmv'.wait_eq
      rw [this, hwait, hown]; rfl
    · have : stat u = update (update (stat m') t (some .running)) m'.cpu.owner (some .blocked) :=
        congrArg Sched.stat hv
      rw [this, ← hown, update_self]

/-- `lock_acquire` of a free lock, called by `cv_wait` -/
theorem lockTry_free {e : Bool} {f : Frame} {fs : List Frame} {i : Tid} (hf : s.cpu.frames = f :: fs)
    (hw : lockWord s l = some (i, 0)) :
    ∃ k, lockTry s e l = .ok ((setWords s l k).returns e none) ∧ k.thread = threadId s ∧ k.acquired = 1 := by
  obtain ⟨k, hk, -, hacq⟩ := lockWord_eq_some hw
  rw [lockTry, lockAt_of_some hk, ok_bind, if_neg (by rw [hacq]; decide)]
  simp only [hf, reduceCtorEq, if_false]
  generalize threadId s = i
  exact ⟨{ k with acquired := 1, thread := i }, rfl, rfl, rfl⟩

/-- the second half, with nobody ready -/
theorem cvSleep_retakes {m : State} (hr : Released s m l) (hf : s.cpu.frames = []) (hready : m.readyQueue = [])
    (hs : threadSleep (m.push (.cvSleep s.cpu.enabled l)) (.cv c) = .ok s') : Retakes s s' l := by
  have hready' : (m.push (.cvSleep s.cpu.enabled l)).readyQueue = [] := hready
  rw [threadSleep_none _ hready', Except.ok.injEq] at hs
  have hcpu : s'.cpu = ⟨s.cpu.owner, [.cvSleep s.cpu.enabled l], false⟩ := by
    rw [← hs]
    simp [State.push, State.interruptsOff, State.returns, hr.owner, hr.frames, hr.blocked]
  have hword : lockWord s' l = some (threadId s, 0) := by rw [← hs]; exact hr.word
  have hrest : s'.readyQueue = [] := by rw [← hs]; exact hready
  refine ⟨⟨by rw [hcpu], by rw [hcpu]; simp, by rw [hcpu], hrest⟩, ?_⟩
  -- the next step calls `lock_acquire`
  set u := ({ s' with cpu := { s'.cpu with frames := [] } } : State).push (.cvAcquire s.cpu.enabled l) with hu
  have hub : u.cpu = ⟨s.cpu.owner, [.cvAcquire s.cpu.enabled l], false⟩ := by simp [hu, State.push, hcpu]
  have huf : u.interruptsOff.cpu.frames = [.cvAcquire s.cpu.enabled l] := by simp [State.interruptsOff, hub]
  obtain ⟨k, htry, hthr, hacq⟩ := lockTry_free (e := u.cpu.enabled) huf (i := threadId s) (l := l) hword
  set s1 := (setWords u.interruptsOff l k).returns u.cpu.enabled none with hs1
  have hcpu1 : s1.cpu = ⟨s.cpu.owner, [.cvAcquire s.cpu.enabled l], false⟩ := by
    simp [hs1, State.returns, setWords, State.interruptsOff, hub]
  have hword1 : lockWord s1 l = some (threadId s1, 1) := by
    have hw : lockWord s1 = update (lockWord u.interruptsOff) l (some (k.thread, k.acquired)) :=
      lockWord_setWords u.interruptsOff l k
    have hid : threadId s1 = threadId u.interruptsOff := threadId_congr rfl rfl
    rw [hw, update_self, hthr, hacq, hid]
  -- and the one after returns
  refine ⟨s1, (({ s1 with cpu := { s1.cpu with frames := [] } } : State).record
    (.acquireReturn s.cpu.owner l)).returns s.cpu.enabled none, ?_, ⟨by rw [hcpu1], by rw [hcpu1]; simp,
    by rw [hcpu1], hrest⟩, ?_, ?_, ?_, ?_⟩
  · simp only [step, hcpu, resumeFrame, if_true]
    simp only [hcpu] at hu
    rw [lockAcquire, ← hu]
    exact htry
  · simp only [step, hcpu1, resumeFrame, if_true]
  · simp only [State.returns, State.record, hcpu1, ← hf]
  · exact hword1
  · change holds (s1.log ++ [.acquireReturn s.cpu.owner l]) s.cpu.owner l = true
    rw [holds_concat, if_pos rfl]

/-! ## Signal, broadcast and return -/

/-- the threads `woken` become ready, in this order, and `rest` keeps waiting for `c` -/
structure Wakes (s s' : State) (c : ℕ) (woken rest : List Ptr) : Prop where
  cpu : s'.cpu = s.cpu
  ready : s'.readyQueue = s.readyQueue ++ woken
  wait : waiting s' = update (waiting s) (.cv c) rest
  stat : ∀ p ∈ woken, stat s' p = some .ready

/-- `cv_signal` and `cv_broadcast` called by the thread in the lock word -/
theorem cvWake_wakes (h : Inv s) (hw : lockWord s l = some (threadId s, 1)) {p : Ptr} {rest : List Ptr}
    (hq : waiting s (.cv c) = p :: rest) (all : Bool) :
    ∃ s', cvWake all s c l = .ok s' ∧ Wakes s s' c (if all then p :: rest else [p]) (if all then [] else rest) := by
  obtain ⟨k, hk, hthr, -⟩ := lockWord_eq_some hw
  have hat : lockAt s.interruptsOff l = .ok k := lockAt_of_some hk
  have hid : threadId s.interruptsOff = threadId s := threadId_congr rfl rfl
  have hcv : s.interruptsOff.queue (.cv c) = some (p :: rest) := by
    rw [waiting_cv] at hq
    cases hc : s.cvs c with
    | none => rw [hc] at hq; cases hq
    | some q => rw [hc] at hq; exact hc.trans (congrArg some hq)
  obtain ⟨s1, hs1, hm, he⟩ := threadWakeup_acts h.off (by simp) hcv all
  have hv := hm.view_eq
  have hvw : (view s.interruptsOff).wait (.cv c) = p :: rest := hq
  refine ⟨s1.returns s.cpu.enabled none, ?_, ?_⟩
  · simp only [cvWake, hat, ok_bind, hid, if_pos hthr, hs1, pure_eq_ok]
  have hcpu : (s1.returns s.cpu.enabled none).cpu = s.cpu := by
    change { s1.cpu with enabled := s.cpu.enabled } = s.cpu
    rw [he.cpu]; rfl
  cases all with
  | true =>
    simp only [if_true, Sched.apply] at hv
    refine ⟨hcpu, ?_, congrArg Sched.wait hv, fun x hx => ?_⟩
    · exact (congrArg Sched.ready hv).trans (by simp only [hvw]; rfl)
    · have : stat s1 x = if x ∈ (view s.interruptsOff).wait (.cv c) then some .ready else stat s x :=
        congrFun (congrArg Sched.stat hv) x
      rw [hvw] at this
      exact this.trans (if_pos hx)
  | false =>
    simp only [Bool.false_eq_true, if_false, Sched.apply, hvw] at hv
    refine ⟨hcpu, congrArg Sched.ready hv, congrArg Sched.wait hv, fun x hx => ?_⟩
    have : stat s1 x = update (stat s) p (some .ready) x := congrFun (congrArg Sched.stat hv) x
    rw [List.mem_singleton.1 hx, update_self] at this
    rw [List.mem_singleton.1 hx]; exact this

/-- inside `cv_wait`, a turn of `lock_acquire` does not reach user code -/
theorem lockTry_inside (h : Inv s) {e : Bool} {f : Frame} {fs : List Frame} (hf : s.cpu.frames = f :: fs)
    (hstack : ∀ b i, savedStack (.sleep b i :: .lockAcquire e l :: s.cpu.frames))
    (hlive : liveStack (.lockAcquire e l :: s.cpu.frames)) (hs : lockTry s e l = .ok s') : s'.cpu.frames ≠ [] := by
  rw [lockTry, bind_eq_ok] at hs
  obtain ⟨k, -, hs⟩ := hs
  split at hs
  · set s0 := s.push (.lockAcquire e l) with hs0
    have h0 : Inv s0 := (moves_regs_quiet h s0.cpu s.ret rfl hlive).inv h
    rcases threadSleep_cases h0 (by simp) (by simp) hstack hs with ⟨-, rfl⟩ | ⟨t, -, -, hsv⟩
    · simp [hs0, State.push, State.interruptsOff, State.returns]
    · intro hnil
      rw [hnil] at hsv; cases hsv
  · cases hs
    simp [hf, State.returns]

/-- the only step that leaves `cv_wait` is its last line -/
theorem cvWait_last (h : Inv s) {e : Bool} {op : Op} (hin : .cvSleep e l ∈ s.cpu.frames ∨ .cvAcquire e l ∈ s.cpu.frames)
    (hs : step s op = .ok s') (hout : s'.cpu.frames = []) : s.cpu.frames = [.cvAcquire e l] := by
  have hlive := h.live
  unfold step at hs
  split at hs
  · next hf => rw [hf] at hin; simp at hin
  · next f fs hf =>
    rw [hf] at hin hlive
    split at hs
    · set s0 : State := { s with cpu := { s.cpu with frames := fs } } with hs0
      have hm0 : Moves s s0 [] [] := moves_regs_quiet h s0.cpu s.ret rfl (liveStack_pop hlive)
      cases f with
      | stub | wait enabled tid | handler =>
        cases hs
        have hfs : fs = [] := hout
        rw [hfs] at hin; simp at hin
      | yield enabled p =>
        cases hs
        have hfs : fs = [] := hout
        rw [hfs] at hin; simp at hin
      | sleep enabled readyId =>
        obtain ⟨s1, acts, hf1, hfree⟩ := freeExited_spec (hm0.inv h)
        simp only [resumeFrame, hf1, ok_bind, pure_eq_ok, Except.ok.injEq] at hs
        subst hs
        have hfs : s1.cpu.frames = [] := hout
        rw [hfree.cpu] at hfs
        have hfs' : fs = [] := hfs
        rw [hfs'] at hin; simp at hin
      | lockAcquire enabled l' =>
        rcases liveStack_lockAcquire hlive with hnil | ⟨b, hcv⟩
        · rw [hnil] at hin; simp at hin
        · have hf0 : s0.cpu.frames = [.cvAcquire b l'] := hcv
          exact absurd hout (lockTry_inside (hm0.inv h) hf0 (fun _ _ => by rw [hf0]; simp [savedStack])
            (by rw [hf0]; simp [liveStack]) hs)
      | cvSleep enabled l' =>
        have hnil : fs = [] := by
          unfold liveStack at hlive
          split at hlive <;> simp_all [savedStack]
        set u := (s0.push (.cvAcquire enabled l')).interruptsOff with hu
        have hfu : u.cpu.frames = [.cvAcquire enabled l'] := by
          simp [hu, hs0, State.push, State.interruptsOff, hnil]
        have hiu : Inv u := (moves_regs_quiet h u.cpu s.ret rfl (by rw [hfu]; rfl)).inv h
        exact absurd hout (lockTry_inside hiu hfu (fun _ _ => by rw [hfu]; simp [savedStack])
          (by rw [hfu]; simp [liveStack]) hs)
      | cvAcquire enabled l' =>
        cases hs
        have hfs : fs = [] := hout
        rw [hfs] at hin
        rw [hf, hfs]
        rcases hin with hin | hin
        · simp at hin
        · rw [List.mem_singleton.1 hin]
    · cases hs

/-- and it returns with the lock held -/
theorem cvWait_returns (hh : Held s) {e : Bool} {op : Op} (hf : s.cpu.frames = [.cvAcquire e l])
    (hs : step s op = .ok s') :
    s'.cpu.owner = s.cpu.owner ∧ lockWord s' l = some (threadId s', 1) ∧ holds s'.log s'.cpu.owner l = true := by
  simp only [step, hf] at hs
  split at hs
  · cases hs
    refine ⟨rfl, hh.entering e l hf, ?_⟩
    change holds (s.log ++ [.acquireReturn s.cpu.owner l]) s.cpu.owner l = true
    rw [holds_concat, if_pos rfl]
  · cases hs

end

/-- **`cv_wait` is atomic.** In every run without `thread_kill`, for the holder of `l`: after the release inside
`cv_wait(c, l)` the caller still runs with the signal blocked, and either it is at the tail of the queue when the first
ready thread runs, or nobody is ready and it takes `l` back before anybody runs; `cv_signal` wakes the head of the queue
and `cv_broadcast` the whole queue in order. The queue is in the order of arrival. Whoever leaves `cv_wait` holds the
lock. -/
theorem cv_wait_atomic (enabled : Bool) (s : State) (hrun : Run step noKill (threadInit enabled) s) (c l : ℕ) :
    (s.cpu.frames = [] → holds s.log s.cpu.owner l = true →
      (∀ s', step s (.cvWait c l) = .ok s' →
        ∃ m, lockRelease (s.record (.releaseCall s.cpu.owner l)).interruptsOff l = .ok m ∧ Released s m l ∧
          threadSleep (m.push (.cvSleep s.cpu.enabled l)) (.cv c) = .ok s' ∧
          (Sleeps s m s' c ∨ m.readyQueue = [] ∧ Retakes s s' l)) ∧
      ∀ p rest, waiting s (.cv c) = p :: rest →
        (∃ s', step s (.cvSignal c l) = .ok s' ∧ Wakes s s' c [p] rest) ∧
        ∃ s', step s (.cvBroadcast c l) = .ok s' ∧ Wakes s s' c (p :: rest) []) ∧
    ((∃ n since, Timed enabled c n since s) ∧
      ∀ n since, Timed enabled c n since s → (waiting s (.cv c)).Pairwise fun p q => since p < since q) ∧
    ∀ e op s', (.cvSleep e l ∈ s.cpu.frames ∨ .cvAcquire e l ∈ s.cpu.frames) → step s op = .ok s' →
      s'.cpu.frames = [] →
      s'.cpu.owner = s.cpu.owner ∧ lockWord s' l = some (threadId s', 1) ∧ holds s'.log s'.cpu.owner l = true := by
  obtain ⟨h, hh⟩ := reachable_held hrun
  refine ⟨fun hf hc => ?_, ⟨exists_timed hrun c, fun n since ht => ht.ordered.sorted⟩, fun e op s' hin hs hout => ?_⟩
  · have hw := hh.owner_word h hc
    refine ⟨fun s' hs => ?_, fun p rest hq => ⟨?_, ?_⟩⟩
    · obtain ⟨m, hm, hr, him, hstep⟩ := cvWait_releases (c := c) h hf hw
      rw [hstep] at hs
      refine ⟨m, hm, hr, hs, ?_⟩
      cases hready : m.readyQueue with
      | nil => exact Or.inr ⟨rfl, cvSleep_retakes hr hf hready hs⟩
      | cons t rest => exact Or.inl (cvSleep_sleeps hr him hready hs)
    · obtain ⟨s', hs', hwk⟩ := cvWake_wakes h hw hq false
      exact ⟨s', by rw [step, hf]; exact hs', hwk⟩
    · obtain ⟨s', hs', hwk⟩ := cvWake_wakes h hw hq true
      exact ⟨s', by rw [step, hf]; exact hs', hwk⟩
  · exact cvWait_returns hh (cvWait_last h hin hs hout) hs

/-- two threads wait in turn; the holder's signal readies the one that came first -/
theorem cv_wait_atomic_two_waiters :
    ∃ s s', Run step noKill (threadInit true) s ∧ waiting s (.cv 1) = [1, 2] ∧ step s (.cvSignal 1 0) = .ok s' ∧
      Wakes s s' 1 [1] [2] := by
  have h : ∃ s, Run step noKill (threadInit true) s ∧ decide (s.cpu.frames = [] ∧ holds s.log s.cpu.owner 0 = true ∧
      waiting s (.cv 1) = [1, 2]) = true :=
    run_of_passes [.create true, .create true, .lockCreate 7, .cvCreate, .yield 1, .resume, .lockAcquire 0, .cvWait 1 0,
      .resume, .lockAcquire 0, .cvWait 1 0, .resume, .lockAcquire 0] (by decide +kernel)
  obtain ⟨s, hrun, hs⟩ := h
  obtain ⟨hf, hc, hq⟩ := of_decide_eq_true hs
  obtain ⟨s', hs', hwk⟩ := (((cv_wait_atomic true s hrun 1 0).1 hf hc).2 1 [2] hq).1
  exact ⟨s, s', hrun, hq, hs', hwk⟩

end OsLab.Threads
