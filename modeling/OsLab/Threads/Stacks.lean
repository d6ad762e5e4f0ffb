/-
The functions a thread is inside of, and the locks it will come back to.

A thread that was switched away continues the library function it was in, and `lock_acquire` and `cv_wait` then look at
their lock. `Known` says that every live thread finds it: no live thread is inside of a function on a lock that is gone.
A step changes only the stack of the running thread (`Continues`, `Switches`) and makes no object disappear, except by
the `_destroy` calls; `step_known` is the invariant, for runs in which no lock is destroyed that a live thread comes
back to.
-/
import OsLab.Lib.Simulation
import OsLab.Threads.Turns

namespace OsLab.Threads

open OsLab.Lib Function State

variable {s s' t u : State} {op : Op} {p x : Ptr} {r : QRef} {f : Frame} {fs q : List Frame} {l : ℕ} {tid : Tid}
  {acts : List (Act Ptr QRef)} {evs : List Event}

/-- the lock a function looks at when it continues -/
def Frame.lock : Frame → Option ℕ
  | .lockAcquire _ l | .cvSleep _ l => some l
  | _ => none

def contextAt (s : State) (p : Ptr) : Option Context := (s.heap p).map Tcb.context

/-- the functions a thread is inside of -/
def stack (s : State) (p : Ptr) : List Frame :=
  if p = s.cpu.owner then s.cpu.frames else ((contextAt s p).map Context.frames).getD []

/-- in the table, and not exited -/
def alive (s : State) (p : Ptr) : Bool := (stat s p).any fun st => st ≠ .exited

/-- an object that exists -/
def made (s : State) : QRef → Bool
  | .thread _ => false
  | r => (s.queue r).isSome

/-- the lock the function comes back to exists -/
def Safe (s : State) (f : Frame) : Prop := ∀ l, f.lock = some l → made s (.lock l) = true

/-- no live thread comes back to a lock that is gone -/
def Known (s : State) : Prop := ∀ p, alive s p = true → ∀ f ∈ stack s p, Safe s f

/-! ## What is kept -/

/-- no object disappears -/
def Grows (s s' : State) : Prop := ∀ r, made s r = true → made s' r = true

theorem Grows.refl (s : State) : Grows s s := fun _ h => h

theorem Grows.trans (h : Grows s t) (h' : Grows t u) : Grows s u := fun r hr => h' r (h r hr)

theorem grows_same (hlocks : s'.locks = s.locks) (hcvs : s'.cvs = s.cvs) (hqueues : s'.waitQueues = s.waitQueues) :
    Grows s s' := by
  intro r hr
  cases r with
  | thread p => exact hr
  | lock l => simpa only [made, State.queue, hlocks] using hr
  | cv c => simpa only [made, State.queue, hcvs] using hr
  | user w => simpa only [made, State.queue, hqueues] using hr

theorem Safe.grows (h : Safe s f) (hg : Grows s s') : Safe s' f := fun l hl => hg _ (h l hl)

theorem safe_none (h : f.lock = none) : Safe s f := by
  intro l hl
  rw [h] at hl
  cases hl

/-- the running thread goes on, and nobody else's context changes; a new thread is in `thread_stub` -/
structure Continues (s s' : State) : Prop where
  owner : s'.cpu.owner = s.cpu.owner
  frames : ∀ f ∈ s'.cpu.frames, f ∈ s.cpu.frames ∨ Safe s' f
  saved : ∀ p c, contextAt s' p = some c → contextAt s p = some c ∨ c.frames = [.stub]
  grows : Grows s s'

theorem Continues.refl (s : State) : Continues s s := ⟨rfl, fun _ h => Or.inl h, fun _ _ h => Or.inl h, Grows.refl s⟩

theorem Continues.trans (h : Continues s t) (h' : Continues t u) : Continues s u where
  owner := h'.owner.trans h.owner
  frames := fun f hf => (h'.frames f hf).elim (fun hf => (h.frames f hf).imp_right fun hs => hs.grows h'.grows) Or.inr
  saved := fun p c hc => (h'.saved p c hc).elim (h.saved p c) Or.inr
  grows := h.grows.trans h'.grows

/-- nothing but the ready queue, registers, result and log changes -/
theorem continues_same (howner : s'.cpu.owner = s.cpu.owner)
    (hframes : ∀ f ∈ s'.cpu.frames, f ∈ s.cpu.frames ∨ Safe s' f) (hheap : s'.heap = s.heap)
    (hlocks : s'.locks = s.locks) (hcvs : s'.cvs = s.cvs) (hqueues : s'.waitQueues = s.waitQueues) :
    Continues s s' where
  owner := howner
  frames := hframes
  saved := fun p c hc => Or.inl (by rw [← hc]; simp only [contextAt, hheap])
  grows := grows_same hlocks hcvs hqueues

/-- another thread continues where it was switched away; if the one that ran is still alive, it will continue in `fs` -/
structure Switches (s s' : State) (fs : List Frame) : Prop where
  ne : s'.cpu.owner ≠ s.cpu.owner
  loaded : contextAt s s'.cpu.owner = some s'.cpu ∨ s'.cpu.frames = [.stub]
  self : ∀ c, contextAt s' s.cpu.owner = some c → c.frames = fs ∨ c.frames = [.stub]
  others : ∀ p c, p ≠ s.cpu.owner → contextAt s' p = some c → contextAt s p = some c ∨ c.frames = [.stub]
  grows : Grows s s'

/-! ## Live threads -/

theorem alive_iff : alive s p = true ↔ ¬(view s).Dead p := by
  have hview : (view s).stat p = stat s p := rfl
  unfold alive Sched.Dead
  rw [hview]
  cases stat s p with
  | none => simp
  | some st => cases st <;> simp

/-- nobody comes back to life -/
theorem Moves.alive (hm : Moves s s' acts evs) (h : Inv s) (hp : alive s' p = true) :
    alive s p = true ∨ s.nextPtr ≤ p := by
  by_cases hsp : Act.spawn p ∈ acts
  · exact Or.inr (hm.spawned p hsp)
  · left
    rw [alive_iff] at hp ⊢
    exact fun hd => hp (hm.trace.dead h.sched hd hsp)

theorem alive_context (hp : alive s p = true) : ∃ c, contextAt s p = some c := by
  obtain ⟨st, hst, -⟩ := (Option.any_eq_true _ _).1 hp
  obtain ⟨v, hv, -⟩ := stat_eq_some hst
  exact ⟨v.context, by simp [contextAt, hv]⟩

theorem alive_owner (h : Inv s) : alive s s.cpu.owner = true := by
  simp [alive, h.cur_stat]

theorem stack_owner (s : State) : stack s s.cpu.owner = s.cpu.frames := if_pos rfl

theorem stack_saved {c : Context} (hne : p ≠ s.cpu.owner) (hc : contextAt s p = some c) : stack s p = c.frames := by
  simp [stack, hne, hc]

theorem Table.contextAt_none (h : Table s) (hp : s.nextPtr ≤ p) : contextAt s p = none := by
  simp [contextAt, h.fresh p hp]

/-! ## Calls and the invariant -/

theorem Known.frames (hk : Known s) (h : Inv s) : ∀ f ∈ s.cpu.frames, Safe s f := by
  have howner := hk _ (alive_owner h)
  rw [stack_owner] at howner
  exact howner

/-- a call that switches to another thread -/
theorem Known.switches (hk : Known s) (h : Inv s) (hm : Moves s s' acts evs) (hsw : Switches s s' fs)
    (hfs : alive s' s.cpu.owner = true → ∀ f ∈ fs, Safe s f) : Known s' := by
  have hold : ∀ p c, alive s' p = true → p ≠ s.cpu.owner → contextAt s p = some c ∨ c.frames = [.stub] →
      ∀ f ∈ c.frames, Safe s' f := by
    rintro p c hp hne (hsaved | hstub) f hf
    · have hpal : alive s p = true := (hm.alive h hp).resolve_right fun hnew => by
        rw [h.table.contextAt_none hnew] at hsaved
        cases hsaved
      refine (hk p hpal f ?_).grows hsw.grows
      rw [stack_saved hne hsaved]
      exact hf
    · rw [hstub, List.mem_singleton] at hf
      exact safe_none (by rw [hf]; rfl)
  intro p hp f hf
  by_cases howner : p = s'.cpu.owner
  · subst howner
    rw [stack_owner] at hf
    exact hold _ _ hp hsw.ne hsw.loaded f hf
  · obtain ⟨c, hsaved⟩ := alive_context hp
    rw [stack_saved howner hsaved] at hf
    by_cases hself : p = s.cpu.owner
    · subst hself
      rcases hsw.self c hsaved with hsame | hstub
      · rw [hsame] at hf
        exact (hfs hp f hf).grows hsw.grows
      · rw [hstub, List.mem_singleton] at hf
        exact safe_none (by rw [hf]; rfl)
    · exact hold p c hp hself (hsw.others p c hself hsaved) f hf

/-! ## Calls that switch to nobody -/

theorem Continues.returns (h : Continues s s') (e : Bool) (v : Option ℤ) : Continues s (s'.returns e v) :=
  h.trans (continues_same rfl (fun _ hf => Or.inl hf) rfl rfl rfl rfl)

/-- neither threads nor registers change, and every function still finds its lock -/
theorem Known.same (hk : Known s) (hheap : s'.heap = s.heap) (hthreads : s'.threads = s.threads) (hcpu : s'.cpu = s.cpu)
    (hsafe : ∀ p f, alive s p = true → f ∈ stack s p → Safe s f → Safe s' f) : Known s' := by
  intro p hp f hf
  have hstack : stack s' p = stack s p := by simp only [stack, contextAt, hcpu, hheap]
  have halive : alive s' p = alive s p := by simp only [alive, stat, hheap, hthreads]
  rw [hstack] at hf
  rw [halive] at hp
  exact hsafe p f hp hf (hk p hp f hf)

/-- no live thread comes back to lock `l` -/
def unused (s : State) (l : ℕ) : Bool :=
  (List.range s.nextPtr).all fun p => !alive s p || (stack s p).all fun f => f.lock ≠ some l

end OsLab.Threads
