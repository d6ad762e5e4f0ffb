/-
The user-level thread library (`threads/thread.c`, `threads/interrupt.c`).

One processor runs the threads of `threads[]`. Every library call turns the timer signal off, edits statuses and
queues, and either returns or switches to another thread by `setcontext`; a thread that was switched away continues
the library code it was in when some other call switches back to it. So the machine has two kinds of steps:
- a call made by user code of the running thread (or a timer preemption, where the signal is enabled), executed up to
  its return or its context switch;
- `resume`: the running thread continues the innermost library function it is inside of.
`Context.frames` is the stack of library functions a thread is inside of, each with the locals it still needs. User
code runs exactly when the stack is empty.

Memory: a thread control block has an address (`Ptr`), never used again after `free`, and queues hold addresses. Using
the control block at a freed address stops the machine (`Stop.crash`), with one exception: `thread_yield` only returns
the `id` it reads through a pointer that may be freed by then, so its result is unspecified (`ret = none`).
`delete_from_all_queues` reads the `next` field of a node it has just freed; the field is read as it was before.
Headers of fresh wait queues are zeroed.

Not modelled: `killmepls`, `setcontext_called`, `thread0`, `to_exit`, `should_free` and the `count_*` counters
(written, never read), stacks, `print_queue`, `queue_count`. `lock->acquired` is 0 or 1.

`Event` and `log` are ghosts: they record what the theorems about runs talk about.
-/
import Mathlib.Tactic
import OsLab.Lib.Run
import OsLab.Lib.Sched

namespace OsLab.Threads

open OsLab.Lib

abbrev Tid := ℤ

/-- address of a thread control block -/
abbrev Ptr := ℕ

def threadMaxThreads : ℕ := 1024

def threadAny : Tid := -1
def threadSelf : Tid := -2
def threadInvalid : Tid := -3
def threadNone : Tid := -4
def threadNomore : Tid := -5
def threadNomemory : Tid := -6

/-- why no next state exists: `exit(0)`, undefined behaviour, or an operation that cannot happen here -/
inductive Stop where
  | exit
  | crash
  | disabled
deriving DecidableEq, Repr

/-- a library function a thread is inside of, with the locals it still needs -/
inductive Frame where
  /-- `thread_stub`, not yet entered -/
  | stub
  /-- `thread_yield` after its `getcontext`, with `set = 1` -/
  | yield (enabled : Bool) (readyThread : Ptr)
  /-- `thread_sleep` after its `getcontext`, with `set = 1` -/
  | sleep (enabled : Bool) (readyId : Tid)
  /-- `thread_wait`, in its call of `thread_sleep` -/
  | wait (enabled : Bool) (tid : Tid)
  /-- `lock_acquire`, in the `thread_sleep` of its loop -/
  | lockAcquire (enabled : Bool) (l : ℕ)
  /-- `cv_wait`, in its call of `thread_sleep` -/
  | cvSleep (enabled : Bool) (l : ℕ)
  /-- `cv_wait`, in its call of `lock_acquire` -/
  | cvAcquire (enabled : Bool) (l : ℕ)
  /-- `interrupt_handler`, in its call of `thread_yield`; the signal return restores the mask -/
  | handler
deriving DecidableEq, Repr

/-- a saved or running context: the thread whose stack it is (ghost), the stack, and whether the timer signal is
unblocked -/
structure Context where
  owner : Ptr
  frames : List Frame
  enabled : Bool
deriving DecidableEq, Repr

structure Tcb where
  id : Tid
  status : Status
  context : Context
  queue : List Ptr
deriving DecidableEq, Repr

structure Lock where
  queue : List Ptr
  thread : Tid
  acquired : ℕ
deriving DecidableEq, Repr

/-- a `struct wait_queue *`: the queue of a thread, a lock, a condition variable, or one from `wait_queue_create` -/
inductive QRef where
  | thread (p : Ptr)
  | lock (l : ℕ)
  | cv (c : ℕ)
  | user (w : ℕ)
deriving DecidableEq, Repr

inductive Event where
  | exited (p : Ptr)
  | killed (p : Ptr)
  /-- `c` calls `thread_wait(tid)`, which names thread `p` -/
  | waitCall (c : Ptr) (tid : Tid) (p : Ptr)
  | waitReturn (c : Ptr) (tid : Tid)
  /-- `lock_acquire(l)` or `cv_wait(_, l)` returns to user code of `c` -/
  | acquireReturn (c : Ptr) (l : ℕ)
  /-- user code of `c` calls `lock_release(l)` or `cv_wait(_, l)` -/
  | releaseCall (c : Ptr) (l : ℕ)
deriving DecidableEq, Repr

structure State where
  heap : Ptr → Option Tcb
  nextPtr : Ptr
  threads : Tid → Option Ptr
  readyQueue : List Ptr
  locks : ℕ → Option Lock
  cvs : ℕ → Option (List Ptr)
  waitQueues : ℕ → Option (List Ptr)
  /-- address of the next lock, condition variable or wait queue -/
  nextObj : ℕ
  cpu : Context
  /-- value of the last call that returned, where it has one -/
  ret : Option ℤ
  log : List Event

namespace State

/-! ## Memory -/

def deref (s : State) (p : Ptr) : Except Stop Tcb :=
  match s.heap p with
  | some t => .ok t
  | none => .error .crash

/-- `threads[i]`, used as a pointer -/
def slot (s : State) (i : Tid) : Except Stop Ptr :=
  match s.threads i with
  | some p => .ok p
  | none => .error .crash

/-- the control block of `threads[i]`, if there is one -/
def tcbAt (s : State) (i : Tid) : Option Tcb := s.threads i >>= s.heap

def setTcb (s : State) (p : Ptr) (t : Tcb) : State := { s with heap := Function.update s.heap p (some t) }

def setStatus (s : State) (p : Ptr) (st : Status) : Except Stop State := do
  let t ← s.deref p
  return s.setTcb p { t with status := st }

/-- the contents of a wait queue -/
def queue (s : State) : QRef → Option (List Ptr)
  | .thread p => (s.heap p).map Tcb.queue
  | .lock l => (s.locks l).map Lock.queue
  | .cv c => s.cvs c
  | .user w => s.waitQueues w

def queueAt (s : State) (r : QRef) : Except Stop (List Ptr) :=
  match s.queue r with
  | some q => .ok q
  | none => .error .crash

def setQueue (s : State) (r : QRef) (q : List Ptr) : State :=
  match r with
  | .thread p => { s with heap := Function.update s.heap p ((s.heap p).map fun t => { t with queue := q }) }
  | .lock l => { s with locks := Function.update s.locks l ((s.locks l).map fun k => { k with queue := q }) }
  | .cv c => { s with cvs := Function.update s.cvs c (some q) }
  | .user w => { s with waitQueues := Function.update s.waitQueues w (some q) }

def interruptsOff (s : State) : State := { s with cpu := { s.cpu with enabled := false } }

/-- `interrupts_set(enabled); return v` -/
def returns (s : State) (enabled : Bool) (v : Option ℤ) : State :=
  { s with cpu := { s.cpu with enabled := enabled }, ret := v }

def push (s : State) (f : Frame) : State := { s with cpu := { s.cpu with frames := f :: s.cpu.frames } }

def record (s : State) (e : Event) : State := { s with log := s.log ++ [e] }

/-- `getcontext(&p->context)` inside the function `f` -/
def getcontext (s : State) (p : Ptr) (f : Frame) : Except Stop State := do
  let t ← s.deref p
  return s.setTcb p { t with context := (s.push f).cpu }

/-- `setcontext(&p->context)` -/
def setcontext (s : State) (p : Ptr) : Except Stop State := do
  let t ← s.deref p
  return { s with cpu := t.context }

end State

open State

/-! ## Queues and the thread table -/

/-- the indices of `threads[]`, in the order of its loops -/
def tids : List Tid := (List.range threadMaxThreads).map Int.ofNat

def threadId (s : State) : Tid :=
  (tids.find? fun i => (s.tcbAt i).any fun t => t.status = .running).getD threadInvalid

def getId (s : State) : Tid :=
  (tids.find? fun i => (s.tcbAt i).all fun t => t.status = .exited).getD threadNomore

def getFirst (s : State) : List Ptr → Except Stop (Option Tid)
  | [] => .ok none
  | p :: _ => do
    let t ← s.deref p
    return some t.id

/-- removes the first node whose thread has identifier `id`, if any -/
def deleteFromQueue (s : State) (id : Tid) : List Ptr → Except Stop (List Ptr)
  | [] => .ok []
  | p :: q => do
    let t ← s.deref p
    if t.id = id then return q
    else
      let q' ← deleteFromQueue s id q
      return p :: q'

/-- the loop of `delete_from_all_queues` over the nodes of one queue; `acc` is the queue as it is now -/
def purge (s : State) (id : Tid) : List Ptr → List Ptr → Except Stop (List Ptr)
  | acc, [] => .ok acc
  | acc, p :: q => do
    let t ← s.deref p
    if t.id = id then
      let acc' ← deleteFromQueue s id acc
      purge s id acc' q
    else purge s id acc q

def purgeSlot (id : Tid) (s : State) (i : Tid) : Except Stop State :=
  match s.threads i with
  | none => .ok s
  | some p => do
    let t ← s.deref p
    let q ← purge s id t.queue t.queue
    return s.setQueue (.thread p) q

def deleteFromAllQueues (s : State) (id : Tid) : Except Stop State := tids.foldlM (purgeSlot id) s

/-- the loop of `wait_queue_destroy`: every node is read, then freed -/
def drain (s : State) : List Ptr → Except Stop Unit
  | [] => .ok ()
  | p :: q => do
    let _ ← s.deref p
    drain s q

def freeThread (s : State) (id : Tid) : Except Stop State := do
  let p ← s.slot id
  let t ← s.deref p
  drain s t.queue
  return { s with heap := Function.update s.heap p none, threads := Function.update s.threads id none }

/-- reclaims the first exited thread of `threads[]`, if any -/
def freeExited (s : State) : Except Stop State :=
  match tids.find? fun i => (s.tcbAt i).any fun t => t.status = .exited with
  | none => .ok s
  | some i => do
    let q ← deleteFromQueue s i s.readyQueue
    freeThread { s with readyQueue := q } i

/-! ## Waking up -/

/-- takes thread `wakeId` out of queue `r` and makes `threads[wakeId]` ready -/
def wake (s : State) (r : QRef) (wakeId : Tid) : Except Stop State := do
  let q ← s.queueAt r
  let q' ← deleteFromQueue s wakeId q
  let s := s.setQueue r q'
  let p ← s.slot wakeId
  { s with readyQueue := s.readyQueue ++ [p] }.setStatus p .ready

/-- the loop of `thread_wakeup(queue, 1)`; every turn takes one node out of the queue, so its length bounds the turns -/
def wakeLoop (r : QRef) : ℕ → State → ℕ → Except Stop (State × ℕ)
  | 0, s, count => .ok (s, count)
  | n + 1, s, count => do
    let q ← s.queueAt r
    match ← getFirst s q with
    | none => return (s, count)
    | some wakeId =>
      let s ← wake s r wakeId
      wakeLoop r n s (count + 1)

def threadWakeup (s : State) (r : QRef) (all : Bool) : Except Stop State := do
  let enabled := s.cpu.enabled
  let s := s.interruptsOff
  let q ← s.queueAt r
  match ← getFirst s q with
  | none => return s.returns enabled (some 0)
  | some wakeId =>
    if all then
      let (s, count) ← wakeLoop r q.length s 0
      return s.returns enabled (some count)
    else
      let s ← wake s r wakeId
      return s.returns enabled (some 1)

/-! ## Creating, yielding, exiting -/

/-- `mem` is whether the two allocations succeed -/
def threadCreate (s : State) (mem : Bool) : Except Stop State := do
  let enabled := s.cpu.enabled
  let s := s.interruptsOff
  if getId s = threadNomore then return s.returns enabled (some threadNomore)
  else if !mem then return s.returns enabled (some threadNomemory)
  else
    let id := getId s
    let p := s.nextPtr
    let context : Context := ⟨p, [.stub], false⟩
    let s := { s with
      heap := Function.update s.heap p (some ⟨id, .ready, context, []⟩)
      nextPtr := p + 1
      threads := Function.update s.threads id (some p)
      readyQueue := s.readyQueue ++ [p] }
    return s.returns enabled (some id)

/-- the second half of `thread_yield`: switch to `threads[readyId]` -/
def yieldTo (s : State) (enabled : Bool) (runningId readyId : Tid) : Except Stop State := do
  let readyThread ← s.slot readyId
  let q ← deleteFromQueue s readyId s.readyQueue
  let s ← freeExited { s with readyQueue := q }
  let me ← s.slot runningId
  let s ← s.getcontext me (.yield enabled readyThread)
  let s ← s.setStatus readyThread .running
  let s ← s.setStatus me .ready
  let s := { s with readyQueue := s.readyQueue ++ [me] }
  s.setcontext readyThread

def threadYield (s : State) (wantTid : Tid) : Except Stop State := do
  let enabled := s.cpu.enabled
  let s := s.interruptsOff
  let runningId := threadId s
  let s ← freeExited s
  let validId := 0 ≤ wantTid ∧ wantTid < threadMaxThreads
  if wantTid = threadSelf ∨ (validId ∧ threadId s = wantTid) then return s.returns enabled (some runningId)
  else if wantTid = threadAny then
    match ← getFirst s s.readyQueue with
    | none => return s.returns enabled (some threadNone)
    | some readyId => yieldTo s enabled runningId readyId
  else if validId ∧ (s.tcbAt wantTid).any (fun t => t.status = .ready) then yieldTo s enabled runningId wantTid
  else return s.returns enabled (some threadInvalid)

/-- switches to the first ready thread without saving the running one -/
def yeet (s : State) : Except Stop State := do
  match ← getFirst s s.readyQueue with
  | none => .error .exit
  | some readyId =>
    let p ← s.slot readyId
    let s ← s.setStatus p .running
    let t ← s.deref p
    let q ← deleteFromQueue s t.id s.readyQueue
    { s with readyQueue := q }.setcontext p

def threadExit (s : State) : Except Stop State := do
  let s := s.interruptsOff
  let s ← freeExited s
  let s ← deleteFromAllQueues s (threadId s)
  let me ← s.slot (threadId s)
  let s ← threadWakeup s (.thread me) true
  let me ← s.slot (threadId s)
  let s ← s.setStatus me .exited
  yeet (s.record (.exited me))

/-- `tid` is in range, names a thread of the table and is not the caller -/
def validTid (s : State) (tid : Tid) : Bool :=
  0 ≤ tid ∧ tid < threadMaxThreads ∧ (s.threads tid).isSome ∧ tid ≠ threadId s

def threadKill (s : State) (tid : Tid) : Except Stop State := do
  let enabled := s.cpu.enabled
  let s := s.interruptsOff
  if !validTid s tid then return s.returns enabled (some threadInvalid)
  else
    let p ← s.slot tid
    let s ← s.setStatus p .exited
    let q ← deleteFromQueue s tid s.readyQueue
    let s ← threadWakeup { s with readyQueue := q } (.thread p) true
    let s ← deleteFromAllQueues s tid
    let s ← freeExited s
    return (s.record (.killed p)).returns enabled (some tid)

/-! ## Sleeping and waiting -/

def threadSleep (s : State) (r : QRef) : Except Stop State := do
  let enabled := s.cpu.enabled
  let s := s.interruptsOff
  match ← getFirst s s.readyQueue with
  | none => return s.returns enabled (some threadNone)
  | some readyId =>
    let readyThread ← s.slot readyId
    let waitThread ← s.slot (threadId s)
    let s ← s.getcontext waitThread (.sleep enabled readyId)
    let q ← s.queueAt r
    let s := s.setQueue r (q ++ [waitThread])
    let t ← s.deref readyThread
    let q ← deleteFromQueue s t.id s.readyQueue
    let s ← { s with readyQueue := q }.setStatus readyThread .running
    let s ← s.setStatus waitThread .blocked
    s.setcontext readyThread

def threadWait (s : State) (tid : Tid) : Except Stop State := do
  let enabled := s.cpu.enabled
  let s := s.interruptsOff
  if !validTid s tid then return s.returns enabled (some threadInvalid)
  else
    let p ← s.slot tid
    threadSleep ((s.record (.waitCall s.cpu.owner tid p)).push (.wait enabled tid)) (.thread p)

/-! ## Wait queues, locks, condition variables -/

def waitQueueCreate (s : State) : Except Stop State :=
  .ok { s with
    waitQueues := Function.update s.waitQueues s.nextObj (some [])
    nextObj := s.nextObj + 1
    ret := some s.nextObj }

def waitQueueDestroy (s : State) (w : ℕ) : Except Stop State := do
  let q ← s.queueAt (.user w)
  drain s q
  return { s with waitQueues := Function.update s.waitQueues w none, ret := none }

/-- the `thread` field is not initialised: it holds `garbage` -/
def lockCreate (s : State) (garbage : Tid) : Except Stop State :=
  .ok { s with
    locks := Function.update s.locks s.nextObj (some ⟨[], garbage, 0⟩)
    nextObj := s.nextObj + 1
    ret := some s.nextObj }

def lockAt (s : State) (l : ℕ) : Except Stop Lock :=
  match s.locks l with
  | some k => .ok k
  | none => .error .crash

def lockDestroy (s : State) (l : ℕ) : Except Stop State := do
  let k ← lockAt s l
  if k.acquired = 0 then
    drain s k.queue
    return { s with locks := Function.update s.locks l none, ret := none }
  else return { s with ret := none }

/-- one turn of the loop of `lock_acquire`, interrupts off; `enabled` is its saved state -/
def lockTry (s : State) (enabled : Bool) (l : ℕ) : Except Stop State := do
  let k ← lockAt s l
  if k.acquired = 1 then threadSleep (s.push (.lockAcquire enabled l)) (.lock l)
  else
    let s := { s with locks := Function.update s.locks l (some { k with acquired := 1, thread := threadId s }) }
    -- called by user code or, with its frame below, by cv_wait
    let s := if s.cpu.frames = [] then s.record (.acquireReturn s.cpu.owner l) else s
    return s.returns enabled none

def lockAcquire (s : State) (l : ℕ) : Except Stop State := lockTry s.interruptsOff s.cpu.enabled l

def lockRelease (s : State) (l : ℕ) : Except Stop State := do
  let enabled := s.cpu.enabled
  let s := s.interruptsOff
  let k ← lockAt s l
  if k.acquired = 1 ∧ threadId s = k.thread then
    let s := { s with locks := Function.update s.locks l (some { k with acquired := 0 }) }
    let s ← threadWakeup s (.lock l) true
    return s.returns enabled none
  else return s.returns enabled none

def cvCreate (s : State) : Except Stop State :=
  .ok { s with
    cvs := Function.update s.cvs s.nextObj (some [])
    nextObj := s.nextObj + 1
    ret := some s.nextObj }

def cvDestroy (s : State) (c : ℕ) : Except Stop State := do
  let q ← s.queueAt (.cv c)
  if q = [] then return { s with cvs := Function.update s.cvs c none, ret := none }
  else return { s with ret := none }

def cvWait (s : State) (c l : ℕ) : Except Stop State := do
  let enabled := s.cpu.enabled
  let s := s.interruptsOff
  let k ← lockAt s l
  if k.thread = threadId s then
    let s ← lockRelease s l
    threadSleep (s.push (.cvSleep enabled l)) (.cv c)
  else lockAcquire (s.push (.cvAcquire enabled l)) l

/-- `cv_signal` (`all = false`) and `cv_broadcast` (`all = true`) -/
def cvWake (all : Bool) (s : State) (c l : ℕ) : Except Stop State := do
  let enabled := s.cpu.enabled
  let s := s.interruptsOff
  let k ← lockAt s l
  if k.thread = threadId s then
    let s ← threadWakeup s (.cv c) all
    return s.returns enabled none
  else return s.returns enabled none

def cvSignal (s : State) (c l : ℕ) : Except Stop State := cvWake false s c l

def cvBroadcast (s : State) (c l : ℕ) : Except Stop State := cvWake true s c l

/-! ## The machine -/

/-- the innermost library function of the running thread continues; its frame has been popped -/
def resumeFrame (s : State) : Frame → Except Stop State
  | .stub => .ok { s with cpu := { s.cpu with enabled := true } }
  | .yield enabled readyThread => .ok (s.returns enabled ((s.heap readyThread).map Tcb.id))
  | .sleep enabled readyId => do
    let s ← freeExited s
    return s.returns enabled (some readyId)
  | .wait enabled tid => .ok ((s.record (.waitReturn s.cpu.owner tid)).returns enabled (some tid))
  | .lockAcquire enabled l => lockTry s enabled l
  | .cvSleep enabled l => lockAcquire (s.push (.cvAcquire enabled l)) l
  | .cvAcquire enabled l => .ok ((s.record (.acquireReturn s.cpu.owner l)).returns enabled none)
  | .handler => .ok { s with cpu := { s.cpu with enabled := true } }

inductive Op where
  | create (mem : Bool)
  | yield (wantTid : Tid)
  | exit
  | kill (tid : Tid)
  | sleep (w : ℕ)
  /-- `thread_sleep(NULL)` -/
  | sleepNull
  | wakeup (w : ℕ) (all : Bool)
  /-- `thread_wakeup(NULL, _)` -/
  | wakeupNull
  | wait (tid : Tid)
  | waitQueueCreate
  | waitQueueDestroy (w : ℕ)
  | lockCreate (garbage : Tid)
  | lockDestroy (l : ℕ)
  | lockAcquire (l : ℕ)
  | lockRelease (l : ℕ)
  | cvCreate
  | cvDestroy (c : ℕ)
  | cvWait (c l : ℕ)
  | cvSignal (c l : ℕ)
  | cvBroadcast (c l : ℕ)
  /-- `interrupts_set(enabled)` by user code -/
  | interruptsSet (enabled : Bool)
  /-- the timer signal: `interrupt_handler`, with the signal blocked, calls `thread_yield(THREAD_ANY)` -/
  | preempt
  /-- the running thread continues its library code -/
  | resume
deriving DecidableEq, Repr

/-- a call made by user code of the running thread -/
def call (s : State) : Op → Except Stop State
  | .create mem => threadCreate s mem
  | .yield wantTid => threadYield s wantTid
  | .exit => threadExit s
  | .kill tid => threadKill s tid
  | .sleep w => threadSleep s (.user w)
  | .sleepNull => .ok { s with ret := some threadInvalid }
  | .wakeup w all => threadWakeup s (.user w) all
  | .wakeupNull => .ok { s with ret := some 0 }
  | .wait tid => threadWait s tid
  | .waitQueueCreate => waitQueueCreate s
  | .waitQueueDestroy w => waitQueueDestroy s w
  | .lockCreate garbage => lockCreate s garbage
  | .lockDestroy l => lockDestroy s l
  | .lockAcquire l => lockAcquire s l
  | .lockRelease l => lockRelease (s.record (.releaseCall s.cpu.owner l)) l
  | .cvCreate => cvCreate s
  | .cvDestroy c => cvDestroy s c
  | .cvWait c l => cvWait (s.record (.releaseCall s.cpu.owner l)) c l
  | .cvSignal c l => cvSignal s c l
  | .cvBroadcast c l => cvBroadcast s c l
  | .interruptsSet enabled => .ok { s with cpu := { s.cpu with enabled := enabled } }
  | .preempt => if s.cpu.enabled then threadYield (s.interruptsOff.push .handler) threadAny else .error .disabled
  | .resume => .error .disabled

def step (s : State) (op : Op) : Except Stop State :=
  match s.cpu.frames with
  | [] => call s op
  | f :: fs =>
    if op = .resume then resumeFrame { s with cpu := { s.cpu with frames := fs } } f else .error .disabled

/-- the state after `thread_init`: the initial thread runs, nothing else exists; `enabled` is the signal mask of the
caller -/
def threadInit (enabled : Bool) : State where
  heap := fun p => if p = 0 then some ⟨0, .running, ⟨0, [], enabled⟩, []⟩ else none
  nextPtr := 1
  threads := fun i => if i = 0 then some 0 else none
  readyQueue := []
  locks := fun _ => none
  cvs := fun _ => none
  waitQueues := fun _ => none
  nextObj := 0
  cpu := ⟨0, [], enabled⟩
  ret := none
  log := []

end OsLab.Threads
