/-
The library functions of `threads/thread.c` statement by statement, with the timer signal.

`Threads.Model` executes a call up to its return or its context switch in one step. Here a call is the text of its
function, executed one statement after the other on the machine of `Lib.Signals`, so that the timer may fire wherever it
is unblocked: in user code, before the `interrupts_off` of a function, after its `interrupts_set`. The memory is that of
`Threads.Model`, with the same auxiliary functions; contexts, stacks and the mask are those of the machine (`State.cpu`
and `Tcb.context` are not used).

`getcontext` in `thread_create` followed by the assignments to the registers is `getcontext`, `makecontext`: a new
thread begins in `thread_stub` with the mask of that moment, and its `interrupts_on()` is the move `start`. User code
calls `thread_exit` where `thread_stub` does.

- `body_balanced`: every function turns interrupts off once and restores them once on each of its paths.
- `interrupts_kept`: so every call returns with the interrupt state it was made with, and between the two its thread
  loses the processor only in the calls of `setcontext` in `thread_yield`, `thread_sleep` and `yeet`.
-/
import Mathlib.Tactic
import OsLab.Lib.Signals
import OsLab.Threads.Model

namespace OsLab.Threads

open OsLab.Lib OsLab.Lib.Signals

/-- the functions, with their arguments; `stack` and `tcb` are whether the two allocations succeed, `garbage` is what
the allocated `lock->thread` holds -/
inductive Call where
  | threadCreate (stack tcb : Bool)
  | threadYield (wantTid : Tid)
  | threadExit
  | threadKill (tid : Tid)
  | threadSleep (queue : Option QRef)
  | threadWakeup (queue : Option QRef) (all : Bool)
  | threadWait (tid : Tid)
  | waitQueueCreate
  | waitQueueDestroy (wq : QRef)
  | lockCreate (garbage : Tid)
  | lockDestroy (l : ℕ)
  | lockAcquire (l : ℕ)
  | lockRelease (l : ℕ)
  | cvCreate
  | cvDestroy (c : ℕ)
  | cvWait (c l : ℕ)
  | cvSignal (c l : ℕ)
  | cvBroadcast (c l : ℕ)
deriving DecidableEq, Repr

/-- the local variables of the functions; `enabled` is the machine's -/
structure Locals where
  runningId : Tid := 0
  readyId : Tid := 0
  wakeId : Tid := 0
  thread : Ptr := 0
  readyThread : Ptr := 0
  waitThread : Ptr := 0
  set : Bool := false
  count : ℕ := 0
  /-- address of the lock, condition variable or wait queue being made -/
  obj : ℕ := 0
deriving DecidableEq, Repr

namespace Body

abbrev Code := Stmt State Locals Call Ptr

/-! ## Statements -/

def block : List Code → Code
  | [] => .skip
  | a :: as => .seq a (block as)

/-- a change of the memory -/
def mem (f : State → Locals → Except Stop State) : Code := .act fun s l => (f s l).toOption.map fun s => (s, l)

/-- an assignment to a local -/
def assign (f : State → Locals → Except Stop Locals) : Code := .act fun s l => (f s l).toOption.map fun l => (s, l)

def cond (c : State → Locals → Except Stop Bool) (a b : Code) : Code := .ite (fun s l => (c s l).toOption) a b

def when (c : State → Locals → Except Stop Bool) (a : Code) : Code := cond c a .skip

def loopWhile (c : State → Locals → Except Stop Bool) (a : Code) : Code := .loop (fun s l => (c s l).toOption) a

def call (c : State → Locals → Except Stop Call) : Code := .call fun s l => (c s l).toOption

/-- `interrupts_set(enabled); return v` -/
def leave (v : State → Locals → Option ℤ) : Code := .seq .restore (.ret fun s l => some { s with ret := v s l })

/-- `&p->context` -/
def contextOf (s : State) (p : Ptr) : Option Ptr := (s.heap p).map fun _ => p

/-- `get_first(ready_queue)` -/
def firstReady (s : State) : Except Stop Tid := do return (← getFirst s s.readyQueue).getD threadNone

/-- `get_first(queue->wait)` -/
def firstWaiting (s : State) : Option QRef → Except Stop Tid
  | none => .error .crash
  | some r => do return (← getFirst s (← s.queueAt r)).getD threadNone

/-- the queue that `wait_queue_create` has returned, which goes by the name of its owner from here on -/
def adopt (s : State) : Except Stop (List Ptr × State) :=
  match s.ret with
  | some w => do
    let q ← s.queueAt (.user w.toNat)
    return (q, { s with waitQueues := Function.update s.waitQueues w.toNat none })
  | none => .error .crash

/-! ## Functions -/

def threadCreate (stack tcb : Bool) : Code := block [
  .off,
  when (fun s _ => .ok (getId s = threadNomore)) (leave fun _ _ => threadNomore),
  when (fun _ _ => .ok !stack) (leave fun _ _ => threadNomemory),
  when (fun _ _ => .ok !tcb) (leave fun _ _ => threadNomemory),
  assign fun s l => .ok { l with thread := s.nextPtr },
  mem fun s l => .ok { s with
    heap := Function.update s.heap l.thread (some ⟨getId s, .ready, ⟨l.thread, [.stub], false⟩, []⟩)
    nextPtr := s.nextPtr + 1 },
  .getcontext fun s l => contextOf s l.thread,
  .makecontext fun s l => contextOf s l.thread,
  mem fun s l => do
    let t ← s.deref l.thread
    return { s with
      threads := Function.update s.threads t.id (some l.thread)
      readyQueue := s.readyQueue ++ [l.thread] },
  leave fun s l => (s.heap l.thread).map Tcb.id]

def threadYield (wantTid : Tid) : Code :=
  let validId := 0 ≤ wantTid ∧ wantTid < threadMaxThreads
  block [
    .off,
    assign fun s l => .ok { l with runningId := threadId s },
    mem fun s _ => freeExited s,
    cond (fun s _ => .ok (wantTid = threadSelf ∨ (validId ∧ threadId s = wantTid))) (leave fun _ l => l.runningId) <|
      cond (fun _ _ => .ok (wantTid = threadAny)) (assign fun s l => return { l with readyId := ← firstReady s }) <|
      cond (fun s _ => .ok (validId ∧ (s.tcbAt wantTid).any fun t => t.status = .ready))
        (assign fun _ l => .ok { l with readyId := wantTid }) <|
      leave fun _ _ => threadInvalid,
    when (fun _ l => .ok (l.readyId = threadNone)) (leave fun _ _ => threadNone),
    assign fun s l => return { l with readyThread := ← s.slot l.readyId },
    mem fun s l => return { s with readyQueue := ← deleteFromQueue s l.readyId s.readyQueue },
    mem fun s _ => freeExited s,
    assign fun _ l => .ok { l with set := false },
    .getcontext fun s l => (s.slot l.runningId).toOption.bind (contextOf s),
    cond (fun _ l => .ok l.set)
      (block [
        assign fun _ l => .ok { l with set := false },
        leave fun s l => (s.heap l.readyThread).map Tcb.id])
      (block [
        assign fun _ l => .ok { l with set := true },
        mem fun s l => s.setStatus l.readyThread .running,
        mem fun s l => do s.setStatus (← s.slot l.runningId) .ready,
        mem fun s l => return { s with readyQueue := s.readyQueue ++ [← s.slot l.runningId] },
        .setcontext fun s l => contextOf s l.readyThread]),
    leave fun _ _ => threadNone]

/-- called by `thread_exit`; the process ends if no thread is ready -/
def yeet : Code := block [
  assign fun s l => return { l with readyId := ← firstReady s },
  when (fun _ l => .ok (l.readyId = threadNone)) (mem fun _ _ => .error .exit),
  assign fun s l => return { l with readyThread := ← s.slot l.readyId },
  mem fun s l => s.setStatus l.readyThread .running,
  mem fun s l => do
    let t ← s.deref l.readyThread
    return { s with readyQueue := ← deleteFromQueue s t.id s.readyQueue },
  .setcontext fun s l => contextOf s l.readyThread]

def threadExit : Code := block [
  .off,
  mem fun s _ => freeExited s,
  mem fun s _ => deleteFromAllQueues s (threadId s),
  call fun s _ => return .threadWakeup (some (.thread (← s.slot (threadId s)))) true,
  mem fun s _ => do s.setStatus (← s.slot (threadId s)) .exited,
  yeet,
  .restore]

def threadKill (tid : Tid) : Code := block [
  .off,
  when (fun s _ => .ok !validTid s tid) (leave fun _ _ => threadInvalid),
  mem fun s _ => do s.setStatus (← s.slot tid) .exited,
  mem fun s _ => return { s with readyQueue := ← deleteFromQueue s tid s.readyQueue },
  call fun s _ => return .threadWakeup (some (.thread (← s.slot tid))) true,
  mem fun s _ => deleteFromAllQueues s tid,
  mem fun s _ => freeExited s,
  leave fun _ _ => tid]

def threadSleep (queue : Option QRef) : Code := block [
  .off,
  when (fun _ _ => .ok (queue = none)) (leave fun _ _ => threadInvalid),
  assign fun s l => return { l with readyId := ← firstReady s },
  when (fun _ l => .ok (l.readyId = threadNone)) (leave fun _ _ => threadNone),
  assign fun s l => return { l with readyThread := ← s.slot l.readyId },
  assign fun s l => return { l with waitThread := ← s.slot (threadId s) },
  assign fun _ l => .ok { l with set := false },
  .getcontext fun s l => contextOf s l.waitThread,
  cond (fun _ l => .ok l.set)
    (block [
      assign fun _ l => .ok { l with set := false },
      mem fun s _ => freeExited s,
      leave fun _ l => l.readyId])
    (block [
      assign fun _ l => .ok { l with set := true },
      mem fun s l =>
        match queue with
        | some r => return s.setQueue r ((← s.queueAt r) ++ [l.waitThread])
        | none => .error .crash,
      mem fun s l => do
        let t ← s.deref l.readyThread
        return { s with readyQueue := ← deleteFromQueue s t.id s.readyQueue },
      mem fun s l => s.setStatus l.readyThread .running,
      mem fun s l => s.setStatus l.waitThread .blocked,
      .setcontext fun s l => contextOf s l.readyThread]),
  leave fun _ l => l.readyId]

def threadWakeup (queue : Option QRef) (all : Bool) : Code :=
  let takeOne : Code := mem fun s l =>
    match queue with
    | some r => wake s r l.wakeId
    | none => .error .crash
  block [
    .off,
    assign fun _ l => .ok { l with count := 0 },
    when (fun s _ =>
        match queue with
        | some r => return (← s.queueAt r) = []
        | none => .ok true)
      (leave fun _ _ => some 0),
    cond (fun _ _ => .ok all)
      (block [
        assign fun s l => return { l with wakeId := ← firstWaiting s queue },
        loopWhile (fun _ l => .ok (l.wakeId ≠ threadNone)) (block [
          assign fun _ l => .ok { l with count := l.count + 1 },
          takeOne,
          assign fun s l => return { l with wakeId := ← firstWaiting s queue }]),
        leave fun _ l => some l.count])
      (block [
        assign fun s l => return { l with wakeId := ← firstWaiting s queue },
        when (fun _ l => .ok (l.wakeId ≠ threadNone)) takeOne,
        leave fun _ _ => some 1]),
    leave fun _ _ => some 0]

def threadWait (tid : Tid) : Code := block [
  .off,
  when (fun s _ => .ok !validTid s tid) (leave fun _ _ => threadInvalid),
  call fun s _ => return .threadSleep (some (.thread (← s.slot tid))),
  leave fun _ _ => tid]

def waitQueueCreate : Code := block [
  .off,
  assign fun s l => .ok { l with obj := s.nextObj },
  mem fun s l => .ok { s with
    waitQueues := Function.update s.waitQueues l.obj (some [])
    nextObj := s.nextObj + 1 },
  leave fun _ l => some l.obj]

/-- the queue of a thread, lock or condition variable is freed together with its owner, by the caller -/
def waitQueueDestroy (wq : QRef) : Code := block [
  loopWhile (fun s _ => return (← firstWaiting s wq) ≠ threadNone) (block [
    assign fun s l => return { l with wakeId := ← firstWaiting s wq },
    mem fun s l => do return s.setQueue wq (← deleteFromQueue s l.wakeId (← s.queueAt wq))]),
  mem fun s _ =>
    match wq with
    | .user w => .ok { s with waitQueues := Function.update s.waitQueues w none }
    | _ => .ok s]

def lockCreate (garbage : Tid) : Code := block [
  .off,
  assign fun s l => .ok { l with obj := s.nextObj },
  mem fun s _ => .ok { s with nextObj := s.nextObj + 1 },
  call fun _ _ => .ok .waitQueueCreate,
  mem fun s l => do
    let (q, s) ← adopt s
    return { s with locks := Function.update s.locks l.obj (some ⟨q, garbage, 0⟩) },
  leave fun _ l => some l.obj]

def lockDestroy (lock : ℕ) : Code := block [
  .off,
  when (fun s _ => return (← lockAt s lock).acquired = 0) (block [
    call fun _ _ => .ok (.waitQueueDestroy (.lock lock)),
    mem fun s _ => .ok { s with locks := Function.update s.locks lock none }]),
  .restore]

def lockAcquire (lock : ℕ) : Code := block [
  .off,
  loopWhile (fun s _ => return (← lockAt s lock).acquired = 1) (call fun _ _ => .ok (.threadSleep (some (.lock lock)))),
  mem fun s _ => do
    let k ← lockAt s lock
    return { s with locks := Function.update s.locks lock (some { k with acquired := 1, thread := threadId s }) },
  .restore]

def lockRelease (lock : ℕ) : Code := block [
  .off,
  when (fun s _ => do let k ← lockAt s lock; return k.acquired = 1 ∧ threadId s = k.thread) (block [
    mem fun s _ => do
      let k ← lockAt s lock
      return { s with locks := Function.update s.locks lock (some { k with acquired := 0 }) },
    call fun _ _ => .ok (.threadWakeup (some (.lock lock)) true)]),
  .restore]

def cvCreate : Code := block [
  .off,
  assign fun s l => .ok { l with obj := s.nextObj },
  mem fun s _ => .ok { s with nextObj := s.nextObj + 1 },
  call fun _ _ => .ok .waitQueueCreate,
  mem fun s l => do
    let (q, s) ← adopt s
    return { s with cvs := Function.update s.cvs l.obj (some q) },
  leave fun _ l => some l.obj]

def cvDestroy (cv : ℕ) : Code := block [
  .off,
  when (fun s _ => return (← s.queueAt (.cv cv)) = []) (block [
    call fun _ _ => .ok (.waitQueueDestroy (.cv cv)),
    mem fun s _ => .ok { s with cvs := Function.update s.cvs cv none }]),
  .restore]

/-- `lock->thread == thread_id()` -/
def holds (lock : ℕ) (s : State) : Except Stop Bool := return (← lockAt s lock).thread = threadId s

def cvWait (cv lock : ℕ) : Code := block [
  .off,
  when (fun s _ => holds lock s) (block [
    call fun _ _ => .ok (.lockRelease lock),
    call fun _ _ => .ok (.threadSleep (some (.cv cv)))]),
  call fun _ _ => .ok (.lockAcquire lock),
  .restore]

def cvSignal (cv lock : ℕ) : Code := block [
  .off,
  when (fun s _ => holds lock s) (call fun _ _ => .ok (.threadWakeup (some (.cv cv)) false)),
  .restore]

def cvBroadcast (cv lock : ℕ) : Code := block [
  .off,
  when (fun s _ => holds lock s) (call fun _ _ => .ok (.threadWakeup (some (.cv cv)) true)),
  .restore]

end Body

/-! ## The program -/

def body : Call → Stmt State Locals Call Ptr
  | .threadCreate stack tcb => Body.threadCreate stack tcb
  | .threadYield wantTid => Body.threadYield wantTid
  | .threadExit => Body.threadExit
  | .threadKill tid => Body.threadKill tid
  | .threadSleep queue => Body.threadSleep queue
  | .threadWakeup queue all => Body.threadWakeup queue all
  | .threadWait tid => Body.threadWait tid
  | .waitQueueCreate => Body.waitQueueCreate
  | .waitQueueDestroy wq => Body.waitQueueDestroy wq
  | .lockCreate garbage => Body.lockCreate garbage
  | .lockDestroy l => Body.lockDestroy l
  | .lockAcquire l => Body.lockAcquire l
  | .lockRelease l => Body.lockRelease l
  | .cvCreate => Body.cvCreate
  | .cvDestroy c => Body.cvDestroy c
  | .cvWait c l => Body.cvWait c l
  | .cvSignal c l => Body.cvSignal c l
  | .cvBroadcast c l => Body.cvBroadcast c l

/-- `interrupt_handler`: `thread_yield(THREAD_ANY)` -/
def interruptHandler : Stmt State Locals Call Ptr := .call fun _ _ => some (.threadYield threadAny)

def program : Program State Locals Call Ptr := ⟨body, interruptHandler, {}⟩

/-- after `thread_init`, called with interrupts enabled or not -/
def started (enabled : Bool) : Machine State Locals Call Ptr := .init (threadInit enabled) 0 enabled

/-- every function turns interrupts off once and restores them once on each of its paths -/
theorem body_balanced (c : Call) : (body c).balanced = true := by
  cases c <;> rfl

theorem program_disciplined : program.Disciplined where
  body c := settled_of_balanced (body_balanced c)
  handler := settled_handler rfl

/-- **The interrupt state is kept.** In every interleaving of the threads and of timer preemptions:
- a call that returns leaves interrupts enabled if and only if they were when it was made, whatever ran in between;
- while a call of the running thread is between its `interrupts_off` and its `interrupts_set`, the timer does not fire;
- another thread runs only after a `setcontext` of the running one, which is between the two. -/
theorem interrupts_kept (enabled : Bool) {xs : List (Move Call)} {m : Machine State Locals Call Ptr}
    (hm : (started enabled).run program xs = some m) :
    (∀ c m1 ys m2 m3, Machine.Calls program m c m1 → m1.run program ys = some m2 →
      Machine.Returns program m2 m.next m3 → m3.mask = m.mask) ∧
    (∀ f ∈ m.frames, f.phase = .inside → m.mask = false ∧ m.step program .preempt = none) ∧
    (∀ x m', m.step program x = some m' → m'.cur ≠ m.cur →
      x = .tick ∧ ∃ f fs p k, m.frames = f :: fs ∧ f.code = .setcontext p :: k ∧ f.phase = .inside) := by
  have hinv : m.Inv := (Machine.inv_init (threadInit enabled) 0 enabled).run program_disciplined hm
  refine ⟨?_, ?_, ?_⟩
  · intro c m1 ys m2 m3 hc hrun hr
    exact Machine.run_returns program_disciplined hinv hc hrun hr
  · intro f hf hin
    exact hinv.not_preempted hf hin
  · intro x m' hx hcur
    exact hinv.switch hx hcur

/-- the initial thread creates a thread -/
def createsThread : List (Move Call) := .call (.threadCreate true true) :: List.replicate 25 .tick

/-- it yields to that thread, which turns interrupts on and yields back -/
def yieldsBack : List (Move Call) :=
  List.replicate 35 .tick ++ .start :: .call (.threadYield threadAny) :: List.replicate 42 .tick

/-- a `thread_yield` made with interrupts on returns, after another thread has run, with interrupts on -/
theorem yield_keeps_interrupts : ∃ m m1 m2 m3 : Machine State Locals Call Ptr, m.mask = true ∧
    Machine.Calls program m (.threadYield threadAny) m1 ∧ m1.run program yieldsBack = some m2 ∧
    Machine.Returns program m2 m.next m3 ∧ m3.mask = true := by
  have hcheck : ((started true).run program createsThread).any (fun m => m.atUser && m.mask &&
      ((m.enter program (.threadYield threadAny) []).run program yieldsBack).any fun m2 =>
        m2.returning = some m.next && (m2.step program .tick).isSome) = true := by decide +kernel
  rw [Option.any_eq_true] at hcheck
  obtain ⟨m, hm, hcheck⟩ := hcheck
  simp only [Bool.and_eq_true, Option.any_eq_true, decide_eq_true_eq] at hcheck
  obtain ⟨⟨huser, hmask⟩, m2, hback, hret, hlast⟩ := hcheck
  obtain ⟨m3, h3⟩ := Option.isSome_iff_exists.1 hlast
  have hcall := Machine.calls_enter (P := program) huser (.threadYield threadAny)
  have hkept := (interrupts_kept true hm).1 _ _ yieldsBack m2 m3 hcall hback ⟨hret, h3⟩
  exact ⟨m, _, m2, m3, hmask, hcall, hback, ⟨hret, h3⟩, hkept.trans hmask⟩

end OsLab.Threads
