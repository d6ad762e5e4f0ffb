/-
The worker pool of the web server (`webserver/server_thread.c`, called from `main` of `webserver/server.c`).

`nw` workers run `worker`, `np` threads call `server_request` (the source has one, the main thread), and one thread
calls `server_exit`. They share the ring of connection descriptors under the mutex `lock`, with the condition variables
`empty` (workers wait) and `full` (callers of `server_request` wait). A step of the machine is one step of one thread:
- taking the mutex, with nothing else;
- the rest of a critical section, from the test of the inner `while` to the release of the mutex (by
  `pthread_mutex_unlock` or inside `pthread_cond_wait`). Only `server_exit` touches shared data without the mutex, and
  no part of a critical section after the taking of the mutex reads `exiting` except the one right after a wait;
- one statement of `server_exit`, which takes no mutex;
- a call of `do_server_request`, and its return.
A thread in `pthread_cond_wait` is `waiting` until a broadcast (or a spurious wake-up) makes it `woken`; then it has
still to take the mutex.

`stored`, `got` and `served` are ghosts: the descriptors stored by `send_to_buffer`, returned by `read_from_buffer` and
passed to `do_server_request`, in order.

Not modelled here: what `do_server_request` does (`Server.Requests`), the failure of `malloc` and `pthread_create`.
-/
import Mathlib.Tactic
import OsLab.Lib.Run
import OsLab.Lib.Ring

namespace OsLab.Server

open OsLab.Lib
open Function (update update_self update_of_ne)

/-- why there is no next state: the thread cannot move here, or the access is undefined -/
inductive Stop where
  | blocked
  | crash
deriving DecidableEq, Repr

/-- where a worker is -/
inductive Worker where
  /-- before `pthread_mutex_lock(&lock)` -/
  | start
  /-- holds `lock`, at the test of the inner loop -/
  | locked
  /-- in `pthread_cond_wait(&empty, &lock)` -/
  | waiting
  /-- there, woken, without the mutex yet -/
  | woken
  /-- out of the critical section, with the descriptor it read -/
  | unlocked (connfd : ℤ)
  /-- in `do_server_request` -/
  | serving (connfd : ℤ)
  /-- after `pthread_exit` -/
  | exited
deriving DecidableEq, Repr

/-- where a thread that calls `server_request` is -/
inductive Producer where
  | idle
  | start (connfd : ℤ)
  | locked (connfd : ℤ)
  /-- in `pthread_cond_wait(&full, &lock)` -/
  | waiting (connfd : ℤ)
  | woken (connfd : ℤ)
  /-- in `do_server_request`, where there are no workers -/
  | serving (connfd : ℤ)
  | exited
deriving DecidableEq, Repr

/-- how far `server_exit` has come -/
inductive Exit where
  | notCalled
  /-- after `sv->exiting = 1` -/
  | flagged
  /-- after the broadcast of `empty` -/
  | emptied
  /-- after both broadcasts, at the `pthread_join` of worker `i` -/
  | joining (i : ℕ)
  | returned
deriving DecidableEq, Repr

/-- the ring: fields of `struct server`, and the ghosts `stored` and `got` -/
structure Ring where
  maxRequests : ℤ
  /-- the number of `int`s of `buffer` -/
  bufferLen : ℤ
  buffer : ℤ → ℤ
  inIndex : ℤ
  outIndex : ℤ
  requestCounter : ℤ
  stored : List ℤ
  got : List ℤ

structure State (nw np : ℕ) extends Ring where
  exiting : Bool
  /-- the holder of `lock` -/
  lock : Option (Fin nw ⊕ Fin np)
  worker : Fin nw → Worker
  producer : Fin np → Producer
  exit : Exit
  served : List ℤ

def intMax : ℤ := 2147483647

section

variable {nw np : ℕ}

/-- the state after `server_init`, which holds `lock` until the workers exist. `max_requests + 1` is an `int` sum. -/
def serverInit (nw np : ℕ) (maxRequests : ℤ) : Except Stop (State nw np) :=
  if maxRequests > 0 ∧ maxRequests + 1 > intMax then .error .crash
  else .ok
    { maxRequests := maxRequests
      bufferLen := if maxRequests > 0 then maxRequests + 1 else 0
      buffer := fun _ => 0
      inIndex := 0
      outIndex := 0
      requestCounter := 0
      stored := []
      got := []
      exiting := false
      lock := none
      worker := fun _ => .start
      producer := fun _ => .idle
      exit := .notCalled
      served := [] }

def Worker.wake : Worker → Worker
  | .waiting => .woken
  | w => w

def Producer.wake : Producer → Producer
  | .waiting connfd => .woken connfd
  | p => p

/-- `pthread_cond_broadcast(&empty)` -/
def broadcastEmpty (s : State nw np) : State nw np := { s with worker := fun w => (s.worker w).wake }

/-- `pthread_cond_broadcast(&full)` -/
def broadcastFull (s : State nw np) : State nw np := { s with producer := fun p => (s.producer p).wake }

def sendToBuffer (s : State nw np) (connfd : ℤ) : Except Stop (State nw np) :=
  if 0 ≤ s.inIndex ∧ s.inIndex < s.bufferLen then
    let s := { s with buffer := update s.buffer s.inIndex connfd, stored := s.stored ++ [connfd] }
    let s := if s.requestCounter = 0 then broadcastEmpty s else s
    .ok { s with
      inIndex := (s.inIndex + 1).tmod s.maxRequests
      requestCounter := s.requestCounter + 1 }
  else .error .crash

def readFromBuffer (s : State nw np) : Except Stop (State nw np × ℤ) :=
  if 0 ≤ s.outIndex ∧ s.outIndex < s.bufferLen then
    let connfd := s.buffer s.outIndex
    let s := if s.requestCounter = s.maxRequests then broadcastFull s else s
    .ok
      ({ s with
        outIndex := (s.outIndex + 1).tmod s.maxRequests
        requestCounter := s.requestCounter - 1
        got := s.got ++ [connfd] }, connfd)
  else .error .crash

def setWorker (s : State nw np) (w : Fin nw) (pc : Worker) : State nw np := { s with worker := update s.worker w pc }

def setProducer (s : State nw np) (p : Fin np) (pc : Producer) : State nw np :=
  { s with producer := update s.producer p pc }

/-- the next step of `worker` -/
def worker (s : State nw np) (w : Fin nw) : Except Stop (State nw np) :=
  match s.worker w with
  | .start => if s.lock = none then .ok (setWorker { s with lock := some (.inl w) } w .locked) else .error .blocked
  | .locked =>
    if s.requestCounter = 0 then .ok (setWorker { s with lock := none } w .waiting)
    else do
      let (s, connfd) ← readFromBuffer s
      return setWorker { s with lock := none } w (.unlocked connfd)
  | .waiting => .error .blocked
  | .woken =>
    if s.lock = none then
      if s.exiting then .ok (setWorker s w .exited)
      else .ok (setWorker { s with lock := some (.inl w) } w .locked)
    else .error .blocked
  | .unlocked connfd => .ok (setWorker { s with served := s.served ++ [connfd] } w (.serving connfd))
  | .serving _ => .ok (setWorker s w .start)
  | .exited => .error .blocked

/-- a call of `server_request` -/
def serverRequest (s : State nw np) (p : Fin np) (connfd : ℤ) : Except Stop (State nw np) :=
  if s.producer p = .idle then
    if nw = 0 then .ok (setProducer { s with served := s.served ++ [connfd] } p (.serving connfd))
    else .ok (setProducer s p (.start connfd))
  else .error .blocked

/-- the next step inside `server_request` -/
def request (s : State nw np) (p : Fin np) : Except Stop (State nw np) :=
  match s.producer p with
  | .idle => .error .blocked
  | .start connfd =>
    if s.lock = none then .ok (setProducer { s with lock := some (.inr p) } p (.locked connfd)) else .error .blocked
  | .locked connfd =>
    if s.requestCounter = s.maxRequests then .ok (setProducer { s with lock := none } p (.waiting connfd))
    else do
      let s ← sendToBuffer s connfd
      return setProducer { s with lock := none } p .idle
  | .waiting _ => .error .blocked
  | .woken connfd =>
    if s.lock = none then
      if s.exiting then .ok (setProducer s p .exited)
      else .ok (setProducer { s with lock := some (.inr p) } p (.locked connfd))
    else .error .blocked
  | .serving _ => .ok (setProducer s p .idle)
  | .exited => .error .blocked

/-- the next step of `server_exit` -/
def serverExit (s : State nw np) : Except Stop (State nw np) :=
  match s.exit with
  | .notCalled => .ok { s with exiting := true, exit := .flagged }
  | .flagged => .ok { broadcastEmpty s with exit := .emptied }
  | .emptied => .ok { broadcastFull s with exit := .joining 0 }
  | .joining i =>
    if h : i < nw then
      if s.worker ⟨i, h⟩ = .exited then .ok { s with exit := .joining (i + 1) } else .error .blocked
    else .ok { s with exit := .returned }
  | .returned => .error .blocked

inductive Op (nw np : ℕ) where
  | worker (w : Fin nw)
  | serverRequest (p : Fin np) (connfd : ℤ)
  | request (p : Fin np)
  | serverExit
  /-- `pthread_cond_wait` may return without a broadcast -/
  | wakeWorker (w : Fin nw)
  | wakeProducer (p : Fin np)
deriving DecidableEq, Repr

def act (s : State nw np) : Op nw np → Except Stop (State nw np)
  | .worker w => worker s w
  | .serverRequest p connfd => serverRequest s p connfd
  | .request p => request s p
  | .serverExit => serverExit s
  | .wakeWorker w => .ok (setWorker s w (s.worker w).wake)
  | .wakeProducer p => .ok (setProducer s p (s.producer p).wake)

/-- after `server_exit` has returned `sv` is freed, and every use of it is undefined -/
def step (s : State nw np) (op : Op nw np) : Except Stop (State nw np) :=
  if s.exit = .returned then .error .crash else act s op

end

/-! ## The ring is a queue -/

/-- what `send_to_buffer` does to the ring -/
def Ring.send (r : Ring) (connfd : ℤ) : Ring :=
  { r with
    buffer := update r.buffer r.inIndex connfd
    stored := r.stored ++ [connfd]
    inIndex := (r.inIndex + 1).tmod r.maxRequests
    requestCounter := r.requestCounter + 1 }

/-- what `read_from_buffer` does to the ring -/
def Ring.read (r : Ring) : Ring :=
  { r with
    outIndex := (r.outIndex + 1).tmod r.maxRequests
    requestCounter := r.requestCounter - 1
    got := r.got ++ [r.buffer r.outIndex] }

/-- the descriptors in the ring -/
def Ring.queue (r : Ring) : List ℤ := contents r.buffer r.maxRequests r.outIndex r.requestCounter.toNat

/-- the ring holds what was stored and not yet read -/
structure Ring.Ok (r : Ring) : Prop where
  pos : 1 ≤ r.maxRequests
  len : r.bufferLen = r.maxRequests + 1
  counter : 0 ≤ r.requestCounter ∧ r.requestCounter ≤ r.maxRequests
  out : 0 ≤ r.outIndex ∧ r.outIndex < r.maxRequests
  inn : r.inIndex = (r.outIndex + r.requestCounter) % r.maxRequests
  queue : r.stored = r.got ++ r.queue

theorem Ring.Ok.in_lt {r : Ring} (h : r.Ok) : 0 ≤ r.inIndex ∧ r.inIndex < r.maxRequests := by
  have hpos := h.pos
  rw [h.inn]
  exact ⟨Int.emod_nonneg _ (by omega), Int.emod_lt_of_pos _ (by omega)⟩

theorem Ring.Ok.send {r : Ring} (h : r.Ok) (hroom : r.requestCounter ≠ r.maxRequests) (connfd : ℤ) :
    (r.send connfd).Ok := by
  obtain ⟨hin, -⟩ := h.in_lt
  have hcounter := h.counter
  have htmod : (r.inIndex + 1).tmod r.maxRequests = (r.outIndex + (r.requestCounter + 1)) % r.maxRequests := by
    rw [Int.tmod_eq_emod_of_nonneg (by omega), h.inn, Int.emod_add_emod, add_assoc]
  have hnat : (r.requestCounter + 1).toNat = r.requestCounter.toNat + 1 := by omega
  have hcast : (r.requestCounter.toNat : ℤ) = r.requestCounter := Int.toNat_of_nonneg hcounter.1
  refine ⟨h.pos, h.len, ⟨?_, ?_⟩, h.out, htmod, ?_⟩
  · simp only [Ring.send]; omega
  · simp only [Ring.send]; omega
  · have hlt : (r.requestCounter.toNat : ℤ) < r.maxRequests := by omega
    have hpush := contents_push r.buffer r.outIndex hlt connfd
    rw [hcast, ← h.inn] at hpush
    simp only [Ring.send, Ring.queue, hnat, hpush]
    rw [h.queue, List.append_assoc]
    rfl

theorem Ring.Ok.queue_eq_cons {r : Ring} (h : r.Ok) (hne : r.requestCounter ≠ 0) :
    r.queue = r.buffer r.outIndex :: r.read.queue := by
  have hcounter := h.counter
  have hnat : r.requestCounter.toNat = (r.requestCounter - 1).toNat + 1 := by omega
  have hout : r.outIndex % r.maxRequests = r.outIndex := Int.emod_eq_of_lt h.out.1 h.out.2
  simp only [Ring.queue, Ring.read]
  rw [hnat, contents_pop, hout, Int.tmod_eq_emod_of_nonneg (by have := h.out.1; omega)]

theorem Ring.Ok.read {r : Ring} (h : r.Ok) (hne : r.requestCounter ≠ 0) : r.read.Ok := by
  have hcounter := h.counter
  have hout := h.out
  have hpos := h.pos
  have htmod : (r.outIndex + 1).tmod r.maxRequests = (r.outIndex + 1) % r.maxRequests :=
    Int.tmod_eq_emod_of_nonneg (by omega)
  refine ⟨hpos, h.len, ⟨?_, ?_⟩, ⟨?_, ?_⟩, ?_, ?_⟩
  · simp only [Ring.read]; omega
  · simp only [Ring.read]; omega
  · simp only [Ring.read, htmod]; exact Int.emod_nonneg _ (by omega)
  · simp only [Ring.read, htmod]; exact Int.emod_lt_of_pos _ (by omega)
  · simp only [Ring.read, htmod, Int.emod_add_emod]
    rw [h.inn]; congr 1; ring
  · have hq := h.queue
    rw [h.queue_eq_cons hne] at hq
    rw [show r.read.stored = r.stored from rfl, hq, show r.read.got = r.got ++ [r.buffer r.outIndex] from rfl,
      List.append_assoc]
    rfl

/-! ## What the calls do -/

section

variable {nw np : ℕ} {s t : State nw np}

theorem Worker.wake_ne_waiting (x : Worker) : x.wake ≠ .waiting := by cases x <;> simp [Worker.wake]

/-- `send_to_buffer` changes the ring, and wakes workers -/
theorem sendToBuffer_spec {connfd : ℤ} (h : sendToBuffer s connfd = .ok t) :
    t.toRing = s.toRing.send connfd ∧ (∀ w, t.worker w = s.worker w ∨ t.worker w = (s.worker w).wake) ∧
      t.producer = s.producer ∧ t.exiting = s.exiting ∧ t.exit = s.exit ∧ t.served = s.served := by
  unfold sendToBuffer at h
  split at h
  · cases h
    dsimp only
    split
    · exact ⟨rfl, fun w => .inr rfl, rfl, rfl, rfl, rfl⟩
    · exact ⟨rfl, fun w => .inl rfl, rfl, rfl, rfl, rfl⟩
  · cases h

/-- `read_from_buffer` changes the ring, and wakes callers of `server_request` -/
theorem readFromBuffer_spec {connfd : ℤ} (h : readFromBuffer s = .ok (t, connfd)) :
    connfd = s.buffer s.outIndex ∧ t.toRing = s.toRing.read ∧ t.worker = s.worker ∧
      (∀ p, t.producer p = s.producer p ∨ t.producer p = (s.producer p).wake) ∧ t.exiting = s.exiting ∧
      t.exit = s.exit ∧ t.served = s.served := by
  unfold readFromBuffer at h
  split at h
  · dsimp only at h
    split at h <;> cases h
    · exact ⟨rfl, rfl, rfl, fun p => .inr rfl, rfl, rfl, rfl⟩
    · exact ⟨rfl, rfl, rfl, fun p => .inl rfl, rfl, rfl, rfl⟩
  · cases h

/-- what a step of `worker` does to the ring and the workers; it changes neither `exiting` nor `exit` -/
theorem worker_cases {w : Fin nw} (h : worker s w = .ok t) :
    t.exiting = s.exiting ∧ t.exit = s.exit ∧
      (∀ p, t.producer p = s.producer p ∨ t.producer p = (s.producer p).wake) ∧
      ((t.toRing = s.toRing ∧ t.served = s.served ∧ ∃ x, t.worker = update s.worker w x ∧
          ((s.worker w = .start ∧ x = .locked) ∨ (s.worker w = .locked ∧ s.requestCounter = 0 ∧ x = .waiting) ∨
            (s.worker w = .woken ∧ s.exiting = true ∧ x = .exited) ∨
            (s.worker w = .woken ∧ s.exiting = false ∧ x = .locked) ∨
            (∃ connfd, s.worker w = .serving connfd ∧ x = .start))) ∨
        (s.worker w = .locked ∧ s.requestCounter ≠ 0 ∧ t.toRing = s.toRing.read ∧ t.served = s.served ∧
          t.worker = update s.worker w (.unlocked (s.buffer s.outIndex))) ∨
        (∃ connfd, s.worker w = .unlocked connfd ∧ t.toRing = s.toRing ∧ t.served = s.served ++ [connfd] ∧
          t.worker = update s.worker w (.serving connfd))) := by
  unfold worker at h
  cases hw : s.worker w with
  | start =>
    simp only [hw] at h
    split at h <;> cases h
    exact ⟨rfl, rfl, fun p => .inl rfl, .inl ⟨rfl, rfl, _, rfl, .inl ⟨rfl, rfl⟩⟩⟩
  | locked =>
    simp only [hw] at h
    split at h
    case isTrue hzero =>
      cases h
      exact ⟨rfl, rfl, fun p => .inl rfl, .inl ⟨rfl, rfl, _, rfl, .inr (.inl ⟨rfl, hzero, rfl⟩)⟩⟩
    case isFalse hne =>
      rw [bind_eq_ok] at h
      obtain ⟨⟨u, connfd⟩, hread, h⟩ := h
      cases h
      obtain ⟨hc, hring, hworker, hprod, hexiting, hexit, hserved⟩ := readFromBuffer_spec hread
      refine ⟨hexiting, hexit, hprod, .inr (.inl ⟨rfl, hne, hring, hserved, ?_⟩)⟩
      simp only [setWorker, hworker, hc]
  | waiting => simp [hw] at h
  | woken =>
    simp only [hw] at h
    split at h
    · split at h
      case isTrue hexit =>
        cases h
        exact ⟨rfl, rfl, fun p => .inl rfl, .inl ⟨rfl, rfl, _, rfl, .inr (.inr (.inl ⟨rfl, hexit, rfl⟩))⟩⟩
      case isFalse hexit =>
        cases h
        have hfalse : s.exiting = false := by simpa using hexit
        exact ⟨rfl, rfl, fun p => .inl rfl, .inl ⟨rfl, rfl, _, rfl, .inr (.inr (.inr (.inl ⟨rfl, hfalse, rfl⟩)))⟩⟩
    · cases h
  | unlocked connfd =>
    simp only [hw] at h
    cases h
    exact ⟨rfl, rfl, fun p => .inl rfl, .inr (.inr ⟨connfd, rfl, rfl, rfl, rfl⟩)⟩
  | serving connfd =>
    simp only [hw] at h
    cases h
    exact ⟨rfl, rfl, fun p => .inl rfl, .inl ⟨rfl, rfl, _, rfl, .inr (.inr (.inr (.inr ⟨connfd, rfl, rfl⟩)))⟩⟩
  | exited => simp [hw] at h

/-- what a step inside `server_request` does to the ring and the workers; it starts from a call that has not returned -/
theorem request_cases {p : Fin np} (h : request s p = .ok t) :
    s.producer p ≠ .idle ∧ t.exiting = s.exiting ∧ t.exit = s.exit ∧ t.served = s.served ∧
      ((t.toRing = s.toRing ∧ t.worker = s.worker) ∨
        ∃ connfd, s.requestCounter ≠ s.maxRequests ∧ t.toRing = s.toRing.send connfd ∧
          ∀ w, t.worker w = s.worker w ∨ t.worker w = (s.worker w).wake) := by
  unfold request at h
  cases hp : s.producer p with
  | idle => simp [hp] at h
  | start connfd =>
    simp only [hp] at h
    split at h <;> cases h
    exact ⟨by simp, rfl, rfl, rfl, .inl ⟨rfl, rfl⟩⟩
  | locked connfd =>
    simp only [hp] at h
    split at h
    · cases h
      exact ⟨by simp, rfl, rfl, rfl, .inl ⟨rfl, rfl⟩⟩
    · next hroom =>
      rw [bind_eq_ok] at h
      obtain ⟨u, hsend, h⟩ := h
      cases h
      obtain ⟨hring, hworker, -, hexiting, hexit, hserved⟩ := sendToBuffer_spec hsend
      exact ⟨by simp, hexiting, hexit, hserved, .inr ⟨connfd, hroom, hring, hworker⟩⟩
  | waiting connfd => simp [hp] at h
  | woken connfd =>
    simp only [hp] at h
    split at h
    · split at h <;> cases h
      · exact ⟨by simp, rfl, rfl, rfl, .inl ⟨rfl, rfl⟩⟩
      · exact ⟨by simp, rfl, rfl, rfl, .inl ⟨rfl, rfl⟩⟩
    · cases h
  | serving connfd =>
    simp only [hp] at h
    cases h
    exact ⟨by simp, rfl, rfl, rfl, .inl ⟨rfl, rfl⟩⟩
  | exited => simp [hp] at h

/-- what a step of `server_exit` does -/
theorem serverExit_cases (h : serverExit s = .ok t) :
    t.toRing = s.toRing ∧ t.served = s.served ∧
      ((s.exit = .notCalled ∧ t = { s with exiting := true, exit := .flagged }) ∨
        (s.exit = .flagged ∧ t = { broadcastEmpty s with exit := .emptied }) ∨
        (s.exit = .emptied ∧ t = { broadcastFull s with exit := .joining 0 }) ∨
        (∃ i j, s.exit = .joining i ∧ t = { s with exit := .joining j }) ∨
        (∃ i, s.exit = .joining i ∧ t = { s with exit := .returned })) := by
  unfold serverExit at h
  cases he : s.exit with
  | notCalled => simp only [he] at h; cases h; exact ⟨rfl, rfl, .inl ⟨rfl, rfl⟩⟩
  | flagged => simp only [he] at h; cases h; exact ⟨rfl, rfl, .inr (.inl ⟨rfl, rfl⟩)⟩
  | emptied => simp only [he] at h; cases h; exact ⟨rfl, rfl, .inr (.inr (.inl ⟨rfl, rfl⟩))⟩
  | joining i =>
    simp only [he] at h
    split at h
    · split at h <;> cases h
      exact ⟨rfl, rfl, .inr (.inr (.inr (.inl ⟨i, i + 1, rfl, rfl⟩)))⟩
    · cases h
      exact ⟨rfl, rfl, .inr (.inr (.inr (.inr ⟨i, rfl, rfl⟩)))⟩
  | returned => simp [he] at h

theorem serverRequest_cases {p : Fin np} {connfd : ℤ} (h : serverRequest s p connfd = .ok t) :
    t.toRing = s.toRing ∧ t.worker = s.worker ∧ t.exiting = s.exiting ∧ t.exit = s.exit ∧
      (nw ≠ 0 → t.served = s.served) := by
  unfold serverRequest at h
  split at h
  · split at h
    · next hnw => cases h; exact ⟨rfl, rfl, rfl, rfl, fun hne => absurd hnw hne⟩
    · cases h; exact ⟨rfl, rfl, rfl, rfl, fun _ => rfl⟩
  · cases h

theorem step_eq_ok {op : Op nw np} : step s op = .ok t ↔ s.exit ≠ .returned ∧ act s op = .ok t := by
  unfold step
  split
  · next h => simp [h]
  · next h => simp [h]

/-! ## The ring in every state -/

/-- a step leaves the ring alone, stores into a ring that is not full, or reads from one that is not empty -/
theorem step_ring {op : Op nw np} (h : step s op = .ok t) :
    t.toRing = s.toRing ∨ (∃ connfd, s.requestCounter ≠ s.maxRequests ∧ t.toRing = s.toRing.send connfd) ∨
      (s.requestCounter ≠ 0 ∧ t.toRing = s.toRing.read) := by
  obtain ⟨-, hop⟩ := step_eq_ok.1 h
  cases op with
  | worker w =>
    obtain ⟨-, -, -, hcases⟩ := worker_cases hop
    rcases hcases with ⟨hring, -⟩ | ⟨-, hne, hring, -⟩ | ⟨-, -, hring, -⟩
    · exact .inl hring
    · exact .inr (.inr ⟨hne, hring⟩)
    · exact .inl hring
  | serverRequest p connfd => exact .inl (serverRequest_cases hop).1
  | request p =>
    obtain ⟨-, -, -, -, hcases⟩ := request_cases hop
    rcases hcases with ⟨hring, -⟩ | ⟨connfd, hroom, hring, -⟩
    · exact .inl hring
    · exact .inr (.inl ⟨connfd, hroom, hring⟩)
  | serverExit => exact .inl (serverExit_cases hop).1
  | wakeWorker w => exact .inl (congrArg State.toRing (Except.ok.inj hop)).symm
  | wakeProducer p => exact .inl (congrArg State.toRing (Except.ok.inj hop)).symm

theorem step_ringOk {op : Op nw np} (hs : s.toRing.Ok) (h : step s op = .ok t) : t.toRing.Ok := by
  rcases step_ring h with hring | ⟨connfd, hroom, hring⟩ | ⟨hne, hring⟩ <;> rw [hring]
  · exact hs
  · exact hs.send hroom connfd
  · exact hs.read hne

theorem step_maxRequests {op : Op nw np} (h : step s op = .ok t) : t.maxRequests = s.maxRequests := by
  rcases step_ring h with hring | ⟨connfd, -, hring⟩ | ⟨-, hring⟩ <;> rw [hring] <;> rfl

theorem serverInit_eq_ok {maxRequests : ℤ} (h : serverInit nw np maxRequests = .ok s) :
    s.maxRequests = maxRequests ∧ s.exiting = false ∧ s.exit = .notCalled ∧ s.served = [] ∧ s.got = [] ∧
      (∀ w, s.worker w = .start) ∧ (1 ≤ maxRequests → s.toRing.Ok) := by
  unfold serverInit at h
  split at h
  · cases h
  · cases h
    refine ⟨rfl, rfl, rfl, rfl, rfl, fun _ => rfl, fun hpos => ?_⟩
    refine ⟨hpos, ?_, ⟨le_rfl, ?_⟩, ⟨le_rfl, ?_⟩, ?_, rfl⟩
    · exact if_pos (by omega)
    · show (0 : ℤ) ≤ maxRequests; omega
    · show (0 : ℤ) < maxRequests; omega
    · show (0 : ℤ) = (0 + 0) % maxRequests; simp

/-- no access to the ring is out of its bounds -/
theorem step_ne_crash (hs : s.toRing.Ok) (hexit : s.exit ≠ .returned) (op : Op nw np) : step s op ≠ .error .crash := by
  have hin := hs.in_lt
  have hout := hs.out
  have hlen := hs.len
  have hsend : ∀ connfd, ∃ u, sendToBuffer s connfd = .ok u := fun connfd => by
    unfold sendToBuffer; rw [if_pos (by omega)]; exact ⟨_, rfl⟩
  have hread : ∃ u, readFromBuffer s = .ok u := by
    unfold readFromBuffer; rw [if_pos (by omega)]; exact ⟨_, rfl⟩
  unfold step
  rw [if_neg hexit]
  cases op with
  | worker w =>
    obtain ⟨u, hu⟩ := hread
    simp only [act, worker, hu, ok_bind]
    repeat' split
    all_goals simp
  | serverRequest p connfd =>
    simp only [act, serverRequest]
    repeat' split
    all_goals simp
  | request p =>
    simp only [act, request]
    split
    case h_3 connfd _ =>
      obtain ⟨u, hu⟩ := hsend connfd
      rw [hu]
      split <;> simp
    all_goals repeat' split
    all_goals simp
  | serverExit =>
    simp only [act, serverExit]
    repeat' split
    all_goals simp
  | wakeWorker w => simp [act]
  | wakeProducer p => simp [act]

end

end OsLab.Server
