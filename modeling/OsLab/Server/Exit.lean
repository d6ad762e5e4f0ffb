/-
Shutting the worker pool down (`server_exit`, `worker` in `webserver/server_thread.c`).

`server_exit` sets `exiting` and broadcasts `empty` without the mutex, and a worker reads `exiting` only when a wait
returns: not before it waits, and before it looks at the ring again. Two things go wrong:
- a worker that is outside its wait when `empty` is broadcast drains the ring and then waits for ever, and the
  `pthread_join` of `server_exit` with it (`worker_left_behind`);
- workers that a request has woken see `exiting` first and leave the request in the ring (`request_dropped`).

Results, over every run in which the calls of `server_request` are over when `server_exit` is called:
- `no_worker_left_behind`: if every worker is in its wait when `server_exit` broadcasts `empty`, none waits afterwards;
- `no_request_dropped`: if the ring is empty or some worker is outside its wait when `server_exit` sets `exiting`, then
  once all workers have ended every stored descriptor has been served exactly once.
The two conditions pull in opposite directions: only an idle pool with an empty ring is shut down in full.
-/
import Mathlib.Tactic
import OsLab.Lib.Run
import OsLab.Server.Pool

namespace OsLab.Server

open OsLab.Lib
open Function (update update_self update_of_ne)

/-- in `pthread_cond_wait`, or past `pthread_exit` -/
def Worker.parked : Worker → Bool
  | .waiting | .woken | .exited => true
  | _ => false

/-- `server_exit` has broadcast `empty` -/
def Exit.broadcasted : Exit → Bool
  | .emptied | .joining _ | .returned => true
  | _ => false

section

variable {nw np : ℕ}

/-- `server_exit` comes after the calls of `server_request` -/
def finalExit (s : State nw np) : Op nw np → Bool
  | .serverRequest _ _ => s.exit = .notCalled
  | .serverExit => s.exit ≠ .notCalled ∨ ∀ p, s.producer p = .idle
  | _ => true

/-- and a wait returns only after a broadcast -/
def broadcastsOnly (s : State nw np) (op : Op nw np) : Bool :=
  finalExit s op && match op with
    | .wakeWorker _ | .wakeProducer _ => false
    | _ => true

/-- every worker is parked when `server_exit` broadcasts `empty` -/
def exitFindsParked (s : State nw np) (op : Op nw np) : Bool :=
  finalExit s op && (op ≠ .serverExit ∨ s.exit ≠ .flagged ∨ ∀ w, (s.worker w).parked = true)

/-- when `server_exit` sets `exiting` the ring is empty or some worker is not parked -/
def exitFindsServed (s : State nw np) (op : Op nw np) : Bool :=
  finalExit s op &&
    (op ≠ .serverExit ∨ s.exit ≠ .notCalled ∨ s.requestCounter = 0 ∨ ∃ w, (s.worker w).parked = false)

end

@[simp] theorem Worker.parked_wake (x : Worker) : x.wake.parked = x.parked := by cases x <;> rfl

theorem Worker.wake_eq_exited {x : Worker} (h : x.wake = .exited) : x = .exited := by
  cases x <;> simp_all [Worker.wake]

/-! ## The order of the calls -/

/-- once `server_exit` has begun, `server_request` is over -/
structure Quiet {nw np : ℕ} (s : State nw np) : Prop where
  idle : s.exit ≠ .notCalled → ∀ p, s.producer p = .idle
  exiting : s.exiting = true ↔ s.exit ≠ .notCalled
  exited : ∀ w, s.worker w = .exited → s.exiting = true

section

variable {nw np : ℕ} {s t : State nw np}

theorem quiet_init {maxRequests : ℤ} (h : serverInit nw np maxRequests = .ok s) : Quiet s := by
  obtain ⟨-, hexiting, hexit, -, -, hworker, -⟩ := serverInit_eq_ok h
  refine ⟨fun hne => absurd hexit hne, by simp [hexiting, hexit], fun w hw => ?_⟩
  rw [hworker w] at hw; cases hw

/-- inside `server_request` the exit has not begun -/
theorem Quiet.notCalled (h : Quiet s) {p : Fin np} (hp : s.producer p ≠ .idle) : s.exit = .notCalled := by
  by_contra hne
  exact hp (h.idle hne p)

theorem Quiet.worker (hs : Quiet s) {w : Fin nw} (h : worker s w = .ok t) : Quiet t := by
  obtain ⟨hexiting, hexit, hprod, hcases⟩ := worker_cases h
  refine ⟨fun hne p => ?_, by rw [hexiting, hexit]; exact hs.exiting, fun v hv => ?_⟩
  · rw [hexit] at hne
    rcases hprod p with hp | hp <;> rw [hp, hs.idle hne p]
    rfl
  · rw [hexiting]
    rcases hcases with ⟨-, -, x, hworker, hx⟩ | ⟨-, -, -, -, hworker⟩ | ⟨connfd, -, -, -, hworker⟩
    · by_cases hvw : v = w
      · subst hvw
        rw [hworker, update_self] at hv
        rcases hx with ⟨-, rfl⟩ | ⟨-, -, rfl⟩ | ⟨-, hexit, -⟩ | ⟨-, -, rfl⟩ | ⟨-, -, rfl⟩
        · cases hv
        · cases hv
        · exact hexit
        · cases hv
        · cases hv
      · rw [hworker, update_of_ne hvw] at hv
        exact hs.exited v hv
    · rw [hworker] at hv
      by_cases hvw : v = w
      · subst hvw; rw [update_self] at hv; cases hv
      · rw [update_of_ne hvw] at hv; exact hs.exited v hv
    · rw [hworker] at hv
      by_cases hvw : v = w
      · subst hvw; rw [update_self] at hv; cases hv
      · rw [update_of_ne hvw] at hv; exact hs.exited v hv

theorem Quiet.serverExit (hs : Quiet s) (hfinal : finalExit s .serverExit = true) (h : serverExit s = .ok t) :
    Quiet t := by
  simp only [finalExit, decide_eq_true_eq] at hfinal
  have hidle : ∀ p, s.producer p = .idle := fun p => by
    rcases hfinal with hne | hidle
    · exact hs.idle hne p
    · exact hidle p
  obtain ⟨-, -, hcases⟩ := serverExit_cases h
  rcases hcases with ⟨-, rfl⟩ | ⟨he, rfl⟩ | ⟨he, rfl⟩ | ⟨i, j, he, rfl⟩ | ⟨i, he, rfl⟩
  · exact ⟨fun _ => hidle, by simp, fun _ _ => rfl⟩
  · have hexiting := hs.exiting.2 (by rw [he]; simp)
    exact ⟨fun _ => hidle, by simp [broadcastEmpty, hexiting], fun _ _ => hexiting⟩
  · have hexiting := hs.exiting.2 (by rw [he]; simp)
    refine ⟨fun _ p => ?_, by simp [broadcastFull, hexiting], fun _ _ => hexiting⟩
    simp [broadcastFull, hidle p, Producer.wake]
  · have hexiting := hs.exiting.2 (by rw [he]; simp)
    exact ⟨fun _ => hidle, by simp [hexiting], fun _ _ => hexiting⟩
  · have hexiting := hs.exiting.2 (by rw [he]; simp)
    exact ⟨fun _ => hidle, by simp [hexiting], fun _ _ => hexiting⟩

theorem step_quiet {op : Op nw np} (hs : Quiet s) (hfinal : finalExit s op = true) (h : step s op = .ok t) :
    Quiet t := by
  obtain ⟨-, hop⟩ := step_eq_ok.1 h
  cases op with
  | worker w => exact hs.worker hop
  | serverRequest p connfd =>
    obtain ⟨-, hworker, hexiting, hexit, -⟩ := serverRequest_cases hop
    have hnot : t.exit = .notCalled := by rw [hexit]; simpa [finalExit] using hfinal
    refine ⟨fun hne => absurd hnot hne, by rw [hexiting, hexit]; exact hs.exiting, fun w hw => ?_⟩
    rw [hexiting]; rw [hworker] at hw; exact hs.exited w hw
  | request p =>
    obtain ⟨hp, hexiting, hexit, -, hcases⟩ := request_cases hop
    have hnot : t.exit = .notCalled := by rw [hexit]; exact hs.notCalled hp
    refine ⟨fun hne => absurd hnot hne, by rw [hexiting, hexit]; exact hs.exiting, fun w hw => ?_⟩
    rw [hexiting]
    rcases hcases with ⟨-, hworker⟩ | ⟨connfd, -, -, hworker⟩
    · rw [hworker] at hw; exact hs.exited w hw
    · rcases hworker w with hsame | hwake
      · rw [hsame] at hw; exact hs.exited w hw
      · rw [hwake] at hw; exact hs.exited w (Worker.wake_eq_exited hw)
  | serverExit => exact hs.serverExit hfinal hop
  | wakeWorker w =>
    cases hop
    refine ⟨hs.idle, hs.exiting, fun v hv => hs.exited v ?_⟩
    by_cases hvw : v = w
    · subst hvw
      simp only [setWorker, update_self] at hv
      exact Worker.wake_eq_exited hv
    · simpa only [setWorker, update_of_ne hvw] using hv
  | wakeProducer p =>
    cases hop
    refine ⟨fun hne q => ?_, hs.exiting, hs.exited⟩
    have hidle := hs.idle hne
    by_cases hqp : q = p
    · subst hqp; simp only [setProducer, update_self, hidle]; rfl
    · simp only [setProducer, update_of_ne hqp, hidle]

/-! ## No worker is left behind -/

/-- after the broadcast of `empty` no worker waits, nor can one come to wait again -/
def Released (s : State nw np) : Prop :=
  s.exit.broadcasted = true → ∀ w, s.worker w = .woken ∨ s.worker w = .exited

theorem Worker.wake_of_parked {x : Worker} (h : x.parked = true) : x.wake = .woken ∨ x.wake = .exited := by
  cases x <;> simp_all [Worker.parked, Worker.wake]

theorem step_released {op : Op nw np} (hq : Quiet s) (hs : Released s) (hg : exitFindsParked s op = true)
    (h : step s op = .ok t) : Released t := by
  simp only [exitFindsParked, Bool.and_eq_true, decide_eq_true_eq] at hg
  obtain ⟨hfinal, hparked⟩ := hg
  obtain ⟨-, hop⟩ := step_eq_ok.1 h
  have hexiting : s.exit.broadcasted = true → s.exiting = true := fun hb => hq.exiting.2 fun hc => by
    rw [hc] at hb; cases hb
  cases op with
  | worker w =>
    obtain ⟨-, hexit, -, hcases⟩ := worker_cases hop
    intro hb v
    rw [hexit] at hb
    have hstate := hs hb w
    -- `w` was woken, so with `exiting` set it ends
    have hworker : t.worker = update s.worker w .exited := by
      rcases hcases with ⟨-, -, x, hworker, hx⟩ | ⟨hw, -⟩ | ⟨connfd, hw, -⟩
      · rcases hx with ⟨hw, -⟩ | ⟨hw, -⟩ | ⟨-, -, rfl⟩ | ⟨-, hfalse, -⟩ | ⟨connfd, hw, -⟩
        · rw [hw] at hstate; simp at hstate
        · rw [hw] at hstate; simp at hstate
        · exact hworker
        · rw [hexiting hb] at hfalse; cases hfalse
        · rw [hw] at hstate; simp at hstate
      · rw [hw] at hstate; simp at hstate
      · rw [hw] at hstate; simp at hstate
    rw [hworker]
    by_cases hvw : v = w
    · subst hvw; right; exact update_self ..
    · rw [update_of_ne hvw]; exact hs hb v
  | serverRequest p connfd =>
    obtain ⟨-, hworker, -, hexit, -⟩ := serverRequest_cases hop
    intro hb w
    rw [hexit] at hb; rw [hworker]
    exact hs hb w
  | request p =>
    obtain ⟨hp, -, hexit, -, -⟩ := request_cases hop
    intro hb w
    rw [hexit, hq.notCalled hp] at hb; cases hb
  | serverExit =>
    obtain ⟨-, -, hcases⟩ := serverExit_cases hop
    rcases hcases with ⟨-, rfl⟩ | ⟨he, rfl⟩ | ⟨he, rfl⟩ | ⟨i, j, he, rfl⟩ | ⟨i, he, rfl⟩ <;> intro hb w
    · cases hb
    · have hall : ∀ w, (s.worker w).parked = true := by simpa [he] using hparked
      exact Worker.wake_of_parked (hall w)
    · exact hs (by rw [he]; rfl) w
    · exact hs (by rw [he]; rfl) w
    · exact hs (by rw [he]; rfl) w
  | wakeWorker w =>
    cases hop
    intro hb v
    by_cases hvw : v = w
    · subst hvw
      simp only [setWorker, update_self]
      rcases hs hb v with hw | hw <;> rw [hw] <;> simp [Worker.wake]
    · simpa only [setWorker, update_of_ne hvw] using hs hb v
  | wakeProducer p =>
    cases hop
    exact hs

end

/-- **No worker is left behind** by a `server_exit` that finds every worker in its wait: from the broadcast of `empty`
on, no worker is waiting on it, so no `pthread_join` is stuck on one. -/
theorem no_worker_left_behind (nw np : ℕ) (maxRequests : ℤ) (s0 s : State nw np)
    (h0 : serverInit nw np maxRequests = .ok s0) (hrun : Run step exitFindsParked s0 s)
    (hexit : s.exit.broadcasted = true) (w : Fin nw) : s.worker w ≠ .waiting := by
  have hreleased0 : Released s0 := fun hb => by
    rw [(serverInit_eq_ok h0).2.2.1] at hb; cases hb
  obtain ⟨-, hreleased⟩ := hrun.inv (fun s => Quiet s ∧ Released s)
    (fun s op s' h hg hs => ⟨step_quiet h.1 (Bool.and_eq_true_iff.1 hg).1 hs, step_released h.1 h.2 hg hs⟩)
    ⟨quiet_init h0, hreleased0⟩
  rcases hreleased hexit w with hw | hw <;> rw [hw] <;> simp

/-- two workers, one of them woken by a request that the other has served -/
theorem no_worker_left_behind_of_idle_pool :
    ∃ s0 s : State 2 1, serverInit 2 1 1 = .ok s0 ∧ Run step exitFindsParked s0 s ∧ s.exit = .joining 0 ∧
      s.worker 0 ≠ .waiting := by
  obtain ⟨s0, h0, hs0⟩ : ∃ s0, serverInit 2 1 1 = .ok s0 ∧
      passes step exitFindsParked (fun s => decide (s.exit = .joining 0)) s0
        [.worker 0, .worker 0, .worker 1, .worker 1, .serverRequest 0 7, .request 0, .request 0, .worker 1, .worker 1,
          .worker 1, .worker 1, .worker 1, .worker 1, .serverExit, .serverExit, .serverExit] = true :=
    ⟨_, rfl, by decide⟩
  obtain ⟨s, hrun, hs⟩ := run_of_passes _ hs0
  have hexit : s.exit = .joining 0 := of_decide_eq_true hs
  exact ⟨s0, s, h0, hrun, hexit, no_worker_left_behind 2 1 1 s0 s h0 hrun (by rw [hexit]; rfl) 0⟩

/-- a worker that has not yet reached its wait when `server_exit` broadcasts is left waiting -/
theorem worker_left_behind :
    ¬ ∀ (nw np : ℕ) (maxRequests : ℤ) (s0 s : State nw np), 1 ≤ maxRequests → serverInit nw np maxRequests = .ok s0 →
      Run step broadcastsOnly s0 s → ∀ i w, s.exit = .joining i → s.worker w ≠ .waiting := by
  intro hall
  obtain ⟨s0, h0, hs0⟩ : ∃ s0, serverInit 1 1 1 = .ok s0 ∧
      passes step broadcastsOnly (fun s => decide (s.exit = .joining 0 ∧ s.worker 0 = .waiting)) s0
        [.serverExit, .serverExit, .serverExit, .worker 0, .worker 0] = true := ⟨_, rfl, by decide⟩
  obtain ⟨s, hrun, hs⟩ := run_of_passes _ hs0
  have hend : s.exit = .joining 0 ∧ s.worker 0 = .waiting := of_decide_eq_true hs
  exact hall 1 1 1 s0 s le_rfl h0 hrun 0 0 hend.1 hend.2

/-! ## No request is dropped -/

/-- the descriptor a worker has read and not yet passed on -/
def Worker.holds : Worker → Multiset ℤ
  | .unlocked connfd => {connfd}
  | _ => 0

/-- what was read is served, or about to be -/
def Accounted {nw np : ℕ} (s : State nw np) : Prop :=
  (s.served : Multiset ℤ) + ∑ w, (s.worker w).holds = (s.got : Multiset ℤ)

/-- with `exiting` set, the ring is empty or some worker will look at it before it can end -/
def Attended {nw np : ℕ} (s : State nw np) : Prop :=
  s.exiting = true → s.requestCounter = 0 ∨ ∃ w, (s.worker w).parked = false

@[simp] theorem Worker.holds_wake (x : Worker) : x.wake.holds = x.holds := by cases x <;> rfl

section

variable {nw np : ℕ} {s t : State nw np}

theorem accounted_of_same (hs : Accounted s) (hgot : t.got = s.got) (hserved : t.served = s.served)
    (hholds : ∀ w, (t.worker w).holds = (s.worker w).holds) : Accounted t := by
  unfold Accounted
  rw [hgot, hserved, Finset.sum_congr rfl fun w _ => hholds w]
  exact hs

theorem Accounted.worker (hs : Accounted s) {w : Fin nw} (h : worker s w = .ok t) : Accounted t := by
  obtain ⟨-, -, -, hcases⟩ := worker_cases h
  rcases hcases with ⟨hring, hserved, x, hworker, hx⟩ | ⟨hw, -, hring, hserved, hworker⟩ |
      ⟨connfd, hw, hring, hserved, hworker⟩
  · have hgot : t.got = s.got := by rw [hring]
    refine accounted_of_same hs hgot hserved fun v => ?_
    rw [hworker]
    by_cases hvw : v = w
    · subst hvw
      rw [update_self]
      rcases hx with ⟨hw, rfl⟩ | ⟨hw, -, rfl⟩ | ⟨hw, -, rfl⟩ | ⟨hw, -, rfl⟩ | ⟨connfd, hw, rfl⟩ <;> rw [hw] <;> rfl
    · rw [update_of_ne hvw]
  · have hsum := sum_update Worker.holds s.worker w (.unlocked (s.buffer s.outIndex))
    rw [hw, show Worker.locked.holds = 0 from rfl, add_zero] at hsum
    have hgot : t.got = s.got ++ [s.buffer s.outIndex] := by rw [hring]; rfl
    unfold Accounted at hs ⊢
    rw [hserved, hworker, hsum, hgot, ← add_assoc, hs]
    rfl
  · have hsum := sum_update Worker.holds s.worker w (.serving connfd)
    rw [hw, show (Worker.serving connfd).holds = 0 from rfl, add_zero] at hsum
    have hgot : t.got = s.got := by rw [hring]
    unfold Accounted at hs ⊢
    rw [hserved, hworker, hgot, ← hs, ← hsum]
    show ((s.served ++ [connfd] : List ℤ) : Multiset ℤ) + _ = _
    rw [← Multiset.coe_add, add_assoc, add_comm (([connfd] : List ℤ) : Multiset ℤ)]
    rfl

theorem step_accounted (hnw : nw ≠ 0) {op : Op nw np} (hs : Accounted s) (h : step s op = .ok t) : Accounted t := by
  obtain ⟨-, hop⟩ := step_eq_ok.1 h
  cases op with
  | worker w => exact hs.worker hop
  | serverRequest p connfd =>
    obtain ⟨hring, hworker, -, -, hserved⟩ := serverRequest_cases hop
    exact accounted_of_same hs (by rw [hring]) (hserved hnw) fun w => by rw [hworker]
  | request p =>
    obtain ⟨-, -, -, hserved, hcases⟩ := request_cases hop
    rcases hcases with ⟨hring, hworker⟩ | ⟨connfd, -, hring, hworker⟩
    · exact accounted_of_same hs (by rw [hring]) hserved fun w => by rw [hworker]
    · refine accounted_of_same hs (by rw [hring]; rfl) hserved fun w => ?_
      rcases hworker w with hw | hw <;> rw [hw]
      exact Worker.holds_wake _
  | serverExit =>
    obtain ⟨hring, hserved, hcases⟩ := serverExit_cases hop
    refine accounted_of_same hs (by rw [hring]) hserved fun w => ?_
    rcases hcases with ⟨-, rfl⟩ | ⟨-, rfl⟩ | ⟨-, rfl⟩ | ⟨_, _, -, rfl⟩ | ⟨_, -, rfl⟩
    · rfl
    · exact Worker.holds_wake _
    · rfl
    · rfl
    · rfl
  | wakeWorker w =>
    cases hop
    refine accounted_of_same hs rfl rfl fun v => ?_
    by_cases hvw : v = w
    · subst hvw; simp [setWorker]
    · simp [setWorker, update_of_ne hvw]
  | wakeProducer p => cases hop; exact hs

theorem Attended.worker (hs : Attended s) {w : Fin nw} (h : worker s w = .ok t) : Attended t := by
  obtain ⟨hexiting, -, -, hcases⟩ := worker_cases h
  intro he
  rw [hexiting] at he
  rcases hcases with ⟨hring, -, x, hworker, hx⟩ | ⟨-, -, -, -, hworker⟩ | ⟨connfd, -, -, -, hworker⟩
  · rcases hs he with hzero | ⟨v, hv⟩
    · left; rw [hring]; exact hzero
    · by_cases hvw : v = w
      · subst hvw
        rcases hx with ⟨-, rfl⟩ | ⟨-, hzero, -⟩ | ⟨hw, -⟩ | ⟨hw, -⟩ | ⟨_, -, rfl⟩
        · exact .inr ⟨v, by rw [hworker, update_self]; rfl⟩
        · left; rw [hring]; exact hzero
        · rw [hw] at hv; cases hv
        · rw [hw] at hv; cases hv
        · exact .inr ⟨v, by rw [hworker, update_self]; rfl⟩
      · exact .inr ⟨v, by rw [hworker, update_of_ne hvw]; exact hv⟩
  · exact .inr ⟨w, by rw [hworker, update_self]; rfl⟩
  · exact .inr ⟨w, by rw [hworker, update_self]; rfl⟩

/-- a step that leaves the counter and `exiting` alone and parks no worker -/
theorem attended_of_same (hs : Attended s) (hexiting : t.exiting = s.exiting) (hring : t.toRing = s.toRing)
    (hparked : ∀ w, (t.worker w).parked = (s.worker w).parked) : Attended t := by
  intro he
  rw [hexiting] at he
  rcases hs he with hzero | ⟨w, hw⟩
  · left; rw [hring]; exact hzero
  · exact .inr ⟨w, by rw [hparked]; exact hw⟩

theorem step_attended {op : Op nw np} (hq : Quiet s) (hs : Attended s) (hg : exitFindsServed s op = true)
    (h : step s op = .ok t) : Attended t := by
  simp only [exitFindsServed, Bool.and_eq_true, decide_eq_true_eq] at hg
  obtain ⟨-, hserved⟩ := hg
  obtain ⟨-, hop⟩ := step_eq_ok.1 h
  cases op with
  | worker w => exact hs.worker hop
  | serverRequest p connfd =>
    obtain ⟨hring, hworker, hexiting, -, -⟩ := serverRequest_cases hop
    exact attended_of_same hs hexiting hring fun w => by rw [hworker]
  | request p =>
    obtain ⟨hp, hexiting, -, -, -⟩ := request_cases hop
    intro he
    rw [hexiting] at he
    exact absurd (hq.notCalled hp) (hq.exiting.1 he)
  | serverExit =>
    obtain ⟨-, -, hcases⟩ := serverExit_cases hop
    rcases hcases with ⟨he, rfl⟩ | ⟨-, rfl⟩ | ⟨-, rfl⟩ | ⟨_, _, -, rfl⟩ | ⟨_, -, rfl⟩
    · intro _
      simpa [he] using hserved
    · exact attended_of_same hs rfl rfl fun w => Worker.parked_wake _
    · exact attended_of_same hs rfl rfl fun _ => rfl
    · exact attended_of_same hs rfl rfl fun _ => rfl
    · exact attended_of_same hs rfl rfl fun _ => rfl
  | wakeWorker w =>
    cases hop
    refine attended_of_same hs rfl rfl fun v => ?_
    by_cases hvw : v = w
    · subst hvw; simp [setWorker]
    · simp [setWorker, update_of_ne hvw]
  | wakeProducer p => cases hop; exact hs

end

/-- **No request is dropped** by a `server_exit` that finds the ring empty or some worker outside its wait: once every
worker has ended, the descriptors passed to `do_server_request` are those stored in the ring, each as often. -/
theorem no_request_dropped (nw np : ℕ) (maxRequests : ℤ) (hnw : 1 ≤ nw) (hpos : 1 ≤ maxRequests) (s0 s : State nw np)
    (h0 : serverInit nw np maxRequests = .ok s0) (hrun : Run step exitFindsServed s0 s)
    (hend : ∀ w, s.worker w = .exited) : s.served.Perm s.stored := by
  obtain ⟨-, hexiting0, -, hserved0, hgot0, hworker0, hok0⟩ := serverInit_eq_ok h0
  have haccounted0 : Accounted s0 := by
    unfold Accounted
    rw [hserved0, hgot0, Finset.sum_eq_zero fun w _ => by rw [hworker0]; rfl]
    rfl
  have hattended0 : Attended s0 := fun he => by rw [hexiting0] at he; cases he
  obtain ⟨hok, hq, haccounted, hattended⟩ := hrun.inv (fun s => s.toRing.Ok ∧ Quiet s ∧ Accounted s ∧ Attended s)
    (fun s op s' h hg hs => ⟨step_ringOk h.1 hs, step_quiet h.2.1 (Bool.and_eq_true_iff.1 hg).1 hs,
      step_accounted (by omega) h.2.2.1 hs, step_attended h.2.1 h.2.2.2 hg hs⟩)
    ⟨hok0 hpos, quiet_init h0, haccounted0, hattended0⟩
  have hexiting : s.exiting = true := hq.exited ⟨0, hnw⟩ (hend _)
  have hzero : s.requestCounter = 0 := by
    rcases hattended hexiting with hzero | ⟨w, hw⟩
    · exact hzero
    · rw [hend w] at hw; cases hw
  have hqueue : s.queue = [] := by simp [Ring.queue, hzero]
  have hgot : s.stored = s.got := by rw [hok.queue, hqueue, List.append_nil]
  have hnone : ∑ w, (s.worker w).holds = 0 := Finset.sum_eq_zero fun w _ => by rw [hend w]; rfl
  unfold Accounted at haccounted
  rw [hnone, add_zero] at haccounted
  rw [hgot]
  exact Multiset.coe_eq_coe.1 haccounted

/-- a request stored while the only worker serves another is still served after `exiting` is set -/
theorem no_request_dropped_of_busy_worker :
    ∃ s0 s : State 1 1, serverInit 1 1 1 = .ok s0 ∧ Run step exitFindsServed s0 s ∧ s.stored = [7, 8] ∧
      s.served.Perm s.stored := by
  obtain ⟨s0, h0, hs0⟩ : ∃ s0, serverInit 1 1 1 = .ok s0 ∧
      passes step exitFindsServed (fun s => decide (s.stored = [7, 8] ∧ ∀ w, s.worker w = .exited)) s0
        [.serverRequest 0 7, .request 0, .request 0, .worker 0, .worker 0, .worker 0, .serverRequest 0 8, .request 0,
          .request 0, .serverExit, .worker 0, .worker 0, .worker 0, .worker 0, .worker 0, .worker 0, .worker 0,
          .serverExit, .worker 0] = true := ⟨_, rfl, by decide⟩
  obtain ⟨s, hrun, hs⟩ := run_of_passes _ hs0
  have hend : s.stored = [7, 8] ∧ ∀ w, s.worker w = .exited := of_decide_eq_true hs
  exact ⟨s0, s, h0, hrun, hend.1, no_request_dropped 1 1 1 le_rfl le_rfl s0 s h0 hrun hend.2⟩

/-- the only worker is woken by a request, sees `exiting` and ends; the request stays in the ring -/
theorem request_dropped :
    ¬ ∀ (nw np : ℕ) (maxRequests : ℤ) (s0 s : State nw np), 1 ≤ nw → 1 ≤ maxRequests →
      serverInit nw np maxRequests = .ok s0 → Run step broadcastsOnly s0 s → (∀ w, s.worker w = .exited) →
      s.served.Perm s.stored := by
  intro hall
  obtain ⟨s0, h0, hs0⟩ : ∃ s0, serverInit 1 1 1 = .ok s0 ∧
      passes step broadcastsOnly
        (fun s => decide (s.stored = [7] ∧ s.served = [] ∧ ∀ w, s.worker w = .exited)) s0
        [.worker 0, .worker 0, .serverRequest 0 7, .request 0, .request 0, .serverExit, .worker 0] = true :=
    ⟨_, rfl, by decide⟩
  obtain ⟨s, hrun, hs⟩ := run_of_passes _ hs0
  have hend : s.stored = [7] ∧ s.served = [] ∧ ∀ w, s.worker w = .exited := of_decide_eq_true hs
  have hperm := hall 1 1 1 s0 s le_rfl le_rfl h0 hrun hend.2.2
  rw [hend.1, hend.2.1] at hperm
  have hlen := hperm.length_eq
  simp at hlen

end OsLab.Server
