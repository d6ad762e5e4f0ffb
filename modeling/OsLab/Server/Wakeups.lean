/-
No wake-up is missed in the worker pool.

`send_to_buffer` broadcasts `empty` only when the ring was empty and `read_from_buffer` broadcasts `full` only when it
was full, both before they change the counter. `Awake` is why that is enough: whoever waits un-notified waits on a ring
that is still empty, or still full, so the first change of the counter comes with a broadcast to everybody.
-/
import Mathlib.Tactic
import OsLab.Lib.Run
import OsLab.Server.Pool

namespace OsLab.Server

open OsLab.Lib
open Function (update update_self update_of_ne)

/-- a worker waits only on an empty ring, a caller of `server_request` only on a full one -/
structure Awake {nw np : ℕ} (s : State nw np) : Prop where
  worker : ∀ w, s.worker w = .waiting → s.requestCounter = 0
  producer : ∀ p connfd, s.producer p = .waiting connfd → s.requestCounter = s.maxRequests

section

variable {nw np : ℕ} {s t : State nw np}

theorem Producer.wake_ne_waiting (x : Producer) (connfd : ℤ) : x.wake ≠ .waiting connfd := by
  cases x <;> simp [Producer.wake]

/-- a thread that does not begin to wait: the other threads and the counter are as before -/
theorem Awake.setWorker (h : Awake s) {w : Fin nw} {x : Worker} (hx : x = .waiting → s.requestCounter = 0) :
    Awake (setWorker s w x) := by
  refine ⟨fun v hv => ?_, h.producer⟩
  by_cases hvw : v = w
  · subst hvw
    simp only [Server.setWorker, update_self] at hv
    exact hx hv
  · simp only [Server.setWorker, update_of_ne hvw] at hv
    exact h.worker v hv

theorem Awake.setProducer (h : Awake s) {p : Fin np} {x : Producer}
    (hx : ∀ connfd, x = .waiting connfd → s.requestCounter = s.maxRequests) : Awake (setProducer s p x) := by
  refine ⟨h.worker, fun v connfd hv => ?_⟩
  by_cases hvp : v = p
  · subst hvp
    simp only [Server.setProducer, update_self] at hv
    exact hx connfd hv
  · simp only [Server.setProducer, update_of_ne hvp] at hv
    exact h.producer v connfd hv

theorem Awake.broadcastEmpty (h : Awake s) : Awake (broadcastEmpty s) :=
  ⟨fun _ hw => absurd hw (Worker.wake_ne_waiting _), h.producer⟩

theorem Awake.broadcastFull (h : Awake s) : Awake (broadcastFull s) :=
  ⟨h.worker, fun _ connfd hp => absurd hp (Producer.wake_ne_waiting _ connfd)⟩

/-- the ring was not full: nobody waits on `full`. If it was empty the broadcast leaves nobody waiting on `empty`. -/
theorem Awake.send (h : Awake s) {connfd : ℤ} (hroom : s.requestCounter ≠ s.maxRequests)
    (hs : sendToBuffer s connfd = .ok t) : Awake t := by
  unfold sendToBuffer at hs
  split at hs
  · cases hs
    dsimp only
    split
    · exact ⟨fun w hw => absurd hw (Worker.wake_ne_waiting _), fun p c hp => absurd (h.producer p c hp) hroom⟩
    · next hne => exact ⟨fun w hw => absurd (h.worker w hw) hne, fun p c hp => absurd (h.producer p c hp) hroom⟩
  · cases hs

theorem Awake.read (h : Awake s) {connfd : ℤ} (hne : s.requestCounter ≠ 0)
    (hs : readFromBuffer s = .ok (t, connfd)) : Awake t := by
  unfold readFromBuffer at hs
  split at hs
  · dsimp only at hs
    split at hs
    · cases hs
      exact ⟨fun w hw => absurd (h.worker w hw) hne, fun p c hp => absurd hp (Producer.wake_ne_waiting _ c)⟩
    · next hroom =>
      cases hs
      exact ⟨fun w hw => absurd (h.worker w hw) hne, fun p c hp => absurd (h.producer p c hp) hroom⟩
  · cases hs

/-- the mutex, `served` and what `server_exit` writes do not matter -/
theorem Awake.congr (h : Awake s) (hring : t.toRing = s.toRing) (hw : t.worker = s.worker)
    (hp : t.producer = s.producer) : Awake t := by
  refine ⟨fun w hwait => ?_, fun p connfd hwait => ?_⟩
  · rw [hring]; exact h.worker w (hw ▸ hwait)
  · rw [hring]; exact h.producer p connfd (hp ▸ hwait)

theorem Awake.step_worker (h : Awake s) {w : Fin nw} (hs : Server.worker s w = .ok t) : Awake t := by
  have hlock : ∀ l, Awake { s with lock := l } := fun l => h.congr rfl rfl rfl
  unfold Server.worker at hs
  cases hw : s.worker w with
  | start =>
    simp only [hw] at hs
    split at hs <;> cases hs
    exact (hlock _).setWorker (by simp)
  | locked =>
    simp only [hw] at hs
    split at hs
    · next hzero => cases hs; exact (hlock none).setWorker fun _ => hzero
    · next hne =>
      rw [bind_eq_ok] at hs
      obtain ⟨⟨u, connfd⟩, hread, hs⟩ := hs
      cases hs
      have hu : Awake { u with lock := none } := (h.read hne hread).congr rfl rfl rfl
      exact hu.setWorker (by simp)
  | waiting => simp [hw] at hs
  | woken =>
    simp only [hw] at hs
    split at hs
    · split at hs <;> cases hs
      · exact h.setWorker (by simp)
      · exact (hlock _).setWorker (by simp)
    · cases hs
  | unlocked connfd =>
    simp only [hw] at hs
    cases hs
    have hserved : Awake { s with served := s.served ++ [connfd] } := h.congr rfl rfl rfl
    exact hserved.setWorker (by simp)
  | serving connfd =>
    simp only [hw] at hs
    cases hs
    exact h.setWorker (by simp)
  | exited => simp [hw] at hs

theorem Awake.step_request (h : Awake s) {p : Fin np} (hs : request s p = .ok t) : Awake t := by
  have hlock : ∀ l, Awake { s with lock := l } := fun l => h.congr rfl rfl rfl
  unfold request at hs
  cases hp : s.producer p with
  | idle => simp [hp] at hs
  | start connfd =>
    simp only [hp] at hs
    split at hs <;> cases hs
    exact (hlock _).setProducer (by simp)
  | locked connfd =>
    simp only [hp] at hs
    split at hs
    · next hfull => cases hs; exact (hlock none).setProducer fun _ _ => hfull
    · next hroom =>
      rw [bind_eq_ok] at hs
      obtain ⟨u, hsend, hs⟩ := hs
      cases hs
      have hu : Awake { u with lock := none } := (h.send hroom hsend).congr rfl rfl rfl
      exact hu.setProducer (by simp)
  | waiting connfd => simp [hp] at hs
  | woken connfd =>
    simp only [hp] at hs
    split at hs
    · split at hs <;> cases hs
      · exact h.setProducer (by simp)
      · exact (hlock _).setProducer (by simp)
    · cases hs
  | serving connfd =>
    simp only [hp] at hs
    cases hs
    exact h.setProducer (by simp)
  | exited => simp [hp] at hs

theorem Awake.step_exit (h : Awake s) (hs : serverExit s = .ok t) : Awake t := by
  obtain ⟨-, -, hcases⟩ := serverExit_cases hs
  rcases hcases with ⟨-, rfl⟩ | ⟨-, rfl⟩ | ⟨-, rfl⟩ | ⟨i, j, -, rfl⟩ | ⟨i, -, rfl⟩
  · exact h.congr rfl rfl rfl
  · exact h.broadcastEmpty.congr rfl rfl rfl
  · exact h.broadcastFull.congr rfl rfl rfl
  · exact h.congr rfl rfl rfl
  · exact h.congr rfl rfl rfl

theorem Awake.step {op : Op nw np} (h : Awake s) (hs : step s op = .ok t) : Awake t := by
  obtain ⟨-, hop⟩ := step_eq_ok.1 hs
  cases op with
  | worker w => exact h.step_worker hop
  | serverRequest p connfd =>
    simp only [act, serverRequest] at hop
    split at hop
    · split at hop <;> cases hop
      · have hserved : Awake { s with served := s.served ++ [connfd] } := h.congr rfl rfl rfl
        exact hserved.setProducer (by simp)
      · exact h.setProducer (by simp)
    · cases hop
  | request p => exact h.step_request hop
  | serverExit => exact h.step_exit hop
  | wakeWorker w => cases hop; exact h.setWorker fun hw => absurd hw (Worker.wake_ne_waiting _)
  | wakeProducer p => cases hop; exact h.setProducer fun c hp => absurd hp (Producer.wake_ne_waiting _ c)

/-- **No missed wake-up.** In every state of every run, with any numbers of threads and spurious wake-ups, if a worker
waits un-notified the ring is empty, and if a caller of `server_request` does the ring is full. -/
theorem no_missed_wakeup (nw np : ℕ) (maxRequests : ℤ) (s0 s : State nw np) (h0 : serverInit nw np maxRequests = .ok s0)
    (hrun : Run Server.step anyStep s0 s) :
    (∀ w, s.worker w = .waiting → s.requestCounter = 0) ∧
      ∀ p connfd, s.producer p = .waiting connfd → s.requestCounter = maxRequests := by
  have hinit : Awake s0 ∧ s0.maxRequests = maxRequests := by
    unfold serverInit at h0
    split at h0 <;> cases h0
    refine ⟨⟨fun w hw => ?_, fun p c hp => ?_⟩, rfl⟩
    · cases hw
    · cases hp
  obtain ⟨h, hmax⟩ := hrun.inv (fun s => Awake s ∧ s.maxRequests = maxRequests)
    (fun s op t h _ hs => ⟨h.1.step hs, (step_maxRequests hs).trans h.2⟩) hinit
  exact ⟨h.worker, fun p connfd hp => by rw [h.producer p connfd hp, hmax]⟩

/-- two workers wait, a request wakes both, one of them reads it and the other waits again: the ring is empty -/
theorem no_missed_wakeup_two_workers :
    ∃ s0 s : State 2 1, serverInit 2 1 1 = .ok s0 ∧ Run Server.step anyStep s0 s ∧ s.stored = [7] ∧
      s.worker 1 = .waiting ∧ s.requestCounter = 0 := by
  obtain ⟨s0, h0, hs0⟩ : ∃ s0, serverInit 2 1 1 = .ok s0 ∧ passes Server.step anyStep
      (fun s => decide (s.stored = [7] ∧ s.worker 1 = .waiting)) s0
      [.worker 0, .worker 0, .worker 1, .worker 1, .serverRequest 0 7, .request 0, .request 0, .worker 0, .worker 0,
        .worker 1, .worker 1] = true := ⟨_, rfl, by decide⟩
  obtain ⟨s, hrun, hs⟩ := run_of_passes _ hs0
  obtain ⟨hstored, hwait⟩ := of_decide_eq_true hs
  exact ⟨s0, s, h0, hrun, hstored, hwait, (no_missed_wakeup 2 1 1 s0 s h0 hrun).1 1 hwait⟩

end

end OsLab.Server
