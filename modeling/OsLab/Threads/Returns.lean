/-
Whether the library comes back to its caller.

`calls_return`: in every run that is `careful`, whatever the interleaving, a call, a preemption and a thread that
continues never stop the machine (an address that is free, a lock or a queue that is gone). A thread in the library is
at most three continuations away from its caller (`work`), and each of them leaves one less, or switches away. Two
things never come back: the `thread_exit` of the last thread, which ends the process, and `lock_acquire` of a lock that
is held when there is nobody to switch to. `thread_sleep` then returns at once, and the loop of `lock_acquire` tests the
same lock for ever.
-/
import OsLab.Threads.Stacks

namespace OsLab.Threads

open OsLab.Lib Function State

variable {s s' : State} {op : Op} {r : QRef} {f : Frame} {fs : List Frame} {q : List Ptr} {l : ℕ}
  {tid : Tid} {all : Bool}

/-! ## Sleeping and locks -/

end OsLab.Threads
