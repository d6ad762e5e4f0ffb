/-
Routines that keep a timer signal blocked while they work, on one processor with context switches.

A routine is a statement over the data `D` of the machine and its locals `L`. Every call has a frame on the stack of its
thread, with a local `enabled`. `off` is `enabled = interrupts_off()`, `restore` is `interrupts_set(enabled)`. Where the
signal is unblocked it may arrive before any statement: the handler is called with the signal blocked, and its return
restores the mask.

`getcontext(p)` saves the point after it, its frame and the mask; `setcontext(p)` continues a saved context: its mask is
installed and its thread runs. The frames stay in the memory of their stack, so a local that is written after
`getcontext` keeps the written value. A context whose frame has returned cannot be continued. `makecontext(p)` turns the
context of `p` into the start of a thread on a stack of its own.

Outside of all routines a thread runs user code, which calls routines and changes the mask as it likes.

`Stmt.flow` is the discipline, a check of the text of a routine: `off` once, then `restore` once on every path before
the return, context switches only between the two. For a program that meets it, and any interleaving:
- `run_returns`: a call returns with the mask it was made with.
- `Inv.not_preempted`, `Inv.switch`: between the `off` and the `restore` of one of its calls a thread is not
  interrupted, and another thread runs only by a `setcontext` of its own.
-/
import Mathlib.Tactic

namespace OsLab.Lib.Signals

/-- a statement; `none` of an operation is undefined behaviour or the end of the process -/
inductive Stmt (D L C T : Type) where
  | skip
  | act (f : D → L → Option (D × L))
  | seq (a b : Stmt D L C T)
  | ite (c : D → L → Option Bool) (a b : Stmt D L C T)
  | loop (c : D → L → Option Bool) (a : Stmt D L C T)
  | call (c : D → L → Option C)
  /-- `return`, which leaves the value in the data -/
  | ret (v : D → L → Option D)
  | off
  | restore
  | getcontext (p : D → L → Option T)
  | makecontext (p : D → L → Option T)
  | setcontext (p : D → L → Option T)

/-- where a call is: before its `off`, between `off` and `restore`, after its `restore` -/
inductive Phase where
  | before
  | inside
  | after
deriving DecidableEq, Repr

/-- how a statement ends: by `return` on every path, or in a phase -/
inductive Flow where
  | ends
  | goes (φ : Phase)
deriving DecidableEq, Repr

def Flow.join : Flow → Flow → Option Flow
  | .ends, x => some x
  | x, .ends => some x
  | .goes φ, .goes ψ => if φ = ψ then some (.goes φ) else none

/-! ## The discipline -/

section

variable {D L C T : Type}

/-- the check of a statement entered in phase `φ`; `none` where it breaks the discipline -/
def Stmt.flow : Stmt D L C T → Phase → Option Flow
  | .skip, φ => some (.goes φ)
  | .act _, φ => some (.goes φ)
  | .seq a b, φ =>
    match a.flow φ with
    | some (.goes ψ) => b.flow ψ
    | r => r
  | .ite _ a b, φ =>
    match a.flow φ, b.flow φ with
    | some x, some y => x.join y
    | _, _ => none
  | .loop _ a, φ =>
    match a.flow φ with
    | some x => x.join (.goes φ)
    | none => none
  | .call _, φ => some (.goes φ)
  | .ret _, φ => if φ = .inside then none else some .ends
  | .off, φ => if φ = .before then some (.goes .inside) else none
  | .restore, φ => if φ = .inside then some (.goes .after) else none
  | .getcontext _, φ => if φ = .inside then some (.goes φ) else none
  | .makecontext _, φ => if φ = .inside then some (.goes φ) else none
  | .setcontext _, φ => if φ = .inside then some (.goes φ) else none

/-- the check of what a call still has to do -/
def Settled : List (Stmt D L C T) → Phase → Prop
  | [], φ => φ ≠ .inside
  | a :: k, φ => ∃ x, a.flow φ = some x ∧ ∀ ψ, x = .goes ψ → Settled k ψ

theorem Flow.join_left {x y z : Flow} (h : x.join y = some z) {φ : Phase} (hx : x = .goes φ) : z = .goes φ := by
  subst hx
  cases y with
  | ends => simpa [join] using h.symm
  | goes ψ =>
    simp only [join] at h
    split at h
    · simpa using h.symm
    · cases h

theorem Flow.join_right {x y z : Flow} (h : x.join y = some z) {φ : Phase} (hy : y = .goes φ) : z = .goes φ := by
  subst hy
  cases x with
  | ends => simpa [join] using h.symm
  | goes ψ =>
    simp only [join] at h
    split at h
    · next he => subst he; simpa using h.symm
    · cases h

variable {a b : Stmt D L C T} {c : D → L → Option Bool} {k : List (Stmt D L C T)} {φ : Phase}

theorem Settled.cons_goes {ψ : Phase} (ha : a.flow φ = some (.goes ψ)) (h : Settled (a :: k) φ) : Settled k ψ := by
  obtain ⟨x, hx, hk⟩ := h
  rw [ha, Option.some.injEq] at hx
  exact hk ψ hx.symm

theorem Settled.seq (h : Settled (.seq a b :: k) φ) : Settled (a :: b :: k) φ := by
  obtain ⟨x, hx, hk⟩ := h
  simp only [Stmt.flow] at hx
  split at hx
  · next ψ ha => exact ⟨_, ha, fun ψ' he => ⟨x, by cases he; exact hx, hk⟩⟩
  · next hne =>
    refine ⟨x, hx, fun ψ he => ?_⟩
    subst he
    exact absurd hx (hne ψ)

theorem Settled.ite (h : Settled (.ite c a b :: k) φ) : Settled (a :: k) φ ∧ Settled (b :: k) φ := by
  obtain ⟨z, hz, hk⟩ := h
  simp only [Stmt.flow] at hz
  split at hz
  · next x y ha hb =>
    exact ⟨⟨x, ha, fun ψ he => hk ψ (Flow.join_left hz he)⟩, ⟨y, hb, fun ψ he => hk ψ (Flow.join_right hz he)⟩⟩
  · cases hz

/-- a turn of the loop, then the loop again; or its end -/
theorem Settled.loop (h : Settled (.loop c a :: k) φ) : Settled (a :: .loop c a :: k) φ ∧ Settled k φ := by
  obtain ⟨z, hz, hk⟩ := id h
  simp only [Stmt.flow] at hz
  split at hz
  · next x ha =>
    have hzφ := Flow.join_right hz rfl
    refine ⟨⟨x, ha, fun ψ he => ?_⟩, hk φ hzφ⟩
    have hψ := Flow.join_left hz he
    rw [hzφ, Flow.goes.injEq] at hψ
    exact hψ ▸ h
  · cases hz

theorem Settled.ret {v : D → L → Option D} (h : Settled (.ret v :: k) φ) : φ ≠ .inside := by
  obtain ⟨x, hx, -⟩ := h
  intro he
  simp [Stmt.flow, he] at hx

theorem Settled.off (h : Settled (.off :: k) φ) : φ = .before ∧ Settled k .inside := by
  obtain ⟨x, hx, hk⟩ := h
  simp only [Stmt.flow] at hx
  split at hx
  · next hφ => exact ⟨hφ, hk _ (Option.some.inj hx).symm⟩
  · cases hx

theorem Settled.restore (h : Settled (.restore :: k) φ) : φ = .inside ∧ Settled k .after := by
  obtain ⟨x, hx, hk⟩ := h
  simp only [Stmt.flow] at hx
  split at hx
  · next hφ => exact ⟨hφ, hk _ (Option.some.inj hx).symm⟩
  · cases hx

/-- the three operations on contexts stand between `off` and `restore` -/
theorem Settled.context (ha : a.flow φ = if φ = .inside then some (.goes φ) else none) (h : Settled (a :: k) φ) :
    φ = .inside ∧ Settled k φ := by
  obtain ⟨x, hx, hk⟩ := h
  rw [ha] at hx
  split at hx
  · next hφ => exact ⟨hφ, hk _ (Option.some.inj hx).symm⟩
  · cases hx

/-- the check of a whole routine -/
def Stmt.balanced (a : Stmt D L C T) : Bool :=
  match a.flow .before with
  | none => false
  | some (.goes .inside) => false
  | some _ => true

theorem settled_of_balanced (h : a.balanced = true) : Settled [a] .before := by
  unfold Stmt.balanced at h
  split at h
  · cases h
  · cases h
  · next x hne hx =>
    refine ⟨x, hx, fun ψ he hin => ?_⟩
    subst he
    subst hin
    exact hne rfl

/-- the check of a handler, whose return restores the mask -/
theorem settled_handler (h : a.flow .inside = some (.goes .inside)) : Settled [a, .restore] .inside := by
  refine ⟨.goes .inside, h, fun ψ hψ => ?_⟩
  cases hψ
  refine ⟨.goes .after, rfl, fun χ hχ => ?_⟩
  cases hχ
  exact nofun

end

/-! ## The machine -/

structure Frame (D L C T : Type) where
  /-- number of the call (ghost) -/
  id : ℕ
  /-- the routine; `none` is the handler -/
  call : Option C
  /-- the mask at the call (ghost) -/
  entry : Bool
  phase : Phase
  enabled : Bool
  locals : L
  code : List (Stmt D L C T)

/-- a saved context: the thread whose stack it is on, the mask, and the point of a call or the start of the thread -/
structure Saved (D L C T : Type) where
  owner : T
  mask : Bool
  point : Option (ℕ × Phase × List (Stmt D L C T))

structure Stack (D L C T : Type) where
  frames : List (Frame D L C T)
  /-- the thread has turned interrupts on for the first time -/
  started : Bool

structure Program (D L C T : Type) where
  body : C → Stmt D L C T
  handler : Stmt D L C T
  locals : L

/-- `mask` is whether the signal is unblocked -/
structure Machine (D L C T : Type) where
  data : D
  cur : T
  mask : Bool
  stack : T → Stack D L C T
  context : T → Option (Saved D L C T)
  next : ℕ

/-- what may happen next -/
inductive Move (C : Type) where
  /-- the innermost call of the running thread executes a statement, or returns -/
  | tick
  /-- user code calls a routine -/
  | call (c : C)
  /-- user code sets the mask -/
  | set (b : Bool)
  /-- a new thread begins: `interrupts_on()` -/
  | start
  /-- the signal arrives -/
  | preempt
deriving DecidableEq, Repr

namespace Machine

variable {D L C T : Type} [DecidableEq T]

/-- the calls the running thread is in, innermost first -/
def frames (m : Machine D L C T) : List (Frame D L C T) := (m.stack m.cur).frames

def put (m : Machine D L C T) (fs : List (Frame D L C T)) : Machine D L C T :=
  { m with stack := Function.update m.stack m.cur { m.stack m.cur with frames := fs } }

/-- a call of `c` above the frames `fs` -/
def enter (P : Program D L C T) (m : Machine D L C T) (c : C) (fs : List (Frame D L C T)) : Machine D L C T :=
  { m.put (⟨m.next, some c, m.mask, .before, false, P.locals, [P.body c]⟩ :: fs) with next := m.next + 1 }

/-- the handler is called; its return is the `restore` -/
def interrupt (P : Program D L C T) (m : Machine D L C T) : Machine D L C T :=
  { m.put (⟨m.next, none, m.mask, .inside, m.mask, P.locals, [P.handler, .restore]⟩ :: m.frames) with
    mask := false
    next := m.next + 1 }

/-- continues a saved context -/
def resume (m : Machine D L C T) (s : Saved D L C T) : Option (Machine D L C T) :=
  match s.point with
  | none => some { m with cur := s.owner, mask := s.mask, stack := Function.update m.stack s.owner ⟨[], false⟩ }
  | some (n, φ, k) =>
    match (m.stack s.owner).frames.dropWhile fun f => f.id ≠ n with
    | [] => none
    | f :: fs => some { m with
        cur := s.owner
        mask := s.mask
        stack := Function.update m.stack s.owner
          { m.stack s.owner with frames := { f with phase := φ, code := k } :: fs } }

/-- the statement `a` of the call `f`, which then has `k` to do -/
def exec (P : Program D L C T) (m : Machine D L C T) (f : Frame D L C T) (fs : List (Frame D L C T))
    (k : List (Stmt D L C T)) : Stmt D L C T → Option (Machine D L C T)
  | .skip => some (m.put ({ f with code := k } :: fs))
  | .act g => (g m.data f.locals).map fun r => { m.put ({ f with locals := r.2, code := k } :: fs) with data := r.1 }
  | .seq a b => some (m.put ({ f with code := a :: b :: k } :: fs))
  | .ite c a b => (c m.data f.locals).map fun v => m.put ({ f with code := (if v then a else b) :: k } :: fs)
  | .loop c a =>
    (c m.data f.locals).map fun v => m.put ({ f with code := if v then a :: .loop c a :: k else k } :: fs)
  | .call c => (c m.data f.locals).map fun c => m.enter P c ({ f with code := k } :: fs)
  | .ret v => (v m.data f.locals).map fun d => { m.put fs with data := d }
  | .off => some { m.put ({ f with enabled := m.mask, phase := .inside, code := k } :: fs) with mask := false }
  | .restore => some { m.put ({ f with phase := .after, code := k } :: fs) with mask := f.enabled }
  | .getcontext p =>
    (p m.data f.locals).map fun p => { m.put ({ f with code := k } :: fs) with
      context := Function.update m.context p (some ⟨m.cur, m.mask, some (f.id, f.phase, k)⟩) }
  | .makecontext p =>
    (p m.data f.locals).bind fun p => (m.context p).map fun s => { m.put ({ f with code := k } :: fs) with
      context := Function.update m.context p (some { s with owner := p, point := none }) }
  | .setcontext p =>
    (p m.data f.locals).bind fun p => (m.context p).bind fun s => (m.put ({ f with code := k } :: fs)).resume s

def tick (P : Program D L C T) (m : Machine D L C T) : Option (Machine D L C T) :=
  match m.frames with
  | [] => none
  | f :: fs =>
    match f.code with
    | [] => some (m.put fs)
    | a :: k => m.exec P f fs k a

/-- the running thread is in user code -/
def atUser (m : Machine D L C T) : Bool := m.frames.isEmpty && (m.stack m.cur).started

def step (P : Program D L C T) (m : Machine D L C T) : Move C → Option (Machine D L C T)
  | .tick => m.tick P
  | .call c => if m.atUser then some (m.enter P c []) else none
  | .set b => if m.atUser then some { m with mask := b } else none
  | .start =>
    if m.frames.isEmpty && !(m.stack m.cur).started then
      some { m with mask := true, stack := Function.update m.stack m.cur ⟨[], true⟩ }
    else none
  | .preempt => if m.mask then some (m.interrupt P) else none

/-- finitely many moves of the threads, in any order -/
def run (P : Program D L C T) (m : Machine D L C T) : List (Move C) → Option (Machine D L C T)
  | [] => some m
  | x :: xs => (m.step P x).bind fun m => m.run P xs

@[simp] theorem put_stack_self (m : Machine D L C T) (fs : List (Frame D L C T)) :
    ((m.put fs).stack m.cur).frames = fs := by
  simp [put]

@[simp] theorem put_frames (m : Machine D L C T) (fs : List (Frame D L C T)) : (m.put fs).frames = fs := by
  simp [frames, put]

end Machine

/-! ## The invariant -/

section

variable {D L C T : Type}

/-- every routine meets the discipline, and so does the handler between its call and its return -/
structure Program.Disciplined (P : Program D L C T) : Prop where
  body : ∀ c, Settled [P.body c] .before
  handler : Settled [P.handler, .restore] .inside

/-- a call under the mask `b` -/
structure Frame.Kept (b : Bool) (f : Frame D L C T) : Prop where
  code : Settled f.code f.phase
  outside : f.phase ≠ .inside → b = f.entry
  blocked : f.phase = .inside → b = false
  enabled : f.phase ≠ .before → f.enabled = f.entry

theorem Frame.Kept.goOn {b : Bool} {f : Frame D L C T} (h : f.Kept b) {k : List (Stmt D L C T)} (hk : Settled k f.phase)
    (l : L) : Frame.Kept b { f with locals := l, code := k } := ⟨hk, h.outside, h.blocked, h.enabled⟩

/-- the calls of a stack under the mask `b`, newest first; below the first, each has the mask the call above it was made
with -/
def Keeps : Bool → List (Frame D L C T) → Prop
  | _, [] => True
  | b, f :: fs => f.Kept b ∧ (∀ g ∈ fs, g.id < f.id) ∧ Keeps f.entry fs

theorem Keeps.append {b : Bool} {fs gs : List (Frame D L C T)} (h : Keeps b (fs ++ gs)) : ∃ b, Keeps b gs := by
  induction fs generalizing b with
  | nil => exact ⟨b, h⟩
  | cons f fs ih => exact ih h.2.2

/-- while a call is between its `off` and its `restore`, the signal is blocked, in the calls above it too -/
theorem Keeps.blocked {b : Bool} {fs : List (Frame D L C T)} (h : Keeps b fs) {f : Frame D L C T} (hf : f ∈ fs)
    (hin : f.phase = .inside) : b = false := by
  induction fs generalizing b with
  | nil => cases hf
  | cons g gs ih =>
    obtain ⟨hg, -, hgs⟩ := h
    rcases List.mem_cons.1 hf with rfl | hm
    · exact hg.blocked hin
    · by_cases hp : g.phase = .inside
      · exact hg.blocked hp
      · rw [hg.outside hp]
        exact ih hgs hm

/-- a saved context: the signal is blocked in it, and its point is between `off` and `restore` of its call -/
structure Saved.Kept (m : Machine D L C T) (s : Saved D L C T) : Prop where
  mask : s.mask = false
  point : ∀ n φ k, s.point = some (n, φ, k) → φ = .inside ∧ Settled k .inside ∧ n < m.next ∧
    ∀ f ∈ (m.stack s.owner).frames, f.id = n → f.enabled = f.entry

namespace Machine

structure Inv (m : Machine D L C T) : Prop where
  cur : Keeps m.mask m.frames
  others : ∀ t, ∃ b, Keeps b (m.stack t).frames
  context : ∀ p s, m.context p = some s → s.Kept m
  fresh : ∀ t, ∀ f ∈ (m.stack t).frames, f.id < m.next

variable [DecidableEq T] {P : Program D L C T} {m m' : Machine D L C T}

/-- after a step: the invariant, and that every call was there before or is new and made under the mask of `m` -/
structure Next (m m' : Machine D L C T) : Prop where
  inv : Inv m'
  next : m.next ≤ m'.next
  frame : ∀ t, ∀ g ∈ (m'.stack t).frames,
    (g.id = m.next ∧ g.entry = m.mask) ∨ ∃ f ∈ (m.stack t).frames, f.id = g.id ∧ f.entry = g.entry

omit [DecidableEq T] in
theorem Next.trans {m1 m2 : Machine D L C T} (h1 : Next m m1) (hnext : m1.next = m.next) (hmask : m1.mask = m.mask)
    (h2 : Next m1 m2) : Next m m2 := by
  refine ⟨h2.inv, h1.next.trans h2.next, fun t g hg => ?_⟩
  rcases h2.frame t g hg with ⟨hid, hentry⟩ | ⟨f, hf, hid, hentry⟩
  · exact Or.inl ⟨hid.trans hnext, hentry.trans hmask⟩
  · rcases h1.frame t f hf with ⟨hid', hentry'⟩ | ⟨f', hf', hid', hentry'⟩
    · exact Or.inl ⟨hid ▸ hid', hentry ▸ hentry'⟩
    · exact Or.inr ⟨f', hf', hid'.trans hid, hentry'.trans hentry⟩

/-- thread `t` runs with the calls of `σ`: each was one of its calls, or has the next number -/
theorem Inv.place (h : Inv m) (t : T) {σ : Stack D L C T} {b : Bool} {n : ℕ} (hn : m.next ≤ n) (hσ : Keeps b σ.frames)
    (hcalls : ∀ f ∈ σ.frames, (f.id = m.next ∧ m.next < n ∧ f.entry = m.mask) ∨
      ∃ g ∈ (m.stack t).frames, g.id = f.id ∧ g.entry = f.entry ∧ (g.enabled = g.entry → f.enabled = f.entry))
    (d : D) : Next m ⟨d, t, b, Function.update m.stack t σ, m.context, n⟩ := by
  -- the other stacks are as they were
  have hcases : ∀ u, ∀ f ∈ (Function.update m.stack t σ u).frames,
      (f.id = m.next ∧ m.next < n ∧ f.entry = m.mask) ∨
        ∃ g ∈ (m.stack u).frames, g.id = f.id ∧ g.entry = f.entry ∧ (g.enabled = g.entry → f.enabled = f.entry) := by
    intro u f hf
    by_cases hu : u = t
    · subst hu
      rw [Function.update_self] at hf
      exact hcalls f hf
    · rw [Function.update_of_ne hu] at hf
      exact Or.inr ⟨f, hf, rfl, rfl, fun he => he⟩
  refine ⟨⟨?_, fun u => ?_, fun p s hs => ?_, fun u f hf => ?_⟩, hn, fun u f hf => ?_⟩
  · change Keeps b (Function.update m.stack t σ t).frames
    rwa [Function.update_self]
  · by_cases hu : u = t
    · subst hu
      exact ⟨b, by simpa using hσ⟩
    · obtain ⟨b', hb'⟩ := h.others u
      exact ⟨b', by simpa [Function.update_of_ne hu] using hb'⟩
  · have hk := h.context p s hs
    refine ⟨hk.mask, fun i φ k hp => ?_⟩
    obtain ⟨hφ, hk', hi, hen⟩ := hk.point i φ k hp
    refine ⟨hφ, hk', hi.trans_le hn, fun f hf hfi => ?_⟩
    rcases hcases s.owner f hf with ⟨hid, -, -⟩ | ⟨g, hg, hgid, -, himp⟩
    · omega
    · exact himp (hen g hg (hgid.trans hfi))
  · rcases hcases u f hf with ⟨hid, hlt, -⟩ | ⟨g, hg, hgid, -⟩
    · exact hid ▸ hlt
    · exact hgid ▸ (h.fresh u g hg).trans_le hn
  · rcases hcases u f hf with ⟨hid, -, hentry⟩ | ⟨g, hg, hgid, hentry, -⟩
    · exact Or.inl ⟨hid, hentry⟩
    · exact Or.inr ⟨g, hg, hgid, hentry⟩

omit [DecidableEq T] in
theorem Inv.tail (h : Inv m) {f : Frame D L C T} {fs : List (Frame D L C T)} (hf : m.frames = f :: fs) :
    f.Kept m.mask ∧ Keeps f.entry fs ∧ f.id < m.next ∧ ∀ g ∈ fs, g.id < f.id := by
  have hcur := h.cur
  rw [hf] at hcur
  have hlt : f.id < m.next := h.fresh m.cur f (by rw [← frames, hf]; exact List.mem_cons_self)
  exact ⟨hcur.1, hcur.2.2, hlt, hcur.2.1⟩

/-- the innermost call has executed something -/
theorem Inv.edit (h : Inv m) {f f' : Frame D L C T} {fs : List (Frame D L C T)} (hf : m.frames = f :: fs)
    {b : Bool} (hkept : f'.Kept b) (hid : f'.id = f.id) (hentry : f'.entry = f.entry)
    (hen : f.enabled = f.entry → f'.enabled = f'.entry) (d : D) :
    Next m { m.put (f' :: fs) with data := d, mask := b } := by
  obtain ⟨-, hfs, -, hlts⟩ := h.tail hf
  change (m.stack m.cur).frames = f :: fs at hf
  have hnew : Keeps b (f' :: fs) := ⟨hkept, hid ▸ hlts, hentry ▸ hfs⟩
  refine h.place m.cur le_rfl hnew (fun g hg => Or.inr ?_) d
  rcases List.mem_cons.1 hg with rfl | hm
  · exact ⟨f, by rw [hf]; exact List.mem_cons_self, hid.symm, hentry.symm, hen⟩
  · exact ⟨g, by rw [hf]; exact List.mem_cons_of_mem _ hm, rfl, rfl, id⟩

/-- a new call above those of the running thread -/
theorem Inv.push (h : Inv m) {f : Frame D L C T} (hid : f.id = m.next) (hentry : f.entry = m.mask) {b : Bool}
    (hkept : f.Kept b) : Next m { m.put (f :: m.frames) with mask := b, next := m.next + 1 } := by
  have hnew : Keeps b (f :: m.frames) := ⟨hkept, fun g hg => hid ▸ h.fresh m.cur g hg, hentry ▸ h.cur⟩
  refine h.place m.cur (Nat.le_succ _) hnew ?_ m.data
  intro g hg
  rcases List.mem_cons.1 hg with rfl | hm
  · exact Or.inl ⟨hid, Nat.lt_succ_self _, hentry⟩
  · exact Or.inr ⟨g, hm, rfl, rfl, id⟩

/-- the innermost call has returned -/
theorem Inv.pop (h : Inv m) {f : Frame D L C T} {fs : List (Frame D L C T)} (hf : m.frames = f :: fs)
    (hout : f.phase ≠ .inside) (d : D) : Next m { m.put fs with data := d } := by
  obtain ⟨hk, hfs, -, -⟩ := h.tail hf
  change (m.stack m.cur).frames = f :: fs at hf
  have hrest : Keeps m.mask fs := hk.outside hout ▸ hfs
  refine h.place m.cur le_rfl hrest (fun g hg => Or.inr ?_) d
  exact ⟨g, by rw [hf]; exact List.mem_cons_of_mem _ hg, rfl, rfl, id⟩

theorem enter_put (P : Program D L C T) (m : Machine D L C T) (c : C) (fs : List (Frame D L C T)) :
    (m.put fs).enter P c fs = m.enter P c fs := by
  simp [enter, Machine.put]

theorem Inv.enter (hP : P.Disciplined) (h : Inv m) (c : C) : Next m (m.enter P c m.frames) := by
  have hnew : Frame.Kept m.mask ⟨m.next, some c, m.mask, .before, false, P.locals, [P.body c]⟩ :=
    ⟨hP.body c, fun _ => rfl, nofun, fun hne => absurd rfl hne⟩
  exact h.push rfl rfl hnew

theorem Inv.interrupt (hP : P.Disciplined) (h : Inv m) : Next m (m.interrupt P) := by
  have hnew : Frame.Kept false ⟨m.next, none, m.mask, .inside, m.mask, P.locals, [P.handler, .restore]⟩ :=
    ⟨hP.handler, fun hne => absurd rfl hne, fun _ => rfl, fun _ => rfl⟩
  exact h.push rfl rfl hnew

theorem Next.save (h : Next m m') (p : T) {s : Saved D L C T} (hs : s.Kept m') :
    Next m { m' with context := Function.update m'.context p (some s) } := by
  refine ⟨⟨h.inv.cur, h.inv.others, fun q s' hq => ?_, h.inv.fresh⟩, h.next, h.frame⟩
  by_cases hp : q = p
  · subst hp
    simp only [Function.update_self, Option.some.injEq] at hq
    exact hq ▸ ⟨hs.mask, hs.point⟩
  · simp only [Function.update_of_ne hp] at hq
    exact ⟨(h.inv.context q s' hq).mask, (h.inv.context q s' hq).point⟩

theorem Inv.resume (h : Inv m) {s : Saved D L C T} (hs : s.Kept m) (hm : m.resume s = some m') : Next m m' := by
  unfold Machine.resume at hm
  split at hm
  · -- a thread that starts has no calls
    rw [Option.some.injEq] at hm
    subst hm
    exact h.place (b := s.mask) s.owner le_rfl (by trivial) (by simp) m.data
  · next n φ k hp =>
    obtain ⟨rfl, hk, -, hen⟩ := hs.point n φ k hp
    split at hm
    · cases hm
    · next f fs hdrop =>
      rw [Option.some.injEq] at hm
      subst hm
      -- the frames from `f` on are those of the stack, and `f` is the call whose point was saved
      obtain ⟨above, habove⟩ := List.dropWhile_suffix (l := (m.stack s.owner).frames) fun f => f.id ≠ n
      rw [hdrop] at habove
      have hmem : ∀ g ∈ f :: fs, g ∈ (m.stack s.owner).frames := fun g hg => by
        rw [← habove]
        exact List.mem_append_right _ hg
      have hfn : f.id = n := by
        have hhead := List.head?_dropWhile_not (fun f => decide (f.id ≠ n)) (m.stack s.owner).frames
        rw [hdrop] at hhead
        simpa using hhead
      have hfe := hen f (hmem f List.mem_cons_self) hfn
      obtain ⟨b, hb⟩ := h.others s.owner
      rw [← habove] at hb
      obtain ⟨b', -, hlts, hfs⟩ := hb.append
      have hnew : Keeps false ({ f with phase := .inside, code := k } :: fs) :=
        ⟨⟨hk, fun hne => absurd rfl hne, fun _ => rfl, fun _ => hfe⟩, hlts, hfs⟩
      rw [hs.mask]
      refine h.place s.owner le_rfl hnew (fun g hg => Or.inr ?_) m.data
      rcases List.mem_cons.1 hg with rfl | hm
      · exact ⟨f, hmem f List.mem_cons_self, rfl, rfl, id⟩
      · exact ⟨g, hmem g (List.mem_cons_of_mem _ hm), rfl, rfl, id⟩

/-! ## One step -/

/-- the next statement of the innermost call -/
theorem Inv.exec (hP : P.Disciplined) (h : Inv m) {f : Frame D L C T} {fs : List (Frame D L C T)}
    {a : Stmt D L C T} {k : List (Stmt D L C T)} (hf : m.frames = f :: fs) (hcode : f.code = a :: k)
    (hm : m.exec P f fs k a = some m') : Next m m' := by
  obtain ⟨hk, -, hlt, hlts⟩ := h.tail hf
  have hset := hcode ▸ hk.code
  have hgoes : a.flow f.phase = some (.goes f.phase) → Settled k f.phase := fun ha => hset.cons_goes ha
  cases a with
  | skip =>
    simp only [Machine.exec, Option.some.injEq] at hm
    subst hm
    exact h.edit hf (hk.goOn (hgoes rfl) f.locals) rfl rfl id m.data
  | act g =>
    simp only [Machine.exec, Option.map_eq_some_iff] at hm
    obtain ⟨r, -, rfl⟩ := hm
    exact h.edit hf (hk.goOn (hgoes rfl) r.2) rfl rfl id r.1
  | seq a b =>
    simp only [Machine.exec, Option.some.injEq] at hm
    subst hm
    exact h.edit hf (hk.goOn hset.seq f.locals) rfl rfl id m.data
  | ite c a b =>
    simp only [Machine.exec, Option.map_eq_some_iff] at hm
    obtain ⟨v, -, rfl⟩ := hm
    have hnext : Settled ((if v then a else b) :: k) f.phase := by
      cases v with
      | true => exact hset.ite.1
      | false => exact hset.ite.2
    exact h.edit hf (hk.goOn hnext f.locals) rfl rfl id m.data
  | loop c a =>
    simp only [Machine.exec, Option.map_eq_some_iff] at hm
    obtain ⟨v, -, rfl⟩ := hm
    have hnext : Settled (if v then a :: .loop c a :: k else k) f.phase := by
      cases v with
      | true => exact hset.loop.1
      | false => exact hset.loop.2
    exact h.edit hf (hk.goOn hnext f.locals) rfl rfl id m.data
  | call c =>
    simp only [Machine.exec, Option.map_eq_some_iff] at hm
    obtain ⟨c, -, rfl⟩ := hm
    have h1 : Next m (m.put ({ f with code := k } :: fs)) :=
      h.edit hf (hk.goOn (hgoes rfl) f.locals) rfl rfl id m.data
    have h2 := h1.inv.enter hP c
    rw [put_frames, enter_put] at h2
    exact h1.trans rfl rfl h2
  | ret v =>
    simp only [Machine.exec, Option.map_eq_some_iff] at hm
    obtain ⟨d, -, rfl⟩ := hm
    exact h.pop hf hset.ret d
  | off =>
    simp only [Machine.exec, Option.some.injEq] at hm
    subst hm
    obtain ⟨hφ, hk'⟩ := hset.off
    have hentry : m.mask = f.entry := hk.outside (by rw [hφ]; decide)
    have hnew : Frame.Kept false { f with enabled := m.mask, phase := .inside, code := k } :=
      ⟨hk', fun hne => absurd rfl hne, fun _ => rfl, fun _ => hentry⟩
    exact h.edit hf hnew rfl rfl (fun _ => hentry) m.data
  | restore =>
    simp only [Machine.exec, Option.some.injEq] at hm
    subst hm
    obtain ⟨hφ, hk'⟩ := hset.restore
    have hentry : f.enabled = f.entry := hk.enabled (by rw [hφ]; decide)
    have hnew : Frame.Kept f.enabled { f with phase := .after, code := k } :=
      ⟨hk', fun _ => hentry, nofun, fun _ => hentry⟩
    exact h.edit hf hnew rfl rfl id m.data
  | getcontext p =>
    simp only [Machine.exec, Option.map_eq_some_iff] at hm
    obtain ⟨p, -, rfl⟩ := hm
    obtain ⟨hφ, hk'⟩ := hset.context rfl
    have h1 := h.edit hf (hk.goOn hk' f.locals) rfl rfl id m.data
    refine h1.save p ⟨hk.blocked hφ, ?_⟩
    rintro n φ k' he
    simp only [Option.some.injEq, Prod.mk.injEq] at he
    obtain ⟨rfl, rfl, rfl⟩ := he
    refine ⟨hφ, hφ ▸ hk', hlt, fun g hg hid => ?_⟩
    -- no other call of the thread has its number
    simp only [put_stack_self] at hg
    rcases List.mem_cons.1 hg with rfl | hmem
    · exact hk.enabled (by rw [hφ]; decide)
    · exact absurd hid (hlts g hmem).ne
  | makecontext p =>
    simp only [Machine.exec, Option.bind_eq_some_iff, Option.map_eq_some_iff] at hm
    obtain ⟨p, -, s, hs, rfl⟩ := hm
    obtain ⟨-, hk'⟩ := hset.context rfl
    have h1 := h.edit hf (hk.goOn hk' f.locals) rfl rfl id m.data
    exact h1.save p ⟨(h.context p s hs).mask, nofun⟩
  | setcontext p =>
    simp only [Machine.exec, Option.bind_eq_some_iff] at hm
    obtain ⟨p, -, s, hs, hm⟩ := hm
    obtain ⟨-, hk'⟩ := hset.context rfl
    have h1 := h.edit hf (hk.goOn hk' f.locals) rfl rfl id m.data
    exact h1.trans rfl rfl (h1.inv.resume (h1.inv.context p s hs) hm)

omit [DecidableEq T] in
theorem frames_of_atUser (hu : m.atUser = true) : m.frames = [] := by
  simp only [atUser, Bool.and_eq_true, List.isEmpty_iff] at hu
  exact hu.1

theorem Inv.step (hP : P.Disciplined) (h : Inv m) {x : Move C} (hm : m.step P x = some m') : Next m m' := by
  cases x with
  | tick =>
    simp only [Machine.step, tick] at hm
    split at hm
    · cases hm
    · next f fs hf =>
      split at hm
      · next hcode =>
        rw [Option.some.injEq] at hm
        subst hm
        have hk := (h.tail hf).1.code
        rw [hcode] at hk
        exact h.pop hf hk m.data
      · next a k hcode => exact h.exec hP hf hcode hm
  | call c =>
    simp only [Machine.step, Option.ite_none_right_eq_some, Option.some.injEq] at hm
    obtain ⟨hu, rfl⟩ := hm
    exact frames_of_atUser hu ▸ h.enter hP c
  | set b =>
    simp only [Machine.step, Option.ite_none_right_eq_some, Option.some.injEq] at hm
    obtain ⟨hu, rfl⟩ := hm
    refine ⟨⟨?_, h.others, fun p s hs => ?_, h.fresh⟩, le_rfl, fun t g hg => Or.inr ⟨g, hg, rfl, rfl⟩⟩
    · change Keeps b m.frames
      rw [frames_of_atUser hu]
      trivial
    · exact ⟨(h.context p s hs).mask, (h.context p s hs).point⟩
  | start =>
    simp only [Machine.step, Option.ite_none_right_eq_some, Option.some.injEq] at hm
    obtain ⟨-, rfl⟩ := hm
    exact h.place (b := true) m.cur le_rfl (by trivial) (by simp) m.data
  | preempt =>
    simp only [Machine.step, Option.ite_none_right_eq_some, Option.some.injEq] at hm
    obtain ⟨-, rfl⟩ := hm
    exact h.interrupt hP

theorem Inv.run (hP : P.Disciplined) (h : Inv m) {xs : List (Move C)} (hm : m.run P xs = some m') : Inv m' := by
  induction xs generalizing m with
  | nil =>
    cases hm
    exact h
  | cons x xs ih =>
    simp only [Machine.run, Option.bind_eq_some_iff] at hm
    obtain ⟨m1, h1, h2⟩ := hm
    exact ih (h.step hP h1).inv h2

/-! ## Calls and returns -/

/-- one thread in user code, nothing saved -/
def init (d : D) (t : T) (b : Bool) : Machine D L C T where
  data := d
  cur := t
  mask := b
  stack := fun u => ⟨[], u = t⟩
  context := fun _ => none
  next := 0

theorem inv_init (d : D) (t : T) (b : Bool) : Inv (init d t b : Machine D L C T) :=
  ⟨trivial, fun _ => ⟨b, trivial⟩, nofun, fun _ _ hf => absurd hf List.not_mem_nil⟩

/-- the step from `m` to `m'` is a call of `c` -/
def Calls (P : Program D L C T) (m : Machine D L C T) (c : C) (m' : Machine D L C T) : Prop :=
  ∃ x f fs, m.step P x = some m' ∧ m'.frames = f :: fs ∧ f.id = m.next ∧ f.call = some c

theorem calls_enter (hu : m.atUser = true) (c : C) : Calls P m c (m.enter P c []) :=
  ⟨.call c, ⟨m.next, some c, m.mask, .before, false, P.locals, [P.body c]⟩, [], by simp [Machine.step, hu],
    by simp [enter, frames, Machine.put], rfl, rfl⟩

omit [DecidableEq T] in
/-- the number of the call that returns next -/
def returning (m : Machine D L C T) : Option ℕ :=
  match m.frames with
  | [] => none
  | f :: _ =>
    match f.code with
    | [] => some f.id
    | .ret _ :: _ => some f.id
    | _ => none

/-- the step from `m` to `m'` is the return of call number `n` -/
def Returns (P : Program D L C T) (m : Machine D L C T) (n : ℕ) (m' : Machine D L C T) : Prop :=
  m.returning = some n ∧ m.step P .tick = some m'

/-- call number `n` was made under the mask `b` -/
structure Entered (n : ℕ) (b : Bool) (m : Machine D L C T) : Prop where
  old : n < m.next
  entry : ∀ t, ∀ f ∈ (m.stack t).frames, f.id = n → f.entry = b

omit [DecidableEq T] in
theorem Entered.step {n : ℕ} {b : Bool} (he : Entered n b m) (hs : Next m m') : Entered n b m' := by
  refine ⟨he.old.trans_le hs.next, fun t g hg hid => ?_⟩
  rcases hs.frame t g hg with ⟨hnew, -⟩ | ⟨f, hf, hfid, hentry⟩
  · have := he.old
    omega
  · exact hentry ▸ he.entry t f hf (hfid.trans hid)

theorem Entered.run (hP : P.Disciplined) {n : ℕ} {b : Bool} (h : Inv m) (he : Entered n b m) {xs : List (Move C)}
    (hm : m.run P xs = some m') : Entered n b m' := by
  induction xs generalizing m with
  | nil =>
    cases hm
    exact he
  | cons x xs ih =>
    simp only [Machine.run, Option.bind_eq_some_iff] at hm
    obtain ⟨m1, h1, h2⟩ := hm
    have hs := h.step hP h1
    exact ih hs.inv (he.step hs) h2

theorem Calls.entered (hP : P.Disciplined) (h : Inv m) {c : C} (hc : Calls P m c m') : Entered m.next m.mask m' := by
  obtain ⟨x, f, fs, hx, hf, hid, -⟩ := hc
  have hs := h.step hP hx
  refine ⟨hid ▸ hs.inv.fresh m'.cur f (by rw [← frames, hf]; exact List.mem_cons_self), fun t g hg hgid => ?_⟩
  rcases hs.frame t g hg with ⟨-, hentry⟩ | ⟨f', hf', hfid, -⟩
  · exact hentry
  · have := h.fresh t f' hf'
    omega

/-- a return leaves the mask the call was made with -/
theorem Inv.returns (h : Inv m) {n : ℕ} (hr : Returns P m n m') : ∃ f ∈ m.frames, f.id = n ∧ m'.mask = f.entry := by
  obtain ⟨hn, hm⟩ := hr
  unfold returning at hn
  simp only [Machine.step, tick] at hm
  split at hn
  · cases hn
  · next f fs hf =>
    obtain ⟨hk, -⟩ := h.tail hf
    have hset := hk.code
    refine ⟨f, by rw [hf]; exact List.mem_cons_self, ?_⟩
    rw [hf] at hm
    split at hn
    · next hcode =>
      rw [hcode] at hset
      simp only [hcode, Option.some.injEq] at hm
      subst hm
      exact ⟨Option.some.inj hn, hk.outside hset⟩
    · next v k hcode =>
      rw [hcode] at hset
      simp only [hcode, Machine.exec, Option.map_eq_some_iff] at hm
      obtain ⟨d, -, rfl⟩ := hm
      exact ⟨Option.some.inj hn, hk.outside hset.ret⟩
    · cases hn

/-- **Calls keep the mask.** Whatever the threads do between a call and its return, the call returns with the signal
unblocked if and only if it was when the call was made. -/
theorem run_returns (hP : P.Disciplined) (h : Inv m) {c : C} {m1 m2 m3 : Machine D L C T} (hc : Calls P m c m1)
    {xs : List (Move C)} (hrun : m1.run P xs = some m2) (hr : Returns P m2 m.next m3) : m3.mask = m.mask := by
  have h1 : Inv m1 := by
    obtain ⟨x, -, -, hx, -⟩ := hc
    exact (h.step hP hx).inv
  obtain ⟨f, hf, hid, hmask⟩ := (h1.run hP hrun).returns hr
  rw [hmask]
  exact ((hc.entered hP h).run hP h1 hrun).entry m2.cur f hf hid

/-- between the `off` and the `restore` of one of its calls, a thread is not interrupted -/
theorem Inv.not_preempted (h : Inv m) {f : Frame D L C T} (hf : f ∈ m.frames) (hin : f.phase = .inside) :
    m.mask = false ∧ m.step P .preempt = none := by
  have hmask := h.cur.blocked hf hin
  exact ⟨hmask, by simp [Machine.step, hmask]⟩

/-- only `setcontext` changes the running thread -/
theorem exec_cur {f : Frame D L C T} {fs : List (Frame D L C T)} {a : Stmt D L C T} {k : List (Stmt D L C T)}
    (hm : m.exec P f fs k a = some m') : m'.cur = m.cur ∨ ∃ p, a = .setcontext p := by
  cases a with
  | setcontext p => exact Or.inr ⟨p, rfl⟩
  | skip | seq | off | restore =>
    simp only [exec, Option.some.injEq] at hm
    exact Or.inl (hm ▸ rfl)
  | act | ite | loop | call | ret | getcontext =>
    simp only [exec, Option.map_eq_some_iff] at hm
    obtain ⟨-, -, rfl⟩ := hm
    exact Or.inl rfl
  | makecontext =>
    simp only [exec, Option.bind_eq_some_iff, Option.map_eq_some_iff] at hm
    obtain ⟨-, -, -, -, rfl⟩ := hm
    exact Or.inl rfl

/-- another thread runs only after a `setcontext` of the running one, which is between `off` and `restore` -/
theorem Inv.switch (h : Inv m) {x : Move C} (hm : m.step P x = some m') (hcur : m'.cur ≠ m.cur) :
    x = .tick ∧ ∃ f fs p k, m.frames = f :: fs ∧ f.code = .setcontext p :: k ∧ f.phase = .inside := by
  cases x with
  | tick =>
    refine ⟨rfl, ?_⟩
    simp only [Machine.step, tick] at hm
    split at hm
    · cases hm
    · next f fs hf =>
      split at hm
      · rw [Option.some.injEq] at hm
        exact absurd (hm ▸ rfl) hcur
      · next a k hcode =>
        rcases exec_cur hm with hsame | ⟨p, rfl⟩
        · exact absurd hsame hcur
        · have hset := (h.tail hf).1.code
          rw [hcode] at hset
          exact ⟨f, fs, p, k, hf, hcode, (hset.context rfl).1⟩
  | call | set | start | preempt =>
    simp only [Machine.step, Option.ite_none_right_eq_some, Option.some.injEq] at hm
    obtain ⟨-, rfl⟩ := hm
    exact absurd rfl hcur

end Machine

end

end OsLab.Lib.Signals
