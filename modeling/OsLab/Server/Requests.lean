/-
Serving a request through the file cache (`do_server_request` in `webserver/server_thread.c`, `webserver/request.c`).

`n` calls of `do_server_request` run at once, with `max_cache_size > 0`. A step is one critical section of `cache_lock`
or one stretch of code outside it: `request_init`, the lookup, `request_readfile`, the insertion, `request_sendfile`,
the final `active--`. Only the lookup, the insertion and the `active--` touch the cache, and they hold `cache_lock`.

Request `r` allocates the `struct file_data` with address `r`. A reply reads `rq->data`, which is this struct or, on a
hit, the one in the cache; reading a freed one is `Stop.crash`. (The freed queue node that `LRU_delete` reads is no
stop, see `Cache.Model`.) What `stat`, `open` and `read` of the host give is an argument of the step (`Host`).

`name`, `reads` are ghosts: the parsed file name of each request, and what `request_readfile` returned 1 for.

The result is `cache_serves_right_file`: whatever path chose `rq->data`, the body sent is one that some
`request_readfile` read under the requested name, and the name passed its checks.
-/
import Mathlib.Tactic
import OsLab.Lib.Run
import OsLab.Cache.Model
import OsLab.Cache.Evict

namespace OsLab.Server.Requests

open OsLab.Lib OsLab.Cache
open Function (update update_self update_of_ne)

/-- why there is no next state -/
inductive Stop where
  /-- the request is not at this point -/
  | disabled
  /-- undefined: freed memory is read -/
  | crash
  /-- `exit(1)` after a failed system call or `malloc` -/
  | exit
  /-- a probe loop does not end -/
  | hang
deriving DecidableEq, Repr

def maxLine : ℕ := 8192

/-- what the host gives for a file name -/
inductive Host where
  /-- `stat` fails -/
  | missing
  /-- not a regular file, or not readable by its owner -/
  | irregular
  /-- `open` fails -/
  | unopenable
  /-- the size, and the buffer after the read -/
  | file (stSize : ℤ) (fileBuf : List UInt8)
deriving DecidableEq, Repr

/-- what a client is sent -/
inductive Reply where
  /-- `request_error` -/
  | error (cause : Key) (errnum shortmsg longmsg : String)
  /-- the body `request_sendfile` sends -/
  | file (fileBuf : List UInt8) (fileSize : ℤ)
deriving DecidableEq, Repr

/-- `snprintf(filename, max, "./%s", uri)` -/
def requestParseURI (uri : Key) : Key := (([46, 47] ++ uri).takeWhile (· ≠ 0)).take (maxLine - 1)

/-- `strrchr`: the rest of the string from the last `c` on -/
def strrchr (c : UInt8) : Key → Option Key
  | [] => none
  | x :: xs =>
    match strrchr c xs with
    | some rest => some rest
    | none => if x = c then some (x :: xs) else none

/-- the checks of `request_readfile` on the name -/
def refusal (fileName : Key) : Option Reply :=
  if fileName.head? = some 47 then
    some (.error fileName "404" "Not found" "OS Web Server doesn't serve files with absolute paths")
  else if [46, 46] <:+: fileName then
    some (.error fileName "404" "Not found" "OS Web Server doesn't serve files with .. in the path")
  else if strrchr 46 fileName = some [46, 99] ∨ strrchr 46 fileName = some [46, 104] then
    some (.error fileName "404" "Not found" "OS Web Server doesn't serve C or header files ")
  else none

/-- `int file_size = st_size` -/
def toInt (stSize : ℤ) : ℤ := (stSize + 2147483648) % 4294967296 - 2147483648

/-- `request_readfile`: the error it sends, or the data it fills in -/
def requestReadfile (data : FileData) (host : Host) : Except Stop (Reply ⊕ FileData) :=
  match refusal data.fileName with
  | some reply => .ok (.inl reply)
  | none =>
    match host with
    | .missing =>
      .ok (.inl (.error data.fileName "404" "Not found" "OS Web Server could not find this file"))
    | .irregular =>
      .ok (.inl (.error data.fileName "403" "Forbidden" "OS Web Server could not read this file"))
    | .unopenable => .error .exit
    | .file stSize fileBuf =>
      let data := { data with fileSize := toInt stSize }
      if data.fileSize = 0 then .ok (.inr data)
      -- `Malloc` of a negative size
      else if data.fileSize < 0 then .error .exit
      else .ok (.inr { data with fileBuf := fileBuf })

/-- where a request is; `data` is `rq->data` -/
inductive Pc where
  | start
  /-- at the lookup -/
  | lookup (data : FileData)
  /-- at `request_sendfile`, with the file found in slot `file` -/
  | sendHit (file : ℕ) (data : FileData)
  /-- at `request_readfile` -/
  | readFile (data : FileData)
  /-- at `cache_insert` -/
  | insert (data : FileData)
  /-- at `request_sendfile`, with what `cache_insert` returned -/
  | sendMiss (file : Option ℕ) (data : FileData)
  /-- at the final `active--` -/
  | release (file : Option ℕ)
  | done
deriving DecidableEq, Repr

structure State (n : ℕ) where
  cache : CacheStruct
  pc : Fin n → Pc
  replies : List (Fin n × Reply)
  name : Fin n → Key
  reads : List FileData

inductive Op (n : ℕ) where
  /-- `request_init` with the method and the URI of the request line -/
  | init (r : Fin n) (method uri : Key)
  | lookup (r : Fin n)
  | readFile (r : Fin n) (host : Host)
  | insert (r : Fin n)
  | send (r : Fin n)
  | release (r : Fin n)
deriving DecidableEq, Repr

/-- `strcasecmp(method, "GET") == 0` -/
def isGet (method : Key) : Bool := method.map (fun c => if 97 ≤ c ∧ c ≤ 122 then c - 32 else c) = [71, 69, 84]

section

variable {n : ℕ} (home : Key → ℕ)

def start (n tableSize : ℕ) (maxCacheSize : ℤ) : State n where
  cache := cacheInit tableSize maxCacheSize
  pc := fun _ => .start
  replies := []
  name := fun _ => []
  reads := []

/-- a call into the cache; its loops may not end -/
def ofCache {A : Type} : Except Cache.Stop A → Except Stop A
  | .ok a => .ok a
  | .error .hang => .error .hang
  | .error .crash => .error .crash

/-- `file->active += change` -/
def addActive (c : CacheStruct) (file : ℕ) (change : ℤ) : Except Stop CacheStruct :=
  ofCache (Cache.step home c (.active file change))

def setPc (s : State n) (r : Fin n) (pc : Pc) : State n := { s with pc := update s.pc r pc }

def reply (s : State n) (r : Fin n) (reply : Reply) : State n := { s with replies := s.replies ++ [(r, reply)] }

/-- `request_init` -/
def requestInit (s : State n) (r : Fin n) (method uri : Key) : State n :=
  if isGet method then
    let data : FileData := { fileName := requestParseURI uri, fileSize := 0, addr := r }
    setPc { s with name := update s.name r data.fileName } r (.lookup data)
  else
    setPc (reply s r (.error method "501" "Not Implemented" "OS Web Server does not implement this method")) r .done

/-- the critical section of the lookup -/
def lookup (s : State n) (r : Fin n) (data : FileData) : Except Stop (State n) := do
  match ← ofCache (cacheLookup home s.cache data.fileName) with
  | some file =>
    match s.cache.table file with
    | some f =>
      let c ← addActive home s.cache file 1
      let c := lruUpdate c (getIndex home c f.data.fileName)
      return setPc { s with cache := c } r (.sendHit file f.data)
    | none => .error .crash
  | none => return setPc s r (.readFile data)

/-- the critical section of the insertion -/
def insert (s : State n) (r : Fin n) (data : FileData) : Except Stop (State n) := do
  let (c, file) ← ofCache (cacheInsert home s.cache data)
  match file with
  | some file =>
    let c ← addActive home c file 1
    let c := lruUpdate c (getIndex home c data.fileName)
    return setPc { s with cache := c } r (.sendMiss (some file) data)
  | none => return setPc { s with cache := c } r (.sendMiss none data)

/-- `request_sendfile`: the body is that of `rq->data` -/
def requestSendfile (s : State n) (r : Fin n) (data : FileData) : Except Stop (State n) :=
  if data.addr ∈ s.cache.freed then .error .crash else .ok (reply s r (.file data.fileBuf data.fileSize))

def step (s : State n) : Op n → Except Stop (State n)
  | .init r method uri =>
    match s.pc r with
    | .start => .ok (requestInit s r method uri)
    | _ => .error .disabled
  | .lookup r =>
    match s.pc r with
    | .lookup data => lookup home s r data
    | _ => .error .disabled
  | .readFile r host =>
    match s.pc r with
    | .readFile data => do
      match ← requestReadfile data host with
      | .inl error => return setPc (reply s r error) r .done
      | .inr data => return setPc { s with reads := s.reads ++ [data] } r (.insert data)
    | _ => .error .disabled
  | .insert r =>
    match s.pc r with
    | .insert data => insert home s r data
    | _ => .error .disabled
  | .send r =>
    match s.pc r with
    | .sendHit file data => do
      let s ← requestSendfile s r data
      return setPc s r (.release (some file))
    | .sendMiss file data => do
      let s ← requestSendfile s r data
      return setPc s r (.release file)
    | _ => .error .disabled
  | .release r =>
    match s.pc r with
    | .release (some file) => do
      let c ← addActive home s.cache file (-1)
      return setPc { s with cache := c } r .done
    | .release none => .ok (setPc s r .done)
    | _ => .error .disabled

end

/-! ## The invariant -/

/-- the slot of the file whose `active` counts this request -/
def Pc.file : Pc → Option ℕ
  | .sendHit file _ => some file
  | .sendMiss file _ => file
  | .release file => file
  | _ => none

/-- `rq->data` before the request has sent anything or inserted it -/
def Pc.own : Pc → Option FileData
  | .lookup data | .readFile data | .insert data => some data
  | _ => none

/-- `rq->data` at `request_sendfile` -/
def Pc.sending : Pc → Option FileData
  | .sendHit _ data | .sendMiss _ data => some data
  | _ => none

/-- before the insertion -/
def Pc.early : Pc → Bool
  | .start | .lookup _ | .readFile _ | .insert _ => true
  | _ => false

/-- 1 for a request that counts in the `active` of slot `i` -/
def Pc.uses (i : ℕ) (pc : Pc) : ℤ := if pc.file = some i then 1 else 0

/-- how many requests use the file in slot `i` -/
def State.users {n : ℕ} (s : State n) (i : ℕ) : ℤ := ∑ r, (s.pc r).uses i

/-- every cached file is one that was read under its key, `active` counts its users, and no user's data is freed -/
structure Inv {n : ℕ} (s : State n) : Prop where
  table : ∀ i f, s.cache.table i = some f → f.key = f.data.fileName ∧ f.data ∈ s.reads
  allowed : ∀ d ∈ s.reads, refusal d.fileName = none
  active : ∀ i f, s.cache.table i = some f → f.active = s.users i
  held : ∀ r i, (s.pc r).file = some i → ∃ f, s.cache.table i = some f
  own : ∀ r d, (s.pc r).own = some d → d.addr = r ∧ d.fileName = s.name r
  read : ∀ r d, s.pc r = .insert d → d ∈ s.reads
  /-- the struct of a request that has not inserted it is neither cached nor freed -/
  fresh : ∀ r, (s.pc r).early = true → (r : ℕ) ∉ s.cache.freed ∧ ∀ i f, s.cache.table i = some f → f.data.addr ≠ r
  inj : ∀ i j f g, s.cache.table i = some f → s.cache.table j = some g → f.data.addr = g.data.addr → i = j
  live : ∀ i f, s.cache.table i = some f → f.data.addr ∉ s.cache.freed
  /-- data being sent is not freed, and if it is cached the request counts as its user -/
  sending : ∀ r d, (s.pc r).sending = some d → (d ∈ s.reads ∧ d.fileName = s.name r) ∧ d.addr ∉ s.cache.freed ∧
    ∀ i f, s.cache.table i = some f → f.data.addr = d.addr → (s.pc r).file = some i
  apart : ∀ r v d, (s.pc r).early = true → (s.pc v).sending = some d → d.addr ≠ r
  replies : ∀ r buf size, (r, Reply.file buf size) ∈ s.replies →
    s.pc r ≠ .start ∧ ∃ d ∈ s.reads, d.fileName = s.name r ∧ d.fileBuf = buf ∧ d.fileSize = size

section

variable {n : ℕ} {home : Key → ℕ} {s t : State n} {r : Fin n} {i : ℕ}

theorem inv_start (n tableSize : ℕ) (maxCacheSize : ℤ) : Inv (start n tableSize maxCacheSize) where
  table := by intro i f h; cases h
  allowed := by intro d h; cases h
  active := by intro i f h; cases h
  held := by intro r i h; cases h
  own := by intro r d h; cases h
  read := by intro r d h; cases h
  fresh := fun _ _ => ⟨List.not_mem_nil, by intro i f h; cases h⟩
  inj := by intro i j f g h; cases h
  live := by intro i f h; cases h
  sending := by intro r d h; cases h
  apart := by intro r v d _ h; cases h
  replies := by intro r buf size h; cases h

theorem users_setPc (s : State n) (r : Fin n) (q : Pc) (i : ℕ) :
    (setPc s r q).users i + (s.pc r).uses i = s.users i + q.uses i := sum_update (Pc.uses i) s.pc r q

theorem users_pos (h : (s.pc r).file = some i) : 0 < s.users i := by
  have hle : (s.pc r).uses i ≤ s.users i :=
    Finset.single_le_sum (f := fun r => (s.pc r).uses i)
      (fun r _ => by unfold Pc.uses; split <;> simp) (Finset.mem_univ r)
  rw [Pc.uses, if_pos h] at hle
  omega

/-- a request moves on with the same file in use -/
theorem Inv.setPc (h : Inv s) {q : Pc} (hfile : q.file = (s.pc r).file)
    (hown : ∀ d, q.own = some d → d.addr = r ∧ d.fileName = s.name r) (hread : ∀ d, q = .insert d → d ∈ s.reads)
    (hearly : q.early = true → (s.pc r).early = true)
    (hsending : ∀ d, q.sending = some d → (d ∈ s.reads ∧ d.fileName = s.name r) ∧ d.addr ∉ s.cache.freed ∧
      (∀ i f, s.cache.table i = some f → f.data.addr = d.addr → q.file = some i) ∧
      ∀ v, v ≠ r → (s.pc v).early = true → d.addr ≠ v)
    (hapart : q.sending ≠ none → q.early = false) (hstart : q ≠ .start) : Inv (setPc s r q) := by
  have husers : ∀ i, (Requests.setPc s r q).users i = s.users i := fun i => by
    have hsum := users_setPc s r q i
    simp only [Pc.uses, hfile] at hsum
    omega
  refine ⟨h.table, h.allowed, fun i f hi => by rw [husers]; exact h.active i f hi, ?_, ?_, ?_, ?_,
    h.inj, h.live, ?_, ?_, ?_⟩
  · intro v i hv
    by_cases hvr : v = r
    · subst hvr
      simp only [Requests.setPc, update_self] at hv
      exact h.held v i (hfile ▸ hv)
    · simp only [Requests.setPc, update_of_ne hvr] at hv
      exact h.held v i hv
  · intro v d hv
    by_cases hvr : v = r
    · subst hvr
      simp only [Requests.setPc, update_self] at hv
      exact hown d hv
    · simp only [Requests.setPc, update_of_ne hvr] at hv
      exact h.own v d hv
  · intro v d hv
    by_cases hvr : v = r
    · subst hvr
      simp only [Requests.setPc, update_self] at hv
      exact hread d hv
    · simp only [Requests.setPc, update_of_ne hvr] at hv
      exact h.read v d hv
  · intro v hv
    by_cases hvr : v = r
    · subst hvr
      simp only [Requests.setPc, update_self] at hv
      exact h.fresh v (hearly hv)
    · simp only [Requests.setPc, update_of_ne hvr] at hv
      exact h.fresh v hv
  · intro v d hv
    by_cases hvr : v = r
    · subst hvr
      simp only [Requests.setPc, update_self] at hv ⊢
      obtain ⟨hdata, hfreed, htable, -⟩ := hsending d hv
      exact ⟨hdata, hfreed, htable⟩
    · simp only [Requests.setPc, update_of_ne hvr] at hv ⊢
      exact h.sending v d hv
  · intro u v d hu hv
    by_cases hvr : v = r
    · subst hvr
      simp only [Requests.setPc, update_self] at hv
      have hlate : q.early = false := hapart (by rw [hv]; simp)
      by_cases huv : u = v
      · subst huv
        simp only [Requests.setPc, update_self, hlate] at hu; cases hu
      · simp only [Requests.setPc, update_of_ne huv] at hu
        exact (hsending d hv).2.2.2 u huv hu
    · simp only [Requests.setPc, update_of_ne hvr] at hv
      by_cases hur : u = r
      · subst hur
        simp only [Requests.setPc, update_self] at hu
        exact h.apart u v d (hearly hu) hv
      · simp only [Requests.setPc, update_of_ne hur] at hu
        exact h.apart u v d hu hv
  · intro v buf size hv
    obtain ⟨hne, hd⟩ := h.replies v buf size hv
    refine ⟨?_, hd⟩
    by_cases hvr : v = r
    · subst hvr; simpa only [Requests.setPc, update_self] using hstart
    · simpa only [Requests.setPc, update_of_ne hvr] using hne

/-- evictions: a file in use has a positive `active` and stays -/
theorem Inv.evict (h : Inv s) {c : CacheStruct} (hev : Evicted s.cache c) : Inv { s with cache := c } := by
  have hstays : ∀ r i f, (s.pc r).file = some i → s.cache.table i = some f → c.table i = some f := fun r i f hr hi => by
    refine hev.table_of_active hi ?_
    have hpos := users_pos hr
    rw [h.active i f hi]; omega
  refine ⟨fun i f hi => h.table i f (hev.table_of_some hi), h.allowed,
    fun i f hi => h.active i f (hev.table_of_some hi), ?_, h.own, h.read, ?_,
    fun i j f g hi hj => h.inj i j f g (hev.table_of_some hi) (hev.table_of_some hj), ?_, ?_, h.apart, h.replies⟩
  · intro r i hr
    obtain ⟨f, hf⟩ := h.held r i hr
    exact ⟨f, hstays r i f hr hf⟩
  · intro r hr
    obtain ⟨hfreed, htable⟩ := h.fresh r hr
    refine ⟨fun ha => ?_, fun i f hi => htable i f (hev.table_of_some hi)⟩
    rcases hev.freed _ ha with ha | ⟨i, f, hf, -, haddr⟩
    · exact hfreed ha
    · exact htable i f hf haddr.symm
  · intro i f hi ha
    rcases hev.freed _ ha with ha | ⟨j, g, hg, hnone, haddr⟩
    · exact h.live i f (hev.table_of_some hi) ha
    · have hij := h.inj i j f g (hev.table_of_some hi) hg haddr
      subst hij
      rw [hnone] at hi; cases hi
  · intro r d hd
    obtain ⟨hdata, hfreed, htable⟩ := h.sending r d hd
    refine ⟨hdata, fun ha => ?_, fun i f hi => htable i f (hev.table_of_some hi)⟩
    rcases hev.freed _ ha with ha | ⟨i, f, hf, hnone, haddr⟩
    · exact hfreed ha
    · have hkept := hstays r i f (htable i f hf haddr.symm) hf
      rw [hkept] at hnone; cases hnone

/-- request `r` starts to use the file `f` now in slot `i`, one that was there or its own data in an empty slot, and to
send `d` -/
structure Takes (s : State n) (r : Fin n) (c : CacheStruct) (i : ℕ) (f : FileStruct) (q : Pc)
    (d : FileData) : Prop where
  table : c.table = update s.cache.table i (some f)
  freed : c.freed = s.cache.freed
  source : (∃ g, s.cache.table i = some g ∧ f.key = g.key ∧ f.data = g.data) ∨
    (s.cache.table i = none ∧ s.pc r = .insert f.data ∧ f.key = f.data.fileName)
  active : f.active = s.users i + 1
  idle : (s.pc r).file = none
  file : q.file = some i
  own : q.own = none
  early : q.early = false
  sends : q.sending = some d
  read : d ∈ s.reads ∧ d.fileName = s.name r
  unfreed : d.addr ∉ s.cache.freed
  cached : ∀ j g, c.table j = some g → g.data.addr = d.addr → j = i
  apart : ∀ v, v ≠ r → (s.pc v).early = true → d.addr ≠ v

namespace Takes

variable {c : CacheStruct} {f g : FileStruct} {q : Pc} {d : FileData} {v : Fin n} {j : ℕ}

theorem pc_self (_ : Takes s r c i f q d) : (Requests.setPc { s with cache := c } r q).pc r = q := update_self ..

theorem pc_other (_ : Takes s r c i f q d) (hv : v ≠ r) : (Requests.setPc { s with cache := c } r q).pc v = s.pc v :=
  update_of_ne hv ..

/-- a file of the new table is `f`, or was in its slot before -/
theorem cases (ht : Takes s r c i f q d) (hj : c.table j = some g) :
    (j = i ∧ g = f) ∨ (j ≠ i ∧ s.cache.table j = some g) := by
  rw [ht.table] at hj
  by_cases hji : j = i
  · rw [hji, update_self, Option.some.injEq] at hj
    exact Or.inl ⟨hji, hj.symm⟩
  · rw [update_of_ne hji] at hj
    exact Or.inr ⟨hji, hj⟩

theorem known (h : Inv s) (ht : Takes s r c i f q d) : f.key = f.data.fileName ∧ f.data ∈ s.reads := by
  rcases ht.source with ⟨g, hg, hkey, hdata⟩ | ⟨-, hr, hkey⟩
  · rw [hkey, hdata]
    exact h.table i g hg
  · exact ⟨hkey, h.read r _ hr⟩

theorem live (h : Inv s) (ht : Takes s r c i f q d) : f.data.addr ∉ s.cache.freed := by
  rcases ht.source with ⟨g, hg, -, hdata⟩ | ⟨-, hr, -⟩
  · rw [hdata]
    exact h.live i g hg
  · rw [(h.own r f.data (by rw [hr]; rfl)).1]
    exact (h.fresh r (by rw [hr]; rfl)).1

theorem addr_inj (h : Inv s) (ht : Takes s r c i f q d) (hj : s.cache.table j = some g)
    (haddr : g.data.addr = f.data.addr) :
    j = i := by
  rcases ht.source with ⟨g', hg', -, hdata⟩ | ⟨-, hr, -⟩
  · exact h.inj j i g g' hj hg' (haddr.trans (by rw [hdata]))
  · have hown := (h.own r f.data (by rw [hr]; rfl)).1
    exact absurd (haddr.trans hown) ((h.fresh r (by rw [hr]; rfl)).2 j g hj)

theorem addr_early (h : Inv s) (ht : Takes s r c i f q d) (hv : v ≠ r) (hearly : (s.pc v).early = true) :
    f.data.addr ≠ v := by
  rcases ht.source with ⟨g, hg, -, hdata⟩ | ⟨-, hr, -⟩
  · rw [hdata]
    exact (h.fresh v hearly).2 i g hg
  · intro heq
    exact hv (Fin.ext (heq.symm.trans (h.own r f.data (by rw [hr]; rfl)).1))

/-- slot `i` has one user more -/
theorem users (ht : Takes s r c i f q d) (j : ℕ) :
    (Requests.setPc { s with cache := c } r q).users j = s.users j + if j = i then 1 else 0 := by
  have hsum := users_setPc { s with cache := c } r q j
  have hzero : (s.pc r).uses j = 0 := by rw [Pc.uses, ht.idle]; simp
  have hone : q.uses j = if j = i then 1 else 0 := by simp only [Pc.uses, ht.file, Option.some.injEq, eq_comm]
  rw [show ({ s with cache := c } : State n).users j = s.users j from rfl,
    show ({ s with cache := c } : State n).pc r = s.pc r from rfl, hzero, hone] at hsum
  omega

theorem counted (h : Inv s) (ht : Takes s r c i f q d) (hj : c.table j = some g) :
    g.active = (Requests.setPc { s with cache := c } r q).users j := by
  rw [ht.users]
  rcases ht.cases hj with ⟨rfl, rfl⟩ | ⟨hji, hold⟩
  · rw [ht.active, if_pos rfl]
  · rw [if_neg hji, add_zero]
    exact h.active j g hold

theorem held (h : Inv s) (ht : Takes s r c i f q d)
    (hv : ((Requests.setPc { s with cache := c } r q).pc v).file = some j) :
    ∃ g, c.table j = some g := by
  rw [ht.table]
  by_cases hji : j = i
  · exact ⟨f, by rw [hji, update_self]⟩
  · rw [update_of_ne hji]
    by_cases hvr : v = r
    · rw [hvr, ht.pc_self, ht.file, Option.some.injEq] at hv
      exact absurd hv.symm hji
    · rw [ht.pc_other hvr] at hv
      exact h.held v j hv

theorem fresh (h : Inv s) (ht : Takes s r c i f q d)
    (hv : ((Requests.setPc { s with cache := c } r q).pc v).early = true) :
    (v : ℕ) ∉ c.freed ∧ ∀ j g, c.table j = some g → g.data.addr ≠ v := by
  by_cases hvr : v = r
  · rw [hvr, ht.pc_self, ht.early] at hv
    cases hv
  · rw [ht.pc_other hvr] at hv
    obtain ⟨hfreed, htable⟩ := h.fresh v hv
    refine ⟨by rw [ht.freed]; exact hfreed, fun j g hj => ?_⟩
    rcases ht.cases hj with ⟨-, rfl⟩ | ⟨-, hold⟩
    · exact ht.addr_early h hvr hv
    · exact htable j g hold

theorem distinct (h : Inv s) (ht : Takes s r c i f q d) {k : ℕ} {g' : FileStruct} (hj : c.table j = some g)
    (hk : c.table k = some g') (haddr : g.data.addr = g'.data.addr) : j = k := by
  rcases ht.cases hj with ⟨rfl, rfl⟩ | ⟨-, hold⟩
  · rcases ht.cases hk with ⟨hkj, -⟩ | ⟨-, hold'⟩
    · exact hkj.symm
    · exact (ht.addr_inj h hold' haddr.symm).symm
  · rcases ht.cases hk with ⟨rfl, rfl⟩ | ⟨-, hold'⟩
    · exact ht.addr_inj h hold haddr
    · exact h.inj j k g g' hold hold' haddr

/-- if the data being sent is cached, the request counts as its user -/
theorem sending (h : Inv s) (ht : Takes s r c i f q d) {e : FileData}
    (hv : ((Requests.setPc { s with cache := c } r q).pc v).sending = some e) :
    (e ∈ s.reads ∧ e.fileName = s.name v) ∧ e.addr ∉ c.freed ∧ ∀ j g, c.table j = some g → g.data.addr = e.addr →
      ((Requests.setPc { s with cache := c } r q).pc v).file = some j := by
  rw [ht.freed]
  by_cases hvr : v = r
  · rw [hvr, ht.pc_self, ht.sends] at hv
    cases hv
    rw [hvr, ht.pc_self, ht.file]
    exact ⟨ht.read, ht.unfreed, fun j g hj haddr => by rw [ht.cached j g hj haddr]⟩
  · rw [ht.pc_other hvr] at hv ⊢
    obtain ⟨hdata, hfreed, htable⟩ := h.sending v e hv
    refine ⟨hdata, hfreed, fun j g hj haddr => ?_⟩
    rcases ht.cases hj with ⟨rfl, rfl⟩ | ⟨-, hold⟩
    · rcases ht.source with ⟨g', hg', -, hdata'⟩ | ⟨-, hr, -⟩
      · exact htable j g' hg' (by rw [← hdata']; exact haddr)
      · -- no request sends the struct of another that has still to insert it
        have hown := (h.own r g.data (by rw [hr]; rfl)).1
        exact absurd (haddr.symm.trans hown) (h.apart r v e (by rw [hr]; rfl) hv)
    · exact htable j g hold haddr

theorem separate (h : Inv s) (ht : Takes s r c i f q d) {u : Fin n} {e : FileData}
    (hu : ((Requests.setPc { s with cache := c } r q).pc u).early = true)
    (hv : ((Requests.setPc { s with cache := c } r q).pc v).sending = some e) : e.addr ≠ u := by
  by_cases hur : u = r
  · rw [hur, ht.pc_self, ht.early] at hu
    cases hu
  · rw [ht.pc_other hur] at hu
    by_cases hvr : v = r
    · rw [hvr, ht.pc_self, ht.sends] at hv
      cases hv
      exact ht.apart u hur hu
    · rw [ht.pc_other hvr] at hv
      exact h.apart u v e hu hv

end Takes

theorem Inv.take {c : CacheStruct} {f : FileStruct} {q : Pc} {d : FileData} (h : Inv s) (ht : Takes s r c i f q d) :
    Inv (Requests.setPc { s with cache := c } r q) where
  table := fun j g hj => by
    have hknown := ht.known h
    rcases ht.cases hj with ⟨-, rfl⟩ | ⟨-, hold⟩
    · exact hknown
    · exact h.table j g hold
  allowed := h.allowed
  active := fun _ _ => ht.counted h
  held := fun _ _ => ht.held h
  own := fun v e hv => by
    by_cases hvr : v = r
    · rw [hvr, ht.pc_self, ht.own] at hv
      cases hv
    · rw [ht.pc_other hvr] at hv
      exact h.own v e hv
  read := fun v e hv => by
    by_cases hvr : v = r
    · have hearly := ht.early
      rw [hvr, ht.pc_self] at hv
      rw [hv] at hearly
      cases hearly
    · rw [ht.pc_other hvr] at hv
      exact h.read v e hv
  fresh := fun _ => ht.fresh h
  inj := fun _ _ _ _ => ht.distinct h
  live := fun j g hj => by
    show g.data.addr ∉ c.freed
    rw [ht.freed]
    rcases ht.cases hj with ⟨-, rfl⟩ | ⟨-, hold⟩
    · exact ht.live h
    · exact h.live j g hold
  sending := fun _ _ => ht.sending h
  apart := fun _ _ _ => ht.separate h
  replies := fun v buf size hv => by
    obtain ⟨hne, he⟩ := h.replies v buf size hv
    refine ⟨?_, he⟩
    by_cases hvr : v = r
    · have hsends := ht.sends
      rw [hvr, ht.pc_self]
      intro hc
      rw [hc] at hsends
      cases hsends
    · rw [ht.pc_other hvr]
      exact hne

/-- a request stops using its file -/
theorem Inv.drop (h : Inv s) {c : CacheStruct} {f : FileStruct} (hr : s.pc r = .release (some i))
    (hi : s.cache.table i = some f) (hfreed : c.freed = s.cache.freed)
    (htable : c.table = update s.cache.table i (some { f with active := f.active - 1 })) :
    Inv (Requests.setPc { s with cache := c } r .done) := by
  have hpc : ∀ v, v ≠ r → (Requests.setPc { s with cache := c } r .done).pc v = s.pc v := fun v hv => update_of_ne hv ..
  have hpcr : (Requests.setPc { s with cache := c } r .done).pc r = .done := update_self ..
  -- every file is as before but for `active`
  have hsame : ∀ j g, c.table j = some g →
      ∃ g', s.cache.table j = some g' ∧ g.key = g'.key ∧ g.data = g'.data ∧
        g.active = g'.active - if j = i then 1 else 0 := by
    intro j g hj
    by_cases hji : j = i
    · subst hji
      rw [htable, update_self] at hj; cases hj
      exact ⟨f, hi, rfl, rfl, by simp⟩
    · rw [htable, update_of_ne hji] at hj
      exact ⟨g, hj, rfl, rfl, by simp [hji]⟩
  have hstays : ∀ j g, s.cache.table j = some g → ∃ g', c.table j = some g' := by
    intro j g hj
    by_cases hji : j = i
    · exact ⟨_, by rw [hji, htable, update_self]⟩
    · exact ⟨g, by rw [htable, update_of_ne hji]; exact hj⟩
  have husers : ∀ j, (Requests.setPc { s with cache := c } r .done).users j = s.users j - if j = i then 1 else 0 := by
    intro j
    have hsum := users_setPc { s with cache := c } r .done j
    have hdone : Pc.uses j .done = 0 := by simp [Pc.uses, Pc.file]
    have hone : (s.pc r).uses j = if j = i then 1 else 0 := by
      rw [hr]
      by_cases hji : j = i
      · subst hji; simp [Pc.uses, Pc.file]
      · simp [Pc.uses, Pc.file, hji, Ne.symm hji]
    rw [show ({ s with cache := c } : State n).users j = s.users j from rfl,
      show ({ s with cache := c } : State n).pc r = s.pc r from rfl, hdone, hone] at hsum
    omega
  refine ⟨?_, h.allowed, ?_, ?_, ?_, ?_, ?_, ?_, ?_, ?_, ?_, ?_⟩
  · intro j g hj
    obtain ⟨g', hg', hkey, hdata, -⟩ := hsame j g hj
    rw [hkey, hdata]; exact h.table j g' hg'
  · intro j g hj
    obtain ⟨g', hg', -, -, hactive⟩ := hsame j g hj
    rw [husers, hactive, h.active j g' hg']
  · intro v j hv
    by_cases hvr : v = r
    · rw [hvr, hpcr] at hv; cases hv
    · rw [hpc v hvr] at hv
      obtain ⟨g, hg⟩ := h.held v j hv
      exact hstays j g hg
  · intro v e hv
    by_cases hvr : v = r
    · rw [hvr, hpcr] at hv; cases hv
    · rw [hpc v hvr] at hv; exact h.own v e hv
  · intro v e hv
    by_cases hvr : v = r
    · rw [hvr, hpcr] at hv; cases hv
    · rw [hpc v hvr] at hv; exact h.read v e hv
  · intro v hv
    by_cases hvr : v = r
    · rw [hvr, hpcr] at hv; cases hv
    · rw [hpc v hvr] at hv
      obtain ⟨hvfreed, hvtable⟩ := h.fresh v hv
      refine ⟨by show (v : ℕ) ∉ c.freed; rw [hfreed]; exact hvfreed, fun j g hj => ?_⟩
      obtain ⟨g', hg', -, hdata, -⟩ := hsame j g hj
      rw [hdata]; exact hvtable j g' hg'
  · intro j k g g' hj hk haddr
    obtain ⟨e, he, -, hdata, -⟩ := hsame j g hj
    obtain ⟨e', he', -, hdata', -⟩ := hsame k g' hk
    rw [hdata, hdata'] at haddr
    exact h.inj j k e e' he he' haddr
  · intro j g hj
    obtain ⟨g', hg', -, hdata, -⟩ := hsame j g hj
    show g.data.addr ∉ c.freed
    rw [hfreed, hdata]; exact h.live j g' hg'
  · intro v e hv
    by_cases hvr : v = r
    · rw [hvr, hpcr] at hv; cases hv
    · rw [hpc v hvr] at hv ⊢
      obtain ⟨hd, hefreed, hetable⟩ := h.sending v e hv
      refine ⟨hd, by show e.addr ∉ c.freed; rw [hfreed]; exact hefreed, fun j g hj haddr => ?_⟩
      obtain ⟨g', hg', -, hdata, -⟩ := hsame j g hj
      rw [hdata] at haddr
      exact hetable j g' hg' haddr
  · intro u v e hu hv
    by_cases hur : u = r
    · rw [hur, hpcr] at hu; cases hu
    · by_cases hvr : v = r
      · rw [hvr, hpcr] at hv; cases hv
      · rw [hpc u hur] at hu; rw [hpc v hvr] at hv
        exact h.apart u v e hu hv
  · intro v buf size hv
    obtain ⟨hne, he⟩ := h.replies v buf size hv
    refine ⟨?_, he⟩
    by_cases hvr : v = r
    · rw [hvr, hpcr]; simp
    · rw [hpc v hvr]; exact hne

/-- the name of a request that has not started is nowhere used -/
theorem Inv.rename (h : Inv s) (hr : s.pc r = .start) (k : Key) : Inv { s with name := update s.name r k } := by
  refine ⟨h.table, h.allowed, h.active, h.held, ?_, h.read, h.fresh, h.inj, h.live, ?_, h.apart, ?_⟩
  · intro v d hv
    have hvr : v ≠ r := by rintro rfl; rw [show (s.pc v).own = none by rw [hr]; rfl] at hv; cases hv
    show _ ∧ d.fileName = update s.name r k v
    rw [update_of_ne hvr]; exact h.own v d hv
  · intro v d hv
    have hvr : v ≠ r := by rintro rfl; rw [show (s.pc v).sending = none by rw [hr]; rfl] at hv; cases hv
    show (_ ∧ d.fileName = update s.name r k v) ∧ _
    rw [update_of_ne hvr]; exact h.sending v d hv
  · intro v buf size hv
    obtain ⟨hne, hd⟩ := h.replies v buf size hv
    have hvr : v ≠ r := by rintro rfl; exact hne hr
    refine ⟨hne, ?_⟩
    show ∃ d ∈ s.reads, d.fileName = update s.name r k v ∧ _
    rw [update_of_ne hvr]; exact hd

/-- a file is read under a name that passes the checks -/
theorem Inv.readMore (h : Inv s) {d : FileData} (hd : refusal d.fileName = none) :
    Inv { s with reads := s.reads ++ [d] } := by
  have hmem : ∀ e ∈ s.reads, e ∈ s.reads ++ [d] := fun e he => List.mem_append_left _ he
  refine ⟨fun i f hi => ?_, fun e he => ?_, h.active, h.held, h.own,
    fun v e hv => hmem e (h.read v e hv), h.fresh, h.inj, h.live, fun v e hv => ?_, h.apart, fun v buf size hv => ?_⟩
  · obtain ⟨hkey, hread⟩ := h.table i f hi
    exact ⟨hkey, hmem _ hread⟩
  · rcases List.mem_append.1 he with he | he
    · exact h.allowed e he
    · rw [List.mem_singleton.1 he]; exact hd
  · obtain ⟨⟨hread, hname⟩, hrest⟩ := h.sending v e hv
    exact ⟨⟨hmem e hread, hname⟩, hrest⟩
  · obtain ⟨hne, e, he, hrest⟩ := h.replies v buf size hv
    exact ⟨hne, e, hmem e he, hrest⟩

theorem Inv.reply (h : Inv s) {a : Reply}
    (hfile : ∀ buf size, a = .file buf size →
      s.pc r ≠ .start ∧ ∃ d ∈ s.reads, d.fileName = s.name r ∧ d.fileBuf = buf ∧ d.fileSize = size) :
    Inv (Requests.reply s r a) := by
  refine ⟨h.table, h.allowed, h.active, h.held, h.own, h.read, h.fresh, h.inj, h.live, h.sending, h.apart, ?_⟩
  intro v buf size hv
  rcases List.mem_append.1 hv with hv | hv
  · exact h.replies v buf size hv
  · rw [List.mem_singleton, Prod.mk.injEq] at hv
    obtain ⟨rfl, ha⟩ := hv
    exact hfile buf size ha.symm

/-! ## The steps -/

theorem ofCache_eq_ok {A : Type} {x : Except Cache.Stop A} {a : A} : ofCache x = .ok a ↔ x = .ok a := by
  cases x with
  | ok b => simp [ofCache]
  | error e => cases e <;> simp [ofCache]

theorem addActive_eq_ok {c c' : CacheStruct} {file : ℕ} {change : ℤ} (h : addActive home c file change = .ok c') :
    ∃ f, c.table file = some f ∧
      c' = { c with table := update c.table file (some { f with active := f.active + change }) } := by
  rw [addActive, ofCache_eq_ok] at h
  simp only [Cache.step] at h
  split at h
  · next f hf => cases h; exact ⟨f, hf, rfl⟩
  · cases h

theorem requestReadfile_eq_ok {d : FileData} {host : Host} {x : Reply ⊕ FileData} (h : requestReadfile d host = .ok x) :
    (∃ e, x = .inl e ∧ ∀ buf size, e ≠ .file buf size) ∨
      ∃ d', x = .inr d' ∧ refusal d.fileName = none ∧ d'.fileName = d.fileName ∧ d'.addr = d.addr := by
  unfold requestReadfile at h
  split at h
  · next e he =>
    cases h
    refine .inl ⟨e, rfl, fun buf size hfile => ?_⟩
    rw [hfile] at he
    unfold refusal at he
    split_ifs at he <;> simp at he
  · next hnone =>
    cases host with
    | missing => cases h; exact .inl ⟨_, rfl, by simp⟩
    | irregular => cases h; exact .inl ⟨_, rfl, by simp⟩
    | unopenable => cases h
    | file stSize buf =>
      simp only at h
      split at h
      · cases h; exact .inr ⟨_, rfl, hnone, rfl, rfl⟩
      · split at h
        · cases h
        · cases h; exact .inr ⟨_, rfl, hnone, rfl, rfl⟩

theorem Inv.init (h : Inv s) (hr : s.pc r = .start) (method uri : Key) : Inv (requestInit s r method uri) := by
  unfold requestInit
  split
  · refine (h.rename hr _).setPc (by rw [show ({ s with name := _ } : State n).pc r = .start from hr]; rfl)
      (fun d hd => ?_) (by simp) (fun _ => ?_) (by simp [Pc.sending]) (by simp [Pc.sending]) (by simp)
    · cases hd
      exact ⟨rfl, (update_self r _ s.name).symm⟩
    · show (s.pc r).early = true
      rw [hr]; rfl
  · refine (h.reply (by simp)).setPc ?_ (by simp [Pc.own]) (by simp) (by simp [Pc.early]) (by simp [Pc.sending])
      (by simp [Pc.sending]) (by simp)
    show _ = (s.pc r).file
    rw [hr]; rfl

theorem Inv.lookup (h : Inv s) {data : FileData} (hr : s.pc r = .lookup data) (hs : lookup home s r data = .ok t) :
    Inv t := by
  obtain ⟨haddr, hname⟩ := h.own r data (by rw [hr]; rfl)
  rw [Requests.lookup, bind_eq_ok] at hs
  obtain ⟨found, hfound, hs⟩ := hs
  rw [ofCache_eq_ok] at hfound
  cases found with
  | none =>
    cases hs
    refine h.setPc (by rw [hr]; rfl) (fun d hd => ?_) (by simp) (fun _ => by rw [hr]; rfl) (by simp [Pc.sending])
      (by simp [Pc.sending]) (by simp)
    cases hd
    exact ⟨haddr, hname⟩
  | some i =>
    obtain ⟨f, hf, hkey⟩ := cacheLookup_file hfound
    simp only [hf] at hs
    rw [bind_eq_ok] at hs
    obtain ⟨c, hc, hs⟩ := hs
    obtain ⟨g, hg, rfl⟩ := addActive_eq_ok hc
    rw [hf, Option.some.injEq] at hg
    subst hg
    cases hs
    obtain ⟨hfkey, hfread⟩ := h.table i f hf
    refine h.take (f := { f with active := f.active + 1 }) (d := f.data) (i := i) ⟨rfl, rfl, .inl ⟨f, hf, rfl, rfl⟩, ?_,
      by rw [hr]; rfl, rfl, rfl, rfl, rfl, ⟨hfread, ?_⟩, h.live i f hf, ?_, fun v _ hv => (h.fresh v hv).2 i f hf⟩
    · rw [h.active i f hf]
    · rw [← hfkey, hkey, hname]
    · intro j g hj haddrj
      by_cases hji : j = i
      · exact hji
      · have hj' : s.cache.table j = some g := by rw [← update_of_ne hji (some _) s.cache.table]; exact hj
        exact h.inj j i g f hj' hf haddrj

/-- the data of a request that has just read its file, as it goes to `request_sendfile` -/
theorem Inv.own_data (h : Inv s) {data : FileData} (hr : s.pc r = .insert data) :
    (data ∈ s.reads ∧ data.fileName = s.name r) ∧ data.addr ∉ s.cache.freed ∧
      (∀ i f, s.cache.table i = some f → f.data.addr ≠ data.addr) ∧
      ∀ v, v ≠ r → (s.pc v).early = true → data.addr ≠ v := by
  obtain ⟨haddr, hname⟩ := h.own r data (by rw [hr]; rfl)
  obtain ⟨hfreed, htable⟩ := h.fresh r (by rw [hr]; rfl)
  rw [haddr]
  exact ⟨⟨h.read r data hr, hname⟩, hfreed, htable, fun v hv _ heq => hv (Fin.ext heq.symm)⟩

theorem Inv.insert (h : Inv s) {data : FileData} (hr : s.pc r = .insert data) (hs : insert home s r data = .ok t) :
    Inv t := by
  rw [Requests.insert, bind_eq_ok] at hs
  obtain ⟨⟨c, found⟩, hins, hs⟩ := hs
  rw [ofCache_eq_ok] at hins
  rcases cacheInsert_cases hins with ⟨i, f, rfl, rfl, hf, -⟩ | ⟨c1, hev, hcases⟩
  · -- another request has inserted the name meanwhile: its file is used, this request's own data is sent
    obtain ⟨hdata, hfreed, htable, hearly⟩ := h.own_data hr
    simp only [bind_eq_ok] at hs
    obtain ⟨c', hc', hs⟩ := hs
    obtain ⟨g, hg, rfl⟩ := addActive_eq_ok hc'
    rw [hf, Option.some.injEq] at hg
    subst hg
    cases hs
    refine h.take (f := { f with active := f.active + 1 }) (d := data) (i := i) ⟨rfl, rfl, .inl ⟨f, hf, rfl, rfl⟩, ?_,
      by rw [hr]; rfl, rfl, rfl, rfl, rfl, hdata, hfreed, ?_, hearly⟩
    · rw [h.active i f hf]
    · intro j g hj haddrj
      by_cases hji : j = i
      · exact hji
      · have hj' : s.cache.table j = some g := by rw [← update_of_ne hji (some _) s.cache.table]; exact hj
        exact absurd haddrj (htable j g hj')
  · have h1 := h.evict hev
    have hr1 : ({ s with cache := c1 } : State n).pc r = .insert data := hr
    obtain ⟨hdata, hfreed, htable, hearly⟩ := h1.own_data hr1
    rcases hcases with ⟨rfl, rfl⟩ | ⟨i, rfl, hempty, hctable, hcfreed, -⟩
    · -- the cache refuses the file
      cases hs
      refine h1.setPc (by rw [hr1]; rfl) (by simp [Pc.own]) (by simp) (by simp [Pc.early]) (fun d hd => ?_)
        (fun _ => rfl) (by simp)
      cases hd
      exact ⟨hdata, hfreed, fun i f hi haddr => absurd haddr (htable i f hi), hearly⟩
    · -- the file is stored into an empty slot, which no request uses
      simp only [bind_eq_ok] at hs
      obtain ⟨c', hc', hs⟩ := hs
      obtain ⟨g, hg, rfl⟩ := addActive_eq_ok hc'
      rw [hctable, update_self, Option.some.injEq] at hg
      subst hg
      cases hs
      have husers : ({ s with cache := c1 } : State n).users i = 0 := by
        refine Finset.sum_eq_zero fun v _ => ?_
        rw [Pc.uses, if_neg]
        intro hv
        obtain ⟨f, hf⟩ := h1.held v i hv
        rw [show ({ s with cache := c1 } : State n).cache.table i = none from hempty] at hf; cases hf
      have htake :=
        h1.take (r := r) (c := lruUpdate { c with table := update c.table i (some ⟨data.fileName, data, 0 + 1⟩) }
          (getIndex home { c with table := update c.table i (some ⟨data.fileName, data, 0 + 1⟩) } data.fileName))
        (f := ⟨data.fileName, data, 0 + 1⟩) (q := .sendMiss (some i) data) (d := data) (i := i)
        ⟨by simp [lruUpdate, hctable], hcfreed, .inr ⟨hempty, hr1, rfl⟩, by rw [husers], by rw [hr1]; rfl,
          rfl, rfl, rfl, rfl, hdata, hfreed, ?_, hearly⟩
      · exact htake
      · intro j g hj haddrj
        by_cases hji : j = i
        · exact hji
        · refine absurd haddrj (htable j g ?_)
          simpa [lruUpdate, hctable, update_of_ne hji] using hj

theorem Inv.send (h : Inv s) {data : FileData} {file : Option ℕ} (hsend : (s.pc r).sending = some data)
    (hfile : (s.pc r).file = file) (hs : requestSendfile s r data = .ok t) :
    Inv (Requests.setPc t r (.release file)) := by
  unfold requestSendfile at hs
  split at hs
  · cases hs
  · cases hs
    have hne : s.pc r ≠ .start := by intro hc; rw [hc] at hsend; cases hsend
    obtain ⟨⟨hread, hname⟩, -⟩ := h.sending r data hsend
    have hreply := h.reply (r := r) (a := .file data.fileBuf data.fileSize) fun buf size heq => by
      cases heq
      exact ⟨hne, data, hread, hname, rfl, rfl⟩
    refine hreply.setPc ?_ (by simp [Pc.own]) (by simp) (by simp [Pc.early]) (by simp [Pc.sending])
      (by simp [Pc.sending]) (by simp)
    exact hfile.symm

theorem step_inv {op : Op n} (h : Inv s) (hs : step home s op = .ok t) : Inv t := by
  cases op with
  | init r method uri =>
    simp only [step] at hs
    split at hs
    · next hr => cases hs; exact h.init hr method uri
    · cases hs
  | lookup r =>
    simp only [step] at hs
    split at hs
    · next data hr => exact h.lookup hr hs
    · cases hs
  | readFile r host =>
    simp only [step] at hs
    split at hs
    · next data hr =>
      rw [bind_eq_ok] at hs
      obtain ⟨x, hx, hs⟩ := hs
      obtain ⟨haddr, hname⟩ := h.own r data (by rw [hr]; rfl)
      rcases requestReadfile_eq_ok hx with ⟨e, rfl, he⟩ | ⟨d, rfl, hallowed, hdname, hdaddr⟩
      · cases hs
        refine (h.reply fun buf size hc => absurd hc (he buf size)).setPc ?_ (by simp [Pc.own]) (by simp)
          (by simp [Pc.early]) (by simp [Pc.sending]) (by simp [Pc.sending]) (by simp)
        show _ = (s.pc r).file
        rw [hr]; rfl
      · cases hs
        have hread := h.readMore (d := d) (by rw [hdname]; exact hallowed)
        refine hread.setPc ?_ (fun d' hd' => ?_) (fun d' hd' => ?_) (fun _ => ?_) (by simp [Pc.sending])
          (by simp [Pc.sending]) (by simp)
        · show _ = (s.pc r).file
          rw [hr]; rfl
        · cases hd'
          exact ⟨hdaddr.trans haddr, hdname.trans hname⟩
        · cases hd'
          exact List.mem_append_right _ (List.mem_singleton.2 rfl)
        · show (s.pc r).early = true
          rw [hr]; rfl
    · cases hs
  | insert r =>
    simp only [step] at hs
    split at hs
    · next data hr => exact h.insert hr hs
    · cases hs
  | send r =>
    simp only [step] at hs
    split at hs
    · next file data hr =>
      rw [bind_eq_ok] at hs
      obtain ⟨t', ht', hs⟩ := hs
      cases hs
      exact h.send (by rw [hr]; rfl) (by rw [hr]; rfl) ht'
    · next file data hr =>
      rw [bind_eq_ok] at hs
      obtain ⟨t', ht', hs⟩ := hs
      cases hs
      exact h.send (by rw [hr]; rfl) (by rw [hr]; rfl) ht'
    · cases hs
  | release r =>
    simp only [step] at hs
    split at hs
    · next file hr =>
      rw [bind_eq_ok] at hs
      obtain ⟨c, hc, hs⟩ := hs
      obtain ⟨f, hf, rfl⟩ := addActive_eq_ok hc
      cases hs
      exact h.drop hr hf rfl rfl
    · next hr =>
      cases hs
      exact h.setPc (by rw [hr]; rfl) (by simp [Pc.own]) (by simp) (by simp [Pc.early]) (by simp [Pc.sending])
        (by simp [Pc.sending]) (by simp)
    · cases hs

/-! ## No request reads a file that was freed -/

theorem probeLoop_ne_crash (c : CacheStruct) (k : Key) : probeLoop home c k ≠ .error .crash := by
  unfold probeLoop
  split <;> simp

theorem cacheLookup_ne_crash (c : CacheStruct) (k : Key) : cacheLookup home c k ≠ .error .crash := by
  unfold cacheLookup
  cases hp : probeLoop home c k with
  | error e =>
    intro hc
    cases hc
    exact probeLoop_ne_crash c k hp
  | ok j => cases ht : c.table j <;> simp [ht]

theorem cacheInsert_ne_crash (c : CacheStruct) (data : FileData) : cacheInsert home c data ≠ .error .crash := by
  unfold cacheInsert
  cases hl : cacheLookup home c data.fileName with
  | error e =>
    intro hc
    cases hc
    exact cacheLookup_ne_crash c _ hl
  | ok found =>
    cases found with
    | some i => simp
    | none =>
      rw [ok_bind]
      cases hev : cacheEvict c data.fileSize with
      | mk c1 fits =>
        cases fits with
        | false => simp
        | true =>
          simp only [tableInsert]
          cases hp : probeLoop home c1 data.fileName with
          | error e =>
            intro hc
            cases hc
            exact probeLoop_ne_crash c1 _ hp
          | ok j => simp

theorem addActive_of_some (home : Key → ℕ) {c : CacheStruct} {f : FileStruct} (hf : c.table i = some f) (change : ℤ) :
    ∃ c', addActive home c i change = .ok c' := by
  simp [addActive, Cache.step, hf, ofCache]

theorem ofCache_ne_crash {A : Type} {x : Except Cache.Stop A} (h : x ≠ .error .crash) : ofCache x ≠ .error .crash := by
  cases x with
  | ok a => simp [ofCache]
  | error e =>
    cases e with
    | hang => simp [ofCache]
    | crash => exact absurd rfl h

theorem requestSendfile_ok (h : Inv s) {data : FileData} (hsend : (s.pc r).sending = some data) :
    ∃ t, requestSendfile s r data = .ok t := by
  obtain ⟨-, hfreed, -⟩ := h.sending r data hsend
  exact ⟨_, if_neg hfreed⟩

theorem requestReadfile_ne_crash (data : FileData) (host : Host) : requestReadfile data host ≠ .error .crash := by
  unfold requestReadfile
  split
  · simp
  · cases host with
    | missing => simp
    | irregular => simp
    | unopenable => simp
    | file stSize buf => dsimp only; split_ifs <;> simp

theorem lookup_ne_crash (s : State n) (r : Fin n) (data : FileData) : lookup home s r data ≠ .error .crash := by
  unfold Requests.lookup
  cases hl : ofCache (cacheLookup home s.cache data.fileName) with
  | error e =>
    intro hc
    cases hc
    exact ofCache_ne_crash (cacheLookup_ne_crash _ _) hl
  | ok found =>
    cases found with
    | none => simp
    | some i =>
      obtain ⟨f, hf, -⟩ := cacheLookup_file (ofCache_eq_ok.1 hl)
      obtain ⟨c, hc⟩ := addActive_of_some home hf 1
      simp [hf, hc]

theorem insert_ne_crash (s : State n) (r : Fin n) (data : FileData) : insert home s r data ≠ .error .crash := by
  unfold Requests.insert
  cases hins : ofCache (cacheInsert home s.cache data) with
  | error e =>
    intro hc
    cases hc
    exact ofCache_ne_crash (cacheInsert_ne_crash _ _) hins
  | ok res =>
    obtain ⟨c, found⟩ := res
    cases found with
    | none => simp
    | some i =>
      have hfile : ∃ f, c.table i = some f := by
        rcases cacheInsert_cases (ofCache_eq_ok.1 hins)
          with ⟨j, f, hj, rfl, hf, -⟩ | ⟨c1, -, ⟨hj, -⟩ | ⟨j, hj, -, ht, -⟩⟩
        · cases hj; exact ⟨f, hf⟩
        · cases hj
        · cases hj; exact ⟨_, by rw [ht, update_self]⟩
      obtain ⟨f, hf⟩ := hfile
      obtain ⟨c', hc'⟩ := addActive_of_some home hf 1
      simp [hc']

theorem step_ne_crash (h : Inv s) (op : Op n) : step home s op ≠ .error .crash := by
  cases op with
  | init r method uri =>
    simp only [step]
    split <;> simp
  | lookup r =>
    simp only [step]
    split
    · exact lookup_ne_crash s r _
    · simp
  | readFile r host =>
    simp only [step]
    split
    · next data _ =>
      cases hread : requestReadfile data host with
      | error e =>
        intro hc
        cases hc
        exact requestReadfile_ne_crash data host hread
      | ok x => cases x <;> simp
    · simp
  | insert r =>
    simp only [step]
    split
    · exact insert_ne_crash s r _
    · simp
  | send r =>
    simp only [step]
    split
    · next file data hr =>
      have hsend : (s.pc r).sending = some data := by rw [hr]; rfl
      obtain ⟨t, ht⟩ := requestSendfile_ok h hsend
      simp [ht]
    · next file data hr =>
      have hsend : (s.pc r).sending = some data := by rw [hr]; rfl
      obtain ⟨t, ht⟩ := requestSendfile_ok h hsend
      simp [ht]
    · simp
  | release r =>
    simp only [step]
    split
    · next file hr =>
      obtain ⟨f, hf⟩ := h.held r file (by rw [hr]; rfl)
      obtain ⟨c, hc⟩ := addActive_of_some home hf (-1)
      simp [hc]
    · simp
    · simp

end

theorem refusal_eq_none {k : Key} (h : refusal k = none) :
    k.head? ≠ some 47 ∧ ¬ [46, 46] <:+: k ∧ strrchr 46 k ≠ some [46, 99] ∧ strrchr 46 k ≠ some [46, 104] := by
  unfold refusal at h
  split_ifs at h with h1 h2 h3
  exact ⟨h1, h2, fun hc => h3 (.inl hc), fun hc => h3 (.inr hc)⟩

/-- **The cache never serves the wrong or a forbidden file.** In every state of every run, each body sent to a request
is one that `request_readfile` read under exactly the requested name, which does not start with `/`, has no `..` and
does not end in `.c` or `.h`; and no step reads a `struct file_data` that has been freed. The one freed thing that is
read is the queue node of `LRU_delete`, whose `next` is taken to be what it was (`Cache.Model`). -/
theorem cache_serves_right_file (home : Key → ℕ) (n tableSize : ℕ) (maxCacheSize : ℤ) (s : State n)
    (hrun : Run (step home) anyStep (start n tableSize maxCacheSize) s) :
    (∀ r buf size, (r, Reply.file buf size) ∈ s.replies →
      (∃ d ∈ s.reads, d.fileName = s.name r ∧ d.fileBuf = buf ∧ d.fileSize = size) ∧
        (s.name r).head? ≠ some 47 ∧ ¬ [46, 46] <:+: s.name r ∧
        strrchr 46 (s.name r) ≠ some [46, 99] ∧ strrchr 46 (s.name r) ≠ some [46, 104]) ∧
      ∀ op, step home s op ≠ .error .crash := by
  have h := hrun.inv Inv (fun s op s' h _ hs => step_inv h hs) (inv_start n tableSize maxCacheSize)
  refine ⟨fun r buf size hr => ?_, step_ne_crash h⟩
  obtain ⟨-, d, hd, hname, hrest⟩ := h.replies r buf size hr
  have hallowed := h.allowed d hd
  rw [hname] at hallowed
  exact ⟨⟨d, hd, hname, hrest⟩, refusal_eq_none hallowed⟩

/-- two requests for the same file: both miss, one inserts, the other finds it there and sends its own copy; a third
hits -/
theorem cache_serves_right_file_twice :
    ∃ s : State 3, Run (step djb2) anyStep (start 3 7 10) s ∧ s.replies = [(0, .file [1, 2] 2), (1, .file [1, 3] 2),
      (2, .file [1, 2] 2)] ∧ ∃ d ∈ s.reads, d.fileName = s.name 2 ∧ d.fileBuf = [1, 2] ∧ d.fileSize = 2 := by
  have h : ∃ s : State 3, Run (step djb2) anyStep (start 3 7 10) s ∧
      decide (s.replies = [(0, Reply.file [1, 2] 2), (1, .file [1, 3] 2), (2, .file [1, 2] 2)]) = true :=
    run_of_passes [.init 0 [71, 69, 84] [97], .lookup 0, .init 1 [71, 69, 84] [97], .lookup 1,
      .readFile 0 (.file 2 [1, 2]), .insert 0, .readFile 1 (.file 2 [1, 3]), .insert 1, .init 2 [71, 69, 84] [97],
      .lookup 2, .send 0, .send 1, .send 2, .release 0, .release 1, .release 2] (by decide +kernel)
  obtain ⟨s, hrun, hs⟩ := h
  have hreplies := of_decide_eq_true hs
  refine ⟨s, hrun, hreplies, ?_⟩
  exact ((cache_serves_right_file djb2 3 7 10 s hrun).1 2 [1, 2] 2 (by rw [hreplies]; simp)).1

end OsLab.Server.Requests
