/-
The accounts of the file cache while requests are served, and the files in use.

`step_section` says what each step of a request does to the cache: nothing, or one of the critical sections, namely a
hit, an insertion (with or without a file to pin) and the final `active--`. Results, for any number of requests at once:
- `cache_accounting`: the queue has the index of every occupied slot once and no other, `currSize` is the sum of the
  sizes in the table, and it stays between 0 and `maxSize`.
- `pinned_never_evicted`: `active` is the number of requests between their `active++` and their `active--`, and no step
  takes a file that is in use out of the table or frees its data.
-/
import Mathlib.Tactic
import OsLab.Lib.Run
import OsLab.Cache.Model
import OsLab.Cache.Map
import OsLab.Cache.Evict
import OsLab.Cache.Accounts
import OsLab.Server.Requests

namespace OsLab.Server.Requests

open OsLab.Lib OsLab.Cache
open Function (update update_self update_of_ne)

/-- `file->active++` for the file `f` in slot `i`, and `LRU_update` for the slot of the hash of `fileName` -/
def pin (home : Key → ℕ) (c : CacheStruct) (i : ℕ) (f : FileStruct) (fileName : Key) : CacheStruct :=
  lruUpdate { c with table := update c.table i (some { f with active := f.active + 1 }) } (getIndex home c fileName)

section

variable {n : ℕ} {home : Key → ℕ} {s t : State n} {r : Fin n} {i : ℕ}

/-- the steps by their critical section -/
inductive Section (home : Key → ℕ) (s t : State n) : Op n → Prop
  /-- the cache is not touched -/
  | outside (op : Op n) (hcache : t.cache = s.cache) (hop : ∀ r, op ≠ .lookup r ∧ op ≠ .insert r)
      (hpc : ∀ r d, t.pc r = .insert d → s.pc r = .insert d ∨ 0 ≤ d.fileSize) : Section home s t op
  | miss (r : Fin n) (data : FileData) (hr : s.pc r = .lookup data)
      (hlook : cacheLookup home s.cache data.fileName = .ok none) (ht : t = setPc s r (.readFile data)) :
      Section home s t (.lookup r)
  | hit (r : Fin n) (data : FileData) (i : ℕ) (f : FileStruct) (hr : s.pc r = .lookup data)
      (hlook : cacheLookup home s.cache data.fileName = .ok (some i)) (hf : s.cache.table i = some f)
      (ht : t = setPc { s with cache := pin home s.cache i f f.data.fileName } r (.sendHit i f.data)) :
      Section home s t (.lookup r)
  /-- the cache refuses the file -/
  | refused (r : Fin n) (data : FileData) (c : CacheStruct) (hr : s.pc r = .insert data)
      (hins : cacheInsert home s.cache data = .ok (c, none))
      (ht : t = setPc { s with cache := c } r (.sendMiss none data)) : Section home s t (.insert r)
  | inserted (r : Fin n) (data : FileData) (c : CacheStruct) (i : ℕ) (f : FileStruct) (hr : s.pc r = .insert data)
      (hins : cacheInsert home s.cache data = .ok (c, some i)) (hf : c.table i = some f)
      (ht : t = setPc { s with cache := pin home c i f data.fileName } r (.sendMiss (some i) data)) :
      Section home s t (.insert r)
  | released (r : Fin n) (i : ℕ) (f : FileStruct) (hr : s.pc r = .release (some i)) (hf : s.cache.table i = some f)
      (ht : t = setPc
        { s with cache := { s.cache with table := update s.cache.table i (some { f with active := f.active + -1 }) } }
        r .done) : Section home s t (.release r)

theorem setPc_insert {q : Pc} {d : FileData} {v : Fin n} (hv : (setPc s r q).pc v = .insert d) :
    s.pc v = .insert d ∨ q = .insert d := by
  by_cases hvr : v = r
  · subst hvr
    simp only [setPc, update_self] at hv
    exact .inr hv
  · simp only [setPc, update_of_ne hvr] at hv
    exact .inl hv

theorem requestReadfile_size {d d' : FileData} {host : Host} (h : requestReadfile d host = .ok (.inr d')) :
    0 ≤ d'.fileSize := by
  unfold requestReadfile at h
  split at h
  · cases h
  · cases host with
    | missing => cases h
    | irregular => cases h
    | unopenable => cases h
    | file stSize buf =>
      dsimp only at h
      split_ifs at h with hzero hneg
      · cases h; exact le_of_eq hzero.symm
      · cases h; exact not_lt.1 hneg

/-- a step that leaves the cache alone and moves its request on to `q` -/
theorem section_setPc {op : Op n} {u : State n} {q : Pc} (hcache : u.cache = s.cache) (hpc : u.pc = s.pc)
    (ht : t = setPc u r q) (hop : ∀ r, op ≠ .lookup r ∧ op ≠ .insert r) (hq : ∀ d, q = .insert d → 0 ≤ d.fileSize) :
    Section home s t op := by
  subst ht
  refine .outside op hcache hop fun v d hv => ?_
  rcases setPc_insert hv with hold | hnew
  · rw [hpc] at hold; exact .inl hold
  · exact .inr (hq d hnew)

theorem step_section {op : Op n} (hs : step home s op = .ok t) : Section home s t op := by
  cases op with
  | init r method uri =>
    simp only [step] at hs
    split at hs
    · cases hs
      unfold requestInit
      split
      · exact section_setPc (u := { s with name := update s.name r (requestParseURI uri) }) rfl rfl rfl
          (by simp) (by simp)
      · exact section_setPc (u := reply s r _) rfl rfl rfl (by simp) (by simp)
    · cases hs
  | lookup r =>
    simp only [step] at hs
    split at hs
    · next data hr =>
      rw [lookup, bind_eq_ok] at hs
      obtain ⟨found, hlook, hs⟩ := hs
      rw [ofCache_eq_ok] at hlook
      cases found with
      | none =>
        cases hs
        exact .miss r data hr hlook rfl
      | some i =>
        obtain ⟨f, hf, -⟩ := cacheLookup_file hlook
        simp only [hf] at hs
        rw [bind_eq_ok] at hs
        obtain ⟨c, hc, hs⟩ := hs
        obtain ⟨g, hg, rfl⟩ := addActive_eq_ok hc
        rw [hf, Option.some.injEq] at hg
        subst hg
        cases hs
        exact .hit r data i f hr hlook hf rfl
    · cases hs
  | readFile r host =>
    simp only [step] at hs
    split at hs
    · next data _ =>
      rw [bind_eq_ok] at hs
      obtain ⟨x, hx, hs⟩ := hs
      cases x with
      | inl error =>
        cases hs
        exact section_setPc (u := reply s r error) rfl rfl rfl (by simp) (by simp)
      | inr d =>
        cases hs
        refine section_setPc (u := { s with reads := s.reads ++ [d] }) rfl rfl rfl (by simp) fun d' hd' => ?_
        cases hd'
        exact requestReadfile_size hx
    · cases hs
  | insert r =>
    simp only [step] at hs
    split at hs
    · next data hr =>
      rw [insert, bind_eq_ok] at hs
      obtain ⟨⟨c, found⟩, hins, hs⟩ := hs
      rw [ofCache_eq_ok] at hins
      cases found with
      | none =>
        cases hs
        exact .refused r data c hr hins rfl
      | some i =>
        simp only [bind_eq_ok] at hs
        obtain ⟨c', hc', hs⟩ := hs
        obtain ⟨f, hf, rfl⟩ := addActive_eq_ok hc'
        cases hs
        exact .inserted r data c i f hr hins hf rfl
    · cases hs
  | send r =>
    have hsend : ∀ data u file, requestSendfile s r data = .ok u → t = setPc u r (.release file) →
        Section home s t (.send r) := by
      intro data u file hu ht
      unfold requestSendfile at hu
      split at hu
      · cases hu
      · cases hu
        exact section_setPc (u := reply s r _) rfl rfl ht (by simp) (by simp)
    simp only [step] at hs
    split at hs
    · next file data _ =>
      rw [bind_eq_ok] at hs
      obtain ⟨u, hu, hs⟩ := hs
      cases hs
      exact hsend data u (some file) hu rfl
    · next file data _ =>
      rw [bind_eq_ok] at hs
      obtain ⟨u, hu, hs⟩ := hs
      cases hs
      exact hsend data u file hu rfl
    · cases hs
  | release r =>
    simp only [step] at hs
    split at hs
    · next file hr =>
      rw [bind_eq_ok] at hs
      obtain ⟨c, hc, hs⟩ := hs
      obtain ⟨f, hf, rfl⟩ := addActive_eq_ok hc
      cases hs
      exact .released r file f hr hf rfl
    · cases hs
      exact section_setPc (u := s) rfl rfl rfl (by simp) (by simp)
    · cases hs

/-! ## Accounts -/

/-- the accounts are right, and no file of a negative size is on its way into the cache -/
structure Accounts (maxCacheSize : ℤ) (s : State n) : Prop where
  inv : Inv s
  account : Account s.cache
  maxSize : s.cache.maxSize = maxCacheSize
  sizes : ∀ r d, s.pc r = .insert d → 0 ≤ d.fileSize

theorem pin_account {c : CacheStruct} {f : FileStruct} {k : Key} (h : Account c) (hf : c.table i = some f)
    (hhome : (c.table (getIndex home c k)).isSome) : Account (pin home c i f k) := by
  refine lruUpdate_account (h.sameData hf rfl) ?_
  by_cases heq : getIndex home c k = i
  · rw [heq]; simp
  · simpa [update_of_ne heq] using hhome

theorem Accounts.section_account {op : Op n} {maxCacheSize : ℤ} (h : Accounts maxCacheSize s)
    (hs : Section home s t op) : Account t.cache := by
  cases hs with
  | outside _ hcache _ _ => rw [hcache]; exact h.account
  | miss r data hr hlook ht => subst ht; exact h.account
  | hit r data i f hr hlook hf ht =>
    subst ht
    obtain ⟨g, hg, hkey⟩ := cacheLookup_file hlook
    rw [hf, Option.some.injEq] at hg
    subst hg
    have hname : f.data.fileName = data.fileName := by rw [← (h.inv.table i f hf).1, hkey]
    rw [hname]
    exact pin_account h.account hf (home_occupied (cacheLookup_eq_some.1 hlook).1 (by rw [hf]; rfl))
  | refused r data c hr hins ht =>
    subst ht
    exact (cacheInsert_account h.account (h.sizes r data hr) hins).1
  | inserted r data c i f hr hins hf ht =>
    subst ht
    obtain ⟨hacc, hhome⟩ := cacheInsert_account h.account (h.sizes r data hr) hins
    exact pin_account hacc hf (hhome i rfl)
  | released r i f hr hf ht =>
    subst ht
    exact h.account.sameData hf rfl

/-- only `request_readfile` brings a file to its insertion -/
theorem Section.insert_cases {op : Op n} (hs : Section home s t op) {v : Fin n} {d : FileData}
    (hv : t.pc v = .insert d) : s.pc v = .insert d ∨ 0 ≤ d.fileSize := by
  cases hs with
  | outside _ _ _ hpc => exact hpc v d hv
  | miss r data hr hlook ht =>
    subst ht
    exact (setPc_insert hv).imp id (by simp)
  | hit r data i f hr hlook hf ht =>
    subst ht
    exact (setPc_insert hv).imp id (by simp)
  | refused r data c hr hins ht =>
    subst ht
    exact (setPc_insert hv).imp id (by simp)
  | inserted r data c i f hr hins hf ht =>
    subst ht
    exact (setPc_insert hv).imp id (by simp)
  | released r i f hr hf ht =>
    subst ht
    exact (setPc_insert hv).imp id (by simp)

theorem Section.maxSize {op : Op n} (hs : Section home s t op) : t.cache.maxSize = s.cache.maxSize := by
  cases hs with
  | outside _ hcache _ _ => rw [hcache]
  | miss r data hr hlook ht => subst ht; rfl
  | hit r data i f hr hlook hf ht => subst ht; rfl
  | refused r data c hr hins ht => subst ht; exact cacheInsert_maxSize hins
  | inserted r data c i f hr hins hf ht => subst ht; exact (cacheInsert_maxSize hins :)
  | released r i f hr hf ht => subst ht; rfl

theorem step_accounts {op : Op n} {maxCacheSize : ℤ} (h : Accounts maxCacheSize s) (hs : step home s op = .ok t) :
    Accounts maxCacheSize t := by
  have hsec := step_section hs
  refine ⟨step_inv h.inv hs, h.section_account hsec, hsec.maxSize.trans h.maxSize, fun v d hv => ?_⟩
  rcases hsec.insert_cases hv with hold | hsize
  · exact h.sizes v d hold
  · exact hsize

/-! ## Files in use -/

theorem users_eq_card (s : State n) (i : ℕ) :
    s.users i = (Finset.univ.filter fun r => (s.pc r).file = some i).card := by
  simp only [State.users, Pc.uses, Finset.sum_boole]

/-- a file that somebody uses stays where it is -/
theorem Section.stays {op : Op n} (h : Inv s) (hs : Section home s t op) {f : FileStruct}
    (hf : s.cache.table i = some f) (hused : 0 < s.users i) :
    ∃ g, t.cache.table i = some g ∧ g.key = f.key ∧ g.data = f.data := by
  have hactive : f.active ≠ 0 := by rw [h.active i f hf]; omega
  -- changing the `active` of one file
  have hpin : ∀ (table : ℕ → Option FileStruct) j e a, table j = some e → table i = some f →
      ∃ g, update table j (some { e with active := a }) i = some g ∧ g.key = f.key ∧ g.data = f.data := by
    intro table j e a hj hi
    by_cases hij : i = j
    · subst hij
      rw [hi, Option.some.injEq] at hj
      subst hj
      exact ⟨_, update_self .., rfl, rfl⟩
    · exact ⟨f, by rw [update_of_ne hij]; exact hi, rfl, rfl⟩
  cases hs with
  | outside _ hcache _ _ => exact ⟨f, by rw [hcache]; exact hf, rfl, rfl⟩
  | miss r data hr hlook ht => subst ht; exact ⟨f, hf, rfl, rfl⟩
  | hit r data j e hr hlook he ht =>
    subst ht
    exact hpin s.cache.table j e _ he hf
  | refused r data c hr hins ht =>
    subst ht
    rcases cacheInsert_cases hins with ⟨j, e, hj, -⟩ | ⟨c1, hev, ⟨-, rfl⟩ | ⟨j, hj, -⟩⟩
    · cases hj
    · exact ⟨f, hev.table_of_active hf hactive, rfl, rfl⟩
    · cases hj
  | inserted r data c j e hr hins he ht =>
    subst ht
    refine hpin c.table j e _ he ?_
    rcases cacheInsert_cases hins with ⟨_, _, -, rfl, -, -⟩ | ⟨c1, hev, ⟨hnone, -⟩ | ⟨k, -, hempty, htable, -, -⟩⟩
    · exact hf
    · cases hnone
    · have hkept := hev.table_of_active hf hactive
      have hik : i ≠ k := by rintro rfl; rw [hempty] at hkept; cases hkept
      rw [htable, update_of_ne hik]; exact hkept
  | released r j e hr he ht =>
    subst ht
    exact hpin s.cache.table j e _ he hf

end

/-! ## The runs -/

theorem run_accounts {home : Key → ℕ} {n tableSize : ℕ} {maxCacheSize : ℤ} (hmax : 0 < maxCacheSize) {s : State n}
    (hrun : Run (step home) anyStep (start n tableSize maxCacheSize) s) : Accounts maxCacheSize s := by
  refine hrun.inv (Accounts maxCacheSize) (fun s op s' h _ hs => step_accounts h hs) ?_
  exact ⟨inv_start n tableSize maxCacheSize, account_init tableSize hmax.le, rfl, by intro r d h; cases h⟩

/-- **Cache accounting.** In every state of every run the queue has the index of every occupied slot exactly once and no
other index, `currSize` is the sum of the sizes in the table, and the room `maxSize - currSize` is between 0 and the
budget; so it is after every turn of the loop of `LRU_delete`. -/
theorem cache_accounting (home : Key → ℕ) (n tableSize : ℕ) (maxCacheSize : ℤ) (hmax : 0 < maxCacheSize) (s : State n)
    (hrun : Run (step home) anyStep (start n tableSize maxCacheSize) s) :
    (∀ i, s.cache.queue.count i = if (s.cache.table i).isSome then 1 else 0) ∧
      (∀ i, (s.cache.table i).isSome → i < s.cache.tableSize) ∧
      s.cache.currSize = ∑ i ∈ Finset.range s.cache.tableSize, size (s.cache.table i) ∧
      0 ≤ s.cache.currSize ∧ s.cache.currSize ≤ s.cache.maxSize ∧ s.cache.maxSize = maxCacheSize ∧
      ∀ fileSize turns, 0 ≤ (lruLoop fileSize (s.cache.queue.take turns) s.cache).currSize ∧
        (lruLoop fileSize (s.cache.queue.take turns) s.cache).currSize ≤ maxCacheSize := by
  have h := run_accounts hmax hrun
  refine ⟨h.account.queue, h.account.range, h.account.sum, h.account.nonneg, h.account.fits, h.maxSize,
    fun fileSize turns => ?_⟩
  have hloop := lruLoop_account fileSize (s.cache.queue.take turns) h.account
  refine ⟨hloop.nonneg, ?_⟩
  calc (lruLoop fileSize (s.cache.queue.take turns) s.cache).currSize
      ≤ (lruLoop fileSize (s.cache.queue.take turns) s.cache).maxSize := hloop.fits
    _ = s.cache.maxSize := (lruLoop_spec fileSize (s.cache.queue.take turns) s.cache).1
    _ = maxCacheSize := h.maxSize

/-- a budget of 10: `a` with 6 bytes is cached and sent, then `b` with 7 makes it go -/
theorem cache_accounting_after_eviction :
    ∃ s : State 2, Run (step djb2) anyStep (start 2 7 10) s ∧ s.cache.queue = [1] ∧ s.cache.currSize = 7 ∧
      ∑ i ∈ Finset.range s.cache.tableSize, size (s.cache.table i) = 7 := by
  have h : ∃ s : State 2, Run (step djb2) anyStep (start 2 7 10) s ∧
      (decide (s.cache.queue = [1]) && decide (s.cache.currSize = 7)) = true :=
    run_of_passes [.init 0 [71, 69, 84] [97], .lookup 0, .readFile 0 (.file 6 []), .insert 0, .send 0, .release 0,
      .init 1 [71, 69, 84] [98], .lookup 1, .readFile 1 (.file 7 []), .insert 1] (by decide +kernel)
  obtain ⟨s, hrun, hs⟩ := h
  simp only [Bool.and_eq_true, decide_eq_true_eq] at hs
  refine ⟨s, hrun, hs.1, hs.2, ?_⟩
  obtain ⟨-, -, hsum, -⟩ := cache_accounting djb2 2 7 10 (by decide) s hrun
  rw [← hsum]; exact hs.2

/-- **Files in use are never evicted.** In every state of every run the `active` of each cached file is the number of
requests between their `active++` on it and the matching `active--`; and a step leaves a file that is in use in its slot
and does not free its data. -/
theorem pinned_never_evicted (home : Key → ℕ) (n tableSize : ℕ) (maxCacheSize : ℤ) (s : State n)
    (hrun : Run (step home) anyStep (start n tableSize maxCacheSize) s) :
    (∀ i f, s.cache.table i = some f →
      f.active = (Finset.univ.filter fun r => (s.pc r).file = some i).card ∧ 0 ≤ f.active) ∧
      (∀ r i, (s.pc r).file = some i → (s.cache.table i).isSome) ∧
      ∀ op t, step home s op = .ok t → ∀ i f, s.cache.table i = some f →
        0 < (Finset.univ.filter fun r => (s.pc r).file = some i).card →
          (∃ g, t.cache.table i = some g ∧ g.key = f.key ∧ g.data = f.data) ∧ f.data.addr ∉ t.cache.freed := by
  have h := hrun.inv Inv (fun s op s' h _ hs => step_inv h hs) (inv_start n tableSize maxCacheSize)
  refine ⟨fun i f hf => ?_, fun r i hr => ?_, fun op t hs i f hf hused => ?_⟩
  · have hactive := h.active i f hf
    rw [users_eq_card] at hactive
    exact ⟨hactive, by rw [hactive]; exact Int.natCast_nonneg _⟩
  · obtain ⟨f, hf⟩ := h.held r i hr
    rw [hf]; rfl
  · have hpos : 0 < s.users i := by rw [users_eq_card]; exact_mod_cast hused
    obtain ⟨g, hg, hkey, hdata⟩ := (step_section hs).stays h hf hpos
    refine ⟨⟨g, hg, hkey, hdata⟩, ?_⟩
    rw [← hdata]
    exact (step_inv h hs).live i g hg

/-- a budget of 10: while `a` with 6 bytes is sent, `b` with 7 does not make it go -/
theorem pinned_never_evicted_while_sent :
    ∃ s t : State 2, Run (step djb2) anyStep (start 2 7 10) s ∧ step djb2 s (.insert 1) = .ok t ∧
      ∃ f, s.cache.table 0 = some f ∧ f.active = 1 ∧
        (∃ g, t.cache.table 0 = some g ∧ g.key = f.key ∧ g.data = f.data) ∧ f.data.addr ∉ t.cache.freed := by
  have h : ∃ s : State 2, Run (step djb2) anyStep (start 2 7 10) s ∧
      ((s.cache.table 0).any (fun f => decide (f.active = 1)) && decide ((s.pc 0).file = some 0) &&
        after (step djb2 s (.insert 1)) fun _ => true) = true :=
    run_of_passes [.init 0 [71, 69, 84] [97], .lookup 0, .readFile 0 (.file 6 []), .insert 0,
      .init 1 [71, 69, 84] [98], .lookup 1, .readFile 1 (.file 7 [])] (by decide +kernel)
  obtain ⟨s, hrun, hs⟩ := h
  simp only [Bool.and_eq_true, decide_eq_true_eq, Option.any_eq_true] at hs
  obtain ⟨⟨⟨f, hf, hactive⟩, hfile⟩, hafter⟩ := hs
  obtain ⟨t, ht, -⟩ := exists_of_after hafter
  have hused : 0 < (Finset.univ.filter fun r => (s.pc r).file = some 0).card :=
    Finset.card_pos.2 ⟨0, Finset.mem_filter.2 ⟨Finset.mem_univ 0, hfile⟩⟩
  exact ⟨s, t, hrun, ht, f, hf, hactive, (pinned_never_evicted djb2 2 7 10 s hrun).2.2 _ t ht 0 f hf hused⟩

end OsLab.Server.Requests
