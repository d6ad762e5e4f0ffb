/-
The order of the queue of the file cache: least recently used first, unless names collide.

`History` counts the steps of a run and dates the last use of the file in each slot. `LRU_update` moves the slot of the
hash of the name to the tail, which is the slot of the file only if the file is at home. `eviction_order`: in every run
whose hits and insertions find their file at home (`atHome`) the queue lists the cached files in the order of their last
uses, and the first hit or insertion that does not breaks the order at once. `eviction_order_collision`: two names with
one hash, with the hash and the table size of the source.
-/
import Mathlib.Tactic
import OsLab.Lib.Run
import OsLab.Lib.Probe
import OsLab.Cache.Model
import OsLab.Cache.Map
import OsLab.Cache.Evict
import OsLab.Cache.Accounts
import OsLab.Server.Requests
import OsLab.Server.Accounts

namespace OsLab.Server.Requests

open OsLab.Lib OsLab.Cache
open Function (update update_self update_of_ne)

/-- a state, the number of steps done, and the step of the last use of the file in each slot -/
structure History (n : ℕ) where
  state : State n
  now : ℕ
  used : ℕ → ℕ

/-- the slot of the file that a step hits or inserts -/
def usedSlot {n : ℕ} (t : State n) : Op n → Option ℕ
  | .lookup r => (t.pc r).file
  | .insert r => (t.pc r).file
  | _ => none

/-- the queue lists the cached files in the order of their last uses -/
def Recent (c : CacheStruct) (used : ℕ → ℕ) : Prop :=
  ∀ i j, (c.table i).isSome → (c.table j).isSome → used i < used j → c.queue.idxOf i < c.queue.idxOf j

section

variable {n : ℕ} (home : Key → ℕ)

def History.start (n tableSize : ℕ) (maxCacheSize : ℤ) : History n :=
  ⟨Requests.start n tableSize maxCacheSize, 0, fun _ => 0⟩

/-- a step, which uses the file it hits or inserts -/
def History.step (h : History n) (op : Op n) : Except Stop (History n) := do
  let t ← Requests.step home h.state op
  return ⟨t, h.now + 1, fun i => if usedSlot t op = some i then h.now + 1 else h.used i⟩

/-- the slot of the hash of the name holds the file -/
def ownSlot (c : CacheStruct) (fileName : Key) : Bool := keys c (getIndex home c fileName) = some fileName

def hits (c : CacheStruct) (fileName : Key) : Bool :=
  match cacheLookup home c fileName with
  | .ok (some _) => true
  | _ => false

/-- a file that is found is in the slot of its hash, and that slot is empty, or emptied for it, when a file is stored -/
def atHome (h : History n) : Op n → Bool
  | .lookup r =>
    match h.state.pc r with
    | .lookup data => !hits home h.state.cache data.fileName || ownSlot home h.state.cache data.fileName
    | _ => true
  | .insert r =>
    match h.state.pc r with
    | .insert data =>
      if hits home h.state.cache data.fileName then ownSlot home h.state.cache data.fileName
      else !roomFor h.state.cache data.fileSize ||
        getIndex home h.state.cache data.fileName ∈ emptiedFor h.state.cache data.fileSize ||
        keys h.state.cache (getIndex home h.state.cache data.fileName) = none
    | _ => true
  | _ => true

end

/-! ## The slot a search ends at -/

section

variable {home : Key → ℕ} {c : CacheStruct} {k : Key} {i : ℕ}

theorem find_eq_home (h : find home c.tableSize (keys c) k = some i) :
    i = getIndex home c k ↔ Stops (keys c) k (getIndex home c k) := by
  have hpos := find_pos h
  have hslot : slotAt c.tableSize (home k) 0 = getIndex home c k := rfl
  constructor
  · rintro rfl
    exact find_stops hpos h
  · intro hstop
    have hat : find home c.tableSize (keys c) k = some (getIndex home c k) :=
      (find_eq_some hpos).2 ⟨0, hpos, hslot, hstop, by simp⟩
    rw [h, Option.some.injEq] at hat
    exact hat

/-- a hit is at home if the slot of the hash has the name -/
theorem hit_home (h : cacheLookup home c k = .ok (some i)) : i = getIndex home c k ↔ ownSlot home c k = true := by
  obtain ⟨hfind, hkey⟩ := cacheLookup_eq_some.1 h
  have hsome : (c.table i).isSome := by
    obtain ⟨f, hf, -⟩ := keys_eq_some.1 hkey
    rw [hf]; rfl
  have hocc := home_occupied hfind hsome
  have hne : keys c (getIndex home c k) ≠ none := by
    rw [← Option.isSome_iff_ne_none]
    simpa [keys] using hocc
  rw [find_eq_home hfind, ownSlot, decide_eq_true_eq, Stops]
  exact or_iff_right hne

/-- a file is stored at home if the slot of its hash is empty after the evictions -/
theorem stored_home_iff {data : FileData} (hmiss : cacheLookup home c data.fileName = .ok none)
    (h : probeLoop home (cacheEvict c data.fileSize).1 data.fileName = .ok i) :
    i = getIndex home c data.fileName ↔ getIndex home c data.fileName ∈ emptiedFor c data.fileSize ∨
      keys c (getIndex home c data.fileName) = none := by
  obtain ⟨hsize, htable, -⟩ := cacheEvict_spec c data.fileSize
  have hindex : getIndex home (cacheEvict c data.fileSize).1 data.fileName = getIndex home c data.fileName := by
    rw [getIndex, getIndex, hsize]
  have hempty : (cacheEvict c data.fileSize).1.table i = none :=
    (cacheEvict_evicted c data.fileSize).insert_slot hmiss h
  have hkeys : ∀ j, keys (cacheEvict c data.fileSize).1 j = none ↔ j ∈ emptiedFor c data.fileSize ∨
      keys c j = none := by
    intro j
    simp only [keys, htable]
    by_cases hj : j ∈ emptiedFor c data.fileSize <;> simp [hj]
  rw [← hindex, ← hkeys]
  constructor
  · rintro rfl
    simp only [keys, hempty, Option.map_none]
  · intro hnone
    rw [find_eq_home (probeLoop_eq.1 h)]
    exact .inl hnone

end

/-! ## One step -/

section

variable {n : ℕ} {home : Key → ℕ} {maxCacheSize : ℤ} {h h' : History n} {op : Op n}

theorem History.step_eq_ok (hs : h.step home op = .ok h') :
    Requests.step home h.state op = .ok h'.state ∧ h'.now = h.now + 1 ∧
      h'.used = fun i => if usedSlot h'.state op = some i then h.now + 1 else h.used i := by
  rw [History.step, bind_eq_ok] at hs
  obtain ⟨t, ht, hs⟩ := hs
  cases hs
  exact ⟨ht, rfl, rfl⟩

/-- the queue is in the order of the last uses -/
structure Ordered (maxCacheSize : ℤ) (h : History n) : Prop where
  accounts : Accounts maxCacheSize h.state
  order : h.state.cache.queue.Pairwise fun i j => h.used i < h.used j
  past : ∀ i ∈ h.state.cache.queue, h.used i ≤ h.now

theorem Ordered.recent (ho : Ordered maxCacheSize h) : Recent h.state.cache h.used := by
  intro i j hi hj hlt
  have hmem : ∀ {k}, k ∈ _ ↔ _ := ho.accounts.account.mem_queue
  have hi' := List.idxOf_lt_length_of_mem (hmem.2 hi)
  have hj' := List.idxOf_lt_length_of_mem (hmem.2 hj)
  by_contra hle
  have hpair := List.pairwise_iff_getElem.1 ho.order _ _ hj' hi'
  rcases Nat.lt_or_eq_of_le (not_lt.1 hle) with hback | heq
  · have := hpair hback
    rw [List.getElem_idxOf, List.getElem_idxOf] at this
    omega
  · rw [(List.idxOf_inj (hmem.2 hj)).1 heq] at hlt
    omega

/-- a step that uses no file only takes files out of the queue, and has no file to find at home -/
theorem queue_of_unused {t : State n} (hs : Section home h.state t op) (hused : usedSlot t op = none) :
    t.cache.queue.Sublist h.state.cache.queue ∧ atHome home h op = true := by
  cases hs with
  | outside _ hcache hop _ =>
    refine ⟨by rw [hcache], ?_⟩
    cases op with
    | lookup r => exact absurd rfl (hop r).1
    | insert r => exact absurd rfl (hop r).2
    | init r method uri => rfl
    | readFile r host => rfl
    | send r => rfl
    | release r => rfl
  | miss r data hr hlook ht =>
    rw [ht]
    exact ⟨.refl _, by simp [atHome, hr, hits, hlook]⟩
  | hit r data i f hr hlook hf ht =>
    rw [ht] at hused
    simp [usedSlot, setPc, Pc.file] at hused
  | refused r data c hr hins ht =>
    rw [ht]
    rcases cacheInsert_eq_ok hins with ⟨i, hi, -⟩ | ⟨hmiss, ⟨-, rfl, hfits⟩ | ⟨i, hi, -⟩⟩
    · cases hi
    · have hroom : roomFor h.state.cache data.fileSize = false := by
        rw [← (cacheEvict_spec h.state.cache data.fileSize).2.2]; exact hfits
      exact ⟨cacheEvict_queue h.state.cache data.fileSize, by simp [atHome, hr, hits, hmiss, hroom]⟩
    · cases hi
  | inserted r data c i f hr hins hf ht =>
    rw [ht] at hused
    simp [usedSlot, setPc, Pc.file] at hused
  | released r i f hr hf ht =>
    rw [ht]
    exact ⟨.refl _, rfl⟩

/-- a step that uses the file in slot `i` moves slot `j` to the tail, and that is `i` if the file is at home -/
theorem Accounts.queue_of_used {t : State n} (ha : Accounts maxCacheSize h.state)
    (hs : Section home h.state t op) {i : ℕ} (hused : usedSlot t op = some i) :
    ∃ (queue : List ℕ) (j : ℕ), t.cache.queue = queue.erase j ++ [j] ∧ queue.Nodup ∧ i ∈ queue ∧ j ∈ queue ∧
      (queue.erase i).Sublist h.state.cache.queue ∧ (i = j ↔ atHome home h op = true) := by
  cases hs with
  | outside _ _ hop _ =>
    cases op with
    | lookup r => exact absurd rfl (hop r).1
    | insert r => exact absurd rfl (hop r).2
    | init r method uri => cases hused
    | readFile r host => cases hused
    | send r => cases hused
    | release r => cases hused
  | miss r data hr hlook ht =>
    rw [ht] at hused
    simp [usedSlot, setPc, Pc.file] at hused
  | hit r data k f hr hlook hf ht =>
    rw [ht] at hused ⊢
    simp only [usedSlot, setPc, update_self, Pc.file, Option.some.injEq] at hused
    subst hused
    obtain ⟨g, hg, hkey⟩ := cacheLookup_file hlook
    rw [hf, Option.some.injEq] at hg
    subst hg
    have hname : f.data.fileName = data.fileName := by rw [← (ha.inv.table k f hf).1, hkey]
    have hsome : (h.state.cache.table k).isSome := by rw [hf]; rfl
    refine ⟨h.state.cache.queue, getIndex home h.state.cache data.fileName, ?_, ha.account.nodup,
      ha.account.mem_queue.2 hsome,
      ha.account.mem_queue.2 (home_occupied (cacheLookup_eq_some.1 hlook).1 hsome), List.erase_sublist, ?_⟩
    · rw [hname]; rfl
    · rw [hit_home hlook]
      simp [atHome, hr, hits, hlook]
  | refused r data c hr hins ht =>
    rw [ht] at hused
    simp [usedSlot, setPc, Pc.file] at hused
  | inserted r data c k f hr hins hf ht =>
    rw [ht] at hused ⊢
    simp only [usedSlot, setPc, update_self, Pc.file, Option.some.injEq] at hused
    subst hused
    obtain ⟨hacc, hhome⟩ := cacheInsert_account ha.account (ha.sizes r data hr) hins
    have hsome : (c.table k).isSome := by rw [hf]; rfl
    refine ⟨c.queue, getIndex home c data.fileName, rfl, hacc.nodup, hacc.mem_queue.2 hsome,
      hacc.mem_queue.2 (hhome k rfl), ?_, ?_⟩
    · rcases cacheInsert_eq_ok hins with ⟨_, -, rfl, -⟩ | ⟨-, ⟨hnone, -⟩ | ⟨j, hj, rfl, -, -⟩⟩
      · exact List.erase_sublist
      · cases hnone
      · cases hj
        have hnodup : ((cacheEvict h.state.cache data.fileSize).1.queue ++ [k]).Nodup := hacc.nodup
        have hnot : k ∉ (cacheEvict h.state.cache data.fileSize).1.queue := fun hk =>
          (List.nodup_append.1 hnodup).2.2 k hk k (List.mem_singleton.2 rfl) rfl
        change (((cacheEvict h.state.cache data.fileSize).1.queue ++ [k]).erase k).Sublist _
        rw [List.erase_append_right _ hnot, List.erase_cons_head, List.append_nil]
        exact cacheEvict_queue h.state.cache data.fileSize
    · rcases cacheInsert_eq_ok hins with ⟨_, hj, rfl, hlook⟩ | ⟨hmiss, ⟨hnone, -⟩ | ⟨j, hj, rfl, hfits, hprobe⟩⟩
      · cases hj
        rw [hit_home hlook]
        simp [atHome, hr, hits, hlook]
      · cases hnone
      · cases hj
        have hroom : roomFor h.state.cache data.fileSize = true := by
          rw [← (cacheEvict_spec h.state.cache data.fileSize).2.2]; exact hfits
        have hindex : getIndex home (stored (cacheEvict h.state.cache data.fileSize).1 k data) data.fileName =
            getIndex home h.state.cache data.fileName := by
          rw [getIndex, getIndex]
          exact congrArg _ (cacheEvict_spec h.state.cache data.fileSize).1
        rw [hindex, stored_home_iff hmiss hprobe]
        simp [atHome, hr, hits, hmiss, hroom]
  | released r k f hr hf ht => cases hused

/-- a use at home keeps the order -/
theorem Ordered.step (ho : Ordered maxCacheSize h) (hg : atHome home h op = true) (hs : h.step home op = .ok h') :
    Ordered maxCacheSize h' := by
  obtain ⟨hstep, hnow, hused⟩ := History.step_eq_ok hs
  have hsec := step_section hstep
  have hacc := step_accounts ho.accounts hstep
  cases hslot : usedSlot h'.state op with
  | none =>
    have hsame : h'.used = h.used := by rw [hused, hslot]; simp
    have hsub := (queue_of_unused hsec hslot).1
    refine ⟨hacc, ?_, fun i hi => ?_⟩
    · rw [hsame]; exact ho.order.sublist hsub
    · rw [hsame, hnow]
      exact (ho.past i (hsub.subset hi)).trans (Nat.le_succ _)
  | some i =>
    obtain ⟨queue, j, hqueue, hnodup, hi, -, hsub, hiff⟩ := ho.accounts.queue_of_used hsec hslot
    obtain rfl := hiff.2 hg
    have hold : ∀ k ∈ queue.erase i, h'.used k = h.used k := fun k hk => by
      have hki : i ≠ k := by rintro rfl; exact hnodup.not_mem_erase hk
      rw [hused, hslot]; simp [hki]
    have hnew : h'.used i = h.now + 1 := by rw [hused, hslot]; simp
    have hpast : ∀ k ∈ queue.erase i, h.used k ≤ h.now := fun k hk => ho.past k (hsub.subset hk)
    refine ⟨hacc, ?_, fun k hk => ?_⟩
    · rw [hqueue, List.pairwise_append]
      refine ⟨?_, List.pairwise_singleton _ _, fun k hk l hl => ?_⟩
      · refine (ho.order.sublist hsub).imp_of_mem fun ha hb hlt => ?_
        rw [hold _ ha, hold _ hb]; exact hlt
      · rw [List.mem_singleton.1 hl, hold k hk, hnew]
        exact Nat.lt_succ_of_le (hpast k hk)
    · rw [hqueue] at hk
      rcases List.mem_append.1 hk with hk | hk
      · rw [hold k hk, hnow]
        exact (hpast k hk).trans (Nat.le_succ _)
      · rw [List.mem_singleton.1 hk, hnew, hnow]

/-- a use away from home breaks the order: the slot of the hash goes behind the file just used -/
theorem Ordered.breaks (ho : Ordered maxCacheSize h) (hg : atHome home h op = false) (hs : h.step home op = .ok h') :
    ¬ Recent h'.state.cache h'.used := by
  obtain ⟨hstep, hnow, hused⟩ := History.step_eq_ok hs
  have hsec := step_section hstep
  have hacc := step_accounts ho.accounts hstep
  intro hrecent
  cases hslot : usedSlot h'.state op with
  | none => rw [(queue_of_unused hsec hslot).2] at hg; cases hg
  | some i =>
    obtain ⟨queue, j, hqueue, hnodup, hi, hj, hsub, hiff⟩ := ho.accounts.queue_of_used hsec hslot
    have hne : i ≠ j := fun heq => by rw [hiff.1 heq] at hg; cases hg
    have hnotmem : j ∉ queue.erase j := hnodup.not_mem_erase
    have himem : i ∈ queue.erase j := (List.mem_erase_of_ne hne).2 hi
    have hjold : j ∈ queue.erase i := (List.mem_erase_of_ne hne.symm).2 hj
    have hlt : h'.used j < h'.used i := by
      rw [hused, hslot]
      simp only [Option.some.injEq, hne, if_false, if_true]
      exact Nat.lt_succ_of_le (ho.past j (hsub.subset hjold))
    have hin : ∀ k ∈ queue, (h'.state.cache.table k).isSome := fun k hk => by
      rw [← hacc.account.mem_queue, hqueue]
      by_cases hkj : k = j
      · subst hkj; simp
      · exact List.mem_append_left _ ((List.mem_erase_of_ne hkj).2 hk)
    have horder := hrecent j i (hin j hj) (hin i hi) hlt
    rw [hqueue, List.idxOf_append_of_notMem hnotmem, List.idxOf_append_of_mem himem] at horder
    have := List.idxOf_lt_length_of_mem himem
    omega

/-- every run has a history -/
theorem exists_history {good : State n → Op n → Bool} {s t : State n}
    (hrun : Run (Requests.step home) good s t) (now : ℕ) (used : ℕ → ℕ) :
    ∃ h, Run (History.step home) (fun h op => good h.state op) ⟨s, now, used⟩ h ∧ h.state = t := by
  induction hrun with
  | refl => exact ⟨⟨s, now, used⟩, .refl _, rfl⟩
  | @tail t u op _ hg hs ih =>
    obtain ⟨h, hrun, rfl⟩ := ih
    refine ⟨⟨u, h.now + 1, fun i => if usedSlot u op = some i then h.now + 1 else h.used i⟩, hrun.tail op hg ?_, rfl⟩
    rw [History.step, hs]
    rfl

end

/-- **Eviction order.** In every run whose hits and insertions find their file at home the queue lists the cached files
in the order of their last uses; the first one that does not breaks the order. -/
theorem eviction_order (home : Key → ℕ) (n tableSize : ℕ) (maxCacheSize : ℤ) (hmax : 0 < maxCacheSize) (h : History n)
    (hrun : Run (History.step home) (atHome home) (History.start n tableSize maxCacheSize) h) :
    Recent h.state.cache h.used ∧
      ∀ op h', h.step home op = .ok h' → (Recent h'.state.cache h'.used ↔ atHome home h op = true) := by
  have hstart : Ordered maxCacheSize (History.start n tableSize maxCacheSize) :=
    ⟨run_accounts hmax (.refl _ : Run (Requests.step home) anyStep _ _), .nil, by intro i hi; cases hi⟩
  have ho := hrun.inv (Ordered maxCacheSize) (fun h op h' ho hg hs => ho.step hg hs) hstart
  refine ⟨ho.recent, fun op h' hs => ⟨fun hrecent => ?_, fun hg => (ho.step hg hs).recent⟩⟩
  by_contra hg
  exact ho.breaks (by simpa using hg) hs hrecent

/-- a hit on `a` puts it behind `b` -/
theorem eviction_order_after_hit :
    ∃ h : History 3, Run (History.step djb2) (atHome djb2) (History.start 3 7 10) h ∧ h.used 1 = 8 ∧ h.used 0 = 10 ∧
      h.state.cache.queue.idxOf 1 < h.state.cache.queue.idxOf 0 := by
  have h : ∃ h : History 3, Run (History.step djb2) (atHome djb2) (History.start 3 7 10) h ∧
      ((h.state.cache.table 0).isSome && (h.state.cache.table 1).isSome && decide (h.used 1 = 8) &&
        decide (h.used 0 = 10)) = true :=
    run_of_passes [.init 0 [71, 69, 84] [97], .lookup 0, .readFile 0 (.file 1 []), .insert 0,
      .init 1 [71, 69, 84] [98], .lookup 1, .readFile 1 (.file 1 []), .insert 1, .init 2 [71, 69, 84] [97], .lookup 2]
      (by decide +kernel)
  obtain ⟨h, hrun, hh⟩ := h
  simp only [Bool.and_eq_true, decide_eq_true_eq] at hh
  obtain ⟨⟨⟨h0, h1⟩, hb⟩, ha⟩ := hh
  exact ⟨h, hrun, hb, ha, (eviction_order djb2 3 7 10 (by decide) h hrun).1 1 0 h1 h0 (by rw [hb, ha]; decide)⟩

/-- Two names with the same hash, `./ab` and `./bA`, with the hash and the table size of the source: the insertion of
the second moves the first behind it, so the second, used last, is the first to be evicted. -/
theorem eviction_order_collision :
    ¬ ∀ (home : Key → ℕ) (n tableSize : ℕ) (maxCacheSize : ℤ) (h : History n), 0 < maxCacheSize →
      Run (History.step home) anyStep (History.start n tableSize maxCacheSize) h → Recent h.state.cache h.used := by
  intro hall
  have h : ∃ h : History 2, Run (History.step djb2) anyStep (History.start 2 sourceTableSize 10) h ∧
      ((h.state.cache.table 117485).isSome && (h.state.cache.table 117486).isSome &&
        decide (h.used 117485 < h.used 117486) &&
        !decide (h.state.cache.queue.idxOf 117485 < h.state.cache.queue.idxOf 117486)) = true :=
    run_of_passes [.init 0 [71, 69, 84] [97, 98], .lookup 0, .readFile 0 (.file 1 []), .insert 0,
      .init 1 [71, 69, 84] [98, 65], .lookup 1, .readFile 1 (.file 1 []), .insert 1] (by decide +kernel)
  obtain ⟨h, hrun, hh⟩ := h
  simp only [Bool.and_eq_true, decide_eq_true_eq, Bool.not_eq_true', decide_eq_false_iff_not] at hh
  obtain ⟨⟨⟨h0, h1⟩, hlt⟩, hnot⟩ := hh
  exact hnot (hall djb2 2 sourceTableSize 10 h (by decide) hrun _ _ h0 h1 hlt)

end OsLab.Server.Requests
