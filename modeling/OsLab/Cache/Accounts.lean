/-
The accounts of the file cache: its queue and its byte count against its table.

`Account`: the queue has the index of every occupied slot once and no other index, `currSize` is the sum of the sizes in
the table, and it is at most `maxSize`. The critical sections of the server keep it (`cacheEvict_account`,
`cacheInsert_account`, `lruUpdate_account`), for any hash. `LRU_update` is given the slot of the hash and not the one
the file is in; the queue stays right because a search never passes an empty slot, so the slot of the hash is occupied
after a hit and after an insertion (`home_occupied`).
-/
import Mathlib.Tactic
import OsLab.Lib.Run
import OsLab.Lib.Probe
import OsLab.Cache.Model
import OsLab.Cache.Map
import OsLab.Cache.Evict

namespace OsLab.Cache

open OsLab.Lib
open Function (update update_self update_of_ne)

/-- the bytes a slot counts for -/
def size : Option FileStruct → ℤ
  | some file => file.data.fileSize
  | none => 0

/-- the bytes in the table -/
def tableBytes (c : CacheStruct) : ℤ := ∑ i ∈ Finset.range c.tableSize, size (c.table i)

structure Account (c : CacheStruct) : Prop where
  range : ∀ i, (c.table i).isSome → i < c.tableSize
  sizes : ∀ i, 0 ≤ size (c.table i)
  queue : ∀ i, c.queue.count i = if (c.table i).isSome then 1 else 0
  sum : c.currSize = tableBytes c
  fits : c.currSize ≤ c.maxSize

variable {home : Key → ℕ} {c c' : CacheStruct} {i : ℕ}

theorem account_init (tableSize : ℕ) {maxCacheSize : ℤ} (h : 0 ≤ maxCacheSize) :
    Account (cacheInit tableSize maxCacheSize) where
  range := by intro i hi; cases hi
  sizes := fun _ => le_refl 0
  queue := fun _ => rfl
  sum := by simp [tableBytes, cacheInit, size]
  fits := h

theorem Account.nonneg (h : Account c) : 0 ≤ c.currSize := by
  rw [h.sum]
  exact Finset.sum_nonneg fun i _ => h.sizes i

theorem Account.mem_queue (h : Account c) : i ∈ c.queue ↔ (c.table i).isSome := by
  rw [← List.count_pos_iff, h.queue]
  split <;> simp_all

theorem Account.nodup (h : Account c) : c.queue.Nodup := by
  rw [List.nodup_iff_count_le_one]
  intro i
  rw [h.queue]
  split <;> simp

theorem tableBytes_update {file : Option FileStruct} (hi : i < c.tableSize) (hsize : c'.tableSize = c.tableSize)
    (htable : c'.table = update c.table i file) : tableBytes c' = tableBytes c + size file - size (c.table i) := by
  have hmem : i ∈ Finset.range c.tableSize := Finset.mem_range.2 hi
  have hrest : ∑ j ∈ (Finset.range c.tableSize).erase i, size (c'.table j) =
      ∑ j ∈ (Finset.range c.tableSize).erase i, size (c.table j) :=
    Finset.sum_congr rfl fun j hj => by rw [htable, update_of_ne (Finset.ne_of_mem_erase hj)]
  rw [tableBytes, tableBytes, hsize, ← Finset.add_sum_erase _ _ hmem,
    ← Finset.add_sum_erase _ (fun j => size (c.table j)) hmem, hrest, htable, update_self]
  ring

/-- one slot changes, and the queue and the byte count with it -/
theorem Account.update (h : Account c) (file : Option FileStruct) (hi : i < c.tableSize) (hsize : 0 ≤ size file)
    (hn : c'.tableSize = c.tableSize) (htable : c'.table = update c.table i file)
    (hat : c'.queue.count i = if file.isSome then 1 else 0)
    (hother : ∀ j, j ≠ i → c'.queue.count j = c.queue.count j)
    (hcurr : c'.currSize = c.currSize + size file - size (c.table i)) (hfits : c'.currSize ≤ c'.maxSize) :
    Account c' := by
  have hnew : c'.table i = file := by rw [htable, update_self]
  have hold : ∀ j, j ≠ i → c'.table j = c.table j := fun j hj => by rw [htable, update_of_ne hj]
  refine ⟨fun j hj => ?_, fun j => ?_, fun j => ?_, ?_, hfits⟩
  · rw [hn]
    by_cases hji : j = i
    · rw [hji]; exact hi
    · rw [hold j hji] at hj; exact h.range j hj
  · by_cases hji : j = i
    · rw [hji, hnew]; exact hsize
    · rw [hold j hji]; exact h.sizes j
  · by_cases hji : j = i
    · rw [hji, hnew]; exact hat
    · rw [hold j hji, hother j hji]; exact h.queue j
  · rw [tableBytes_update hi hn htable, ← h.sum]; exact hcurr

/-! ## Evicting -/

theorem evictAt_account (h : Account c) (index : ℕ) : Account (evictAt c index) := by
  unfold evictAt
  cases hi : c.table index with
  | none => exact h
  | some file =>
    dsimp only
    split
    · have hsome : (c.table index).isSome := by rw [hi]; rfl
      have hqueue : c.queue.count index = 1 := by rw [h.queue, if_pos hsome]
      have hsize : 0 ≤ file.data.fileSize := by
        have := h.sizes index
        rwa [hi] at this
      have hfits := h.fits
      refine h.update none (h.range index hsome) (le_refl 0) rfl rfl ?_ (fun j hj => ?_) ?_ ?_
      · simp [deleteFromQueue, hqueue]
      · simp [deleteFromQueue, List.count_erase_of_ne hj]
      · simp [size, hi]
      · change c.currSize - file.data.fileSize ≤ c.maxSize
        omega
    · exact h

theorem lruLoop_account (fileSize : ℤ) (queue : List ℕ) (h : Account c) : Account (lruLoop fileSize queue c) := by
  induction queue generalizing c with
  | nil => exact h
  | cons index rest ih =>
    simp only [lruLoop]
    split
    · exact ih (evictAt_account h index)
    · exact h

theorem cacheEvict_account (h : Account c) (fileSize : ℤ) : Account (cacheEvict c fileSize).1 := by
  unfold cacheEvict
  split
  · exact h
  · split
    · exact h
    · split
      · exact h
      · exact lruLoop_account fileSize c.queue h

theorem lruLoop_queue (fileSize : ℤ) (queue : List ℕ) (c : CacheStruct) :
    (lruLoop fileSize queue c).queue.Sublist c.queue := by
  induction queue generalizing c with
  | nil => exact .refl _
  | cons index rest ih =>
    simp only [lruLoop]
    split
    · refine (ih _).trans ?_
      unfold evictAt
      split
      · split
        · exact List.erase_sublist
        · exact .refl _
      · exact .refl _
    · exact .refl _

/-- evictions keep the order of the queue -/
theorem cacheEvict_queue (c : CacheStruct) (fileSize : ℤ) : (cacheEvict c fileSize).1.queue.Sublist c.queue := by
  unfold cacheEvict
  split
  · exact .refl _
  · split
    · exact .refl _
    · split
      · exact .refl _
      · exact lruLoop_queue fileSize c.queue c

theorem cacheEvict_maxSize (c : CacheStruct) (fileSize : ℤ) : (cacheEvict c fileSize).1.maxSize = c.maxSize := by
  unfold cacheEvict
  split
  · rfl
  · split
    · rfl
    · split
      · rfl
      · exact (lruLoop_spec fileSize c.queue c).1

/-- `cache_evict` says that there is room only if there is -/
theorem cacheEvict_room {fileSize : ℤ} (h : (cacheEvict c fileSize).2 = true) :
    fileSize ≤ (cacheEvict c fileSize).1.maxSize - (cacheEvict c fileSize).1.currSize := by
  unfold cacheEvict at h ⊢
  split at h
  · cases h
  · next hbig =>
    rw [if_neg hbig]
    split at h
    · next hroom => rw [if_pos hroom]; exact hroom
    · next hroom =>
      rw [if_neg hroom]
      split at h
      · cases h
      · next hqueue =>
        rw [if_neg hqueue]
        simpa [lruDelete] using h

/-! ## The slot of the hash -/

/-- a search that does not stop at the slot of the hash has found it occupied -/
theorem home_occupied {k : Key} (h : find home c.tableSize (keys c) k = some i) (hi : (c.table i).isSome) :
    (c.table (getIndex home c k)).isSome := by
  obtain ⟨d, -, hdi, -, hbefore⟩ := (find_eq_some (find_pos h)).1 h
  have hslot : slotAt c.tableSize (home k) 0 = getIndex home c k := rfl
  rcases Nat.eq_zero_or_pos d with rfl | hd
  · rw [← hslot, hdi]; exact hi
  · have hne : keys c (getIndex home c k) ≠ none := fun hnone => hbefore 0 hd (.inl (by rw [hslot]; exact hnone))
    rw [← Option.isSome_iff_ne_none] at hne
    simpa [keys] using hne

/-- `LRU_update` with an occupied slot -/
theorem lruUpdate_account (h : Account c) (hi : (c.table i).isSome) : Account (lruUpdate c i) := by
  have hcount : ∀ j, (lruUpdate c i).queue.count j = c.queue.count j := fun j => by
    have hpos := List.count_pos_iff.2 (h.mem_queue.2 hi)
    simp only [lruUpdate, addToEnd, deleteFromQueue, List.count_append, List.count_erase, List.count_singleton]
    by_cases hji : i = j
    · subst hji
      simp only [beq_self_eq_true, if_true]
      omega
    · simp [hji]
  exact ⟨h.range, h.sizes, fun j => by rw [hcount]; exact h.queue j, h.sum, h.fits⟩

/-- the file in a slot is replaced by one with the same data -/
theorem Account.sameData (h : Account c) {f g : FileStruct} (hf : c.table i = some f) (hdata : g.data = f.data) :
    Account { c with table := Function.update c.table i (some g) } := by
  have hsome : (c.table i).isSome := by rw [hf]; rfl
  have hsize : size (some g) = size (c.table i) := by rw [hf]; simp [size, hdata]
  refine h.update _ (h.range i hsome) (by rw [hsize]; exact h.sizes i) rfl rfl ?_ (fun _ _ => rfl) ?_ h.fits
  · change c.queue.count i = 1
    rw [h.queue, if_pos hsome]
  · rw [hsize]
    change c.currSize = _
    ring

/-! ## Inserting -/

theorem stored_account (h : Account c) {data : FileData} (hlt : i < c.tableSize) (hnone : c.table i = none)
    (hsize : 0 ≤ data.fileSize) (hroom : data.fileSize ≤ c.maxSize - c.currSize) : Account (stored c i data) := by
  have hqueue : c.queue.count i = 0 := by rw [h.queue, hnone]; rfl
  refine h.update (some ⟨data.fileName, data, 0⟩) hlt hsize rfl rfl ?_ (fun j hj => ?_) ?_ ?_
  · simp [stored, lruAdd, addToFront, hqueue]
  · simp [stored, lruAdd, addToFront, List.count_append, Ne.symm hj]
  · rw [hnone]
    simp [stored, lruAdd, size]
  · change c.currSize + data.fileSize ≤ c.maxSize
    omega

/-- the slot of the hash is occupied after an insertion, by the new file or by the one the search met there -/
theorem stored_home {data : FileData} (h : probeLoop home c data.fileName = .ok i) :
    ((stored c i data).table (getIndex home (stored c i data) data.fileName)).isSome := by
  have hslot : getIndex home (stored c i data) data.fileName = getIndex home c data.fileName := rfl
  have htable : (stored c i data).table = Function.update c.table i (some ⟨data.fileName, data, 0⟩) := rfl
  have hfind := probeLoop_eq.1 h
  obtain ⟨d, -, hdi, -, hbefore⟩ := (find_eq_some (find_pos hfind)).1 hfind
  rw [hslot, htable]
  by_cases heq : getIndex home c data.fileName = i
  · rw [heq, update_self]; rfl
  · have hd : 0 < d := by
      rcases Nat.eq_zero_or_pos d with rfl | hd
      · exact absurd hdi heq
      · exact hd
    have hkey : keys c (getIndex home c data.fileName) ≠ none := fun hempty => hbefore 0 hd (.inl hempty)
    rw [update_of_ne heq]
    rw [← Option.isSome_iff_ne_none] at hkey
    simpa [keys] using hkey

/-- **An insertion keeps the accounts**, and the slot of the hash is occupied after it unless the cache refuses the
file. -/
theorem cacheInsert_account (h : Account c) {data : FileData} {r : Option ℕ} (hsize : 0 ≤ data.fileSize)
    (hins : cacheInsert home c data = .ok (c', r)) :
    Account c' ∧ ∀ i, r = some i → (c'.table (getIndex home c' data.fileName)).isSome := by
  rcases cacheInsert_eq_ok hins with ⟨i, rfl, rfl, hlook⟩ | ⟨hmiss, ⟨rfl, rfl, -⟩ | ⟨i, rfl, rfl, hfits, hprobe⟩⟩
  · obtain ⟨hfind, hkey⟩ := cacheLookup_eq_some.1 hlook
    obtain ⟨f, hf, -⟩ := keys_eq_some.1 hkey
    exact ⟨h, fun _ _ => home_occupied hfind (by rw [hf]; rfl)⟩
  · exact ⟨cacheEvict_account h _, by simp⟩
  · have hfind := probeLoop_eq.1 hprobe
    have hnone := (cacheEvict_evicted c data.fileSize).insert_slot hmiss hprobe
    have hacc := cacheEvict_account h data.fileSize
    exact ⟨stored_account hacc (find_lt (find_pos hfind) hfind) hnone hsize (cacheEvict_room hfits),
      fun _ _ => stored_home hprobe⟩

theorem cacheInsert_maxSize {data : FileData} {r : Option ℕ} (hins : cacheInsert home c data = .ok (c', r)) :
    c'.maxSize = c.maxSize := by
  rcases cacheInsert_eq_ok hins with ⟨i, rfl, rfl, -⟩ | ⟨-, ⟨rfl, rfl, -⟩ | ⟨i, rfl, rfl, -, -⟩⟩
  · rfl
  · exact cacheEvict_maxSize c _
  · exact cacheEvict_maxSize c _

end OsLab.Cache
