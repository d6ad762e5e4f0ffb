/-
How much an eviction removes (`cache_evict`).

`idle c` is the queue less the files in use. The loop of `LRU_delete` walks the whole queue, passes over the files in
use and takes the others in the order of `idle` (`lruLoop_takes`), as long as there is no room. So it removes the
shortest prefix of `idle` that makes room, or all of it (`evict_just_enough`), and `cache_evict` succeeds exactly if the
file fits beside the files in use.
-/
import Mathlib.Tactic
import OsLab.Cache.Model
import OsLab.Cache.Map
import OsLab.Cache.Evict
import OsLab.Cache.Accounts

namespace OsLab.Cache

open Function (update update_self update_of_ne)

variable {c c' : CacheStruct} {fileSize : ℤ}

/-- the slot has a file nobody uses -/
def isIdle (c : CacheStruct) (i : ℕ) : Bool :=
  match c.table i with
  | some file => file.active = 0
  | none => false

/-- the files nobody uses, in queue order -/
def idle (c : CacheStruct) : List ℕ := c.queue.filter (isIdle c)

/-- the bytes of the files in use -/
def activeBytes (c : CacheStruct) : ℤ := ∑ i ∈ Finset.range c.tableSize with ¬ isIdle c i, size (c.table i)

/-- the addresses of the data in a list of slots -/
def addrs (table : ℕ → Option FileStruct) (slots : List ℕ) : List ℕ :=
  slots.filterMap fun i => (table i).map fun f => f.data.addr

/-- the cache less the files in the slots `V` -/
def without (c : CacheStruct) (V : List ℕ) : CacheStruct :=
  { c with
    currSize := c.currSize - bytes c.table V
    table := fun i => if i ∈ V then none else c.table i
    freed := c.freed ++ addrs c.table V
    queue := c.queue.diff V }

theorem without_nil (c : CacheStruct) : without c [] = c := by
  simp [without, bytes, addrs]

theorem bytes_cons (table : ℕ → Option FileStruct) (i : ℕ) (V : List ℕ) :
    bytes table (i :: V) = size (table i) + bytes table V := by
  cases h : table i <;> simp [bytes, h, size]

theorem addrs_update {table : ℕ → Option FileStruct} {i : ℕ} {V : List ℕ} (hi : i ∉ V) :
    addrs (update table i none) V = addrs table V := by
  refine List.filterMap_congr fun j hj => ?_
  rw [update_of_ne fun h : j = i => hi (h ▸ hj)]

/-! ## The loop of `LRU_delete` -/

/-- a turn of the loop at a file nobody uses, and then the removal of `V` -/
theorem without_evictAt {i : ℕ} {V : List ℕ} (hidle : isIdle c i = true) (hi : i ∉ V) :
    without (evictAt c i) V = without c (i :: V) := by
  unfold isIdle at hidle
  cases hfile : c.table i with
  | none => simp [hfile] at hidle
  | some file =>
    have hzero : file.active = 0 := by simpa [hfile] using hidle
    have hev : evictAt c i = { c with
        currSize := c.currSize - file.data.fileSize
        table := update c.table i none
        freed := c.freed ++ [file.data.addr]
        queue := c.queue.erase i } := by
      simp [evictAt, hfile, hzero, deleteFromQueue]
    have htable : (fun j => if j ∈ V then none else update c.table i none j) =
        fun j => if j ∈ i :: V then none else c.table j := by
      funext j
      by_cases hj : j = i
      · simp [hj]
      · simp [hj]
    rw [hev, without, without, htable, bytes_update hi, addrs_update hi, bytes_cons, hfile]
    simp only [size, addrs, List.filterMap_cons, hfile, Option.map_some, List.append_assoc, List.singleton_append,
      List.diff_cons, CacheStruct.mk.injEq, and_true]
    omega

theorem evictAt_of_not_idle {i : ℕ} (h : isIdle c i = false) : evictAt c i = c := by
  unfold isIdle at h
  unfold evictAt
  cases hfile : c.table i with
  | none => rfl
  | some file =>
    have hne : file.active ≠ 0 := by simpa [hfile] using h
    simp [hne]

theorem isIdle_evictAt {i j : ℕ} (h : j ≠ i) : isIdle (evictAt c i) j = isIdle c j := by
  have htable : (evictAt c i).table j = c.table j := by
    unfold evictAt
    cases c.table i with
    | none => rfl
    | some file =>
      dsimp only
      split
      · exact update_of_ne h ..
      · rfl
  simp only [isIdle, htable]

/-- the room in the cache -/
def room (c : CacheStruct) : ℤ := c.maxSize - c.currSize

/-- `k` of the slots are enough for `fileSize`, or they are all there are; fewer are not enough -/
structure JustEnough (c : CacheStruct) (fileSize : ℤ) (slots : List ℕ) (k : ℕ) : Prop where
  le : k ≤ slots.length
  short : ∀ j < k, room c + bytes c.table (slots.take j) < fileSize
  enough : fileSize ≤ room c + bytes c.table (slots.take k) ∨ k = slots.length

theorem room_evictAt {i : ℕ} (h : isIdle c i = true) : room (evictAt c i) = room c + size (c.table i) := by
  unfold isIdle at h
  cases hfile : c.table i with
  | none => simp [hfile] at h
  | some file =>
    have hzero : file.active = 0 := by simpa [hfile] using h
    simp only [room, evictAt, hfile, hzero, if_true, size]
    omega

/-- the loop removes the idle files of the queue from the front until there is room -/
theorem lruLoop_takes (fileSize : ℤ) (queue : List ℕ) (c : CacheStruct) (hnodup : queue.Nodup) :
    ∃ k, JustEnough c fileSize (queue.filter (isIdle c)) k ∧
      lruLoop fileSize queue c = without c ((queue.filter (isIdle c)).take k) := by
  induction queue generalizing c with
  | nil => exact ⟨0, ⟨le_refl 0, by simp, .inr rfl⟩, (without_nil c).symm⟩
  | cons i rest ih =>
    obtain ⟨hi, hrest⟩ := List.nodup_cons.1 hnodup
    simp only [lruLoop]
    split
    · next hroom =>
      cases hidle : isIdle c i with
      | false =>
        obtain ⟨k, hk, heq⟩ := ih c hrest
        rw [List.filter_cons_of_neg (by simp [hidle]), evictAt_of_not_idle hidle]
        exact ⟨k, hk, heq⟩
      | true =>
        obtain ⟨k, ⟨hle, hshort, henough⟩, heq⟩ := ih (evictAt c i) hrest
        have hsame : rest.filter (isIdle (evictAt c i)) = rest.filter (isIdle c) :=
          List.filter_congr fun j hj => isIdle_evictAt fun h => hi (h ▸ hj)
        rw [hsame] at hle hshort henough heq
        rw [List.filter_cons_of_pos hidle]
        have hnotin : ∀ j, i ∉ (rest.filter (isIdle c)).take j := fun j h =>
          hi (List.mem_of_mem_filter (List.mem_of_mem_take h))
        -- the room after this turn and the removal of `j` more
        have hbytes : ∀ j, room (evictAt c i) + bytes (evictAt c i).table ((rest.filter (isIdle c)).take j) =
            room c + bytes c.table ((i :: rest.filter (isIdle c)).take (j + 1)) := by
          intro j
          have hb : bytes (evictAt c i).table ((rest.filter (isIdle c)).take j) =
              bytes c.table ((rest.filter (isIdle c)).take j) := by
            unfold bytes
            refine congrArg List.sum (List.map_congr_left fun l hl => ?_)
            have hne : l ≠ i := fun h => hnotin j (h ▸ hl)
            rcases (evictAt_evicted c i).table l with h | ⟨h, -⟩
            · rw [h]
            · have := isIdle_evictAt (c := c) hne
              have hmem := List.of_mem_filter (List.mem_of_mem_take hl)
              rw [hmem, isIdle, h] at this
              cases this
          rw [room_evictAt hidle, hb, List.take_succ_cons, bytes_cons]
          ring
        refine ⟨k + 1, ⟨by simpa using hle, fun j hj => ?_, ?_⟩, ?_⟩
        · cases j with
          | zero => simpa [bytes, room] using hroom
          | succ j => rw [← hbytes]; exact hshort j (by omega)
        · rw [← hbytes]
          exact henough.imp id fun h => by simp [h]
        · rw [heq, without_evictAt hidle (hnotin k), List.take_succ_cons]
    · next hroom =>
      exact ⟨0, ⟨Nat.zero_le _, by simp, .inl (by simpa [bytes, room] using hroom)⟩, by simp [without_nil]⟩

/-! ## Eviction -/

/-- within `max_size`, the early exits of `cache_evict` do what the loop does -/
theorem cacheEvict_eq_lruDelete (h : fileSize ≤ c.maxSize) : cacheEvict c fileSize = lruDelete c fileSize := by
  unfold cacheEvict
  rw [if_neg (not_lt.2 h)]
  split
  · next hroom =>
    have hloop : lruLoop fileSize c.queue c = c := by
      cases c.queue with
      | nil => rfl
      | cons i rest => simp only [lruLoop]; rw [if_neg (not_lt.2 hroom)]
    simp [lruDelete, hloop, hroom]
  · next hroom =>
    split
    · next hqueue =>
      have hloop : lruLoop fileSize c.queue c = c := by rw [hqueue]; rfl
      have : ¬ c.maxSize - c.currSize ≥ fileSize := hroom
      simp [lruDelete, hloop, this]
    · rfl

/-- the bytes of the table are those of the idle files and those of the files in use -/
theorem Account.bytes_idle (h : Account c) : bytes c.table (idle c) + activeBytes c = c.currSize := by
  have hset : (idle c).toFinset = (Finset.range c.tableSize).filter fun i => isIdle c i = true := by
    ext i
    rw [List.mem_toFinset, Finset.mem_filter, Finset.mem_range, idle, List.mem_filter, h.mem_queue]
    refine ⟨fun ⟨hi, hidle⟩ => ⟨h.range i hi, hidle⟩, fun ⟨_, hidle⟩ => ⟨?_, hidle⟩⟩
    unfold isIdle at hidle
    cases hfile : c.table i with
    | none => simp [hfile] at hidle
    | some file => rfl
  have hsize : ∀ i, ((c.table i).map fun f => f.data.fileSize).getD 0 = size (c.table i) := by
    intro i
    cases c.table i <;> rfl
  have hbytes : bytes c.table (idle c) = ∑ i ∈ Finset.range c.tableSize with isIdle c i = true, size (c.table i) := by
    have hnodup : (idle c).Nodup := h.nodup.filter _
    rw [← hset, List.sum_toFinset _ hnodup]
    simp only [bytes, hsize]
  rw [hbytes, activeBytes, Finset.sum_filter_add_sum_filter_not, h.sum, tableBytes]

theorem Account.bytes_take (h : Account c) (V : List ℕ) (k : ℕ) : bytes c.table (V.take k) ≤ bytes c.table V := by
  induction V generalizing k with
  | nil => simp
  | cons i V ih =>
    have hi := h.sizes i
    cases k with
    | zero =>
      have := ih 0
      rw [List.take_zero] at this ⊢
      rw [bytes_cons]; omega
    | succ k =>
      have := ih k
      rw [List.take_succ_cons, bytes_cons, bytes_cons]; omega

/-- **Eviction does just enough.** `cache_evict` succeeds exactly if the file fits beside the files in use. It removes
the first `k` of the idle files and nothing else: the least `k` that makes room, or all; none if the file is larger than
the cache. Files in use stay, and the others keep their order. -/
theorem evict_just_enough (h : Account c) :
    ((cacheEvict c fileSize).2 = true ↔ fileSize ≤ c.maxSize - activeBytes c) ∧
    ∃ k, (cacheEvict c fileSize).1 = { c with
        currSize := c.currSize - bytes c.table ((idle c).take k)
        table := fun i => if i ∈ (idle c).take k then none else c.table i
        freed := c.freed ++ addrs c.table ((idle c).take k)
        queue := c.queue.filter (· ∉ (idle c).take k) } ∧
      (fileSize > c.maxSize → k = 0) ∧
      (fileSize ≤ c.maxSize → JustEnough c fileSize (idle c) k) ∧
      ∀ i f, c.table i = some f → f.active ≠ 0 →
        (cacheEvict c fileSize).1.table i = some f ∧ i ∈ (cacheEvict c fileSize).1.queue := by
  have hactive : 0 ≤ activeBytes c := Finset.sum_nonneg fun i _ => h.sizes i
  have hidle := h.bytes_idle
  -- files in use are not among the idle ones
  have hused : ∀ i f, c.table i = some f → f.active ≠ 0 → ∀ k, i ∉ (idle c).take k := by
    intro i f hi hne k hmem
    have := List.of_mem_filter (List.mem_of_mem_take hmem)
    simp [isIdle, hi, hne] at this
  have hin : ∀ i f, c.table i = some f → i ∈ c.queue := fun i f hi => h.mem_queue.2 (by rw [hi]; rfl)
  by_cases hmax : fileSize > c.maxSize
  · have hev : cacheEvict c fileSize = (c, false) := by rw [cacheEvict, if_pos hmax]
    rw [hev]
    refine ⟨by simp; omega, 0, ?_, fun _ => rfl, fun hle => absurd hmax (not_lt.2 hle),
      fun i f hi _ => ⟨hi, hin i f hi⟩⟩
    simp [bytes, addrs]
  · rw [not_lt] at hmax
    obtain ⟨k, hk, hloop⟩ := lruLoop_takes fileSize c.queue c h.nodup
    rw [← idle] at hk hloop
    rw [cacheEvict_eq_lruDelete hmax, lruDelete, hloop]
    have hqueue : c.queue.diff ((idle c).take k) = c.queue.filter (· ∉ (idle c).take k) := by
      rw [h.nodup.sdiff_eq_filter]
    refine ⟨?_, k, ?_, fun hgt => absurd hgt (not_lt.2 hmax), fun _ => hk, fun i f hi hne => ⟨?_, ?_⟩⟩
    · have htake := h.bytes_take (idle c) k
      change decide (c.maxSize - (c.currSize - bytes c.table ((idle c).take k)) ≥ fileSize) = true ↔ _
      rw [decide_eq_true_eq]
      refine ⟨fun hroom => by omega, fun hle => ?_⟩
      rcases hk.enough with henough | hall
      · rw [room] at henough; omega
      · rw [hall, List.take_length]; omega
    · rw [without, hqueue]
    · change (if i ∈ (idle c).take k then none else c.table i) = some f
      rw [if_neg (hused i f hi hne k), hi]
    · change i ∈ c.queue.diff ((idle c).take k)
      rw [hqueue, List.mem_filter]
      exact ⟨hin i f hi, by simpa using hused i f hi hne k⟩

/-- a cache of 10 bytes: the file in slot 0 is in use, those in slots 1 and 2 are not -/
def shelf : CacheStruct where
  currSize := 9
  maxSize := 10
  tableSize := 5
  queue := [0, 1, 2]
  table
    | 0 => some ⟨[97], ⟨[97], 4, [], 1⟩, 1⟩
    | 1 => some ⟨[98], ⟨[98], 3, [], 2⟩, 0⟩
    | 2 => some ⟨[99], ⟨[99], 2, [], 3⟩, 0⟩
    | _ => none
  freed := []

theorem shelf_account : Account shelf where
  range i hi := by
    rcases i with - | - | - | i
    · decide
    · decide
    · decide
    · cases hi
  sizes i := by
    rcases i with - | - | - | i
    · decide
    · decide
    · decide
    · exact le_refl 0
  queue i := by
    rcases i with - | - | - | i
    · rfl
    · rfl
    · rfl
    · exact List.count_eq_zero.2 (by simp [shelf])
  sum := by decide
  fits := by decide

/-- room for 3 bytes takes the older idle file only; there is no room for 7 beside the file in use -/
theorem evict_just_enough_shelf : (cacheEvict shelf 3).2 = true ∧ (cacheEvict shelf 3).1.queue = [0, 2] ∧
    (cacheEvict shelf 7).2 = false := by
  have hactive : activeBytes shelf = 4 := by decide
  refine ⟨(evict_just_enough shelf_account).1.2 (by rw [hactive]; decide), by decide, ?_⟩
  rw [← Bool.not_eq_true, (evict_just_enough shelf_account).1, hactive]
  decide

end OsLab.Cache
