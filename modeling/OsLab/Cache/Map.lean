/-
The index of the cache as a map from file names to slots.

`IsMap`: no two occupied slots hold the same key, and `cache_lookup` finds a file exactly if a slot holds it. Linear
probing needs that no slot on the way from a file's own slot to the slot it is in is empty, and `LRU_delete` empties
slots without caring. `insert_isMap_iff` says exactly when an insertion keeps the map: no slot it empties is on the way
to a file that stays, unless the new file is stored in it (`keepsChains`). `cache_is_map` is the run theorem;
`cached_file_not_found` is a run, with the hash and the table size of the source, after which a cached file is not
found.
-/
import Mathlib.Tactic
import OsLab.Cache.Model

namespace OsLab.Cache

open OsLab.Lib Function

/-- the cache index is a map -/
def IsMap (home : Key → ℕ) (c : CacheStruct) : Prop :=
  (∀ i j f g, c.table i = some f → c.table j = some g → f.key = g.key → i = j) ∧
    ∀ fileName, (∃ i, cacheLookup home c fileName = .ok (some i)) ↔ ∃ i f, c.table i = some f ∧ f.key = fileName

/-! ## What an insertion empties and fills -/

/-- the slots `LRU_delete` empties: those of inactive files, in the order of the queue, until there is room -/
def victims (table : ℕ → Option FileStruct) (room fileSize : ℤ) : List ℕ → List ℕ
  | [] => []
  | i :: queue =>
    if room < fileSize then
      match table i with
      | some file =>
        if file.active = 0 then
          i :: victims (update table i none) (room + file.data.fileSize) fileSize queue
        else victims table room fileSize queue
      | none => victims table room fileSize queue
    else []

/-- the bytes in a list of slots -/
def bytes (table : ℕ → Option FileStruct) (slots : List ℕ) : ℤ :=
  (slots.map fun i => ((table i).map fun f => f.data.fileSize).getD 0).sum

/-- the slots that `cache_evict` empties -/
def emptiedFor (c : CacheStruct) (fileSize : ℤ) : List ℕ :=
  if fileSize > c.maxSize || fileSize ≤ c.maxSize - c.currSize then []
  else victims c.table (c.maxSize - c.currSize) fileSize c.queue

/-- there is room for `fileSize` after it -/
def roomFor (c : CacheStruct) (fileSize : ℤ) : Bool :=
  fileSize ≤ c.maxSize && fileSize ≤ c.maxSize - c.currSize + bytes c.table (emptiedFor c fileSize)

def present (c : CacheStruct) (fileName : Key) : Bool :=
  (List.range c.tableSize).any fun i => keys c i = some fileName

/-- the slots that an insertion of `data` empties -/
def evictedBy (c : CacheStruct) (data : FileData) : List ℕ :=
  if present c data.fileName || data.fileSize > c.maxSize || data.fileSize ≤ c.maxSize - c.currSize then []
  else victims c.table (c.maxSize - c.currSize) data.fileSize c.queue

/-- `data` is absent and there is room for it after the evictions -/
def fits (c : CacheStruct) (data : FileData) : Bool :=
  !present c data.fileName && data.fileSize ≤ c.maxSize &&
    data.fileSize ≤ c.maxSize - c.currSize + bytes c.table (evictedBy c data)

/-- the first slot from the file's own that is empty or about to be emptied -/
def target (home : Key → ℕ) (c : CacheStruct) (data : FileData) : Option ℕ :=
  find home c.tableSize (emptied (keys c) (evictedBy c data)) data.fileName

/-- no slot the insertion empties is on the way to a file that stays, unless the new file goes there -/
def keepsChains (home : Key → ℕ) (c : CacheStruct) : Op → Bool
  | .insert data =>
    (List.range c.tableSize).all fun i =>
      match keys c i with
      | none => true
      | some k => i ∈ evictedBy c data ||
        (List.range (dist c.tableSize (home k) i)).all fun d =>
          slotAt c.tableSize (home k) d ∉ evictedBy c data ||
            (fits c data && target home c data = some (slotAt c.tableSize (home k) d))
  | _ => true

/-! ## Eviction -/

theorem victims_not_mem {table : ℕ → Option FileStruct} {room fileSize : ℤ} {queue : List ℕ} {i : ℕ}
    (hi : table i = none) : i ∉ victims table room fileSize queue := by
  induction queue generalizing table room with
  | nil => simp [victims]
  | cons j queue ih =>
    simp only [victims]
    split
    · cases hj : table j with
      | none => simpa [hj] using ih hi
      | some file =>
        have hij : i ≠ j := by rintro rfl; rw [hi] at hj; cases hj
        simp only
        split
        · simp only [List.mem_cons, not_or]
          exact ⟨hij, ih (by rw [update_of_ne hij]; exact hi)⟩
        · exact ih hi
    · simp

theorem bytes_update {table : ℕ → Option FileStruct} {i : ℕ} {slots : List ℕ} (hi : i ∉ slots) :
    bytes (update table i none) slots = bytes table slots := by
  simp only [bytes]
  congr 1
  refine List.map_congr_left fun j hj => ?_
  have hji : j ≠ i := by rintro rfl; exact hi hj
  rw [update_of_ne hji]

/-- what the loop of `LRU_delete` does -/
theorem lruLoop_spec (fileSize : ℤ) (queue : List ℕ) (c : CacheStruct) :
    (lruLoop fileSize queue c).maxSize = c.maxSize ∧ (lruLoop fileSize queue c).tableSize = c.tableSize ∧
      (lruLoop fileSize queue c).table =
        (fun j => if j ∈ victims c.table (c.maxSize - c.currSize) fileSize queue then none else c.table j) ∧
      (lruLoop fileSize queue c).currSize =
        c.currSize - bytes c.table (victims c.table (c.maxSize - c.currSize) fileSize queue) := by
  induction queue generalizing c with
  | nil => simp [lruLoop, victims, bytes]
  | cons i queue ih =>
    simp only [lruLoop, victims]
    split
    · cases hi : c.table i with
      | none =>
        have hev : evictAt c i = c := by simp [evictAt, hi]
        rw [hev]; exact ih c
      | some file =>
        by_cases hact : file.active = 0
        · set c' : CacheStruct := { c with
            currSize := c.currSize - file.data.fileSize
            table := update c.table i none
            freed := c.freed ++ [file.data.addr]
            queue := deleteFromQueue c.queue i } with hc'
          have hev : evictAt c i = c' := by simp [evictAt, hi, hact, hc']
          have hroom : c'.maxSize - c'.currSize = c.maxSize - c.currSize + file.data.fileSize := by
            simp only [hc']; ring
          obtain ⟨h1, h2, h3, h4⟩ := ih c'
          rw [hroom] at h3 h4
          simp only [hev, hact, if_true]
          set V := victims (update c.table i none) (c.maxSize - c.currSize + file.data.fileSize) fileSize queue
          have hnot : i ∉ V := victims_not_mem (update_self _ _ _)
          refine ⟨h1, h2, ?_, ?_⟩
          · rw [h3]
            funext j
            by_cases hji : j = i
            · subst hji; simp [hc']
            · simp [hc', hji]
          · have hcons : bytes c.table (i :: V) = file.data.fileSize + bytes c.table V := by simp [bytes, hi]
            have hV : bytes c'.table V = bytes c.table V := bytes_update hnot
            rw [h4, hcons, hV]
            simp only [hc']; ring
        · have hev : evictAt c i = c := by simp [evictAt, hi, hact]
          rw [hev]
          simp only [hact, if_false]
          exact ih c
    · simp [bytes]

/-! ## Lookup -/

section

variable {home : Key → ℕ} {c c' : CacheStruct}

theorem keys_eq_some {i : ℕ} {k : Key} : keys c i = some k ↔ ∃ f, c.table i = some f ∧ f.key = k := by
  simp [keys, Option.map_eq_some_iff]

theorem probeLoop_eq {fileName : Key} {i : ℕ} :
    probeLoop home c fileName = .ok i ↔ find home c.tableSize (keys c) fileName = some i := by
  simp only [probeLoop, find, getIndex]
  cases probe (keys c) c.tableSize fileName c.tableSize (home fileName % c.tableSize) with
  | none => simp
  | some j => simp

theorem cacheLookup_eq_some {fileName : Key} {i : ℕ} :
    cacheLookup home c fileName = .ok (some i) ↔
      find home c.tableSize (keys c) fileName = some i ∧ keys c i = some fileName := by
  rw [cacheLookup, bind_eq_ok]
  constructor
  · rintro ⟨j, hj, hres⟩
    rw [probeLoop_eq] at hj
    cases hf : c.table j with
    | none => simp [hf] at hres
    | some f =>
      simp only [hf, pure_eq_ok, Except.ok.injEq] at hres
      split at hres
      · rename_i hkey
        cases hres
        exact ⟨hj, keys_eq_some.2 ⟨f, hf, hkey⟩⟩
      · cases hres
  · rintro ⟨hfind, hk⟩
    obtain ⟨f, hf, hkey⟩ := keys_eq_some.1 hk
    exact ⟨i, probeLoop_eq.2 hfind, by simp [hf, hkey]⟩

/-- in a table with an empty slot the lookup returns -/
theorem cacheLookup_returns {i : ℕ} (hi : i < c.tableSize) (hnone : c.table i = none) (fileName : Key) :
    ∃ r, cacheLookup home c fileName = .ok r := by
  have hempty : keys c i = none := by simp [keys, hnone]
  obtain ⟨j, hj⟩ : ∃ j, find home c.tableSize (keys c) fileName = some j := find_isSome hi hempty
  simp only [cacheLookup, probeLoop_eq.2 hj, ok_bind]
  cases c.table j with
  | none => exact ⟨_, rfl⟩
  | some f => exact ⟨_, rfl⟩

/-- the table of a cache in use: no key twice -/
structure Keyed (c : CacheStruct) : Prop where
  pos : 0 < c.tableSize
  distinct : Distinct c.tableSize (keys c)

theorem Keyed.isMap_iff (h : Keyed c) : IsMap home c ↔ ∀ i, Reach home c.tableSize (keys c) i := by
  rw [← h.distinct.find_iff h.pos]
  constructor
  · rintro ⟨-, hall⟩ k
    have := hall k
    simp only [cacheLookup_eq_some] at this
    rw [this]
    simp only [keys_eq_some]
  · intro hall
    refine ⟨fun i j f g hf hg hk => ?_, fun k => ?_⟩
    · exact h.distinct.unique i j f.key (keys_eq_some.2 ⟨f, hf, rfl⟩) (keys_eq_some.2 ⟨g, hg, hk.symm⟩)
    · simp only [cacheLookup_eq_some]
      rw [hall k]
      simp only [keys_eq_some]

theorem present_iff (h : Keyed c) {fileName : Key} : present c fileName = true ↔ ∃ i, keys c i = some fileName := by
  simp only [present, List.any_eq_true, List.mem_range, decide_eq_true_eq]
  constructor
  · rintro ⟨i, -, hi⟩
    exact ⟨i, hi⟩
  · rintro ⟨i, hi⟩
    exact ⟨i, h.distinct.range i _ hi, hi⟩

/-! ## Insertion -/

/-- the keys after an insertion, from the state before it -/
def keysAfter (home : Key → ℕ) (c : CacheStruct) (data : FileData) : ℕ → Option Key :=
  match fits c data, target home c data with
  | true, some j => update (emptied (keys c) (evictedBy c data)) j (some data.fileName)
  | _, _ => emptied (keys c) (evictedBy c data)

theorem keysAfter_cases (home : Key → ℕ) (c : CacheStruct) (data : FileData) :
    (∃ j, fits c data = true ∧ target home c data = some j ∧
      keysAfter home c data = update (emptied (keys c) (evictedBy c data)) j (some data.fileName)) ∨
    ((∀ j, fits c data = true → target home c data ≠ some j) ∧
      keysAfter home c data = emptied (keys c) (evictedBy c data)) := by
  unfold keysAfter
  split
  · rename_i j hfit htarget
    exact Or.inl ⟨j, hfit, htarget, rfl⟩
  · rename_i hno
    exact Or.inr ⟨hno, rfl⟩

theorem keys_update (c : CacheStruct) (j : ℕ) (f : FileStruct) (currSize : ℤ) :
    keys { c with table := update c.table j (some f), currSize := currSize } = update (keys c) j (some f.key) := by
  funext i
  by_cases hij : i = j
  · subst hij; simp [keys]
  · simp [keys, update_of_ne hij]

theorem keys_table {table : ℕ → Option FileStruct} {V : List ℕ}
    (h : c'.table = fun j => if j ∈ V then none else table j) (ht : c.table = table) :
    keys c' = emptied (keys c) V := by
  funext j
  by_cases hj : j ∈ V <;> simp [keys, emptied, h, ht, hj]

/-- what `cache_evict` does -/
theorem cacheEvict_spec (c : CacheStruct) (fileSize : ℤ) :
    (cacheEvict c fileSize).1.tableSize = c.tableSize ∧
      (cacheEvict c fileSize).1.table = (fun j => if j ∈ emptiedFor c fileSize then none else c.table j) ∧
      (cacheEvict c fileSize).2 = roomFor c fileSize := by
  unfold cacheEvict
  by_cases hbig : fileSize > c.maxSize
  · have hV : emptiedFor c fileSize = [] := by simp [emptiedFor, hbig]
    have hroom : roomFor c fileSize = false := by
      simp only [roomFor, Bool.and_eq_false_iff, decide_eq_false_iff_not]
      left; omega
    simp [hbig, hV, hroom]
  · by_cases hfree : fileSize ≤ c.maxSize - c.currSize
    · have hV : emptiedFor c fileSize = [] := by simp [emptiedFor, hfree]
      have hroom : roomFor c fileSize = true := by
        simp only [roomFor, hV, bytes, List.map_nil, List.sum_nil, add_zero, Bool.and_eq_true, decide_eq_true_eq]
        exact ⟨not_lt.1 hbig, hfree⟩
      simp [hbig, hfree, hV, hroom]
    · have hV : emptiedFor c fileSize = victims c.table (c.maxSize - c.currSize) fileSize c.queue := by
        simp [emptiedFor, hbig, hfree]
      have hroom :
          roomFor c fileSize = decide (fileSize ≤ c.maxSize - c.currSize + bytes c.table (emptiedFor c fileSize)) := by
        simp [roomFor, not_lt.1 hbig]
      rw [if_neg hbig, if_neg hfree]
      by_cases hq : c.queue = []
      · have hnil : emptiedFor c fileSize = [] := by rw [hV, hq]; rfl
        have hbytes : bytes c.table [] = 0 := rfl
        rw [hroom, hnil, hbytes, if_pos hq]
        refine ⟨rfl, by simp, ?_⟩
        simp; omega
      · rw [if_neg hq]
        obtain ⟨h1, h2, h3, h4⟩ := lruLoop_spec fileSize c.queue c
        refine ⟨h2, by rw [hV]; exact h3, ?_⟩
        simp only [lruDelete, hroom, h1, h4, hV, ge_iff_le, decide_eq_decide]
        constructor <;> intro h <;> omega

/-- `cache_evict` for a file that is absent -/
theorem cacheEvict_absent {data : FileData} (habs : present c data.fileName = false) :
    (cacheEvict c data.fileSize).1.tableSize = c.tableSize ∧
      keys (cacheEvict c data.fileSize).1 = emptied (keys c) (evictedBy c data) ∧
      (cacheEvict c data.fileSize).2 = fits c data := by
  have hV : evictedBy c data = emptiedFor c data.fileSize := by simp [evictedBy, emptiedFor, habs]
  have hfits : fits c data = roomFor c data.fileSize := by simp [fits, roomFor, habs, hV]
  obtain ⟨h1, h2, h3⟩ := cacheEvict_spec c data.fileSize
  rw [hV, hfits]
  exact ⟨h1, keys_table h2 rfl, h3⟩

/-- what an insertion does to the keys -/
theorem insert_keys (h : Keyed c) (hm : IsMap home c) {data : FileData} (hs : step home c (.insert data) = .ok c') :
    c'.tableSize = c.tableSize ∧ keys c' = keysAfter home c data := by
  simp only [step, bind_eq_ok] at hs
  obtain ⟨⟨c1, r⟩, hins, hc'⟩ := hs
  simp only [pure_eq_ok, Except.ok.injEq] at hc'
  subst hc'
  rw [cacheInsert, bind_eq_ok] at hins
  obtain ⟨found, hlook, hins⟩ := hins
  cases found with
  | some i =>
    simp only [pure_eq_ok, Except.ok.injEq, Prod.mk.injEq] at hins
    obtain ⟨rfl, -⟩ := hins
    have hp : present c data.fileName = true := (present_iff h).2 ⟨i, (cacheLookup_eq_some.1 hlook).2⟩
    have hV : evictedBy c data = [] := by simp [evictedBy, hp]
    have hfit : fits c data = false := by simp [fits, hp]
    exact ⟨rfl, by simp [keysAfter, hfit, hV, emptied_nil]⟩
  | none =>
    have habs : present c data.fileName = false := by
      rw [Bool.eq_false_iff, Ne, present_iff h]
      rintro ⟨i, hi⟩
      obtain ⟨f, hf, hk⟩ := keys_eq_some.1 hi
      obtain ⟨j, hj⟩ := (hm.2 data.fileName).2 ⟨i, f, hf, hk⟩
      rw [hlook] at hj; cases hj
    obtain ⟨h1, h2, h3⟩ := cacheEvict_absent habs
    cases hev : cacheEvict c data.fileSize with
    | mk c2 ok =>
      rw [hev] at h1 h2 h3
      simp only [hev] at hins
      cases ok with
      | false =>
        simp only [pure_eq_ok, Except.ok.injEq, Prod.mk.injEq] at hins
        obtain ⟨rfl, -⟩ := hins
        have h3' : fits c data = false := h3.symm
        exact ⟨h1, by simp only [keysAfter, h3']; exact h2⟩
      | true =>
        simp only [bind_eq_ok, pure_eq_ok, Except.ok.injEq, Prod.mk.injEq, Prod.exists, tableInsert] at hins
        obtain ⟨c3, j, ⟨index, hprobe, hc3, -⟩, rfl, -⟩ := hins
        subst hc3
        rw [probeLoop_eq] at hprobe
        have htarget : target home c data = some index := by
          rw [target, ← h2, ← h1]; exact hprobe
        have h3' : fits c data = true := h3.symm
        refine ⟨h1, ?_⟩
        have hkeys := keys_update c2 index ⟨data.fileName, data, 0⟩ (c2.currSize + data.fileSize)
        simp only [keysAfter, h3', htarget]
        rw [← h2]
        exact hkeys

/-- the keys stay distinct -/
theorem keysAfter_distinct (h : Keyed c) (data : FileData) : Distinct c.tableSize (keysAfter home c data) := by
  have hV := h.distinct.emptied (evictedBy c data)
  rcases keysAfter_cases home c data with ⟨j, hfit, htarget, heq⟩ | ⟨-, heq⟩ <;> rw [heq]
  · have habs : present c data.fileName = false := by
      simp only [fits, Bool.and_eq_true, Bool.not_eq_true'] at hfit; exact hfit.1.1
    refine hV.insert (find_lt h.pos htarget) fun i hi => ?_
    have := (present_iff h).2 ⟨i, (emptied_eq_some.1 hi).2⟩
    rw [habs] at this; cases this
  · exact hV

theorem fits_absent (h : Keyed c) {data : FileData} (hfit : fits c data = true) (i : ℕ) :
    keys c i ≠ some data.fileName := by
  intro hi
  have := (present_iff h).2 ⟨i, hi⟩
  simp [fits, this] at hfit

/-- a slot is occupied after the insertion if it is not emptied, or if the new file goes there -/
theorem keysAfter_ne_none {data : FileData} {x : ℕ} :
    keysAfter home c data x ≠ none ↔
      (x ∉ evictedBy c data ∧ keys c x ≠ none) ∨ (fits c data = true ∧ target home c data = some x) := by
  have hemp : emptied (keys c) (evictedBy c data) x ≠ none ↔ x ∉ evictedBy c data ∧ keys c x ≠ none := by
    by_cases hx : x ∈ evictedBy c data <;> simp [emptied, hx]
  rcases keysAfter_cases home c data with ⟨j, hfit, htarget, heq⟩ | ⟨hno, heq⟩ <;> rw [heq]
  · by_cases hxj : x = j
    · subst hxj; simp [hfit, htarget]
    · rw [update_of_ne hxj, hemp, htarget, Option.some.injEq]
      constructor
      · intro h; exact Or.inl h
      · rintro (h | ⟨-, h⟩)
        · exact h
        · exact absurd h.symm hxj
  · rw [hemp]
    constructor
    · intro h; exact Or.inl h
    · rintro (h | ⟨hfit, htarget⟩)
      · exact h
      · exact absurd htarget (hno x hfit)

/-- a file that stays is where it was -/
theorem keysAfter_stays (h : Keyed c) {data : FileData} {i : ℕ} {k : Key} (hi : keys c i = some k)
    (hV : i ∉ evictedBy c data) : keysAfter home c data i = some k := by
  have hemp : emptied (keys c) (evictedBy c data) i = some k := emptied_eq_some.2 ⟨hV, hi⟩
  rcases keysAfter_cases home c data with ⟨j, hfit, htarget, heq⟩ | ⟨-, heq⟩ <;> rw [heq]
  · have hij : i ≠ j := by
      rintro rfl
      rcases find_stops h.pos htarget with hs | hs
      · rw [hemp] at hs; cases hs
      · rw [hemp] at hs
        exact fits_absent h hfit i (hi.trans hs)
    rw [update_of_ne hij]; exact hemp
  · exact hemp

theorem keepsChains_iff (h : Keyed c) {data : FileData} :
    keepsChains home c (.insert data) = true ↔ ∀ i k, keys c i = some k → i ∉ evictedBy c data →
      ∀ d < dist c.tableSize (home k) i, slotAt c.tableSize (home k) d ∉ evictedBy c data ∨
        (fits c data = true ∧ target home c data = some (slotAt c.tableSize (home k) d)) := by
  simp only [keepsChains, List.all_eq_true, List.mem_range]
  constructor
  · intro hall i k hi hV d hd
    have := hall i (h.distinct.range i k hi)
    simp only [hi, Bool.or_eq_true, decide_eq_true_eq, List.all_eq_true, List.mem_range, Bool.and_eq_true] at this
    exact (this.resolve_left hV) d hd
  · intro hall i _
    cases hi : keys c i with
    | none => rfl
    | some k =>
      simp only [Bool.or_eq_true, decide_eq_true_eq, List.all_eq_true, List.mem_range, Bool.and_eq_true]
      by_cases hV : i ∈ evictedBy c data
      · exact Or.inl hV
      · exact Or.inr (hall i k hi hV)

/-- **When an insertion keeps the map**: exactly if no slot it empties is on the way to a file that stays, unless the
new file goes there. -/
theorem insert_isMap_iff (h : Keyed c) (hm : IsMap home c) {data : FileData}
    (hs : step home c (.insert data) = .ok c') :
    Keyed c' ∧ (IsMap home c' ↔ keepsChains home c (.insert data) = true) := by
  obtain ⟨hsize, hkeys⟩ := insert_keys h hm hs
  have h' : Keyed c' := ⟨by rw [hsize]; exact h.pos, by rw [hsize, hkeys]; exact keysAfter_distinct h data⟩
  refine ⟨h', ?_⟩
  have hreach := h.isMap_iff.1 hm
  rw [h'.isMap_iff, keepsChains_iff h, hsize, hkeys]
  constructor
  · intro hall i k hi hV d hd
    have hin := h.distinct.range i k hi
    have hpath := (reach_iff (keysAfter_stays h hi hV) (dist_lt h.pos _ _) (slotAt_dist hin (home k))).1 (hall i) d hd
    rcases keysAfter_ne_none.1 hpath with ⟨hno, -⟩ | hnew
    · exact Or.inl hno
    · exact Or.inr hnew
  · intro hall i k hi
    have hne : keysAfter home c data i ≠ none := by rw [hi]; simp
    by_cases hnew : fits c data = true ∧ target home c data = some i
    · -- the new file
      have hafter : keysAfter home c data = update (emptied (keys c) (evictedBy c data)) i (some data.fileName) := by
        simp only [keysAfter, hnew.1, hnew.2]
      have hreachNew : Reach home c.tableSize (update (emptied (keys c) (evictedBy c data)) i (some data.fileName)) i :=
        reach_insert h.pos hnew.2
      rw [hafter] at hi ⊢
      exact hreachNew k hi
    · -- a file that stays
      obtain ⟨hV, hold⟩ := (keysAfter_ne_none.1 hne).resolve_right hnew
      obtain ⟨k', hk'⟩ := Option.ne_none_iff_exists'.1 hold
      have hkk : keysAfter home c data i = some k' := keysAfter_stays h hk' hV
      rw [hi, Option.some.injEq] at hkk
      subst hkk
      have hin := h.distinct.range i k hk'
      have hd := slotAt_dist hin (home k)
      refine (reach_iff hi (dist_lt h.pos _ _) hd).2 (fun d hlt => ?_) k hi
      have hocc := (reach_iff hk' (dist_lt h.pos _ _) hd).1 (hreach i) d hlt
      rcases hall i k hk' hV d hlt with hno | hnew'
      · exact keysAfter_ne_none.2 (Or.inl ⟨hno, hocc⟩)
      · exact keysAfter_ne_none.2 (Or.inr hnew')

/-! ## Runs -/

/-- the other operations leave the keys alone -/
theorem step_keys {op : Op} (hop : ∀ data, op ≠ .insert data) (hs : step home c op = .ok c') :
    c'.tableSize = c.tableSize ∧ keys c' = keys c := by
  cases op with
  | lookup fileName =>
    simp only [step, bind_eq_ok, pure_eq_ok, Except.ok.injEq] at hs
    obtain ⟨-, -, rfl⟩ := hs
    exact ⟨rfl, rfl⟩
  | insert data => exact absurd rfl (hop data)
  | lruUpdate fileName => cases hs; exact ⟨rfl, rfl⟩
  | active index change =>
    simp only [step] at hs
    split at hs
    · rename_i file hfile
      cases hs
      refine ⟨rfl, ?_⟩
      funext i
      by_cases hi : i = index
      · subst hi; simp [keys, hfile]
      · simp [keys, update_of_ne hi]
    · cases hs

theorem step_isMap {op : Op} (h : Keyed c) (hm : IsMap home c) (hg : keepsChains home c op = true)
    (hs : step home c op = .ok c') : Keyed c' ∧ IsMap home c' := by
  by_cases hop : ∃ data, op = .insert data
  · obtain ⟨data, rfl⟩ := hop
    obtain ⟨h', hiff⟩ := insert_isMap_iff h hm hs
    exact ⟨h', hiff.2 hg⟩
  · obtain ⟨hsize, hkeys⟩ := step_keys (fun data hd => hop ⟨data, hd⟩) hs
    have h' : Keyed c' := ⟨by rw [hsize]; exact h.pos, by rw [hsize, hkeys]; exact h.distinct⟩
    refine ⟨h', h'.isMap_iff.2 ?_⟩
    rw [hsize, hkeys]
    exact h.isMap_iff.1 hm

end

/-- **The cache index is a map** in every run whose insertions empty no slot on the way to a file that stays, unless the
new file goes there; and while the table has an empty slot every lookup returns. -/
theorem cache_is_map (home : Key → ℕ) (tableSize : ℕ) (maxCacheSize : ℤ) (hpos : 0 < tableSize) (c : CacheStruct)
    (hrun : Run (step home) (keepsChains home) (cacheInit tableSize maxCacheSize) c) :
    IsMap home c ∧ ((∃ i < c.tableSize, c.table i = none) → ∀ fileName, ∃ r, cacheLookup home c fileName = .ok r) := by
  have hkeys : keys (cacheInit tableSize maxCacheSize) = fun _ => none := rfl
  have h0 : Keyed (cacheInit tableSize maxCacheSize) := ⟨hpos, by rw [hkeys]; exact ⟨by simp, by simp⟩⟩
  have hm0 : IsMap home (cacheInit tableSize maxCacheSize) := h0.isMap_iff.2 fun i k hi => by
    rw [hkeys] at hi; cases hi
  obtain ⟨-, hm⟩ := hrun.inv (fun c => Keyed c ∧ IsMap home c)
    (fun c o c' h hg hs => step_isMap h.1 h.2 hg hs) ⟨h0, hm0⟩
  refine ⟨hm, ?_⟩
  rintro ⟨i, hi, hnone⟩ fileName
  exact cacheLookup_returns hi hnone fileName

/-- an eviction that cuts no path: `a` makes room for `c`, and `b`, in a slot of its own, is still found -/
theorem cache_is_map_after_eviction :
    ∃ c, Run (step djb2) (keepsChains djb2) (cacheInit 7 10) c ∧ c.table 3 = none ∧
      ∃ i, cacheLookup djb2 c [98] = .ok (some i) := by
  have h : ∃ c, Run (step djb2) (keepsChains djb2) (cacheInit 7 10) c ∧
      (decide (c.table 3 = none) && (c.table 4).any fun f => decide (f.key = [98])) = true :=
    run_of_passes
      [.insert { fileName := [97], fileSize := 6 }, .insert { fileName := [98], fileSize := 4 },
        .lookup [98], .active 4 1, .insert { fileName := [99], fileSize := 5 }]
      (by decide +kernel)
  obtain ⟨c, hrun, hc⟩ := h
  simp only [Bool.and_eq_true, decide_eq_true_eq, Option.any_eq_true] at hc
  obtain ⟨hnone, f, hf, hk⟩ := hc
  have hm := (cache_is_map djb2 7 10 (by decide) c hrun).1
  exact ⟨c, hrun, hnone, (hm.2 [98]).2 ⟨4, f, hf, hk⟩⟩

/-- With the hash and the table size of the source, a cached file can become invisible. The names `ab` and `bA` have the
same hash; `ab` is evicted from the slot they share, and `bA`, one slot further, is not found. -/
theorem cached_file_not_found :
    ¬ ∀ (home : Key → ℕ) (tableSize : ℕ) (maxCacheSize : ℤ) (c : CacheStruct), 0 < tableSize →
      Run (step home) anyStep (cacheInit tableSize maxCacheSize) c → IsMap home c := by
  intro hall
  have h : ∃ c, Run (step djb2) anyStep (cacheInit sourceTableSize 10) c ∧
      ((c.table 1569209).any (fun f => decide (f.key = [98, 65])) &&
        after (cacheLookup djb2 c [98, 65]) fun r => r.isNone) = true :=
    run_of_passes [.insert { fileName := [97, 98], fileSize := 6 }, .insert { fileName := [98, 65], fileSize := 4 },
      .insert { fileName := [99], fileSize := 5 }] (by decide +kernel)
  obtain ⟨c, hrun, hc⟩ := h
  simp only [Bool.and_eq_true, decide_eq_true_eq, Option.any_eq_true] at hc
  obtain ⟨⟨f, hf, hk⟩, hafter⟩ := hc
  obtain ⟨r, hr, hnone⟩ := exists_of_after hafter
  obtain ⟨i, hi⟩ := ((hall djb2 sourceTableSize 10 c (by decide) hrun).2 [98, 65]).2 ⟨_, f, hf, hk⟩
  rw [hr, Except.ok.injEq] at hi
  rw [hi] at hnone
  cases hnone

end OsLab.Cache
