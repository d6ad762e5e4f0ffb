/-
The probe loops end (`cache_lookup` and `table_insert`).

They stop at the name they look for or at an empty slot, so they end for every name exactly if a slot is empty
(`probes_iff`). Nothing counts the entries: an insertion into a table with one empty slot takes it, unless the file is
found, refused, or put in the place of one that was evicted for it (`takesLast`). As long as no insertion does that the
loops end (`probing_ends`). Files without a byte fill a table of any size in a cache of any size (`run_to_full`).
-/
import Mathlib.Tactic
import OsLab.Lib.Text
import OsLab.Cache.Model
import OsLab.Cache.Map
import OsLab.Cache.Evict

namespace OsLab.Cache

open OsLab.Lib
open Function (update update_self update_of_ne)

variable {home : Key → ℕ} {c c' : CacheStruct} {data : FileData} {fileSize : ℤ} {n : ℕ}

/-! ## The test on the state before an insertion -/

/-- the empty slots -/
def free (c : CacheStruct) : Finset ℕ := (Finset.range c.tableSize).filter fun i => (c.table i).isNone

/-- no slot from the file's own up to an empty one has its name -/
def unseen (home : Key → ℕ) (c : CacheStruct) (fileName : Key) : Bool :=
  (List.range c.tableSize).all fun i => (c.table i).isSome ||
    (List.range (dist c.tableSize (home fileName) i)).all fun d =>
      decide (keys c (slotAt c.tableSize (home fileName) d) ≠ some fileName)

/-- the insertion of `data` takes the last empty slot -/
def takesLast (home : Key → ℕ) (c : CacheStruct) (data : FileData) : Bool :=
  decide ((free c).card = 1 ∧ data.fileSize ≤ c.maxSize ∧ data.fileSize ≤ c.maxSize - c.currSize) &&
    unseen home c data.fileName

/-- no insertion takes the last empty slot -/
def leavesSlot (home : Key → ℕ) (c : CacheStruct) : Op → Bool
  | .insert data => !takesLast home c data
  | _ => true

/-! ## Empty slots -/

theorem keys_eq_none {i : ℕ} : keys c i = none ↔ c.table i = none := Option.map_eq_none_iff

theorem mem_free {i : ℕ} : i ∈ free c ↔ i < c.tableSize ∧ keys c i = none := by
  rw [free, Finset.mem_filter, Finset.mem_range, Option.isNone_iff_eq_none, keys_eq_none]

theorem keys_stored (c : CacheStruct) (i : ℕ) (data : FileData) :
    keys (stored c i data) = update (keys c) i (some data.fileName) :=
  keys_update c i ⟨data.fileName, data, 0⟩ (c.currSize + data.fileSize)

/-- the loops end for every name -/
def Probes (home : Key → ℕ) (c : CacheStruct) : Prop :=
  (∀ fileName, ∃ r, cacheLookup home c fileName = .ok r) ∧ ∀ data, ∃ r, tableInsert home c data = .ok r

/-- **The loops end for every name exactly if a slot is empty.** -/
theorem probes_iff (hpos : 0 < c.tableSize) : Probes home c ↔ (free c).Nonempty := by
  have hfree : (free c).Nonempty ↔ ∃ i < c.tableSize, keys c i = none := exists_congr fun i => mem_free
  have hloop : ∀ fileName, (∃ i, find home c.tableSize (keys c) fileName = some i) ↔
      ∃ i, probeLoop home c fileName = .ok i := fun fileName => exists_congr fun i => probeLoop_eq.symm
  rw [hfree, ← find_total_iff hpos]
  constructor
  · rintro ⟨hlookup, -⟩ fileName
    obtain ⟨r, hr⟩ := hlookup fileName
    obtain ⟨i, hi, -⟩ := bind_eq_ok.1 hr
    exact (hloop fileName).2 ⟨i, hi⟩
  · intro hall
    refine ⟨fun fileName => ?_, fun data => ?_⟩
    · obtain ⟨i, hi⟩ := (hloop fileName).1 (hall fileName)
      rw [cacheLookup, hi, ok_bind]
      cases c.table i with
      | none => exact ⟨none, rfl⟩
      | some f => exact ⟨_, rfl⟩
    · obtain ⟨i, hi⟩ := (hloop data.fileName).1 (hall data.fileName)
      rw [tableInsert, hi, ok_bind]
      exact ⟨_, rfl⟩

/-- evictions only empty slots -/
theorem Evicted.free (h : Evicted c c') : free c ⊆ free c' := by
  intro i hi
  obtain ⟨hlt, hnone⟩ := mem_free.1 hi
  refine mem_free.2 ⟨by rw [h.tableSize]; exact hlt, ?_⟩
  rcases h.keys_cases i with heq | heq
  · rw [heq, hnone]
  · exact heq

/-- a file that fits after an eviction and did not before has emptied a slot -/
theorem cacheEvict_frees (hrange : ∀ i, keys c i ≠ none → i < c.tableSize) (hroom : (cacheEvict c fileSize).2 = true)
    (hfull : ¬(fileSize ≤ c.maxSize ∧ fileSize ≤ c.maxSize - c.currSize)) :
    ∃ i, i ∉ free c ∧ i ∈ free (cacheEvict c fileSize).1 := by
  obtain ⟨hsize, htable, hspec⟩ := cacheEvict_spec c fileSize
  rw [hroom] at hspec
  have hV : emptiedFor c fileSize ≠ [] := by
    intro hnil
    rw [roomFor, hnil, eq_comm, Bool.and_eq_true, decide_eq_true_eq, decide_eq_true_eq] at hspec
    simp only [bytes, List.map_nil, List.sum_nil, add_zero] at hspec
    exact hfull hspec
  obtain ⟨i, hi⟩ := List.exists_mem_of_ne_nil _ hV
  have hsome : keys c i ≠ none := by
    intro hnone
    unfold emptiedFor at hi
    split_ifs at hi
    · exact absurd hi List.not_mem_nil
    · exact victims_not_mem (keys_eq_none.1 hnone) hi
  refine ⟨i, fun hc => hsome (mem_free.1 hc).2, mem_free.2 ⟨by rw [hsize]; exact hrange i hsome, keys_eq_none.2 ?_⟩⟩
  rw [htable]
  exact if_pos hi

/-- between the slot of a name that is missed and the one empty slot there is no entry of that name -/
theorem unseen_of_miss (hmiss : cacheLookup home c data.fileName = .ok none) (hone : (free c).card = 1) :
    unseen home c data.fileName = true := by
  obtain ⟨i, hi, hnone⟩ := cacheLookup_eq_none hmiss
  have hpos := find_pos hi
  obtain ⟨d, hd, hslot, -, hbefore⟩ := (find_eq_some hpos).1 hi
  have hfree : i ∈ free c := mem_free.2 ⟨find_lt hpos hi, hnone⟩
  simp only [unseen, List.all_eq_true, List.mem_range, Bool.or_eq_true, decide_eq_true_eq]
  intro e he
  cases hempty : c.table e with
  | some f => exact Or.inl rfl
  | none =>
    right
    -- it is the slot where the search has stopped
    have heq : e = i := Finset.card_le_one.1 hone.le e (mem_free.2 ⟨he, keys_eq_none.2 hempty⟩) i hfree
    have hdist : dist c.tableSize (home data.fileName) e = d :=
      slotAt_inj (dist_lt hpos _ _) hd ((slotAt_dist he _).trans (heq.trans hslot.symm))
    rw [hdist]
    exact fun e' he' hc => hbefore e' he' (Or.inr hc)

/-! ## Steps and runs -/

/-- the entries are in the table, and a slot is empty -/
structure Roomy (c : CacheStruct) : Prop where
  range : ∀ i, keys c i ≠ none → i < c.tableSize
  free : (free c).Nonempty

theorem Evicted.roomy (h : Evicted c c') (hc : Roomy c) : Roomy c' where
  range := fun i hi => by
    rw [h.tableSize]
    refine hc.range i fun hnone => hi ?_
    rcases h.keys_cases i with heq | heq
    · rw [heq, hnone]
    · exact heq
  free := hc.free.mono h.free

/-- an insertion that does not take the last empty slot leaves one -/
theorem insert_roomy (hc : Roomy c) (hgood : takesLast home c data = false) {r : Option ℕ}
    (hins : cacheInsert home c data = .ok (c', r)) : Roomy c' := by
  rcases cacheInsert_eq_ok hins with ⟨-, -, rfl, -⟩ | ⟨hmiss, ⟨-, rfl, -⟩ | ⟨i, -, rfl, hroom, hprobe⟩⟩
  · exact hc
  · exact (cacheEvict_evicted c data.fileSize).roomy hc
  · have hev := cacheEvict_evicted c data.fileSize
    have hc1 := hev.roomy hc
    have hi : i ∈ free (cacheEvict c data.fileSize).1 := mem_free.2
      ⟨find_lt (find_pos (probeLoop_eq.1 hprobe)) (probeLoop_eq.1 hprobe),
       keys_eq_none.2 (hev.insert_slot hmiss hprobe)⟩
    -- another slot is empty, too
    have hother : ∃ j ∈ free (cacheEvict c data.fileSize).1, j ≠ i := by
      by_contra hnone
      push Not at hnone
      have hsub : free (cacheEvict c data.fileSize).1 = {i} := by
        ext j
        rw [Finset.mem_singleton]
        exact ⟨hnone j, fun hj => hj ▸ hi⟩
      have hone : (free c).card = 1 := by
        have hle := Finset.card_le_card hev.free
        rw [hsub, Finset.card_singleton] at hle
        have hpos := hc.free.card_pos
        omega
      by_cases hfits : data.fileSize ≤ c.maxSize ∧ data.fileSize ≤ c.maxSize - c.currSize
      · simp only [takesLast, unseen_of_miss hmiss hone, Bool.and_true, decide_eq_false_iff_not, not_and] at hgood
        exact hgood hone hfits.1 hfits.2
      · obtain ⟨j, hj, hj1⟩ := cacheEvict_frees hc.range hroom hfits
        have hsame : free c = free (cacheEvict c data.fileSize).1 :=
          Finset.eq_of_subset_of_card_le hev.free (by rw [hsub, Finset.card_singleton, hone])
        exact hj (hsame ▸ hj1)
    obtain ⟨j, hj, hji⟩ := hother
    have hkeys := keys_stored (cacheEvict c data.fileSize).1 i data
    refine ⟨fun k hk => ?_, j, mem_free.2 ⟨(mem_free.1 hj).1, ?_⟩⟩
    · by_cases hki : k = i
      · rw [hki]
        exact (mem_free.1 hi).1
      · rw [hkeys, update_of_ne hki] at hk
        exact hc1.range k hk
    · rw [hkeys, update_of_ne hji]
      exact (mem_free.1 hj).2

theorem step_tableSize {op : Op} (hs : step home c op = .ok c') : c'.tableSize = c.tableSize := by
  by_cases hop : ∃ data, op = .insert data
  · obtain ⟨data, rfl⟩ := hop
    obtain ⟨⟨c1, r⟩, hins, hc1⟩ := bind_eq_ok.1 hs
    cases hc1
    rcases cacheInsert_eq_ok hins with ⟨-, -, rfl, -⟩ | ⟨-, ⟨-, rfl, -⟩ | ⟨_, -, rfl, -⟩⟩
    · rfl
    · exact (cacheEvict_evicted c data.fileSize).tableSize
    · exact (cacheEvict_evicted c data.fileSize).tableSize
  · exact (step_keys (fun data hd => hop ⟨data, hd⟩) hs).1

theorem step_roomy {op : Op} (hc : Roomy c) (hgood : leavesSlot home c op = true) (hs : step home c op = .ok c') :
    Roomy c' := by
  by_cases hop : ∃ data, op = .insert data
  · obtain ⟨data, rfl⟩ := hop
    obtain ⟨⟨c1, r⟩, hins, hc1⟩ := bind_eq_ok.1 hs
    cases hc1
    exact insert_roomy hc (by simpa [leavesSlot] using hgood) hins
  · obtain ⟨hsize, hkeys⟩ := step_keys (fun data hd => hop ⟨data, hd⟩) hs
    have hfree : free c' = free c := by
      ext i
      rw [mem_free, mem_free, hsize, hkeys]
    exact ⟨fun i hi => by rw [hsize]; exact hc.range i (by rw [← hkeys]; exact hi), by rw [hfree]; exact hc.free⟩

theorem roomy_init (maxCacheSize : ℤ) (hn : 0 < n) : Roomy (cacheInit n maxCacheSize) where
  range := fun _ hi => absurd rfl hi
  free := ⟨0, mem_free.2 ⟨hn, rfl⟩⟩

/-- **Probing ends.** In every state of every run the loops end for every name exactly if a slot is empty; and in every
run in which no insertion takes the last empty slot they end in every state, before and after an eviction. -/
theorem probing_ends (home : Key → ℕ) (tableSize : ℕ) (maxCacheSize : ℤ) (hpos : 0 < tableSize) :
    (∀ c, Run (step home) anyStep (cacheInit tableSize maxCacheSize) c → (Probes home c ↔ (free c).Nonempty)) ∧
    ∀ c, Run (step home) (leavesSlot home) (cacheInit tableSize maxCacheSize) c →
      Probes home c ∧ ∀ fileSize, Probes home (cacheEvict c fileSize).1 := by
  have hsize : ∀ good c, Run (step home) good (cacheInit tableSize maxCacheSize) c → c.tableSize = tableSize := by
    intro good c hrun
    exact hrun.inv (fun c => c.tableSize = tableSize) (fun c o c' hc _ hs => (step_tableSize hs).trans hc) rfl
  refine ⟨fun c hrun => probes_iff (by rw [hsize _ c hrun]; exact hpos), fun c hrun => ?_⟩
  have hpos' : 0 < c.tableSize := by rw [hsize _ c hrun]; exact hpos
  have hc : Roomy c := hrun.inv Roomy (fun c o c' hc hgood hs => step_roomy hc hgood hs) (roomy_init _ hpos)
  refine ⟨(probes_iff hpos').2 hc.free, fun fileSize => ?_⟩
  have hev := cacheEvict_evicted c fileSize
  exact (probes_iff (by rw [hev.tableSize]; exact hpos')).2 (hev.roomy hc).free

/-- three files in a table of three slots: the third one evicts the first -/
theorem probing_ends_after_eviction : ∃ c, Run (step djb2) (leavesSlot djb2) (cacheInit 3 2) c ∧ (free c).card = 1 ∧
    Probes djb2 c := by
  have h : passes (step djb2) (leavesSlot djb2) (fun c => decide ((free c).card = 1)) (cacheInit 3 2)
    [.insert ⟨[97], 1, [], 1⟩, .insert ⟨[98], 1, [], 2⟩, .insert ⟨[99], 1, [], 3⟩] = true := by decide +kernel
  obtain ⟨c, hrun, hc⟩ := run_of_passes _ h
  exact ⟨c, hrun, of_decide_eq_true hc, ((probing_ends djb2 3 2 (by decide)).2 c hrun).1⟩

/-! ## A full table -/

/-- the name of a file without a byte -/
def emptyFile (k : ℕ) : FileData := ⟨str "./" ++ printU k, 0, [], k⟩

theorem emptyFile_inj {j k : ℕ} (h : (emptyFile j).fileName = (emptyFile k).fileName) : j = k := by
  have hdigits : printU j = printU k := List.append_cancel_left h
  rw [← value_printU j, hdigits, value_printU]

/-- the first `k` of the files are in the table, and nothing else -/
structure Holds (c : CacheStruct) (k : ℕ) : Prop where
  currSize : c.currSize = 0
  names : ∀ i name, keys c i = some name → ∃ j < k, name = (emptyFile j).fileName
  free : (free c).card + k = c.tableSize

/-- a file without a byte is stored in an empty slot, whatever the cache holds -/
theorem insert_emptyFile (home : Key → ℕ) {k : ℕ} (h : Holds c k) (hmax : 0 ≤ c.maxSize) (hlt : k < c.tableSize) :
    ∃ c', step home c (.insert (emptyFile k)) = .ok c' ∧ Holds c' (k + 1) ∧ c'.maxSize = c.maxSize ∧
      c'.tableSize = c.tableSize := by
  have hpos : 0 < c.tableSize := by omega
  have hnonempty : (free c).Nonempty := by
    rw [← Finset.card_pos]
    have := h.free
    omega
  obtain ⟨j, hj⟩ := hnonempty
  obtain ⟨hjlt, hjnone⟩ := mem_free.1 hj
  obtain ⟨i, hi⟩ : ∃ i, find home c.tableSize (keys c) (emptyFile k).fileName = some i := find_isSome hjlt hjnone
  have hnew : ∀ i, keys c i ≠ some (emptyFile k).fileName := by
    intro i hc
    obtain ⟨m, hm, heq⟩ := h.names i _ hc
    have := emptyFile_inj heq
    omega
  have hnone : keys c i = none := (find_stops hpos hi).resolve_right (hnew i)
  have hlookup : cacheLookup home c (emptyFile k).fileName = .ok none := by
    rw [cacheLookup, probeLoop_eq.2 hi, ok_bind, keys_eq_none.1 hnone]
    rfl
  have hevict : cacheEvict c (emptyFile k).fileSize = (c, true) := by
    have hcurr := h.currSize
    rw [cacheEvict, if_neg (by change ¬(0 > c.maxSize); omega), if_pos (by change 0 ≤ c.maxSize - c.currSize; omega)]
  have hmem : i ∈ free c := mem_free.2 ⟨find_lt hpos hi, hnone⟩
  have hkeys := keys_stored c i (emptyFile k)
  have hfree : free (stored c i (emptyFile k)) = (free c).erase i := by
    ext m
    rw [Finset.mem_erase, mem_free, mem_free, hkeys]
    change m < c.tableSize ∧ _ ↔ _
    by_cases hmi : m = i
    · simp [hmi]
    · rw [update_of_ne hmi, and_iff_right hmi]
  refine ⟨stored c i (emptyFile k), ?_, ⟨?_, ?_, ?_⟩, rfl, rfl⟩
  · rw [step, cacheInsert, hlookup, ok_bind, hevict]
    dsimp only
    rw [tableInsert, probeLoop_eq.2 hi]
    rfl
  · change c.currSize + 0 = 0
    rw [h.currSize, add_zero]
  · intro m name hm
    by_cases hmi : m = i
    · rw [hkeys, hmi, update_self, Option.some.injEq] at hm
      exact ⟨k, by omega, hm.symm⟩
    · rw [hkeys, update_of_ne hmi] at hm
      obtain ⟨j, hjk, hname⟩ := h.names m name hm
      exact ⟨j, by omega, hname⟩
  · rw [hfree, Finset.card_erase_of_mem hmem]
    have hcount := h.free
    have hcard := Finset.card_pos.2 ⟨i, hmem⟩
    change _ = c.tableSize
    omega

/-- files without a byte fill the table -/
theorem run_to_full (home : Key → ℕ) (tableSize : ℕ) {maxCacheSize : ℤ} (hmax : 0 ≤ maxCacheSize) :
    ∃ c, Run (step home) anyStep (cacheInit tableSize maxCacheSize) c ∧ c.tableSize = tableSize ∧ free c = ∅ := by
  have hrun : ∀ k ≤ tableSize, ∃ c, Run (step home) anyStep (cacheInit tableSize maxCacheSize) c ∧ Holds c k ∧
      c.maxSize = maxCacheSize ∧ c.tableSize = tableSize := by
    intro k hk
    induction k with
    | zero =>
      have hall : free (cacheInit tableSize maxCacheSize) = Finset.range tableSize := by
        ext i
        rw [mem_free, Finset.mem_range]
        exact and_iff_left rfl
      refine ⟨_, .refl _, ⟨rfl, ?_, ?_⟩, rfl, rfl⟩
      · intro i name hi
        cases hi
      · rw [hall, Finset.card_range]
        rfl
    | succ k ih =>
      obtain ⟨c, hrun, hold, hm, hsize⟩ := ih (by omega)
      obtain ⟨c', hstep, hold', hm', hsize'⟩ := insert_emptyFile home hold (by omega) (by omega)
      exact ⟨c', hrun.tail _ rfl hstep, hold', hm'.trans hm, hsize'.trans hsize⟩
  obtain ⟨c, hrun, hold, -, hsize⟩ := hrun tableSize le_rfl
  refine ⟨c, hrun, hsize, ?_⟩
  have hcount := hold.free
  rw [← Finset.card_eq_zero]
  omega

/-- the table of the source, full of files without a byte, in a cache of one byte: the lookup of another name never
ends -/
theorem full_table_hangs :
    ¬ ∀ c, Run (step djb2) anyStep (cacheInit sourceTableSize 1) c → Probes djb2 c := by
  intro hall
  obtain ⟨c, hrun, hsize, hfull⟩ := run_to_full djb2 sourceTableSize (show (0 : ℤ) ≤ 1 by decide)
  have hpos : 0 < c.tableSize := by rw [hsize]; decide
  obtain ⟨i, hi⟩ := (probes_iff hpos).1 (hall c hrun)
  rw [hfull] at hi
  exact Finset.notMem_empty i hi

end OsLab.Cache
