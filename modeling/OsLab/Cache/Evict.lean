/-
What evictions and insertions do to the table of the file cache, file by file.

An eviction removes only files nobody uses and frees only their data (`cacheEvict_evicted`); an insertion stores into an
empty slot (`cacheInsert_cases`), also when evictions have opened the probe chain of the new name.
-/
import Mathlib.Tactic
import OsLab.Lib.Run
import OsLab.Lib.Probe
import OsLab.Cache.Model
import OsLab.Cache.Map

namespace OsLab.Cache

open OsLab.Lib
open Function (update update_self update_of_ne)

/-- `c'` is `c` less some files that were not active, whose data were freed -/
structure Evicted (c c' : CacheStruct) : Prop where
  tableSize : c'.tableSize = c.tableSize
  table : ∀ i, c'.table i = c.table i ∨ (c'.table i = none ∧ ∃ f, c.table i = some f ∧ f.active = 0)
  freed : ∀ a ∈ c'.freed, a ∈ c.freed ∨ ∃ i f, c.table i = some f ∧ c'.table i = none ∧ a = f.data.addr

theorem Evicted.refl (c : CacheStruct) : Evicted c c := ⟨rfl, fun _ => .inl rfl, fun _ ha => .inl ha⟩

theorem Evicted.table_of_some {c c' : CacheStruct} (h : Evicted c c') {i : ℕ} {f : FileStruct}
    (hi : c'.table i = some f) :
    c.table i = some f := by
  rcases h.table i with heq | ⟨hnone, -⟩
  · rw [← heq]; exact hi
  · rw [hnone] at hi; cases hi

theorem Evicted.table_of_active {c c' : CacheStruct} (h : Evicted c c') {i : ℕ} {f : FileStruct}
    (hi : c.table i = some f) (hactive : f.active ≠ 0) : c'.table i = some f := by
  rcases h.table i with heq | ⟨-, g, hg, hzero⟩
  · rw [heq]; exact hi
  · rw [hi, Option.some.injEq] at hg
    rw [hg] at hactive; exact absurd hzero hactive

theorem Evicted.trans {c1 c2 c3 : CacheStruct} (h1 : Evicted c1 c2) (h2 : Evicted c2 c3) : Evicted c1 c3 where
  tableSize := h2.tableSize.trans h1.tableSize
  table i := by
    rcases h2.table i with heq | ⟨hnone, f, hf, hzero⟩
    · rw [heq]; exact h1.table i
    · exact .inr ⟨hnone, f, h1.table_of_some hf, hzero⟩
  freed a ha := by
    rcases h2.freed a ha with ha2 | ⟨i, f, hf, hnone, haddr⟩
    · rcases h1.freed a ha2 with ha1 | ⟨i, f, hf, hnone, haddr⟩
      · exact .inl ha1
      · refine .inr ⟨i, f, hf, ?_, haddr⟩
        cases hi : c3.table i with
        | none => rfl
        | some g => rw [h2.table_of_some hi] at hnone; cases hnone
    · exact .inr ⟨i, f, h1.table_of_some hf, hnone, haddr⟩

theorem evictAt_evicted (c : CacheStruct) (index : ℕ) : Evicted c (evictAt c index) := by
  unfold evictAt
  cases hi : c.table index with
  | none => exact Evicted.refl c
  | some file =>
    dsimp only
    split
    · next hzero =>
      refine ⟨rfl, fun j => ?_, fun a ha => ?_⟩
      · by_cases hj : j = index
        · subst hj
          exact .inr ⟨update_self .., file, hi, hzero⟩
        · exact .inl (update_of_ne hj ..)
      · rcases List.mem_append.1 ha with ha | ha
        · exact .inl ha
        · rw [List.mem_singleton] at ha
          exact .inr ⟨index, file, hi, update_self .., ha⟩
    · exact Evicted.refl c

theorem lruLoop_evicted (fileSize : ℤ) (queue : List ℕ) (c : CacheStruct) : Evicted c (lruLoop fileSize queue c) := by
  induction queue generalizing c with
  | nil => exact Evicted.refl c
  | cons index rest ih =>
    simp only [lruLoop]
    split
    · exact (evictAt_evicted c index).trans (ih _)
    · exact Evicted.refl c

theorem cacheEvict_evicted (c : CacheStruct) (fileSize : ℤ) : Evicted c (cacheEvict c fileSize).1 := by
  unfold cacheEvict
  split
  · exact Evicted.refl c
  · split
    · exact Evicted.refl c
    · split
      · exact Evicted.refl c
      · exact lruLoop_evicted fileSize c.queue c

section

variable {home : Key → ℕ} {c c' : CacheStruct} {k : Key} {j : ℕ}

theorem Evicted.keys_cases (h : Evicted c c') (i : ℕ) : keys c' i = keys c i ∨ keys c' i = none := by
  rcases h.table i with heq | ⟨hnone, -⟩
  · left; simp only [keys, heq]
  · right; simp only [keys, hnone, Option.map_none]

theorem find_pos {n : ℕ} {t : ℕ → Option Key} (h : find home n t k = some j) : 0 < n := by
  rcases Nat.eq_zero_or_pos n with rfl | hpos
  · simp [find, probe] at h
  · exact hpos

theorem cacheLookup_eq_none (h : cacheLookup home c k = .ok none) :
    ∃ i, find home c.tableSize (keys c) k = some i ∧ keys c i = none := by
  rw [cacheLookup, bind_eq_ok] at h
  obtain ⟨i, hi, hres⟩ := h
  rw [probeLoop_eq] at hi
  refine ⟨i, hi, ?_⟩
  rcases find_stops (find_pos hi) hi with hnone | hsome
  · exact hnone
  · obtain ⟨f, hf, hkey⟩ := keys_eq_some.1 hsome
    simp [hf, hkey] at hres

/-- after a miss, evictions do not bring the search to the missed name: it ends at an empty slot -/
theorem Evicted.insert_slot (h : Evicted c c') (hmiss : cacheLookup home c k = .ok none)
    (hj : probeLoop home c' k = .ok j) : c'.table j = none := by
  obtain ⟨i, hi, hempty⟩ := cacheLookup_eq_none hmiss
  have hpos := find_pos hi
  rw [probeLoop_eq, h.tableSize] at hj
  obtain ⟨d, hd, hdi, -, hbefore⟩ := (find_eq_some hpos).1 hi
  obtain ⟨e, he, hej, hstop, hbefore'⟩ := (find_eq_some hpos).1 hj
  by_contra hne
  -- the slot would have ended the first search too, and no later than the empty one
  have hkey : keys c' j = some k := by
    rcases hstop with hnone | hsome
    · simp only [keys, Option.map_eq_none_iff] at hnone; exact absurd hnone hne
    · exact hsome
  have hkeyc : keys c j = some k := by
    rcases h.keys_cases j with heq | hnone
    · rw [← heq]; exact hkey
    · rw [hnone] at hkey; cases hkey
  rcases lt_trichotomy e d with hlt | heq | hlt
  · exact hbefore e hlt (by rw [hej]; exact .inr hkeyc)
  · subst heq
    rw [← hej, hdi, hempty] at hkeyc; cases hkeyc
  · refine hbefore' d hlt ?_
    rw [hdi]
    left
    rcases h.keys_cases i with heq | hnone
    · rw [heq]; exact hempty
    · exact hnone

theorem cacheLookup_file {i : ℕ} (h : cacheLookup home c k = .ok (some i)) : ∃ f, c.table i = some f ∧ f.key = k :=
  keys_eq_some.1 (cacheLookup_eq_some.1 h).2

/-- what `table_insert` makes of the cache when its search ends at slot `i` -/
def stored (c : CacheStruct) (i : ℕ) (data : FileData) : CacheStruct :=
  lruAdd { c with table := update c.table i (some ⟨data.fileName, data, 0⟩), currSize := c.currSize + data.fileSize } i

/-- `cache_insert` finds the file; or it evicts, and then refuses the file or stores it -/
theorem cacheInsert_eq_ok {data : FileData} {r : Option ℕ} (h : cacheInsert home c data = .ok (c', r)) :
    (∃ i, r = some i ∧ c' = c ∧ cacheLookup home c data.fileName = .ok (some i)) ∨
      cacheLookup home c data.fileName = .ok none ∧
        ((r = none ∧ c' = (cacheEvict c data.fileSize).1 ∧ (cacheEvict c data.fileSize).2 = false) ∨
          ∃ i, r = some i ∧ c' = stored (cacheEvict c data.fileSize).1 i data ∧
            (cacheEvict c data.fileSize).2 = true ∧
            probeLoop home (cacheEvict c data.fileSize).1 data.fileName = .ok i) := by
  rw [cacheInsert, bind_eq_ok] at h
  obtain ⟨found, hlook, h⟩ := h
  cases found with
  | some i =>
    cases h
    exact .inl ⟨i, rfl, rfl, hlook⟩
  | none =>
    refine .inr ⟨hlook, ?_⟩
    cases hres : cacheEvict c data.fileSize with
    | mk c1 fits =>
      simp only [hres] at h
      cases fits with
      | false =>
        cases h
        exact .inl ⟨rfl, rfl, rfl⟩
      | true =>
        simp only [bind_eq_ok, pure_eq_ok, Except.ok.injEq, Prod.mk.injEq, Prod.exists, tableInsert] at h
        obtain ⟨c3, j, ⟨index, hprobe, rfl, rfl⟩, rfl, rfl⟩ := h
        exact .inr ⟨index, rfl, rfl, rfl, hprobe⟩

/-- what `cache_insert` does to the table -/
theorem cacheInsert_cases {data : FileData} {r : Option ℕ} (h : cacheInsert home c data = .ok (c', r)) :
    (∃ i f, r = some i ∧ c' = c ∧ c.table i = some f ∧ f.key = data.fileName) ∨
      ∃ c1, Evicted c c1 ∧
        ((r = none ∧ c' = c1) ∨
          ∃ i, r = some i ∧ c1.table i = none ∧ c'.table = update c1.table i (some ⟨data.fileName, data, 0⟩) ∧
            c'.freed = c1.freed ∧ c'.tableSize = c1.tableSize) := by
  have hev := cacheEvict_evicted c data.fileSize
  rcases cacheInsert_eq_ok h with ⟨i, rfl, rfl, hlook⟩ | ⟨hmiss, ⟨rfl, rfl, -⟩ | ⟨i, rfl, rfl, -, hprobe⟩⟩
  · obtain ⟨f, hf, hkey⟩ := cacheLookup_file hlook
    exact .inl ⟨i, f, rfl, rfl, hf, hkey⟩
  · exact .inr ⟨_, hev, .inl ⟨rfl, rfl⟩⟩
  · exact .inr ⟨_, hev, .inr ⟨i, rfl, hev.insert_slot hmiss hprobe, rfl, rfl, rfl⟩⟩

end

end OsLab.Cache
