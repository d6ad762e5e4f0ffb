/-
Runs of commands on a new file system.

Every run in which no write to a directory fails, and in which `indirect_allocated` reads as 0 where it was not set,
keeps the directory graph and with it the accounts of the blocks (`run_graph`). Three results on the data of the files:
- `blocks_accounted`: every block in use is in exactly one place of exactly one file, and the counters count;
- `file_is_byte_array`: what a write stores is what a read gives, except for a read that goes through a double indirect
  block which was taken by a failed write and lies behind the end of the device;
- `files_do_not_interfere`: a write to a file, or the freeing of its blocks, leaves every other file alone.
Where `indirect_allocated` reads as something else, a failed write frees an indirect block that is in use
(`blocks_lost`).
-/
import Mathlib.Tactic
import OsLab.Testfs.Read
import OsLab.Testfs.Mkfs

namespace OsLab.Testfs

open OsLab.Lib Function State

variable {s s' s'' t s0 s1 : State} {n m r d : ℤ} {i i' : Inode} {D : ℤ → List Dirent} {c : Cmd} {fsSizeMb : ℕ}
  {stack : ℕ → ℤ}

/-- no write to a directory fails -/
def dirsWritten (s : State) (c : Cmd) : Bool := after (step s c) fun s' => s'.dirFails.isEmpty

theorem step_eq_ok : step s c = .ok s' ↔ ∃ r, exec s c = .ok (r, s') := by
  unfold step
  rw [bind_eq_ok]
  constructor
  · rintro ⟨⟨r, t⟩, h, ht⟩
    cases ht
    exact ⟨r, h⟩
  · rintro ⟨r, h⟩
    exact ⟨(r, s'), h, rfl⟩

theorem dirFails_of_dirsWritten (hgood : dirsWritten s c = true) (hstep : step s c = .ok s') : s'.dirFails = [] := by
  obtain ⟨t, ht, hempty⟩ := exists_of_after hgood
  rw [hstep] at ht
  cases ht
  exact List.isEmpty_iff.1 hempty

theorem calm_of_nil (h : s'.dirFails = []) : Calm s s' :=
  ⟨fun x hx => by rw [h] at hx; exact absurd hx List.not_mem_nil, Or.inr h⟩

/-- a write to a directory that fails leaves its end where it was -/
def dirsWhole (s : State) (c : Cmd) : Bool := after (step s c) fun s' => s'.dirFails.all fun x => decide (x = 0)

theorem calm_of_whole (hgood : dirsWhole s c = true) (hstep : step s c = .ok s') (hz : ∀ j, s.stack j = 0) :
    Calm s s' := by
  refine ⟨fun x hx => ?_, Or.inl hz⟩
  obtain ⟨u, hu, hall⟩ := exists_of_after hgood
  rw [hstep] at hu
  cases hu
  exact of_decide_eq_true (List.all_eq_true.1 hall x hx)

theorem run_graph_of {good : State → Cmd → Bool} (hk : validSize fsSizeMb) (hstack : ∀ j, stack j = 0)
    (h0 : start fsSizeMb stack = .ok s0)
    (hgood : ∀ s c s', good s c = true → step s c = .ok s' → (∀ j, s.stack j = 0) → Calm s s')
    (hrun : Run step good s0 s) : (∃ D, Graph s D) ∧ ∀ j, s.stack j = 0 := by
  obtain ⟨hg, hst, -⟩ := start_graph hk h0
  refine hrun.inv (fun t => (∃ D, Graph t D) ∧ ∀ j, t.stack j = 0) ?_ ⟨⟨_, hg⟩, by rw [hst]; exact hstack⟩
  rintro t c t' ⟨⟨D, hg⟩, hz⟩ hstep hnext
  have hcalm : Calm t t' := hgood t c t' hstep hnext hz
  obtain ⟨r, hexec⟩ := step_eq_ok.1 hnext
  obtain ⟨hg', hst'⟩ := exec_graph hg hcalm (fun _ => hz) hexec
  exact ⟨hg', by rw [hst']; exact hz⟩

/-- **Every such run keeps the directory graph.** -/
theorem run_graph (hk : validSize fsSizeMb) (hstack : ∀ j, stack j = 0) (h0 : start fsSizeMb stack = .ok s0)
    (hrun : Run step dirsWritten s0 s) : (∃ D, Graph s D) ∧ ∀ j, s.stack j = 0 :=
  run_graph_of hk hstack h0 (fun _ _ _ hgood hstep _ => calm_of_nil (dirFails_of_dirsWritten hgood hstep)) hrun

/-- so does every run in which writes to directories may fail but not in the middle -/
theorem run_graph_whole (hk : validSize fsSizeMb) (hstack : ∀ j, stack j = 0) (h0 : start fsSizeMb stack = .ok s0)
    (hrun : Run step dirsWhole s0 s) : (∃ D, Graph s D) ∧ ∀ j, s.stack j = 0 :=
  run_graph_of hk hstack h0 (fun _ _ _ hgood hstep hz => calm_of_whole hgood hstep hz) hrun

/-! ## The accounts -/

/-- the blocks of the files, the block freemap and the counters agree -/
structure Accounted (s : State) : Prop where
  once : ∀ m m' σ σ', s.alloc m → s.alloc m' → s.tree m σ ≠ 0 → s.tree m σ = s.tree m' σ' → m = m' ∧ σ = σ'
  bits : ∀ b : ℕ, b ∈ s.blockFreemap.bits ↔
    ∃ m σ, s.alloc m ∧ s.tree m σ ≠ 0 ∧ s.tree m σ - s.sb.dataBlocksStart = b
  count : ∀ m, s.alloc m → (s.dinode m).blockCount = held (s.tree m)
  used : s.sb.usedBlockCount = s.blockFreemap.bits.card
  limit : s.sb.usedBlockCount ≤ s.sb.maxFsBlocks

theorem Sound.accounted (h : Sound s) : Accounted s where
  once := fun m m' σ σ' hm hm' h0 heq => h.core.acc.inj hm hm' h0 heq
  bits := fun b => by
    rw [h.core.geo.dataBlocksStart]
    constructor
    · intro hb
      have hbusy : s.busy (146 + b) := ⟨by omega, by simpa using hb⟩
      obtain ⟨⟨m, σ⟩, hq⟩ := h.core.acc.exact.owner (146 + b) ⟨hbusy, Finset.notMem_empty _⟩
      unfold State.ptr at hq
      split_ifs at hq with hm
      · refine ⟨m, σ, hm, ?_, ?_⟩ <;> simp only at hq <;> omega
      · omega
    · rintro ⟨m, σ, hm, hne, heq⟩
      have hbusy := (h.core.acc.busy_of_tree hm hne).1.2
      rw [show s.tree m σ - 146 = (b : ℤ) by exact_mod_cast heq] at hbusy
      simpa using hbusy
  count := fun m hm => by rw [(h.core.change m).acc.count_self hm, Finset.card_empty, Nat.cast_zero, add_zero]
  used := h.core.acc.used
  limit := h.core.acc.limit

/-- **Every block in use belongs to one place of one file.** -/
theorem blocks_accounted (hk : validSize fsSizeMb) (hstack : ∀ j, stack j = 0) (h0 : start fsSizeMb stack = .ok s0)
    (hrun : Run step dirsWritten s0 s) : Accounted s := by
  obtain ⟨⟨D, hg⟩, -⟩ := run_graph hk hstack h0 hrun
  exact hg.sound.accounted

/-- the file name `g` -/
def tokenG : Token := ⟨[103], by decide, by decide⟩

/-- a file with one byte -/
theorem blocks_accounted_of_write :
    ∃ s0 s, start 1 (fun _ => 0) = .ok s0 ∧ Run step dirsWritten s0 s ∧ s.sb.usedBlockCount = 2 ∧ Accounted s := by
  have h : after (start 1 fun _ => 0) (fun s0 => passes step dirsWritten (fun s => decide (s.sb.usedBlockCount = 2)) s0
      [.create tokenF, .write tokenF 0 tokenF]) = true := by decide +kernel
  obtain ⟨s0, h0, hpass⟩ := exists_of_after h
  obtain ⟨s, hrun, hs⟩ := run_of_passes _ hpass
  exact ⟨s0, s, h0, hrun, of_decide_eq_true hs, blocks_accounted ⟨le_rfl, by norm_num⟩ (fun _ => rfl) h0 hrun⟩

/-- the index of a direct block -/
def Slot.directNr : Slot → Fin 10
  | .direct k => k
  | _ => 0

/-- without indirect blocks there are at most ten blocks -/
theorem held_le_ten {blocks : ℤ → Lib.Mem} {d : Dinode} (hi : d.iIndirect = 0) (hd : d.iDindirect = 0) :
    held (Testfs.tree blocks d) ≤ 10 := by
  have hdirect : ∀ σ, Testfs.tree blocks d σ ≠ 0 → ∃ k, σ = .direct k := by
    intro σ hne
    cases σ with
    | direct k => exact ⟨k, rfl⟩
    | ind => exact absurd hi hne
    | dind => exact absurd hd hne
    | indE k => exact absurd (by simp only [Testfs.tree, hi, entryOf_zero]) hne
    | dindE k => exact absurd (by simp only [Testfs.tree, hd, entryOf_zero]) hne
    | leaf k j => exact absurd (by simp only [Testfs.tree, hd, entryOf_zero]) hne
  have hle : held (Testfs.tree blocks d) ≤ (Finset.univ : Finset (Fin 10)).card := by
    refine held_le_card Slot.directNr (fun σ _ => Finset.mem_univ _) fun σ τ hσ hτ heq => ?_
    obtain ⟨k, rfl⟩ := hdirect σ hσ
    obtain ⟨l, rfl⟩ := hdirect τ hτ
    exact congrArg Slot.direct heq
  rwa [Finset.card_univ, Fintype.card_fin] at hle

/-- a token of `n + 1` times the letter `x` -/
def fill (n : ℕ) : Token := ⟨List.replicate (n + 1) 120, by simp, by simp⟩

/-- `write` of such a token, with its length as a number -/
def fillStep (s : State) (name : List UInt8) (offset : Int64) (n : ℕ) : Except Stop State := do
  let (_, s) ← writeFile s name offset (bytes (fill n).chars) (n + 1)
  return s

theorem step_fill (s : State) (name : Token) (offset : Int64) (n : ℕ) :
    step s (.write name offset (fill n)) = fillStep s name.chars offset n := by
  have hlen : (fill n).chars.length = n + 1 := List.length_replicate
  unfold step fillStep exec cmdWrite
  dsimp only
  rw [hlen]

theorem run_step (hrun : Run step dirsWritten s0 s) (hstep : step s c = .ok s') (hf : s'.dirFails = []) :
    Run step dirsWritten s0 s' := by
  refine hrun.tail c ?_ hstep
  unfold dirsWritten
  rw [hstep]
  exact List.isEmpty_iff.2 hf

/-- On 128 blocks, the 127th of a file cannot be had. A stale 1 in `indirect_allocated` then frees the indirect block,
whose 116 entries stay in use. -/
theorem blocks_lost :
    ¬ ∀ (fsSizeMb : ℕ) (stack : ℕ → ℤ) (s0 s : State), validSize fsSizeMb → start fsSizeMb stack = .ok s0 →
      Run step dirsWritten s0 s → Accounted s := by
  intro hall
  have h : after (start 1 fun _ => 1) (fun s0 => after (step s0 (.create tokenF)) fun s1 =>
      decide (s1.dirFails = []) && after (fillStep s1 tokenF.chars 0 (126 * 8192)) fun s =>
        decide (s.dirFails = []) && (decide (s.alloc 1) && decide ((s.dinode 1).iIndirect = 0 ∧
          (s.dinode 1).iDindirect = 0 ∧ (s.dinode 1).blockCount = 126))) = true := by decide +kernel
  obtain ⟨s0, h0, h⟩ := exists_of_after h
  obtain ⟨s1, h1, h⟩ := exists_of_after h
  rw [Bool.and_eq_true, decide_eq_true_eq] at h
  obtain ⟨hf1, h⟩ := h
  obtain ⟨s, h2, h⟩ := exists_of_after h
  simp only [Bool.and_eq_true, decide_eq_true_eq] at h
  obtain ⟨hf, halloc, hind, hdind, hcount⟩ := h
  rw [← step_fill] at h2
  have hrun : Run step dirsWritten s0 s := run_step (run_step (.refl s0) h1 hf1) h2 hf
  have hacc := hall 1 _ s0 s ⟨le_rfl, by norm_num⟩ h0 hrun
  have hle : held (s.tree 1) ≤ 10 := held_le_ten hind hdind
  have heq := hacc.count 1 halloc
  omega

/-! ## Files as byte arrays -/

/-- an inode in use can be loaded -/
theorem Graph.loaded (hg : Graph s D) (hn : s.alloc n) (hget : getInode s n = .ok s1) :
    Graph s1 D ∧ s1.alloc n ∧ (∃ i, s1.find n = some i) ∧ s1.stack = s.stack := by
  obtain ⟨hsame, i, hi, -⟩ := hg.get hn s1 hget
  exact ⟨hg.same hsame, (hsame.alloc n).2 hn, ⟨i, hi⟩, hsame.stack⟩

/-- the bytes of a read are within reach: it is no empty one behind the last block there can be, and the double indirect
block, if it is needed, is on the device -/
def Readable (s : State) (n : ℤ) (start size : ℕ) : Prop :=
  (size = 0 → start ≠ maxBlockNr * 8192) ∧
    (2058 * 8192 < start + max (readLen s n start size) 1 → (s.dinode n).iDindirect < s.dev.nblocks)

theorem readable_iff {start size : ℕ} (hg : Graph s D) (hn : s.alloc n) (hstart : start < (s.dinode n).iSize)
    (hend : start + readLen s n start size ≤ maxBlockNr * 8192) :
    Readable s n start size ↔ ∀ b, Touched start (readLen s n start size) b → b < maxBlockNr ∧ Reach s n b := by
  have hzero : readLen s n start size = 0 ↔ size = 0 := by
    unfold readLen
    omega
  have hdind : s.tree n .dind = (s.dinode n).iDindirect := rfl
  have hnb := hg.sound.core.geo.nblocks
  unfold Readable Touched
  generalize readLen s n start size = len at *
  rw [maxBlockNr_eq] at *
  constructor
  · rintro ⟨hempty, hfar⟩ b ⟨-, hb⟩
    have hlt : b < 4196362 := by
      rcases Nat.eq_zero_or_pos len with h0 | hpos
      · have hne := hempty (hzero.1 h0)
        rw [h0] at hb
        omega
      · rw [Nat.max_eq_left hpos] at hb
        omega
    refine ⟨hlt, (reach_iff hg.sound.inside hn).2 fun hmem _ => ?_⟩
    rw [dind_mem_path (by rw [maxBlockNr_eq]; exact hlt)] at hmem
    rw [hdind]
    exact hfar (by omega)
  · intro hall
    have hlast := hall ((start + max len 1 - 1) / 8192) ⟨by omega, le_rfl⟩
    refine ⟨fun hsize hc => ?_, fun hfar => ?_⟩
    · rw [hzero.2 hsize, hc] at hlast
      exact absurd hlast.1 (by decide)
    · have hreach := (reach_iff hg.sound.inside hn).1 hlast.2
      rw [dind_mem_path (by rw [maxBlockNr_eq]; exact hlast.1), hdind] at hreach
      by_cases h0 : (s.dinode n).iDindirect = 0
      · omega
      · exact hreach (by omega) h0

/-- **A file is a byte array.** -/
theorem file_is_byte_array (hk : validSize fsSizeMb) (hstack : ∀ j, stack j = 0)
    (h0 : Testfs.start fsSizeMb stack = .ok s0) (hrun : Run step dirsWritten s0 s) (hn : s.alloc n)
    (hget : getInode s n = .ok s1) :
    (∀ (buf : Lib.Mem) (start : ℤ) (size : ℕ) (r : ℤ) (s2 : State), 0 ≤ start → 0 < size →
      start + size ≤ maxBlockNr * 8192 → size < 2 ^ 31 → writeData s1 n buf start size = .ok (r, s2) → 0 ≤ r →
        r = size ∧ (s2.dinode n).iSize = max (s1.dinode n).iSize (start + size) ∧
          ∀ o : ℕ, s2.content n o = if start ≤ o ∧ o < start + size then buf (o - start.toNat) else s1.content n o) ∧
    ∀ start size : ℕ, start < (s1.dinode n).iSize → size < 2 ^ 31 →
      start + readLen s1 n start size ≤ maxBlockNr * 8192 →
        (readData s1 (s1.dinode n) start size =
            .ok ((readLen s1 n start size : ℤ), slice (s1.content n) start (readLen s1 n start size)) ↔
          Readable s1 n start size) := by
  obtain ⟨⟨D, hg⟩, -⟩ := run_graph hk hstack h0 hrun
  obtain ⟨hg1, hn1, ⟨i, hi⟩, -⟩ := hg.loaded hn hget
  constructor
  · intro buf start size r s2 hstart hpos hend hsize hwrite hr
    rw [maxBlockNr_eq] at hend
    obtain ⟨-, hret, i', hstored⟩ := writeData_ok (hg1.sound.core.change n) hn1 hi hg1.sound.inside hpos hsize
      (by omega) hr hwrite
    refine ⟨hret, ?_, fun o => ?_⟩
    · rw [dinode_of_find hstored.grew.touch.new, dinode_of_find hi, hstored.size]
      push_cast
      rw [Int.toNat_of_nonneg hstart]
    · rw [hstored.content]
      unfold copy
      have hiff : (start.toNat ≤ o ∧ o < start.toNat + size) ↔ (start ≤ o ∧ o < start + size) := by omega
      simp only [hiff, Nat.zero_add]
  · intro start size hstart hsize hend
    rw [maxBlockNr_eq] at hend
    rw [readData_iff (hg1.pos hn1) (le_of_lt hstart) hsize (by omega)]
    exact (readable_iff hg1 hn1 hstart (by rw [maxBlockNr_eq]; exact hend)).symm

/-- two bytes over the end of the first block: written, and read with the byte in front of them -/
theorem file_is_byte_array_of_write :
    ∃ s0 s s1 s2 t t1, Testfs.start 1 (fun _ => 0) = .ok s0 ∧ Run step dirsWritten s0 s ∧ getInode s 1 = .ok s1 ∧
      writeData s1 1 (fun _ => 120) 8191 2 = .ok (2, s2) ∧ (s2.dinode 1).iSize = 8193 ∧
      (∀ o : ℕ, s2.content 1 o = if (8191 : ℤ) ≤ o ∧ (o : ℤ) < 8191 + (2 : ℕ) then 120 else s1.content 1 o) ∧
      Run step dirsWritten s0 t ∧ getInode t 1 = .ok t1 ∧ readLen t1 1 8190 5 = 3 ∧
      readData t1 (t1.dinode 1) 8190 5 = .ok ((readLen t1 1 8190 5 : ℤ),
      slice (t1.content 1) 8190 (readLen t1 1 8190 5)) := by
  have h : after (Testfs.start 1 fun _ => 0) (fun s0 =>
      passes step dirsWritten (fun s => decide (s.alloc 1) && after (getInode s 1) fun s1 =>
        decide ((s1.dinode 1).iSize = 0) && after (writeData s1 1 (fun _ => 120) 8191 2) fun q => decide (q.1 = 2)) s0
        [.create tokenF] &&
      passes step dirsWritten (fun t => decide (t.alloc 1) && after (getInode t 1) fun t1 =>
        decide ((t1.dinode 1).iSize = 8193)) s0 [.create tokenF, .write tokenF 8191 (fill 1)]) = true := by
    decide +kernel
  obtain ⟨s0, h0, hpass⟩ := exists_of_after h
  obtain ⟨hwrites, hreads⟩ := Bool.and_eq_true_iff.1 hpass
  -- the write
  obtain ⟨s, hrun, hs⟩ := run_of_passes _ hwrites
  rw [Bool.and_eq_true, decide_eq_true_eq] at hs
  obtain ⟨hn, hs⟩ := hs
  obtain ⟨s1, hget, hs⟩ := exists_of_after hs
  rw [Bool.and_eq_true, decide_eq_true_eq] at hs
  obtain ⟨hempty, hs⟩ := hs
  obtain ⟨⟨r, s2⟩, hwrite, hs⟩ := exists_of_after hs
  obtain rfl : r = 2 := of_decide_eq_true hs
  obtain ⟨-, hend, hcontent⟩ := (file_is_byte_array ⟨le_rfl, by norm_num⟩ (fun _ => rfl) h0 hrun hn hget).1
    (fun _ => 120) 8191 2 2 s2 (by norm_num) (by norm_num) (by rw [maxBlockNr_eq]; norm_num)
    (by norm_num) hwrite (by norm_num)
  -- the read
  obtain ⟨t, hrun', ht⟩ := run_of_passes _ hreads
  rw [Bool.and_eq_true, decide_eq_true_eq] at ht
  obtain ⟨hn', ht⟩ := ht
  obtain ⟨t1, hget', ht⟩ := exists_of_after ht
  have hsize : (t1.dinode 1).iSize = 8193 := of_decide_eq_true ht
  have hlen : readLen t1 1 8190 5 = 3 := by
    unfold readLen
    rw [hsize]
    rfl
  refine ⟨s0, s, s1, s2, t, t1, h0, hrun, hget, hwrite, by rw [hend, hempty]; norm_num, hcontent,
    hrun', hget', hlen, ?_⟩
  refine ((file_is_byte_array ⟨le_rfl, by norm_num⟩ (fun _ => rfl) h0 hrun' hn' hget').2 8190 5 ?_ ?_ ?_).2 ⟨?_, ?_⟩
  · rw [hsize]
    norm_num
  · norm_num
  · rw [hlen, maxBlockNr_eq]
    norm_num
  · intro hc
    exact absurd hc (by decide)
  · rw [hlen]
    intro hc
    exact absurd hc (by decide)

/-- A write far behind the end of a file takes the last block for the double indirect block and fails. The block was
never written. -/
theorem dindirect_unwritten :
    ∃ s0 s s1 i, Testfs.start 1 (fun _ => 0) = .ok s0 ∧ Run step dirsWritten s0 s ∧ s.alloc 1 ∧ getInode s 1 = .ok s1 ∧
      s1.find 1 = some i ∧ i.dinode.iSize = 16875520 ∧ s1.dev.nblocks ≤ i.dinode.iDindirect := by
  have h : after (Testfs.start 1 fun _ => 0) (fun s0 => after (step s0 (.create tokenF)) fun s1 =>
      decide (s1.dirFails = []) && after (fillStep s1 tokenF.chars 0 (125 * 8192 - 1)) fun s2 =>
        decide (s2.dirFails = []) && after (step s2 (.write tokenF 16875520 tokenF)) fun s3 =>
          decide (s3.dirFails = []) && (decide (s3.alloc 1) && after (getInode s3 1) fun s4 =>
            (s4.find 1).any fun i =>
              decide (i.dinode.iSize = 16875520 ∧ s4.dev.nblocks ≤ i.dinode.iDindirect))) = true := by
    decide +kernel
  obtain ⟨s0, h0, h⟩ := exists_of_after h
  obtain ⟨s1, h1, h⟩ := exists_of_after h
  rw [Bool.and_eq_true, decide_eq_true_eq] at h
  obtain ⟨hf1, h⟩ := h
  obtain ⟨s2, h2, h⟩ := exists_of_after h
  rw [Bool.and_eq_true, decide_eq_true_eq] at h
  obtain ⟨hf2, h⟩ := h
  obtain ⟨s3, h3, h⟩ := exists_of_after h
  simp only [Bool.and_eq_true, decide_eq_true_eq] at h
  obtain ⟨hf3, hn, h⟩ := h
  obtain ⟨s4, hget, h⟩ := exists_of_after h
  rw [Option.any_eq_true] at h
  obtain ⟨i, hi, h⟩ := h
  rw [← step_fill] at h2
  have hrun : Run step dirsWritten s0 s3 := run_step (run_step (run_step (.refl s0) h1 hf1) h2 hf2) h3 hf3
  exact ⟨s0, s3, s4, i, h0, hrun, hn, hget, hi, of_decide_eq_true h⟩

/-- reading through such a double indirect block runs into the end of the device -/
theorem read_ends_process :
    ¬ ∀ (fsSizeMb : ℕ) (stack : ℕ → ℤ) (s0 s s1 : State) (n : ℤ) (start size : ℕ), validSize fsSizeMb →
      (∀ j, stack j = 0) → Testfs.start fsSizeMb stack = .ok s0 → Run step dirsWritten s0 s → s.alloc n →
      getInode s n = .ok s1 → start < (s1.dinode n).iSize → size < 2 ^ 31 →
      start + readLen s1 n start size ≤ maxBlockNr * 8192 →
        readData s1 (s1.dinode n) start size =
          .ok ((readLen s1 n start size : ℤ), slice (s1.content n) start (readLen s1 n start size)) := by
  intro hall
  obtain ⟨s0, s, s1, i, h0, hrun, hn, hget, hi, hsize, hdind⟩ := dindirect_unwritten
  rw [← dinode_of_find hi] at hsize hdind
  have hlen : readLen s1 1 16859136 1 = 1 := by
    unfold readLen
    rw [hsize]
    rfl
  have hvalid : validSize 1 := ⟨le_rfl, by norm_num⟩
  have hread := hall 1 _ s0 s s1 1 16859136 1 hvalid (fun _ => rfl) h0 hrun hn hget (by rw [hsize]; norm_num)
    (by norm_num) (by rw [hlen, maxBlockNr_eq]; norm_num)
  obtain ⟨⟨D, hg⟩, -⟩ := run_graph hvalid (fun _ => rfl) h0 hrun
  obtain ⟨hg1, hn1, -, -⟩ := hg.loaded hn hget
  rw [readData_iff (hg1.pos hn1) (by rw [hsize]; norm_num) (by norm_num) (by rw [hlen]; norm_num),
    ← readable_iff hg1 hn1 (by rw [hsize]; norm_num) (by rw [hlen, maxBlockNr_eq]; norm_num)] at hread
  have hlt := hread.2 (by rw [hlen]; norm_num)
  omega

/-! ## Other files -/

/-- the files other than `n` are as they were, and only blocks that are none of theirs were written -/
structure Apart (s s' : State) (n : ℤ) : Prop where
  dinode : ∀ m, s.alloc m → m ≠ n → s'.dinode m = s.dinode m
  content : ∀ m, s.alloc m → m ≠ n → s'.content m = s.content m
  log : Logs (Own s n) s s'

theorem Grew.apart (h : Grew s s' n i i') (hm : Mem s) : Apart s s' n :=
  ⟨fun m ha hmn => h.touch.dinode_of_ne (hm.allocRange m ha) hmn, h.others, h.log⟩

/-- the inode itself may change -/
theorem Apart.modify {f : Inode → Inode} (h : Apart s t n) (hf : ∀ i, (f i).iNr = i.iNr) :
    Apart s (t.modify n f) n := by
  have hdinode : ∀ m, m ≠ n → (t.modify n f).dinode m = t.dinode m := by
    intro m hmn
    unfold State.dinode
    rw [find_modify hf, if_neg hmn]
    rfl
  refine ⟨fun m hm hmn => (hdinode m hmn).trans (h.dinode m hm hmn), fun m hm hmn => ?_, h.log⟩
  rw [← h.content m hm hmn]
  unfold State.content
  rw [hdinode m hmn]
  rfl

theorem Apart.growTo (h : Apart s t n) (fin : ℤ) : Apart s (growTo t n fin) n := h.modify fun _ => rfl

theorem writeData_apart {buf : Lib.Mem} {start : ℤ} {size : ℕ} (h : Core s n ∅) (hn : s.alloc n)
    (hi : s.find n = some i) (hins : Inside s fun _ => False) (hstack : ∀ j, s.stack j = 0)
    (hr : writeData s n buf start size = .ok (r, s')) :
    Apart s s' n := by
  obtain ⟨-, hend⟩ := writeData_spec h hn hi hins (fun _ _ => hstack) hr
  rcases hend with ⟨⟨s1, i1, hw, -, -, rfl⟩, -⟩ | ⟨s1, i1, hw, -, -, hend⟩
  · have h1 := hw.grew.apart h.mem
    split_ifs
    · exact (h1.growTo _).modify fun _ => rfl
    · exact h1.modify fun _ => rfl
  · rcases hend with ⟨-, -, rfl⟩ | ⟨-, -, s2, i2, hfail, rfl⟩
    · exact (hw.grew.apart h.mem).growTo _
    · have h2 := (hw.grew.trans (hfail.grew hw.grew.inside (hw.grew.touch.alloc.2 hn))).apart h.mem
      split_ifs
      · exact h2.growTo _
      · exact h2

theorem Freed.apart {S : Finset Slot} (h : Freed s s' n i i' S) (hs : Core s n ∅) (hn : s.alloc n) : Apart s s' n := by
  have hdinode : ∀ m, s.alloc m → m ≠ n → s'.dinode m = s.dinode m := by
    intro m hm hmn
    unfold State.dinode
    rw [h.others m hmn, h.frame.diskDinode (hs.mem.allocRange m hm)]
  refine ⟨hdinode, fun m hm hmn => ?_, h.log⟩
  have hkept : ∀ σ, s.tree m σ ≠ 0 → s'.dev.blocks (s.tree m σ) = s.dev.blocks (s.tree m σ) :=
    fun σ hσ => h.kept_other hs hn hm hmn hσ
  have htree : s'.tree m = s.tree m := by
    unfold State.tree
    rw [hdinode m hm hmn]
    exact tree_congr ⟨rfl, rfl, rfl⟩ fun σ _ hσ => hkept σ hσ
  exact content_eq_of_tree htree fun σ _ hσ => hkept σ hσ

/-- a block that no other file has belongs to the file or is free -/
theorem own_cases (h : Core s n ∅) {x : ℤ} (hx : Own s n x) :
    x = 0 ∨ (2 ≤ x ∧ x < 18) ∨ (146 ≤ x ∧ ((∃ σ, s.tree n σ = x) ∨ ¬s.busy x)) := by
  rcases hx with (h0 | hmap) | ⟨h146, hnone⟩
  · exact Or.inl h0
  · exact Or.inr (Or.inl hmap)
  · refine Or.inr (Or.inr ⟨h146, ?_⟩)
    by_cases hbusy : s.busy x
    · left
      obtain ⟨⟨m, σ⟩, hq⟩ := h.acc.exact.owner x ⟨hbusy, Finset.notMem_empty _⟩
      unfold State.ptr at hq
      split_ifs at hq with hm
      · by_cases hmn : m = n
        · exact ⟨σ, hmn ▸ hq⟩
        · exact absurd hq (hnone m σ hm hmn)
      · omega
    · exact Or.inr hbusy

/-- inode `m` is as it was; what was written is the super block, the block freemap, a block of file `n` or a free one -/
structure Undisturbed (s s' : State) (n m : ℤ) : Prop where
  dinode : s'.dinode m = s.dinode m
  content : s'.content m = s.content m
  log : ∃ l, s'.dev.log = l ++ s.dev.log ∧
    ∀ x ∈ l, x = 0 ∨ (2 ≤ x ∧ x < 18) ∨ (146 ≤ x ∧ ((∃ σ, s.tree n σ = x) ∨ ¬s.busy x))

theorem Apart.undisturbed (h : Apart s s' n) (hs : Core s n ∅) (hm : s.alloc m) (hmn : m ≠ n) :
    Undisturbed s s' n m := by
  obtain ⟨l, hl, hown⟩ := h.log
  exact ⟨h.dinode m hm hmn, h.content m hm hmn, l, hl, fun x hx => own_cases hs (hown x hx)⟩

/-- **Files do not interfere.** -/
theorem files_do_not_interfere {a b : ℤ} (hk : validSize fsSizeMb) (hstack : ∀ j, stack j = 0)
    (h0 : Testfs.start fsSizeMb stack = .ok s0) (hrun : Run step dirsWritten s0 s) (ha : s.alloc a) (hb : s.alloc b)
    (hab : a ≠ b) (hget : getInode s a = .ok s1) :
    (∀ (buf : Lib.Mem) (start : ℤ) (size : ℕ) (r : ℤ) (s2 : State), writeData s1 a buf start size = .ok (r, s2) →
      Undisturbed s1 s2 a b) ∧
    ∀ s2, freeBlocks s1 a = .ok s2 → Undisturbed s1 s2 a b := by
  obtain ⟨⟨D, hg⟩, hz⟩ := run_graph hk hstack h0 hrun
  obtain ⟨hg1, ha1, ⟨i, hi⟩, hst⟩ := hg.loaded ha hget
  have hb1 : s1.alloc b := ((hg.get ha s1 hget).1.alloc b).2 hb
  have hcore : Core s1 a ∅ := hg1.sound.core.change a
  constructor
  · intro buf start size r s2 hwrite
    have hapart := writeData_apart hcore ha1 hi hg1.sound.inside (by rw [hst]; exact hz) hwrite
    exact hapart.undisturbed hcore hb1 hab.symm
  · intro s2 hfree
    obtain ⟨i', S, hfreed, -⟩ := freeBlocks_spec hcore ha1 hi hfree
    exact (hfreed.apart hcore ha1).undisturbed hcore hb1 hab.symm

/-- a file with a byte beside a file that is written, and freed -/
theorem files_do_not_interfere_of_two :
    ∃ s0 s s1 s2 s3, Testfs.start 1 (fun _ => 0) = .ok s0 ∧ Run step dirsWritten s0 s ∧ getInode s 1 = .ok s1 ∧
      (s1.dinode 2).iSize = 1 ∧ s1.content 2 0 = 103 ∧
      writeData s1 1 (fun _ => 120) 0 5 = .ok (5, s2) ∧ Undisturbed s1 s2 1 2 ∧
      freeBlocks s1 1 = .ok s3 ∧ Undisturbed s1 s3 1 2 := by
  have h : after (Testfs.start 1 fun _ => 0) (fun s0 => passes step dirsWritten (fun s => decide (s.alloc 1) &&
      (decide (s.alloc 2) && after (getInode s 1) fun s1 => decide ((s1.dinode 2).iSize = 1 ∧ s1.content 2 0 = 103) &&
        (after (writeData s1 1 (fun _ => 120) 0 5) (fun q => decide (q.1 = 5)) &&
          after (freeBlocks s1 1) fun _ => true))) s0
      [.create tokenF, .create tokenG, .write tokenF 0 tokenF, .write tokenG 0 tokenG]) = true := by decide +kernel
  obtain ⟨s0, h0, hpass⟩ := exists_of_after h
  obtain ⟨s, hrun, hs⟩ := run_of_passes _ hpass
  simp only [Bool.and_eq_true, decide_eq_true_eq] at hs
  obtain ⟨h1, h2, hs⟩ := hs
  obtain ⟨s1, hget, hs⟩ := exists_of_after hs
  simp only [Bool.and_eq_true, decide_eq_true_eq] at hs
  obtain ⟨⟨hsize, hbyte⟩, hs, hfrees⟩ := hs
  obtain ⟨⟨r, s2⟩, hwrite, hs⟩ := exists_of_after hs
  obtain rfl : r = 5 := of_decide_eq_true hs
  obtain ⟨s3, hfree, -⟩ := exists_of_after hfrees
  obtain ⟨hwrites, hfreed⟩ := files_do_not_interfere ⟨le_rfl, by norm_num⟩ (fun _ => rfl) h0 hrun h1 h2 (by decide) hget
  exact ⟨s0, s, s1, s2, s3, h0, hrun, hget, hsize, hbyte, hwrite, hwrites _ _ _ _ s2 hwrite, hfree, hfreed s3 hfree⟩

end OsLab.Testfs
