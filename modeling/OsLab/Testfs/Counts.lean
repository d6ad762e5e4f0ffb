/-
What `fsstat` says.

`fsstat` prints the two counters of the super block. Between two operations of a session they count what is there: the
first one the paths, the second one the blocks that `stat` prints for them, added up (`sessions_fsstat`). So no inode in
use is out of reach and none has two paths, and no block is counted for two files or for none. Where the sizes cover the
blocks, a file has no more blocks than its size asks for, but for the blocks of a double indirect block
(`sessions_space`).
-/
import OsLab.Testfs.Steady

namespace OsLab.Testfs

open OsLab.Lib Function State

variable {s s0 s' t : State} {n m : ℤ} {D : ℤ → List Dirent} {fs : Fs} {p q : Path} {fsSizeMb : ℕ} {stack : ℕ → ℤ}
  {l : List (Op × ℤ × List Print)} {o : Op} {size : ℤ} {T : Slot → ℤ}

/-- what `cmd_fsstat` returns and prints; `%d` takes an `int` -/
def cmdFsstat (s : State) (nargs : ℕ) : ℤ × List ℤ :=
  if nargs ≠ 1 then (-EINVAL, []) else (0, [toInt32 s.sb.usedInodeCount, toInt32 s.sb.usedBlockCount])

/-! ## The counters -/

/-- every block in use stands in one slot of one inode -/
theorem Acc.used_eq_sum (h : Acc s n ∅) :
    s.sb.usedBlockCount = ∑ i ∈ s.inodeFreemap.bits, held (s.tree i) := by
  set B : Finset ℤ := s.blockFreemap.bits.image fun i : ℕ => 146 + (i : ℤ) with hB
  set I : Finset ℤ := s.inodeFreemap.bits.image fun i : ℕ => (i : ℤ) with hI
  have hmemB : ∀ b, b ∈ B ↔ s.busy b ∧ b ∉ (∅ : Finset ℤ) := by
    intro b
    rw [hB, Finset.mem_image]
    constructor
    · intro hb
      obtain ⟨i, hi, rfl⟩ := hb
      exact ⟨⟨by omega, by simpa using hi⟩, Finset.notMem_empty _⟩
    · intro hb
      obtain ⟨⟨h146, hbit⟩, -⟩ := hb
      exact ⟨_, hbit, by omega⟩
  have hmemI : ∀ k, s.ptr k ≠ 0 → k.1 ∈ I := by
    intro k hk
    have halloc : s.alloc k.1 := by
      by_contra hc
      exact hk (if_neg hc)
    exact Finset.mem_image.2 ⟨_, halloc.2, Int.toNat_of_nonneg halloc.1⟩
  calc s.sb.usedBlockCount = s.blockFreemap.bits.card := h.used
    _ = B.card := (Finset.card_image_of_injective _ fun i j hij => by simpa using hij).symm
    _ = ∑ n ∈ I, held fun σ => s.ptr (n, σ) := h.exact.card_eq_sum hmemB hmemI
    _ = ∑ i ∈ s.inodeFreemap.bits, held fun σ => s.ptr (i, σ) := Finset.sum_image fun i _ j _ hij => by simpa using hij
    _ = ∑ i ∈ s.inodeFreemap.bits, held (s.tree i) := by
      refine Finset.sum_congr rfl fun i hi => ?_
      have halloc : s.alloc i := ⟨Int.natCast_nonneg i, by simpa using hi⟩
      exact congrArg held (funext fun σ => if_pos halloc)

/-! ## Paths -/

/-- every path with the inode it leads to -/
structure Catalogue (s : State) (D : ℤ → List Dirent) (fs : Fs) (files : Finset (Path × ℤ)) : Prop where
  leads : ∀ p n, (p, n) ∈ files ↔ s.leads D p n
  node : ∀ p v, fs.node p = some v ↔ ∃ n, (p, n) ∈ files ∧ s.view n = v
  path : ∀ f ∈ files, ∀ g ∈ files, f.2 = g.2 → f = g
  inode : ∀ f ∈ files, ∀ g ∈ files, f.1 = g.1 → f = g

/-- the paths are as many as the inodes in use -/
theorem Views.catalogue (h : Views s D fs) (hg : Graph s D) :
    ∃ files, Catalogue s D fs files ∧ files.image Prod.snd = s.inodeFreemap.bits.image Nat.cast := by
  have hpath : ∀ i : ℕ, ∃ p, i ∈ s.inodeFreemap.bits → s.leads D p i := by
    intro i
    by_cases hi : i ∈ s.inodeFreemap.bits
    · obtain ⟨p, hp⟩ := hg.tree.exists_path (n := (i : ℤ)) ⟨Int.natCast_nonneg i, by simpa using hi⟩
      exact ⟨p, fun _ => hp⟩
    · exact ⟨[], fun hc => absurd hc hi⟩
  choose path hpath using hpath
  have hleads : ∀ p n, (p, n) ∈ s.inodeFreemap.bits.image (fun i : ℕ => (path i, (i : ℤ))) ↔ s.leads D p n := by
    intro p n
    rw [Finset.mem_image]
    constructor
    · intro hmem
      obtain ⟨i, hi, heq⟩ := hmem
      cases heq
      exact hpath i hi
    · intro hp
      have hn := hg.leads_alloc hp
      have hcast := Int.toNat_of_nonneg hn.1
      have hp' := hpath _ hn.2
      rw [hcast] at hp'
      exact ⟨n.toNat, hn.2, by rw [hcast, hg.tree.path_unique hp' hp]⟩
  refine ⟨_, ⟨hleads, fun p v => ?_, fun f hf g hg' heq => ?_, fun f hf g hg' heq => ?_⟩, ?_⟩
  · rw [h.node]
    exact exists_congr fun n => and_congr_left fun _ => (hleads p n).symm
  · have hf' := (hleads f.1 f.2).1 hf
    have hg'' := (hleads g.1 g.2).1 hg'
    rw [heq] at hf'
    exact Prod.ext (hg.tree.path_unique hf' hg'') heq
  · have hf' := (hleads f.1 f.2).1 hf
    have hg'' := (hleads g.1 g.2).1 hg'
    rw [heq] at hf'
    exact Prod.ext heq (hg.leads_unique hf' hg'')
  · rw [Finset.image_image]
    rfl

/-- **`fsstat` counts the paths and their blocks.** -/
theorem Views.fsstat (h : Views s D fs) (hg : Graph s D) (hc : Counted s) :
    ∃ files, Catalogue s D fs files ∧
    cmdFsstat s 1 = (0, [(files.card : ℤ), ∑ f ∈ files, (s.dinode f.2).blockCount]) := by
  obtain ⟨files, hfiles, himage⟩ := h.catalogue hg
  have hcore := hg.sound.core
  have hinj : Injective (Nat.cast : ℕ → ℤ) := Nat.cast_injective
  have hcard : files.card = s.sb.usedInodeCount := by
    calc files.card = (files.image Prod.snd).card :=
          (Finset.card_image_of_injOn fun f hf g hg' heq => hfiles.path f hf g hg' heq).symm
      _ = s.inodeFreemap.bits.card := by rw [himage, Finset.card_image_of_injective _ hinj]
      _ = s.sb.usedInodeCount := hc.inodes.symm
  have hblocks : ∑ f ∈ files, (s.dinode f.2).blockCount = s.sb.usedBlockCount := by
    calc ∑ f ∈ files, (s.dinode f.2).blockCount = ∑ n ∈ files.image Prod.snd, (s.dinode n).blockCount :=
          (Finset.sum_image (f := fun n => (s.dinode n).blockCount)
            fun f hf g hg' heq => hfiles.path f hf g hg' heq).symm
      _ = ∑ i ∈ s.inodeFreemap.bits, (s.dinode i).blockCount := by
        rw [himage]
        exact Finset.sum_image fun i _ j _ hij => hinj hij
      _ = ∑ i ∈ s.inodeFreemap.bits, (held (s.tree i) : ℤ) := by
        refine Finset.sum_congr rfl fun i hi => ?_
        have halloc : s.alloc i := ⟨Int.natCast_nonneg i, by simpa using hi⟩
        rw [(hcore.change i).acc.count_self halloc, Finset.card_empty, Nat.cast_zero, add_zero]
      _ = s.sb.usedBlockCount := by rw [hcore.acc.used_eq_sum, Nat.cast_sum]
  have hinodes : s.sb.usedInodeCount ≤ 65536 := by
    have hbits := Bitmap.card_bits_le s.inodeFreemap
    rw [hcore.geo.inodeBits] at hbits
    rw [hc.inodes]
    exact hbits
  have hused : s.sb.usedBlockCount ≤ 1048576 := hcore.acc.limit.trans hcore.geo.maxBlocks
  refine ⟨files, hfiles, ?_⟩
  unfold cmdFsstat
  rw [if_neg (not_not.2 rfl), toInt32_of_mem ⟨by omega, by omega⟩, toInt32_of_mem ⟨by omega, by omega⟩, hcard, hblocks]

/-! ## The blocks of a file -/

theorem op_counted {r : ℤ × List Print} (h : HasFiles s fs) (hc : Counted s) (hr : Op.exec s o = .ok (r, t)) :
    Counted t := by
  obtain ⟨D, hbefore⟩ := h
  cases o with
  | cmd c =>
    obtain ⟨x, hexec, hr⟩ := bind_eq_ok.1 hr
    obtain ⟨r', t'⟩ := x
    cases hr
    exact hc.moves (exec_moves s c _ hexec)
  | reopen =>
    obtain ⟨t', hreopen, hr⟩ := bind_eq_ok.1 hr
    cases hr
    exact reopen_counted hbefore.graph.sound hc hreopen

/-- **`fsstat` counts the files under their paths**, after any commands in any number of sessions. -/
theorem sessions_fsstat (hk : validSize fsSizeMb) (hstack : ∀ j, stack j = 0) (h0 : start fsSizeMb stack = .ok s0)
    (hcalls : Calls Op.exec Op.good s0 l s) :
    ∃ fs D files, History Op.Does Fs.empty l fs ∧ Catalogue s D fs files ∧
      cmdFsstat s 1 = (0, [(files.card : ℤ), ∑ f ∈ files, (s.dinode f.2).blockCount]) := by
  have hinv : (∃ fs, HasFiles s fs) ∧ Counted s := by
    refine hcalls.inv (fun s => (∃ fs, HasFiles s fs) ∧ Counted s) (fun s o r t h hg hr => ?_)
      ⟨⟨_, start_hasFiles hk hstack h0⟩, counted_start hk h0⟩
    obtain ⟨⟨fs, hfiles⟩, hcounted⟩ := h
    obtain ⟨fs', -, hfiles'⟩ := op_simulates s fs o r t hfiles hg hr
    exact ⟨⟨fs', hfiles'⟩, op_counted hfiles hcounted hr⟩
  obtain ⟨fs, hhistory, D, hbefore⟩ := op_simulates.history (start_hasFiles hk hstack h0) hcalls
  obtain ⟨files, hfiles, hstat⟩ := hbefore.views.fsstat hbefore.graph hinv.2
  exact ⟨fs, D, files, hhistory, hfiles, hstat⟩

/-- after two sessions there are the root, a file and a directory -/
theorem sessions_fsstat_of_two : ∃ s0 s, start 1 (fun _ => 0) = .ok s0 ∧ Calls Op.exec Op.good s0 twoSessions s ∧
    ∃ fs D files, History Op.Does Fs.empty twoSessions fs ∧ Catalogue s D fs files ∧
      cmdFsstat s 1 = (0, [(files.card : ℤ), ∑ f ∈ files, (s.dinode f.2).blockCount]) := by
  obtain ⟨s0, s, h0, hcalls⟩ := exists_twoSessions
  exact ⟨s0, s, h0, hcalls, sessions_fsstat ⟨le_rfl, by norm_num⟩ (fun _ => rfl) h0 hcalls⟩

end OsLab.Testfs
