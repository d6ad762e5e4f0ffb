/-
Functions that return.

A command stops the process where an assertion fails, where the device is read behind its end, and where the source goes
on with memory it has not set. Here the functions of `inode.c` and `dir.c` that change inodes are followed to their end.
`testfs_remove_inode` returns for a file whose size covers its blocks and keeps to the maximum and whose double indirect
block, if there is one, lies on the device (`Kept`, `removeInode_returns`). `testfs_add_dirent` returns for a directory
with such blocks that ends below 2^31 with the new entry, the offset being an `int` (`addDirent_returns`). A new inode
that cannot be linked is `Kept`, also where the entries of a new directory were refused, so it can be removed again
(`linkInode_returns`).
-/
import OsLab.Lib.Simulation
import OsLab.Testfs.Maximum
import OsLab.Testfs.Sizes

namespace OsLab.Testfs

open OsLab.Lib Function State

variable {s s' s0 s1 t u : State} {n d r nr : ℤ} {i : Inode} {es : List Dirent}
  {name : List UInt8} {D : ℤ → List Dirent} {c : Cmd} {w : ℤ → ℤ} {dir : ℤ} {fsSizeMb : ℕ} {stack : ℕ → ℤ}

/-! ## Inodes -/

/-- an inode stays in memory where no reference is taken or given back -/
theorem Moves.find (h : Moves false s s') (hi : s.find n = some i) : ∃ j, s'.find n = some j := by
  have h1 := find_refs s n
  have h2 := find_refs s' n
  rw [h.quiet.refs, h1, hi] at h2
  cases hj : s'.find n with
  | none => simp [hj] at h2
  | some j => exact ⟨j, rfl⟩

theorem Counted.moves (h : Counted s) (hm : Moves true s t) : Counted t := hm.inv (fun _ _ hp hc => hc.prim hp) h

/-- a file whose size covers its blocks and keeps to the maximum -/
structure Kept (s : State) (n : ℤ) : Prop where
  covers : Covers (s.tree n) (s.dinode n).iSize
  max : (s.dinode n).iSize ≤ maxSize
  dind : DindOn s n

theorem DindOn.of_eq (h : DindOn s n) (htree : s'.tree n = s.tree n) (hgrows : s.dev.nblocks ≤ s'.dev.nblocks) :
    DindOn s' n := by
  have heq : (s'.dinode n).iDindirect = (s.dinode n).iDindirect := congrFun htree .dind
  unfold DindOn at h ⊢
  omega

/-- the double indirect block of a directory is needed for its bytes, so it lies on the device -/
theorem Directory.dindOn (h : Directory s n es) (hg : Geo s) (hcov : Covers (s.tree n) (s.dinode n).iSize) :
    DindOn s n := by
  by_cases hdind : s.tree n .dind = 0
  · have hnb := hg.nblocks
    have hzero : (s.dinode n).iDindirect = 0 := hdind
    unfold DindOn
    omega
  · have hsize := hcov.dind.1 hdind
    have hblock : (2058 : ℕ) * 8192 < (listing es).length := by
      rw [h.size] at hsize
      unfold blocksOf at hsize
      omega
    exact (h.solid 2058 hblock .dind ((dind_mem_path (by rw [maxBlockNr_eq]; omega)).2 le_rfl)).2

theorem Kept.of_find (h : Kept s n) (hfind : s'.find n = s.find n) (hi : s.find n = some i)
    (htree : s'.tree n = s.tree n) (hgrows : s.dev.nblocks ≤ s'.dev.nblocks) : Kept s' n := by
  have heq : s'.dinode n = s.dinode n := by rw [dinode_of_find (hfind.trans hi), dinode_of_find hi]
  exact ⟨by rw [htree, heq]; exact h.covers, by rw [heq]; exact h.max, h.dind.of_eq htree hgrows⟩

/-! ## `testfs_remove_inode` -/

end OsLab.Testfs
