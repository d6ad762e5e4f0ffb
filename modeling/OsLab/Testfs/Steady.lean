/-
Sessions that never stop.

`Steady` is what holds between two operations of a session: the device has the files of the specification
(`Testfs.Sessions`), their sizes cover their blocks (`Testfs.Sizes`) and keep to the maximum (`Testfs.Maximum`), and
both counters count. Then every command that passes the test `lasts` returns (`exec_returns`). The test is that of those
modules, and beyond it:
- the double indirect block of a file that is read, written or removed lies on the device: a write that took it may have
  found no second-level block, and has not written it then;
- a new entry of the current directory ends below 2^31.
In sessions of such commands no assertion fails and nothing is read behind the end of the device (`sessions_return`).
-/
import OsLab.Testfs.Sessions
import OsLab.Testfs.Total

namespace OsLab.Testfs

open OsLab.Lib Function State

variable {s s' s0 s1 t u v : State} {n r : ℤ} {i : Inode} {name : List UInt8} {D : ℤ → List Dirent} {c : Cmd} {o : Op}
  {w : ℤ → ℤ} {dir : ℤ} {fs : Fs} {fsSizeMb : ℕ} {stack : ℕ → ℤ} {l : List (Op × ℤ × List Print)}

/-! ## Between two operations -/

structure Steady (s : State) : Prop where
  files : ∃ fs, HasFiles s fs
  covered : Covered ∅ s
  small : Small s
  counted : Counted s

theorem Steady.resting (h : Steady s) : Resting s := by
  obtain ⟨fs, D, hbefore⟩ := h.files
  exact hbefore.resting

theorem Steady.curDir (h : Steady s) : ∃ i, s.find s.curDir = some i :=
  h.resting.rest.1.find (by rw [onlyDir, update_self])

/-- the end of a directory is below 2^32 -/
theorem Steady.size_le (h : Steady s) (hg : Graph s D) (hn : s.alloc n) :
    (s.dinode n).iSize ≤ maxSize ∧ (s.diskDinode n).iSize ≤ maxSize := by
  by_cases hdir : s.isDir n
  · have hsmall := (hg.directory hdir).small
    have hsize := (hg.directory hdir).size
    rw [← h.resting.dinode, hsize, maxSize_eq]
    omega
  · exact h.small n hn hdir

/-- a file that was not changed but for being read or written back -/
theorem Steady.kept (h : Steady s) (hg : Graph s D) (hn : s.alloc n) (hcarries : Carries s t n)
    (htree : t.tree n = s.tree n) (hgrows : s.dev.nblocks ≤ t.dev.nblocks) (hdind : DindOn s n) : Kept t n := by
  obtain ⟨hmem, hdisk⟩ := h.size_le hg hn
  obtain ⟨hmax, -⟩ := hcarries.keep (P := fun d => d.iSize ≤ maxSize) hmem hdisk
  exact ⟨(hcarries.covers htree (h.covered n hn (Set.notMem_empty n))).1, hmax, hdind.of_eq htree hgrows⟩

/-- the double indirect block of the file `name`, if there is one, lies on the device -/
def onDevice (s : State) (name : List UInt8) : Bool :=
  match dirNameToInodeNr s s.curDir name with
  | .ok n => decide (n < 0 ∨ DindOn s n)
  | .error _ => true

theorem Steady.dindOn (h : Steady s) (hg : Graph s D) (he : s.entry D s.curDir name n) (hon : onDevice s name = true) :
    DindOn s n := by
  obtain ⟨i, hi⟩ := h.curDir
  unfold onDevice at hon
  rw [hg.dirNameToInodeNr_found hi he] at hon
  exact (of_decide_eq_true hon).resolve_left (not_lt.2 (names_nonneg he.2))

/-- what follows a lookup in the current directory -/
theorem Steady.after_lookup {A : Type} {f : ℤ → Except Stop (ℤ × A)} {a : A} (h : Steady s) (hg : Graph s D)
    (hsome : ∀ m, s.entry D s.curDir name m → s.alloc m → Returns (f m)) :
    Returns (dirNameToInodeNr s s.curDir name >>= fun nr => if nr < 0 then pure (nr, a) else f nr) := by
  obtain ⟨i, hi⟩ := h.curDir
  have hlook := dirNameToInodeNr_ok (hg.directory hg.cur) (hg.pos hg.cur.1) hi name
  rw [hlook, ok_bind]
  refine Returns.ite (fun _ => Returns.ok _) fun h0 => ?_
  rcases hg.nameToInodeNr hg.cur _ hlook with ⟨he, -⟩ | ⟨hneg, -⟩
  · exact hsome _ he (hg.tree.target _ _ _ he)
  · exact absurd (by rw [hneg]; decide) h0

theorem Steady.get_ok (h : Steady s) (hg : Graph s D) (hn : s.alloc n) :
    ∃ t i, getInode s n = .ok t ∧ Taken s t n (onlyDir s.curDir) s.curDir ∧ t.find n = some i ∧ i.dinode = s.dinode n :=
  hg.get_ok h.resting.clean h.resting.rest hn

theorem Steady.walkable (h : Steady s) (hg : Graph s D) : Walkable s D :=
  hg.walkable h.resting.clean ⟨_, h.resting.rest.1, by rw [onlyDir, update_self]⟩

/-- a new entry of the current directory ends below 2^31 -/
def roomy (s : State) : Cmd → Bool
  | .create name => decide ((s.dinode s.curDir).iSize + name.chars.length + 9 < 2 ^ 31)
  | .mkdir name => decide ((s.dinode s.curDir).iSize + name.chars.length + 9 < 2 ^ 31)
  | _ => true

/-- the double indirect block that a command may need lies on the device -/
def reachable (s : State) : Cmd → Bool
  | .read name _ _ => onDevice s name.chars
  | .write name _ _ => onDevice s name.chars
  | .rm name => onDevice s name.chars
  | _ => true

/-- what the test is made of -/
structure Lasts (s : State) (c : Cmd) : Prop where
  mirrored : mirrored s c = true
  plain : plain c = true
  spanning : spanning s c = true
  admitted : writesAdmitted s c = true
  roomy : roomy s c = true
  reachable : reachable s c = true

theorem Lasts.untorn (h : Lasts s c) : untorn s c = true := by
  have hm := h.mirrored
  simp only [Testfs.mirrored, Bool.and_eq_true] at hm
  exact hm.1.2

theorem reopen_counted (hs : Sound s) (h : Counted s) (hr : reopen s = .ok v) : Counted v := by
  unfold reopen at hr
  obtain ⟨t, hput, hr⟩ := bind_eq_ok.1 hr
  obtain ⟨dev, hclose, hr⟩ := bind_eq_ok.1 hr
  obtain ⟨u, hinit, hget⟩ := bind_eq_ok.1 hr
  have hsame := putInode_same hs hput
  obtain ⟨-, hu, -, -⟩ := reopened_of_close hs hput hclose hinit
  have hcounted : Counted t := h.moves (putInode_moves s s.curDir t hput)
  have hbits := Bitmap.card_bits_le t.inodeFreemap
  rw [hsame.sound.core.geo.inodeBits] at hbits
  have hcounted' : Counted u := by
    refine ⟨hu.sound.core.metered, ?_⟩
    rw [hu.sb, hu.inodeBits]
    exact (Nat.mod_eq_of_lt (by rw [hcounted.inodes]; omega)).trans hcounted.inodes
  exact hcounted'.moves (getInode_moves u 0 v hget)

end OsLab.Testfs
