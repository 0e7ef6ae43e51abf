/-
Which inodes a lookup can come to. Names of ramfs lead to inodes of ramfs that are there, and `/proc` to
its root, as long as ramfs and procfs are kept apart.
-/
import MiniOs.Proofs.Fs.NameiRun

namespace MiniOs.Fs.Vfs

open Library

variable {s s' : Vfs} {ra fa da : List Bool}

/-- The inode is not freed; one of ramfs is one that ramfs has allocated. -/
def isLive (s : Vfs) : InodeRef → Bool
  | .ramfs i => (s.fs.inodes i).isSome && !s.stale.contains i
  | .proc j => (s.procs j).isSome

/-- Lookups return inodes that are not freed, and entries of ramfs lead to such inodes of its own. -/
structure LooksLive (s : Vfs) : Prop where
  lookup : ∀ current path inode s', s.vfsLookup current path = (some inode, s') → s'.isLive inode = true
  entries : ∀ d rd n c, s.fs.inodes d = some rd → (n, c) ∈ rd.children → s.isLive (.ramfs c) = true

theorem Booted.looksLive (h : s.Booted) : s.LooksLive := by
  constructor
  · intro current path inode s' hlook
    obtain ⟨s0, h0, hg, he | ⟨r, he, hs⟩⟩ := h.inv.vfsLookup current path
    · rw [he] at hlook
      cases hlook
    · rw [he] at hlook
      cases hlook
      cases inode with
      | ramfs i =>
        have hlive : ∃ ri, s.fs.inodes i = some ri := by
          rcases hs with hroot | hfound
          · obtain ⟨ri, hi, -⟩ := h.proc i hroot
            exact ⟨ri, hi⟩
          · obtain ⟨ri, hi, -⟩ := h.inv.fs.live_of_found hfound
            exact ⟨ri, hi⟩
        obtain ⟨ri, hi⟩ := hlive
        have hcell : (s0.fs.iget i).inodes i = some { ri with iCount := ri.iCount + 1 } := by
          rw [hg.fs, Ramfs.iget, Ramfs.modify_of_live hi, Ramfs.set_self]
        have hstale : s0.stale = [] := hg.stale.trans h.stale
        show ((s0.fs.iget i).inodes i).isSome && !s0.stale.contains i
        rw [hcell, hstale]
        rfl
      | proc j =>
        obtain ⟨pi, hpi⟩ := hs
        simp [isLive, iget, hpi]
  · intro d rd n c hd hm
    obtain ⟨rc, hent⟩ := h.inv.fs.exists_entry (h.inv.fs.findChild_iff.2 ⟨rd, hd, hm⟩)
    simp [isLive, hent.live, h.stale]

/-- In every run that keeps ramfs and procfs apart, and in which ramfs has its memory, lookups find what is
there. -/
theorem run_looksLive (hra : ∀ ok ∈ ra, ok = true) {acts : List Act}
    (hrun : run stepApart (init ra fa da) acts = some s) : s.LooksLive :=
  (run_booted hra hrun).1.looksLive

/-- A directory of ramfs is made and removed while files of procfs are looked at and linked in vain. -/
def apart : List Act :=
  [.mkdirat 1 pathA 0o755, .stat 1 pathProcStat, .linkat 1 pathProcStat pathA, .rmdir 1 pathA, .stat 1 pathProc]

theorem run_looksLive_of_apart : ∃ s, run stepApart (init [true] [] []) apart = some s ∧ s.LooksLive ∧
    (s.vfsLookup 1 pathProc.bytes).1 = some (.ramfs 2) := by
  obtain ⟨s, hrun, h1⟩ : ∃ s, run stepApart (init [true] [] []) apart = some s ∧
      (s.vfsLookup 1 pathProc.bytes).1 = some (.ramfs 2) := ⟨_, rfl, by decide⟩
  exact ⟨s, hrun, run_looksLive (by decide) hrun, h1⟩

/-- `rmdir("/proc")` frees the directory that lookups of `/proc` go on to return, and
`link("/proc/1/stat", "/a")` leaves a name for an inode that the end of the call has freed. -/
theorem not_looksLive_of_crossing :
    (∃ s, run step (init [] [] []) [.rmdir 1 pathProc] = some s ∧
      (s.vfsLookup 1 pathProc.bytes).1 = some (.ramfs 2) ∧ s.fs.freed.map Prod.fst = [2] ∧ ¬ s.LooksLive) ∧
    ∃ s, run step (init [] [] []) [.linkat 1 pathProcStat pathA] = some s ∧
      (s.vfsLookup 1 pathA.bytes).1 = some (.ramfs 7) ∧ s.stale = [7] ∧ s.procs 0 = none ∧ ¬ s.LooksLive := by
  constructor
  · refine ⟨_, rfl, by decide, by decide, fun h => ?_⟩
    exact absurd (h.lookup 1 pathProc.bytes (.ramfs 2) _ rfl) (by decide)
  · refine ⟨_, rfl, by decide, by decide, by decide, fun h => ?_⟩
    exact absurd (h.lookup 1 pathA.bytes (.ramfs 7) _ rfl) (by decide)

end MiniOs.Fs.Vfs
