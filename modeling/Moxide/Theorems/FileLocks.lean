import Moxide.FileLocks

/-! Locks of different processes on the same bytes are read locks, after every section. -/

namespace Moxide.FileLocks
open Lib List

def Compatible (a b : LockEntry) : Prop :=
  a.pid ≠ b.pid → rangesOverlap a.start a.stop b.start b.stop = true → a.ltype = F_RDLCK ∧ b.ltype = F_RDLCK

def Exclusive (tbl : Table) : Prop := ∀ x ∈ tbl, x.2.Pairwise Compatible

variable {tbl : Table} {inode pid : Nat} {e new : LockEntry} {s : State}

instance : Std.Symm Compatible where
  symm a b h hne hover := by
    rw [rangesOverlap, Bool.and_comm] at hover
    exact (h hne.symm hover).symm

theorem compatible_of_not_conflicts (h : conflicts e new.pid new.ltype new.start new.stop = false) : Compatible e new := by
  intro hne hover
  rw [conflicts, if_neg hne, hover] at h
  by_contra hread
  simp [hread] at h

/-! ### Sections -/

section
variable (h : Exclusive tbl)
include h

theorem Exclusive.locks (inode : Nat) : (locks tbl inode).Pairwise Compatible := by
  rw [FileLocks.locks]
  cases hget : SortedMap.get tbl inode with
  | none => exact List.Pairwise.nil
  | some l => exact h _ (SortedMap.mem_of_get hget)

theorem Exclusive.insert {l : List LockEntry} (hl : l.Pairwise Compatible) : Exclusive (SortedMap.insert inode l tbl) := by
  intro x hx
  rcases SortedMap.mem_insert hx with rfl | hx
  · exact hl
  · exact h x hx

theorem Exclusive.retain (keep : LockEntry → Bool) : Exclusive (retain tbl inode keep) := by
  intro x hx
  obtain ⟨y, hy, rfl⟩ := mem_map.mp hx
  split_ifs
  · exact (h y hy).filter _
  · exact h y hy

theorem Exclusive.releaseAllLocks : Exclusive (releaseAllLocks tbl pid) := by
  intro x hx
  obtain ⟨y, hy, rfl⟩ := mem_map.mp hx
  exact (h y hy).filter _

theorem Exclusive.acquire (new : LockEntry) (old : LockEntry → Bool) (nb : Bool) :
    Exclusive (acquire tbl inode new old nb).1 := by
  rw [FileLocks.acquire]
  split_ifs with hblocked
  · exact h.insert (h.locks inode)
  · exact h.insert (h.locks inode)
  refine h.insert (pairwise_append.mpr ⟨(h.locks inode).filter _, pairwise_singleton _ _, ?_⟩)
  intro a ha b hb
  rw [mem_singleton.mp hb]
  refine compatible_of_not_conflicts (Bool.eq_false_iff.mpr fun hconf => hblocked ?_)
  exact any_eq_true.mpr ⟨a, (mem_filter.mp ha).1, hconf⟩

theorem Exclusive.flockEnter (operation : Int32) : Exclusive (flockEnter tbl pid inode operation).1 := by
  rw [FileLocks.flockEnter]
  split_ifs
  · exact h.retain _
  · exact h.retain _
  · exact h
  · exact h

theorem Exclusive.fcntlEnter (cmd : Int32) (fl : Flock) : Exclusive (fcntlEnter tbl pid inode cmd fl).1 := by
  rw [FileLocks.fcntlEnter]
  dsimp only
  split_ifs
  · exact h
  · exact h.retain _
  · exact h
  · exact h

theorem Exclusive.section (t : Thread) (soft : Nat) : Exclusive (t.section tbl soft).1 := by
  obtain ⟨pid, inode, call, point⟩ := t
  cases point with
  | enter =>
    cases call with
    | flock operation => exact h.flockEnter operation
    | fcntl cmd fl => exact h.fcntlEnter cmd fl
  | limit => exact h
  | acquire =>
    cases call with
    | flock operation => exact h.acquire _ _ _
    | fcntl cmd fl => exact h.acquire _ _ _
  | done rc out => exact h

end

theorem Exclusive.step (h : Exclusive s.tbl) (ev : Event) : Exclusive (s.step ev).tbl := by
  cases ev with
  | begin pid inode call => exact h
  | run i soft =>
    rw [State.step]
    cases s.threads[i]? with
    | none => exact h
    | some t => exact h.section t soft
  | releaseBsd pid inode => exact h.retain _
  | releaseAll pid => exact h.releaseAllLocks

/-- In every state of every run, two locks of different processes on overlapping ranges of an inode are read locks. -/
theorem locks_exclude (h : Reachable s) {a b : LockEntry} (ha : a ∈ locks s.tbl inode) (hb : b ∈ locks s.tbl inode)
    (hne : a.pid ≠ b.pid) (hover : a.start < b.stop ∧ b.start < a.stop) :
    a.ltype = F_RDLCK ∧ b.ltype = F_RDLCK := by
  have hinv : Exclusive s.tbl := by
    refine Reach.invariant (I := fun s => Exclusive s.tbl) ?_ ?_ h
    · intro x hx
      cases hx
    · rintro s ev t hs - rfl
      exact hs.step ev
  have hcompat : Compatible a b := (hinv.locks inode).forall ha hb fun heq => hne (congrArg LockEntry.pid heq)
  refine hcompat hne ?_
  rw [rangesOverlap, Bool.and_eq_true, decide_eq_true_iff, decide_eq_true_iff]
  exact hover

def sharedRun : List Event :=
  [.begin 1 7 (.flock LOCK_SH), .begin 2 7 (.fcntl F_SETLK ⟨F_RDLCK, 0, 0, 0, 0⟩), .run 0 RLIM_INFINITY, .run 1 4, .run 1 4,
    .run 0 RLIM_INFINITY, .run 1 4, .run 0 RLIM_INFINITY]

theorem reachable_foldl (evs : List Event) (h : Reachable s) : Reachable (evs.foldl State.step s) := by
  induction evs generalizing s with
  | nil => exact h
  | cons ev evs ih => exact ih (.step ev h trivial rfl)

theorem locks_exclude_shared : ∃ a ∈ locks (sharedRun.foldl State.step ⟨[], []⟩).tbl 7,
    ∃ b ∈ locks (sharedRun.foldl State.step ⟨[], []⟩).tbl 7, a.pid ≠ b.pid ∧ a.ltype = F_RDLCK ∧ b.ltype = F_RDLCK := by
  have hrun : Reachable (sharedRun.foldl State.step ⟨[], []⟩) := reachable_foldl _ .start
  have hone : (⟨1, F_RDLCK, 0, U64_MAX, true⟩ : LockEntry) ∈ locks (sharedRun.foldl State.step ⟨[], []⟩).tbl 7 := by decide
  have htwo : (⟨2, F_RDLCK, 0, U64_MAX, false⟩ : LockEntry) ∈ locks (sharedRun.foldl State.step ⟨[], []⟩).tbl 7 := by decide
  exact ⟨_, hone, _, htwo, by decide, locks_exclude hrun hone htwo (by decide) (by decide)⟩

end Moxide.FileLocks
