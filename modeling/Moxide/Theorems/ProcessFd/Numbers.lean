import Moxide.ProcessFd
import Moxide.Lib.Reach

/-! The numbers of pipes and of scheme descriptors are counted up from the same base. -/

namespace Moxide.ProcessFd
open Function (update update_apply update_eq_self_iff update_of_ne update_self)
open Lib List Option State

def SchemeFdEntry.wrapped : SchemeFdEntry → Option Nat
  | .pipe ringBfd fid => some (ringBfd + fid % 2)
  | .inotify _ | .other _ => none

namespace State
variable {s t : State}

/-! ### Scheme numbers -/

structure SchemeNumbers (s : State) : Prop where
  counter : FD_BASE ≤ s.schemeCounter
  live : ∀ b e, s.schemes b = some e → FD_BASE ≤ b ∧ b < s.schemeCounter
  free : ∀ b ∈ s.freeSchemeFds, FD_BASE ≤ b ∧ b < s.schemeCounter ∧ s.schemes b = none
  distinct : s.freeSchemeFds.Nodup

theorem schemeNumbers_new : State.new.SchemeNumbers :=
  ⟨le_refl _, fun _ _ h => (nomatch h), fun _ h => (nomatch h), .nil⟩

theorem SchemeNumbers.congr (h : s.SchemeNumbers) (hs : t.schemes = s.schemes) (hc : t.schemeCounter = s.schemeCounter)
    (hf : t.freeSchemeFds = s.freeSchemeFds) : t.SchemeNumbers := by
  refine ⟨hc ▸ h.counter, ?_, ?_, hf ▸ h.distinct⟩
  · rw [hs, hc]
    exact h.live
  · rw [hs, hc, hf]
    exact h.free

def newScheme (s : State) (e : SchemeFdEntry) : State :=
  s.allocSchemeBackingFd.1.schemeFdRegister s.allocSchemeBackingFd.2 e

theorem alloc_fields (s : State) : s.allocSchemeBackingFd.1.pipes = s.pipes ∧
    s.allocSchemeBackingFd.1.nextPipeFd = s.nextPipeFd ∧ s.allocSchemeBackingFd.1.schemes = s.schemes ∧
    s.allocSchemeBackingFd.1.procs = s.procs ∧ s.allocSchemeBackingFd.1.eventfds = s.eventfds ∧
    s.allocSchemeBackingFd.1.sockets = s.sockets ∧ s.allocSchemeBackingFd.1.rawFds = s.rawFds := by
  rw [allocSchemeBackingFd]
  split <;> exact ⟨rfl, rfl, rfl, rfl, rfl, rfl, rfl⟩

section
variable (e : SchemeFdEntry)

@[simp] theorem newScheme_pipes : (s.newScheme e).pipes = s.pipes := s.alloc_fields.1

@[simp] theorem newScheme_nextPipeFd : (s.newScheme e).nextPipeFd = s.nextPipeFd :=
  s.alloc_fields.2.1

theorem newScheme_schemes : (s.newScheme e).schemes = update s.schemes s.allocSchemeBackingFd.2 (some e) := by
  rw [newScheme, schemeFdRegister, s.alloc_fields.2.2.1]

end

theorem SchemeNumbers.alloc (h : s.SchemeNumbers) : s.schemes s.allocSchemeBackingFd.2 = none ∧
    (s.allocSchemeBackingFd.2 ∈ s.freeSchemeFds ∨ s.schemeCounter ≤ s.allocSchemeBackingFd.2) := by
  rw [allocSchemeBackingFd]
  split
  case h_1 fd rest hfree =>
    have hmem : fd ∈ s.freeSchemeFds := by rw [hfree]; exact mem_cons_self
    exact ⟨(h.free fd hmem).2.2, .inl hmem⟩
  case h_2 hfree =>
    refine ⟨?_, .inr le_rfl⟩
    cases hb : s.schemes s.schemeCounter with
    | none => rfl
    | some e => exact absurd (h.live _ e hb).2 (lt_irrefl _)

theorem newScheme_free_subset (e : SchemeFdEntry) : (s.newScheme e).freeSchemeFds ⊆ s.freeSchemeFds := by
  rw [newScheme, allocSchemeBackingFd]
  split
  case h_1 fd rest hfree =>
    rw [hfree]
    exact subset_cons_self fd rest
  case h_2 => exact fun _ h => h

theorem SchemeNumbers.newScheme (h : s.SchemeNumbers) (e : SchemeFdEntry) : (s.newScheme e).SchemeNumbers := by
  rw [State.newScheme, schemeFdRegister, allocSchemeBackingFd]
  split
  case h_1 fd rest hfree =>
    have hdist := hfree ▸ h.distinct
    have hfd := h.free fd (by rw [hfree]; exact mem_cons_self)
    refine ⟨h.counter, ?_, ?_, (nodup_cons.mp hdist).2⟩
    · intro b e' hb
      by_cases hbf : b = fd
      · subst hbf
        exact ⟨hfd.1, hfd.2.1⟩
      · simp only [update_of_ne hbf] at hb
        exact h.live b e' hb
    · intro b hb
      have hne : b ≠ fd := fun heq => (nodup_cons.mp hdist).1 (heq ▸ hb)
      simp only [update_of_ne hne]
      exact h.free b (by rw [hfree]; exact mem_cons_of_mem _ hb)
  case h_2 hfree =>
    have hcounter := h.counter
    refine ⟨by simp only; omega, ?_, fun b hb => absurd (hfree ▸ hb) (not_mem_nil), h.distinct⟩
    intro b e' hb
    by_cases hbc : b = s.schemeCounter
    · simp only
      omega
    simp only [update_of_ne hbc] at hb
    have := h.live b e' hb
    simp only
    omega

/-! ### What the calls do to the tables of numbers -/

theorem sysClosePipe_fields (s : State) (k : Nat) : (s.sysClosePipe k).pipes = update s.pipes k none ∧
    (s.sysClosePipe k).nextPipeFd = s.nextPipeFd ∧ (s.sysClosePipe k).schemes = s.schemes ∧
    (s.sysClosePipe k).schemeCounter = s.schemeCounter ∧ (s.sysClosePipe k).freeSchemeFds = s.freeSchemeFds := by
  rw [sysClosePipe]
  split
  case h_1 hnone => exact ⟨(update_eq_self_iff.mpr hnone.symm).symm, rfl, rfl, rfl, rfl⟩
  case h_2 => split <;> exact ⟨rfl, rfl, rfl, rfl, rfl⟩

theorem schemeClose_fields (s : State) (e : SchemeFdEntry) : (s.schemeClose e).schemes = s.schemes ∧
    (s.schemeClose e).schemeCounter = s.schemeCounter ∧ (s.schemeClose e).freeSchemeFds = s.freeSchemeFds := by
  cases e with
  | pipe ringBfd fid => exact (s.sysClosePipe_fields _).2.2
  | inotify | other => exact ⟨rfl, rfl, rfl⟩

variable {b k j : Nat} {e : SchemeFdEntry}

theorem some_of_dropScheme {c : Nat} (hc : update s.schemes b none c = some e) : s.schemes c = some e := by
  by_cases hcb : c = b
  · simp [hcb] at hc
  · simpa [hcb] using hc

theorem SchemeNumbers.dropScheme (h : s.SchemeNumbers) (b : Nat) :
    ({ s with schemes := update s.schemes b none }).SchemeNumbers := by
  refine ⟨h.counter, fun c e hc => h.live c e (some_of_dropScheme hc), ?_, h.distinct⟩
  intro c hc
  have hfree := h.free c hc
  refine ⟨hfree.1, hfree.2.1, ?_⟩
  simp only [update_apply, hfree.2.2, ite_self]

theorem SchemeNumbers.schemeFdClose (h : s.SchemeNumbers) (b : Nat) : (s.schemeFdClose b).SchemeNumbers := by
  rw [State.schemeFdClose]
  split
  case h_1 => exact h
  case h_2 e hlive =>
    obtain ⟨hs, hc, hf⟩ := schemeClose_fields { s with schemes := update s.schemes b none } e
    have hclosed := (h.dropScheme b).congr hs hc hf
    refine ⟨hclosed.counter, hclosed.live, ?_, ?_⟩
    · intro c hmem
      rcases mem_cons.mp hmem with rfl | hmem
      · have hbound := h.live _ e hlive
        refine ⟨hbound.1, ?_, ?_⟩
        · rw [hc]
          exact hbound.2
        · rw [hs]
          exact update_self ..
      · exact hclosed.free c hmem
    · refine nodup_cons.mpr ⟨?_, hclosed.distinct⟩
      intro hmem
      rw [hf] at hmem
      exact absurd (h.free b hmem).2.2 (by rw [hlive]; exact nofun)

structure SameNumbers (s t : State) : Prop where
  pipes : t.pipes = s.pipes
  nextPipeFd : t.nextPipeFd = s.nextPipeFd
  schemes : t.schemes = s.schemes
  schemeCounter : t.schemeCounter = s.schemeCounter
  freeSchemeFds : t.freeSchemeFds = s.freeSchemeFds

theorem SameNumbers.trans {u : State} (h : SameNumbers s t) (h' : SameNumbers t u) : SameNumbers s u :=
  ⟨h'.1.trans h.1, h'.2.trans h.2, h'.3.trans h.3, h'.4.trans h.4, h'.5.trans h.5⟩

theorem sameNumbers_setTable (pid : Nat) (t : FdTable) : SameNumbers s (s.setTable pid t) := ⟨rfl, rfl, rfl, rfl, rfl⟩

theorem sameNumbers_dupBacking (b : Nat) : SameNumbers s (s.dupBacking b).1 := by
  simp only [dupBacking, pipeDup, dupFrom]
  repeat' split
  all_goals exact ⟨rfl, rfl, rfl, rfl, rfl⟩

theorem sameNumbers_forkLoop (l : FdTable) : ∀ s : State, SameNumbers s (s.forkLoop l).1 := by
  induction l with
  | nil => exact fun s => ⟨rfl, rfl, rfl, rfl, rfl⟩
  | cons x l ih =>
    intro s
    simp only [forkLoop]
    split
    · exact ih s
    · exact (sameNumbers_dupBacking _).trans (ih _)

/-! ### The invariant of aligned runs -/

def nextSchemeFds (s : State) : Nat × Nat :=
  match s.freeSchemeFds with
  | a :: b :: _ => (a, b)
  | [a] => (a, s.schemeCounter)
  | [] => (s.schemeCounter, s.schemeCounter + 1)

def aligned (s : State) : Event → Bool
  | .pipe2 .. => s.nextSchemeFds = s.nextPipeFds
  | _ => true

/-- Live pipe ends are below the next pipe's, freed scheme numbers are no pipe ends, and a scheme number that is a pipe end
    stands for that end. -/
structure Aligned (s : State) : Prop extends s.SchemeNumbers where
  even : s.nextPipeFd % 2 = 0
  keys : ∀ k p, s.pipes k = some p → p % 2 = 0 ∧ k = p + k % 2 ∧ FD_BASE ≤ k ∧ k < FD_BASE + s.nextPipeFd
  below : FD_BASE + s.nextPipeFd ≤ s.schemeCounter
  freed : ∀ b ∈ s.freeSchemeFds, s.pipes b = none
  wraps : ∀ b e, s.schemes b = some e → s.pipes b ≠ none → e.wrapped = some b

theorem aligned_new : State.new.Aligned where
  toSchemeNumbers := schemeNumbers_new
  even := rfl
  keys := fun _ _ h => nomatch h
  below := le_refl _
  freed := fun _ h => nomatch h
  wraps := fun _ _ h => nomatch h

theorem Aligned.same (h : s.Aligned) (hst : SameNumbers s t) : t.Aligned := by
  obtain ⟨hp, hn, hs, hc, hf⟩ := hst
  refine ⟨h.toSchemeNumbers.congr hs hc hf, hn ▸ h.even, ?_, ?_, ?_, ?_⟩
  · rw [hp, hn]
    exact h.keys
  · rw [hn, hc]
    exact h.below
  · rw [hf, hp]
    exact h.freed
  · rw [hs, hp]
    exact h.wraps

theorem Aligned.sysClosePipe (h : s.Aligned) (k : Nat) : (s.sysClosePipe k).Aligned := by
  obtain ⟨hp, hn, hs, hc, hf⟩ := s.sysClosePipe_fields k
  have hsub : ∀ {b p}, (s.sysClosePipe k).pipes b = some p → s.pipes b = some p := by
    intro b p hb
    rw [hp] at hb
    by_cases hbk : b = k
    · rw [hbk, update_self] at hb
      exact nomatch hb
    · rwa [update_of_ne hbk] at hb
  refine ⟨h.toSchemeNumbers.congr hs hc hf, hn ▸ h.even, ?_, ?_, ?_, ?_⟩
  · intro b p hb
    rw [hn]
    exact h.keys b p (hsub hb)
  · rw [hn, hc]
    exact h.below
  · intro b hb
    rw [hf] at hb
    rw [eq_none_iff_forall_ne_some]
    intro p hbp
    exact absurd (h.freed b hb) (by rw [hsub hbp]; exact nofun)
  · intro b e hb hbp
    rw [hs] at hb
    obtain ⟨p, hbp⟩ := ne_none_iff_exists'.mp hbp
    exact h.wraps b e hb (by rw [hsub hbp]; exact nofun)

theorem Aligned.schemeClose (h : s.Aligned) (e : SchemeFdEntry) : (s.schemeClose e).Aligned := by
  cases e with
  | pipe ringBfd fid => exact h.sysClosePipe _
  | inotify fdno => exact h.same ⟨rfl, rfl, rfl, rfl, rfl⟩
  | other fid => exact h

theorem schemeClose_none (h : s.pipes b = none) (e : SchemeFdEntry) : (s.schemeClose e).pipes b = none := by
  cases e with
  | inotify | other => exact h
  | pipe ringBfd fid =>
    rw [schemeClose, (s.sysClosePipe_fields _).1, update_apply]
    split
    · rfl
    · exact h

section
variable (h : s.Aligned)
include h

theorem Aligned.dropScheme (b : Nat) : ({ s with schemes := update s.schemes b none }).Aligned :=
  ⟨h.toSchemeNumbers.dropScheme b, h.even, h.keys, h.below, h.freed,
    fun c e hc => h.wraps c e (some_of_dropScheme hc)⟩

theorem Aligned.schemeFdClose (hb : s.pipes b = none) : (s.schemeFdClose b).Aligned := by
  have hnumbers := h.toSchemeNumbers.schemeFdClose b
  rw [State.schemeFdClose] at hnumbers ⊢
  split at hnumbers
  case h_1 => exact h
  case h_2 e hlive =>
    have hclosed := (h.dropScheme b).schemeClose e
    refine ⟨hnumbers, hclosed.even, hclosed.keys, hclosed.below, ?_, hclosed.wraps⟩
    intro c hc
    rcases mem_cons.mp hc with rfl | hc
    · exact schemeClose_none (s := { s with schemes := update s.schemes c none }) hb e
    · exact hclosed.freed c hc

theorem Aligned.isPipe (b : Nat) : s.isPipe b = (s.pipes b).isSome := by
  rw [State.isPipe]
  cases hb : s.pipes b with
  | none => simp
  | some p => simp [(h.keys b p hb).2.2.1]

theorem Aligned.closeBacking (b : Nat) : (s.closeBacking b).Aligned := by
  rw [State.closeBacking, h.isPipe]
  split
  · exact h.same ⟨rfl, rfl, rfl, rfl, rfl⟩
  split
  · exact h.same ⟨rfl, rfl, rfl, rfl, rfl⟩
  split
  · exact h.sysClosePipe b
  case isFalse hnone =>
    split
    · exact h.same ⟨rfl, rfl, rfl, rfl, rfl⟩
    split
    · exact h.schemeFdClose (by simpa using hnone)
    · exact h.same ⟨rfl, rfl, rfl, rfl, rfl⟩

/-! ### The calls -/

theorem Aligned.procFdInstall (pid bfd : Nat) (path : Option String) (flags : UInt32)
    (preferred : Option Nat) : (s.procFdInstall pid bfd path flags preferred).1.Aligned :=
  h.same (sameNumbers_setTable _ _)

theorem Aligned.procFdClose (pid fd : Nat) : (s.procFdClose pid fd).1.Aligned := by
  rw [State.procFdClose]
  split
  · exact h
  split
  · exact h
  simp only
  split
  · exact (h.same (sameNumbers_setTable _ _)).closeBacking _
  · exact h.same (sameNumbers_setTable _ _)

theorem Aligned.procFdDup2 (pid oldFd newFd : Nat) : (s.procFdDup2 pid oldFd newFd).1.Aligned := by
  rw [State.procFdDup2]
  split
  · exact h
  split
  · exact h
  · exact ((h.same (sameNumbers_dupBacking _)).procFdClose pid newFd).same (sameNumbers_setTable _ _)

theorem Aligned.procFdFork (parentPid childPid : Nat) : (s.procFdFork parentPid childPid).Aligned := by
  rw [State.procFdFork]
  split
  · exact h
  · exact (h.same (sameNumbers_forkLoop _ s)).same (sameNumbers_setTable _ _)

end

theorem Aligned.execLoop (pid : Nat) (l : FdTable) : ∀ {s : State}, s.Aligned → (s.execLoop pid l).Aligned := by
  induction l with
  | nil => exact fun h => h
  | cons x l ih =>
    intro s h
    simp only [State.execLoop]
    split
    · exact ih (h.closeBacking _)
    · exact ih ((h.closeBacking _).same (sameNumbers_setTable _ _))

theorem Aligned.freeLoop (l : FdTable) : ∀ {s : State}, s.Aligned → (s.freeLoop l).Aligned := by
  induction l with
  | nil => exact fun h => h
  | cons x l ih => exact fun h => ih (h.closeBacking _)

theorem Aligned.newScheme (h : s.Aligned) (e : SchemeFdEntry) : (s.newScheme e).Aligned := by
  obtain ⟨hfresh, hnumber⟩ := h.toSchemeNumbers.alloc
  -- a number given out is not a live pipe end
  have hnone : s.pipes s.allocSchemeBackingFd.2 = none := by
    rcases hnumber with hfree | habove
    · exact h.freed _ hfree
    rw [eq_none_iff_forall_ne_some]
    intro p hp
    have := (h.keys _ p hp).2.2.2
    have := h.below
    omega
  refine ⟨h.toSchemeNumbers.newScheme e, ?_, ?_, ?_, ?_, ?_⟩
  · simpa using h.even
  · simpa using h.keys
  · have hbelow := h.below
    have : s.schemeCounter ≤ (s.newScheme e).schemeCounter := by
      rw [State.newScheme, allocSchemeBackingFd]
      split
      · exact le_refl _
      · exact Nat.le_succ _
    rw [newScheme_nextPipeFd]
    omega
  · intro b hb
    rw [newScheme_pipes]
    exact h.freed b (newScheme_free_subset _ hb)
  · intro b e' hb hbp
    rw [newScheme_pipes] at hbp
    rw [newScheme_schemes] at hb
    by_cases hba : b = s.allocSchemeBackingFd.2
    · exact absurd hnone (hba ▸ hbp)
    · rw [update_of_ne hba] at hb
      exact h.wraps b e' hb hbp

def withInotify (s : State) : State :=
  { s with
    inotifyCounter := s.inotifyCounter + 1
    inotify := update s.inotify (FD_BASE + s.inotifyCounter) true }

def withPipe (s : State) : State :=
  { s with
    nextPipeFd := s.nextPipeFd + 2
    pipes := update (update s.pipes s.nextPipeFds.1 (some s.nextPipeFds.1)) s.nextPipeFds.2 (some s.nextPipeFds.1)
    readOpen := update s.readOpen s.nextPipeFds.1 1
    writeOpen := update s.writeOpen s.nextPipeFds.1 1 }

theorem makePipe_eq (s : State) : s.makePipe =
    ((s.withPipe.newScheme (.pipe s.nextPipeFds.1 0)).newScheme (.pipe s.nextPipeFds.1 1), s.nextSchemeFds) := by
  rcases hfree : s.freeSchemeFds with _ | ⟨a, _ | ⟨b, rest⟩⟩ <;>
    simp only [makePipe, newScheme, withPipe, nextSchemeFds, allocSchemeBackingFd, schemeFdRegister, hfree]

theorem alloc_withPipe (s : State) : s.withPipe.allocSchemeBackingFd.2 = s.nextSchemeFds.1 ∧
    ∀ e, (s.withPipe.newScheme e).allocSchemeBackingFd.2 = s.nextSchemeFds.2 := by
  rcases hfree : s.freeSchemeFds with _ | ⟨a, _ | ⟨b, rest⟩⟩ <;>
    simp [newScheme, withPipe, nextSchemeFds, allocSchemeBackingFd, schemeFdRegister, hfree]

theorem Aligned.makePipe (h : s.Aligned) (hal : s.nextSchemeFds = s.nextPipeFds) : s.makePipe.1.Aligned := by
  obtain ⟨hread, hwrite⟩ := s.alloc_withPipe
  have hpipe : s.withPipe.SchemeNumbers := h.toSchemeNumbers.congr rfl rfl rfl
  have hnumbers := (hpipe.newScheme (.pipe s.nextPipeFds.1 0)).newScheme (.pipe s.nextPipeFds.1 1)
  have hschemes : ((s.withPipe.newScheme (.pipe s.nextPipeFds.1 0)).newScheme (.pipe s.nextPipeFds.1 1)).schemes =
      update (update s.schemes s.nextPipeFds.1 (some (.pipe s.nextPipeFds.1 0))) s.nextPipeFds.2
        (some (.pipe s.nextPipeFds.1 1)) := by
    rw [newScheme_schemes, newScheme_schemes, hwrite, hread, hal]
    rfl
  have hpipes : ((s.withPipe.newScheme (.pipe s.nextPipeFds.1 0)).newScheme (.pipe s.nextPipeFds.1 1)).pipes =
      update (update s.pipes s.nextPipeFds.1 (some s.nextPipeFds.1)) s.nextPipeFds.2 (some s.nextPipeFds.1) := by
    rw [newScheme_pipes, newScheme_pipes]
    rfl
  rw [makePipe_eq]
  simp only
  have heven := h.even
  refine ⟨hnumbers, ?_, ?_, ?_, ?_, ?_⟩
  · simp only [newScheme_nextPipeFd, withPipe]
    omega
  · intro k p hk
    simp only [newScheme_nextPipeFd, withPipe]
    rw [hpipes] at hk
    by_cases hkw : k = s.nextPipeFds.2
    · rw [hkw, update_self, some.injEq] at hk
      subst hk hkw
      simp only [nextPipeFds, FD_BASE]
      omega
    by_cases hkr : k = s.nextPipeFds.1
    · rw [update_of_ne hkw, hkr, update_self, some.injEq] at hk
      subst hk hkr
      simp only [nextPipeFds, FD_BASE]
      omega
    · rw [update_of_ne hkw, update_of_ne hkr] at hk
      have := h.keys k p hk
      omega
  · -- the write end's scheme number has been given out
    have hlive := hnumbers.live s.nextPipeFds.2 (.pipe s.nextPipeFds.1 1) (by rw [hschemes, update_self])
    simp only [newScheme_nextPipeFd, withPipe, nextPipeFds] at hlive ⊢
    omega
  · intro b hb
    have hfree := (hnumbers.free b hb).2.2
    rw [hschemes] at hfree
    have hbw : b ≠ s.nextPipeFds.2 := by
      rintro rfl
      rw [update_self] at hfree
      exact nomatch hfree
    rw [update_of_ne hbw] at hfree
    have hbr : b ≠ s.nextPipeFds.1 := by
      rintro rfl
      rw [update_self] at hfree
      exact nomatch hfree
    rw [hpipes, update_of_ne hbw, update_of_ne hbr]
    have hold : b ∈ s.withPipe.freeSchemeFds := newScheme_free_subset _ (newScheme_free_subset _ hb)
    exact h.freed b hold
  · intro b e hb hbp
    rw [hschemes] at hb
    rw [hpipes] at hbp
    by_cases hbw : b = s.nextPipeFds.2
    · rw [hbw, update_self, some.injEq] at hb
      rw [← hb, hbw]
      rfl
    by_cases hbr : b = s.nextPipeFds.1
    · rw [update_of_ne hbw, hbr, update_self, some.injEq] at hb
      rw [← hb, hbr]
      rfl
    · rw [update_of_ne hbw, update_of_ne hbr] at hb hbp
      exact h.wraps b e hb hbp

theorem Aligned.removeKey (h : s.Aligned) (k : Nat) : ({ s with pipes := update s.pipes k none }).Aligned := by
  obtain ⟨hp, hn, hs, hc, hf⟩ := s.sysClosePipe_fields k
  exact (h.sysClosePipe k).same ⟨hp.symm, hn.symm, hs.symm, hc.symm, hf.symm⟩

theorem schemeFdClose_none (h : s.pipes b = none) (c : Nat) : (s.schemeFdClose c).pipes b = none := by
  rw [schemeFdClose]
  split
  · exact h
  · exact schemeClose_none (s := { s with schemes := update s.schemes c none }) h _

theorem Aligned.sysPipe2 (h : s.Aligned) (hal : s.nextSchemeFds = s.nextPipeFds) (pid : Nat) (flags : UInt32)
    (soft : Nat) (valid copied : Bool) : (s.sysPipe2 pid flags soft valid copied).1.Aligned := by
  rw [State.sysPipe2]
  split
  · exact h
  split
  · exact h
  have hmade := h.makePipe hal
  have hread : s.makePipe.2 = s.nextPipeFds := by rw [makePipe_eq, ← hal]
  simp only [hread]
  split
  · -- over the limit: the ends are no longer pipes when their scheme numbers are freed
    have hgone := (hmade.removeKey s.nextPipeFds.1).removeKey s.nextPipeFds.2
    refine (hgone.schemeFdClose ?_).schemeFdClose (schemeFdClose_none ?_ _)
    · simp only [update_apply, if_true, ite_self]
    · simp only [update_self]
  · have hinst := (hmade.procFdInstall pid s.nextPipeFds.1 none (flags &&& O_CLOEXEC_FLAG) none).procFdInstall pid
      s.nextPipeFds.2 none (1 ||| flags &&& O_CLOEXEC_FLAG) none
    split
    · exact hinst
    · exact (hinst.procFdClose pid _).procFdClose pid _

theorem Aligned.step {e : Event} (h : s.Aligned) (hok : s.aligned e) (hs : s.step e = some t) : t.Aligned := by
  cases e <;> cases hs
  case eventfd pid flags preferred =>
    rw [newEventfd]
    split
    · exact h
    · apply Aligned.procFdInstall
      exact h.same ⟨rfl, rfl, rfl, rfl, rfl⟩
  case socket pid flags preferred =>
    rw [newSocket]
    split
    · exact h
    · apply Aligned.procFdInstall
      exact h.same ⟨rfl, rfl, rfl, rfl, rfl⟩
  case openScheme pid fid path flags preferred => exact (h.newScheme (.other fid)).procFdInstall ..
  case inotify pid flags =>
    have hmade : s.withInotify.Aligned := h.same ⟨rfl, rfl, rfl, rfl, rfl⟩
    exact (hmade.newScheme (.inotify (FD_BASE + s.inotifyCounter))).procFdInstall ..
  case pipe2 pid flags soft valid copied => exact h.sysPipe2 (by simpa [aligned] using hok) ..
  case dup2 pid oldFd newFd => exact h.procFdDup2 ..
  case close pid fd => exact h.procFdClose ..
  case fork parentPid childPid => exact h.procFdFork ..
  case exec pid =>
    rw [procFdCloseOnExec]
    split
    · exact h
    · exact h.execLoop pid _
  case free pid =>
    rw [procFdFree]
    split
    · exact h
    · apply Aligned.freeLoop
      exact h.same ⟨rfl, rfl, rfl, rfl, rfl⟩

/-! ### The dispatchers on scheme descriptors -/

def SameEnd (k : Nat) (s t : State) : Prop :=
  t.pipes k = s.pipes k ∧ ∀ p, s.pipes k = some p →
    if k % 2 = 0 then t.readOpen p = s.readOpen p else t.writeOpen p = s.writeOpen p

theorem sameEnd_of_eq (hp : t.pipes = s.pipes) (hr : t.readOpen = s.readOpen)
    (hw : t.writeOpen = s.writeOpen) : SameEnd k s t := by
  refine ⟨by rw [hp], fun p _ => ?_⟩
  rw [hr, hw]
  split <;> rfl

section
variable (h : s.Aligned)
include h

theorem Aligned.end_unique {p : Nat} (hj : s.pipes j = some p) (hk : s.pipes k = some p)
    (hside : j % 2 = k % 2) : j = k := by
  have := (h.keys j p hj).2.1
  have := (h.keys k p hk).2.1
  omega

theorem Aligned.sameEnd_pipeDup (hne : k ≠ j) : SameEnd k s (s.pipeDup j) := by
  rw [pipeDup]
  split
  · exact sameEnd_of_eq rfl rfl rfl
  split
  · exact sameEnd_of_eq rfl rfl rfl
  case h_2 p hj =>
    have hother : ∀ q, s.pipes k = some q → k % 2 = j % 2 → q ≠ p :=
      fun q hq hside hqp => hne (h.end_unique (hqp ▸ hq) hj hside)
    split
    case isTrue hside =>
      refine ⟨rfl, fun q hq => ?_⟩
      split
      case isTrue hk => exact update_of_ne (hother q hq (hk.trans hside.symm)) _ _
      case isFalse => rfl
    case isFalse hside =>
      refine ⟨rfl, fun q hq => ?_⟩
      split
      case isTrue => rfl
      case isFalse hk => exact update_of_ne (hother q hq (by omega)) _ _

theorem Aligned.sameEnd_sysClosePipe (hne : k ≠ j) : SameEnd k s (s.sysClosePipe j) := by
  refine ⟨by rw [(s.sysClosePipe_fields j).1, update_of_ne hne], fun q hq => ?_⟩
  cases hj : s.pipes j with
  | none => simp [State.sysClosePipe, hj]
  | some p =>
    have hother : k % 2 = j % 2 → q ≠ p := fun hside hqp => hne (h.end_unique (hqp ▸ hq) hj hside)
    by_cases hside : j % 2 = 0
    · simp only [State.sysClosePipe, hj, hside, if_true]
      split
      case isTrue hk => exact update_of_ne (hother (hk.trans hside.symm)) _ _
      case isFalse => trivial
    · simp only [State.sysClosePipe, hj, hside, if_false]
      split
      case isTrue => trivial
      case isFalse hk => exact update_of_ne (hother (by omega)) _ _

variable (hb : s.schemes b = some e) (hk : e.wrapped ≠ some k)
include hb hk

theorem Aligned.sameEnd_dupBacking : SameEnd k s (s.dupBacking b).1 := by
  rw [dupBacking, h.isPipe]
  split
  case isTrue hpipe =>
    have hwraps := h.wraps b e hb (by simpa [isSome_iff_ne_none] using hpipe)
    exact h.sameEnd_pipeDup (fun heq => hk (heq ▸ hwraps))
  case isFalse =>
    simp only [dupFrom]
    repeat' split
    all_goals exact sameEnd_of_eq rfl rfl rfl

theorem Aligned.sameEnd_closeBacking : SameEnd k s (s.closeBacking b) := by
  rw [State.closeBacking, h.isPipe]
  split
  · exact sameEnd_of_eq rfl rfl rfl
  split
  · exact sameEnd_of_eq rfl rfl rfl
  split
  case isTrue hpipe =>
    have hwraps := h.wraps b e hb (by simpa [isSome_iff_ne_none] using hpipe)
    exact h.sameEnd_sysClosePipe (fun heq => hk (heq ▸ hwraps))
  split
  · exact sameEnd_of_eq rfl rfl rfl
  rw [hb, isSome_some, State.schemeFdClose, hb]
  cases e with
  | inotify | other => exact sameEnd_of_eq rfl rfl rfl
  | pipe ringBfd fid =>
    exact (h.dropScheme b).sameEnd_sysClosePipe (j := ringBfd + fid % 2) (fun heq => hk (heq ▸ rfl))

end

/-- A scheme number that is a live pipe end stands for that end, and where `dup_backing` and `close_backing` are applied to a
    scheme number, every pipe end but the one it stands for stays as it is. -/
structure Unambiguous (s : State) : Prop where
  number : ∀ b e, s.schemes b = some e → s.pipes b ≠ none → e.wrapped = some b
  dup : ∀ b e k, s.schemes b = some e → e.wrapped ≠ some k → SameEnd k s (s.dupBacking b).1
  close : ∀ b e k, s.schemes b = some e → e.wrapped ≠ some k → SameEnd k s (s.closeBacking b)

/-- In every run in which each pipe is made where the next two scheme numbers are those of its ends, no scheme number is
    taken for an end of another pipe. -/
theorem numbers_unambiguous (s : State)
    (h : Reach (fun s e t => s.step e = some t) (fun s e => s.aligned e = true) State.new s) : s.Unambiguous := by
  have hal := h.invariant aligned_new fun _ _ _ hu hok hs => hu.step hok hs
  exact ⟨hal.wraps, fun _ _ _ => hal.sameEnd_dupBacking, fun _ _ _ => hal.sameEnd_closeBacking⟩

/-- Two pipes are made, and before the second a file of another scheme is opened and closed. -/
theorem numbers_unambiguous_two : ∃ s, Reach.run State.step State.aligned State.new
    [.pipe2 1 0 1024 true true, .openScheme 1 7 none 0 none, .close 1 5, .pipe2 1 0 1024 true true] = some s ∧
      s.schemes (FD_BASE + 3) = some (.pipe (FD_BASE + 2) 1) ∧ s.Unambiguous := by
  exact Reach.exists_run_and (by decide +kernel) fun s hs hscheme => ⟨hscheme, numbers_unambiguous s hs⟩

/-- A file of another scheme is opened and then a pipe is made: the file's number is the pipe's read end, and closing the
    file's descriptor closes the read end. -/
theorem close_hits_pipe : ∃ s t, Reach.run State.step (fun _ _ => true) State.new
    [.openScheme 1 7 none 0 none, .pipe2 1 0 1024 true true] = some s ∧ s.step (.close 1 3) = some t ∧
      s.schemes FD_BASE = some (.other 7) ∧ (s.pipes FD_BASE, s.readOpen FD_BASE) = (some FD_BASE, 1) ∧
      (t.pipes FD_BASE, t.readOpen FD_BASE) = (none, 0) := by
  have hrun : (Reach.run step (fun _ _ => true) new
      [.openScheme 1 7 none 0 none, .pipe2 1 0 1024 true true]).map (fun s => (s.schemes FD_BASE,
        (s.pipes FD_BASE, s.readOpen FD_BASE),
        ((s.procFdClose 1 3).1.pipes FD_BASE, (s.procFdClose 1 3).1.readOpen FD_BASE))) =
        some (some (.other 7), (some FD_BASE, 1), (none, 0)) := by decide +kernel
  obtain ⟨s, hs, hdata⟩ := map_eq_some_iff.mp hrun
  obtain ⟨hscheme, hends⟩ := Prod.mk.inj hdata
  obtain ⟨hread, hclosed⟩ := Prod.mk.inj hends
  exact ⟨s, _, hs, rfl, hscheme, hread, hclosed⟩

end State
end Moxide.ProcessFd
