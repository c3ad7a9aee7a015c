import Moxide.Seccomp.Syscall

/-! A filter pushed onto a chain only adds denials; the switch to strict mode clears the chain. -/

namespace Moxide.Seccomp

theorem actionToVerdict_eq_allow_iff (ret : UInt32) :
    actionToVerdict ret = .allow ↔ 6 ≤ seccompActionRank (ret &&& SECCOMP_RET_ACTION_FULL) := by
  unfold actionToVerdict seccompActionRank
  generalize ret &&& SECCOMP_RET_ACTION_FULL = action
  repeat' split
  all_goals simp_all [SECCOMP_RET_LOG, SECCOMP_RET_ALLOW, SECCOMP_RET_TRACE, SECCOMP_RET_USER_NOTIF]

def SeccompFilter.Allows (filter : SeccompFilter) (bytes : List UInt8) : Prop :=
  6 ≤ seccompActionRank (bpfRun filter.insns bytes &&& SECCOMP_RET_ACTION_FULL)

theorem worse_foldl (bytes : List UInt8) (filters : List SeccompFilter) : ∀ acc : UInt32 × Nat,
    acc.2 = seccompActionRank (acc.1 &&& SECCOMP_RET_ACTION_FULL) →
    (actionToVerdict (filters.foldl (worse bytes) acc).1 = .allow ↔ 6 ≤ acc.2 ∧ ∀ f ∈ filters, f.Allows bytes) := by
  induction filters with
  | nil =>
    intro acc hacc
    rw [actionToVerdict_eq_allow_iff, hacc]
    simp
  | cons f filters ih =>
    intro acc hacc
    have hnext : (worse bytes acc f).2 = seccompActionRank ((worse bytes acc f).1 &&& SECCOMP_RET_ACTION_FULL) := by
      unfold worse
      dsimp only
      split
      · rfl
      · exact hacc
    have hworse : 6 ≤ (worse bytes acc f).2 ↔ 6 ≤ acc.2 ∧ f.Allows bytes := by
      unfold worse SeccompFilter.Allows
      dsimp only
      split
      · exact ⟨fun h => ⟨by omega, h⟩, fun h => h.2⟩
      · exact ⟨fun h => ⟨h, by omega⟩, fun h => h.1⟩
    rw [List.foldl_cons, ih _ hnext, hworse, List.forall_mem_cons, and_assoc]

def callBytes (nr : UInt64) (args : Vector UInt64 6) (ip : UInt64) : List UInt8 :=
  (SeccompData.mk nr.toUInt32 AUDIT_ARCH_X86_64 ip args).asBytes

theorem FilterChain.check_strict {chain : FilterChain} (h : chain.strict) (nr : UInt64) (args : Vector UInt64 6)
    (ip : UInt64) : chain.check nr args ip = .allow ↔ nr ∈ STRICT_ALLOWLIST := by
  unfold FilterChain.check
  split <;> simp_all

theorem FilterChain.check_filters {chain : FilterChain} (h : chain.strict = false) (nr : UInt64) (args : Vector UInt64 6)
    (ip : UInt64) : chain.check nr args ip = .allow ↔ ∀ f ∈ chain.filters, f.Allows (callBytes nr args ip) := by
  unfold FilterChain.check
  rw [if_neg (by simp [h])]
  split
  · rename_i hnil
    rw [List.isEmpty_iff.mp hnil]
    simp
  · rw [worse_foldl _ _ _ rfl]
    simp only [List.mem_reverse]
    exact ⟨fun h => h.2, fun h => ⟨by decide, h⟩⟩

/-! ### The system call -/

namespace Sys

def Tightens (s t : Sys) : Prop := ∀ pid nr args ip, s.seccompCheck pid nr args ip ≠ .allow →
  t.seccompCheck pid nr args ip ≠ .allow

theorem tightens_modify_push (s : Sys) (pid : Nat) (filter : SeccompFilter) : s.Tightens (s.modify pid (push filter)) := by
  intro q nr args ip hdeny hallow
  apply hdeny
  unfold seccompCheck at hallow ⊢
  split
  · rfl
  rename_i hq
  rw [if_neg hq] at hallow
  by_cases hqp : q = pid
  · subst hqp
    simp only [modify, Function.update_self] at hallow
    cases hp : s.procs q with
    | none => rfl
    | some p =>
      simp only [hp, Option.map_some] at hallow
      cases hstrict : p.seccomp.strict with
      | true =>
        rw [FilterChain.check_strict hstrict]
        rwa [FilterChain.check_strict (show (push filter p.seccomp).strict = true from hstrict)] at hallow
      | false =>
        rw [FilterChain.check_filters hstrict]
        rw [FilterChain.check_filters (show (push filter p.seccomp).strict = false from hstrict)] at hallow
        exact fun f hf => hallow f (List.mem_append_left _ hf)
  · simpa only [modify, Function.update_of_ne hqp] using hallow

theorem Tightens.trans {s t u : Sys} (h : s.Tightens t) (h' : t.Tightens u) : s.Tightens u :=
  fun pid nr args ip hdeny => h' pid nr args ip (h pid nr args ip hdeny)

theorem tightens_pushThreads (filter : SeccompFilter) (pid : Nat) (tids : List Nat) :
    ∀ s : Sys, s.Tightens (pushThreads filter pid s tids) := by
  induction tids with
  | nil => exact fun s _ _ _ _ hdeny => hdeny
  | cons tid tids ih =>
    intro s
    change s.Tightens (pushThreads filter pid (if tid ≠ pid then s.modify tid (push filter) else s) tids)
    split
    · exact (tightens_modify_push s tid filter).trans (ih _)
    · exact ih s

theorem check_modify_strict (s : Sys) {pid : Nat} (hpid : pid ≠ 0) {p : Proc} (hp : s.procs pid = some p) (nr : UInt64)
    (args : Vector UInt64 6) (ip : UInt64) :
    (s.modify pid fun _ => ⟨[], true⟩).seccompCheck pid nr args ip = .allow ↔ nr ∈ STRICT_ALLOWLIST := by
  simp only [seccompCheck, if_neg hpid, modify, Function.update_self, hp, Option.map_some]
  exact FilterChain.check_strict rfl nr args ip

/-- The call is not the switch to strict mode, or the process is strict already, or no filter of it denies a call of the
    list of strict mode. -/
def KeepsDenials (s : Sys) (pid : Nat) (operation : UInt32) : Prop :=
  operation ≠ SECCOMP_SET_MODE_STRICT ∨ ∀ p, s.procs pid = some p → p.seccomp.strict = true ∨
    ∀ nr ∈ STRICT_ALLOWLIST, ∀ args ip, ∀ f ∈ p.seccomp.filters, f.Allows (callBytes nr args ip)

theorem tightens_strict_iff (s : Sys) {pid : Nat} (hpid : pid ≠ 0) {p : Proc} (hp : s.procs pid = some p) :
    s.Tightens (s.modify pid fun _ => ⟨[], true⟩) ↔ p.seccomp.strict ∨
      ∀ nr ∈ STRICT_ALLOWLIST, ∀ args ip, ∀ f ∈ p.seccomp.filters, f.Allows (callBytes nr args ip) := by
  have hbefore : ∀ nr args ip, s.seccompCheck pid nr args ip = p.seccomp.check nr args ip := by
    intro nr args ip
    simp only [seccompCheck, if_neg hpid, hp]
  constructor
  · intro h
    cases hstrict : p.seccomp.strict with
    | true => exact Or.inl rfl
    | false =>
      refine Or.inr fun nr hnr args ip => ?_
      rw [← FilterChain.check_filters hstrict, ← hbefore]
      by_contra hdeny
      exact h pid nr args ip hdeny ((check_modify_strict s hpid hp nr args ip).mpr hnr)
  · intro h q nr args ip hdeny hallow
    apply hdeny
    by_cases hqp : q = pid
    · subst hqp
      have hnr := (check_modify_strict s hpid hp nr args ip).mp hallow
      rw [hbefore]
      rcases h with hstrict | hfilters
      · exact (FilterChain.check_strict hstrict nr args ip).mpr hnr
      · cases hstrict : p.seccomp.strict with
        | true => exact (FilterChain.check_strict hstrict nr args ip).mpr hnr
        | false => exact (FilterChain.check_filters hstrict nr args ip).mpr (hfilters nr hnr args ip)
    · simpa only [seccompCheck, modify, Function.update_of_ne hqp] using hallow

/-- A successful call tightens exactly when it keeps the denials of the filters it clears. -/
theorem seccomp_tightens_iff (s t : Sys) (user : UInt64 → Nat → Option (List UInt8)) (eventfd : Int) (pid : Nat)
    (operation flags : UInt32) (argsVa : UInt64) (h : s.sysSeccomp user eventfd pid operation flags argsVa = (t, 0)) :
    s.Tightens t ↔ s.KeepsDenials pid operation := by
  have hrefl : s.Tightens s := fun _ _ _ _ hdeny => hdeny
  unfold sysSeccomp at h
  split at h
  · simp [EPERM] at h
  rename_i hpid
  split at h
  · simp [EPERM] at h
  rename_i hmay
  split at h
  · rename_i hop
    obtain ⟨p, hp⟩ : ∃ p, s.procs pid = some p := by
      rw [Decidable.not_not, mayInstall, Option.any_eq_true] at hmay
      obtain ⟨p, hp, -⟩ := hmay
      exact ⟨p, hp⟩
    split at h
    · simp [EINVAL] at h
    · cases h
      rw [tightens_strict_iff s hpid hp]
      simp [KeepsDenials, hop, hp]
  · rename_i hop
    have hkeeps : s.KeepsDenials pid operation := Or.inl hop
    refine iff_of_true ?_ hkeeps
    split at h
    · split at h
      · cases h
        exact hrefl
      split at h
      · cases h
        exact (tightens_modify_push s pid _).trans (tightens_pushThreads _ _ _ _)
      · cases h
        exact tightens_modify_push s pid _
    split at h
    · split at h
      · cases h
      · split at h <;> cases h
        exact hrefl
    · split at h <;> cases h
      exact hrefl

/-- One process that may install filters and has one, which answers every call with `EPERM`. -/
def denying : Sys where
  procs pid := if pid = 1 then some ⟨⟨[⟨[⟨BPF_RETK, 0, 0, SECCOMP_RET_ERRNO ||| 1⟩], false⟩], false⟩, false, true⟩ else none
  tgidOf pid := pid
  threadsOf tgid := [tgid]

/-- A `sock_fprog` with one instruction at 0x1000, and the instruction, which allows every call, at 0x2000. -/
def allowProgram (va : UInt64) (len : Nat) : Option (List UInt8) :=
  if va = 0x1000 ∧ len = 16 then some [1, 0, 0, 0, 0, 0, 0, 0, 0, 0x20, 0, 0, 0, 0, 0, 0]
  else if va = 0x2000 ∧ len = 8 then some [6, 0, 0, 0, 0, 0, 0xFF, 0x7F]
  else none

/-- A filter that allows everything, installed on top, tightens. -/
theorem seccomp_tightens_allow_on_top : denying.Tightens
    (denying.sysSeccomp allowProgram 0 1 SECCOMP_SET_MODE_FILTER SECCOMP_FILTER_FLAG_TSYNC 0x1000).1 := by
  refine (seccomp_tightens_iff denying _ allowProgram 0 1 SECCOMP_SET_MODE_FILTER SECCOMP_FILTER_FLAG_TSYNC 0x1000
    (Prod.ext rfl ?_)).mpr (Or.inl (by decide))
  decide +kernel

/-- The switch to strict mode allows a `read` that the filter denied. -/
theorem strict_allows_denied_read : denying.seccompCheck 1 SYS_READ (Vector.replicate 6 0) 0 = .errno 1 ∧
    (denying.sysSeccomp allowProgram 0 1 SECCOMP_SET_MODE_STRICT 0 0).2 = 0 ∧
    (denying.sysSeccomp allowProgram 0 1 SECCOMP_SET_MODE_STRICT 0 0).1.seccompCheck 1 SYS_READ
      (Vector.replicate 6 0) 0 = .allow := by
  refine ⟨?_, ?_, ?_⟩ <;> decide +kernel

end Sys

end Moxide.Seccomp
