import Moxide.Seccomp

/-! `bpf_run` against the classic BPF machine. `unwrap_or(return ..)` leaves the function whatever the offset is. -/

namespace Moxide.Seccomp
open Lib.Cbpf List Option

/-- `insns` encodes the classic BPF program `prog`, with opcodes that `bpf_run` lists only. -/
def Encodes (insns : List SockFilter) (prog : List Insn) : Prop := insns.map SockFilter.decode = prog.map some

instance (insns : List SockFilter) (prog : List Insn) : Decidable (Encodes insns prog) :=
  inferInstanceAs (Decidable (insns.map SockFilter.decode = prog.map some))

def Regs.machine (r : Regs) : Machine := ⟨r.a, r.x, r.m⟩

def Regs.ofMachine (s : Machine) (pc : Nat) : Regs := ⟨s.a, s.x, s.m, pc⟩

@[simp] theorem Regs.machine_ofMachine (s : Machine) (pc : Nat) : (Regs.ofMachine s pc).machine = s := rfl
@[simp] theorem Regs.pc_ofMachine (s : Machine) (pc : Nat) : (Regs.ofMachine s pc).pc = pc := rfl

/-- The step `out` of the interpreter at `r` does what the machine's `o` says. A jump out of the program
    may already end the function. -/
def Follows (insns : List SockFilter) (r : Regs) (o : Outcome) (out : Except UInt32 Regs) : Prop :=
  match o with
  | .next s skip => out = .ok (.ofMachine s (r.pc + skip + 1)) ∨
      (insns.length ≤ r.pc + skip + 1 ∧ out = .error SECCOMP_RET_KILL_PROCESS)
  | .ret v => out = .error v
  | .abort => out = .error SECCOMP_RET_KILL_PROCESS

theorem neg_eq (a : UInt32) : ~~~a + 1 = 0 - a := by
  rw [UInt32.zero_sub, UInt32.neg_eq_not_add]

theorem code_of_toNat {c : UInt16} {n : Nat} (h : c.toNat = n) : c = UInt16.ofNat n := by
  rw [← h, UInt16.ofNat_toNat]

section Step
variable {insns : List SockFilter} {data : List UInt8} {r : Regs}

theorem follows_guarded {v q : UInt32} {s : Machine} {out : Except UInt32 Regs}
    (hout : out = if v = 0 then kill else .ok (.ofMachine { s with a := q } (r.pc + 1))) :
    Follows insns r (.ofOption (if v = 0 then none else some q) fun w => { s with a := w }) out := by
  by_cases hv : v = 0
  · rw [if_pos hv] at hout
    rw [if_pos hv]
    exact hout
  · rw [if_neg hv] at hout
    rw [if_neg hv]
    exact .inl hout

/-- One step of the interpreter: an access to the buffer or the scratch memory always kills; anything
    else follows the machine. -/
theorem bpfStep_follows {ins : SockFilter} {i : Insn} (h : ins.decode = some i) :
    (i.access → bpfStep insns data ins r = .error SECCOMP_RET_KILL_PROCESS) ∧
    (i.access = false → Follows insns r (exec data i r.machine) (bpfStep insns data ins r)) := by
  obtain ⟨code, jt, jf, k⟩ := ins
  unfold SockFilter.decode at h
  split at h <;> cases h <;> rename_i hc <;> cases code_of_toNat hc
  -- Most arms compute: they kill at once, go on after the register update, or return.
  all_goals first
    | exact ⟨fun _ => rfl, nofun⟩
    | exact ⟨nofun, fun _ => .inl rfl⟩
    | exact ⟨nofun, fun _ => rfl⟩
    | refine ⟨nofun, fun _ => ?_⟩
  -- What is left is the divisions, the negation and the unconditional jump, in the order of `decode`.
  · exact follows_guarded (v := k) (q := r.a / k) (s := r.machine) rfl
  · exact follows_guarded (v := r.x) (q := r.a / r.x) (s := r.machine) rfl
  · refine .inl ?_
    show Except.ok { r with a := ~~~r.a + 1, pc := r.pc + 1 } = _
    rw [neg_eq]
    rfl
  · exact follows_guarded (v := k) (q := r.a % k) (s := r.machine) rfl
  · exact follows_guarded (v := r.x) (q := r.a % r.x) (s := r.machine) rfl
  · show Follows insns r (.next r.machine k.toNat)
      (if insns.length ≤ r.pc + k.toNat + 1 then kill else .ok { r with pc := r.pc + k.toNat + 1 })
    split
    case isTrue hpc => exact .inr ⟨hpc, rfl⟩
    case isFalse => exact .inl rfl

end Step

section Run
variable {insns : List SockFilter} {prog : List Insn} {data : List UInt8}

variable {i : Insn} {rest : List Insn} {s : Machine}

theorem Encodes.length (henc : Encodes insns prog) : prog.length = insns.length := by
  simpa using (congrArg List.length henc).symm

theorem Encodes.fetch (henc : Encodes insns prog) {pc : Nat} {ins : SockFilter} (h : insns[pc]? = some ins) :
    ∃ i, ins.decode = some i ∧ prog.drop pc = i :: prog.drop (pc + 1) := by
  have hpc : (insns.map SockFilter.decode)[pc]? = (prog.map some)[pc]? := by rw [henc]
  rw [getElem?_map, getElem?_map, h, map_some] at hpc
  cases hi : prog[pc]? with
  | none => simp [hi] at hpc
  | some i =>
    rw [hi, map_some, some.injEq] at hpc
    obtain ⟨hlt, rfl⟩ := List.getElem?_eq_some_iff.mp hi
    exact ⟨_, hpc, drop_eq_getElem_cons hlt⟩

/-- What `bpfLoop` returns from a machine state: the machine's value, unless an access was executed. -/
def expected (data : List UInt8) (prog : List Insn) (s : Machine) : UInt32 :=
  if (executed data prog 0 s).any Insn.access then SECCOMP_RET_KILL_PROCESS
  else (run data prog 0 s).getD SECCOMP_RET_KILL_PROCESS

theorem expected_nil (s : Machine) : expected data [] s = SECCOMP_RET_KILL_PROCESS := rfl

theorem expected_access (ha : i.access) : expected data (i :: rest) s = SECCOMP_RET_KILL_PROCESS := by
  simp [expected, executed, ha]

theorem expected_next {s' : Machine} {skip : Nat} (ha : i.access = false)
    (h : exec data i s = .next s' skip) : expected data (i :: rest) s = expected data (rest.drop skip) s' := by
  unfold expected
  simp only [executed, run, h, any_cons, ha, Bool.false_or]
  rw [executed_skip, run_skip]

theorem expected_ret {v : UInt32} (ha : i.access = false) (h : exec data i s = .ret v) :
    expected data (i :: rest) s = v := by
  simp [expected, executed, run, h, ha]

theorem expected_abort (h : exec data i s = .abort) : expected data (i :: rest) s = SECCOMP_RET_KILL_PROCESS := by
  simp [expected, run, h]

theorem bpfLoop_eq (henc : Encodes insns prog) : ∀ (left : Nat) (r : Regs), insns.length ≤ r.pc + left →
    bpfLoop insns data left r = expected data (prog.drop r.pc) r.machine := by
  -- The induction is on the steps left; each step moves `pc` forward by at least one.
  intro left
  induction left with
  | zero =>
    intro r hr
    rw [drop_eq_nil_of_le (by rw [henc.length]; omega), expected_nil]
    rfl
  | succ left ih =>
    intro r hr
    unfold bpfLoop
    cases hf : insns[r.pc]? with
    | none =>
      have hlen := List.getElem?_eq_none_iff.mp hf
      rw [drop_eq_nil_of_le (by rw [henc.length]; exact hlen), expected_nil]
    | some ins =>
      obtain ⟨i, hi, hdrop⟩ := henc.fetch hf
      obtain ⟨hacc, hfol⟩ := @bpfStep_follows insns data r ins i hi
      rw [hdrop]
      dsimp only
      cases ha : i.access with
      | true => rw [expected_access ha, hacc ha]
      | false =>
        have hstep := hfol ha
        cases ho : exec data i r.machine with
        | next s skip =>
          rw [expected_next ha ho, drop_drop]
          have hpc : r.pc + 1 + skip = r.pc + skip + 1 := by omega
          rw [ho] at hstep
          rcases hstep with hok | ⟨hend, hkill⟩
          · rw [hok]
            show bpfLoop insns data left (.ofMachine s (r.pc + skip + 1)) = _
            rw [ih _ (by rw [Regs.pc_ofMachine]; omega), Regs.pc_ofMachine, Regs.machine_ofMachine, hpc]
          · rw [hkill, drop_eq_nil_of_le (by rw [henc.length]; omega), expected_nil]
        | ret v =>
          rw [ho] at hstep
          rw [expected_ret ha ho, show bpfStep insns data ins r = .error v from hstep]
        | abort =>
          rw [ho] at hstep
          rw [expected_abort ho, show bpfStep insns data ins r = .error SECCOMP_RET_KILL_PROCESS from hstep]

theorem bpfRun_eq (hlen : insns.length ≤ BPF_MAXINSNS) (henc : Encodes insns prog) :
    bpfRun insns data = expected data prog Machine.init := by
  have hmax : BPF_MAXINSNS ≤ BPF_MAX_STEPS := by decide
  unfold bpfRun
  rw [if_neg (by omega), bpfLoop_eq henc _ _ (by show insns.length ≤ 0 + BPF_MAX_STEPS; omega)]
  rfl

/-- `bpf_run` returns what classic BPF returns exactly when the run executes no load from the buffer and no
    access to the scratch memory, or ends in `SECCOMP_RET_KILL_PROCESS` anyway. -/
theorem bpfRun_eq_cbpf_iff (hlen : insns.length ≤ BPF_MAXINSNS) (henc : Encodes insns prog) :
    bpfRun insns data = (run data prog 0 Machine.init).getD SECCOMP_RET_KILL_PROCESS ↔
      (∀ i ∈ executed data prog 0 Machine.init, i.access = false) ∨
        (run data prog 0 Machine.init).getD SECCOMP_RET_KILL_PROCESS = SECCOMP_RET_KILL_PROCESS := by
  rw [bpfRun_eq hlen henc]
  unfold expected
  by_cases hacc : (executed data prog 0 Machine.init).any Insn.access = true
  · rw [if_pos hacc]
    have hnot : ¬ ∀ i ∈ executed data prog 0 Machine.init, i.access = false := by
      obtain ⟨i, hi, ha⟩ := List.any_eq_true.mp hacc
      intro hall
      rw [hall i hi] at ha
      cases ha
    constructor
    · intro hkill
      exact .inr hkill.symm
    · intro hor
      exact (hor.resolve_left hnot).symm
  · rw [if_neg hacc]
    refine ⟨fun _ => .inl fun i hi => ?_, fun _ => rfl⟩
    cases ha : i.access
    · rfl
    · exact absurd (List.any_eq_true.mpr ⟨i, hi, ha⟩) hacc

end Run

/-- A filter without loads: `A := 7; if A == 7 then return ALLOW else return KILL`. -/
theorem bpfRun_eq_cbpf_jeq :
    bpfRun [⟨0x00, 0, 0, 7⟩, ⟨0x15, 0, 1, 7⟩, ⟨0x06, 0, 0, 0x7fff0000⟩, ⟨0x06, 0, 0, 0⟩] [] =
      (run [] [.ldImm 7, .jmp .eq .k 7 0 1, .retK 0x7fff0000, .retK 0] 0 Machine.init).getD
        SECCOMP_RET_KILL_PROCESS :=
  (bpfRun_eq_cbpf_iff (by decide) (by decide : Encodes _ _)).mpr (.inl (by decide))

/-- The filter `A := syscall number; return ALLOW` on a zeroed `seccomp_data`: classic BPF allows, `bpf_run`
    kills the process. -/
theorem bpfRun_load_kills : Encodes [⟨0x20, 0, 0, 0⟩, ⟨0x06, 0, 0, 0x7fff0000⟩] [.ldAbs .word 0, .retK 0x7fff0000] ∧
    bpfRun [⟨0x20, 0, 0, 0⟩, ⟨0x06, 0, 0, 0x7fff0000⟩] (List.replicate 64 0) = SECCOMP_RET_KILL_PROCESS ∧
    run (List.replicate 64 0) [.ldAbs .word 0, .retK 0x7fff0000] 0 Machine.init = some 0x7fff0000 := by
  have henc : Encodes [⟨0x20, 0, 0, 0⟩, ⟨0x06, 0, 0, 0x7fff0000⟩] [.ldAbs .word 0, .retK 0x7fff0000] := by decide
  refine ⟨henc, ?_, by decide⟩
  rw [bpfRun_eq (by decide) henc, expected_access rfl]

end Moxide.Seccomp
