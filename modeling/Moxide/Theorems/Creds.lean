import Moxide.Creds

/-! A process without privileges gains no identity. -/

namespace Moxide.Creds
open Function (update)

structure Within (q p : Pcb) : Prop where
  ids : ∀ k, ∀ v ∈ (q.ids k).all, v ∈ (p.ids k).all
  supp : q.suppGroups = p.suppGroups

/-- What a call may return: fewer identities, or an error and the same process. -/
def Lawful (p : Pcb) (r : Pcb × Int) : Prop := Within r.1 p ∧ (r.2 ≠ 0 → r.1 = p)

def Shrinks (f : Bool → Ids → Option Ids) : Prop := ∀ p q, f false p = some q → ∀ v ∈ q.all, v ∈ p.all

theorem shrinks_set (id : UInt32) : Shrinks (Ids.set · id) := by
  intro p q (h : Ids.set false id p = some q)
  rw [Ids.set] at h
  grind [Ids.all]

theorem shrinks_setre (r e : UInt32) : Shrinks (Ids.setre · r e) := by
  intro p q (h : Ids.setre false r e p = some q)
  rw [Ids.setre] at h
  grind [Ids.all]

theorem shrinks_setres (r e s : UInt32) : Shrinks (Ids.setres · r e s) := by
  intro p q (h : Ids.setres false r e s p = some q)
  rw [Ids.setres] at h
  grind [Ids.all]

variable {p : Pcb}

theorem lawful_same (n : Int) : Lawful p (p, n) := ⟨⟨fun _ _ => id, rfl⟩, fun _ => rfl⟩

theorem lawful_change (h : p.privileged = false) (k : Kind) {f : Bool → Ids → Option Ids} (hf : Shrinks f) :
    Lawful p (p.change k f) := by
  rw [Pcb.change, h]
  cases hids : f false (p.ids k) with
  | none => exact lawful_same _
  | some ids =>
    refine ⟨⟨fun k' => ?_, rfl⟩, fun hne => absurd rfl hne⟩
    by_cases hk : k' = k
    · rw [hk]
      simpa using hf _ _ hids
    · simp [hk]

theorem lawful_call (h : 0 ∉ (p.ids .user).all) (c : Call) : Lawful p (p.call c) := by
  have hpriv : p.privileged = false := decide_eq_false fun h0 => h (by simp [Ids.all, h0])
  cases c with
  | sysSetuid uid => exact lawful_change hpriv _ (shrinks_set uid)
  | sysSetgid gid => exact lawful_change hpriv _ (shrinks_set gid)
  | sysSetreuid ruid euid => exact lawful_change hpriv _ (shrinks_setre ruid euid)
  | sysSetregid rgid egid => exact lawful_change hpriv _ (shrinks_setre rgid egid)
  | sysSetresuid ruid euid suid => exact lawful_change hpriv _ (shrinks_setres ruid euid suid)
  | sysSetresgid rgid egid sgid => exact lawful_change hpriv _ (shrinks_setres rgid egid sgid)
  | sysSetgroups size list =>
    simp only [Pcb.call, hpriv, Bool.not_false, if_true]
    split_ifs
    · exact lawful_same _
    · exact lawful_same _

/-- Every call of a sequence only takes identities away, and changes nothing if it fails. -/
theorem unprivileged_gains_nothing (hreal : (p.ids .user).real ≠ 0) (heffective : (p.ids .user).effective ≠ 0)
    (hsaved : (p.ids .user).saved ≠ 0) (cs : List Call) :
    Within (p.calls cs) p ∧ ∀ c, Lawful (p.calls cs) ((p.calls cs).call c) := by
  have hzero : 0 ∉ (p.ids .user).all := by simp [Ids.all, hreal.symm, heffective.symm, hsaved.symm]
  have hrun : Within (p.calls cs) p := by
    clear hreal heffective hsaved
    induction cs generalizing p with
    | nil => exact (lawful_same 0).1
    | cons c cs ih =>
      have hstep := (lawful_call hzero c).1
      have hrest := ih fun h0 => hzero (hstep.ids _ 0 h0)
      exact ⟨fun k v hv => hstep.ids k v (hrest.ids k v hv), hrest.supp.trans hstep.supp⟩
  exact ⟨hrun, lawful_call fun h0 => hzero (hrun.ids _ 0 h0)⟩

theorem unprivileged_gains_nothing_one :
    Within (Pcb.calls ⟨fun _ => ⟨1, 1, 2⟩, [5]⟩ [.sysSetuid 2, .sysSetuid 0]) ⟨fun _ => ⟨1, 1, 2⟩, [5]⟩ :=
  (unprivileged_gains_nothing (by decide) (by decide) (by decide) _).1

end Moxide.Creds
