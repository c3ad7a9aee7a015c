import Moxide.SysvIpc

/-! Non-interference of IPC namespaces. Two states are alike for a namespace `B` if they differ only in objects created from
    `B`. -/

namespace Moxide.SysvIpc
open List State
open User (Mem)
open Function (update update_apply update_of_ne update_self)

/-! ### Two states -/

def State.Of (s : State) (B : NsId) (d : Int32) : Prop := ∃ name, s.byName B name = some d

def Separate (B : NsId) (s : State) : Prop := ∀ ns name d, ns ≠ B → s.byName ns name = some d → ¬ s.Of B d

def State.attachOut (s : State) (B : NsId) : List (Pid × Attach) := s.shmAttach.filter fun q => s.nsOf q.1 ≠ B

def State.attachIn (s : State) (B : NsId) : List (Pid × Attach) := s.shmAttach.filter fun q => s.nsOf q.1 = B

/-- The states differ only in what belongs to the namespace `B`. -/
structure Alike (B : NsId) (s t : State) : Prop where
  ipcNs : t.ipcNs = s.ipcNs
  nextVa : t.nextVa = s.nextVa
  mem : t.mem = s.mem
  msgNext : t.msgNext = s.msgNext
  semNext : t.semNext = s.semNext
  shmNext : t.shmNext = s.shmNext
  nextMqd : t.nextMqd = s.nextMqd
  msgq : ∀ ns, ns ≠ B → t.msgq ns = s.msgq ns
  sems : ∀ ns, ns ≠ B → t.sems ns = s.sems ns
  shms : ∀ ns, ns ≠ B → t.shms ns = s.shms ns
  byName : ∀ ns, ns ≠ B → t.byName ns = s.byName ns
  byMqd : ∀ d, ¬ s.Of B d → ¬ t.Of B d → t.byMqd d = s.byMqd d
  attach : t.attachOut B = s.attachOut B

/-- What belongs to `B` is as it was. -/
structure Untouched (B : NsId) (s s' : State) : Prop where
  ipcNs : s'.ipcNs = s.ipcNs
  msgq : s'.msgq B = s.msgq B
  sems : s'.sems B = s.sems B
  shms : s'.shms B = s.shms B
  byName : s'.byName B = s.byName B
  byMqd : ∀ d, s.Of B d → s'.byMqd d = s.byMqd d
  attach : s'.attachIn B = s.attachIn B

theorem Untouched.refl (B : NsId) (s : State) : Untouched B s s := ⟨rfl, rfl, rfl, rfl, rfl, fun _ _ => rfl, rfl⟩

variable {s' : State} {d mqd : Int32} {ns : NsId} {c : Call}

theorem of_congr {B : NsId} {s : State} (h : s'.byName B = s.byName B) : s'.Of B d ↔ s.Of B d := by
  rw [State.Of, h, ← State.Of]

theorem Untouched.of_iff {B : NsId} {s : State} (h : Untouched B s s') (d : Int32) : s'.Of B d ↔ s.Of B d :=
  of_congr h.byName

theorem Untouched.trans {B : NsId} {s s'' : State} (h : Untouched B s s') (h' : Untouched B s' s'') : Untouched B s s'' := by
  refine ⟨h'.ipcNs.trans h.ipcNs, h'.msgq.trans h.msgq, h'.sems.trans h.sems, h'.shms.trans h.shms,
    h'.byName.trans h.byName, fun d hd => ?_, h'.attach.trans h.attach⟩
  exact (h'.byMqd d ((h.of_iff d).mpr hd)).trans (h.byMqd d hd)

/-- A call names no descriptor of `B`, the next descriptor is none of `B`'s, and a region that is removed has not the id of
    one that a process of `B` has attached. -/
def State.Ok (s : State) (B : NsId) : Call → Prop
  | .mqSend mqdes _ _ _ => ¬ s.Of B mqdes
  | .mqReceive mqdes _ _ _ => ¬ s.Of B mqdes
  | .mqClose mqdes => ¬ s.Of B mqdes
  | .mqOpen _ _ _ => ¬ s.Of B s.nextMqd
  | .shmctl shmid cmd => cmd = IPC_RMID → ∀ q ∈ s.shmAttach, s.nsOf q.1 = B → q.2.shmid ≠ shmid
  | _ => True

def State.OkRun (s : State) (B : NsId) : List (Pid × Call) → Prop
  | [] => True
  | c :: cs => s.Ok B c.2 ∧ (s.call c.1 c.2).1.OkRun B cs

/-! ### One state -/

variable {B : NsId} {s t : State} {pid : Pid}

theorem update_other {α : Type} {f : NsId → α} {x : α} (h : ns ≠ B) : update f ns x B = f B :=
  update_of_ne h.symm _ _

theorem update_cases {f : NsId → List UInt8 → Option Int32} {ns' : NsId} {name name' : List UInt8} {x : Option Int32}
    (h : update f ns (update (f ns) name x) ns' name' = some d) : f ns' name' = some d ∨ x = some d := by
  by_cases hns : ns' = ns
  · subst hns
    rw [update_self] at h
    by_cases hname : name' = name
    · rw [hname, update_self] at h
      exact .inr h
    · rw [update_of_ne hname] at h
      exact .inl h
  · rw [update_of_ne hns] at h
    exact .inl h

theorem untouched_onMsgq (hns : s.nsOf pid ≠ B) (id : Int32) (f : Option MsgQueue → Mem → Option MsgQueue × Mem × Int) :
    Untouched B s (s.onMsgq pid id f).1 :=
  ⟨rfl, update_other hns, rfl, rfl, rfl, fun _ _ => rfl, rfl⟩

theorem untouched_onSems (hns : s.nsOf pid ≠ B) (id : Int32)
    (f : Option (List Int32) → Mem → Option (List Int32) × Mem × Int) : Untouched B s (s.onSems pid id f).1 :=
  ⟨rfl, rfl, update_other hns, rfl, rfl, fun _ _ => rfl, rfl⟩

theorem untouched_onMq (hd : ¬ s.Of B mqd) (f : Option PosixMq → Mem → Option PosixMq × Mem × Int) :
    Untouched B s (s.onMq pid mqd f).1 := by
  refine ⟨rfl, rfl, rfl, rfl, rfl, fun d hof => update_of_ne ?_ _ _, rfl⟩
  rintro rfl
  exact hd hof

section
variable (hns : s.nsOf pid ≠ B)
include hns

theorem untouched_msgget (msgflg : UInt32) : Untouched B s (s.sysMsgget pid msgflg).1 := by
  rw [sysMsgget]
  split_ifs
  · exact ⟨rfl, update_other hns, rfl, rfl, rfl, fun _ _ => rfl, rfl⟩
  · exact .refl B s

theorem untouched_semget (nsems : Int) (semflg : UInt32) : Untouched B s (s.sysSemget pid nsems semflg).1 := by
  rw [sysSemget]
  split_ifs
  · exact .refl B s
  · exact ⟨rfl, rfl, update_other hns, rfl, rfl, fun _ _ => rfl, rfl⟩
  · exact .refl B s

theorem untouched_shmget (size : Nat) (shmflg : UInt32) : Untouched B s (s.sysShmget pid size shmflg).1 := by
  rw [sysShmget]
  split_ifs
  · exact .refl B s
  · exact ⟨rfl, rfl, rfl, update_other hns, rfl, fun _ _ => rfl, rfl⟩
  · exact .refl B s

theorem attachIn_append (a : Attach) (va : Pid → Option Nat) :
    State.attachIn { s with nextVa := va, shmAttach := s.shmAttach ++ [(pid, a)] } B = s.attachIn B := by
  have hnil : [(pid, a)].filter (fun q => decide (s.nsOf q.1 = B)) = [] := by simp [hns]
  change (s.shmAttach ++ [(pid, a)]).filter (fun q => decide (s.nsOf q.1 = B)) = _
  rw [filter_append, hnil, append_nil]
  rfl

theorem untouched_shmat (shmid : Int32) (shmaddr : Nat) (shmflg : UInt32) :
    Untouched B s (s.sysShmat pid shmid shmaddr shmflg).1 := by
  rw [sysShmat]
  cases s.shms (s.nsOf pid) shmid with
  | none => exact .refl B s
  | some region =>
    dsimp only
    split_ifs
    · exact ⟨rfl, rfl, rfl, rfl, rfl, fun _ _ => rfl, rfl⟩
    · exact ⟨rfl, rfl, rfl, rfl, rfl, fun _ _ => rfl, attachIn_append hns _ s.nextVa⟩
    · exact ⟨rfl, rfl, rfl, rfl, rfl, fun _ _ => rfl, rfl⟩
    · exact ⟨rfl, rfl, rfl, rfl, rfl, fun _ _ => rfl, attachIn_append hns _ _⟩

theorem untouched_shmdt (shmaddr : Nat) : Untouched B s (s.sysShmdt pid shmaddr).1 := by
  refine ⟨rfl, rfl, rfl, rfl, rfl, fun _ _ => rfl, ?_⟩
  change (s.shmAttach.filter _).filter (fun q => decide (s.nsOf q.1 = B)) = s.attachIn B
  rw [filter_filter]
  refine filter_congr fun q _ => ?_
  by_cases hq : s.nsOf q.1 = B
  · have hpid : q.1 ≠ pid := by
      rintro rfl
      exact hns hq
    simp [hq, hpid]
  · simp [hq]

end

theorem shmctl_cases (s : State) (pid : Pid) (shmid : Int32) (cmd : Int) : (s.sysShmctl pid shmid cmd).1 = s ∨
    ∃ left, (s.sysShmctl pid shmid cmd).1 =
      { s with shms := update s.shms (s.nsOf pid) (update (s.shms (s.nsOf pid)) shmid left) } := by
  by_cases hcmd : cmd = IPC_RMID
  · simp only [sysShmctl, if_pos hcmd]
    cases s.shms (s.nsOf pid) shmid with
    | none => exact .inl rfl
    | some region => exact .inr ⟨_, rfl⟩
  · simp only [sysShmctl, if_neg hcmd]
    split_ifs <;> exact .inl rfl

section
variable (hns : s.nsOf pid ≠ B)
include hns

theorem untouched_shmctl (shmid : Int32) (cmd : Int) : Untouched B s (s.sysShmctl pid shmid cmd).1 := by
  rcases shmctl_cases s pid shmid cmd with hsame | ⟨left, hleft⟩
  · rw [hsame]
    exact .refl B s
  · rw [hleft]
    exact ⟨rfl, rfl, rfl, update_other hns, rfl, fun _ _ => rfl, rfl⟩

theorem untouched_mqOpen (hnext : ¬ s.Of B s.nextMqd) (name : Nat) (oflag : UInt32) (attr : Nat) :
    Untouched B s (s.sysMqOpen pid name oflag attr).1 := by
  rw [sysMqOpen]
  cases readCstrSafe (s.mem pid) name with
  | none => exact .refl B s
  | some nm =>
    dsimp only
    cases s.byName (s.nsOf pid) nm with
    | some mqd =>
      split_ifs <;> exact .refl B s
    | none =>
      dsimp only
      split_ifs
      · exact .refl B s
      cases readAttr (s.mem pid) attr with
      | none => exact .refl B s
      | some a =>
        refine ⟨rfl, rfl, rfl, rfl, update_other hns, fun d hof => update_of_ne ?_ _ _, rfl⟩
        rintro rfl
        exact hnext hof

theorem untouched_mqUnlink (hsep : Separate B s) (name : Nat) : Untouched B s (s.sysMqUnlink pid name).1 := by
  rw [sysMqUnlink]
  cases readCstrSafe (s.mem pid) name with
  | none => exact .refl B s
  | some nm =>
    dsimp only
    cases hname : s.byName (s.nsOf pid) nm with
    | none => exact .refl B s
    | some mqd =>
      refine ⟨rfl, rfl, rfl, rfl, update_other hns, fun d hof => update_of_ne ?_ _ _, rfl⟩
      rintro rfl
      exact hsep _ nm _ hns hname hof

theorem untouched_call (hsep : Separate B s) (hok : s.Ok B c) : Untouched B s (s.call pid c).1 := by
  cases c with
  | msgget key msgflg => exact untouched_msgget hns msgflg
  | msgsnd msqid msgp msgsz | msgrcv msqid msgp msgsz msgtyp | msgctl msqid cmd => exact untouched_onMsgq hns _ _
  | semget key nsems semflg => exact untouched_semget hns _ _
  | semop semid sops nsops | semctl semid semnum cmd arg => exact untouched_onSems hns _ _
  | shmget key size shmflg => exact untouched_shmget hns _ _
  | shmat shmid shmaddr shmflg => exact untouched_shmat hns _ _ _
  | shmdt shmaddr => exact untouched_shmdt hns _
  | shmctl shmid cmd => exact untouched_shmctl hns _ _
  | mqOpen name oflag attr => exact untouched_mqOpen hns hok _ _ _
  | mqSend mqdes buf msgLen prio | mqReceive mqdes buf msgLen prioVa | mqClose mqdes => exact untouched_onMq hok _
  | mqUnlink name => exact untouched_mqUnlink hns hsep _

end

theorem byName_call (c : Call) {name : List UInt8} (h : (s.call pid c).1.byName ns name = some d) :
    s.byName ns name = some d ∨ (∃ a b e, c = .mqOpen a b e) ∧ d = s.nextMqd := by
  cases c with
  | msgget key msgflg =>
    simp only [call, sysMsgget] at h
    split_ifs at h <;> exact .inl h
  | msgsnd msqid msgp msgsz => exact .inl h
  | msgrcv msqid msgp msgsz msgtyp => exact .inl h
  | msgctl msqid cmd => exact .inl h
  | semget key nsems semflg =>
    simp only [call, sysSemget] at h
    split_ifs at h <;> exact .inl h
  | semop semid sops nsops => exact .inl h
  | semctl semid semnum cmd arg => exact .inl h
  | shmget key size shmflg =>
    simp only [call, sysShmget] at h
    split_ifs at h <;> exact .inl h
  | shmat shmid shmaddr shmflg =>
    simp only [call, sysShmat] at h
    split at h
    · exact .inl h
    · split_ifs at h <;> exact .inl h
  | shmdt shmaddr => exact .inl h
  | shmctl shmid cmd =>
    rw [call] at h
    rcases shmctl_cases s pid shmid cmd with hsame | ⟨left, hleft⟩
    · rw [hsame] at h
      exact .inl h
    · rw [hleft] at h
      exact .inl h
  | mqOpen nm oflag attr =>
    simp only [call, sysMqOpen] at h
    split at h
    · exact .inl h
    split at h
    · split_ifs at h <;> exact .inl h
    split_ifs at h
    · exact .inl h
    split at h
    · exact .inl h
    · rcases update_cases h with h | h
      · exact .inl h
      · exact .inr ⟨⟨_, _, _, rfl⟩, (Option.some.inj h).symm⟩
  | mqSend mqdes buf msgLen prio => exact .inl h
  | mqReceive mqdes buf msgLen prioVa => exact .inl h
  | mqClose mqdes => exact .inl h
  | mqUnlink nm =>
    simp only [call, sysMqUnlink] at h
    split at h
    · exact .inl h
    split at h
    · exact .inl h
    · rcases update_cases h with h | h
      · exact .inl h
      · cases h

theorem separate_call (hns : s.nsOf pid ≠ B) (hsep : Separate B s) (hok : s.Ok B c) : Separate B (s.call pid c).1 := by
  intro ns name d hne hname
  rw [(untouched_call hns hsep hok).of_iff]
  rcases byName_call c hname with hold | ⟨⟨a, b, e, rfl⟩, rfl⟩
  · exact hsep ns name d hne hold
  · exact hok

/-! ### Two states, one call -/

theorem Alike.nsOf (h : Alike B s t) (pid : Pid) : t.nsOf pid = s.nsOf pid := by
  rw [State.nsOf, h.ipcNs, ← State.nsOf]

theorem update_alike {α : Type} {f g : NsId → Int32 → α} (h : ∀ ns, ns ≠ B → g ns = f ns) {ns₀ : NsId} (hns : ns₀ ≠ B)
    (id : Int32) (x : α) (ns : NsId) (hne : ns ≠ B) :
    update g ns₀ (update (g ns₀) id x) ns = update f ns₀ (update (f ns₀) id x) ns := by
  by_cases heq : ns = ns₀
  · rw [heq, update_self, update_self, h ns₀ hns]
  · rw [update_of_ne heq, update_of_ne heq, h ns hne]

section
variable (h : Alike B s t)
include h

theorem alike_onMsgq (hns : s.nsOf pid ≠ B) (id : Int32) (f : Option MsgQueue → Mem → Option MsgQueue × Mem × Int) :
    (t.onMsgq pid id f).2 = (s.onMsgq pid id f).2 ∧ Alike B (s.onMsgq pid id f).1 (t.onMsgq pid id f).1 := by
  simp only [onMsgq, h.nsOf, h.mem, h.msgq _ hns]
  refine ⟨trivial, { h with mem := rfl, msgq := fun ns hne => ?_ }⟩
  simp only [update_apply, h.msgq ns hne]

theorem alike_onSems (hns : s.nsOf pid ≠ B) (id : Int32) (f : Option (List Int32) → Mem → Option (List Int32) × Mem × Int) :
    (t.onSems pid id f).2 = (s.onSems pid id f).2 ∧ Alike B (s.onSems pid id f).1 (t.onSems pid id f).1 := by
  simp only [onSems, h.nsOf, h.mem, h.sems _ hns]
  refine ⟨trivial, { h with mem := rfl, sems := fun ns hne => ?_ }⟩
  simp only [update_apply, h.sems ns hne]

theorem alike_onMq (hs : ¬ s.Of B mqd) (ht : ¬ t.Of B mqd) (f : Option PosixMq → Mem → Option PosixMq × Mem × Int) :
    (t.onMq pid mqd f).2 = (s.onMq pid mqd f).2 ∧ Alike B (s.onMq pid mqd f).1 (t.onMq pid mqd f).1 := by
  simp only [onMq, h.mem, h.byMqd mqd hs ht]
  refine ⟨trivial, { h with mem := rfl, byMqd := fun d hds hdt => ?_ }⟩
  simp only [update_apply, h.byMqd d hds hdt]

section
variable (hns : s.nsOf pid ≠ B)
include hns

theorem alike_msgget (msgflg : UInt32) :
    (t.sysMsgget pid msgflg).2 = (s.sysMsgget pid msgflg).2 ∧
      Alike B (s.sysMsgget pid msgflg).1 (t.sysMsgget pid msgflg).1 := by
  simp only [sysMsgget, h.nsOf, h.msgNext]
  split_ifs
  · exact ⟨rfl, { h with msgNext := rfl, msgq := update_alike h.msgq hns _ _ }⟩
  · exact ⟨rfl, h⟩

theorem alike_semget (nsems : Int) (semflg : UInt32) :
    (t.sysSemget pid nsems semflg).2 = (s.sysSemget pid nsems semflg).2 ∧
      Alike B (s.sysSemget pid nsems semflg).1 (t.sysSemget pid nsems semflg).1 := by
  simp only [sysSemget, h.nsOf, h.semNext]
  split_ifs
  · exact ⟨rfl, h⟩
  · exact ⟨rfl, { h with semNext := rfl, sems := update_alike h.sems hns _ _ }⟩
  · exact ⟨rfl, h⟩

theorem alike_shmget (size : Nat) (shmflg : UInt32) :
    (t.sysShmget pid size shmflg).2 = (s.sysShmget pid size shmflg).2 ∧
      Alike B (s.sysShmget pid size shmflg).1 (t.sysShmget pid size shmflg).1 := by
  simp only [sysShmget, h.nsOf, h.shmNext]
  split_ifs
  · exact ⟨rfl, h⟩
  · exact ⟨rfl, { h with shmNext := rfl, shms := update_alike h.shms hns _ _ }⟩
  · exact ⟨rfl, h⟩

end

theorem attachOut_append (q : Pid × Attach) :
    (t.shmAttach ++ [q]).filter (fun q => decide (t.nsOf q.1 ≠ B)) =
      (s.shmAttach ++ [q]).filter (fun q => decide (s.nsOf q.1 ≠ B)) := by
  have hattach := h.attach
  rw [attachOut, attachOut] at hattach
  rw [filter_append, filter_append, hattach]
  simp only [h.nsOf]

theorem alike_shmat (hns : s.nsOf pid ≠ B) (shmid : Int32) (shmaddr : Nat) (shmflg : UInt32) :
    (t.sysShmat pid shmid shmaddr shmflg).2 = (s.sysShmat pid shmid shmaddr shmflg).2 ∧
      Alike B (s.sysShmat pid shmid shmaddr shmflg).1 (t.sysShmat pid shmid shmaddr shmflg).1 := by
  simp only [sysShmat, h.nsOf, h.shms _ hns, h.nextVa]
  cases s.shms (s.nsOf pid) shmid with
  | none => exact ⟨rfl, h⟩
  | some region =>
    split_ifs
    · exact ⟨rfl, h⟩
    · exact ⟨rfl, { h with attach := attachOut_append h _ }⟩
    · exact ⟨rfl, { h with nextVa := rfl }⟩
    · exact ⟨rfl, { h with nextVa := rfl, attach := attachOut_append h _ }⟩

theorem alike_shmdt (shmaddr : Nat) :
    (t.sysShmdt pid shmaddr).2 = (s.sysShmdt pid shmaddr).2 ∧
      Alike B (s.sysShmdt pid shmaddr).1 (t.sysShmdt pid shmaddr).1 := by
  refine ⟨rfl, { h with attach := ?_ }⟩
  change (t.shmAttach.filter _).filter (fun q => decide (t.nsOf q.1 ≠ B)) =
    (s.shmAttach.filter _).filter (fun q => decide (s.nsOf q.1 ≠ B))
  have hattach := h.attach
  rw [attachOut, attachOut] at hattach
  rw [filter_comm, hattach, filter_comm]

theorem attached_alike {shmid : Int32} (hs : ∀ q ∈ s.shmAttach, s.nsOf q.1 = B → q.2.shmid ≠ shmid)
    (ht : ∀ q ∈ t.shmAttach, t.nsOf q.1 = B → q.2.shmid ≠ shmid) :
    (t.shmAttach.any fun q => q.2.shmid == shmid) = s.shmAttach.any fun q => q.2.shmid == shmid := by
  have hout {u : State} (hu : ∀ q ∈ u.shmAttach, u.nsOf q.1 = B → q.2.shmid ≠ shmid) :
      (u.shmAttach.any fun q => q.2.shmid == shmid) = (u.attachOut B).any fun q => q.2.shmid == shmid := by
    rw [attachOut, any_filter, Bool.eq_iff_iff, any_eq_true, any_eq_true]
    refine exists_congr fun q => and_congr_right fun hq => ?_
    rw [Bool.and_eq_true, decide_eq_true_eq, beq_iff_eq]
    exact ⟨fun heq => ⟨fun hB => hu q hq hB heq, heq⟩, And.right⟩
  rw [hout hs, hout ht, h.attach]

theorem alike_shmctl (hns : s.nsOf pid ≠ B) {shmid : Int32} {cmd : Int}
    (hs : s.Ok B (.shmctl shmid cmd)) (ht : t.Ok B (.shmctl shmid cmd)) :
    (t.sysShmctl pid shmid cmd).2 = (s.sysShmctl pid shmid cmd).2 ∧
      Alike B (s.sysShmctl pid shmid cmd).1 (t.sysShmctl pid shmid cmd).1 := by
  by_cases hcmd : cmd = IPC_RMID
  · simp only [sysShmctl, if_pos hcmd, h.nsOf, h.shms _ hns, attached_alike h (hs hcmd) (ht hcmd)]
    cases s.shms (s.nsOf pid) shmid with
    | none => exact ⟨rfl, h⟩
    | some region =>
      refine ⟨rfl, { h with shms := fun ns hne => ?_ }⟩
      have halike := update_alike h.shms hns shmid
        (if s.shmAttach.any fun q => q.2.shmid == shmid then some { region with markedForRemoval := true } else none) ns hne
      rw [h.shms _ hns] at halike
      exact halike
  · simp only [sysShmctl, if_neg hcmd]
    split_ifs <;> exact ⟨rfl, h⟩

theorem update_names (name : List UInt8) (x : Option Int32) (ns : NsId) (hne : ns ≠ B) :
    update t.byName (s.nsOf pid) (update (s.byName (s.nsOf pid)) name x) ns =
      update s.byName (s.nsOf pid) (update (s.byName (s.nsOf pid)) name x) ns := by
  by_cases heq : ns = s.nsOf pid
  · rw [heq, update_self, update_self]
  · rw [update_of_ne heq, update_of_ne heq, h.byName ns hne]

theorem update_mqds {t' : State} (hs' : s'.byName B = s.byName B) (ht' : t'.byName B = t.byName B)
    {x : Option PosixMq} (hs : ¬ s'.Of B d) (ht : ¬ t'.Of B d) :
    update t.byMqd mqd x d = update s.byMqd mqd x d := by
  have hsd : ¬ s.Of B d := fun hc => hs ((of_congr hs').mpr hc)
  have htd : ¬ t.Of B d := fun hc => ht ((of_congr ht').mpr hc)
  simp only [update_apply, h.byMqd d hsd htd]

variable (hns : s.nsOf pid ≠ B)
include hns

theorem alike_mqOpen (name : Nat) (oflag : UInt32) (attr : Nat) :
    (t.sysMqOpen pid name oflag attr).2 = (s.sysMqOpen pid name oflag attr).2 ∧
      Alike B (s.sysMqOpen pid name oflag attr).1 (t.sysMqOpen pid name oflag attr).1 := by
  simp only [sysMqOpen, h.nsOf, h.mem, h.byName _ hns, h.nextMqd]
  cases readCstrSafe (s.mem pid) name with
  | none => exact ⟨rfl, h⟩
  | some nm =>
    dsimp only
    cases s.byName (s.nsOf pid) nm with
    | some mqd =>
      split_ifs <;> exact ⟨rfl, h⟩
    | none =>
      dsimp only
      split_ifs
      · exact ⟨rfl, h⟩
      cases readAttr (s.mem pid) attr with
      | none => exact ⟨rfl, h⟩
      | some a =>
        refine ⟨rfl, { h with mem := rfl, nextMqd := rfl, byName := update_names h nm _, byMqd := fun d hs ht => ?_ }⟩
        exact update_mqds h (update_other hns) (update_other hns) hs ht

theorem alike_mqUnlink (name : Nat) :
    (t.sysMqUnlink pid name).2 = (s.sysMqUnlink pid name).2 ∧
      Alike B (s.sysMqUnlink pid name).1 (t.sysMqUnlink pid name).1 := by
  simp only [sysMqUnlink, h.nsOf, h.mem, h.byName _ hns]
  cases readCstrSafe (s.mem pid) name with
  | none => exact ⟨rfl, h⟩
  | some nm =>
    dsimp only
    cases s.byName (s.nsOf pid) nm with
    | none => exact ⟨rfl, h⟩
    | some mqd =>
      refine ⟨rfl, { h with mem := rfl, byName := update_names h nm _, byMqd := fun d hs ht => ?_ }⟩
      exact update_mqds h (update_other hns) (update_other hns) hs ht

theorem alike_call (hs : s.Ok B c) (ht : t.Ok B c) :
    (t.call pid c).2 = (s.call pid c).2 ∧ Alike B (s.call pid c).1 (t.call pid c).1 := by
  cases c with
  | msgget key msgflg => exact alike_msgget h hns msgflg
  | msgsnd msqid msgp msgsz | msgrcv msqid msgp msgsz msgtyp | msgctl msqid cmd => exact alike_onMsgq h hns _ _
  | semget key nsems semflg => exact alike_semget h hns _ _
  | semop semid sops nsops | semctl semid semnum cmd arg => exact alike_onSems h hns _ _
  | shmget key size shmflg => exact alike_shmget h hns _ _
  | shmat shmid shmaddr shmflg => exact alike_shmat h hns _ _ _
  | shmdt shmaddr => exact alike_shmdt h _
  | shmctl shmid cmd => exact alike_shmctl h hns hs ht
  | mqOpen name oflag attr => exact alike_mqOpen h hns _ _ _
  | mqSend mqdes buf msgLen prio | mqReceive mqdes buf msgLen prioVa | mqClose mqdes => exact alike_onMq h hs ht _
  | mqUnlink name => exact alike_mqUnlink h hns _

end

/-- Calls from another namespace that meet the condition give the same results in two states that differ only in objects of
    `B`, leave them alike and leave the objects of `B` untouched. -/
theorem ipc_noninterference {A B : NsId} (hne : A ≠ B) (calls : List (Pid × Call)) {s t : State} (h : Alike B s t)
    (hss : Separate B s) (hst : Separate B t) (hpids : ∀ c ∈ calls, s.nsOf c.1 = A) (hs : s.OkRun B calls)
    (ht : t.OkRun B calls) :
    (t.run calls).2 = (s.run calls).2 ∧ Alike B (s.run calls).1 (t.run calls).1 ∧ Untouched B s (s.run calls).1 ∧
      Untouched B t (t.run calls).1 := by
  induction calls generalizing s t with
  | nil => exact ⟨rfl, h, .refl B s, .refl B t⟩
  | cons c cs ih =>
    have hns : s.nsOf c.1 ≠ B := by
      rw [hpids c mem_cons_self]
      exact hne
    have hnt : t.nsOf c.1 ≠ B := by
      rw [h.nsOf]
      exact hns
    have hus := untouched_call hns hss hs.1
    have hut := untouched_call hnt hst ht.1
    obtain ⟨hres, halike⟩ := alike_call h hns hs.1 ht.1
    have hpids' : ∀ c' ∈ cs, (s.call c.1 c.2).1.nsOf c'.1 = A := by
      intro c' hc'
      rw [nsOf, hus.ipcNs]
      exact hpids c' (mem_cons_of_mem _ hc')
    obtain ⟨hrs, ha, hus', hut'⟩ :=
      ih halike (separate_call hns hss hs.1) (separate_call hnt hst ht.1) hpids' hs.2 ht.2
    refine ⟨?_, ha, hus.trans hus', hut.trans hut'⟩
    simp only [run, hres, hrs]

/-! ### Two namespaces -/

/-- Process 1 is in namespace 1 and process 2 in namespace 2, and there is no object. -/
def quiet : State where
  msgq := fun _ _ => none
  msgNext := 1
  sems := fun _ _ => none
  semNext := 1
  shms := fun _ _ => none
  shmNext := 1
  shmAttach := []
  byName := fun _ _ => none
  byMqd := fun _ => none
  nextMqd := 0x1001
  ipcNs := fun pid => if pid = 1 then some 1 else if pid = 2 then some 2 else none
  nextVa := fun _ => some 0x10000
  mem := fun _ _ => some 1

def queueOfTwo : State :=
  { quiet with
    byName := fun ns name => if ns = 2 ∧ name = [97] then some 0x1000 else none
    byMqd := fun d => if d = 0x1000 then some ⟨[], 10, 8192⟩ else none }

theorem of_queueOfTwo (d : Int32) : queueOfTwo.Of 2 d ↔ d = 0x1000 := by
  constructor
  · rintro ⟨name, hname⟩
    simp only [queueOfTwo] at hname
    split_ifs at hname
    exact (Option.some.inj hname).symm
  · rintro rfl
    exact ⟨[97], rfl⟩

theorem alike_quiet : Alike 2 quiet queueOfTwo := by
  refine ⟨rfl, rfl, rfl, rfl, rfl, rfl, rfl, fun _ _ => rfl, fun _ _ => rfl, fun _ _ => rfl, ?_, ?_, rfl⟩
  · intro ns hne
    funext name
    exact if_neg fun hc => hne hc.1
  · intro d _ hd
    rw [of_queueOfTwo] at hd
    exact if_neg hd

theorem separate_queueOfTwo : Separate 2 queueOfTwo := by
  intro ns name d hne hname
  simp only [queueOfTwo] at hname
  split_ifs at hname with hc
  exact absurd hc.1 hne

theorem ipc_noninterference_quiet :
    (queueOfTwo.run [(1, .msgget 0 0o1000), (1, .msgsnd 1 0x1000 3)]).2 =
      (quiet.run [(1, .msgget 0 0o1000), (1, .msgsnd 1 0x1000 3)]).2 := by
  refine (ipc_noninterference (A := 1) (by decide) [(1, .msgget 0 0o1000), (1, .msgsnd 1 0x1000 3)] alike_quiet ?_
    separate_queueOfTwo ?_ ⟨trivial, trivial, trivial⟩ ⟨trivial, trivial, trivial⟩).1
  · intro ns name d _ hname
    cases hname
  · decide

/-- A process of namespace 1 sends to the queue of namespace 2 by its descriptor. -/
theorem ipc_interference : Alike 2 quiet queueOfTwo ∧ quiet.nsOf 1 = 1 ∧
    (quiet.run [(1, .mqSend 0x1000 0x1000 1 0)]).2 = [-9] ∧ (queueOfTwo.run [(1, .mqSend 0x1000 0x1000 1 0)]).2 = [0] ∧
    ¬ Untouched 2 queueOfTwo (queueOfTwo.run [(1, .mqSend 0x1000 0x1000 1 0)]).1 := by
  refine ⟨alike_quiet, rfl, by decide +kernel, by decide +kernel, ?_⟩
  intro h
  have hq := h.byMqd 0x1000 ((of_queueOfTwo _).mpr rfl)
  have hafter : (queueOfTwo.run [(1, .mqSend 0x1000 0x1000 1 0)]).1.byMqd 0x1000 =
      some ⟨[⟨0, [1]⟩], 10, 8192⟩ := by
    decide +kernel
  rw [hafter] at hq
  exact absurd hq (by decide)

end Moxide.SysvIpc
