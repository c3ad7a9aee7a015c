import Moxide.Signal
import Moxide.Theorems.User

/-! Delivery of signals and the return from a handler: one signal that is not blocked leaves its queue and is acted upon. -/

namespace Moxide.Signal
open Lib.LittleEndian List Option State
open User (Mem USER_SPACE_END copyFromUser copyToUser validateUserPtr)
open Function (update update_eq_self update_idem update_self)

/-! ### What a delivery should do -/

inductive Action where
  | ignore
  | stop
  | terminate
  deriving DecidableEq

def defaultAction (sig : UInt32) : Action :=
  if sig ∈ [17, 23, 28] then .ignore
  else if sig ∈ [19, 20, 21, 22] then .stop
  else .terminate

def Action.apply (a : Action) (s : State) (tid : Nat) (info : SigInfo) : State :=
  match a with
  | .ignore => s
  | .stop => s.setState tid .stopped
  | .terminate => { s with exits := s.exits ++ [(tid, info.sig.toInt32 <<< 8)] }

/-- `rest` is `s` without one occurrence of `info` in the queue of the thread or in that of its group. -/
inductive Takes (s : State) (tid : Nat) (info : SigInfo) : State → Prop where
  | thread (l r : List SigInfo) (h : s.pending tid = l ++ info :: r) :
      Takes s tid info { s with pending := update s.pending tid (l ++ r) }
  | group (l r : List SigInfo) (h : s.groupPending (s.tgidOf tid) = l ++ info :: r) :
      Takes s tid info { s with groupPending := update s.groupPending (s.tgidOf tid) (l ++ r) }

section Delivery

variable {F : Type} (push : State → Nat → F → SigAction → SigInfo → Option (F × Mem)) {rest t : State} {frame : F}

/-- The signal is acted upon: by its default action where no handler is set, not at all where it is set to be ignored, and
    else by a frame on the user stack. Where that stack cannot be written, the process is stopped or ended or goes on. -/
structure Acts (s : State) (tid : Nat) (frame : F) (info : SigInfo) (r : State × F) : Prop where
  default : (s.sigactions (s.tgidOf tid) info.sig).handler = 0 → r = ((defaultAction info.sig).apply s tid info, frame)
  ignored : (s.sigactions (s.tgidOf tid) info.sig).handler = 1 → r = (s, frame)
  handled : (s.sigactions (s.tgidOf tid) info.sig).handler ≠ 0 → (s.sigactions (s.tgidOf tid) info.sig).handler ≠ 1 →
    (∃ p, push s tid frame (s.sigactions (s.tgidOf tid) info.sig) info = some p ∧ r = ({ s with mem := p.2 }, p.1)) ∨
    push s tid frame (s.sigactions (s.tgidOf tid) info.sig) info = none ∧ ∃ a : Action, r = (a.apply s tid info, frame)

def State.waiting (s : State) (tid : Nat) : List SigInfo := s.pending tid ++ s.groupPending (s.tgidOf tid)

/-- If some signal that waits is not blocked, one such signal leaves its queue and is acted upon; otherwise the delivery does
    nothing. -/
structure Delivers (s : State) (tid : Nat) (frame : F) (r : State × F) : Prop where
  one : (∃ i ∈ s.waiting tid, s.isMasked tid i.sig = false) →
    ∃ info rest, s.isMasked tid info.sig = false ∧ Takes s tid info rest ∧ Acts push rest tid frame info r
  idle : (∀ i ∈ s.waiting tid, s.isMasked tid i.sig = true) → r = (s, frame)

/-- The signals for which the bit of a default set that is tested is that of the number before. -/
def MISPLACED : List UInt32 := [17, 18, 19, 23, 24, 28, 29]

/-- The default action that is taken for the signal is its own. 23 stops, and a thread that is stopped already stays so. -/
def State.placed (s : State) (tid : Nat) (sig : UInt32) : Bool :=
  sig ∉ MISPLACED || sig = 23 && (s.procs tid).all (·.state = .stopped)

/-- The signal that waits first is not blocked and, if it has no handler, not a misplaced one; or it is the thread's own and
    all that waits is blocked; or nothing waits. -/
def State.deliverable (s : State) (tid : Nat) : Bool :=
  match s.waiting tid with
  | [] => true
  | info :: _ =>
    if s.isMasked tid info.sig then s.pending tid ≠ [] && (s.waiting tid).all fun i => s.isMasked tid i.sig
    else (s.sigactions (s.tgidOf tid) info.sig).handler ≠ 0 || s.placed tid info.sig

variable {s : State} {tid : Nat} {info : SigInfo}

theorem range_of_not_masked {sig : UInt32} (h : s.isMasked tid sig = false) : sig ≠ 0 ∧ sig ≤ 64 := by
  rw [isMasked] at h
  split at h
  · cases h
  · rename_i hrange
    rw [not_or, UInt32.not_lt] at hrange
    exact hrange

/-- The action of the default set in which the bit that is tested stands. -/
def testedAction (sig : UInt32) : Action :=
  let bit : UInt64 := 1 <<< (if sig = 0 then 0 else sig - 1).toUInt64
  if SIG_IGN_DEFAULT &&& bit ≠ 0 then .ignore
  else if SIG_STOP_DEFAULT &&& bit ≠ 0 then .stop
  else .terminate

theorem applyDefault_eq (s : State) (tid : Nat) (info : SigInfo) :
    s.applyDefault tid info = (testedAction info.sig).apply s tid info := by
  simp only [applyDefault, testedAction]
  split_ifs <;> rfl

theorem testedAction_iff : ∀ n : Fin 65, n ≠ 0 →
    (testedAction (UInt32.ofNat n.val) = defaultAction (UInt32.ofNat n.val) ↔ UInt32.ofNat n.val ∉ MISPLACED) ∧
    (testedAction (UInt32.ofNat n.val) ≠ .terminate ∧ defaultAction (UInt32.ofNat n.val) ≠ .terminate ∧
      testedAction (UInt32.ofNat n.val) ≠ defaultAction (UInt32.ofNat n.val) ↔ UInt32.ofNat n.val = 23) := by
  decide +kernel

theorem setState_stopped : s.setState tid .stopped = s ↔ (s.procs tid).all (·.state = .stopped) := by
  constructor
  · intro h
    have hproc : (s.procs tid).map (fun p => { p with state := .stopped }) = s.procs tid := by
      conv_rhs => rw [← h]
      exact (update_self tid _ s.procs).symm
    cases hp : s.procs tid with
    | none => rfl
    | some p =>
      rw [hp] at hproc
      exact decide_eq_true (congrArg Proc.state (some.inj hproc)).symm
  · intro h
    have hproc : (s.procs tid).map (fun p => { p with state := .stopped }) = s.procs tid := by
      cases hp : s.procs tid with
      | none => rfl
      | some p =>
        rw [hp] at h
        rw [map_some, ← of_decide_eq_true h]
    rw [setState, hproc, update_eq_self]

theorem Action.apply_eq_iff {a b : Action} : a.apply s tid info = b.apply s tid info ↔
    a = b ∨ (a ≠ .terminate ∧ b ≠ .terminate ∧ a ≠ b) ∧ (s.procs tid).all (·.state = .stopped) := by
  -- only a termination adds to `exits`
  have hends : ∀ {c : Action}, c ≠ .terminate → (c.apply s tid info).exits ≠ (Action.terminate.apply s tid info).exits := by
    intro c hc h
    have hexits : (c.apply s tid info).exits = s.exits := by
      cases c with
      | terminate => exact absurd rfl hc
      | _ => rfl
    rw [hexits] at h
    exact absurd (congrArg List.length h) (by simp [Action.apply])
  cases a <;> cases b
  case ignore.stop => simpa [Action.apply] using eq_comm.trans setState_stopped
  case stop.ignore => simpa [Action.apply] using setState_stopped
  case ignore.terminate => simpa using fun h => hends (by decide) (congrArg State.exits h)
  case stop.terminate => simpa using fun h => hends (by decide) (congrArg State.exits h)
  case terminate.ignore => simpa using fun h => hends (by decide) (congrArg State.exits h.symm)
  case terminate.stop => simpa using fun h => hends (by decide) (congrArg State.exits h.symm)
  all_goals simp

theorem applyDefault_eq_iff (hzero : info.sig ≠ 0) (hmax : info.sig ≤ 64) :
    s.applyDefault tid info = (defaultAction info.sig).apply s tid info ↔ s.placed tid info.sig := by
  have hlt : info.sig.toNat < 65 := Nat.lt_succ_of_le (UInt32.le_iff_toNat_le.mp hmax)
  have hne : (⟨info.sig.toNat, hlt⟩ : Fin 65) ≠ 0 := by
    intro h
    exact hzero (UInt32.toNat_inj.mp (Fin.mk.inj h))
  have hiff := testedAction_iff ⟨info.sig.toNat, hlt⟩ hne
  simp only [UInt32.ofNat_toNat] at hiff
  rw [applyDefault_eq, Action.apply_eq_iff, hiff.1, hiff.2, placed]
  simp

/-! ### Taking the first signal -/

theorem takes_head {l : List SigInfo} (h : s.waiting tid = info :: l) :
    ∃ rest, (s.popPending tid).or (s.popGroupPending (s.tgidOf tid)) = some (info, rest) ∧ Takes s tid info rest := by
  rw [waiting] at h
  cases hown : s.pending tid with
  | cons i q =>
    rw [hown] at h
    obtain ⟨rfl, -⟩ := List.cons.inj h
    refine ⟨{ s with pending := update s.pending tid q }, ?_, .thread [] q hown⟩
    simp only [popPending, hown, some_or]
  | nil =>
    rw [hown, nil_append] at h
    refine ⟨{ s with groupPending := update s.groupPending (s.tgidOf tid) l }, ?_, .group [] l h⟩
    simp only [popPending, hown, none_or, popGroupPending, h]

theorem pop_none (h : s.waiting tid = []) : (s.popPending tid).or (s.popGroupPending (s.tgidOf tid)) = none := by
  obtain ⟨hown, hgroup⟩ := append_eq_nil_iff.mp h
  simp only [popPending, hown, none_or, popGroupPending, hgroup]

theorem Takes.same (h : Takes s tid info rest) :
    rest = { s with pending := rest.pending, groupPending := rest.groupPending } := by
  cases h <;> rfl

theorem Takes.length (h : Takes s tid info rest) :
    (rest.pending tid).length + (rest.groupPending (s.tgidOf tid)).length + 1 =
      (s.pending tid).length + (s.groupPending (s.tgidOf tid)).length := by
  cases h with
  | thread l r h | group l r h =>
    simp only [update_self, h, length_append, length_cons]
    omega

/-- What is left says which signal was taken. -/
theorem Takes.unique {other : SigInfo} {rest' : State} (h : Takes s tid info rest) (h' : Takes s tid other rest')
    (hown : rest'.pending = rest.pending) (hgroup : rest'.groupPending = rest.groupPending) : other = info := by
  have hlist : ∀ {l r l' r' : List SigInfo}, l' ++ other :: r' = l ++ info :: r → l' ++ r' = l ++ r → other = info := by
    intro l r l' r' hall hrest
    have hperm : (other :: (l ++ r)).Perm (info :: (l ++ r)) := by
      rw [← hrest]
      refine perm_middle.symm.trans ?_
      rw [hall, hrest]
      exact perm_middle
    have hcons : other ::ₘ ↑(l ++ r) = info ::ₘ (↑(l ++ r) : Multiset SigInfo) := Multiset.coe_eq_coe.mpr hperm
    exact (Multiset.cons_inj_left _).mp hcons
  cases h with
  | thread l r h =>
    cases h' with
    | thread l' r' h' =>
      have heq := congrFun hown tid
      simp only [update_self] at heq
      exact hlist (h'.symm.trans h) heq
    | group l' r' h' =>
      have heq := congrArg List.length (congrFun hown tid)
      simp [h] at heq
  | group l r h =>
    cases h' with
    | thread l' r' h' =>
      have heq := congrArg List.length (congrFun hown tid)
      simp [h'] at heq
    | group l' r' h' =>
      have heq := congrFun hgroup (s.tgidOf tid)
      simp only [update_self] at heq
      exact hlist (h'.symm.trans h) heq

theorem Acts.queues {r : State × F} (h : Acts push s tid frame info r) :
    r.1.pending = s.pending ∧ r.1.groupPending = s.groupPending := by
  have hact (a : Action) : (a.apply s tid info).pending = s.pending ∧
    (a.apply s tid info).groupPending = s.groupPending := by
    cases a <;> exact ⟨rfl, rfl⟩
  by_cases h0 : (s.sigactions (s.tgidOf tid) info.sig).handler = 0
  · rw [h.default h0]
    exact hact _
  by_cases h1 : (s.sigactions (s.tgidOf tid) info.sig).handler = 1
  · rw [h.ignored h1]
    exact ⟨rfl, rfl⟩
  · rcases h.handled h0 h1 with ⟨p, -, rfl⟩ | ⟨-, a, rfl⟩
    · exact ⟨rfl, rfl⟩
    · exact hact a

/-! ### A blocked signal in front -/

theorem deliver_blocked_own {q : List SigInfo}
    (hown : s.pending tid = info :: q) (hmask : s.isMasked tid info.sig) : s.deliver push tid frame = (s, frame) := by
  have hpop : (s.popPending tid).or (s.popGroupPending (s.tgidOf tid)) =
      some (info, { s with pending := update s.pending tid q }) := by
    simp only [popPending, hown, some_or]
  have hstill : isMasked { s with pending := update s.pending tid q } tid info.sig := hmask
  have hback : putBackPending { s with pending := update s.pending tid q } tid info = s := by
    simp only [putBackPending, update_self, update_idem, ← hown, update_eq_self]
  rw [deliver, hpop]
  dsimp only
  rw [if_pos hstill, hback]

/-- A blocked signal of the group is moved to the thread. -/
theorem deliver_blocked_group {q : List SigInfo} (hown : s.pending tid = [])
    (hgroup : s.groupPending (s.tgidOf tid) = info :: q) (hmask : s.isMasked tid info.sig) :
    s.deliver push tid frame =
      ({ s with pending := update s.pending tid [info], groupPending := update s.groupPending (s.tgidOf tid) q },
        frame) := by
  have hpop : (s.popPending tid).or (s.popGroupPending (s.tgidOf tid)) =
      some (info, { s with groupPending := update s.groupPending (s.tgidOf tid) q }) := by
    simp only [popPending, hown, none_or, popGroupPending, hgroup]
  have hstill : isMasked { s with groupPending := update s.groupPending (s.tgidOf tid) q } tid info.sig := hmask
  rw [deliver, hpop]
  dsimp only
  rw [if_pos hstill, putBackPending]
  simp only [hown]

/-- No signal leaves the queues if the one in front is blocked. -/
theorem deliver_blocked_length {l : List SigInfo} (hwait : s.waiting tid = info :: l) (hmask : s.isMasked tid info.sig) :
    ((s.deliver push tid frame).1.pending tid).length + ((s.deliver push tid frame).1.groupPending (s.tgidOf tid)).length =
      (s.pending tid).length + (s.groupPending (s.tgidOf tid)).length := by
  rw [waiting] at hwait
  cases hown : s.pending tid with
  | cons i q =>
    rw [hown] at hwait
    obtain ⟨rfl, -⟩ := List.cons.inj hwait
    rw [deliver_blocked_own push hown hmask, hown]
  | nil =>
    rw [hown, nil_append] at hwait
    rw [deliver_blocked_group push hown hwait hmask, hwait]
    simp only [update_self, length_cons, length_nil]
    omega

theorem delivers_blocked_iff {l : List SigInfo} (hwait : s.waiting tid = info :: l) (hmask : s.isMasked tid info.sig) :
    Delivers push s tid frame (s.deliver push tid frame) ↔
      s.pending tid ≠ [] ∧ ∀ i ∈ s.waiting tid, s.isMasked tid i.sig = true := by
  constructor
  · intro h
    have hall : ∀ i ∈ s.waiting tid, s.isMasked tid i.sig = true := by
      by_contra hfree
      simp only [not_forall, Bool.not_eq_true] at hfree
      obtain ⟨i, hi, hfree⟩ := hfree
      obtain ⟨other, rest, -, htakes, hacts⟩ := h.one ⟨i, hi, hfree⟩
      have hlen := htakes.length
      rw [← hacts.queues.1, ← hacts.queues.2, deliver_blocked_length push hwait hmask] at hlen
      exact absurd hlen (Nat.succ_ne_self _)
    refine ⟨fun hown => ?_, hall⟩
    have hidle := h.idle hall
    rw [waiting, hown, nil_append] at hwait
    rw [deliver_blocked_group push hown hwait hmask] at hidle
    have hmoved := congrFun (congrArg (·.1.pending) hidle) tid
    simp only [update_self, hown] at hmoved
    cases hmoved
  · rintro ⟨hne, hall⟩
    obtain ⟨i, q, hown⟩ := exists_cons_of_ne_nil hne
    have hi : i = info := by
      rw [waiting, hown] at hwait
      exact (List.cons.inj hwait).1
    refine ⟨?_, fun _ => deliver_blocked_own push hown (hi ▸ hmask)⟩
    rintro ⟨j, hj, hfree⟩
    rw [hall j hj] at hfree
    cases hfree

/-! ### A signal in front that is not blocked -/

theorem acts_taken (hpop : (s.popPending tid).or (s.popGroupPending (s.tgidOf tid)) = some (info, rest))
    (hmask : rest.isMasked tid info.sig = false)
    (hplace : (rest.sigactions (rest.tgidOf tid) info.sig).handler = 0 → rest.placed tid info.sig) :
    Acts push rest tid frame info (s.deliver push tid frame) := by
  obtain ⟨hzero, hmax⟩ := range_of_not_masked hmask
  rw [deliver, hpop]
  dsimp only
  rw [if_neg (by rw [hmask]; decide)]
  constructor
  · intro hhandler
    rw [if_pos hhandler, (applyDefault_eq_iff hzero hmax).mpr (hplace hhandler)]
  · intro hhandler
    rw [if_neg (by rw [hhandler]; decide), if_pos hhandler]
  · intro h0 h1
    rw [if_neg h0, if_neg h1]
    cases hpush : push rest tid frame (rest.sigactions (rest.tgidOf tid) info.sig) info with
    | some p => exact .inl ⟨p, rfl, rfl⟩
    | none => exact .inr ⟨rfl, _, by rw [applyDefault_eq]⟩

/-- If no handler is set and the delivery is right, the action taken is the signal's own. -/
theorem placed_of_delivers (hpop : (s.popPending tid).or (s.popGroupPending (s.tgidOf tid)) = some (info, rest))
    (htakes : Takes s tid info rest) (hmask : rest.isMasked tid info.sig = false)
    (hhandler : (rest.sigactions (rest.tgidOf tid) info.sig).handler = 0)
    (h : ∃ other rest', s.isMasked tid other.sig = false ∧ Takes s tid other rest' ∧
      Acts push rest' tid frame other (s.deliver push tid frame)) : rest.placed tid info.sig := by
  obtain ⟨other, rest', -, htakes', hacts⟩ := h
  have hdeliver : s.deliver push tid frame = (rest.applyDefault tid info, frame) := by
    rw [deliver, hpop]
    dsimp only
    rw [if_neg (by rw [hmask]; decide), if_pos hhandler]
  have hqueues := hacts.queues
  rw [hdeliver, applyDefault_eq] at hqueues
  have hown : rest'.pending = rest.pending := by
    rw [← hqueues.1]
    cases testedAction info.sig <;> rfl
  have hgroup : rest'.groupPending = rest.groupPending := by
    rw [← hqueues.2]
    cases testedAction info.sig <;> rfl
  obtain rfl := htakes.unique htakes' hown hgroup
  have hrest : rest' = rest := by rw [htakes'.same, htakes.same, hown, hgroup]
  rw [hrest] at hacts
  obtain ⟨hzero, hmax⟩ := range_of_not_masked hmask
  have hright := hacts.default hhandler
  rw [hdeliver] at hright
  exact (applyDefault_eq_iff hzero hmax).mp (Prod.mk.inj hright).1

theorem deliver_delivers_iff (frame : F) :
    Delivers push s tid frame (s.deliver push tid frame) ↔ s.deliverable tid = true := by
  rw [deliverable]
  cases hwait : s.waiting tid with
  | nil =>
    refine iff_of_true ⟨?_, fun _ => by rw [deliver, pop_none hwait]⟩ rfl
    rintro ⟨i, hi, -⟩
    rw [hwait] at hi
    cases hi
  | cons info l =>
    dsimp only
    split
    · rename_i hmask
      rw [delivers_blocked_iff push hwait hmask, hwait, Bool.and_eq_true, decide_eq_true_eq, List.all_eq_true]
    · rename_i hfree
      rw [Bool.not_eq_true] at hfree
      obtain ⟨rest, hpop, htakes⟩ := takes_head hwait
      have hsame := htakes.same
      have hmask : rest.isMasked tid info.sig = false := by
        rw [hsame]
        exact hfree
      have hhead : ∃ i ∈ s.waiting tid, s.isMasked tid i.sig = false := ⟨info, hwait ▸ mem_cons_self, hfree⟩
      have hsa : (rest.sigactions (rest.tgidOf tid) info.sig).handler = (s.sigactions (s.tgidOf tid) info.sig).handler := by
        rw [hsame]
        rfl
      have hplaced : rest.placed tid info.sig = s.placed tid info.sig := by
        rw [hsame]
        rfl
      rw [Bool.or_eq_true, decide_eq_true_eq, ← hsa, ← hplaced]
      constructor
      · intro h
        by_cases hhandler : (rest.sigactions (rest.tgidOf tid) info.sig).handler = 0
        · exact .inr (placed_of_delivers push hpop htakes hmask hhandler (h.one hhead))
        · exact .inl hhandler
      · intro h
        refine ⟨fun _ => ⟨info, rest, hfree, htakes,
          acts_taken push hpop hmask fun h0 => h.resolve_left (not_not_intro h0)⟩, ?_⟩
        intro hall
        have := hall info (hwait ▸ mem_cons_self)
        rw [hfree] at this
        cases this

end Delivery

/-- A delivery of x86-64 does what it should if and only if the first signal that waits can be taken. -/
theorem checkAndDeliver_delivers_iff (s : State) (tid : Nat) (frame : SyscallFrame) :
    Delivers State.pushSigframeX86 s tid frame (s.checkAndDeliver tid frame) ↔ s.deliverable tid = true :=
  deliver_delivers_iff pushSigframeX86 frame

/-! ### Deliveries that go wrong -/

def calm : State where
  pending := fun _ => []
  groupPending := fun _ => []
  sigmask := fun _ => 0
  sigactions := fun _ _ => {}
  procs := fun pid => if pid = 1 then some ⟨1, .running⟩ else none
  mem := fun _ => none
  exits := []

def kernelSig (sig : UInt32) : SigInfo := ⟨sig, 128, 0, 0, 0, 0, 0⟩

def zeroFrame : SyscallFrame := ⟨0, 0, 0, 0, 0, 0, 0, 0, 0, 0, 0, 0, 0, 0, 0, 0⟩

def behindBlocked : State :=
  { calm with pending := fun _ => [kernelSig 10, kernelSig 12], sigmask := fun _ => (1 : UInt64) <<< 9 }

def blockedGroup : State := { calm with groupPending := fun _ => [kernelSig 10], sigmask := fun _ => (1 : UInt64) <<< 9 }

def childExited : State := { calm with pending := fun _ => [kernelSig 17] }

/-- An unblocked signal stays behind a blocked one, a blocked signal of the group is moved to the thread, and SIGCHLD ends a
    process. -/
theorem checkAndDeliver_not_delivers :
    ¬ Delivers State.pushSigframeX86 behindBlocked 1 zeroFrame (behindBlocked.checkAndDeliver 1 zeroFrame) ∧
    ¬ Delivers State.pushSigframeX86 blockedGroup 1 zeroFrame (blockedGroup.checkAndDeliver 1 zeroFrame) ∧
    ¬ Delivers State.pushSigframeX86 childExited 1 zeroFrame (childExited.checkAndDeliver 1 zeroFrame) := by
  refine ⟨fun h => ?_, fun h => ?_, fun h => ?_⟩
  · exact absurd ((deliver_delivers_iff _ _).mp h) (by decide)
  · exact absurd ((deliver_delivers_iff _ _).mp h) (by decide)
  · exact absurd ((deliver_delivers_iff _ _).mp h) (by decide)

/-! ### The return from a handler -/

def IOPL : UInt64 := 0x3000

def MODE : UInt64 := 0xf

/-- The thread goes on in user space with the I/O privilege it had, and SIGKILL and SIGSTOP are not blocked in it. -/
structure Unprivileged (tid : Nat) (prior : SyscallFrame) (r : State × SyscallFrame) : Prop where
  rip : r.2.rip.toNat < USER_SPACE_END
  iopl : r.2.rflags &&& IOPL = prior.rflags &&& IOPL
  mask : r.1.sigmask tid &&& State.UNMASKABLE = 0

structure UnprivilegedAarch64 (tid : Nat) (r : State × ExceptionFrame) : Prop where
  mode : r.2.spsrEl1 &&& MODE = 0
  elr : r.2.elrEl1.toNat < USER_SPACE_END
  mask : r.1.sigmask tid &&& State.UNMASKABLE = 0

/-- What the frame on the user stack asks for, or what the thread has where there is no such frame, is harmless. -/
def State.harmlessX86 (s : State) (tid : Nat) (frame : SyscallFrame) : Bool :=
  match copyFromUser s.mem frame.rsp.toNat SIGFRAME_X86_SIZE with
  | none => decide (frame.rip.toNat < USER_SPACE_END) && s.sigmask tid &&& State.UNMASKABLE == 0
  | some sf =>
    decide ((field sf 176).toNat < USER_SPACE_END) && (field sf 184 &&& IOPL) == (frame.rflags &&& IOPL) &&
      field sf 232 &&& State.UNMASKABLE == 0

def State.harmlessAarch64 (s : State) (tid : Nat) (frame : ExceptionFrame) : Bool :=
  match (copyFromUser s.mem frame.spEl0.toNat SIGFRAME_AARCH64_SIZE).filter (field · 0 == SIGFRAME_AARCH64_MAGIC) with
  | none =>
    frame.spsrEl1 &&& MODE == 0 && decide (frame.elrEl1.toNat < USER_SPACE_END) && s.sigmask tid &&& State.UNMASKABLE == 0
  | some sf =>
    field sf 272 &&& MODE == 0 && decide ((field sf 264).toNat < USER_SPACE_END) && field sf 296 &&& State.UNMASKABLE == 0

/-- A return from a handler gives no privilege, on either architecture, if and only if the frame is harmless. -/
theorem sysRtSigreturn_unprivileged_iff (s : State) (tid : Nat) :
    (∀ frame, Unprivileged tid frame (s.sysRtSigreturn tid frame) ↔ s.harmlessX86 tid frame = true) ∧
    (∀ frame, UnprivilegedAarch64 tid (s.sysRtSigreturnAarch64 tid frame) ↔ s.harmlessAarch64 tid frame = true) := by
  constructor
  · intro frame
    rw [harmlessX86, sysRtSigreturn]
    cases hcopy : copyFromUser s.mem frame.rsp.toNat SIGFRAME_X86_SIZE with
    | none =>
      simp only [Bool.and_eq_true, decide_eq_true_eq, beq_iff_eq]
      exact ⟨fun h => ⟨h.rip, h.mask⟩, fun h => ⟨h.1, rfl, h.2⟩⟩
    | some sf =>
      simp only [Bool.and_eq_true, decide_eq_true_eq, beq_iff_eq]
      have hmask : (s.setMask tid (field sf 232)).sigmask tid = field sf 232 := update_self ..
      have hmask := congrArg (· &&& State.UNMASKABLE) hmask
      exact ⟨fun h => ⟨⟨h.rip, h.iopl⟩, hmask.symm.trans h.mask⟩, fun h => ⟨h.1.1, h.1.2, hmask.trans h.2⟩⟩
  · intro frame
    rw [harmlessAarch64, sysRtSigreturnAarch64]
    cases hcopy : copyFromUser s.mem frame.spEl0.toNat SIGFRAME_AARCH64_SIZE with
    | none =>
      simp only [filter_none, Bool.and_eq_true, decide_eq_true_eq, beq_iff_eq]
      exact ⟨fun h => ⟨⟨h.mode, h.elr⟩, h.mask⟩, fun h => ⟨h.1.1, h.1.2, h.2⟩⟩
    | some sf =>
      dsimp only
      split_ifs with hmagic
      · simp only [filter_some, beq_iff_eq, hmagic, if_false, Bool.and_eq_true, decide_eq_true_eq]
        exact ⟨fun h => ⟨⟨h.mode, h.elr⟩, h.mask⟩, fun h => ⟨h.1.1, h.1.2, h.2⟩⟩
      · simp only [filter_some, not_not.mp hmagic, beq_self_eq_true, if_true, Bool.and_eq_true,
          decide_eq_true_eq, beq_iff_eq]
        have hmask : (s.setMask tid (field sf 296)).sigmask tid = field sf 296 := update_self ..
        have hmask := congrArg (· &&& State.UNMASKABLE) hmask
        exact ⟨fun h => ⟨⟨h.mode, h.elr⟩, hmask.symm.trans h.mask⟩, fun h => ⟨h.1.1, h.1.2, hmask.trans h.2⟩⟩

def zeroException : ExceptionFrame := ⟨List.replicate 31 0, 0, 0, 0⟩

def forged : State :=
  { calm with mem := fun a => if a < 0x1008 then (word SIGFRAME_AARCH64_MAGIC)[a - 0x1000]? else some 0xff }

/-- A forged frame sets the program counter, the I/O privilege level, the exception level and the whole mask. -/
theorem sysRtSigreturn_forged :
    ¬ Unprivileged 1 { zeroFrame with rsp := 0x2000 } (forged.sysRtSigreturn 1 { zeroFrame with rsp := 0x2000 }) ∧
    ¬ UnprivilegedAarch64 1 (forged.sysRtSigreturnAarch64 1 { zeroException with spEl0 := 0x1000 }) := by
  have hx : (forged.sysRtSigreturn 1 { zeroFrame with rsp := 0x2000 }).2.rip = 0xffffffffffffffff := by decide +kernel
  have ha : (forged.sysRtSigreturnAarch64 1 { zeroException with spEl0 := 0x1000 }).2.spsrEl1 = 0xffffffffffffffff := by
    decide +kernel
  constructor
  · intro h
    have hrip := h.rip
    rw [hx] at hrip
    exact absurd hrip (by decide)
  · intro h
    have hmode := h.mode
    rw [ha] at hmode
    exact absurd hmode (by decide)

/-! ### The way back from a handler -/

theorem field_word (v : UInt64) (post : List UInt8) : field (word v ++ post) 0 = v := by
  rw [field, drop_zero, word, take_append_of_le_length (by simp), take_of_length_le (by simp), ofNat_ofBytes_64]

theorem field_append {pre : List UInt8} {n : Nat} (h : pre.length = n) (post : List UInt8) (off : Nat) :
    field (pre ++ post) (off + n) = field post off := by
  rw [field, field, ← h, Nat.add_comm, drop_append, drop_eq_nil_of_le (Nat.le_add_right ..), nil_append,
    Nat.add_sub_cancel_left]

theorem length_sigFrameX86 (frame : SyscallFrame) (sa : SigAction) (info : SigInfo) (mask : UInt64) :
    (sigFrameX86 frame sa info mask).length = SIGFRAME_X86_SIZE := by
  delta sigFrameX86
  simp only [word, length_append, length_toBytes, SIGFRAME_X86_SIZE]

theorem field_sigFrameX86 (frame : SyscallFrame) (sa : SigAction) (info : SigInfo) (mask : UInt64) :
    field (sigFrameX86 frame sa info mask) 176 = frame.rip ∧ field (sigFrameX86 frame sa info mask) 184 = frame.rflags ∧
      field (sigFrameX86 frame sa info mask) 192 = 0x1b := by
  have hword : ∀ v post off, field (word v ++ post) (off + 8) = field post off := fun _ => field_append (length_toBytes 8 _)
  delta sigFrameX86
  simp only [append_assoc, hword, field_append (length_toBytes 8 _), field_word, true_and]
  exact field_word 0x1b _

theorem pushSigframeX86_eq {s : State} {tid : Nat} {frame pushed : SyscallFrame} {sa : SigAction}
    {info : SigInfo} {mem : Mem} (h : s.pushSigframeX86 tid frame sa info = some (pushed, mem)) :
    pushed.rsp = (frame.rsp - UInt64.ofNat SIGFRAME_X86_SIZE) &&& ~~~15 ∧
      (0x1000 ≤ pushed.rsp.toNat ∧ pushed.rsp.toNat < USER_SPACE_END) ∧
      mem = User.overlay s.mem pushed.rsp.toNat (sigFrameX86 frame sa info (s.sigmask tid)) := by
  rw [pushSigframeX86] at h
  split_ifs at h with hrange
  obtain ⟨m, hcopy, heq⟩ := map_eq_some_iff.mp h
  cases heq
  rw [copyToUser, length_sigFrameX86] at hcopy
  split_ifs at hcopy with hzero
  · cases hzero
  cases hcopy
  rw [not_or, not_lt, not_le] at hrange
  exact ⟨rfl, hrange, rfl⟩

/-- A field of bytes that are those of another list, eight places on. -/
theorem field_shifted {sf bytes : List UInt8} {off : Nat} (h : ∀ i < off + 8, sf[i]? = bytes[i + 8]?) :
    field sf off = field bytes (off + 8) := by
  have hbytes : (sf.drop off).take 8 = (bytes.drop (off + 8)).take 8 := by
    refine ext_getElem? fun i => ?_
    rw [getElem?_take, getElem?_take, getElem?_drop, getElem?_drop]
    split_ifs with hi
    · rw [h (off + i) (by omega), Nat.add_right_comm]
    · rfl
  rw [field, field, hbytes]

/-- After the `ret` of the handler has taken the return address from the stack, `rt_sigreturn` never restores the
    registers: it would read 0x1b, the segment, as the flags, the flags as `rip` and `rip` as `rsp`, and no frame is pushed
    below 0x1b. -/
theorem sysRtSigreturn_never_restores {s t : State} {tid : Nat} {frame pushed e : SyscallFrame} {sa : SigAction}
    {info : SigInfo} {mem : Mem} (hpush : s.pushSigframeX86 tid frame sa info = some (pushed, mem))
    (hmem : ∀ i < SIGFRAME_X86_SIZE, t.mem (pushed.rsp.toNat + i) = mem (pushed.rsp.toNat + i))
    (hret : e.rsp = pushed.rsp + 8) : (t.sysRtSigreturn tid e).2 ≠ frame := by
  obtain ⟨hrsp, ⟨hlow, hhigh⟩, rfl⟩ := pushSigframeX86_eq hpush
  have hnat : (pushed.rsp + 8).toNat = pushed.rsp.toNat + 8 := by
    rw [UInt64.toNat_add]
    exact Nat.mod_eq_of_lt (Nat.lt_trans (Nat.add_lt_add_right hhigh 8) (by decide))
  rw [sysRtSigreturn]
  cases hread : copyFromUser t.mem e.rsp.toNat SIGFRAME_X86_SIZE with
  | none =>
    -- the frame is pushed 240 bytes or more below the stack pointer
    rintro rfl
    have hle : pushed.rsp.toNat ≤ (e.rsp - 240).toNat := by
      conv_lhs => rw [hrsp, UInt64.toNat_and]
      exact Nat.and_le_left
    rw [hret, UInt64.toNat_sub, hnat] at hle
    have hbig : pushed.rsp.toNat < 2 ^ 47 := hhigh
    change _ ≤ (2 ^ 64 - 240 + _) % 2 ^ 64 at hle
    omega
  | some sf =>
    have hbytes : ∀ i < 232, sf[i]? = (sigFrameX86 frame sa info (s.sigmask tid))[i + 8]? := by
      intro i hi
      rw [User.copyFromUser_get hread (by rw [SIGFRAME_X86_SIZE]; omega), hret, hnat, Nat.add_assoc, Nat.add_comm 8,
        hmem _ (by rw [SIGFRAME_X86_SIZE]; omega), User.overlay, if_pos (Nat.le_add_right ..), Nat.add_sub_cancel_left,
        getElem?_eq_getElem (by rw [length_sigFrameX86, SIGFRAME_X86_SIZE]; omega), some_or]
    have hshift : ∀ off ≤ 224, field sf off = field (sigFrameX86 frame sa info (s.sigmask tid)) (off + 8) := by
      intro off hoff
      exact field_shifted fun i hi => hbytes i (by omega)
    obtain ⟨hrip, hflags, hcs⟩ := field_sigFrameX86 frame sa info (s.sigmask tid)
    intro hframe
    have hsegment : frame.rsp = 0x1b := calc
      frame.rsp = field sf 168 := congrArg SyscallFrame.rsp hframe.symm
      _ = frame.rip := (hshift 168 (by decide)).trans hrip
      _ = field sf 176 := congrArg SyscallFrame.rip hframe.symm
      _ = frame.rflags := (hshift 176 (by decide)).trans hflags
      _ = field sf 184 := congrArg SyscallFrame.rflags hframe.symm
      _ = 0x1b := (hshift 184 (by decide)).trans hcs
    rw [hrsp, hsegment] at hhigh
    exact absurd hhigh (by decide)

def mapped : State := { calm with mem := fun _ => some 0 }

def atMain : SyscallFrame := { zeroFrame with rip := 0x400000, rsp := 0x8000 }

theorem sysRtSigreturn_never_restores_main : ∃ pushed mem,
    mapped.pushSigframeX86 1 atMain {} (kernelSig 10) = some (pushed, mem) ∧
      (State.sysRtSigreturn { mapped with mem := mem } 1 { pushed with rsp := pushed.rsp + 8 }).2 ≠ atMain := by
  have hsome : (mapped.pushSigframeX86 1 atMain {} (kernelSig 10)).isSome := by decide +kernel
  obtain ⟨⟨pushed, mem⟩, hpush⟩ := isSome_iff_exists.mp hsome
  exact ⟨pushed, mem, hpush, sysRtSigreturn_never_restores (t := { mapped with mem := mem }) hpush (fun _ _ => rfl) rfl⟩

/-- The return from the handler reads every field eight bytes too high, and goes on at 0. -/
theorem sysRtSigreturn_shifted : atMain.rip = 0x400000 ∧ (mapped.pushSigframeX86 1 atMain {} (kernelSig 10)).map (fun r =>
    (State.sysRtSigreturn { mapped with mem := r.2 } 1 { r.1 with rsp := r.1.rsp + 8 }).2.rip) = some 0 := by
  decide +kernel

end Moxide.Signal
