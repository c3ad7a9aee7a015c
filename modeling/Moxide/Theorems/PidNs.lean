import Moxide.Lib.Reach
import Moxide.PidNs

namespace Moxide.PidNs
open Lib List State
open Option hiding or_assoc
open Function (update_apply)

/-! ### What a namespace can see -/

inductive Above (s : State) : NsId → NsId → Prop where
  | refl (ns : NsId) : Above s ns ns
  | parent {ns a : NsId} {e : PidNsEntry} (hinit : ns ≠ INIT_NS) (he : s.table ns = some e) (h : Above s e.parent a) :
      Above s ns a

def State.within (s : State) : Nat → NsId → Bool
  | 0, ns => ns == INIT_NS
  | k + 1, ns => ns == INIT_NS || (s.table ns).any fun e => s.within k e.parent

/-- `reg ns g`: the process `g` has been registered in `ns` or below it and not been unregistered there. -/
structure System where
  code : State
  reg : NsId → Pid → Prop

def System.Live (s : System) (g : Pid) : Prop := ∃ ns, s.reg ns g

inductive Event where
  | create (parent : NsId)
  | register (ns : NsId) (g : Pid)
  | unregister (ns : NsId) (g : Pid)

namespace System

def init : System := ⟨State.initPidNs, fun _ _ => False⟩

def step (s : System) : Event → System
  | .create parent => { s with code := (s.code.createPidNs parent).1 }
  | .register ns g => ⟨(s.code.registerPid ns g).1, fun n p => s.reg n p ∨ p = g ∧ Above s.code ns n⟩
  | .unregister ns g => ⟨s.code.unregisterPid ns g, fun n p => s.reg n p ∧ ¬ (p = g ∧ Above s.code ns n)⟩

/-- The namespaces form a forest of depth at most 31, a process that is registered is not registered yet, and the counter of
    no level of its namespace wraps. -/
def Ok (s : System) : Event → Prop
  | .create parent => s.code.within 30 parent = true
  | .register ns g =>
    s.code.within 31 ns = true ∧ (∀ n, ¬ s.reg n g) ∧
      ∀ n e, n ∈ s.code.ancestorChain ns → s.code.table n = some e → e.counter.toNat + 1 < 2 ^ 32
  | .unregister ns _ => s.code.within 31 ns = true

def Reachable (s : System) : Prop := Reach (fun s e t => t = step s e) Ok init s

end System

/-- The first process registered in each namespace that has had one, as long as it is registered. -/
abbrev Firsts := NsId → Option (Option Pid)

open Classical in
noncomputable def Firsts.step (first : Firsts) (s : System) : Event → Firsts
  | .create _ => first
  | .register ns g => fun n => if Above s.code ns n then (first n).or (some (some g)) else first n
  | .unregister ns g => fun n => if Above s.code ns n ∧ first n = some (some g) then some none else first n

/-- The two maps are inverse to each other and number the processes `reg`, below the counter unless that has come round to 0,
    and the first process with 1. -/
structure Numbers (strict : Prop) (e : PidNsEntry) (reg : Pid → Prop) (first : Option (Option Pid)) : Prop where
  known : ∀ g, (∃ l, SortedMap.get e.map g = some l) ↔ reg g
  inverse : ∀ g l, SortedMap.get e.map g = some l ↔ e.rmap l = some g
  below : e.counter ≠ 0 → ∀ l g, e.rmap l = some g → l.toNat < e.counter.toNat
  nonzero : strict → e.counter ≠ 0
  start : first = none → e.counter = 1
  one : ∀ g, first = some (some g) → SortedMap.get e.map g = some 1

variable {strict : Prop} {e : PidNsEntry} {reg : Pid → Prop} {g : Pid} {first : Option (Option Pid)}

theorem numbers_new (parent : NsId) : Numbers strict (.new parent) (fun _ => False) none := by
  constructor <;> simp [PidNsEntry.new, SortedMap.get]

theorem Numbers.alloc (h : Numbers strict e reg first) (hg : ¬ reg g) (hc : e.counter ≠ 0)
    (hstrict : strict → e.counter + 1 ≠ 0) :
    Numbers strict (e.alloc g) (fun p => reg p ∨ p = g) (first.or (some (some g))) := by
  have hnone : SortedMap.get e.map g = none := by
    rw [eq_none_iff_forall_ne_some]
    intro l hl
    exact hg ((h.known g).mp ⟨l, hl⟩)
  have hunused : e.rmap e.counter = none := by
    rw [eq_none_iff_forall_ne_some]
    intro p hp
    exact absurd (h.below hc _ _ hp) (lt_irrefl _)
  refine ⟨?_, ?_, ?_, hstrict, ?_, ?_⟩
  · intro p
    simp only [PidNsEntry.alloc, SortedMap.get_insert]
    by_cases hp : p = g
    · simp [hp]
    · simp [hp, ← h.known p]
  · intro p l
    simp only [PidNsEntry.alloc, SortedMap.get_insert, update_apply]
    by_cases hp : p = g <;> by_cases hl : l = e.counter
    · simp [hp, hl]
    · rw [if_neg hl, hp, ← h.inverse, hnone]
      simp [Ne.symm hl]
    · rw [if_neg hp, hl, h.inverse, hunused]
      simp [Ne.symm hp]
    · rw [if_neg hp, if_neg hl]
      exact h.inverse p l
  · intro hnext l p hl
    change l.toNat < (e.counter + 1).toNat
    have hcounter : (e.counter + 1).toNat = e.counter.toNat + 1 := by
      have hzero : (e.counter + 1).toNat ≠ 0 := fun h0 => hnext (UInt32.toNat_inj.mp h0)
      have := e.counter.toNat_lt
      change (e.counter.toNat + 1) % 2 ^ 32 ≠ 0 at hzero
      change (e.counter.toNat + 1) % 2 ^ 32 = _
      omega
    rw [hcounter]
    simp only [PidNsEntry.alloc, update_apply] at hl
    split_ifs at hl with heq
    · rw [heq]
      exact Nat.lt_succ_self _
    · exact Nat.lt_succ_of_lt (h.below hc l p hl)
  · simp
  · intro p hp
    simp only [PidNsEntry.alloc, SortedMap.get_insert]
    cases first with
    | none =>
      cases hp
      rw [if_pos rfl, h.start rfl]
    | some f =>
      have hone := h.one p hp
      rw [if_neg, hone]
      rintro rfl
      exact hg ((h.known p).mp ⟨1, hone⟩)

theorem Numbers.remove (h : Numbers strict e reg first) (g : Pid) :
    Numbers strict (e.remove g) (fun p => reg p ∧ p ≠ g) (if first = some (some g) then some none else first) := by
  rw [PidNsEntry.remove]
  cases hg : SortedMap.get e.map g with
  | none =>
    have hfirst : first ≠ some (some g) := by
      intro hf
      rw [h.one g hf] at hg
      cases hg
    rw [if_neg hfirst]
    have hall : (fun p => reg p ∧ p ≠ g) = reg := by
      funext p
      refine propext ⟨And.left, fun hp => ⟨hp, ?_⟩⟩
      rintro rfl
      obtain ⟨l, hl⟩ := (h.known p).mpr hp
      rw [hg] at hl
      cases hl
    rw [hall]
    exact h
  | some l₀ =>
    refine ⟨?_, ?_, ?_, h.nonzero, ?_, ?_⟩
    · intro p
      simp only [SortedMap.get_remove]
      by_cases hp : p = g
      · simp [hp]
      · simp [hp, ← h.known p]
    · intro p l
      simp only [SortedMap.get_remove, update_apply]
      by_cases hp : p = g <;> by_cases hl : l = l₀
      · simp [hp, hl]
      · rw [if_neg hl, hp, ← h.inverse, hg]
        simp [Ne.symm hl]
      · rw [if_neg hp, hl, h.inverse, (h.inverse g l₀).mp hg]
        simp [Ne.symm hp]
      · rw [if_neg hp, if_neg hl]
        exact h.inverse p l
    · intro hc l p hl
      simp only [update_apply] at hl
      split_ifs at hl with heq
      exact h.below hc l p hl
    · intro hf
      split_ifs at hf
      exact h.start hf
    · intro p hp
      split_ifs at hp with hf
      · cases hp
      rw [SortedMap.get_remove, if_neg, h.one p hp]
      rintro rfl
      exact hf hp

/-! ### The levels above a namespace -/

variable {s : State} {ns a : NsId} {k : Nat}

def State.levels (s : State) (ns : NsId) : List NsId := (s.ancestorChain ns).takeWhile (· ≠ INIT_NS)

theorem within_cases (h : s.within (k + 1) ns) (hns : ns ≠ INIT_NS) : ∃ e, s.table ns = some e ∧ s.within k e.parent := by
  rw [within, Bool.or_eq_true, beq_iff_eq] at h
  have hany := h.resolve_left hns
  cases he : s.table ns with
  | none =>
    rw [he] at hany
    cases hany
  | some e =>
    rw [he] at hany
    exact ⟨e, rfl, hany⟩

theorem above_init (h : Above s INIT_NS a) : a = INIT_NS := by
  cases h with
  | refl => rfl
  | parent hinit _ _ => exact absurd rfl hinit

theorem takeWhile_chain_init : (s.chain k INIT_NS).takeWhile (· ≠ INIT_NS) = [] := by
  cases k with
  | zero => rfl
  | succ k => rw [chain, takeWhile_cons_of_neg (by simp)]

theorem mem_chain_init (hns : ns = INIT_NS) : a ∈ (s.chain k ns).takeWhile (· ≠ INIT_NS) ↔ Above s ns a ∧ a ≠ INIT_NS := by
  rw [hns, takeWhile_chain_init]
  exact iff_of_false not_mem_nil fun ⟨habove, hne⟩ => hne (above_init habove)

theorem mem_takeWhile_chain (h : s.within k ns) :
    a ∈ (s.chain (k + 1) ns).takeWhile (· ≠ INIT_NS) ↔ Above s ns a ∧ a ≠ INIT_NS := by
  induction k generalizing ns with
  | zero => exact mem_chain_init (beq_iff_eq.mp h)
  | succ k ih =>
    by_cases hns : ns = INIT_NS
    · exact mem_chain_init hns
    obtain ⟨e, he, hparent⟩ := within_cases h hns
    rw [chain, if_neg hns, he, takeWhile_cons_of_pos (by simpa using hns), mem_cons, ih hparent]
    constructor
    · rintro (rfl | ⟨habove, hne⟩)
      · exact ⟨.refl _, hns⟩
      · exact ⟨.parent hns he habove, hne⟩
    · rintro ⟨habove, hne⟩
      cases habove with
      | refl => exact .inl rfl
      | parent _ he' habove =>
        rw [he] at he'
        cases he'
        exact .inr ⟨habove, hne⟩

theorem mem_levels (h : s.within 31 ns) : a ∈ s.levels ns ↔ Above s ns a ∧ a ≠ INIT_NS :=
  mem_takeWhile_chain h

theorem above_exists (h : s.within k ns) (ha : Above s ns a) : a = INIT_NS ∨ s.table a ≠ none := by
  induction ha generalizing k with
  | refl ns =>
    by_cases hns : ns = INIT_NS
    · exact .inl hns
    cases k with
    | zero => exact absurd (beq_iff_eq.mp h) hns
    | succ k =>
      obtain ⟨e, he, -⟩ := within_cases h hns
      exact .inr (by rw [he]; exact some_ne_none e)
  | parent hinit he _ ih =>
    cases k with
    | zero => exact absurd (beq_iff_eq.mp h) hinit
    | succ k =>
      obtain ⟨e', he', hparent⟩ := within_cases h hinit
      rw [he] at he'
      cases he'
      exact ih hparent

def State.Ordered (s : State) : Prop :=
  ∀ ns e, ns ≠ INIT_NS → s.table ns = some e → e.parent = INIT_NS ∨ e.parent < ns

theorem State.Ordered.parent_lt (ho : s.Ordered) (hns : ns ≠ INIT_NS) (he : s.table ns = some e)
    (h : a ∈ (s.chain k e.parent).takeWhile (· ≠ INIT_NS)) : e.parent < ns := by
  refine (ho ns e hns he).resolve_left fun hp => ?_
  rw [hp, takeWhile_chain_init] at h
  cases h

theorem le_of_mem_chain (ho : s.Ordered) (h : a ∈ (s.chain k ns).takeWhile (· ≠ INIT_NS)) : a ≤ ns := by
  induction k generalizing ns with
  | zero => cases h
  | succ k ih =>
    by_cases hns : ns = INIT_NS
    · rw [hns] at h
      cases h
    rw [chain, if_neg hns, takeWhile_cons_of_pos (by simpa using hns)] at h
    rcases mem_cons.mp h with rfl | h
    · exact le_refl _
    cases he : s.table ns with
    | none =>
      rw [he] at h
      cases h
    | some e =>
      rw [he] at h
      exact (ih h).trans (ho.parent_lt hns he h).le

theorem nodup_chain (ho : s.Ordered) : ((s.chain k ns).takeWhile (· ≠ INIT_NS)).Nodup := by
  induction k generalizing ns with
  | zero => exact nodup_nil
  | succ k ih =>
    by_cases hns : ns = INIT_NS
    · rw [hns]
      exact nodup_nil
    rw [chain, if_neg hns, takeWhile_cons_of_pos (by simpa using hns)]
    cases he : s.table ns with
    | none => exact nodup_singleton ns
    | some e =>
      refine nodup_cons.mpr ⟨fun hmem => ?_, ih⟩
      exact absurd (le_of_mem_chain ho hmem) (not_le.mpr (ho.parent_lt hns he hmem))

theorem eachLevel_apply {f : PidNsEntry → PidNsEntry} {levels : List NsId} {tbl : Table} {n : NsId}
    (h : (levels.takeWhile (· ≠ INIT_NS)).Nodup) :
    eachLevel f levels tbl n = if n ∈ levels.takeWhile (· ≠ INIT_NS) then (tbl n).map f else tbl n := by
  induction levels generalizing tbl with
  | nil => rfl
  | cons level rest ih =>
    rw [eachLevel]
    by_cases hinit : level = INIT_NS
    · rw [if_pos hinit, takeWhile_cons_of_neg (by simpa using hinit), if_neg (not_mem_nil)]
    rw [takeWhile_cons_of_pos (by simpa using hinit)] at h ⊢
    obtain ⟨hnot, hrest⟩ := nodup_cons.mp h
    rw [if_neg hinit, ih hrest]
    by_cases hn : n = level
    · rw [hn, if_neg hnot, Function.update_self, if_pos mem_cons_self]
    · simp only [Function.update_of_ne hn, mem_cons, hn, false_or]

theorem eachLevel_init (f : PidNsEntry → PidNsEntry) (tbl : Table) : eachLevel f (s.ancestorChain INIT_NS) tbl = tbl := by
  rw [ancestorChain, chain, eachLevel, if_pos rfl]

/-! ### The invariant -/

/-- `strict` says that no counter has come round. -/
structure Inv (strict : Prop) (s : System) (first : Firsts) : Prop where
  fresh : ∀ ns, ns ≠ INIT_NS → s.code.table ns ≠ none → ns < s.code.nextNsId
  ordered : s.code.Ordered
  numbers : ∀ ns e, ns ≠ INIT_NS → s.code.table ns = some e → Numbers strict e (s.reg ns) (first ns)
  seen : ∀ ns, first ns ≠ none ∨ (∃ g, s.reg ns g) → ns = INIT_NS ∨ s.code.table ns ≠ none

theorem inv_init : Inv strict System.init fun _ => none := by
  have htable (ns : NsId) (h : ns ≠ INIT_NS) : System.init.code.table ns = none := if_neg h
  refine ⟨?_, ?_, ?_, ?_⟩
  · intro ns hns h
    exact absurd (htable ns hns) h
  · intro ns e hns h
    rw [htable ns hns] at h
    cases h
  · intro ns e hns h
    rw [htable ns hns] at h
    cases h
  · rintro ns (h | ⟨g, h⟩)
    · exact absurd rfl h
    · cases h

section
variable {s : System} {first : Firsts} (h : Inv strict s first)
include h

theorem Inv.create {parent : NsId} (hok : s.code.within 30 parent) : Inv strict (s.step (.create parent)) first := by
  have hparent := above_exists hok (.refl parent)
  have htable (n : NsId) : (s.step (.create parent)).code.table n =
      if n = s.code.nextNsId then some (.new parent) else s.code.table n := update_apply ..
  have hunseen : s.code.nextNsId ≠ INIT_NS → ¬ (first s.code.nextNsId ≠ none ∨ ∃ g, s.reg s.code.nextNsId g) := by
    intro hne hseen
    exact absurd (h.fresh _ hne ((h.seen _ hseen).resolve_left hne)) (lt_irrefl _)
  refine ⟨?_, ?_, ?_, ?_⟩
  · intro n hn hsome
    rw [htable] at hsome
    split_ifs at hsome with hnew
    · rw [hnew]
      exact Nat.lt_succ_self _
    · exact Nat.lt_succ_of_lt (h.fresh n hn hsome)
  · intro n e hn he
    rw [htable] at he
    split_ifs at he with hnew
    · cases he
      by_cases hp : parent = INIT_NS
      · exact .inl hp
      · exact .inr (hnew ▸ h.fresh parent hp (hparent.resolve_left hp))
    · exact h.ordered n e hn he
  · intro n e hn he
    rw [htable] at he
    split_ifs at he with hnew
    · cases he
      obtain ⟨hfirst, hnone⟩ := not_or.mp (hunseen (hnew ▸ hn))
      have hempty : s.reg n = fun _ => False := by
        funext g
        exact eq_false fun hg => hnone ⟨g, hnew ▸ hg⟩
      rw [hnew, not_not.mp hfirst]
      exact (hnew ▸ hempty) ▸ numbers_new parent
    · exact h.numbers n e hn he
  · intro n hseen
    refine (h.seen n hseen).imp id fun hsome => ?_
    rw [htable]
    split_ifs
    · exact some_ne_none _
    · exact hsome

/-- A loop over the levels above a namespace keeps the invariant, if its change of a level fits the change of what the level
    can see. -/
theorem Inv.levels {t : System} {after : Firsts} {ns : NsId} {f : PidNsEntry → PidNsEntry}
    (hns : s.code.within 31 ns) (hnext : t.code.nextNsId = s.code.nextNsId)
    (htable : t.code.table = eachLevel f (s.code.ancestorChain ns) s.code.table) (hparent : ∀ e, (f e).parent = e.parent)
    (hin : ∀ n e, n ∈ s.code.levels ns → Above s.code ns n → s.code.table n = some e → Numbers strict e (s.reg n) (first n) →
      Numbers strict (f e) (t.reg n) (after n))
    (hout : ∀ n, ¬ Above s.code ns n → t.reg n = s.reg n ∧ after n = first n) : Inv strict t after := by
  have hat (n : NsId) : t.code.table n = if n ∈ s.code.levels ns then (s.code.table n).map f else s.code.table n := by
    rw [htable]
    exact eachLevel_apply (nodup_chain h.ordered)
  have hnone (n : NsId) : t.code.table n = none ↔ s.code.table n = none := by
    rw [hat]
    split_ifs
    · exact map_eq_none_iff
    · exact Iff.rfl
  refine ⟨?_, ?_, ?_, ?_⟩
  · intro n hn hsome
    rw [hnext]
    exact h.fresh n hn fun hc => hsome ((hnone n).mpr hc)
  · intro n e hn he
    rw [hat] at he
    split_ifs at he
    · obtain ⟨e₀, he₀, rfl⟩ := map_eq_some_iff.mp he
      rw [hparent]
      exact h.ordered n e₀ hn he₀
    · exact h.ordered n e hn he
  · intro n e hn he
    rw [hat] at he
    split_ifs at he with hlevel
    · obtain ⟨e₀, he₀, rfl⟩ := map_eq_some_iff.mp he
      exact hin n e₀ hlevel ((mem_levels hns).mp hlevel).1 he₀ (h.numbers n e₀ hn he₀)
    obtain ⟨hreg, hfirst⟩ := hout n fun ha => hlevel ((mem_levels hns).mpr ⟨ha, hn⟩)
    rw [hreg, hfirst]
    exact h.numbers n e hn he
  · intro n hseen
    by_cases ha : Above s.code ns n
    · exact (above_exists hns ha).imp id fun hsome hc => hsome ((hnone n).mp hc)
    · obtain ⟨hreg, hfirst⟩ := hout n ha
      rw [hreg, hfirst] at hseen
      exact (h.seen n hseen).imp id fun hsome hc => hsome ((hnone n).mp hc)

variable {ns : NsId} (hns : s.code.within 31 ns)
include hns

theorem Inv.register {g : Pid} (hnew : ∀ n, ¬ s.reg n g)
    (hcounter : ∀ n e, n ∈ s.code.levels ns → s.code.table n = some e → e.counter ≠ 0 ∧ (strict → e.counter + 1 ≠ 0)) :
    Inv strict (s.step (.register ns g)) (first.step s (.register ns g)) := by
  refine h.levels (f := (·.alloc g)) hns ?_ ?_ (fun _ => rfl) ?_ ?_
  · simp only [System.step, registerPid]
    split_ifs <;> rfl
  · simp only [System.step, registerPid]
    split_ifs with hinit
    · rw [hinit, eachLevel_init]
    · rfl
  · intro n e hlevel ha he hnum
    obtain ⟨hc, hstrict⟩ := hcounter n e hlevel he
    simp only [System.step, Firsts.step, ha, and_true, if_true]
    exact hnum.alloc (hnew n) hc hstrict
  · intro n ha
    simp [System.step, Firsts.step, ha]

theorem Inv.unregister {g : Pid} : Inv strict (s.step (.unregister ns g)) (first.step s (.unregister ns g)) := by
  refine h.levels (f := (·.remove g)) hns ?_ ?_ ?_ ?_ ?_
  · simp only [System.step, unregisterPid]
    split_ifs <;> rfl
  · simp only [System.step, unregisterPid]
    split_ifs with hinit
    · rw [hinit, eachLevel_init]
    · rfl
    · rfl
  · intro e
    rw [PidNsEntry.remove]
    split <;> rfl
  · intro n e _ ha _ hnum
    simp only [System.step, Firsts.step, ha, and_true, true_and]
    exact hnum.remove g
  · intro n ha
    simp [System.step, Firsts.step, ha]

end

/-- As `Ok`, but a counter may come round: it starts from 1, so that the registration with the number 2 ^ 32 - 1 makes it
    0. -/
def System.Countable (s : System) : Event → Prop
  | .register ns g =>
    s.code.within 31 ns = true ∧ (∀ n, ¬ s.reg n g) ∧ ∀ n e, n ∈ s.code.levels ns → s.code.table n = some e → e.counter ≠ 0
  | e => s.Ok e

def System.ReachableWith (s : System) (first : Firsts) : Prop :=
  Reach (fun (x : System × Firsts) e y => y = (x.1.step e, x.2.step x.1 e)) (fun x e => x.1.Countable e)
    (init, fun _ => none) (s, first)

theorem inv_reachableWith {s : System} {first : Firsts} (h : s.ReachableWith first) : Inv False s first := by
  refine h.invariant (I := fun x => Inv False x.1 x.2) inv_init ?_
  rintro x e _ hinv hok rfl
  cases e with
  | create parent => exact hinv.create hok
  | register ns g => exact hinv.register hok.1 hok.2.1 fun n e hn he => ⟨hok.2.2 n e hn he, False.elim⟩
  | unregister ns g => exact hinv.unregister hok

theorem exists_reachableWith {s : System} (h : s.Reachable) : ∃ first, s.ReachableWith first := by
  suffices hboth : ∃ first, Inv True s first ∧ s.ReachableWith first from hboth.imp fun _ => And.right
  refine h.invariant (I := fun s => ∃ first, Inv True s first ∧ s.ReachableWith first) ⟨_, inv_init, .start⟩ ?_
  rintro s e _ ⟨first, hinv, hreach⟩ hok rfl
  cases e with
  | create parent => exact ⟨_, hinv.create hok, .step (.create parent) hreach hok rfl⟩
  | register ns g =>
    obtain ⟨hns, hnew, hc⟩ := hok
    have hcounter : ∀ n e, n ∈ s.code.levels ns → s.code.table n = some e → e.counter ≠ 0 ∧ (True → e.counter + 1 ≠ 0) := by
      intro n e hn he
      refine ⟨(hinv.numbers n e ((mem_levels hns).mp hn).2 he).nonzero trivial, fun _ hzero => ?_⟩
      have hlt := hc n e ((takeWhile_sublist _).subset hn) he
      have hsum : (e.counter + 1).toNat = e.counter.toNat + 1 := Nat.mod_eq_of_lt hlt
      rw [hzero] at hsum
      cases hsum
    exact ⟨_, hinv.register hns hnew hcounter,
      .step (.register ns g) hreach ⟨hns, hnew, fun n e hn he => (hcounter n e hn he).1⟩ rfl⟩
  | unregister ns g => exact ⟨_, hinv.unregister hok, .step (.unregister ns g) hreach hok rfl⟩

theorem Inv.globalPid_localPid {s : System} {first : Firsts} (h : Inv strict s first) {ns : NsId} (hns : ns ≠ INIT_NS)
    (hg : s.reg ns g) : s.code.globalPid ns (s.code.localPid ns g) = g := by
  obtain ⟨e, htable⟩ := ne_none_iff_exists'.mp ((h.seen ns (.inr ⟨g, hg⟩)).resolve_left hns)
  have hnum := h.numbers ns e hns htable
  obtain ⟨l, hl⟩ := (hnum.known g).mpr hg
  simp only [localPid, globalPid, if_neg hns, htable, bind_some, PidNsEntry.localOf, PidNsEntry.globalOf, hl,
    map_some, getD_some, UInt32.ofNat_toNat, (hnum.inverse g l).mp hl]

/-- The numbers that a namespace gives to the processes in it and below lead back to them, and the first process registered
    has number 1 as long as it is registered. -/
theorem pid_translation_inverts {s : System} {first : Firsts} (h : s.ReachableWith first) {ns : NsId} (hns : ns ≠ INIT_NS) :
    (∀ g, s.reg ns g → s.code.globalPid ns (s.code.localPid ns g) = g) ∧
    (∀ g g', s.reg ns g → s.reg ns g' → g ≠ g' → s.code.localPid ns g ≠ s.code.localPid ns g') ∧
    ∀ g, first ns = some (some g) → s.code.localPid ns g = 1 := by
  have hinv := inv_reachableWith h
  refine ⟨fun g => hinv.globalPid_localPid hns, fun g g' hg hg' hne heq => hne ?_, fun g hfirst => ?_⟩
  · rw [← hinv.globalPid_localPid hns hg, heq, hinv.globalPid_localPid hns hg']
  · have hsome : first ns ≠ none := by simp [hfirst]
    obtain ⟨e, htable⟩ := ne_none_iff_exists'.mp ((hinv.seen ns (.inl hsome)).resolve_left hns)
    simp only [localPid, if_neg hns, htable, bind_some, PidNsEntry.localOf,
      (hinv.numbers ns e hns htable).one g hfirst, map_some, getD_some]
    rfl

def State.Knows (s : State) (ns : NsId) (l : Nat) : Prop :=
  ∃ e g, s.table ns = some e ∧ e.globalOf (UInt32.ofNat l) = some g

/-- A number that a namespace knows, or that is no live process's, leads to no process the namespace cannot see; and the
    processes it can see have different numbers. -/
theorem pid_ns_isolated {s : System} (h : s.Reachable) {ns : NsId} (hns : ns ≠ INIT_NS) :
    (∀ l, s.code.Knows ns l ∨ ¬ s.Live l → s.Live (s.code.globalPid ns l) → s.reg ns (s.code.globalPid ns l)) ∧
    (∀ g g', s.reg ns g → s.reg ns g' → g ≠ g' → s.code.localPid ns g ≠ s.code.localPid ns g') := by
  obtain ⟨first, hfirst⟩ := exists_reachableWith h
  have hinv := inv_reachableWith hfirst
  constructor
  · intro l hl hlive
    cases he : (s.code.table ns).bind (·.globalOf (UInt32.ofNat l)) with
    | none =>
      rw [globalPid, if_neg hns, he] at hlive
      rcases hl with ⟨e, g, htable, hg⟩ | hdead
      · rw [htable, bind_some, hg] at he
        cases he
      · exact absurd hlive hdead
    | some g =>
      rw [globalPid, if_neg hns, he]
      obtain ⟨e, htable, hg⟩ := bind_eq_some_iff.mp he
      have hnum := hinv.numbers ns e hns htable
      exact (hnum.known g).mp ⟨_, (hnum.inverse _ _).mpr hg⟩
  · intro g g' hg hg' hne heq
    refine hne ?_
    rw [← hinv.globalPid_localPid hns hg, heq, hinv.globalPid_localPid hns hg']

/-- Processes 1 and 5 are registered in the initial namespace, and process 100 in a namespace below it. -/
def twoLevels : System :=
  (((System.init.step (.register INIT_NS 1)).step (.register INIT_NS 5)).step (.create INIT_NS)).step (.register 1 100)

theorem reg_twoLevels (ns : NsId) (g : Pid) : twoLevels.reg ns g ↔
    (g = 1 ∧ ns = INIT_NS) ∨ (g = 5 ∧ ns = INIT_NS) ∨ (g = 100 ∧ (ns = 1 ∨ ns = INIT_NS)) := by
  have hinit (s : State) : Above s INIT_NS ns ↔ ns = INIT_NS := ⟨above_init, fun h => h ▸ .refl _⟩
  have hone {s : State} (h : s.table 1 = some (.new INIT_NS)) : Above s 1 ns ↔ ns = 1 ∨ ns = INIT_NS := by
    constructor
    · intro ha
      cases ha with
      | refl => exact .inl rfl
      | parent _ he ha =>
        rw [h] at he
        cases he
        exact .inr (above_init ha)
    · rintro (rfl | rfl)
      · exact .refl _
      · exact .parent (by decide) h (.refl _)
  have hcreated :
    (((System.init.step (.register INIT_NS 1)).step (.register INIT_NS 5)).step (.create INIT_NS)).code.table 1 =
      some (.new INIT_NS) := rfl
  simp only [twoLevels, System.step, hinit, System.init, false_or, or_assoc]
  exact or_congr_right (or_congr_right (and_congr_right fun _ => hone hcreated))

theorem System.Reachable.register {s : System} (h : s.Reachable) (ns : NsId) (g : Pid) (hns : s.code.within 31 ns)
    (hnew : ∀ n, ¬ s.reg n g)
    (hc : ((s.code.ancestorChain ns).all fun n => (s.code.table n).all fun e => e.counter.toNat + 1 < 2 ^ 32)) :
    (s.step (.register ns g)).Reachable := by
  refine .step (.register ns g) h ⟨hns, hnew, fun n e hn he => ?_⟩ rfl
  simpa [he] using all_eq_true.mp hc n hn

theorem reachable_twoLevels : twoLevels.Reachable := by
  have h1 := System.Reachable.register .start INIT_NS 1 (by decide) (fun _ hn => hn) (by decide)
  have h5 := h1.register INIT_NS 5 (by decide) (by simp [System.step, System.init]) (by decide)
  have hcreate : System.Reachable
      (((System.init.step (.register INIT_NS 1)).step (.register INIT_NS 5)).step (.create INIT_NS)) :=
    .step (.create INIT_NS) h5 (Eq.refl true) rfl
  exact hcreate.register 1 100 (by decide) (by simp [System.step, System.init]) (by decide)

theorem pid_ns_isolated_two : twoLevels.code.globalPid 1 1 = 100 ∧ twoLevels.reg 1 (twoLevels.code.globalPid 1 1) := by
  refine ⟨rfl, (pid_ns_isolated reachable_twoLevels (by decide)).1 1 (.inl ?_) ?_⟩
  · exact ⟨_, 100, rfl, rfl⟩
  · exact ⟨1, (reg_twoLevels 1 100).mpr (.inr (.inr ⟨rfl, .inl rfl⟩))⟩

/-- Process 200 is registered beside process 100. -/
theorem pid_translation_inverts_two :
    let s := twoLevels.step (.register 1 200)
    s.Reachable ∧ s.code.globalPid 1 (s.code.localPid 1 100) = 100 ∧ s.code.globalPid 1 (s.code.localPid 1 200) = 200 ∧
      s.code.localPid 1 100 ≠ s.code.localPid 1 200 := by
  intro s
  have hnew (n : NsId) : ¬ twoLevels.reg n 200 := by simp [reg_twoLevels]
  have hs : s.Reachable := reachable_twoLevels.register 1 200 (by decide) hnew (by decide)
  have h100 : s.reg 1 100 := .inl ((reg_twoLevels 1 100).mpr (.inr (.inr ⟨rfl, .inl rfl⟩)))
  have h200 : s.reg 1 200 := .inr ⟨rfl, .refl _⟩
  obtain ⟨first, hfirst⟩ := exists_reachableWith hs
  obtain ⟨hback, hdistinct, -⟩ := pid_translation_inverts hfirst (show (1 : NsId) ≠ INIT_NS by decide)
  exact ⟨hs, hback 100 h100, hback 200 h200, hdistinct 100 200 h100 h200 (by decide)⟩

/-- In the lower namespace the number 5 leads to a process outside of it, and process 1 outside of it has the number of
    process 100. -/
theorem pid_ns_not_isolated : twoLevels.Reachable ∧
    (twoLevels.Live (twoLevels.code.globalPid 1 5) ∧ ¬ twoLevels.reg 1 (twoLevels.code.globalPid 1 5)) ∧
    (twoLevels.reg 1 100 ∧ twoLevels.code.localPid 1 1 = twoLevels.code.localPid 1 100) := by
  have hglobal : twoLevels.code.globalPid 1 5 = 5 := rfl
  refine ⟨reachable_twoLevels, ⟨?_, ?_⟩, ?_, rfl⟩
  · rw [hglobal]
    exact ⟨INIT_NS, (reg_twoLevels INIT_NS 5).mpr (.inr (.inl ⟨rfl, rfl⟩))⟩
  · rw [hglobal, reg_twoLevels]
    decide
  · exact (reg_twoLevels 1 100).mpr (.inr (.inr ⟨rfl, .inl rfl⟩))

end Moxide.PidNs
