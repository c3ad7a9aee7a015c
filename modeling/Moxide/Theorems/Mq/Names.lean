import Moxide.Lib.Reach
import Moxide.Mq

/-! The last `mq_close` of an unlinked queue removes its name, whichever queue the name denotes by then. -/

namespace Moxide.Mq
open Function (update update_eq_self update_of_ne update_self)
open Lib List Option

def MqObject.skeleton (o : MqObject) : String × Nat × Bool × Nat × UInt64 :=
  (o.name, o.refs, o.inner.unlinked, o.inner.creatorPid, o.inner.queueCharge)

namespace State
variable {s t : State} {name : String} {q i : Nat}

def names (s : State) : List String := s.objects.map (·.name)

def marks (s : State) : List Bool := s.objects.map (·.inner.unlinked)

def LastCreated (s : State) (name : String) (q : Nat) : Prop :=
  s.names[q]? = some name ∧ ∀ p, s.names[p]? = some name → p ≤ q

def Unlinked (s : State) (q : Nat) : Prop := s.marks[q]? = some true

def NamesLast (s : State) : Prop := ∀ name q, s.queues name = some q ↔ s.LastCreated name q ∧ ¬ s.Unlinked q

theorem LastCreated.unique {p : Nat} (hp : s.LastCreated name p) (hq : s.LastCreated name q) : p = q :=
  le_antisymm (hq.2 p hp.1) (hp.2 q hq.1)

/-! ### Steps that leave the table -/

structure SameNames (s t : State) : Prop where
  queues : t.queues = s.queues
  names : t.names = s.names
  marks : t.marks = s.marks

theorem NamesLast.same (h : s.NamesLast) (hst : s.SameNames t) : t.NamesLast := by
  intro name q
  rw [LastCreated, Unlinked, hst.queues, hst.names, hst.marks]
  exact h name q

theorem SameNames.of_eq (hq : t.queues = s.queues) (ho : t.objects = s.objects) : s.SameNames t :=
  ⟨hq, by rw [State.names, State.names, ho], by rw [State.marks, State.marks, ho]⟩

theorem map_modify_eq {α β : Type} (g : α → β) {f : α → α} (hf : ∀ o, g (f o) = g o) (l : List α) (q : Nat) :
    (l.modify q f).map g = l.map g := by
  refine ext_getElem? fun p => ?_
  rw [getElem?_map, getElem?_map, getElem?_modify, Option.map_eq_map, Option.map_map]
  congr 1
  funext o
  split
  · exact hf o
  · rfl

theorem SameNames.modify {f : MqObject → MqObject} (hq : t.queues = s.queues)
    (ho : t.objects = s.objects.modify q f) (hname : ∀ o, (f o).name = o.name)
    (hmark : ∀ o, (f o).inner.unlinked = o.inner.unlinked) : s.SameNames t := by
  refine ⟨hq, ?_, ?_⟩
  · rw [State.names, ho, map_modify_eq _ hname, State.names]
  · rw [State.marks, ho, map_modify_eq (fun o : MqObject => o.inner.unlinked) hmark, State.marks]

theorem SameNames.setInner {f : MqInner → MqInner} (hq : t.queues = s.queues)
    (ho : t.objects = (s.setInner q f).objects) (hmark : ∀ inner, (f inner).unlinked = inner.unlinked) :
    s.SameNames t :=
  .modify hq ho (fun _ => rfl) fun o => hmark o.inner

structure SameTables (s t : State) : Prop where
  queues : t.queues = s.queues
  mqds : t.mqds = s.mqds
  nextMqd : t.nextMqd = s.nextMqd
  skeletons : t.objects.map MqObject.skeleton = s.objects.map MqObject.skeleton

section
variable (hq : t.queues = s.queues) (hm : t.mqds = s.mqds) (hn : t.nextMqd = s.nextMqd)
include hq hm hn

theorem SameTables.of_eq (ho : t.objects = s.objects) : s.SameTables t := ⟨hq, hm, hn, by rw [ho]⟩

theorem SameTables.setInner {f : MqInner → MqInner} (ho : t.objects = (s.setInner q f).objects)
    (hf : ∀ o : MqObject, { o with inner := f o.inner }.skeleton = o.skeleton) : s.SameTables t :=
  ⟨hq, hm, hn, by rw [ho]; exact map_modify_eq _ hf _ _⟩

end

theorem tables_charge (s : State) (soft : UInt64) (pid : Nat) (bytes : UInt64) :
    s.SameTables (s.mqBytesCharge soft pid bytes).1 ∧ (s.mqBytesCharge soft pid bytes).1.objects = s.objects ∧
      (s.mqBytesCharge soft pid bytes).1.calls = s.calls := by
  simp only [mqBytesCharge]
  split <;> exact ⟨.of_eq rfl rfl rfl rfl, rfl, rfl⟩

theorem tables_discharge (s : State) (pid : Nat) (bytes : UInt64) :
    s.SameTables (s.mqBytesDischarge pid bytes) ∧ (s.mqBytesDischarge pid bytes).objects = s.objects ∧
      (s.mqBytesDischarge pid bytes).calls = s.calls := by
  simp only [mqBytesDischarge]
  split <;> exact ⟨.of_eq rfl rfl rfl rfl, rfl, rfl⟩

theorem tables_serve (s : State) (q i : Nat) :
    s.SameTables (s.serve q i) ∧ (s.serve q i).objects = s.objects ∧ (s.serve q i).calls = s.calls ∧
      (s.serve q i).mqBytes = s.mqBytes := by
  simp only [serve]
  split <;> exact ⟨.of_eq rfl rfl rfl rfl, rfl, rfl, rfl⟩

theorem sameNames_sendStep {c : SendCall} {soft : UInt64} (hs : s.sendStep i c soft = some t) : s.SameNames t := by
  rw [sendStep] at hs
  split at hs
  · cases hs
    exact .of_eq rfl rfl
  · cases hs
    obtain ⟨hsame, ho, -⟩ := s.tables_charge soft _ _
    exact .of_eq hsame.queues ho
  · cases hs
    rw [sendInsert]
    split
    · exact .of_eq rfl rfl
    split
    · obtain ⟨hsame, ho, -⟩ := s.tables_discharge _ _
      exact .of_eq hsame.queues ho
    · exact .setInner (f := (pushMsg · _)) rfl rfl fun _ => rfl
  · cases hs

theorem sameNames_recvStep {c : RecvCall} (hs : s.recvStep i c = some t) : s.SameNames t := by
  rw [recvStep] at hs
  split at hs
  · cases hs
    simp only [recvPop]
    split
    · exact .of_eq rfl rfl
    split
    · exact .of_eq rfl rfl
    split
    · exact .of_eq rfl rfl
    split
    · obtain ⟨hsame, ho, -⟩ := tables_serve (s.setInner _ (popMsg · _)) _ i
      exact .setInner hsame.queues ho fun _ => rfl
    · split
      · exact .of_eq rfl rfl
      · exact .of_eq rfl rfl
  · cases hs
    obtain ⟨hsame, ho, -⟩ := s.tables_discharge _ _
    exact .of_eq hsame.queues ho
  · cases hs
  · cases hs

structure Closed (s t : State) (mqd : UInt64) (e : MqdEntry) (o : MqObject) : Prop where
  mqds : t.mqds = update s.mqds mqd none
  nextMqd : t.nextMqd = s.nextMqd
  objects : t.objects = s.objects.modify e.queue fun o => { o with refs := o.refs - 1 }
  calls : t.calls = s.calls
  queues : ∀ name p, t.queues name = some p ↔
    s.queues name = some p ∧ ¬ (o.refs = 1 ∧ o.inner.unlinked = true ∧ name = o.name)
  bytes : t.mqBytes = if o.refs = 1 then (s.mqBytesDischarge o.inner.creatorPid o.inner.queueCharge).mqBytes else s.mqBytes

theorem closed_mqClose {mqd : UInt64} {e : MqdEntry} {o : MqObject} (he : s.mqds mqd = some e)
    (ho : s.objects[e.queue]? = some o) : s.Closed (s.mqClose mqd).1 mqd e o := by
  have hdis : ∀ u : State, u.mqBytes = s.mqBytes →
      (u.mqBytesDischarge o.inner.creatorPid o.inner.queueCharge).mqBytes =
        (s.mqBytesDischarge o.inner.creatorPid o.inner.queueCharge).mqBytes := by
    intro u hu
    simp only [mqBytesDischarge, hu]
    split
    · exact hu
    · rfl
  simp only [mqClose, he, ho]
  by_cases hone : o.refs = 1
  · rw [if_pos hone]
    obtain ⟨hsame, hobj, hcalls⟩ := tables_discharge { s with
      mqds := update s.mqds mqd none
      objects := s.objects.modify e.queue fun o => { o with refs := o.refs - 1 } } o.inner.creatorPid o.inner.queueCharge
    by_cases hun : o.inner.unlinked
    · rw [if_pos hun]
      refine ⟨hsame.mqds, hsame.nextMqd, hobj, hcalls, fun name p => ?_, ?_⟩
      · rw [hsame.queues]
        by_cases hname : name = o.name
        · simp [hname, hone, hun]
        · simp [hname]
      · rw [if_pos hone]
        exact hdis _ rfl
    · rw [if_neg hun]
      refine ⟨hsame.mqds, hsame.nextMqd, hobj, hcalls, fun name p => ?_, ?_⟩
      · rw [hsame.queues]
        simp [hun]
      · rw [if_pos hone]
        exact hdis _ rfl
  · rw [if_neg hone]
    exact ⟨rfl, rfl, rfl, rfl, fun name p => by simp [hone], by rw [if_neg hone]⟩

/-! ### Creation and removal -/

theorem names_lt (h : s.names[q]? = some name) : q < s.names.length :=
  (List.getElem?_eq_some_iff.mp h).1

section
variable (h : s.NamesLast)
include h

theorem NamesLast.create (name : String) (hnames : t.names = s.names ++ [name])
    (hmarks : t.marks = s.marks ++ [false]) (hqueues : t.queues = update s.queues name (some s.names.length)) :
    t.NamesLast := by
  have hlen : s.marks.length = s.names.length := by rw [marks, names, length_map, length_map]
  have hnew : t.names[s.names.length]? = some name := by rw [hnames, getElem?_concat_length]
  have hlast : t.LastCreated name s.names.length := by
    refine ⟨hnew, fun p hp => ?_⟩
    have := names_lt hp
    rw [hnames, length_append] at this
    exact Nat.lt_succ_iff.mp this
  intro name' q
  rw [hqueues]
  by_cases heq : name' = name
  · subst heq
    rw [update_self]
    constructor
    · intro hq
      obtain rfl := some.inj hq
      refine ⟨hlast, ?_⟩
      rw [Unlinked, hmarks, ← hlen, getElem?_concat_length]
      exact fun hf => Bool.noConfusion (some.inj hf)
    · rintro ⟨hq, -⟩
      rw [hlast.unique hq]
  · rw [update_of_ne heq, h name' q]
    have hold : ∀ p : Nat, t.names[p]? = some name' ↔ s.names[p]? = some name' := by
      intro p
      rw [hnames]
      rcases Nat.lt_trichotomy p s.names.length with hp | rfl | hp
      · rw [getElem?_append_left hp]
      · rw [getElem?_concat_length, getElem?_eq_none le_rfl]
        exact ⟨fun hf => absurd (some.inj hf).symm heq, fun hf => nomatch hf⟩
      · rw [getElem?_eq_none (le_of_lt hp), getElem?_eq_none]
        rwa [length_append]
    simp only [LastCreated, hold]
    refine and_congr_right fun hq => not_congr ?_
    rw [Unlinked, Unlinked, hmarks, getElem?_append_left (hlen ▸ names_lt hq.1)]

theorem NamesLast.unlink (hq : s.queues name = some q) (hnames : t.names = s.names) (hmarks : t.marks = s.marks.set q true)
    (hqueues : t.queues = update s.queues name none) : t.NamesLast := by
  obtain ⟨hlast, -⟩ := (h name q).mp hq
  have hlt : q < s.marks.length := by
    have hq := names_lt hlast.1
    rw [names, length_map] at hq
    rwa [marks, length_map]
  intro name' p
  rw [hqueues, LastCreated, hnames]
  by_cases heq : name' = name
  · subst heq
    rw [update_self]
    constructor
    · intro hf
      cases hf
    rintro ⟨hp, hnot⟩
    obtain rfl := hlast.unique hp
    refine absurd ?_ hnot
    rw [Unlinked, hmarks, getElem?_set_self hlt]
  · rw [update_of_ne heq, h name' p]
    refine and_congr_right fun hp => not_congr ?_
    have hne : q ≠ p := by
      rintro rfl
      exact heq (some.inj (hp.1.symm.trans hlast.1))
    rw [Unlinked, Unlinked, hmarks, getElem?_set_ne hne]

theorem namesLast_mqOpen (name : String) (oflag : UInt32) (attr : Option MqAttr) (pid : Nat)
    (soft : UInt64) : (s.mqOpen name oflag attr pid soft).1.NamesLast := by
  rw [mqOpen]
  split
  · exact h
  split
  · split
    · exact h
    · exact h.same (.modify rfl rfl (fun _ => rfl) fun _ => rfl)
  split
  · exact h
  dsimp only
  split
  · exact h
  obtain ⟨hsame, ho, -⟩ := s.tables_charge soft pid (QUEUE_OVERHEAD +
    (attr.getD ⟨0, MQ_MAXMSG, MQ_MSGSIZE, 0⟩).mqMaxmsg.toUInt64 *
      (MSG_OVERHEAD + (attr.getD ⟨0, MQ_MAXMSG, MQ_MSGSIZE, 0⟩).mqMsgsize.toUInt64))
  split
  · exact h.same (.of_eq hsame.queues ho)
  refine h.create name ?_ ?_ ?_
  · simp [names, allocMqd, ho]
  · simp [marks, allocMqd, ho]
  · simp [names, allocMqd, ho, hsame.queues]

theorem namesLast_mqUnlink (name : String) : (s.mqUnlink name).1.NamesLast := by
  rw [mqUnlink]
  split
  · exact h
  rename_i q hq
  refine h.unlink hq ?_ ?_ rfl
  · refine map_modify_eq (fun o : MqObject => o.name) ?_ s.objects q
    intro _
    rfl
  · refine ext_getElem? fun p => ?_
    simp only [marks, setInner, getElem?_map, getElem?_modify, getElem?_set, length_map]
    by_cases hp : q = p
    · subst hp
      by_cases hlt : q < s.objects.length
      · simp [hlt]
      · simp [hlt]
    · simp [hp]

/-- If this is the last descriptor of an unlinked queue, the name of that queue denotes no queue. -/
def closesUnnamed (s : State) (mqd : UInt64) : Bool :=
  ((s.mqds mqd).bind fun e => s.objects[e.queue]?).all fun o =>
    o.refs ≠ 1 || !o.inner.unlinked || (s.queues o.name).isNone

theorem namesLast_mqClose (mqd : UInt64) : (s.mqClose mqd).1.NamesLast ↔ s.closesUnnamed mqd := by
  rw [closesUnnamed]
  cases he : s.mqds mqd with
  | none =>
    rw [mqClose, he]
    exact ⟨fun _ => rfl, fun _ => h⟩
  | some e =>
    rw [bind_some]
    cases ho : s.objects[e.queue]? with
    | none =>
      simp only [mqClose, he, ho]
      exact ⟨fun _ => rfl, fun _ => h.same (.of_eq rfl rfl)⟩
    | some o =>
      have hc := closed_mqClose he ho
      have hsame : s.SameNames { (s.mqClose mqd).1 with queues := s.queues } :=
        .modify rfl hc.objects (fun _ => rfl) fun _ => rfl
      by_cases hcut : (o.refs = 1 ∧ o.inner.unlinked) ∧ s.queues o.name ≠ none
      · obtain ⟨⟨hone, hun⟩, hname⟩ := hcut
        obtain ⟨q, hq⟩ := ne_none_iff_exists'.mp hname
        refine iff_of_false (fun hlast => ?_) (by simp [hone, hun, hq])
        -- the queue the name denoted is still the last one created under it
        have hden := (h.same hsame o.name q).mp hq
        exact ((hc.queues o.name q).mp ((hlast o.name q).mpr hden)).2 ⟨hone, hun, rfl⟩
      · have hqueues : (s.mqClose mqd).1.queues = s.queues := by
          refine funext fun name => Option.ext fun p => (hc.queues name p).trans (and_iff_left_of_imp fun hp => ?_)
          rintro ⟨hone, hun, rfl⟩
          exact hcut ⟨⟨hone, hun⟩, by simp [hp]⟩
        exact iff_of_true (h.same ⟨hqueues, hsame.names, hsame.marks⟩) (by simpa [imp_iff_not_or] using hcut)

end

theorem namesLast_new : State.new.NamesLast := by
  intro name q
  simp [State.new, LastCreated, names]

theorem NamesLast.step (h : s.NamesLast) {e : Event} (hok : ∀ mqd, e = .close mqd → s.closesUnnamed mqd)
    (hs : s.step e = some t) : t.NamesLast := by
  cases e with
  | opens name oflag attr pid soft =>
    cases hs
    exact namesLast_mqOpen h name oflag attr pid soft
  | close mqd =>
    cases hs
    exact (namesLast_mqClose h mqd).mpr (hok mqd rfl)
  | unlink name =>
    cases hs
    exact namesLast_mqUnlink h name
  | notify mqd signo pid =>
    cases hs
    rw [mqNotify]
    split
    · exact h
    · refine h.same (.setInner rfl rfl fun inner => ?_)
      split <;> rfl
  | send mqd data prio =>
    cases hs
    exact h.same (.of_eq rfl rfl)
  | receive mqd maxLen =>
    cases hs
    exact h.same (.of_eq rfl rfl)
  | step i soft =>
    rw [State.step] at hs
    split at hs
    · exact h.same (sameNames_sendStep hs)
    · exact h.same (sameNames_recvStep hs)
    · cases hs

def unbindsNone (s : State) : Event → Bool
  | .close mqd => s.closesUnnamed mqd
  | _ => true

/-- In every run whose last closes of unlinked queues find the name unbound, a name denotes the queue last created under
    it unless that queue has been unlinked. The next close keeps this exactly if it meets the condition. -/
theorem names_denote_last (s : State)
    (h : Reach (fun s e t => s.step e = some t) (fun s e => s.unbindsNone e = true) State.new s) :
    s.NamesLast ∧ ∀ mqd, (s.mqClose mqd).1.NamesLast ↔ s.closesUnnamed mqd = true := by
  have hlast : s.NamesLast := by
    refine h.invariant namesLast_new ?_
    intro u e t hu hok hs
    refine hu.step ?_ hs
    rintro mqd rfl
    exact hok
  exact ⟨hlast, namesLast_mqClose hlast⟩

/-- Two generations of one name; the first is closed while the second is still to come. -/
theorem names_denote_last_twice : ∃ s, Reach.run State.step State.unbindsNone State.new
    [.opens "/a" O_CREAT none 7 RLIM_INFINITY, .unlink "/a", .close 1, .opens "/a" O_CREAT none 7 RLIM_INFINITY] =
      some s ∧ s.queues "/a" = some 1 ∧ s.NamesLast := by
  exact Reach.exists_run_and (by decide +kernel) fun s hs hq => ⟨hq, (names_denote_last s hs).1⟩

/-- The queue `/a` is unlinked and created again; closing the descriptor of the first queue unbinds the second. -/
theorem close_unbinds_newer : ∃ s, Reach.run State.step (fun _ _ => true) State.new
    [.opens "/a" O_CREAT none 7 RLIM_INFINITY, .unlink "/a", .opens "/a" O_CREAT none 7 RLIM_INFINITY, .close 1] =
      some s ∧ s.queues "/a" = none ∧ s.LastCreated "/a" 1 ∧ ¬ s.Unlinked 1 := by
  refine Reach.exists_run_and (A := fun s => s.queues "/a" = none ∧ s.names = ["/a", "/a"] ∧ s.marks = [true, false])
    (by decide +kernel) fun s _ ⟨hq, hnames, hmarks⟩ => ?_
  refine ⟨hq, ⟨by rw [hnames]; rfl, fun p hp => ?_⟩, by rw [Unlinked, hmarks]; simp⟩
  have := names_lt hp
  rw [hnames] at this
  exact Nat.lt_succ_iff.mp this

end State

end Moxide.Mq
