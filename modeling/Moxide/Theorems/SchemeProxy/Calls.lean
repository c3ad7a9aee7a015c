import Moxide.Lib.Reach
import Moxide.SchemeProxy

/-! Calls through proxies with one endpoint. Neither the requests nor the replies name the call they belong to. -/

namespace Moxide.SchemeProxy
open Ipc (Bytes)
open Lib List Option

namespace State
variable {s t : State} {i : Nat} {c : ProxyCall}

def reqOf (s : State) (i : Nat) : Option SchemeRequest := s.calls[i]?.map (·.req)

def pointOf (s : State) (i : Nat) : Option Point := s.calls[i]?.map (·.point)

theorem reqOf_setPoint (s : State) (i : Nat) (p : Point) (j : Nat) : (s.setPoint i p).reqOf j = s.reqOf j := by
  rw [reqOf, setPoint, getElem?_modify, Option.map_eq_map, Option.map_map]
  congr 1
  funext c
  split <;> rfl

theorem pointOf_setPoint {q : Point} (h : s.pointOf i = some q) (p : Point) (j : Nat) :
    (s.setPoint i p).pointOf j = if j = i then some p else s.pointOf j := by
  obtain ⟨c, hc, -⟩ := map_eq_some_iff.mp h
  rw [pointOf, setPoint, getElem?_modify]
  by_cases hij : i = j
  · rw [← hij, hc]
    simp
  · rw [if_neg (Ne.symm hij), pointOf]
    simp [hij]

def requested (s : State) : List Nat := s.asked ++ (s.taken.map Prod.fst ++ s.answers.map Answer.call)

def RequestOf (s : State) (i : Nat) (msg : Bytes) : Prop :=
  ∃ req n, s.reqOf i = some req ∧ msg = (encodeRequest req).take n

/-! ### The invariant -/

structure Inv (s : State) : Prop where
  single : ∀ {i j}, s.pointOf i = some .sent → s.pointOf j = some .sent → j = i
  queued : List.Forall₂ (fun i msg => ∃ req, s.reqOf i = some req ∧ msg = encodeRequest req) s.asked s.ep.toServer
  received : ∀ x ∈ s.taken, s.RequestOf x.1 x.2
  answered : ∀ a ∈ s.answers, s.RequestOf a.call a.request
  nodup : s.requested.Nodup
  passed : ∀ j ∈ s.requested, s.pointOf j = some .sent ∨ ∃ res, s.pointOf j = some (.returned res)
  own : ∀ i, s.pointOf i = some .sent → (∀ j ∈ s.asked, j = i) ∧ (∀ x ∈ s.taken, x.1 = i) ∧
    ∀ reply ∈ s.ep.toKernel, ∃ a ∈ s.answers, a.call = i ∧ a.reply = reply
  returned : ∀ i resp, s.pointOf i = some (.returned (.ok resp)) →
    ∃ a ∈ s.answers, a.call = i ∧ decodeResponse a.reply = some resp

theorem inv_new (driver : Nat) : (State.new driver).Inv := by
  have hpoint : ∀ i, (State.new driver).pointOf i = none := fun i => rfl
  refine ⟨?_, List.Forall₂.nil, ?_, ?_, nodup_nil, ?_, ?_, ?_⟩
  · intro i j h
    cases h
  · intro x hx
    cases hx
  · intro a ha
    cases ha
  · intro j hj
    cases hj
  · intro i h
    cases h
  · intro i resp h
    cases h

section
variable (h : s.Inv)
include h

theorem Inv.calls (ht : t = { s with calls := t.calls, locked := t.locked })
    (hreq : ∀ j req, s.reqOf j = some req → t.reqOf j = some req)
    (hpassed : ∀ j, (s.pointOf j = some .sent ∨ ∃ res, s.pointOf j = some (.returned res)) →
      t.pointOf j = some .sent ∨ ∃ res, t.pointOf j = some (.returned res))
    (hsent : ∀ i, t.pointOf i = some .sent → s.pointOf i = some .sent)
    (hreturned : ∀ i resp, t.pointOf i = some (.returned (.ok resp)) → s.pointOf i = some (.returned (.ok resp))) :
    t.Inv := by
  have hof : ∀ i msg, s.RequestOf i msg → t.RequestOf i msg := fun i msg ⟨req, n, hr, hmsg⟩ => ⟨req, n, hreq i req hr, hmsg⟩
  cases t
  cases ht
  refine ⟨fun hi hj => h.single (hsent _ hi) (hsent _ hj), ?_, ?_, ?_, h.nodup, ?_, ?_, ?_⟩
  · exact h.queued.imp fun i msg ⟨req, hr, hmsg⟩ => ⟨req, hreq i req hr, hmsg⟩
  · exact fun x hx => hof _ _ (h.received x hx)
  · exact fun a ha => hof _ _ (h.answered a ha)
  · exact fun j hj => hpassed j (h.passed j hj)
  · exact fun i hi => h.own i (hsent i hi)
  · exact fun i resp hi => h.returned i resp (hreturned i resp hi)

theorem Inv.call (proxy : Nat) (req : SchemeRequest) : Inv { s with calls := s.calls ++ [⟨proxy, req, .start⟩] } := by
  have hold : ∀ (j : Nat) c, s.calls[j]? = some c → (s.calls ++ [⟨proxy, req, .start⟩])[j]? = some c := by
    intro j c hj
    rw [getElem?_append_left (List.getElem?_eq_some_iff.mp hj).1, hj]
  have hpoint : ∀ j p, p ≠ .start → (State.pointOf { s with calls := s.calls ++ [⟨proxy, req, .start⟩] } j = some p ↔
      s.pointOf j = some p) := by
    intro j p hp
    constructor
    · intro hj
      obtain ⟨c, hc, hpc⟩ := map_eq_some_iff.mp hj
      rcases lt_or_ge j s.calls.length with hlt | hge
      · rw [getElem?_append_left hlt] at hc
        rw [pointOf, hc, map_some, hpc]
      rw [getElem?_append_right hge] at hc
      obtain rfl := mem_singleton.mp (mem_of_getElem? hc)
      exact absurd hpc.symm hp
    · intro hj
      obtain ⟨c, hc, hpc⟩ := map_eq_some_iff.mp hj
      exact map_eq_some_iff.mpr ⟨c, hold j c hc, hpc⟩
  refine h.calls rfl ?_ ?_ ?_ ?_
  · intro j r hr
    obtain ⟨c, hc, hrc⟩ := map_eq_some_iff.mp hr
    exact map_eq_some_iff.mpr ⟨c, hold j c hc, hrc⟩
  · rintro j (hj | ⟨res, hj⟩)
    · exact .inl ((hpoint j _ (by simp)).mpr hj)
    · exact .inr ⟨res, (hpoint j _ (by simp)).mpr hj⟩
  · exact fun i hi => (hpoint i _ (by simp)).mp hi
  · exact fun i resp hi => (hpoint i _ (by simp)).mp hi

theorem Inv.acquire (hi : s.pointOf i = some .start) (locked : List Nat) : Inv { s.setPoint i .locked with locked } := by
  have hpoint : ∀ j, State.pointOf { s.setPoint i .locked with locked } j = if j = i then some .locked else s.pointOf j :=
    pointOf_setPoint hi .locked
  refine h.calls rfl (fun j r hr => (reqOf_setPoint s i .locked j).trans hr) ?_ ?_ ?_
  · intro j hj
    have hji : j ≠ i := by
      rintro rfl
      rw [hi] at hj
      simp at hj
    rwa [hpoint, if_neg hji]
  · intro j hj
    rw [hpoint] at hj
    split at hj
    · cases hj
    · exact hj
  · intro j resp hj
    rw [hpoint] at hj
    split at hj
    · cases hj
    · exact hj

theorem Inv.finish {u : State} {res : Except SchemeError SchemeResponse}
    (hi : s.pointOf i = some .locked ∨ s.pointOf i = some .sent) (halone : ∀ j, s.pointOf j = some .sent → j = i)
    (hu : u = { s with ep := u.ep }) (hserver : u.ep.toServer = s.ep.toServer)
    (hres : ∀ resp, res = .ok resp → ∃ a ∈ s.answers, a.call = i ∧ decodeResponse a.reply = some resp) :
    (u.finish i c res).Inv := by
  have hcalls : u.calls = s.calls := by rw [hu]
  have hreq : ∀ j, (u.finish i c res).reqOf j = s.reqOf j := by
    intro j
    rw [show (u.finish i c res).reqOf j = (u.setPoint i (.returned res)).reqOf j from rfl, reqOf_setPoint, reqOf,
      reqOf, hcalls]
  have hui : ∃ q, u.pointOf i = some q := by
    rw [pointOf, hcalls]
    rcases hi with hi | hi <;> exact ⟨_, hi⟩
  obtain ⟨q, hui⟩ := hui
  have hpoint : ∀ j, (u.finish i c res).pointOf j = if j = i then some (.returned res) else s.pointOf j := by
    intro j
    have hj : (u.finish i c res).pointOf j = _ := pointOf_setPoint hui (.returned res) j
    rw [hj, pointOf, pointOf, hcalls]
  have hasked : (u.finish i c res).asked = s.asked := by rw [hu]; rfl
  have htaken : (u.finish i c res).taken = s.taken := by rw [hu]; rfl
  have hanswers : (u.finish i c res).answers = s.answers := by rw [hu]; rfl
  have hof : ∀ j msg, s.RequestOf j msg → (u.finish i c res).RequestOf j msg :=
    fun j msg ⟨req, n, hr, hmsg⟩ => ⟨req, n, (hreq j).trans hr, hmsg⟩
  have hnone : ∀ j, (u.finish i c res).pointOf j ≠ some .sent := by
    intro j hj
    rw [hpoint] at hj
    by_cases hji : j = i
    · simp [hji] at hj
    · rw [if_neg hji] at hj
      exact hji (halone j hj)
  refine ⟨fun hj => absurd hj (hnone _), ?_, ?_, ?_, ?_, ?_, fun j hj => absurd hj (hnone j), ?_⟩
  · rw [hasked, show (u.finish i c res).ep.toServer = s.ep.toServer from hserver]
    exact h.queued.imp fun j msg ⟨req, hr, hmsg⟩ => ⟨req, (hreq j).trans hr, hmsg⟩
  · rw [htaken]
    exact fun x hx => hof _ _ (h.received x hx)
  · rw [hanswers]
    exact fun a ha => hof _ _ (h.answered a ha)
  · rw [requested, hasked, htaken, hanswers]
    exact h.nodup
  · intro j hj
    rw [requested, hasked, htaken, hanswers] at hj
    rw [hpoint]
    split
    · exact .inr ⟨res, rfl⟩
    · exact h.passed j hj
  · intro j resp hj
    rw [hanswers]
    rw [hpoint] at hj
    split at hj
    · rename_i hji
      obtain rfl := hji
      exact hres resp (Point.returned.inj (some.inj hj))
    · exact h.returned j resp hj

/-! ### Steps of a call -/

/-- Nothing is left of earlier calls: no request that waits or that the driver has still to answer, no reply, and no call
    that has sent its request and not received yet. -/
def quiet (s : State) : Bool :=
  s.ep.toServer.isEmpty && s.taken.isEmpty && s.ep.toKernel.isEmpty && s.calls.all (·.point ≠ .sent)

theorem Inv.asked_of_quiet (hserver : s.ep.toServer = []) : s.asked = [] := by
  have hqueued := h.queued
  rw [hserver] at hqueued
  exact forall₂_nil_right_iff.mp hqueued

end

theorem queues_send {ep ep' : Ipc.EndpointState} {bytes : Ipc.Bytes} (h : ep.send bytes = some ep') :
    ep'.toServer = ep.toServer ++ [bytes] ∧ ep'.toKernel = ep.toKernel := by
  rw [Ipc.EndpointState.send] at h
  split at h
  · cases h
  split at h
  · cases h
  · cases h
    exact ⟨rfl, rfl⟩

section
variable (h : s.Inv)
include h

theorem Inv.send (hc : s.calls[i]? = some c) (hp : c.point = .locked)
    (hquiet : s.quiet) : (s.sendStep i c).Inv := by
  have hi : s.pointOf i = some .locked := by rw [pointOf, hc, map_some, hp]
  obtain ⟨⟨⟨hserver, htaken⟩, hkernel⟩, hcalls⟩ :
      ((s.ep.toServer = [] ∧ s.taken = []) ∧ s.ep.toKernel = []) ∧ ∀ c ∈ s.calls, ¬c.point = .sent := by
    simpa [quiet] using hquiet
  have hnone : ∀ j, s.pointOf j ≠ some .sent := by
    intro j hj
    obtain ⟨d, hd, hpd⟩ := map_eq_some_iff.mp hj
    exact hcalls d (mem_of_getElem? hd) hpd
  have hasked := h.asked_of_quiet hserver
  rw [sendStep]
  split
  · exact h.finish (.inl hi) (fun j hj => absurd hj (hnone j)) rfl rfl fun resp hf => nomatch hf
  rename_i ep hep
  obtain ⟨hserver', hkernel'⟩ := queues_send hep
  rw [hserver] at hserver'
  rw [hkernel] at hkernel'
  have hpoint : ∀ j, State.pointOf ({ s with ep := ep, asked := s.asked ++ [i] }.setPoint i .sent) j =
      if j = i then some .sent else s.pointOf j := pointOf_setPoint hi .sent
  have hreq : ∀ j, State.reqOf ({ s with ep := ep, asked := s.asked ++ [i] }.setPoint i .sent) j = s.reqOf j :=
    reqOf_setPoint _ i .sent
  have hni : i ∉ s.requested := by
    intro hmem
    rcases h.passed i hmem with hs | ⟨res, hs⟩ <;> rw [hi] at hs <;> cases hs
  have hsent : ∀ j, State.pointOf ({ s with ep := ep, asked := s.asked ++ [i] }.setPoint i .sent) j = some .sent →
    j = i := by
    intro j hj
    by_contra hne
    rw [hpoint, if_neg hne] at hj
    exact hnone j hj
  refine ⟨fun hj hk => (hsent _ hk).trans (hsent _ hj).symm, ?_, ?_, ?_, ?_, ?_, ?_, ?_⟩
  · change List.Forall₂ _ (s.asked ++ [i]) ep.toServer
    rw [hasked, hserver']
    have hreqi : s.reqOf i = some c.req := by rw [reqOf, hc, map_some]
    exact .cons ⟨c.req, (reqOf_setPoint _ i .sent i).trans hreqi, rfl⟩ .nil
  · intro x hx
    obtain ⟨req, n, hr, hmsg⟩ := h.received x hx
    exact ⟨req, n, (hreq _).trans hr, hmsg⟩
  · intro a ha
    obtain ⟨req, n, hr, hmsg⟩ := h.answered a ha
    exact ⟨req, n, (hreq _).trans hr, hmsg⟩
  · change ((s.asked ++ [i]) ++ (s.taken.map Prod.fst ++ s.answers.map Answer.call)).Nodup
    rw [append_assoc]
    exact (perm_middle.nodup_iff).mpr (nodup_cons.mpr ⟨hni, h.nodup⟩)
  · intro j hj
    rw [hpoint]
    by_cases hji : j = i
    · exact .inl (if_pos hji)
    rw [if_neg hji]
    refine h.passed j ?_
    change j ∈ (s.asked ++ [i]) ++ (s.taken.map Prod.fst ++ s.answers.map Answer.call) at hj
    rw [append_assoc] at hj
    exact (mem_cons.mp (perm_middle.mem_iff.mp hj)).resolve_left hji
  · intro j hj
    obtain rfl := hsent j hj
    refine ⟨?_, ?_, ?_⟩
    · intro k hk
      rw [hasked] at hk
      exact mem_singleton.mp hk
    · intro x hx
      rw [htaken] at hx
      cases hx
    · intro reply hreply
      change reply ∈ ep.toKernel at hreply
      rw [hkernel'] at hreply
      cases hreply
  · intro j resp hj
    rw [hpoint] at hj
    split at hj
    · cases hj
    · exact h.returned j resp hj

theorem Inv.recv (hi : s.pointOf i = some .sent) : (s.recvStep i c).Inv := by
  rw [recvStep, Ipc.EndpointState.recv]
  split
  · exact h.finish (.inr hi) (fun j hj => h.single hi hj) rfl rfl fun resp hf => nomatch hf
  rename_i ep reply hrecv
  split at hrecv
  · cases hrecv
  rename_i rest hkernel
  cases hrecv
  refine h.finish (.inr hi) (fun j hj => h.single hi hj) rfl rfl ?_
  intro resp hresp
  obtain ⟨a, ha, hcall, hreply⟩ := (h.own i hi).2.2 reply (hkernel ▸ mem_cons_self)
  refine ⟨a, ha, hcall, ?_⟩
  rw [hreply]
  split at hresp
  · rename_i r hr
    rw [hr, Except.ok.inj hresp]
  · cases hresp

theorem Inv.driver (hcalls : t.calls = s.calls)
    (hqueued : List.Forall₂ (fun i msg => ∃ req, s.reqOf i = some req ∧ msg = encodeRequest req) t.asked t.ep.toServer)
    (hreceived : ∀ x ∈ t.taken, s.RequestOf x.1 x.2) (hanswered : ∀ a ∈ t.answers, s.RequestOf a.call a.request)
    (hrequested : ∃ l, l.Sublist s.requested ∧ t.requested.Perm l)
    (hasked : ∀ j ∈ t.asked, j ∈ s.asked) (htaken : ∀ x ∈ t.taken, x ∈ s.taken ∨ x.1 ∈ s.asked)
    (hanswers : ∀ a ∈ s.answers, a ∈ t.answers)
    (hkernel : ∀ reply ∈ t.ep.toKernel, reply ∈ s.ep.toKernel ∨ ∃ a ∈ t.answers, a.reply = reply ∧ ∃ x ∈ s.taken,
      x.1 = a.call) :
    t.Inv := by
  have hreq : ∀ j, t.reqOf j = s.reqOf j := fun j => by rw [reqOf, reqOf, hcalls]
  have hpoint : ∀ j, t.pointOf j = s.pointOf j := fun j => by rw [pointOf, pointOf, hcalls]
  obtain ⟨l, hsub, hperm⟩ := hrequested
  refine ⟨?_, ?_, ?_, ?_, ?_, ?_, ?_, ?_⟩
  · intro i j hi hj
    rw [hpoint] at hi hj
    exact h.single hi hj
  · exact hqueued.imp fun i msg ⟨req, hr, hmsg⟩ => ⟨req, (hreq i).trans hr, hmsg⟩
  · intro x hx
    obtain ⟨req, n, hr, hmsg⟩ := hreceived x hx
    exact ⟨req, n, (hreq _).trans hr, hmsg⟩
  · intro a ha
    obtain ⟨req, n, hr, hmsg⟩ := hanswered a ha
    exact ⟨req, n, (hreq _).trans hr, hmsg⟩
  · exact hperm.nodup_iff.mpr (h.nodup.sublist hsub)
  · intro j hj
    rw [hpoint]
    exact h.passed j (hsub.subset (hperm.mem_iff.mp hj))
  · intro i hi
    rw [hpoint] at hi
    obtain ⟨ha, hx, hk⟩ := h.own i hi
    refine ⟨fun j hj => ha j (hasked j hj), ?_, ?_⟩
    · intro x hxt
      rcases htaken x hxt with hxs | hxs
      · exact hx x hxs
      · exact ha _ hxs
    · intro reply hr
      rcases hkernel reply hr with hr | ⟨a, hat, hreply, x, hxs, hcall⟩
      · obtain ⟨a, has, hrest⟩ := hk reply hr
        exact ⟨a, hanswers a has, hrest⟩
      · exact ⟨a, hat, hcall ▸ hx x hxs, hreply⟩
  · intro i resp hi
    rw [hpoint] at hi
    obtain ⟨a, ha, hrest⟩ := h.returned i resp hi
    exact ⟨a, hanswers a ha, hrest⟩

theorem Inv.driverRecv (bufLen : Nat) (copied : Bool) : (s.driverRecv bufLen copied).Inv := by
  have hqueued := h.queued
  rw [State.driverRecv, Ipc.EndpointState.sysRecv]
  cases hserver : s.ep.toServer with
  | nil =>
    rw [hserver] at hqueued
    have hasked := forall₂_nil_right_iff.mp hqueued
    simp only [hasked, tail_nil]
    refine h.driver rfl ?_ h.received h.answered ⟨_, .refl _, ?_⟩ ?_ (fun x hx => .inl hx) (fun a ha => ha)
      fun reply hr => .inl hr
    · rw [hserver]
      exact .nil
    · rw [requested, requested, hasked]
    · intro j hj
      cases hj
  | cons msg rest =>
    rw [hserver] at hqueued
    obtain ⟨i, asked, ⟨req, hreq, rfl⟩, hrest, hasked⟩ := forall₂_cons_right_iff.mp hqueued
    have hsub : (asked ++ (s.taken.map Prod.fst ++ s.answers.map Answer.call)).Sublist s.requested := by
      rw [requested, hasked]
      exact sublist_cons_self _ _
    have hin : ∀ j ∈ asked, j ∈ s.asked := fun j hj => hasked ▸ mem_cons_of_mem _ hj
    cases copied with
    | true =>
      simp only [hasked, if_true]
      refine h.driver rfl hrest ?_ h.answered ⟨_, .refl _, ?_⟩ hin ?_ (fun a ha => ha) fun reply hr => .inl hr
      · intro x hx
        rcases mem_append.mp hx with hx | hx
        · exact h.received x hx
        · obtain rfl := mem_singleton.mp hx
          exact ⟨req, bufLen, hreq, rfl⟩
      · rw [requested, requested, hasked]
        exact perm_iff_count.mpr fun j => by simp [count_append, count_cons]; omega
      · intro x hx
        rcases mem_append.mp hx with hx | hx
        · exact .inl hx
        · obtain rfl := mem_singleton.mp hx
          exact .inr (hasked ▸ mem_cons_self)
    | false =>
      simp only [hasked, Bool.false_eq_true, if_false, tail_cons]
      exact h.driver rfl hrest h.received h.answered ⟨_, hsub, .refl _⟩ hin (fun x hx => .inl hx) (fun a ha => ha)
        fun reply hr => .inl hr

theorem Inv.driverAnswer {reply : Bytes} {valid : Bool} (hs : s.driverAnswer reply valid = some t) : t.Inv := by
  rw [State.driverAnswer] at hs
  split at hs
  · cases hs
  rename_i i msg taken htaken
  dsimp only at hs
  split at hs
  · cases hs
    exact h
  cases hs
  have hmem : (i, msg) ∈ s.taken := htaken ▸ mem_cons_self
  have hsend : ∃ ep rc, s.ep.sysSend reply valid = (ep, rc) ∧ ep.toServer = s.ep.toServer ∧
      (ep.toKernel = s.ep.toKernel ∨ ep.toKernel = s.ep.toKernel ++ [reply]) := by
    rw [Ipc.EndpointState.sysSend]
    split
    · exact ⟨_, _, rfl, rfl, .inl rfl⟩
    · split
      · exact ⟨_, _, rfl, rfl, .inl rfl⟩
      · exact ⟨_, _, rfl, rfl, .inr rfl⟩
  obtain ⟨ep, rc, hsend, hserver, hkernel⟩ := hsend
  simp only [hsend] at *
  refine h.driver rfl (by rw [hserver]; exact h.queued) ?_ ?_ ⟨_, .refl _, ?_⟩ (fun j hj => hj) ?_ ?_ ?_
  · exact fun x hx => h.received x (htaken ▸ mem_cons_of_mem _ hx)
  · intro a ha
    rcases mem_append.mp ha with ha | ha
    · exact h.answered a ha
    · obtain rfl := mem_singleton.mp ha
      exact h.received _ hmem
  · rw [requested, requested, htaken]
    exact perm_iff_count.mpr fun j => by simp [count_append, count_cons]; omega
  · exact fun x hx => .inl (htaken ▸ mem_cons_of_mem _ hx)
  · exact fun a ha => mem_append_left _ ha
  · intro r hr
    have hnew : ∃ a ∈ s.answers ++ [⟨i, msg, reply⟩], a.reply = reply ∧ ∃ x ∈ s.taken, x.1 = a.call :=
      ⟨⟨i, msg, reply⟩, mem_append_right _ mem_cons_self, rfl, _, hmem, rfl⟩
    rcases hkernel with hk | hk
    · rw [hk] at hr
      exact .inl hr
    rw [hk] at hr
    rcases mem_append.mp hr with hr | hr
    · exact .inl hr
    · obtain rfl := mem_singleton.mp hr
      exact .inr hnew

/-! ### Runs -/

def sendsQuiet (s : State) : Event → Bool
  | .send _ => s.quiet
  | _ => true

theorem Inv.step {e : Event} (hok : s.sendsQuiet e) (hs : s.step e = some t) : t.Inv := by
  cases e with
  | call proxy req =>
    cases hs
    exact h.call proxy req
  | acquire i =>
    rw [State.step] at hs
    split at hs
    · rename_i c hc
      split at hs
      · rename_i hcond
        cases hs
        exact h.acquire (by rw [pointOf, hc, map_some, hcond.1]) _
      · cases hs
    · cases hs
  | send i =>
    rw [State.step] at hs
    split at hs
    · rename_i c hc
      split at hs
      · rename_i hp
        cases hs
        exact h.send hc hp hok
      · cases hs
    · cases hs
  | recv i =>
    rw [State.step] at hs
    split at hs
    · rename_i c hc
      split at hs
      · rename_i hp
        cases hs
        exact h.recv (by rw [pointOf, hc, map_some, hp])
      · cases hs
    · cases hs
  | driverRecv bufLen copied =>
    cases hs
    exact h.driverRecv bufLen copied
  | driverAnswer reply valid => exact h.driverAnswer hs

/-- Every call that has returned a response has returned what the driver answered to the request of that call, and the
    driver has answered it once. -/
def OwnAnswers (s : State) : Prop := (s.answers.map Answer.call).Nodup ∧ ∀ i c resp, s.calls[i]? = some c →
  c.point = .returned (.ok resp) → ∃ a ∈ s.answers, a.call = i ∧ (∃ n, a.request = (encodeRequest c.req).take n) ∧
    decodeResponse a.reply = some resp

theorem Inv.ownAnswers : s.OwnAnswers := by
  refine ⟨(nodup_append.mp (nodup_append.mp h.nodup).2.1).2.1, ?_⟩
  intro i c resp hc hp
  obtain ⟨a, ha, hcall, hdec⟩ := h.returned i resp (by rw [pointOf, hc, map_some, hp])
  obtain ⟨req, n, hreq, hmsg⟩ := h.answered a ha
  rw [hcall, reqOf, hc] at hreq
  cases hreq
  exact ⟨a, ha, hcall, ⟨n, hmsg⟩, hdec⟩

end

/-- In every interleaving of calls through any proxies with a driver that answers each request once and in order, in which
    a call sends only when nothing is left of earlier calls and no other call is between its send and its receive, every
    response returned is the driver's own answer to that call. -/
theorem calls_get_own_answer (driver : Nat) (s : State)
    (h : Reach (fun s e t => s.step e = some t) (fun s e => s.sendsQuiet e = true) (State.new driver) s) :
    s.OwnAnswers :=
  (h.invariant (inv_new driver) fun _ _ _ hu hok hs => hu.step hok hs).ownAnswers

theorem calls_get_own_answer_two : ∃ s, Reach.run State.step State.sendsQuiet (State.new 4)
    [.call 0 (.close 1), .call 1 (.read 2 4), .acquire 0, .acquire 1, .send 0, .driverRecv 4096 true,
      .driverAnswer [RESP_OK] true, .recv 0, .send 1, .driverRecv 4096 true, .driverAnswer [RESP_DATA, 7] true,
      .recv 1] = some s ∧
      s.calls = [⟨0, .close 1, .returned (.ok .ok)⟩, ⟨1, .read 2 4, .returned (.ok (.data [7]))⟩] ∧ s.OwnAnswers := by
  exact Reach.exists_run_and (by decide +kernel) fun s hs hcalls => ⟨hcalls, calls_get_own_answer 4 s hs⟩

/-- The driver is late: the first call returns `Unreachable`, and its answer is what the second call returns, for a request
    that the driver has not even received. -/
theorem late_answer_misread : ∃ s, Reach.run State.step (fun _ _ => true) (State.new 4)
    [.call 0 (.read 1 4), .call 0 (.read 2 4), .acquire 0, .send 0, .recv 0, .driverRecv 4096 true,
      .driverAnswer [RESP_DATA, 7] true, .acquire 1, .send 1, .recv 1] = some s ∧
      s.calls = [⟨0, .read 1 4, .returned (.error .unreachable)⟩, ⟨0, .read 2 4, .returned (.ok (.data [7]))⟩] ∧
      s.answers.map Answer.call = [0] := by
  exact Reach.exists_run (by decide +kernel)

end State

end Moxide.SchemeProxy
