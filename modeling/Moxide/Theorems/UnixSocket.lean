import Moxide.Lib.Reach
import Moxide.UnixSocket

/-! Connections reach the server bound to the path, where no binding outlives its socket. -/

namespace Moxide.UnixSocket
open List Option
open Function (update_of_ne update_self)
open UnixConn (newPair)

def Socket.backlog (sock : Socket) : List UnixConn := (sock.unixListener.map (·.backlog)).getD []

namespace State
variable {s t : State} {i : Nat} {sock sock' : Socket}

variable {fd : Nat} {path : String}

theorem mem_of_lookup {l : List (String × Nat)} (h : l.lookup path = some fd) : (path, fd) ∈ l := by
  obtain ⟨l₁, l₂, rfl, -⟩ := lookup_eq_some_iff.mp h
  exact mem_append_right _ mem_cons_self

theorem sockets_freeFrom : ∀ {n k : Nat}, s.freeFrom n k = some i → s.sockets i = none
  | 0, k, h => nomatch h
  | n + 1, k, h => by
    rw [freeFrom] at h
    split at h
    · rename_i hnone
      cases h
      exact isNone_iff_eq_none.mp hnone
    · exact sockets_freeFrom h

theorem sockets_freeSlot (h : s.freeSlot = some i) : s.sockets i = none := sockets_freeFrom h

theorem freeFrom_congr (h : ∀ i, (t.sockets i).isNone = (s.sockets i).isNone) (n k : Nat) :
    t.freeFrom n k = s.freeFrom n k := by
  induction n generalizing k with
  | zero => rfl
  | succ n ih => rw [freeFrom, freeFrom, h, ih]

structure Inv (s : State) : Prop where
  served : ∀ b ∈ s.binds, ∃ sock, s.sockets b.2 = some sock ∧ (sock.serial, b.1) ∈ s.bound
  reached : ∀ fd sock, s.sockets fd = some sock → sock.backlog ≠ [] → ∃ b ∈ s.binds, b.2 = fd
  kept : ∀ q ∈ s.queued, q ∈ s.accepted ∨ ∃ fd sock, s.sockets fd = some sock ∧ sock.serial = q.1 ∧ q.2 ∈ sock.backlog

theorem inv_new : State.new.Inv := by
  refine ⟨?_, ?_, ?_⟩
  · intro b hb
    cases hb
  · intro fd sock h
    cases h
  · intro q hq
    cases hq

section
variable (h : s.Inv)
include h

theorem Inv.update (hfd : s.sockets fd = some sock)
    (hsockets : t.sockets = Function.update s.sockets fd (some sock')) (hserial : sock'.serial = sock.serial)
    (hbinds : t.binds = s.binds) (hbound : t.bound = s.bound)
    (hreached : sock'.backlog ≠ [] → ∃ b ∈ s.binds, b.2 = fd)
    (hqueued : ∀ q ∈ t.queued, q ∈ s.queued ∨ q.1 = sock.serial ∧ q.2 ∈ sock'.backlog)
    (hkept : ∀ c ∈ sock.backlog, c ∈ sock'.backlog ∨ (sock.serial, c) ∈ t.accepted)
    (haccepted : ∀ q ∈ s.accepted, q ∈ t.accepted) : t.Inv := by
  have hself : t.sockets fd = some sock' := by rw [hsockets, update_self]
  have hother : ∀ i, i ≠ fd → t.sockets i = s.sockets i := fun i hi => by rw [hsockets, update_of_ne hi]
  refine ⟨?_, ?_, ?_⟩
  · intro b hb
    rw [hbinds] at hb
    rw [hbound]
    obtain ⟨so, hso, hmem⟩ := h.served b hb
    by_cases hbfd : b.2 = fd
    · rw [hbfd, hfd] at hso
      cases hso
      exact ⟨sock', hbfd ▸ hself, hserial ▸ hmem⟩
    · exact ⟨so, (hother _ hbfd).trans hso, hmem⟩
  · intro i so hso hne
    rw [hbinds]
    by_cases hi : i = fd
    · rw [hi, hself] at hso
      cases hso
      exact hi ▸ hreached hne
    · rw [hother i hi] at hso
      exact h.reached i so hso hne
  · intro q hq
    rcases hqueued q hq with hq | ⟨hser, hmem⟩
    · rcases h.kept q hq with hacc | ⟨i, so, hso, hser, hmem⟩
      · exact .inl (haccepted q hacc)
      by_cases hi : i = fd
      · rw [hi, hfd] at hso
        cases hso
        rcases hkept q.2 hmem with hin | hacc
        · exact .inr ⟨fd, sock', hself, hserial.trans hser, hin⟩
        · rw [hser] at hacc
          exact .inl hacc
      · exact .inr ⟨i, so, (hother i hi).trans hso, hser, hmem⟩
    · exact .inr ⟨fd, sock', hself, hserial.trans hser.symm, hmem⟩

theorem Inv.slot (slot : Option Socket) {n closed} (hnew : ∀ sock, slot = some sock → sock.backlog = [])
    (hold : ∀ sock, s.sockets fd = some sock → ∀ b ∈ s.binds, b.2 ≠ fd) :
    Inv { s with sockets := Function.update s.sockets fd slot, nextSerial := n, closed := closed } := by
  have hother : ∀ i, i ≠ fd → Function.update s.sockets fd slot i = s.sockets i := fun i hi => update_of_ne hi ..
  refine ⟨?_, ?_, ?_⟩
  · intro b hb
    obtain ⟨so, hso, hmem⟩ := h.served b hb
    have hne : b.2 ≠ fd := by
      intro heq
      exact hold so (heq ▸ hso) b hb heq
    exact ⟨so, (hother _ hne).trans hso, hmem⟩
  · intro i so hso hne
    by_cases hi : i = fd
    · subst hi
      exact absurd (hnew so ((update_self i slot s.sockets).symm.trans hso)) hne
    · exact h.reached i so ((hother i hi).symm.trans hso) hne
  · intro q hq
    rcases h.kept q hq with hacc | ⟨i, so, hso, hser, hmem⟩
    · exact .inl hacc
    have hi : i ≠ fd := by
      rintro rfl
      obtain ⟨b, hb, hbi⟩ := h.reached i so hso (ne_nil_of_mem hmem)
      exact hold so hso b hb hbi
    exact .inr ⟨i, so, (hother i hi).trans hso, hser, hmem⟩

theorem Inv.install (sock : Nat → Socket) (hi : s.sockets i = none)
    (hnew : (sock s.nextSerial).backlog = []) : (s.install i sock).Inv := by
  refine h.slot (some (sock s.nextSerial)) ?_ ?_
  · intro so hso
    cases hso
    exact hnew
  · intro so hso
    rw [hi] at hso
    cases hso

/-! ### The calls -/

theorem Inv.sysSocket (domain kind : UInt16) (protocol : UInt32) : (s.sysSocket domain kind protocol).1.Inv := by
  rw [State.sysSocket]
  cases hi : s.freeSlot with
  | none => exact h
  | some i => exact h.install (newSocket domain kind protocol) (sockets_freeSlot hi) rfl

def bindsOpen (s : State) (fd : Nat) (path : String) : Bool := (s.binds.lookup path).isSome || (s.sockets fd).isSome

theorem Inv.unixBind (hok : s.bindsOpen fd path) : (s.unixBind fd path).1.Inv := by
  rw [State.unixBind]
  split
  · exact h
  rename_i hfree
  obtain ⟨sock, hfd⟩ : ∃ sock, s.sockets fd = some sock := by
    rw [← isSome_iff_exists]
    simpa [bindsOpen, hfree] using hok
  have hself : ∀ i so, s.sockets i = some so → ∃ so', Function.update s.sockets fd
      (some { sock with loc := some path, state := .bound }) i = some so' ∧ so'.serial = so.serial ∧
        so'.backlog = so.backlog := by
    intro i so hso
    by_cases hi : i = fd
    · rw [hi, hfd] at hso
      cases hso
      rw [hi, update_self]
      exact ⟨_, rfl, rfl, rfl⟩
    · rw [update_of_ne hi]
      exact ⟨so, hso, rfl, rfl⟩
  simp only [hfd]
  refine ⟨?_, ?_, ?_⟩
  · intro b hb
    rcases mem_append.mp hb with hb | hb
    · obtain ⟨so, hso, hmem⟩ := h.served b hb
      obtain ⟨so', hso', hser, -⟩ := hself b.2 so hso
      exact ⟨so', hso', hser ▸ mem_append_left _ hmem⟩
    · obtain rfl := mem_singleton.mp hb
      exact ⟨_, update_self .., mem_append_right _ mem_cons_self⟩
  · intro i so hso hne
    by_cases hi : i = fd
    · exact ⟨(path, fd), mem_append_right _ mem_cons_self, hi.symm⟩
    change Function.update s.sockets fd _ i = some so at hso
    rw [update_of_ne hi] at hso
    obtain ⟨b, hb, hbi⟩ := h.reached i so hso hne
    exact ⟨b, mem_append_left _ hb, hbi⟩
  · intro q hq
    rcases h.kept q hq with hacc | ⟨i, so, hso, hser, hmem⟩
    · exact .inl hacc
    · obtain ⟨so', hso', hser', hback⟩ := hself i so hso
      exact .inr ⟨i, so', hso', hser'.trans hser, hback ▸ hmem⟩

def listensFresh (s : State) (fd : Nat) : Bool := (s.sockets fd).all (·.backlog.isEmpty)

theorem Inv.unixListen {backlog : Nat} (hok : s.listensFresh fd) : (s.unixListen fd backlog).1.Inv := by
  rw [State.unixListen]
  split
  · rename_i sock hfd
    have hempty : sock.backlog = [] := by simpa [listensFresh, hfd] using hok
    refine h.update hfd rfl rfl rfl rfl (fun hne => absurd rfl hne) (fun q hq => .inl hq) ?_ (fun q hq => hq)
    intro c hc
    rw [hempty] at hc
    cases hc
  · exact h

end

def acceptsFree (s : State) (fd : Nat) : Bool := s.listensFresh fd || s.freeSlot.isSome

theorem freeSlot_setSocket (hfd : s.sockets fd = some sock) : (s.setSocket fd sock').freeSlot = s.freeSlot := by
  refine freeFrom_congr (fun i => ?_) MAX_SOCKETS 0
  by_cases hi : i = fd
  · simp [setSocket, hi, hfd]
  · simp [setSocket, hi]

theorem Inv.unixAccept (h : s.Inv) (hok : s.acceptsFree fd) : (s.unixAccept fd).1.Inv := by
  rw [State.unixAccept]
  split
  · exact h
  rename_i sock hfd
  split
  · exact h
  rename_i ul hul
  split
  · exact h
  rename_i conn rest hback
  have hbl : sock.backlog = conn :: rest := by rw [Socket.backlog, hul, map_some, getD_some, hback]
  obtain ⟨i, hi⟩ : ∃ i, s.freeSlot = some i := by
    rw [← isSome_iff_exists]
    simpa [acceptsFree, listensFresh, hfd, hbl] using hok
  have hslot : (s.setSocket fd { sock with unixListener := some { ul with backlog := rest } }).freeSlot = some i := by
    rw [freeSlot_setSocket hfd, hi]
  simp only [hslot]
  -- the connection leaves the backlog in the step that returns it
  have hpop : Inv { s.setSocket fd { sock with unixListener := some { ul with backlog := rest } } with
      accepted := s.accepted ++ [(sock.serial, conn)] } := by
    refine h.update hfd rfl rfl rfl rfl ?_ (fun q hq => .inl hq) ?_ (fun q hq => mem_append_left _ hq)
    · intro _
      exact h.reached fd sock hfd (by rw [hbl]; exact cons_ne_nil _ _)
    · intro c hc
      rw [hbl] at hc
      rcases mem_cons.mp hc with rfl | hc
      · exact .inr (mem_append_right _ mem_cons_self)
      · exact .inl hc
  exact hpop.install (fun n => { newSocket AF_UNIX SOCK_STREAM 0 n with
    state := .connected
    unixConn := some conn }) (show (s.setSocket fd _).sockets i = none from sockets_freeSlot hslot) rfl

theorem lookup_of_ne (h : ¬ (s.binds.lookup path).getD USIZE_MAX = USIZE_MAX) : ∃ fd, s.binds.lookup path = some fd := by
  rw [← ne_none_iff_exists']
  intro hnone
  rw [hnone] at h
  exact h rfl

/-- What a successful `unix_connect` does: the server's end of the new connection is queued last on the socket in the slot
    that the path is bound to. -/
theorem unixConnect_ok (h : s.unixConnect fd path = (t, 0)) :
    ∃ serverFd server ul, (path, serverFd) ∈ s.binds ∧ s.sockets serverFd = some server ∧
      server.unixListener = some ul ∧
      t.queued = s.queued ++ [(server.serial, (newPair s.nextPair).2)] ∧
      ∃ server', t.sockets serverFd = some server' ∧ server'.serial = server.serial ∧
        server'.backlog = server.backlog ++ [(newPair s.nextPair).2] := by
  rw [State.unixConnect] at h
  dsimp only at h
  split at h
  · simp at h
  rename_i hne
  obtain ⟨serverFd, hlookup⟩ := lookup_of_ne hne
  rw [hlookup] at h
  split at h
  · simp at h
  rename_i server hserver
  split at h
  · simp at h
  rename_i ul hul
  split at h
  · simp at h
  have hbl : server.backlog = ul.backlog := by rw [Socket.backlog, hul]; rfl
  refine ⟨serverFd, server, ul, mem_of_lookup hlookup, hserver, hul, ?_⟩
  rw [hbl]
  split at h
  · rename_i sock hsock
    cases h
    refine ⟨rfl, ?_⟩
    by_cases hfd : fd = serverFd
    · subst hfd
      change Function.update s.sockets fd _ fd = some sock at hsock
      rw [update_self] at hsock
      cases hsock
      exact ⟨_, update_self .., rfl, rfl⟩
    · exact ⟨_, (update_of_ne (Ne.symm hfd) ..).trans (update_self ..), rfl, rfl⟩
  · cases h
    exact ⟨rfl, _, update_self .., rfl, rfl⟩

theorem Inv.unixConnect (h : s.Inv) (fd : Nat) (path : String) : (s.unixConnect fd path).1.Inv := by
  have hskip : Inv { s with nextPair := s.nextPair + 1 } := ⟨h.served, h.reached, h.kept⟩
  rw [State.unixConnect]
  dsimp only
  split
  · exact h
  rename_i hne
  obtain ⟨serverFd, hlookup⟩ := lookup_of_ne hne
  rw [hlookup]
  split
  · exact hskip
  rename_i server hserver
  split
  · exact hskip
  rename_i ul hul
  split
  · exact hskip
  have hbl : server.backlog = ul.backlog := by rw [Socket.backlog, hul]; rfl
  have hpush : Inv { s.setSocket serverFd { server with
        unixListener := some { ul with backlog := ul.backlog ++ [(newPair s.nextPair).2] } } with
      nextPair := s.nextPair + 1
      queued := s.queued ++ [(server.serial, (newPair s.nextPair).2)] } := by
    refine h.update hserver rfl rfl rfl rfl ?_ ?_ ?_ (fun q hq => hq)
    · exact fun _ => ⟨_, mem_of_lookup hlookup, rfl⟩
    · intro q hq
      rcases mem_append.mp hq with hq | hq
      · exact .inl hq
      · obtain rfl := mem_singleton.mp hq
        exact .inr ⟨rfl, mem_append_right _ mem_cons_self⟩
    · intro c hc
      rw [hbl] at hc
      exact .inl (mem_append_left _ hc)
  split
  · rename_i sock hsock
    refine hpush.update hsock rfl rfl rfl rfl ?_ (fun q hq => .inl hq) (fun c hc => .inl hc) (fun q hq => hq)
    exact fun hne => hpush.reached fd sock hsock hne
  · exact hpush

def closesUnbound (s : State) (fd : Nat) : Bool := s.binds.all (·.2 ≠ fd)

theorem Inv.socketClose (h : s.Inv) (hok : s.closesUnbound fd) : (s.socketClose fd).Inv := by
  rw [State.socketClose]
  split
  · refine h.slot none (fun _ hf => nomatch hf) ?_
    intro _ _ b hb
    simpa using List.all_eq_true.mp hok b hb
  · exact h

/-! ### Runs -/

def proper (s : State) : Event → Bool
  | .bind fd path => s.bindsOpen fd path
  | .listen fd _ => s.listensFresh fd
  | .accept fd => s.acceptsFree fd
  | .close fd => s.closesUnbound fd
  | .socket _ _ _ | .connect _ _ => true

theorem Inv.step (h : s.Inv) {e : Event} (hok : s.proper e) (hs : s.step e = some t) : t.Inv := by
  cases e with
  | socket domain kind protocol =>
    cases hs
    exact h.sysSocket domain kind protocol
  | bind fd path =>
    cases hs
    exact h.unixBind hok
  | listen fd backlog =>
    cases hs
    exact h.unixListen hok
  | connect fd path =>
    cases hs
    exact h.unixConnect fd path
  | accept fd =>
    cases hs
    exact h.unixAccept hok
  | close fd =>
    cases hs
    exact h.socketClose hok

structure ReachesServer (s : State) : Prop where
  /-- A successful connect queues the connection on an open socket that was itself bound to the path. -/
  connects : ∀ fd path t, s.unixConnect fd path = (t, 0) → ∃ serverFd server ul, s.sockets serverFd = some server ∧
    (server.serial, path) ∈ s.bound ∧ server.unixListener = some ul ∧
    t.queued = s.queued ++ [(server.serial, (newPair s.nextPair).2)] ∧
    ∃ server', t.sockets serverFd = some server' ∧ server'.serial = server.serial ∧
      server'.backlog = server.backlog ++ [(newPair s.nextPair).2]
  /-- Every connection queued has been returned by an accept on that socket, or waits on it. -/
  kept : ∀ q ∈ s.queued, q ∈ s.accepted ∨ ∃ fd sock, s.sockets fd = some sock ∧ sock.serial = q.1 ∧ q.2 ∈ sock.backlog
  /-- An accept returns the connection that has waited longest, if a slot is free. -/
  accepts : ∀ fd sock conn rest, s.sockets fd = some sock → sock.backlog = conn :: rest → s.freeSlot.isSome →
    ∃ (t : State) (i : Nat) (sock' : Socket), s.unixAccept fd = (t, (i : Int)) ∧
      t.accepted = s.accepted ++ [(sock.serial, conn)] ∧
      t.sockets i = some sock' ∧ sock'.unixConn = some conn
  /-- A path to which no open socket is bound can be bound. -/
  rebinds : ∀ path, (∀ fd sock, s.sockets fd = some sock → (sock.serial, path) ∉ s.bound) →
    ∀ fd, (s.unixBind fd path).2 = 0

theorem unixAccept_first {conn : UnixConn} {rest : List UnixConn}
    (hfd : s.sockets fd = some sock) (hback : sock.backlog = conn :: rest) (hfree : s.freeSlot.isSome) :
    ∃ (t : State) (i : Nat) (sock' : Socket), s.unixAccept fd = (t, (i : Int)) ∧
      t.accepted = s.accepted ++ [(sock.serial, conn)] ∧
      t.sockets i = some sock' ∧ sock'.unixConn = some conn := by
  obtain ⟨i, hi⟩ := isSome_iff_exists.mp hfree
  obtain ⟨ul, hul, hrest⟩ : ∃ ul, sock.unixListener = some ul ∧ ul.backlog = conn :: rest := by
    rw [Socket.backlog] at hback
    cases hul : sock.unixListener with
    | none => simp [hul] at hback
    | some ul => exact ⟨ul, rfl, by simpa [hul] using hback⟩
  have hslot : (s.setSocket fd { sock with unixListener := some { ul with backlog := rest } }).freeSlot = some i := by
    rw [freeSlot_setSocket hfd, hi]
  simp only [unixAccept, hfd, hul, hrest, hslot]
  exact ⟨_, i, _, rfl, rfl, update_self .., rfl⟩

theorem Inv.reachesServer (h : s.Inv) : s.ReachesServer := by
  refine ⟨?_, h.kept, ?_, ?_⟩
  · intro fd path t ht
    obtain ⟨serverFd, server, ul, hbind, hserver, hul, hqueued, hrest⟩ := unixConnect_ok ht
    obtain ⟨sock, hsock, hbound⟩ := h.served _ hbind
    rw [hserver] at hsock
    cases hsock
    exact ⟨serverFd, server, ul, hserver, hbound, hul, hqueued, hrest⟩
  · exact fun fd sock conn rest hfd hback hfree => unixAccept_first hfd hback hfree
  · intro path hnone fd
    have hfree : s.binds.lookup path = none := by
      by_contra hne
      obtain ⟨bfd, hb⟩ := ne_none_iff_exists'.mp hne
      obtain ⟨sock, hsock, hbound⟩ := h.served _ (mem_of_lookup hb)
      exact hnone _ sock hsock hbound
    rw [State.unixBind, hfree]
    simp only [isSome_none, Bool.false_eq_true, if_false]
    split <;> rfl

/-- In every run in which sockets are bound while they are open, do not listen again while connections wait, accept while a
    slot is free, and are not closed while a path is bound to them, connections reach the right server. -/
theorem connects_reach_server (s : State)
    (h : Lib.Reach (fun s e t => s.step e = some t) (fun s e => s.proper e = true) State.new s) : s.ReachesServer :=
  (h.invariant inv_new fun _ _ _ hu hok hs => hu.step hok hs).reachesServer

/-- A server is bound, listens and accepts a connection; the client is closed. -/
theorem connects_reach_server_one : ∃ s, Lib.Reach.run State.step State.proper State.new
    [.socket AF_UNIX SOCK_STREAM 0, .bind 0 "/s", .listen 0 4, .socket AF_UNIX SOCK_STREAM 0, .connect 1 "/s", .accept 0,
      .close 1] = some s ∧ s.accepted = [(0, (newPair 0).2)] ∧ s.ReachesServer := by
  exact Lib.Reach.exists_run_and (by decide +kernel) fun s hs hacc => ⟨hacc, connects_reach_server s hs⟩

/-- A server bound to a path is closed, and another socket listens in its slot: a connect to the path waits on that socket,
    and the path cannot be bound again. -/
theorem closed_server_reached : ∃ s t, Lib.Reach.run State.step (fun _ _ => true) State.new
    [.socket AF_UNIX SOCK_STREAM 0, .bind 0 "/s", .listen 0 4, .close 0, .socket AF_UNIX SOCK_STREAM 0, .listen 0 4,
      .socket AF_UNIX SOCK_STREAM 0] = some s ∧ s.bound = [(0, "/s")] ∧
      s.unixConnect 1 "/s" = (t, 0) ∧ t.queued = [(1, (newPair 0).2)] ∧ (s.unixBind 1 "/s").2 = -98 := by
  have hrun : (Lib.Reach.run State.step (fun _ _ => true) State.new
      [.socket AF_UNIX SOCK_STREAM 0, .bind 0 "/s", .listen 0 4, .close 0, .socket AF_UNIX SOCK_STREAM 0, .listen 0 4,
        .socket AF_UNIX SOCK_STREAM 0]).map (fun s => (s.bound, (s.unixConnect 1 "/s").2, (s.unixConnect 1 "/s").1.queued,
          (s.unixBind 1 "/s").2)) = some ([(0, "/s")], 0, [(1, (newPair 0).2)], -98) := by decide +kernel
  obtain ⟨s, hs, hdata⟩ := map_eq_some_iff.mp hrun
  simp only [Prod.mk.injEq] at hdata
  obtain ⟨hbound, hrc, hqueued, hbind⟩ := hdata
  exact ⟨s, _, hs, hbound, Prod.ext rfl hrc, hqueued, hbind⟩

end State

end Moxide.UnixSocket
