import Moxide.Lib.Reach
import Moxide.VirtioNet

/-! The wire protocol between the proxy and the driver, whose buffer may cut a message. -/

namespace Moxide.VirtioNet
open Ipc (Bytes Endpoints endpointSend sysIpcRecv)
open Lib.LittleEndian (toBytes ofBytes length_toBytes)
open SchemeProxy List Option
open Lib

/-- The slices of three fields, of which the buffer may cut the last. -/
theorem slice_fields {a b c : Bytes} {k m n : Nat} (ha : a.length = k) (hb : k + b.length = m) (hn : m ≤ n) :
    slice ((a ++ b ++ c).take n) 0 k = some a ∧ slice ((a ++ b ++ c).take n) k m = some b ∧
      slice ((a ++ b ++ c).take n) m (m + c.length) = if m + c.length ≤ n then some c else none := by
  have htake {i j : Nat} (hij : i ≤ j) (hjn : j ≤ n) (hj : j ≤ (a ++ b ++ c).length) :
      slice ((a ++ b ++ c).take n) i j = some (((a ++ b ++ c).take j).drop i) := by
    rw [slice, if_pos ⟨hij, by rw [length_take]; omega⟩, take_take, Nat.min_eq_left hjn]
  have hlen : (a ++ b ++ c).length = m + c.length := by rw [length_append, length_append, ha, hb]
  have hab : (a ++ b).length = m := by rw [length_append, ha, hb]
  refine ⟨?_, ?_, ?_⟩
  · rw [htake (by omega) (by omega) (by omega), drop_zero, append_assoc, take_left' ha]
  · rw [htake (by omega) hn (by omega), take_left' hab, drop_left' ha]
  split
  · rw [htake (by omega) ‹_› (by omega), ← hlen, take_length, drop_left' hab]
  · rw [slice, if_neg (by rw [length_take]; omega)]

theorem toNat_length {b : Bytes} (h : b.length ≤ Ipc.IPC_MAX_MESSAGE) :
    (UInt32.ofNat (ofBytes (toBytes 4 (UInt32.ofNat b.length).toNat))).toNat = b.length := by
  rw [LittleEndian.ofNat_ofBytes_32]
  refine UInt32.toNat_ofNat_of_lt' (lt_of_le_of_lt h ?_)
  decide

theorem fromUtf8OrEmpty_toUTF8 (s : String) : fromUtf8OrEmpty s.toUTF8.data.toList = s := by
  have hvalid : ByteArray.IsValidUTF8 ⟨s.toUTF8.data.toList.toArray⟩ := s.isValidUTF8
  rw [fromUtf8OrEmpty, String.fromUTF8?, dif_pos hvalid]
  rfl

/-! ### Requests -/

theorem decode_opens {path : String} {flags : UInt32} (h : path.toUTF8.data.toList.length ≤ Ipc.IPC_MAX_MESSAGE) :
    decodeRequest ((encodeRequest (.opens path flags)).take MSG_BUF) =
      if 9 + path.toUTF8.data.toList.length ≤ MSG_BUF then some (.opens flags path) else none := by
  generalize hp : path.toUTF8.data.toList = p at h ⊢
  obtain ⟨hflags, hlen, hpath⟩ := @slice_fields (toBytes 4 flags.toNat) (toBytes 4 (UInt32.ofNat p.length).toNat) p 4 8 4095
    (length_toBytes ..) (by simp) (by decide)
  have hbody : encodeRequest (.opens path flags) =
      1 :: (toBytes 4 flags.toNat ++ toBytes 4 (UInt32.ofNat p.length).toNat ++ p) := by
    rw [encodeRequest, pushStr, pushBytes, hp]
    rfl
  rw [hbody, MSG_BUF, take_succ_cons, decodeRequest, if_pos rfl, if_neg (by simp; omega), hflags, hlen]
  simp only [bind_eq_bind, bind_some, toNat_length h, hpath]
  split
  · rw [if_pos (by omega), bind_some, LittleEndian.ofNat_ofBytes_32, ← hp, fromUtf8OrEmpty_toUTF8]
  · rw [if_neg (by omega), bind_none]

theorem decode_write {fd : UInt64} {data : Bytes} (h : data.length ≤ Ipc.IPC_MAX_MESSAGE) :
    decodeRequest ((encodeRequest (.write fd data)).take MSG_BUF) =
      if 13 + data.length ≤ MSG_BUF then some (.write fd data) else none := by
  obtain ⟨hfd, hlen, hdata⟩ := @slice_fields (toBytes 8 fd.toNat) (toBytes 4 (UInt32.ofNat data.length).toNat) data 8 12 4095
    (length_toBytes ..) (by simp) (by decide)
  have hbody : encodeRequest (.write fd data) =
      3 :: (toBytes 8 fd.toNat ++ toBytes 4 (UInt32.ofNat data.length).toNat ++ data) := rfl
  rw [hbody, MSG_BUF, take_succ_cons, decodeRequest, if_neg (by decide), if_neg (by decide), if_pos rfl, hfd, hlen]
  simp only [bind_eq_bind, bind_some, toNat_length h, hdata]
  split
  · rw [if_pos (by omega), bind_some, LittleEndian.ofNat_ofBytes_64]
  · rw [if_neg (by omega), bind_none]

theorem decode_read (fd len : UInt64) : decodeRequest ((encodeRequest (.read fd len)).take MSG_BUF) = some (.read fd) := by
  have hbody : encodeRequest (.read fd len) = 2 :: (toBytes 8 fd.toNat ++ toBytes 8 len.toNat ++ []) := rfl
  obtain ⟨hfd, -, -⟩ := @slice_fields (toBytes 8 fd.toNat) (toBytes 8 len.toNat) [] 8 16 4095 (length_toBytes ..) (by simp)
    (by decide)
  rw [hbody, MSG_BUF, take_succ_cons, decodeRequest, hfd]
  simp

/-- The driver has the operation of the request, and takes the file id, path, flags and data of the request from it. -/
def Decoded.Matches : Decoded → SchemeRequest → Prop
  | .opens flags path, .opens path' flags' => path = path' ∧ flags = flags'
  | .read fd, .read fd' _ => fd = fd'
  | .write fd data, .write fd' data' => fd = fd' ∧ data = data'
  | .close, .close _ => True
  | _, _ => False

/-- The request has an operation of the driver and its encoding fits into the driver's buffer. -/
def carried : SchemeRequest → Bool
  | .opens path _ => 9 + path.toUTF8.data.toList.length ≤ MSG_BUF
  | .write _ data => 13 + data.length ≤ MSG_BUF
  | .read _ _ | .close _ => true
  | .ioctl _ _ _ | .seek _ _ _ => false

/-- Whenever the request is next in the queue of an endpoint, its owner receives it in a buffer of the driver's size and
    the driver takes it for what it is. -/
def RequestAgrees (req : SchemeRequest) : Prop :=
  ∀ (es : Endpoints) endpoint ep rest, es endpoint = some ep → ep.toServer = encodeRequest req :: rest →
    ∃ es' msg d, sysIpcRecv es endpoint ep.ownerPid MSG_BUF true true = (es', .ok msg) ∧
      dispatch msg = some (.request d) ∧ d.Matches req

def ResponsesAgree : Prop := ∀ resp bytes, encodeResponse resp = some bytes → decodeResponse bytes = some resp

theorem sysIpcRecv_front {es : Endpoints} {endpoint : UInt64} {ep : Ipc.EndpointState} {msg : Bytes} {rest : List Bytes}
    (hep : es endpoint = some ep) (hfront : ep.toServer = msg :: rest) :
    sysIpcRecv es endpoint ep.ownerPid MSG_BUF true true =
      (Function.update es endpoint (some { ep with toServer := rest }), .ok (msg.take MSG_BUF)) := by
  have hown : Ipc.endpointOwnedBy es endpoint ep.ownerPid := by simp [Ipc.endpointOwnedBy, hep]
  simp [sysIpcRecv, hep, hown, Ipc.EndpointState.sysRecv, hfront, MSG_BUF]

theorem dispatch_request (req : SchemeRequest) : dispatch ((encodeRequest req).take MSG_BUF) =
    (decodeRequest ((encodeRequest req).take MSG_BUF)).map .request := by
  have hhead : ((encodeRequest req).take MSG_BUF).head? ≠ some 0xFF := by
    cases req <;> simp [encodeRequest, pushStr, pushBytes, pushU32, pushU64, MSG_BUF, TAG_OPEN, TAG_READ,
      TAG_WRITE, TAG_IOCTL, TAG_SEEK, TAG_CLOSE]
  rw [dispatch, if_neg hhead]

theorem requestAgrees_iff_decode (req : SchemeRequest) :
    RequestAgrees req ↔ ∃ d, decodeRequest ((encodeRequest req).take MSG_BUF) = some d ∧ d.Matches req := by
  constructor
  · intro h
    obtain ⟨es', msg, d, hrecv, hdisp, hmatch⟩ := h (fun _ => some ⟨0, [encodeRequest req], []⟩) 0 _ [] rfl rfl
    obtain ⟨-, hmsg⟩ := Prod.mk.inj hrecv
    cases hmsg
    rw [dispatch_request] at hdisp
    obtain ⟨d', hd', heq⟩ := map_eq_some_iff.mp hdisp
    cases heq
    exact ⟨d, hd', hmatch⟩
  · rintro ⟨d, hd, hmatch⟩ es endpoint ep rest hep hfront
    refine ⟨_, _, d, sysIpcRecv_front hep hfront, ?_, hmatch⟩
    rw [dispatch_request, hd]
    rfl

theorem schemeErrorFromU32_toU32 (e : SchemeError) : schemeErrorFromU32 e.toU32 = e := by
  cases e <;> rfl

theorem readU64_toBytes (n : UInt64) : readU64 (toBytes 8 n.toNat) = some n := by
  rw [readU64, if_pos (by simp), take_of_length_le (by simp), LittleEndian.ofNat_ofBytes_64]

theorem readU32_toBytes (n : UInt32) : readU32 (toBytes 4 n.toNat) = some n := by
  rw [readU32, if_pos (by simp), take_of_length_le (by simp), LittleEndian.ofNat_ofBytes_32]

theorem responsesAgree : ResponsesAgree := by
  intro resp bytes h
  cases resp with
  | fd id =>
    cases h
    simp [encodeFd, decodeResponse, RESP_FD, readU64_toBytes]
  | data bytes =>
    cases h
    rfl
  | count n =>
    cases h
    simp [encodeCount, decodeResponse, RESP_FD, RESP_DATA, RESP_COUNT, readU64_toBytes]
  | seekPos pos => cases h
  | ok =>
    cases h
    rfl
  | err e =>
    cases h
    simp [encodeErr, decodeResponse, RESP_FD, RESP_DATA, RESP_COUNT, RESP_SEEK, RESP_OK, RESP_ERR, readU32_toBytes,
      schemeErrorFromU32_toU32]

theorem length_le_of_send {es es' : Endpoints} {endpoint : UInt64} {bytes : Bytes}
    (h : endpointSend es endpoint bytes = some es') : bytes.length ≤ Ipc.IPC_MAX_MESSAGE := by
  obtain ⟨ep, -, h⟩ := bind_eq_some_iff.mp h
  rw [Ipc.EndpointState.send] at h
  split at h
  · cases h
  · rename_i hlen
    simpa [Ipc.validMessageLen] using hlen

theorem matches_ite_iff {p : Prop} [Decidable p] {d : Decoded} {req : SchemeRequest} (hd : d.Matches req) :
    (∃ d', (if p then some d else none) = some d' ∧ d'.Matches req) ↔ decide p = true := by
  simp only [ite_none_right_eq_some, some.injEq, and_assoc, exists_and_left, exists_eq_left', hd, and_true,
    decide_eq_true_eq]

theorem decode_matches_iff {req : SchemeRequest} (hlen : (encodeRequest req).length ≤ Ipc.IPC_MAX_MESSAGE) :
    (∃ d, decodeRequest ((encodeRequest req).take MSG_BUF) = some d ∧ d.Matches req) ↔ carried req := by
  cases req with
  | opens path flags =>
    rw [decode_opens (by simp [encodeRequest, pushStr, pushBytes, pushU32] at hlen ⊢; omega)]
    exact matches_ite_iff ⟨rfl, rfl⟩
  | write fd data =>
    rw [decode_write (by simp [encodeRequest, pushBytes, pushU32, pushU64] at hlen ⊢; omega)]
    exact matches_ite_iff ⟨rfl, rfl⟩
  | read fd len =>
    rw [decode_read]
    exact ⟨fun _ => rfl, fun _ => ⟨_, rfl, rfl⟩⟩
  | close fd =>
    exact ⟨fun _ => rfl, fun _ => ⟨_, rfl, trivial⟩⟩
  | ioctl fd cmd arg =>
    refine ⟨?_, fun h => (nomatch h)⟩
    rintro ⟨d, hd, hm⟩
    cases hd
    exact hm.elim
  | seek fd offset whence =>
    refine ⟨?_, fun h => (nomatch h)⟩
    rintro ⟨d, hd, hm⟩
    cases hd
    exact hm.elim

/-- For every request that the endpoint accepts: kernel and driver agree on it, and on all responses, if and only if it has
    an operation of the driver and fits into the driver's buffer. -/
theorem wire_agrees_iff (req : SchemeRequest) (es es' : Endpoints) (endpoint : UInt64)
    (hsend : endpointSend es endpoint (encodeRequest req) = some es') :
    RequestAgrees req ∧ ResponsesAgree ↔ carried req = true := by
  rw [requestAgrees_iff_decode, decode_matches_iff (length_le_of_send hsend)]
  exact ⟨And.left, fun h => ⟨h, responsesAgree⟩⟩

theorem wire_agrees_iff_open : ∃ es', endpointSend (fun _ => some ⟨4, [], []⟩) 9
    (encodeRequest (.opens "eth0" 3)) = some es' ∧
    RequestAgrees (.opens "eth0" 3) ∧ ResponsesAgree :=
  ⟨_, rfl, (wire_agrees_iff (.opens "eth0" 3) (fun _ => some ⟨4, [], []⟩) _ 9 rfl).mpr (by decide +kernel)⟩

theorem write_panics {data : Bytes} (hlo : MSG_BUF < 13 + data.length) (hhi : 13 + data.length ≤ Ipc.IPC_MAX_MESSAGE) :
    ∃ es' es'' msg, endpointSend (fun _ => some ⟨4, [], []⟩) 9 (encodeRequest (.write 1 data)) = some es' ∧
      sysIpcRecv es' 9 4 MSG_BUF true true = (es'', .ok msg) ∧ dispatch msg = none := by
  have hlen : (encodeRequest (.write 1 data)).length = 13 + data.length := by
    simp [encodeRequest, pushBytes, pushU32, pushU64]
    omega
  refine ⟨Function.update (fun _ => some ⟨4, [], []⟩) 9 (some ⟨4, [encodeRequest (.write 1 data)], []⟩), _,
    _, ?_, sysIpcRecv_front (Function.update_self ..) rfl, ?_⟩
  · simp [endpointSend, Ipc.EndpointState.send, Ipc.validMessageLen, Ipc.IPC_MAX_QUEUE_DEPTH, hlen, hhi]
  · rw [dispatch_request, decode_write (by omega), if_neg (by omega)]
    rfl

/-- A write of 4084 bytes is accepted; the message of 4097 bytes is cut by one byte and the driver panics. -/
theorem long_write_panics : ∃ es' es'' msg,
    endpointSend (fun _ => some ⟨4, [], []⟩) 9 (encodeRequest (.write 1 (List.replicate 4084 0))) = some es' ∧
      sysIpcRecv es' 9 4 MSG_BUF true true = (es'', .ok msg) ∧ dispatch msg = none :=
  write_panics (by rw [length_replicate]; decide) (by rw [length_replicate]; decide)

/-- The frames that the proxy takes from replies. -/
def framesOf (replies : List Bytes) : List Bytes := replies.filterMap fun reply =>
  match decodeResponse reply with
  | some (.data bytes) => some bytes
  | _ => none

theorem framesOf_respond (rx : List Bytes) (sent : UInt64) (d : Decoded) :
    framesOf [(respond rx sent d).2] ++ (respond rx sent d).1 = rx := by
  cases d with
  | opens flags path =>
    rw [respond]
    split <;> rfl
  | read fd => cases rx <;> rfl
  | write fd data => simp [respond, framesOf, responsesAgree (.count sent) _ rfl]
  | close | invalid => rfl

end Moxide.VirtioNet
