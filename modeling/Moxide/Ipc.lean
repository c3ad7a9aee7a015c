import Mathlib

/-! The IPC endpoints of `ipc/mod.rs`: two queues of messages between the kernel and the process that owns the endpoint.
    Each function runs under the lock of `ENDPOINTS`, so a call is one step. -/

namespace Moxide.Ipc

def IPC_MAX_MESSAGE : Nat := 64 * 1024
def IPC_MAX_QUEUE_DEPTH : Nat := 128

abbrev Bytes := List UInt8

structure EndpointState where
  ownerPid : Nat
  toServer : List Bytes
  toKernel : List Bytes
  deriving DecidableEq, Repr

abbrev Endpoints := UInt64 → Option EndpointState

def validMessageLen (len : Nat) : Bool := len ≤ IPC_MAX_MESSAGE

/-- `endpoint_send` on an endpoint that exists; `none` is its `Err(())`. -/
def EndpointState.send (ep : EndpointState) (bytes : Bytes) : Option EndpointState :=
  if !validMessageLen bytes.length then none
  else if IPC_MAX_QUEUE_DEPTH ≤ ep.toServer.length then none
  else some { ep with toServer := ep.toServer ++ [bytes] }

/-- `endpoint_recv` on an endpoint that exists. -/
def EndpointState.recv (ep : EndpointState) : Option (EndpointState × Bytes) :=
  match ep.toKernel with
  | [] => none
  | bytes :: rest => some ({ ep with toKernel := rest }, bytes)

def endpointSend (es : Endpoints) (endpoint : UInt64) (bytes : Bytes) : Option Endpoints :=
  (es endpoint).bind fun ep => (ep.send bytes).map fun ep => Function.update es endpoint (some ep)

def endpointOwnedBy (es : Endpoints) (endpoint : UInt64) (pid : Nat) : Bool := (es endpoint).any (·.ownerPid = pid)

/-- The part of `sys_ipc_recv` after its checks. `copied` is the outcome of `copy_to_user`. -/
def EndpointState.sysRecv (ep : EndpointState) (bufLen : Nat) (copied : Bool) : EndpointState × Except Int Bytes :=
  match ep.toServer with
  | [] => (ep, .error (-11))
  | msg :: rest => ({ ep with toServer := rest }, if copied then .ok (msg.take bufLen) else .error (-14))

/-- `valid` is the outcome of `validate_user_ptr`; what is copied to the caller's buffer is returned. -/
def sysIpcRecv (es : Endpoints) (endpoint : UInt64) (pid bufLen : Nat) (valid copied : Bool) :
    Endpoints × Except Int Bytes :=
  if bufLen = 0 ∨ !valid then (es, .error (-14))
  else match es endpoint with
    | none => (es, .error (-1))
    | some ep =>
      if !endpointOwnedBy es endpoint pid then (es, .error (-1))
      else
        let (ep, res) := ep.sysRecv bufLen copied
        (Function.update es endpoint (some ep), res)

/-- `sys_ipc_send` by the owner of an endpoint that exists; `valid` is the outcome of `validate_user_ptr` and
    `copy_from_user`. -/
def EndpointState.sysSend (ep : EndpointState) (msg : Bytes) (valid : Bool) : EndpointState × Int :=
  if !validMessageLen msg.length || !valid then (ep, -14)
  else if IPC_MAX_QUEUE_DEPTH ≤ ep.toKernel.length then (ep, -11)
  else ({ ep with toKernel := ep.toKernel ++ [msg] }, msg.length)

end Moxide.Ipc
