import CheriGzip.Lib.Socket
import CheriGzip.Lib.Bytes

/-!
# The RPC layer

`sandbox_rpc.c` and the RPC routines of `sandbox.c`. A routine returns what the C routine
returns, an errno standing for -1, with the bytes it stored in its caller's buffers. The
counters of the scatter loop are 64-bit; a store outside a buffer is undefined behaviour.
-/
namespace CheriGzip.Libsep

open Socket Proc Loop

/-- What happens between the two processes: a request handed to the sandbox's caller, and a
reply handed to the host's. -/
inductive Event where
  | served (opno seqno : UInt32) (payload : Bytes)
  | answered (rc : Except Errno Nat) (rep : List Bytes)

abbrev Prog (α : Type) := Socket.Prog UInt8 Event α

/-- `SO_SNDBUF`, the number of the socket option in FreeBSD's `sys/socket.h`. -/
def soSndbuf : Nat := 0x1001

/-- `SEND_MAX` -/
def sendMax : Nat := soSndbuf / 2

/-! ## sandbox_rpc.c -/

/-- A round of `while (len)` in `send_everything`, over what is left of `buf` and `totlen`. -/
def sendRound (fd : Int) : Bytes × Nat → Prog (Turn (Bytes × Nat) (Except Errno Nat))
  | (buf, totlen) =>
    if buf.length = 0 then
      pure (.leave (.ok totlen))
    else do
      match ← send fd (buf.take sendMax) with
      | .error .eintr => pure (.again (buf, totlen))
      | .error errno => pure (.leave (.error errno))
      | .ok retlen => pure (.again (buf.drop retlen, totlen + retlen))

def sendEverything (fd : Int) (buf : Bytes) : Prog (Except Errno Nat) :=
  iterate (sendRound fd) (buf, 0)

/-- The return value of a receive and the bytes stored in its buffer. -/
structure Received where
  retlen : Except Errno Nat
  buf : Bytes

/-- A round of `while (len)` in `recv_everything`, over `len` and what `buf` holds. -/
def recvRound (fd : Int) : Nat × Bytes → Prog (Turn (Nat × Bytes) Received)
  | (len, buf) =>
    if len = 0 then
      pure (.leave ⟨.ok buf.length, buf⟩)
    else do
      match ← recv fd (min len sendMax) with
      | .error .eintr => pure (.again (len, buf))
      | .error errno => pure (.leave ⟨.error errno, buf⟩)
      | .ok bytes =>
        if bytes.length = 0 then
          pure (.leave ⟨.ok 0, buf⟩)
        else
          pure (.again (len - bytes.length, buf ++ bytes))

def recvEverything (fd : Int) (len : Nat) : Prog Received :=
  iterate (recvRound fd) (len, [])

/-- `_sandbox_dispose_rights` -/
def sandboxDisposeRights : List Int → Prog Unit
  | [] => pure ()
  | fd :: fdp => do
    close fd
    sandboxDisposeRights fdp

def cmsgAlign (n : Nat) : Nat := (n + 7) / 8 * 8
def cmsgLen (n : Nat) : Nat := cmsgAlign 12 + n
def cmsgSpace (n : Nat) : Nat := cmsgAlign 12 + cmsgAlign n

/-- The number of descriptors a control message holds by its `cmsg_len`. -/
def Cmsg.fdcount (cmsg : Cmsg) : Nat := (cmsg.cmsgLen - cmsgLen 0) / 4

/-- `_sandbox_rpc_receive_rights`: the descriptors copied to `fdp`, which holds `fdcount`. -/
def sandboxRpcReceiveRights (control : List Cmsg) (fdcount : Nat) :
    Prog (Except Errno (List Int)) :=
  let rights := control.filter (·.rights)
  let received := (rights.map Cmsg.fdcount).sum
  if rights.length > 1 ∨ received > fdcount then do
    sandboxDisposeRights (rights.flatMap fun cmsg => cmsg.data.take (Cmsg.fdcount cmsg))
    pure (.error .ebadmsg)
  else
    pure (.ok (rights.flatMap fun cmsg => cmsg.data.take received))

/-- `do retlen = call; while (retlen < 0 && errno == EINTR);` -/
def untilNoEintr {α : Type} (call : Prog α) (retlen : α → Except Errno Nat) : Prog α :=
  iterate (fun _ => do
    let r ← call
    match retlen r with
    | .error .eintr => pure (.again ())
    | _ => pure (.leave r))
    ()

/-- `_sandbox_rpc_send` -/
def sandboxRpcSend (fd : Int) (msg : Bytes) : Prog (Except Errno Nat) :=
  if fd = -1 ∨ fd = 0 then
    pure (.error .echild)
  else
    untilNoEintr (sendEverything fd msg) id

/-- `SANDBOX_RPC_API_MAXRIGHTS` -/
def sandboxRpcApiMaxrights : Nat := 16

/-- `_sandbox_rpc_send_rights`. More descriptors than `cmsgbuf` has room for are written
past its end. -/
def sandboxRpcSendRights (fd : Int) (msg : Bytes) (fdp : List Int) : Prog (Except Errno Nat) :=
  if fdp.length = 0 then
    sandboxRpcSend fd msg
  else if fd = -1 ∨ fd = 0 then
    pure (.error .echild)
  else if cmsgLen (4 * fdp.length) > cmsgSpace (4 * sandboxRpcApiMaxrights) then
    undefined
  else
    let len := cmsgSpace (4 * fdp.length)
    -- `cmsgbuf` was zeroed, so a padding slot holds descriptor 0
    let data := fdp ++ List.replicate ((len - cmsgLen 0) / 4 - fdp.length) 0
    untilNoEintr (sendmsg fd msg [⟨true, len, data⟩]) id

/-- `_sandbox_rpc_recv` -/
def sandboxRpcRecv (fd : Int) (len : Nat) : Prog Received :=
  if fd = -1 ∨ fd = 0 then
    pure ⟨.error .esrch, []⟩
  else
    untilNoEintr (recvEverything fd len) Received.retlen

/-- `_sandbox_rpc_recv_rights`, with the descriptors stored in `fdp`; `fdcount` is the value
of `*fdcountp` on entry. -/
def sandboxRpcRecvRights (fd : Int) (len fdcount : Nat) : Prog (Received × List Int) :=
  if fdcount = 0 then do
    pure (← sandboxRpcRecv fd len, [])
  else if fd = -1 ∨ fd = 0 then
    pure (⟨.error .echild, []⟩, [])
  else if fdcount > sandboxRpcApiMaxrights then
    pure (⟨.error .emsgsize, []⟩, [])
  else do
    match ← untilNoEintr (recvmsg fd len) (fun r => r.map fun m => m.1.length) with
    | .error errno => pure (⟨.error errno, []⟩, [])
    | .ok (bytes, control) =>
      match ← sandboxRpcReceiveRights control fdcount with
      | .error errno => pure (⟨.error errno, bytes⟩, [])
      | .ok fds => pure (⟨.ok bytes.length, bytes⟩, fds)

/-! ## sandbox.h -/

/-- `struct sandbox_cb`: the two ends of the socket pair. -/
structure SandboxCb where
  fdHostEnd : Int
  fdSandboxEnd : Int
  deriving DecidableEq

/-- `SANDBOX_RPC_REQUEST_HDR_MAGIC` -/
def requestHdrMagic : UInt64 := 0x29ee2d7eb9143d98

/-- `SANDBOX_RPC_REPLY_HDR_MAGIC` -/
def replyHdrMagic : UInt64 := 0x37cc2e29f5cce29b

structure RequestHdr where
  magic : UInt64
  seqno : UInt32
  opno : UInt32
  datalen : UInt64
  maxrepdatalen : UInt64
  deriving DecidableEq

structure ReplyHdr where
  magic : UInt64
  seqno : UInt32
  opno : UInt32
  datalen : UInt64
  deriving DecidableEq

/-- `sizeof(struct sandboxrpc_request_hdr)`, and of the reply header: both are packed. -/
def sizeofHdr : Nat := 64

/-- The packed header with its four spare words, which were zeroed. -/
def RequestHdr.bytes (hdr : RequestHdr) : Bytes :=
  le 8 hdr.magic.toNat ++ le 4 hdr.seqno.toNat ++ le 4 hdr.opno.toNat ++
    le 8 hdr.datalen.toNat ++ le 8 hdr.maxrepdatalen.toNat ++ List.replicate 32 0

def RequestHdr.ofBytes (bs : Bytes) : RequestHdr where
  magic := .ofNat (ofLe (slice bs 0 8))
  seqno := .ofNat (ofLe (slice bs 8 4))
  opno := .ofNat (ofLe (slice bs 12 4))
  datalen := .ofNat (ofLe (slice bs 16 8))
  maxrepdatalen := .ofNat (ofLe (slice bs 24 8))

/-- The packed header with its five spare words, which were zeroed. -/
def ReplyHdr.bytes (hdr : ReplyHdr) : Bytes :=
  le 8 hdr.magic.toNat ++ le 4 hdr.seqno.toNat ++ le 4 hdr.opno.toNat ++
    le 8 hdr.datalen.toNat ++ List.replicate 40 0

def ReplyHdr.ofBytes (bs : Bytes) : ReplyHdr where
  magic := .ofNat (ofLe (slice bs 0 8))
  seqno := .ofNat (ofLe (slice bs 8 4))
  opno := .ofNat (ofLe (slice bs 12 4))
  datalen := .ofNat (ofLe (slice bs 16 8))

/-- `for (i = 0; i < count; i++) datalen += iov[i].iov_len;` in 64 bits. -/
def sumLen (iov : List Bytes) : UInt64 :=
  iov.foldl (fun datalen v => datalen + UInt64.ofNat v.length) 0

/-- A header goes out with `_sandbox_rpc_send_rights` when `fdp` is given, and with
`_sandbox_rpc_send` otherwise. -/
def sendHdr (fd : Int) (hdr : Bytes) : Option (List Int) → Prog (Except Errno Nat)
  | some fdp => sandboxRpcSendRights fd hdr fdp
  | none => sandboxRpcSend fd hdr

/-- A header comes in with `_sandbox_rpc_recv_rights` when `fdp` is given, and with
`_sandbox_rpc_recv` otherwise. -/
def recvHdr (fd : Int) : Option Nat → Prog (Received × List Int)
  | some fdcount => sandboxRpcRecvRights fd sizeofHdr fdcount
  | none => do pure (← sandboxRpcRecv fd sizeofHdr, [])

/-! ## Host routines -/

/-- Send the entries of an iovec; `short` is the errno for a short count. -/
def sendIovecs (fd : Int) (short : Errno) : List Bytes → Prog (Except Errno Unit)
  | [] => pure (.ok ())
  | v :: iov => do
    match ← sandboxRpcSend fd v with
    | .error errno => pure (.error errno)
    | .ok len => if len ≠ v.length then pure (.error short) else sendIovecs fd short iov

/-- Overwrite `buf[off ..]` with `bytes`, which have to fit. -/
def store (buf : Bytes) (off : Nat) (bytes : Bytes) : Prog Bytes :=
  if off + bytes.length ≤ buf.length then
    pure (buf.take off ++ bytes ++ buf.drop (off + bytes.length))
  else
    undefined

/-- The state of the loop over one reply entry: its contents, `off` and `totlen`. -/
structure Filling where
  base : Bytes
  off : UInt64
  totlen : UInt64

/-- A round of `while (totlen < rep_hdr.sandboxrpc_rephdr_datalen)` over one reply entry. -/
def scatterRound (fd : Int) (datalen : UInt64) (fds : List Int) (s : Filling) :
    Prog (Turn Filling (Except Errno Unit × Filling)) :=
  if s.totlen < datalen then do
    let iovLen := UInt64.ofNat s.base.length
    let space := iovLen - s.off
    let left := datalen - s.totlen
    let want := if left < space then left else space
    let received ← sandboxRpcRecv fd want.toNat
    let s := { s with base := ← store s.base s.off.toNat received.buf }
    match received.retlen with
    | .error errno => pure (.leave (.error errno, s))
    | .ok len =>
      if UInt64.ofNat len ≠ want then
        sandboxDisposeRights fds
        pure (.leave (.error .echild, s))
      else
        let s := { s with off := s.off + UInt64.ofNat len, totlen := s.totlen + UInt64.ofNat len }
        if iovLen = s.off then
          pure (.leave (.ok (), s))
        else
          pure (.again s)
  else
    pure (.leave (.ok (), s))

/-- The loop over the reply entries. -/
def scatter (fd : Int) (datalen : UInt64) (fds : List Int) :
    List Bytes → UInt64 → Prog (Except Errno UInt64 × List Bytes)
  | [], totlen => pure (.ok totlen, [])
  | v :: rep, totlen => do
    let (rc, s) ← iterate (scatterRound fd datalen fds) ⟨v, 0, totlen⟩
    match rc with
    | .error errno => pure (.error errno, s.base :: rep)
    | .ok () =>
      if s.totlen = datalen then
        pure (.ok s.totlen, s.base :: rep)
      else
        let (rc, rep) ← scatter fd datalen fds rep s.totlen
        pure (rc, s.base :: rep)

/-- `struct host_rpc_params`. An entry of `rep` is a reply buffer with what it holds;
`repFdp` is the value of `*rep_fdcountp` when `rep_fdp` is given. -/
structure HostRpcParams where
  scb : SandboxCb
  opno : UInt32
  req : List Bytes
  reqFdp : Option (List Int)
  rep : List Bytes
  repFdp : Option Nat

/-- The outcome of an RPC: `*replenp` or the errno of a return of -1, the reply buffers, and
the descriptors received. -/
structure HostRpcResult where
  rc : Except Errno Nat
  rep : List Bytes
  fds : List Int

/-- The request header of `host_rpc_internal_fix`. -/
def HostRpcParams.reqHdr (params : HostRpcParams) : RequestHdr where
  magic := requestHdrMagic
  seqno := 0
  opno := params.opno
  datalen := sumLen params.req
  maxrepdatalen := sumLen params.rep

/-- A return of -1 before the reply buffers are touched. -/
def HostRpcParams.fail (params : HostRpcParams) (errno : Errno) : HostRpcResult :=
  ⟨.error errno, params.rep, []⟩

/-- `host_rpc_internal_fix` up to "Receive our header and validate". -/
def hostSendRequest (params : HostRpcParams) : Prog (Except Errno Unit) := do
  let fd := params.scb.fdHostEnd
  match ← sendHdr fd params.reqHdr.bytes params.reqFdp with
  | .error errno => pure (.error errno)
  | .ok len =>
    if len ≠ sizeofHdr then pure (.error .echild) else sendIovecs fd .echild params.req

/-- `host_rpc_internal_fix` from "Receive our header and validate". -/
def hostReceiveReply (params : HostRpcParams) : Prog HostRpcResult := do
  let fd := params.scb.fdHostEnd
  let (received, fds) ← recvHdr fd params.repFdp
  match received.retlen with
  | .error errno => pure (params.fail errno)
  | .ok len =>
    if len ≠ sizeofHdr then
      sandboxDisposeRights fds
      pure (params.fail .echild)
    else
      let repHdr := ReplyHdr.ofBytes received.buf
      if repHdr.magic ≠ replyHdrMagic ∨ repHdr.seqno ≠ 0 ∨ repHdr.opno ≠ params.opno ∨
          repHdr.datalen > params.reqHdr.maxrepdatalen then
        sandboxDisposeRights fds
        pure (params.fail .ebadrpc)
      else
        let (rc, rep) ← scatter fd repHdr.datalen fds params.rep 0
        pure ⟨rc.map UInt64.toNat, rep, fds⟩

/-- `host_rpc_internal_fix` -/
def hostRpcInternalFix (params : HostRpcParams) : Prog HostRpcResult := do
  match ← hostSendRequest params with
  | .error errno => pure (params.fail errno)
  | .ok () => hostReceiveReply params

/-- `host_rpc_rights_fix` -/
def hostRpcRightsFix (params : HostRpcParams) : Prog HostRpcResult :=
  hostRpcInternalFix params

/-- `host_rpc_fix` -/
def hostRpcFix (params : HostRpcParams) : Prog HostRpcResult :=
  hostRpcInternalFix { params with reqFdp := none, repFdp := none }

/-! ## Sandbox routines -/

/-- A request as `sandbox_recvrpc` hands it over. -/
structure Request where
  opno : UInt32
  seqno : UInt32
  buffer : Bytes
  fds : List Int

/-- A round of the loop that receives the payload of a request into `buffer`. -/
def payloadRound (fd : Int) (reqHdr : RequestHdr) (fds : List Int) (buffer : Bytes) :
    Prog (Turn Bytes (Except Errno Request)) :=
  if buffer.length < reqHdr.datalen.toNat then do
    let received ← sandboxRpcRecv fd (reqHdr.datalen.toNat - buffer.length)
    match received.retlen with
    | .error errno =>
      sandboxDisposeRights fds
      pure (.leave (.error errno))
    | .ok len =>
      if len = 0 then
        sandboxDisposeRights fds
        pure (.leave (.error .epipe))
      else
        pure (.again (buffer ++ received.buf))
  else
    pure (.leave (.ok ⟨reqHdr.opno, reqHdr.seqno, buffer, fds⟩))

/-- `sandbox_recvrpc_internal`; `mallocs` tells which allocations succeed. -/
def sandboxRecvrpcInternal (scb : SandboxCb) (mallocs : Nat → Bool) (fdp : Option Nat) :
    Prog (Except Errno Request) := do
  let fd := scb.fdSandboxEnd
  let (received, fds) ← recvHdr fd fdp
  match received.retlen with
  | .error errno => pure (.error errno)
  | .ok len =>
    if len = 0 then
      sandboxDisposeRights fds
      pure (.error .epipe)
    else if len ≠ sizeofHdr then
      sandboxDisposeRights fds
      pure (.error .ebadmsg)
    else
      let reqHdr := RequestHdr.ofBytes received.buf
      if reqHdr.magic ≠ requestHdrMagic then
        sandboxDisposeRights fds
        pure (.error .ebadmsg)
      else if !mallocs reqHdr.datalen.toNat then
        sandboxDisposeRights fds
        pure (.error .enomem)
      else
        iterate (payloadRound fd reqHdr fds) []

/-- `sandbox_recvrpc` -/
def sandboxRecvrpc (scb : SandboxCb) (mallocs : Nat → Bool) : Prog (Except Errno Request) :=
  sandboxRecvrpcInternal scb mallocs none

/-- `sandbox_recvrpc_rights` -/
def sandboxRecvrpcRights (scb : SandboxCb) (mallocs : Nat → Bool) (fdcount : Nat) :
    Prog (Except Errno Request) :=
  sandboxRecvrpcInternal scb mallocs (some fdcount)

/-- `sandbox_sendrpc_internal` -/
def sandboxSendrpcInternal (scb : SandboxCb) (opno seqno : UInt32) (rep : List Bytes)
    (fdp : Option (List Int)) : Prog (Except Errno Unit) := do
  let fd := scb.fdSandboxEnd
  let repHdr : ReplyHdr :=
    { magic := replyHdrMagic, seqno := seqno, opno := opno, datalen := sumLen rep }
  match ← sendHdr fd repHdr.bytes fdp with
  | .error errno => pure (.error errno)
  | .ok len =>
    if len ≠ sizeofHdr then pure (.error .epipe) else sendIovecs fd .epipe rep

/-- `sandbox_sendrpc` -/
def sandboxSendrpc (scb : SandboxCb) (opno seqno : UInt32) (rep : List Bytes) :
    Prog (Except Errno Unit) :=
  sandboxSendrpcInternal scb opno seqno rep none

/-- `sandbox_sendrpc_rights` -/
def sandboxSendrpcRights (scb : SandboxCb) (opno seqno : UInt32) (rep : List Bytes)
    (fdp : List Int) : Prog (Except Errno Unit) :=
  sandboxSendrpcInternal scb opno seqno rep (some fdp)

end CheriGzip.Libsep
