import CheriGzip.Lib.Proc

/-!
# Socket operations

The operations of programs that talk over stream sockets, with the answers a kernel may
give. `note` is a mark in the history of a run; `undefined` is undefined behaviour, from
which no run goes on.
-/
namespace CheriGzip.Socket

inductive Errno where
  | eintr
  | epipe
  | echild
  | ebadmsg
  | ebadrpc
  | esrch
  | emsgsize
  | enomem
  | other (code : Nat)
  deriving DecidableEq, Repr

/-- A control message: whether it is `SOL_SOCKET`/`SCM_RIGHTS`, its `cmsg_len`, and the
descriptors at its `CMSG_DATA`. -/
structure Cmsg where
  rights : Bool
  cmsgLen : Nat
  data : List Int
  deriving DecidableEq, Repr

variable {χ ν : Type}

/-- Operations on sockets that carry symbols `χ`; the marks are of type `ν`. -/
inductive Op (χ ν : Type) where
  | send (fd : Int) (bytes : List χ)
  | recv (fd : Int) (len : Nat)
  | sendmsg (fd : Int) (bytes : List χ) (control : List Cmsg)
  | recvmsg (fd : Int) (len : Nat)
  | close (fd : Int)
  | note (what : ν)
  | undefined

/-- A count or what was received, or the error that made the call return -1. -/
abbrev Answer : Op χ ν → Type
  | .send .. => Except Errno Nat
  | .recv .. => Except Errno (List χ)
  | .sendmsg .. => Except Errno Nat
  | .recvmsg .. => Except Errno (List χ × List Cmsg)
  | .close _ => Unit
  | .note _ => Unit
  | .undefined => Empty

abbrev Prog (χ ν α : Type) := Proc (@Answer χ ν) α
abbrev Head (χ ν α : Type) := Proc.Head (@Answer χ ν) α

def send (fd : Int) (bytes : List χ) : Prog χ ν (Except Errno Nat) :=
  .call (Op.send fd bytes)

def recv (fd : Int) (len : Nat) : Prog χ ν (Except Errno (List χ)) :=
  .call (Op.recv fd len)

def sendmsg (fd : Int) (bytes : List χ) (control : List Cmsg) : Prog χ ν (Except Errno Nat) :=
  .call (Op.sendmsg fd bytes control)

def recvmsg (fd : Int) (len : Nat) : Prog χ ν (Except Errno (List χ × List Cmsg)) :=
  .call (Op.recvmsg fd len)

def close (fd : Int) : Prog χ ν Unit := .call (Op.close fd)

def note (what : ν) : Prog χ ν Unit := .call (Op.note what)

def undefined {α : Type} : Prog χ ν α :=
  .op Op.undefined Empty.elim

section

variable {α : Type}

@[simp] theorem send_bind (fd : Int) (bytes : List χ) (f : Except Errno Nat → Prog χ ν α) :
    (send fd bytes).bind f = .op (Op.send fd bytes) f := rfl

@[simp] theorem recv_bind (fd : Int) (len : Nat) (f : Except Errno (List χ) → Prog χ ν α) :
    (recv fd len).bind f = .op (Op.recv fd len) f := rfl

@[simp] theorem note_bind (what : ν) (f : Unit → Prog χ ν α) :
    (note what).bind f = .op (Op.note what) f := rfl

end

end CheriGzip.Socket
