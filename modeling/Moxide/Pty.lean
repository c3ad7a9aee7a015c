import Mathlib

/-! The input side of a pseudo-terminal, of `tty/pty.rs` and `tty/ldisc.rs`. `master_write` takes the lock for each byte, so
    that a byte is a step. -/

namespace Moxide.Pty

def ICRNL : UInt32 := 0o400
def IXON : UInt32 := 0o2000
def ISIG : UInt32 := 0o1
def ICANON : UInt32 := 0o2
def ECHO : UInt32 := 0o10

inductive Cc where
  | vintr | vquit | verase | vkill | veof | vmin | vstart | vstop | vsusp | veol | vwerase | veol2
deriving DecidableEq

structure Termios where
  cIflag : UInt32
  cLflag : UInt32
  cCc : Cc → UInt8

namespace Termios

def isCanonical (t : Termios) : Bool := t.cLflag &&& ICANON ≠ 0
def isEcho (t : Termios) : Bool := t.cLflag &&& ECHO ≠ 0
def isIsig (t : Termios) : Bool := t.cLflag &&& ISIG ≠ 0
def isIcrnl (t : Termios) : Bool := t.cIflag &&& ICRNL ≠ 0

end Termios

def SIGINT : UInt8 := 2
def SIGQUIT : UInt8 := 3
def SIGTSTP : UInt8 := 20
def MAX_CANON : Nat := 4096

inductive LdiscAction where
  | append (b : UInt8)
  | lineReady
  | erase
  | kill
  | werasWord
  | signal (sig : UInt8)
  | xon
  | xoff
  | discard
deriving DecidableEq

def processInput (t : Termios) (byte : UInt8) : LdiscAction :=
  if t.isIsig ∧ byte = t.cCc .vintr then .signal SIGINT
  else if t.isIsig ∧ byte = t.cCc .vquit then .signal SIGQUIT
  else if t.isIsig ∧ byte = t.cCc .vsusp then .signal SIGTSTP
  else if t.cIflag &&& IXON ≠ 0 ∧ byte = t.cCc .vstop then .xoff
  else if t.cIflag &&& IXON ≠ 0 ∧ byte = t.cCc .vstart then .xon
  else
    let byte := if t.isIcrnl ∧ byte = 13 then 10 else byte
    if t.isCanonical then
      if byte = t.cCc .veof then .lineReady
      else if byte = t.cCc .verase ∨ byte = 8 then .erase
      else if byte = t.cCc .vkill then .kill
      else if byte = t.cCc .vwerase then .werasWord
      else .append byte
    else .append byte

structure PtyInner where
  termios : Termios
  masterReadBuf : List UInt8
  slaveReadBuf : List UInt8
  lineBuf : List UInt8
  canonQueue : List (List UInt8)
  xoffActive : Bool

def Termios.ends (t : Termios) (b : UInt8) : Bool := b = 10 ∨ b = t.cCc .veol ∨ b = t.cCc .veol2

namespace PtyInner

def new (t : Termios) : PtyInner := ⟨t, [], [], [], [], false⟩

def echo (p : PtyInner) (bytes : List UInt8) : PtyInner :=
  { p with masterReadBuf := p.masterReadBuf ++ if p.termios.isEcho then bytes else [] }

/-- The line is cut to `line`, and the bytes that go are rubbed out. -/
def rubOut (p : PtyInner) (line : List UInt8) : PtyInner :=
  if p.termios.isCanonical then
    { p with lineBuf := line }.echo (List.replicate (p.lineBuf.length - line.length) [8, 32, 8]).flatten
  else p

def dispatchInputAction (p : PtyInner) : LdiscAction → PtyInner
  | .append b =>
    if p.termios.isCanonical then
      if p.lineBuf.length < MAX_CANON then
        let q := { p with lineBuf := p.lineBuf ++ [b] }.echo [b]
        if p.termios.ends b then { q with lineBuf := [], canonQueue := p.canonQueue ++ [p.lineBuf ++ [b]] } else q
      else p
    else { p with slaveReadBuf := p.slaveReadBuf ++ [b] }.echo [b]
  | .lineReady => { p with lineBuf := [], canonQueue := p.canonQueue ++ [p.lineBuf] }
  | .erase => p.rubOut p.lineBuf.dropLast
  | .kill => p.rubOut []
  | .werasWord => p.rubOut (p.lineBuf.rdropWhile (· ≠ 32))
  | .signal _ | .discard => p
  | .xoff => { p with xoffActive := true }
  | .xon => { p with xoffActive := false }

/-- One byte of `master_write`. -/
def input (p : PtyInner) (byte : UInt8) : PtyInner := p.dispatchInputAction (processInput p.termios byte)

def slaveRead (p : PtyInner) (n : Nat) : List UInt8 × PtyInner :=
  if p.termios.isCanonical then
    match p.canonQueue with
    | line :: rest => (line.take n, { p with canonQueue := rest })
    | [] => ([], p)
  else if p.slaveReadBuf.length < max (p.termios.cCc .vmin).toNat 1 then ([], p)
  else (p.slaveReadBuf.take n, { p with slaveReadBuf := p.slaveReadBuf.drop n })

end PtyInner

/-- A terminal in use. No step reads `typed`, the bytes typed so far with the settings of the time, and `got`, what reads
    returned. -/
structure Session where
  pty : PtyInner
  typed : List (Termios × UInt8)
  got : List UInt8

inductive Event where
  | input (byte : UInt8)
  | read (n : Nat)
  | setTermios (t : Termios)

def Session.start (t : Termios) : Session := ⟨.new t, [], []⟩

def Session.step (s : Session) : Event → Session
  | .input byte => { s with pty := s.pty.input byte, typed := s.typed ++ [(s.pty.termios, byte)] }
  | .read n => { s with pty := (s.pty.slaveRead n).2, got := s.got ++ (s.pty.slaveRead n).1 }
  | .setTermios t => { s with pty := { s.pty with termios := t } }

end Moxide.Pty
