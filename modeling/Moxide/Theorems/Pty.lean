import Moxide.Lib.Reach
import Moxide.Pty

/-! What is typed on a canonical terminal is read once, as an editor of lines has it. -/

namespace Moxide.Pty
open Lib List

/-- An editor of lines without a limit: the lines that are complete, and the one that is typed. -/
structure Editor where
  lines : List (List UInt8)
  line : List UInt8
deriving DecidableEq

def Editor.type (e : Editor) (k : Termios × UInt8) : Editor :=
  match processInput k.1 k.2 with
  | .append b => if k.1.ends b then ⟨e.lines ++ [e.line ++ [b]], []⟩ else ⟨e.lines, e.line ++ [b]⟩
  | .lineReady => ⟨e.lines ++ [e.line], []⟩
  | .erase => ⟨e.lines, e.line.dropLast⟩
  | .kill => ⟨e.lines, []⟩
  | .werasWord => ⟨e.lines, e.line.rdropWhile (· ≠ 32)⟩
  | .signal _ | .xon | .xoff | .discard => e

def Session.edited (s : Session) : Editor := s.typed.foldl Editor.type ⟨[], []⟩

/-- The settings stay canonical, and there is room for each byte in the line and for each line in the buffer of the
    reader. -/
def Session.fits (s : Session) : Event → Bool
  | .setTermios t => t.isCanonical
  | .input byte =>
    match processInput s.pty.termios byte with
    | .append _ => s.pty.lineBuf.length < MAX_CANON
    | _ => true
  | .read n => s.pty.canonQueue.head?.all (·.length ≤ n)

structure Inv (s : Session) : Prop where
  canonical : s.pty.termios.isCanonical = true
  line : s.pty.lineBuf = s.edited.line
  lines : s.got ++ s.pty.canonQueue.flatten = s.edited.lines.flatten

section
variable {s : Session}

theorem input_edits {p : PtyInner} {byte : UInt8} (hc : p.termios.isCanonical)
    (hroom : ∀ b, processInput p.termios byte = .append b → p.lineBuf.length < MAX_CANON) (done : List (List UInt8)) :
    (p.input byte).termios = p.termios ∧
      ∃ more, (p.input byte).canonQueue = p.canonQueue ++ more ∧
        (Editor.type ⟨done, p.lineBuf⟩ (p.termios, byte)) = ⟨done ++ more, (p.input byte).lineBuf⟩ := by
  unfold PtyInner.input Editor.type
  cases h : processInput p.termios byte with
  | append b =>
    simp only [PtyInner.dispatchInputAction, hc, if_true, hroom b h]
    split
    · exact ⟨rfl, [p.lineBuf ++ [b]], rfl, rfl⟩
    · exact ⟨rfl, [], (append_nil _).symm, by rw [append_nil]; rfl⟩
  | lineReady => exact ⟨rfl, [p.lineBuf], rfl, rfl⟩
  | erase | kill | werasWord =>
    simp only [PtyInner.dispatchInputAction, PtyInner.rubOut, hc, if_true]
    exact ⟨rfl, [], (append_nil _).symm, by rw [append_nil]; rfl⟩
  | signal | xon | xoff | discard => exact ⟨rfl, [], (append_nil _).symm, by rw [append_nil]; rfl⟩

theorem room_of_fits {byte b : UInt8} (h : s.fits (.input byte)) (hb : processInput s.pty.termios byte = .append b) :
    s.pty.lineBuf.length < MAX_CANON := by
  unfold Session.fits at h
  simp only [hb, decide_eq_true_eq] at h
  exact h

theorem Inv.step (h : Inv s) {e : Event} (hok : s.fits e) : Inv (s.step e) := by
  cases e with
  | input byte =>
    obtain ⟨ht, more, hqueue, hedit⟩ := input_edits h.canonical (fun _ => room_of_fits hok) s.edited.lines
    rw [h.line] at hedit
    have hedited : (s.step (.input byte)).edited = ⟨s.edited.lines ++ more, (s.pty.input byte).lineBuf⟩ := by
      rw [← hedit]
      exact foldl_append
    refine ⟨(congrArg Termios.isCanonical ht).trans h.canonical, ?_, ?_⟩
    · rw [hedited]
      rfl
    · rw [hedited]
      change s.got ++ (s.pty.input byte).canonQueue.flatten = _
      rw [hqueue, flatten_append, flatten_append, ← append_assoc, h.lines]
  | read n =>
    have hread := h.lines
    change Inv ⟨(s.pty.slaveRead n).2, s.typed, s.got ++ (s.pty.slaveRead n).1⟩
    unfold PtyInner.slaveRead
    simp only [h.canonical, if_true]
    cases hq : s.pty.canonQueue with
    | nil =>
      refine ⟨h.canonical, h.line, ?_⟩
      rw [append_nil]
      exact hread
    | cons line rest =>
      have hlen : line.length ≤ n := by
        unfold Session.fits at hok
        simpa [hq] using hok
      refine ⟨h.canonical, h.line, ?_⟩
      dsimp only
      rw [take_of_length_le hlen]
      rw [hq, flatten_cons, ← append_assoc] at hread
      exact hread
  | setTermios t => exact ⟨hok, h.line, h.lines⟩

/-- If every byte and every line finds room, reads return the completed lines in order, what has not been read is queued, and
    a newline completes the line before it. -/
theorem canonical_input {t : Termios} (ht : t.isCanonical = true)
    (h : Reach (fun s e u => Session.step s e = u) (fun s e => s.fits e = true) (.start t) s) :
    s.got <+: s.edited.lines.flatten ∧ s.got ++ s.pty.canonQueue.flatten = s.edited.lines.flatten ∧
      ∀ byte, processInput s.pty.termios byte = .append 10 → s.fits (.input byte) = true →
        (s.step (.input byte)).pty.canonQueue = s.pty.canonQueue ++ [s.pty.lineBuf ++ [10]] := by
  have hinv : Inv s := h.invariant (I := Inv) ⟨ht, rfl, rfl⟩ fun s e u h hok (hs : s.step e = u) => hs ▸ h.step hok
  refine ⟨⟨_, hinv.lines⟩, hinv.lines, fun byte hbyte hroom => ?_⟩
  change (s.pty.dispatchInputAction (processInput s.pty.termios byte)).canonQueue = _
  rw [hbyte]
  simp only [PtyInner.dispatchInputAction, hinv.canonical, if_true, room_of_fits hroom hbyte]
  rfl

end

/-- What the input side reads of the settings that a terminal starts with. -/
def cooked : Termios :=
  ⟨ICRNL ||| IXON, ISIG ||| ICANON ||| ECHO, fun
    | .vintr => 3 | .vquit => 28 | .verase => 127 | .vkill => 21 | .veof => 4 | .vmin => 1 | .vstart => 17 | .vstop => 19
    | .vsusp => 26 | .vwerase | .veol | .veol2 => 0⟩

/-- A line is typed with a correction, and read with a buffer of `n` bytes. -/
def readLine (n : Nat) : List Event := [.input 104, .input 111, .input 127, .input 105, .input 13, .read n]

theorem canonical_input_readLine : ∃ s : Session, s = (readLine 8).foldl Session.step (.start cooked) ∧
    s.got = [104, 105, 10] ∧ s.got <+: s.edited.lines.flatten := by
  refine ⟨_, rfl, by decide, (canonical_input (t := cooked) (by decide) ?_).1⟩
  exact .step (.read 8)
    (.step (.input 13) (.step (.input 105) (.step (.input 127) (.step (.input 111) (.step (.input 104) .start
    (by decide) rfl) (by decide) rfl) (by decide) rfl) (by decide) rfl) (by decide) rfl) (by decide) rfl

/-- A read of one byte takes the whole line off the queue. -/
theorem short_read_drops : ((readLine 1).foldl Session.step (.start cooked)).got = [104] ∧
    ((readLine 1).foldl Session.step (.start cooked)).pty.canonQueue = [] ∧
    ((readLine 1).foldl Session.step (.start cooked)).edited.lines.flatten = [104, 105, 10] := by
  decide

end Moxide.Pty
