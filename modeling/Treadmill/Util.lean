import Mathlib.Data.Int.Notation
import Mathlib.Logic.Function.Basic
import Treadmill.Lib.While

/-! # Reading and writing a file descriptor

`readLine`, `readBlock` and `writeBlock` of `Util.cpp`.  Each is a loop of system calls, so it
is a `While`: whether it ends is a question about what the calls return.

The system calls `read` and `write` are a parameter (`Os`).  What the callers count on is
stated about the bytes under way on the descriptor (`Accepts`, `Delivers`, `EndsWith`); a call
may move any number of bytes from one up to the number asked for.  The sizes are `int`s that
are not negative; no total of bytes moved exceeds them. -/

namespace Treadmill

/-! ### The system calls -/

/-- `read` and `write` on the file descriptor, over the states of the operating system: what a
call returns, where an error carries the text of `strerror(errno)`, and the state after it.
`read` returns the bytes that it stores, none at the end of file. -/
structure Os (ω : Type) where
  read : ω → ℕ → Except String (List UInt8) × ω
  write : ω → List UInt8 → Except String ℕ × ω
  /-- no call moves more bytes than it was asked to -/
  read_le : ∀ w n bytes, (read w n).1 = .ok bytes → bytes.length ≤ n
  write_le : ∀ w bytes n, (write w bytes).1 = .ok n → n ≤ bytes.length

variable {ω : Type}

/-- Every write moves at least one byte to the end of the stream. -/
def Accepts (os : Os ω) (contents : ω → List UInt8) : Prop :=
  ∀ w bytes, bytes ≠ [] → ∃ n w', os.write w bytes = (.ok n, w') ∧ 0 < n ∧
    contents w' = contents w ++ bytes.take n

/-- While there are bytes on the stream, every read moves at least one from its front. -/
def Delivers (os : Os ω) (contents : ω → List UInt8) : Prop :=
  ∀ w n, 0 < n → contents w ≠ [] → ∃ bytes w', os.read w n = (.ok bytes, w') ∧ bytes ≠ [] ∧
    contents w = bytes ++ contents w'

/-- What the reads return when there are no more bytes. -/
inductive Ending where
  | endOfFile
  | error (text : String)
deriving DecidableEq, Repr

/-- The result of such a read. -/
def Ending.result : Ending → Except String (List UInt8)
  | .endOfFile => .ok []
  | .error text => .error text

/-- The stream has no more bytes than its contents. -/
def EndsWith (os : Os ω) (contents : ω → List UInt8) (ending : Ending) : Prop :=
  ∀ w n, 0 < n → contents w = [] → ∃ w', os.read w n = (ending.result, w') ∧ contents w' = []

/-! ### The functions

The results are the values returned, or the lines logged before a fatal exit, the last one with
`LOG(FATAL)`. -/

/-- The memory of a buffer after `bytes` were stored at `buffer + i`. -/
def overwrite (buffer : List UInt8) (i : ℕ) (bytes : List UInt8) : List UInt8 :=
  buffer.take i ++ bytes ++ buffer.drop (i + bytes.length)

/-- The state of `readBlock`. -/
structure Reading (ω : Type) where
  buffer : List UInt8
  totalBytesRead : ℕ
  os : ω

/-- The loop of `readBlock` and what follows it. -/
def readBlock (os : Os ω) (bufferSize : ℕ) :
    While (Reading ω) (Except (List String) (List UInt8) × ω) where
  body s :=
    if s.totalBytesRead ≠ bufferSize then
      match os.read s.os (bufferSize - s.totalBytesRead) with
      | (.error sysError, w) => .inr (.error ["Read syscall failed: " ++ sysError], w)
      | (.ok bytes, w) =>
          .inl ⟨overwrite s.buffer s.totalBytesRead bytes, s.totalBytesRead + bytes.length, w⟩
    else if s.totalBytesRead < bufferSize then
      .inr (.error ["Read loop exited before all bytes were written.This should never happen"],
        s.os)
    else .inr (.ok s.buffer, s.os)

/-- `readBlock(fd, buffer, buffer_size)` ends with this result. -/
def ReadsBlock (os : Os ω) (buffer : List UInt8) (w : ω)
    (r : Except (List String) (List UInt8) × ω) : Prop :=
  (readBlock os buffer.length).Ends ⟨buffer, 0, w⟩ r

/-- The state of `writeBlock`. -/
structure Writing (ω : Type) where
  totalBytesWritten : ℕ
  os : ω

/-- The loop of `writeBlock`. -/
def writeBlock (os : Os ω) (buffer : List UInt8) :
    While (Writing ω) (Except (List String) Unit × ω) where
  body s :=
    if s.totalBytesWritten ≠ buffer.length then
      match os.write s.os (buffer.drop s.totalBytesWritten) with
      | (.error sysError, w) =>
          .inr (.error ["Attempted write size " ++ toString (buffer.length - s.totalBytesWritten),
            "Write syscall failed: " ++ sysError], w)
      | (.ok bytesWritten, w) => .inl ⟨s.totalBytesWritten + bytesWritten, w⟩
    else .inr (.ok (), s.os)

/-- `writeBlock(fd, buffer, buffer_size)` ends with this result. -/
def WritesBlock (os : Os ω) (buffer : List UInt8) (w : ω)
    (r : Except (List String) Unit × ω) : Prop :=
  (writeBlock os buffer).Ends ⟨0, w⟩ r

/-- `'\r'` -/
def cr : UInt8 := 13

/-- `'\n'` -/
def lf : UInt8 := 10

/-- Memory after `bytes` were stored at `i`. -/
def poke (memory : ℤ → UInt8) (i : ℤ) : List UInt8 → ℤ → UInt8
  | [] => memory
  | b :: bytes => poke (Function.update memory i b) (i + 1) bytes

/-- The state of `readLine`: the memory, addressed from the start of the buffer, and the
addresses that were read or written so far. -/
structure LineReading (ω : Type) where
  memory : ℤ → UInt8
  totalBytesRead : ℕ
  os : ω
  accesses : List ℤ

namespace LineReading

/-- The body of the loop: `read(fd, buffer + total_bytes_read, 1)`, whose result is not looked
at, and `total_bytes_read++`. -/
def round (os : Os ω) (s : LineReading ω) : LineReading ω :=
  let (result, w) := os.read s.os 1
  { memory :=
      match result with
      | .error _ => s.memory
      | .ok bytes => poke s.memory s.totalBytesRead bytes
    totalBytesRead := s.totalBytesRead + 1
    os := w
    accesses := s.accesses ++ [(s.totalBytesRead : ℤ)] }

/-- The condition of the loop. -/
def Continues (bufferSize : ℕ) (s : LineReading ω) : Prop :=
  s.totalBytesRead < bufferSize ∧
    (s.memory (s.totalBytesRead - 2) ≠ cr ∨ s.memory (s.totalBytesRead - 1) ≠ lf)

instance (bufferSize : ℕ) (s : LineReading ω) : Decidable (s.Continues bufferSize) :=
  inferInstanceAs (Decidable (_ ∧ _))

/-- Evaluating the condition reads the second byte only when the first one is a `'\r'`. -/
def look (bufferSize : ℕ) (s : LineReading ω) : LineReading ω :=
  { s with
    accesses := s.accesses ++
      if s.totalBytesRead < bufferSize then
        if s.memory (s.totalBytesRead - 2) ≠ cr then [(s.totalBytesRead : ℤ) - 2]
        else [(s.totalBytesRead : ℤ) - 2, (s.totalBytesRead : ℤ) - 1]
      else [] }

end LineReading

/-- The loop of `readLine`. -/
def readLine (os : Os ω) (bufferSize : ℕ) : While (LineReading ω) (LineReading ω) where
  body s :=
    let t := s.round os
    if t.Continues bufferSize then .inl (t.look bufferSize) else .inr (t.look bufferSize)

/-- `readLine(fd, buffer, buffer_size)` ends in this state and returns its
`totalBytesRead`. -/
def ReadsLine (os : Os ω) (bufferSize : ℕ) (memory : ℤ → UInt8) (w : ω) (t : LineReading ω) :
    Prop :=
  (readLine os bufferSize).Ends ⟨memory, 0, w, []⟩ t

/-! ### A descriptor that moves a few bytes at a time -/

/-- A stream whose state are its bytes and whose calls move at most `k + 1` of them. -/
def trickle (k : ℕ) (ending : Ending) : Os (List UInt8) where
  read w n :=
    if w = [] then (ending.result, w) else (.ok (w.take (min n (k + 1))), w.drop (min n (k + 1)))
  write w bytes := (.ok (bytes.take (k + 1)).length, w ++ bytes.take (k + 1))
  read_le := by
    intro w n bytes h
    split_ifs at h with hw
    · cases ending with
      | endOfFile =>
          cases h
          exact Nat.zero_le n
      | error text => cases h
    · cases h
      rw [List.length_take]
      omega
  write_le := by
    intro w bytes n h
    cases h
    rw [List.length_take]
    omega

section trickle
variable (k : ℕ) (ending : Ending)

theorem trickle_accepts : Accepts (trickle k ending) id := by
  intro w bytes hb
  refine ⟨_, _, rfl, ?_, ?_⟩
  · have := List.length_pos_iff.mpr hb
    rw [List.length_take]
    omega
  · simp

theorem trickle_delivers : Delivers (trickle k ending) id := by
  intro w n hn hw
  refine ⟨w.take (min n (k + 1)), w.drop (min n (k + 1)), if_neg hw, ?_, ?_⟩
  · have := List.length_pos_iff.mpr hw
    apply List.length_pos_iff.mp
    rw [List.length_take]
    simp only [id] at this
    omega
  · exact (List.take_append_drop _ w).symm

theorem trickle_endsWith : EndsWith (trickle k ending) id ending := by
  intro w n hn hw
  exact ⟨w, if_pos hw, hw⟩

end trickle

end Treadmill
