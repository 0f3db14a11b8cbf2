import Libks.Base.Memory
import Libks.Base.Outcome
import Libks.Base.Printf
import Libks.Base.Word
import Libks.Fault

/-!
# Log lines

`ks_log_format_output` prints a line of the log into a buffer of the caller: a prefix,
the parts of which are switched on and off by flags, and the message. Every part is
printed with `snprintf` behind the ones before, and the length goes on as if there had
been room for it. What is checked is where the bytes go: a write behind the buffer ends
in a fault, and so does an `int` that overflows.

The clock and the number of the thread are up to the system, and the message has been
formatted, if there was memory for it.
-/

namespace Libks

open Base

/-- A C string: bytes without a NUL. -/
abbrev CStr := {s : List UInt8 // 0 ∉ s}

/-- The flags of `ks_log_prefix_t`. -/
structure LogPrefix where
  level : Bool
  file : Bool
  line : Bool
  func : Bool
  thread : Bool
  date : Bool
  time : Bool
  deriving DecidableEq, Repr

/-- `LEVEL_NAMES`. -/
def levelNames : Vector (List UInt8) 8 := #v[
  ascii "EMERG", ascii "ALERT", ascii "CRIT", ascii "ERROR", ascii "WARN", ascii "NOTICE",
  ascii "INFO", ascii "DEBUG"]

/-- The state of the log, and what the system says: `strftime`, with less than 100 bytes,
    and the number of the thread. -/
structure KsLog where
  logPrefix : LogPrefix
  wakeupStdoutFails : UInt64
  wakeupStdoutSuccesses : UInt64
  date : {s : CStr // s.1.length < 100}
  time : {s : CStr // s.1.length < 100}
  threadId : UInt32

/-- The arguments of a call, with the string that `ks_vasprintf` makes of the message. -/
structure LogLine where
  file : CStr
  func : CStr
  line : Int32
  level : Fin 8
  data : Option CStr

/-- `isprint`, in the C locale. -/
def isPrint (c : UInt8) : Bool := 32 ≤ c ∧ c ≤ 126

/-- `ks_log_sanitize_string`. -/
def ksLogSanitizeString (str : List UInt8) : List UInt8 :=
  str.map fun c => if c = 10 ∨ c = 9 then c else if isPrint c then c else 46

/-- The part of `cut_path` that cuts behind the last `delim`, where `ret` is what has been
    found so far. -/
def cutBehind (delim : UInt8) (ret : List UInt8) : List UInt8 → List UInt8
  | [] => ret
  | c :: p => if c = delim then cutBehind delim p p else cutBehind delim ret p

/-- `cut_path`: a slash is looked for first, and a backslash overrides it. -/
def cutPath (str : List UInt8) : List UInt8 := cutBehind 92 (cutBehind 47 str str) str

/-! ## The buffer -/

/-- `buf`, of `size` bytes, and `used`. -/
structure LogBuf where
  data : Mem
  size : ℕ
  used : ℕ

/-- How the printing ends early: at the label `done`, or in a fault. -/
inductive LogExit
  | done (b : LogBuf)
  | fault (f : Fault)

namespace LogBuf

/-- `used += snprintf (buf + used - 1, bufSize - used, ...)`, where `text` is what is
    printed. The difference is one of `size_t`s. -/
def snprintf (b : LogBuf) (text : List UInt8) : Except LogExit LogBuf :=
  let n := sub64 b.size b.used
  let written := if n = 0 then [] else text.take (n - 1) ++ [0]
  if b.size < b.used - 1 + written.length then .error (.fault .outOfBounds)
  else if 2 ^ 31 ≤ b.used + text.length then .error (.fault .overflow)
  else .ok { b with data := b.data.write (b.used - 1) written, used := b.used + text.length }

/-- A part of the prefix, with the check behind it. -/
def put (b : LogBuf) (text : List UInt8) : Except LogExit LogBuf := do
  let b ← b.snprintf text
  if b.size ≤ b.used then .error (.done b) else .ok b

/-- Parts in a row. -/
def putAll (b : LogBuf) (texts : List (List UInt8)) : Except LogExit LogBuf := texts.foldlM put b

/-- A single byte is stored. -/
def store (b : LogBuf) (off : ℕ) (c : UInt8) : Except Fault LogBuf :=
  if off < b.size then .ok { b with data := b.data.write off [c] } else .error .outOfBounds

/-- What has gone beyond the buffer is cut off, with room for a newline. -/
def cap (b : LogBuf) : Except Fault LogBuf :=
  if b.size - 1 ≤ b.used then LogBuf.store { b with used := b.size - 1 } (b.size - 2) 0
  else .ok b

/-- A newline is put at the end, if there is none. -/
def newline (b : LogBuf) : Except Fault LogBuf :=
  if 2 ≤ b.used ∧ b.data (b.used - 2) ≠ 10 then do
    let b ← b.store (b.used - 1) 10
    let b ← b.store b.used 0
    if 2 ^ 31 ≤ b.used + 1 then .error .overflow else .ok { b with used := b.used + 1 }
  else .ok b

/-- What follows the label `done`. -/
def finish (b : LogBuf) : Except Fault LogBuf := do
  let b ← b.cap
  b.newline

/-- The label `done` is come to in either way. -/
def settle : Except LogExit LogBuf → Except Fault LogBuf
  | .ok b => b.finish
  | .error (.done b) => b.finish
  | .error (.fault f) => .error f

end LogBuf

/-! ## The parts of a line -/

namespace KsLog

variable (l : KsLog) (x : LogLine)

/-- `[LF:%zu] ` and `[LS:%zu] `. -/
def counterText (name : String) (n : UInt64) : List UInt8 :=
  ascii name ++ formatNat n.toNat ++ ascii "] "

/-- `%8s ` of `[%s]`. -/
def levelText : List UInt8 := padLeft 8 (91 :: levelNames.get x.level ++ [93]) ++ [32]

/-- `#%8.8X `. -/
def threadText : List UInt8 := 35 :: formatHex 8 l.threadId.toNat ++ [32]

/-- `%32.32s`. -/
def fileText : List UInt8 := padLeft 32 ((cutPath x.file.1).take 32)

/-- `:%-5d`. -/
def lineText : List UInt8 := 58 :: padRight 5 (formatInt x.line.toInt)

/-- `%-48.48s `. -/
def funcText : List UInt8 := padRight 48 (x.func.1.take 48) ++ [32]

/-- The parts in front of the file. -/
def front : List (List UInt8) :=
  (if 0 < l.wakeupStdoutFails then [counterText "[LF:" l.wakeupStdoutFails] else []) ++
  (if 0 < l.wakeupStdoutSuccesses then [counterText "[LS:" l.wakeupStdoutSuccesses] else []) ++
  (if l.logPrefix.level then [levelText x] else []) ++
  (if l.logPrefix.date then [l.date.1.1 ++ [32]] else []) ++
  (if l.logPrefix.time then [l.time.1.1 ++ [32]] else []) ++
  (if l.logPrefix.thread then [l.threadText] else [])

/-- The parts behind the name of the file. -/
def behindFile : List (List UInt8) := (if l.logPrefix.line then [lineText x] else []) ++ [[32]]

/-- The name of the file. There is no check behind it. -/
def printFile (b : LogBuf) : Except LogExit LogBuf :=
  if l.logPrefix.file then do
    let b ← b.snprintf (fileText x)
    b.putAll (l.behindFile x)
  else .ok b

/-- What is printed in front of the label `done`. -/
def print (data : List UInt8) (b : LogBuf) : Except LogExit LogBuf := do
  let b ← b.putAll (l.front x)
  let b ← l.printFile x b
  let b ← b.putAll (if l.logPrefix.func then [funcText x] else [])
  b.snprintf data

/-- `ks_log_format_output`, into a block of `bufSize` bytes: what it returns, and the
    buffer. A message without memory for it is a null pointer, which is read. -/
def formatOutput (data : Mem) (bufSize : ℕ) : Except Fault (ℕ × LogBuf) :=
  match x.data with
  | none => .error .outOfBounds
  | some message => do
    let message := ksLogSanitizeString message.1
    let b ← LogBuf.store { data, size := bufSize, used := 1 } 0 0
    let b ← LogBuf.settle (l.print x message b)
    return (b.used - 1, b)

end KsLog

end Libks
