import MutekH.Lib.Fifo
import Mathlib.Algebra.Ring.Nat
import Mathlib.Algebra.Ring.Int.Defs

/-!
The streams of the C library. A stream has a buffer for each direction, a position,
and the function that empties the buffer in use. Its device is behind `fileops_s`:
functions that transfer at most what they are asked to and may fail. The loops of the
source run as long as the device does not say otherwise, so they take a number of
rounds and give `none` if they are still running then.
-/
namespace MutekStdio
open LibFifo

/-- The widths of `int_fast8_t` and `size_t`; `CONFIG_LIBC_STREAM_BUFFER_SIZE` is the size of a
    ring, a power of two. -/
structure Build where
  errorBits : Nat
  sizeBits : Nat
  bufferBits : Nat
  errorWide : 8 ≤ errorBits
  sizeWide : 16 ≤ sizeBits
  bufferFits : bufferBits < sizeBits

inductive Whence where
  | SEEK_SET
  | SEEK_END
  | SEEK_CUR
  deriving DecidableEq

inductive BufMode where
  | IONBF
  | IOLBF
  | IOFBF
  deriving DecidableEq

inductive Flush where
  | no
  | write
  | read
  deriving DecidableEq

/-- `struct fileops_s`, with `none` for a null pointer. A transfer gives its result and, to read,
    the bytes that were stored. -/
structure FileOps (D : Type) where
  read : Option (D → Nat → Int × List UInt8 × D)
  write : Option (D → List UInt8 → Int × D)
  lseek : Option (D → Nat → Whence → Int × D)

def EINVAL : Int := 5

def EOF : Int := -1

def newline : UInt8 := 10

section
variable (cfg : Build) {D : Type}

def bufferSize : Nat := 2 ^ cfg.bufferBits

/- Conversions to `error_t`, `size_t`, `ssize_t` and `fpos_t`. -/

def toError (x : Int) : Int := x.bmod (2 ^ cfg.errorBits)

def toSize (x : Int) : Nat := (x % 2 ^ cfg.sizeBits).toNat

def toSsize (x : Nat) : Int := (x : Int).bmod (2 ^ cfg.sizeBits)

def toPos (x : Int) : Int := x.bmod (2 ^ 32)

structure File (D : Type) where
  hndl : D
  rwflush : Flush
  fifo_read : Fifo UInt8 (bufferSize cfg)
  fifo_write : Fifo UInt8 (bufferSize cfg)
  pos : Int
  buf_mode : BufMode
  eof : Bool
  error : Bool

variable {cfg}

/-- Writes while more than `limit` bytes are left. The result is 0 or that of the write that failed,
    with the bytes that are left. -/
def writeWhile (write : D → List UInt8 → Int × D) (moves : Bool) (limit : Nat) :
    Nat → File cfg D → List UInt8 → Option (Int × List UInt8 × File cfg D)
  | 0, _, _ => none
  | fuel + 1, stream, bytes =>
      if bytes.length ≤ limit then some (0, bytes, stream)
      else
        let (res, hndl) := write stream.hndl bytes
        if res < 0 then some (res, bytes, { stream with hndl := hndl, error := true })
        else
          let pos := if moves then toPos (stream.pos + res) else stream.pos
          writeWhile write moves limit fuel { stream with hndl := hndl, pos := pos }
            (bytes.drop res.toNat)

def stdio_write_flush (write : D → List UInt8 → Int × D) (fuel : Nat) (stream : File cfg D) :
    Option (Int × File cfg D) :=
  let (bytes, fifo) := stream.fifo_write.popArray (bufferSize cfg)
  (writeWhile write false 0 fuel { stream with fifo_write := fifo } bytes).map
    fun (res, rest, stream) =>
    if res < 0 then
      (toError cfg res, { stream with fifo_write := stream.fifo_write.pushbackArray rest })
    else (0, { stream with rwflush := .no })

def stdio_read_flush (lseek : D → Nat → Whence → Int × D) (stream : File cfg D) : File cfg D :=
  { stream with
    hndl := (lseek stream.hndl (toSize cfg stream.pos) .SEEK_SET).2
    fifo_read := Fifo.empty
    rwflush := .no }

def rwflush (ops : FileOps D) (fuel : Nat) (stream : File cfg D) : Option (Int × File cfg D) :=
  match stream.rwflush with
  | .no => some (0, stream)
  | .write => ops.write.bind fun write => stdio_write_flush write fuel stream
  | .read => ops.lseek.map fun lseek => (0, stdio_read_flush lseek stream)

/-- Reads of `chunk size` bytes while more than `limit` are to come. The result is 1 or that of the
    read that failed, with the bytes stored and the number that is still to come. -/
def readWhile (read : D → Nat → Int × List UInt8 × D) (clears : Bool) (limit : Nat)
    (chunk : Nat → Nat) :
    Nat → File cfg D → List UInt8 → Nat → Option (Int × List UInt8 × Nat × File cfg D)
  | 0, _, _, _ => none
  | fuel + 1, stream, data, size =>
      if size ≤ limit then some (1, data, size, stream)
      else
        let (res, bytes, hndl) := read stream.hndl (chunk size)
        if res ≤ 0 then
          let eof := stream.eof || res == 0
          let error := stream.error || res != 0
          some (res, data, size, { stream with hndl := hndl, eof := eof, error := error })
        else
          let eof := stream.eof && !clears
          readWhile read clears limit chunk fuel
            { stream with hndl := hndl, pos := toPos (stream.pos + res), eof := eof }
              (data ++ bytes)
            (size - res.toNat)

def unbuffered_read (read : D → Nat → Int × List UInt8 × D) (fuel size : Nat)
    (stream : File cfg D) :
    Option (Int × List UInt8 × File cfg D) :=
  (readWhile read false 0 id fuel stream [] size).map fun (res, data, _, stream) =>
    (toError cfg res, data, stream)

def fillLocal (read : D → Nat → Int × List UInt8 × D) (size : Nat) :
    Nat → File cfg D → List UInt8 → Option (Int × List UInt8 × File cfg D)
  | 0, _, _ => none
  | fuel + 1, stream, content =>
      if content.length < size then
        let (res, bytes, hndl) := read stream.hndl (bufferSize cfg - content.length)
        if res < 0 then some (res, content, { stream with hndl := hndl, error := true })
        else if res = 0 then some (0, content, { stream with hndl := hndl })
        else fillLocal read size fuel { stream with hndl := hndl } (content ++ bytes)
      else some (0, content, stream)

/-- What comes after the direct reads: the last `size` bytes go through the local buffer, and what
    was read beyond them to `fifo_read`. -/
def readTail (read : D → Nat → Int × List UInt8 × D) (fuel : Nat) (stream : File cfg D)
    (data : List UInt8) (size : Nat) : Option (Int × List UInt8 × File cfg D) :=
  (fillLocal read size fuel stream []).map fun (res, content, stream) =>
    if res < 0 then (toError cfg res, data, stream)
    else
      let stream := { stream with pos := toPos (stream.pos + size) }
      if size ≤ content.length then
        if size < content.length then
          (1, data ++ content.take size,
            { stream with
              fifo_read := stream.fifo_read.pushbackArray (content.drop size)
              rwflush := .read })
        else (1, data ++ content.take size, stream)
      else (0, data ++ content, { stream with eof := true })

def stdio_read (ops : FileOps D) (fuel size : Nat) (stream : File cfg D) :
    Option (Int × List UInt8 × File cfg D) :=
  match ops.read with
  | none => some (-EINVAL, [], stream)
  | some read =>
    match stream.buf_mode with
    | .IONBF | .IOLBF => unbuffered_read read fuel size stream
    | .IOFBF =>
      let (data, fifo) := stream.fifo_read.popArray size
      let size := size - data.length
      let stream := { stream with fifo_read := fifo, pos := toPos (stream.pos + data.length) }
      if size = 0 then readTail read fuel stream data 0
      else
        -- whole multiples of the buffer size are read in place
        (readWhile read true (bufferSize cfg) (fun n => n / bufferSize cfg * bufferSize cfg) fuel
          { stream with rwflush := .no } data size).bind fun (res, data, size, stream) =>
            if res ≤ 0 then some (toError cfg res, data, stream)
            else readTail read fuel stream data size

def unbuffered_write (write : D → List UInt8 → Int × D) (fuel : Nat) (stream : File cfg D)
    (bytes : List UInt8) : Option (Int × File cfg D) :=
  (writeWhile write true 0 fuel stream bytes).map fun (res, _, stream) => (toError cfg res, stream)

/-- The end of the last line among the first `i` bytes. -/
def lineEnd (bytes : List UInt8) : Nat → Option Nat
  | 0 => none
  | i + 1 => if bytes[i]? = some newline then some (i + 1) else lineEnd bytes i

def writeBlock (write : D → List UInt8 → Int × D) (fuel : Nat) (stream : File cfg D)
    (bytes : List UInt8) : Option (Int × File cfg D) :=
  let fill := fun (bytes : List UInt8) (stream : File cfg D) =>
    (0, { stream with
      fifo_write := stream.fifo_write.pushbackArray bytes
      pos := toPos (stream.pos + bytes.length)
      rwflush := Flush.write })
  if bufferSize cfg < toSize cfg (stream.fifo_write.count + bytes.length) then
    (stdio_write_flush write fuel stream).bind fun (res, stream) =>
      if res ≠ 0 then some (res, stream)
      else
        (writeWhile write true (bufferSize cfg) fuel stream bytes).map fun (res, rest, stream) =>
          if res < 0 then (toError cfg res, stream) else fill rest stream
  else some (fill bytes stream)

def writeLines (write : D → List UInt8 → Int × D) (fuel : Nat) (stream : File cfg D)
    (bytes : List UInt8) (i : Nat) : Option (Int × File cfg D) :=
  (stdio_write_flush write fuel stream).bind fun (res, stream) =>
    if res ≠ 0 then some (res, stream)
    else
      (unbuffered_write write fuel stream (bytes.take i)).bind fun (res, stream) =>
        if res ≠ 0 then some (res, stream) else writeBlock write fuel stream (bytes.drop i)

def stdio_write (ops : FileOps D) (fuel : Nat) (stream : File cfg D) (bytes : List UInt8) :
    Option (Int × File cfg D) :=
  match ops.write with
  | none => some (-EINVAL, stream)
  | some write =>
    match stream.buf_mode with
    | .IONBF => unbuffered_write write fuel stream bytes
    | .IOLBF =>
      match lineEnd bytes (toSsize cfg bytes.length).toNat with
      | none => writeBlock write fuel stream bytes
      | some i => writeLines write fuel stream bytes i
    | .IOFBF => writeBlock write fuel stream bytes

def fflush (ops : FileOps D) (fuel : Nat) (stream : File cfg D) : Option (Int × File cfg D) :=
  match ops.write with
  | none => some (-EINVAL, stream)
  | some write => stdio_write_flush write fuel stream

def fread (ops : FileOps D) (fuel size : Nat) : Nat → File cfg D →
    Option (Nat × List UInt8 × File cfg D)
  | 0, stream => some (0, [], stream)
  | nmemb + 1, stream =>
    (stdio_read ops fuel size stream).bind fun (res, data, stream) =>
      if res ≤ 0 then some (0, data, stream)
      else
        (fread ops fuel size nmemb stream).map fun (i, more, stream) =>
          (i + 1, data ++ more, stream)

def fwrite (ops : FileOps D) (fuel : Nat) : List (List UInt8) → File cfg D →
    Option (Nat × File cfg D)
  | [], stream => some (0, stream)
  | bytes :: members, stream =>
    (stdio_write ops fuel stream bytes).bind fun (res, stream) =>
      if res ≠ 0 then some (0, stream)
      else (fwrite ops fuel members stream).map fun (i, stream) => (i + 1, stream)

def fseek (ops : FileOps D) (fuel : Nat) (stream : File cfg D) (offset : Int) (whence : Whence) :
    Option (Int × File cfg D) :=
  match ops.lseek with
  | none => some (EOF, stream)
  | some lseek =>
    (rwflush ops fuel stream).map fun (_, stream) =>
      let (pos, hndl) := lseek stream.hndl (toSize cfg offset) whence
      let stream := { stream with hndl := hndl, pos := toPos (toError cfg pos) }
      (if 0 ≤ stream.pos then 0 else EOF, stream)

def fgetc (ops : FileOps D) (fuel : Nat) (stream : File cfg D) : Option (Int × File cfg D) :=
  (stdio_read ops fuel 1 stream).map fun (res, data, stream) =>
    (if res ≤ 0 then EOF else (data.headD 0).toNat, stream)

def ungetc (c : Int) (stream : File cfg D) : Int × File cfg D :=
  let (done, fifo) := stream.fifo_read.push (UInt8.ofNat (c % 256).toNat)
  (if done then c else EOF, { stream with fifo_read := fifo })

/-- The loop of `fgets` with `size - 1` bytes to go. The result is `none` for an error, or the bytes
    read. -/
def fgetsLoop (ops : FileOps D) (fuel : Nat) :
    Nat → File cfg D → List UInt8 → Option (Option (List UInt8) × File cfg D)
  | 0, stream, str => some (some str, stream)
  | n + 1, stream, str =>
    (stdio_read ops fuel 1 stream).bind fun (res, data, stream) =>
      if res = 0 then some (some str, stream)
      else if res < 0 then some (none, stream)
      else if data.headD 0 = newline then some (some (str ++ data), stream)
      else fgetsLoop ops fuel n stream (str ++ data)

def fgets (ops : FileOps D) (fuel size : Nat) (stream : File cfg D) :
    Option (Option (List UInt8) × File cfg D) :=
  (fgetsLoop ops fuel (size - 1) stream []).map fun (str, stream) =>
    (if str = some [] then none else str, stream)

def fputc (ops : FileOps D) (fuel : Nat) (c : UInt8) (stream : File cfg D) :
    Option (Int × File cfg D) :=
  (stdio_write ops fuel stream [c]).map fun (res, stream) =>
    (if res ≠ 0 then EOF else c.toNat, stream)

variable (cfg) in
def stdio_stream_init (hndl : D) : File cfg D :=
  ⟨hndl, .no, Fifo.empty, Fifo.empty, 0, .IONBF, false, false⟩

end
end MutekStdio
