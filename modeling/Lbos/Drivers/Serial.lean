import Lbos.Arch.Pic
import Lbos.Lib.SwapEnds
import Lbos.Vsnprintf

/-! The serial driver of `drivers/serial.c`: how it waits for the line, sends bytes, and prints
numbers.  What each port gives when it is read is fixed beforehand, for each number of a reading, so
that the results hold for every behaviour of the device. -/

namespace Lbos

open Lib

/-- The serial ports: what the reading with a number gives, the readings made so far, and the bytes
written. -/
structure Serial where
  input : BitVec 16 → Nat → Byte
  readings : Nat
  ports : Ports

def inb (port : BitVec 16) (s : Serial) : Byte × Serial :=
  (s.input port s.readings, { s with readings := s.readings + 1 })

def Serial.outb (port : BitVec 16) (data : Byte) (s : Serial) : Serial :=
  { s with ports := Lbos.outb port data s.ports }

def serialCom1Base : BitVec 16 := 0x3F8

def serialMaxWaitAttempts : Nat := 1000

def serialDataPort (base : BitVec 16) : BitVec 16 := base

def serialLineStatusPort (base : BitVec 16) : BitVec 16 := base + 5

def serialIsTransmitFifoEmpty (com : BitVec 16) (s : Serial) : Byte × Serial :=
  let (status, s) := inb (serialLineStatusPort com) s
  (status &&& 0x20, s)

/-- `while (serial_is_transmit_fifo_empty(com) == 0)` with the attempts that are left: whether the
loop ended because the FIFO was empty. -/
def serialWait (com : BitVec 16) : Nat → Serial → Bool × Serial
  | 0, s => (false, s)
  | attempts + 1, s =>
    let (empty, s) := serialIsTransmitFifoEmpty com s
    if empty = 0 then serialWait com attempts s else (true, s)

def serialWriteByte (com : BitVec 16) (byte : Byte) (s : Serial) : Int × Serial :=
  let (ready, s) := serialWait com serialMaxWaitAttempts s
  if ready then (0, s.outb (serialDataPort com) byte) else (-1, s)

/-- The loop of `serial_write` from `str[i]` on, for `left` bytes: the `i` that it returns early. -/
def serialWriteLoop : List Byte → Nat → Int → Serial → Option (Option Int × Serial)
  | _, 0, _, s => some (none, s)
  | [], _ + 1, _, _ => none
  | c :: str, left + 1, i, s =>
    let (result, s) := serialWriteByte serialCom1Base c s
    if result < 0 then some (some i, s) else serialWriteLoop str left (i + 1) s

/-- `serial_write` with its `len` settled: the loop, and a last wait. -/
def serialWriteBytes (str : List Byte) (len : Word) (s : Serial) : Option (Int × Serial) :=
  match serialWriteLoop str len.toInt.toNat 0 s with
  | none => none
  | some (some i, s) => some (i, s)
  | some (none, s) => some (len.toInt, (serialWait serialCom1Base serialMaxWaitAttempts s).2)

/-- The result is nothing where a byte behind the end of `str` is read; `NULL` is no string. -/
def serialWrite (str : Option (List Byte)) (len : Word) (s : Serial) : Option (Int × Serial) :=
  match str with
  | none => some (0, s)
  | some str =>
    if len.toInt ≤ 0 then (strlen str).bind fun n => serialWriteBytes str (BitVec.ofNat 32 n) s
    else serialWriteBytes str len s

/-- `hex_chars`. -/
def hexChars : List Byte :=
  ['0', '1', '2', '3', '4', '5', '6', '7', '8', '9', 'A', 'B', 'C', 'D', 'E', 'F'].map charByte

/-- What `num_to_hex` leaves in its buffer. -/
def numToHex (num : Word) : List Byte :=
  ((List.range 8).reverse.map fun i => hexChars.getD ((num >>> (i * 4)) &&& 0xF).toNat 0) ++ [0]

def serialWriteHex (num : Word) (s : Serial) : Option (Int × Serial) :=
  serialWrite (some (numToHex num)) 8 s

/-- The digit loop of `num_to_decimal`, with the room left in `buf`. -/
def decimalDigits : Nat → Word → List Byte → Except Fault (List Byte)
  | 0, num, buf => if 0 < num.toInt then .error .buffer else .ok buf
  | room + 1, num, buf =>
    if 0 < num.toInt then
      decimalDigits room (num.sdiv 10) (buf ++ [charByte '0' + (num.srem 10).setWidth 8])
    else .ok buf

/-- The digits of a number that is not negative, last first. -/
def magnitudeDigits (num : Word) : Except Fault (List Byte) :=
  if num = 0 then store 12 [] (charByte '0') else decimalDigits 12 num []

/-- What `num_to_decimal` stores in a buffer of 12 bytes; the negation wraps. -/
def numToDecimal (num : Word) : Except Fault (List Byte) := do
  let isNegative := num.toInt < 0
  let buf ← magnitudeDigits (if isNegative then -num else num)
  let buf ← if isNegative then store 12 buf (charByte '-') else pure buf
  store 12 (swapEnds 0 (buf.length - 1) buf) 0

/-- A fault of `num_to_decimal` is one of the call. -/
def serialWriteDecimal (num : Word) (s : Serial) : Except Fault (Option (Int × Serial)) := do
  let decBuf ← numToDecimal num
  return serialWrite (some decBuf) (-1) s

end Lbos
