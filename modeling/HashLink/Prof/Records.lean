import HashLink.Lib.LittleEndian

/-!
The records of the profiler, which the writers of `prof.c` put into a chunk. A record is one or more words, little
endian, and a name, a payload or stack frames, padded to a multiple of eight bytes that nothing clears.
-/

namespace HashLink.Prof

open LittleEndian

/-- `HL_PROF_CHUNK_SIZE`. -/
def chunkSize : Nat := 256 * 1024

/-- `PAD8` and `PAD8_64`. -/
def pad8 (n : Nat) : Nat := (n + 7) / 8 * 8

/-- `HL_PROF_UTF16`. -/
def utf16 : UInt32 := 0

def eventDroppedCalls : Nat := 0x484C0009

/-- The name of a span or a counter: `units` units in an encoding, in these bytes. -/
structure RecordName where
  units : Nat
  encoding : UInt32
  bytes : List UInt8
  deriving DecidableEq, Repr

inductive RecordBody
  | enter (key : UInt64)
  | exit
  | unwind (skipped : UInt64)
  | spanBegin (name : RecordName)
  | spanEnd
  | frameMark (frameSet : UInt32)
  | frameIdle (frameSet : UInt32)
  | event (id : UInt32) (payload : List UInt8)
  | counter (value : UInt64) (name : RecordName)
  | sample (tid : UInt32) (flags : UInt8) (frames : List UInt64)
  | stall (ended : Nat)
  deriving DecidableEq, Repr

/-- A record with its time, in ticks since the session's base tick. -/
structure ProfRecord where
  ticks : Nat
  body : RecordBody
  deriving DecidableEq, Repr

/-- `HL_PROF_*`. -/
def RecordBody.kind : RecordBody → Nat
  | .enter _ => 0x01
  | .exit => 0x02
  | .unwind _ => 0x03
  | .spanBegin _ => 0x10
  | .spanEnd => 0x11
  | .frameMark _ => 0x12
  | .frameIdle _ => 0x13
  | .event _ _ => 0x20
  | .counter _ _ => 0x21
  | .sample _ _ _ => 0x22
  | .stall _ => 0x30

def RecordName.word (n : RecordName) : Nat := n.units + 2 ^ 32 * n.encoding.toNat

/-- What follows the first word. The parts of a word share no bits, so that or-ing them adds them. -/
def RecordBody.bytes : RecordBody → List UInt8
  | .enter key => LittleEndian.bytes 8 key.toNat
  | .exit => []
  | .unwind skipped => LittleEndian.bytes 8 skipped.toNat
  | .spanBegin name => LittleEndian.bytes 8 name.word ++ name.bytes
  | .spanEnd => []
  | .frameMark frameSet => LittleEndian.bytes 8 frameSet.toNat
  | .frameIdle frameSet => LittleEndian.bytes 8 frameSet.toNat
  | .event id payload => LittleEndian.bytes 8 (id.toNat + 2 ^ 32 * payload.length) ++ payload
  | .counter value name =>
    LittleEndian.bytes 8 value.toNat ++ LittleEndian.bytes 8 name.word ++ name.bytes
  | .sample tid flags frames =>
    LittleEndian.bytes 8 (tid.toNat + 2 ^ 32 * (frames.length + 2 ^ 16 * flags.toNat)) ++
      frames.flatMap fun frame => LittleEndian.bytes 8 frame.toNat
  | .stall ended => LittleEndian.bytes 8 ended

def ProfRecord.bytes (r : ProfRecord) : List UInt8 :=
  LittleEndian.bytes 8 (r.ticks + 2 ^ 56 * r.body.kind) ++ r.body.bytes

def ProfRecord.size (r : ProfRecord) : Nat := pad8 r.bytes.length

variable {ticks : Nat}

theorem le_pad8 (n : Nat) : n ≤ pad8 n := by
  unfold pad8
  omega

theorem pad8_add (k n : Nat) : pad8 (8 * k + n) = 8 * k + pad8 n := by
  unfold pad8
  omega

theorem size_eq (r : ProfRecord) : r.size = 8 + pad8 r.body.bytes.length := by
  rw [ProfRecord.size, ProfRecord.bytes, List.length_append, LittleEndian.length_bytes]
  exact pad8_add 1 _

theorem size_one {body : RecordBody} (hbody : body.bytes = []) : (⟨ticks, body⟩ : ProfRecord).size = 8 := by
  rw [size_eq, hbody]
  decide

theorem size_two {body : RecordBody} {v : Nat} (hbody : body.bytes = LittleEndian.bytes 8 v) :
    (⟨ticks, body⟩ : ProfRecord).size = 16 := by
  rw [size_eq, hbody, LittleEndian.length_bytes]
  decide

theorem length_frames (frames : List UInt64) :
    (frames.flatMap fun frame => LittleEndian.bytes 8 frame.toNat).length = frames.length * 8 := by
  induction frames with
  | nil => rfl
  | cons frame frames ih =>
    rw [List.flatMap_cons, List.length_append, ih, LittleEndian.length_bytes, List.length_cons]
    omega

end HashLink.Prof
