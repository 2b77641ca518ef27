import HashLink.Export.ReorderBuffer
import HashLink.Lib.NestedSlices
import HashLink.Prof.Records
import Mathlib.Data.List.FinRange

/-!
`decode_records`: from the records of a thread to the events of its track. Its calls, its spans and the calls that are
hidden share one stack, and what is left on the stacks is closed when the capture ends.
-/

namespace HashLink.Slices

open LittleEndian NestedSlices Prof
open Reorder (u32 u64 profileEventThreadName)

inductive Body where
  | enter (key : UInt64)
  | exit
  | unwind (skipped : UInt64)
  | spanBegin (name : RecordName)
  | spanEnd
  | frameMark (set : UInt64)
  | frameIdle (set : UInt64)
  | event (id : UInt32) (payload : List UInt8)
  | counter (value : UInt64) (name : RecordName)
  | sample (tid : UInt32) (flags frames : Nat) (stack : List UInt8)
  | stall (ended : Nat)

structure SegmentRecord where
  ticks : Nat
  body : Option Body

def tickMask (w : UInt64) : Nat := w.toNat % 2 ^ 56

def nameSize (units encoding : Nat) : Nat := pad8 (units * if encoding = 1 then 1 else 2)

def readName (p : List UInt8) (i : Nat) : RecordName :=
  ⟨u32 p i, UInt32.ofNat (u32 p (i + 4)), (p.drop (i + 8)).take (nameSize (u32 p i) (u32 p (i + 4)))⟩

def parseRecord (p : List UInt8) : Option (Body × Nat) :=
  match (u64 p 0).toNat / 2 ^ 56 with
  | 0x01 => if p.length < 16 then none else some (.enter (u64 p 8), 16)
  | 0x02 => some (.exit, 8)
  | 0x03 => if p.length < 16 then none else some (.unwind (u64 p 8), 16)
  | 0x10 =>
    if p.length < 16 ∨ p.length < 16 + nameSize (u32 p 8) (u32 p 12) then none
    else some (.spanBegin (readName p 8), 16 + nameSize (u32 p 8) (u32 p 12))
  | 0x11 => some (.spanEnd, 8)
  | 0x12 => if p.length < 16 then none else some (.frameMark (u64 p 8), 16)
  | 0x13 => if p.length < 16 then none else some (.frameIdle (u64 p 8), 16)
  | 0x20 =>
    if p.length < 16 ∨ p.length < 16 + pad8 (u32 p 12) then none
    else some (.event (UInt32.ofNat (u32 p 8)) ((p.drop 16).take (u32 p 12)), 16 + pad8 (u32 p 12))
  | 0x21 =>
    if p.length < 24 ∨ p.length < 24 + nameSize (u32 p 16) (u32 p 20) then none
    else some (.counter (u64 p 8) (readName p 16), 24 + nameSize (u32 p 16) (u32 p 20))
  | 0x22 =>
    let frames := u32 p 12 % 2 ^ 16
    if p.length < 16 ∨ p.length < 16 + frames * 8 then none
    else some (.sample (UInt32.ofNat (u32 p 8)) (u32 p 12 / 2 ^ 16 % 2 ^ 8) frames ((p.drop 16).take (frames * 8)),
      16 + frames * 8)
  | 0x30 => if p.length < 16 then none else some (.stall (tickMask (u64 p 8)), 16)
  | _ => none

def recordsLoop : Nat → List UInt8 → List SegmentRecord
  | 0, _ => []
  | fuel + 1, p =>
    if p.length < 8 then []
    else match parseRecord p with
      | none => [⟨tickMask (u64 p 0), none⟩]
      | some (body, size) => ⟨tickMask (u64 p 0), some body⟩ :: recordsLoop fuel (p.drop size)

def segmentRecords (p : List UInt8) : List SegmentRecord := recordsLoop p.length p

/-- A record that `synth` makes. Times are the bits of doubles. -/
structure Synth where
  kind : Nat
  flags : Nat
  time : UInt64
  tid : UInt32
  value : UInt32
  payload : List UInt8

def profileEventSpanBegin : UInt32 := 0x484C1001
def profileEventSpanEnd : UInt32 := 0x484C1002
def profileEventCounter : UInt32 := 0x484C1003
def exportCallBegin : UInt32 := 0x484C2001
def exportCallEnd : UInt32 := 0x484C2002
def exportStall : UInt32 := 0x484C2003
def exportFrameBegin : UInt32 := 0x484C2004
def exportFrameIdle : UInt32 := 0x484C2005

/-- `FRAME_TRACK_TID`, with the frame set. -/
def frameTrack (i : Fin 16) : UInt32 := 0x7FFFF000 + UInt32.ofNat i

/-- What has been found before: the clock, the names, the pauses and the frames' dropped calls. -/
structure Capture where
  clockSeconds : Nat → UInt64
  double : Nat → UInt64
  callName : UInt64 → List UInt8
  recordName : RecordName → List UInt8
  threadWrapper : List UInt8 → Bool
  nameThread : List UInt8 → Option (List UInt8)
  entryNames : Bool
  pauses : List Nat
  frameThread : UInt32
  frameDrops : List (Nat × Nat)

/-- `kinds`, with what was opened last first. -/
inductive Kind where
  | call
  | span
  | hidden
  deriving DecidableEq

structure OpenStack where
  kinds : List Kind := []
  calls : Nat := 0
  pause : Nat := 0
  named : Bool := false

structure FrameSet where
  isOpen : Bool := false
  number : Nat := 0
  tid : UInt32 := 0

structure Export where
  used : List UInt32 := []
  openStacks : UInt32 → OpenStack := fun _ => {}
  frameSets : Fin 16 → FrameSet := fun _ => {}
  cursor : Nat := 0
  malformed : Nat := 0
  out : List Synth := []

namespace Export

def synthEvent (s : Export) (time : UInt64) (tid value : UInt32) (payload : List UInt8) : Export :=
  { s with out := s.out ++ [⟨2, 0, time, tid, value, payload⟩] }

def setStack (s : Export) (tid : UInt32) (st : OpenStack) : Export :=
  { s with openStacks := Function.update s.openStacks tid st }

def setFrame (s : Export) (i : Fin 16) (f : FrameSet) : Export :=
  { s with frameSets := Function.update s.frameSets i f }

def stackPush (s : Export) (tid : UInt32) (kind : Kind) : Export :=
  s.setStack tid { s.openStacks tid with
    kinds := kind :: (s.openStacks tid).kinds
    calls := if kind = .span then (s.openStacks tid).calls else (s.openStacks tid).calls + 1 }

end Export

/-- The loop of `close_slices`: what stays, the calls among it, and what is closed. -/
def closeLoop (calls : Nat) (untilSpan : Bool) : List Kind → Nat → List Kind × Nat × List Kind
  | [], open_ => ([], open_, [])
  | kind :: kinds, open_ =>
    if untilSpan = false ∧ open_ ≤ calls then (kind :: kinds, open_, [])
    else
      let left := if kind = .span then open_ else open_ - 1
      if untilSpan = true ∧ kind = .span then (kinds, left, [kind])
      else
        let rest := closeLoop calls untilSpan kinds left
        (rest.1, rest.2.1, kind :: rest.2.2)

def endEvent (time : UInt64) (tid : UInt32) : Kind → Option Synth
  | .call => some ⟨2, 0, time, tid, exportCallEnd, []⟩
  | .span => some ⟨2, 0, time, tid, profileEventSpanEnd, []⟩
  | .hidden => none

def closeSlices (s : Export) (time : UInt64) (tid : UInt32) (calls : Nat) (untilSpan : Bool) : Export :=
  let st := s.openStacks tid
  let r := closeLoop calls untilSpan st.kinds st.calls
  { s.setStack tid { st with kinds := r.1, calls := r.2.1 } with
    out := s.out ++ r.2.2.filterMap (endEvent time tid) }

variable (c : Capture)

def pauseFrame (time : UInt64) (tid : UInt32) (s : Export) (i : Fin 16) : Export :=
  let f := s.frameSets i
  if f.isOpen = true ∧ f.tid = tid then
    let s := (s.setFrame i { f with isOpen := false }).synthEvent time (frameTrack i) profileEventSpanEnd []
    if i = 0 then s.synthEvent time tid exportFrameIdle [] else s
  else s

def crossPause (tid : UInt32) (s : Export) (ticks : Nat) : Export :=
  let time := c.clockSeconds ticks
  let s := s.setStack tid { s.openStacks tid with pause := (s.openStacks tid).pause + 1 }
  (List.finRange 16).foldl (pauseFrame time tid) (closeSlices s time tid 0 false)

def crossPauses (tid : UInt32) (ticks : Nat) : Nat → Export → Export
  | 0, s => s
  | fuel + 1, s =>
    match c.pauses[(s.openStacks tid).pause]? with
    | none => s
    | some pause => if pause ≤ ticks then crossPauses tid ticks fuel (crossPause c tid s pause) else s

def nameEntry (tid : UInt32) (name : List UInt8) (s : Export) : Export :=
  let st := s.openStacks tid
  if st.named = false ∧ (st.kinds = [] ∨ st.kinds = [.hidden]) then
    let s := s.setStack tid { st with named := true }
    match if c.entryNames = true ∧ st.pause = 0 then c.nameThread name else none with
    | some entry => s.synthEvent 0 tid (UInt32.ofNat profileEventThreadName) entry
    | none => s
  else s

def decodeEnter (tid : UInt32) (time : UInt64) (key : UInt64) (s : Export) : Export :=
  let name := c.callName key
  if (s.openStacks tid).kinds = [] ∧ c.threadWrapper name = true then s.stackPush tid .hidden
  else ((nameEntry c tid name s).stackPush tid .call).synthEvent time tid exportCallBegin name

/-- `frame_drops_at`: the cursor, and the dropped calls of the frame that starts at `ticks`. -/
def frameDropsAt (frameDrops : List (Nat × Nat)) (cursor ticks : Nat) : Nat × Option Nat :=
  let cursor := cursor + ((frameDrops.drop cursor).takeWhile (·.1 < ticks)).length
  (cursor, (frameDrops[cursor]?).bind fun d => if d.1 = ticks then some d.2 else none)

def utf8 (text : String) : List UInt8 := text.toUTF8.toList

def dropsCounter (tid : UInt32) (time : UInt64) (ticks : Nat) (s : Export) : Export :=
  let (cursor, dropped) := frameDropsAt c.frameDrops s.cursor ticks
  let s := { s with cursor := cursor }
  match dropped with
  | some dropped => s.synthEvent time tid profileEventCounter
      (bytes 8 (c.double dropped).toNat ++ utf8 "Short calls dropped per frame")
  | none => s

def endFrame (time : UInt64) (i : Fin 16) (s : Export) : Export :=
  let f := s.frameSets i
  let s := if f.isOpen then s.synthEvent time (frameTrack i) profileEventSpanEnd [] else s
  s.setFrame i { f with isOpen := false }

def beginFrame (tid : UInt32) (time : UInt64) (i : Fin 16) (s : Export) : Export :=
  let number := (s.frameSets i).number + 1
  let name := utf8 ("Frame " ++ toString number)
  let s := (s.synthEvent time (frameTrack i) profileEventSpanBegin name).setFrame i ⟨true, number, tid⟩
  if i = 0 then s.synthEvent time tid exportFrameBegin name else s

def decodeFrame (tid : UInt32) (time : UInt64) (ticks : Nat) (set : UInt64) (idle : Bool) (s : Export) : Export :=
  if h : set.toNat < 16 then
    let i : Fin 16 := ⟨set.toNat, h⟩
    let s := endFrame time i s
    let s := if i = 0 ∧ tid = c.frameThread then dropsCounter c tid time ticks s else s
    if idle then (if i = 0 then s.synthEvent time tid exportFrameIdle [] else s) else beginFrame tid time i s
  else s

def decodeEvent (tid : UInt32) (time : UInt64) (id : UInt32) (payload : List UInt8) (s : Export) : Export :=
  let s := if id.toNat = profileEventThreadName then s.setStack tid { s.openStacks tid with named := true } else s
  if id.toNat = eventDroppedCalls then s else s.synthEvent time tid id payload

def decodeBody (tid : UInt32) (time : UInt64) (ticks : Nat) (s : Export) : Body → Export
  | .enter key => decodeEnter c tid time key s
  | .exit =>
    if (s.openStacks tid).calls = 0 then s else closeSlices s time tid ((s.openStacks tid).calls - 1) false
  | .unwind skipped => closeSlices s time tid ((s.openStacks tid).calls - skipped.toNat) false
  | .spanBegin name => (s.stackPush tid .span).synthEvent time tid profileEventSpanBegin (c.recordName name)
  | .spanEnd => if .span ∈ (s.openStacks tid).kinds then closeSlices s time tid 0 true else s
  | .frameMark set => decodeFrame c tid time ticks set false s
  | .frameIdle set => decodeFrame c tid time ticks set true s
  | .event id payload => decodeEvent tid time id payload s
  | .counter value name =>
    s.synthEvent time tid profileEventCounter (bytes 8 value.toNat ++ c.recordName name)
  | .sample sampleTid flags frames stack =>
    { s with out := s.out ++ [⟨1, flags, time, sampleTid, UInt32.ofNat frames, stack⟩] }
  | .stall ended => s.synthEvent time tid exportStall (bytes 8 (c.clockSeconds ended).toNat)

def decodeRecord (tid : UInt32) (s : Export) (record : SegmentRecord) : Export :=
  let s := crossPauses c tid record.ticks c.pauses.length s
  match record.body with
  | some body => decodeBody c tid (c.clockSeconds record.ticks) record.ticks s body
  | none => { s with malformed := s.malformed + 1 }

/-- `OPEN_STACKS`. -/
def openStacksSize : Nat := 65536

def stackOf (s : Export) (tid : UInt32) : Option Export :=
  if tid ∈ s.used then some s
  else if s.used.length < openStacksSize then some { s with used := s.used ++ [tid] }
  else none

structure Segment where
  tid : UInt32
  bytes : List UInt8

def decodeRecords (s : Export) (segment : Segment) : Option Export :=
  (stackOf s segment.tid).map fun s => (segmentRecords segment.bytes).foldl (decodeRecord c segment.tid) s

def decodeAll (segments : List Segment) : Option Export := segments.foldlM (decodeRecords c) {}

def closeFrame (time : UInt64) (s : Export) (i : Fin 16) : Export :=
  if (s.frameSets i).isOpen then s.synthEvent time (frameTrack i) profileEventSpanEnd [] else s

/-- What is still open when the capture ends. -/
def closingPass (s : Export) (time : UInt64) : Export :=
  (List.finRange 16).foldl (closeFrame time) (s.used.foldl (fun s tid => closeSlices s time tid 0 false) s)

end HashLink.Slices
