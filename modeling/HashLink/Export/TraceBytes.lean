import HashLink.Lib.Wire

/-!
The bytes of a trace file, as `pftrace.c` builds them. A message is begun before its length is known, with one byte for
the length, and its body is moved when it is ended and the length needs more. Messages are begun inside messages.
-/

namespace HashLink.TraceBytes

open Wire (Tree Reads)

/-- `pbuf`: the bytes up to `len`, and `cap`. -/
structure Pbuf where
  bytes : List UInt8
  cap : Nat
  fail : Bool

/-- The loop of `pb_reserve`, with a `size_t` of 64 bits: 64 turns are more than it makes. -/
def grow (need : Nat) : Nat → Nat → Option Nat
  | 0, _ => none
  | turns + 1, nc => if need ≤ nc then some nc else if 2 ^ 63 - 1 < nc then none else grow need turns (2 * nc)

/-- The loop of `pb_varint`, in at most so many turns. -/
def varintLoop : Nat → Nat → List UInt8
  | 0, v => [UInt8.ofNat v]
  | turns + 1, v =>
    if 0x80 ≤ v then UInt8.ofNat (v ||| 0x80) :: varintLoop turns (v >>> 7) else [UInt8.ofNat v]

/-- How often the loop `for( x = n >> 7; x; x >>= 7 )` is run through. -/
def moreGroups : Nat → Nat → Nat
  | 0, _ => 0
  | turns + 1, x => if x = 0 then 0 else moreGroups turns (x >>> 7) + 1

/-- The loop of `pb_end` that writes a length of `k` bytes. -/
def lengthLoop : Nat → Nat → List UInt8
  | 0, _ => []
  | k + 1, x => UInt8.ofNat ((x &&& 0x7f) ||| if k = 0 then 0 else 0x80) :: lengthLoop k (x >>> 7)

namespace Pbuf

/-- `pb_reserve`. The sizes it asks for grow, and after a failure it asks no more: `realloc` answers by the size. -/
def reserve (realloc : Nat → Bool) (b : Pbuf) (n : Nat) : Pbuf :=
  if b.fail = true ∨ b.bytes.length + n ≤ b.cap then b
  else
    match grow (b.bytes.length + n) 65 (if b.cap = 0 then 256 else b.cap) with
    | some nc => if realloc nc then { b with cap := nc } else { b with fail := true }
    | none => { b with fail := true }

variable (realloc : Nat → Bool)

/-- Bytes at the end, after room was made for them. -/
def put (b : Pbuf) (room : Nat) (l : List UInt8) : Pbuf :=
  if (b.reserve realloc room).fail = true then b.reserve realloc room
  else { b.reserve realloc room with bytes := b.bytes ++ l }

def pbByte (b : Pbuf) (c : UInt8) : Pbuf := b.put realloc 1 [c]

def pbVarint (b : Pbuf) (v : Nat) : Pbuf := b.put realloc 10 (varintLoop v v)

def pbBytes (b : Pbuf) (data : List UInt8) : Pbuf := b.put realloc data.length data

def pbTag (b : Pbuf) (field wt : Nat) : Pbuf := b.pbVarint realloc ((field <<< 3) ||| wt)

def pbVi (b : Pbuf) (field : UInt32) (v : UInt64) : Pbuf := (b.pbTag realloc field.toNat 0).pbVarint realloc v.toNat

def pbStr (b : Pbuf) (field : UInt32) (s : List UInt8) : Pbuf :=
  ((b.pbTag realloc field.toNat 2).pbVarint realloc s.length).pbBytes realloc s

/-- The bits of the double are written. -/
def pbDbl (b : Pbuf) (field : UInt32) (u : UInt64) : Pbuf :=
  (b.pbTag realloc field.toNat 1).put realloc 8 (LittleEndian.bytes 8 u.toNat)

/-- The buffer and where the length of the message is. -/
def pbBegin (b : Pbuf) (field : UInt32) : Pbuf × Nat :=
  let b := (b.pbTag realloc field.toNat 2).pbByte realloc 0
  (b, b.bytes.length - 1)

def pbEnd (b : Pbuf) (at_ : Nat) : Pbuf :=
  if b.fail = true then b
  else
    let n := b.bytes.length - at_ - 1
    if n < 128 then { b with bytes := b.bytes.set at_ (UInt8.ofNat n) }
    else
      let k := moreGroups n (n >>> 7) + 1
      let b := b.reserve realloc (k - 1)
      if b.fail = true then b
      else { b with bytes := b.bytes.take at_ ++ (lengthLoop k n ++ b.bytes.drop (at_ + 1)) }

end Pbuf

/-- What the functions of the writer call while they build a packet. -/
inductive PbCall where
  | vi (field : UInt32) (v : UInt64)
  | str (field : UInt32) (s : List UInt8)
  | dbl (field : UInt32) (u : UInt64)
  | begin_ (field : UInt32)
  | end_

/-- The buffer, and the places of the lengths of the messages that are open, the innermost first. -/
structure Packet where
  buf : Pbuf
  open_ : List Nat

def Packet.call (realloc : Nat → Bool) (s : Packet) : PbCall → Packet
  | .vi field v => { s with buf := s.buf.pbVi realloc field v }
  | .str field data => { s with buf := s.buf.pbStr realloc field data }
  | .dbl field u => { s with buf := s.buf.pbDbl realloc field u }
  | .begin_ field => ⟨(s.buf.pbBegin realloc field).1, (s.buf.pbBegin realloc field).2 :: s.open_⟩
  | .end_ =>
    match s.open_ with
    | at_ :: rest => ⟨s.buf.pbEnd realloc at_, rest⟩
    | [] => s

/-- A packet from an empty buffer. -/
def packet (realloc : Nat → Bool) (calls : List PbCall) : Packet :=
  calls.foldl (Packet.call realloc) ⟨⟨[], 0, false⟩, []⟩

/-- The message that the calls mean: the fields of the innermost one, and the messages around it with theirs. -/
structure Draft where
  fields : List Tree
  outer : List (Nat × List Tree)

def Draft.call (d : Draft) : PbCall → Draft
  | .vi field v => { d with fields := d.fields ++ [.leaf (.varint field.toNat v.toNat)] }
  | .str field data => { d with fields := d.fields ++ [.leaf (.body field.toNat data)] }
  | .dbl field u => { d with fields := d.fields ++ [.leaf (.fixed64 field.toNat u.toNat)] }
  | .begin_ field => ⟨[], (field.toNat, d.fields) :: d.outer⟩
  | .end_ =>
    match d.outer with
    | (field, fields) :: rest => ⟨fields ++ [.message field d.fields], rest⟩
    | [] => d

def draft (calls : List PbCall) : Draft := calls.foldl Draft.call ⟨[], []⟩

/-! The two loops write the groups of a number. -/

theorem or_mark {x : Nat} (h : x < 256) : x ||| 0x80 = x % 128 + 128 := by
  have hall : ∀ x < 256, x ||| 0x80 = x % 128 + 128 := by decide +kernel
  exact hall x h

theorem varintLoop_eq {turns v : Nat} (h : v ≤ turns) : varintLoop turns v = Wire.varint v := by
  induction turns generalizing v with
  | zero =>
    rw [Nat.le_zero.1 h, varintLoop, Wire.varint, if_pos (by decide)]
  | succ turns ih =>
    rw [varintLoop, Wire.varint, Nat.shiftRight_eq_div_pow]
    by_cases hv : v < 128
    · rw [if_neg (Nat.not_le.2 hv), if_pos hv]
    · have hbyte : UInt8.ofNat (v ||| 0x80) = UInt8.ofNat (v % 128 + 128) := by
        apply UInt8.toNat_inj.1
        have hmark : v % 2 ^ 8 ||| 0x80 % 2 ^ 8 = v % 2 ^ 8 % 128 + 128 := or_mark (Nat.mod_lt v (by decide))
        rw [UInt8.toNat_ofNat', UInt8.toNat_ofNat', Nat.or_mod_two_pow, hmark]
        omega
      rw [if_pos (Nat.not_lt.1 hv), if_neg hv, hbyte, ih (by omega)]

theorem lengthLoop_eq {turns n : Nat} (h : n ≤ turns) :
    lengthLoop (moreGroups turns (n >>> 7) + 1) n = Wire.varint n := by
  induction turns generalizing n with
  | zero =>
    rw [Nat.le_zero.1 h, Wire.varint, if_pos (by decide)]
    rfl
  | succ turns ih =>
    have hshift : n >>> 7 = n / 128 := Nat.shiftRight_eq_div_pow n 7
    rw [lengthLoop, Nat.and_two_pow_sub_one_eq_mod n 7, moreGroups, Wire.varint]
    by_cases hn : n < 128
    · have hzero : n >>> 7 = 0 := hshift.trans (Nat.div_eq_of_lt hn)
      rw [if_pos hzero, if_pos rfl, if_pos hn, Nat.or_zero, Nat.mod_eq_of_lt hn]
      rfl
    · have hmore : n >>> 7 ≠ 0 := by omega
      have hmark := or_mark (show n % 128 < 256 by omega)
      rw [Nat.mod_mod] at hmark
      rw [if_neg hmore, if_neg (Nat.succ_ne_zero _), if_neg hn, hmark, ih (by omega), hshift]

variable {realloc : Nat → Bool} {b : Pbuf}

/-- The bytes `l` have been written at the end, unless memory has run out. -/
structure Wrote (b b' : Pbuf) (l : List UInt8) : Prop where
  sticky : b.fail = true → b'.fail = true
  bytes : b'.fail = true ∨ b'.bytes = b.bytes ++ l

theorem reserve_bytes (n : Nat) : (b.reserve realloc n).bytes = b.bytes := by
  unfold Pbuf.reserve
  split
  · rfl
  · split
    · split <;> rfl
    · rfl

theorem put_wrote (room : Nat) (l : List UInt8) : Wrote b (b.put realloc room l) l := by
  unfold Pbuf.put
  split
  · next hfail => exact ⟨fun _ => hfail, Or.inl hfail⟩
  · next hok =>
    refine ⟨fun hfail => absurd ?_ hok, Or.inr rfl⟩
    rw [Pbuf.reserve, if_pos (Or.inl hfail)]
    exact hfail

theorem Wrote.then {b' b'' : Pbuf} {l l' : List UInt8} (h : Wrote b b' l) (h' : Wrote b' b'' l') :
    Wrote b b'' (l ++ l') := by
  refine ⟨fun hfail => h'.sticky (h.sticky hfail), ?_⟩
  rcases h'.bytes with hfail | hbytes'
  · exact Or.inl hfail
  · refine h.bytes.imp h'.sticky fun hbytes => ?_
    rw [hbytes', hbytes, List.append_assoc]

theorem pbVarint_wrote (v : Nat) : Wrote b (b.pbVarint realloc v) (Wire.varint v) := by
  rw [← varintLoop_eq (Nat.le_refl v)]
  exact put_wrote 10 _

theorem pbTag_wrote (field : Nat) {wt : Nat} (hwt : wt < 8) :
    Wrote b (b.pbTag realloc field wt) (Wire.varint (8 * field + wt)) := by
  have hkey : (field <<< 3) ||| wt = 8 * field + wt := by
    rw [Nat.shiftLeft_eq, Nat.mul_comm]
    exact (Nat.two_pow_add_eq_or_of_lt hwt field).symm
  rw [← hkey]
  exact pbVarint_wrote _

/-- The end of a message puts its length before its body. -/
theorem pbEnd_bytes {before body : List UInt8} (hbytes : b.bytes = before ++ 0 :: body) :
    (b.pbEnd realloc before.length).fail = true ∨
      (b.pbEnd realloc before.length).bytes = before ++ (Wire.varint body.length ++ body) := by
  have hn : b.bytes.length - before.length - 1 = body.length := by
    rw [hbytes, List.length_append, List.length_cons]
    omega
  unfold Pbuf.pbEnd
  split
  · next hfail => exact Or.inl hfail
  · dsimp only
    rw [hn]
    split
    · next hshort =>
      right
      rw [hbytes, List.set_append_right _ _ (Nat.le_refl _), Nat.sub_self, List.set_cons_zero, Wire.varint, if_pos hshort]
      rfl
    · split
      · next hfail => exact Or.inl hfail
      · right
        dsimp only
        rw [reserve_bytes, hbytes, List.take_left, lengthLoop_eq (Nat.le_refl _), ← List.drop_drop, List.drop_left]
        rfl

/-- The bytes before the innermost message, with the places of the lengths. -/
inductive Laid : List UInt8 → List Nat → List (Nat × List Tree) → Prop
  | nil : Laid [] [] []
  | cons {pre seg ats outer fields} (field : Nat) : Laid pre ats outer → Reads seg fields →
      Laid (pre ++ seg ++ Wire.varint (8 * field + 2) ++ [0]) ((pre ++ seg ++ Wire.varint (8 * field + 2)).length :: ats)
        ((field, fields) :: outer)

/-- The buffer holds what the calls mean. -/
def Builds (s : Packet) (d : Draft) : Prop :=
  s.buf.fail = true ∨ ∃ pre seg, s.buf.bytes = pre ++ seg ∧ Laid pre s.open_ d.outer ∧ Reads seg d.fields

variable {s : Packet} {d : Draft}

theorem Builds.field (h : Builds s d) {b : Pbuf} {l : List UInt8} {field : Wire.Field} (hwrote : Wrote s.buf b l)
    (hread : Wire.readField l = some (field, [])) :
    Builds { s with buf := b } { d with fields := d.fields ++ [.leaf field] } := by
  rcases h with hfail | ⟨pre, seg, hbytes, hlaid, hreads⟩
  · exact Or.inl (hwrote.sticky hfail)
  · refine hwrote.bytes.imp id fun hwrote => ⟨pre, seg ++ l, ?_, hlaid, hreads.append (.leaf hread .nil)⟩
    rw [hwrote, hbytes, List.append_assoc]

theorem Builds.call (h : Builds s d) (c : PbCall) : Builds (s.call realloc c) (d.call c) := by
  cases c with
  | vi field v =>
    refine h.field ?_ (Wire.readField_varint _ _)
    exact (pbTag_wrote field.toNat (by decide)).then (pbVarint_wrote _)
  | str field data =>
    refine h.field ?_ (Wire.readField_body _ _)
    exact (pbTag_wrote field.toNat (by decide)).then ((pbVarint_wrote _).then (put_wrote _ _))
  | dbl field u =>
    refine h.field ?_ (Wire.readField_fixed64 _ u.toNat_lt)
    exact (pbTag_wrote field.toNat (by decide)).then (put_wrote _ _)
  | begin_ field =>
    have hwrote : Wrote s.buf (s.buf.pbBegin realloc field).1 (Wire.varint (8 * field.toNat + 2) ++ [0]) :=
      (pbTag_wrote field.toNat (by decide)).then (put_wrote _ _)
    rcases h with hfail | ⟨pre, seg, hbytes, hlaid, hreads⟩
    · exact Or.inl (hwrote.sticky hfail)
    · refine hwrote.bytes.imp id fun hwrote =>
        ⟨pre ++ seg ++ Wire.varint (8 * field.toNat + 2) ++ [0], [], ?_, ?_, .nil⟩
      · rw [List.append_nil, ← hbytes, List.append_assoc]
        exact hwrote
      · have hat : (s.buf.pbBegin realloc field).2 = (pre ++ seg ++ Wire.varint (8 * field.toNat + 2)).length := by
          show (s.buf.pbBegin realloc field).1.bytes.length - 1 = _
          rw [hwrote, hbytes, ← List.append_assoc, List.length_append, List.length_singleton, Nat.add_sub_cancel]
        rw [Packet.call, hat]
        exact hlaid.cons field.toNat hreads
  | end_ =>
    rcases h with hfail | ⟨pre, seg, hbytes, hlaid, hreads⟩
    · left
      rw [Packet.call]
      split
      · rw [Pbuf.pbEnd, if_pos hfail]
        exact hfail
      · exact hfail
    · rw [Packet.call, Draft.call]
      generalize hats : s.open_ = ats at hlaid
      generalize houter : d.outer = outer at hlaid
      cases hlaid with
      | nil =>
        right
        exact ⟨[], seg, hbytes, by rw [hats, houter]; exact .nil, hreads⟩
      | cons field hlaid hreads' =>
        rw [List.append_assoc _ [0] seg, List.singleton_append] at hbytes
        refine (pbEnd_bytes hbytes).imp id fun hend => ⟨_, _, ?_, hlaid, hreads'.append
          (.message (Wire.readField_body field seg) hreads .nil)⟩
        rw [hend, List.append_assoc, List.append_assoc]

/-- A packet whose messages have all been ended is read as the fields that were built, at every depth. -/
theorem packet_reads (calls : List PbCall) (hdone : (packet realloc calls).open_ = [])
    (hok : (packet realloc calls).buf.fail = false) :
    Reads (packet realloc calls).buf.bytes (draft calls).fields ∧ (draft calls).outer = [] := by
  have hrun : ∀ s d, Builds s d → Builds (calls.foldl (Packet.call realloc) s) (calls.foldl Draft.call d) := by
    clear hdone hok
    induction calls with
    | nil => exact fun _ _ h => h
    | cons c calls ih => exact fun _ _ h => ih _ _ (h.call c)
  have hstart : Builds ⟨⟨[], 0, false⟩, []⟩ ⟨[], []⟩ := Or.inr ⟨[], [], rfl, .nil, .nil⟩
  rcases hrun _ _ hstart with hfail | ⟨pre, seg, hbytes, hlaid, hreads⟩
  · cases hok.symm.trans hfail
  · change (packet realloc calls).buf.bytes = pre ++ seg at hbytes
    change Laid pre (packet realloc calls).open_ (draft calls).outer at hlaid
    rw [hdone] at hlaid
    generalize (draft calls).outer = outer at hlaid
    cases hlaid
    rw [hbytes]
    exact ⟨hreads, rfl⟩

/-- A slice with a category of 200 bytes, whose length takes two. -/
def demoPacket : List PbCall :=
  [.vi 8 1000, .begin_ 11, .vi 9 1, .str 22 (List.replicate 200 65), .end_, .vi 10 1]

theorem packet_reads_demo : Reads (packet (fun _ => true) demoPacket).buf.bytes (draft demoPacket).fields ∧
    (draft demoPacket).outer = [] :=
  packet_reads demoPacket (by decide +kernel) (by decide +kernel)

end HashLink.TraceBytes
