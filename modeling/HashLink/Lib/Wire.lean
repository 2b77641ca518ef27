import HashLink.Lib.LittleEndian

/-!
The wire format of protocol buffers: numbers in groups of seven bits, and a message as a sequence of fields, each with
its number and its wire type. A message in a field is a body of bytes that can be read as a message again.
-/

namespace Wire

/-- A field as the wire tells it. -/
inductive Field where
  | varint (number value : Nat)
  | fixed64 (number value : Nat)
  | body (number : Nat) (bytes : List UInt8)

/-- A field of a message, or a message in it. -/
inductive Tree where
  | leaf (field : Field)
  | message (number : Nat) (inner : List Tree)

/-- The groups of a number, the lowest first. All but the last one are marked. -/
def varint (v : Nat) : List UInt8 :=
  if v < 128 then [UInt8.ofNat v] else UInt8.ofNat (v % 128 + 128) :: varint (v / 128)

def readVarint : List UInt8 → Option (Nat × List UInt8)
  | [] => none
  | b :: l => if b.toNat < 128 then some (b.toNat, l)
      else (readVarint l).map fun r => (b.toNat % 128 + 128 * r.1, r.2)

/-- What a field holds, by its wire type. -/
def readValue (number : Nat) : Nat → List UInt8 → Option (Field × List UInt8)
  | 0, l => (readVarint l).map fun r => (.varint number r.1, r.2)
  | 1, l => if 8 ≤ l.length then some (.fixed64 number (LittleEndian.value (l.take 8)), l.drop 8) else none
  | 2, l => (readVarint l).bind fun r =>
    if r.1 ≤ r.2.length then some (.body number (r.2.take r.1), r.2.drop r.1) else none
  | _, _ => none

def readField (l : List UInt8) : Option (Field × List UInt8) :=
  (readVarint l).bind fun r => readValue (r.1 / 8) (r.1 % 8) r.2

/-- The bytes are a message of the fields. -/
inductive Reads : List UInt8 → List Tree → Prop
  | nil : Reads [] []
  | leaf {l r field trees} : readField l = some (field, r) → Reads r trees → Reads l (.leaf field :: trees)
  | message {l r number bytes inner trees} : readField l = some (.body number bytes, r) → Reads bytes inner →
      Reads r trees → Reads l (.message number inner :: trees)

variable {l r x : List UInt8} {trees trees' : List Tree}

theorem readVarint_varint (v : Nat) (l : List UInt8) : readVarint (varint v ++ l) = some (v, l) := by
  induction v using varint.induct with
  | case1 v hv =>
    have hbyte : (UInt8.ofNat v).toNat = v := by
      rw [UInt8.toNat_ofNat']
      omega
    rw [varint, if_pos hv, List.singleton_append, readVarint, hbyte, if_pos hv]
  | case2 v hv ih =>
    have hbyte : (UInt8.ofNat (v % 128 + 128)).toNat = v % 128 + 128 := by
      rw [UInt8.toNat_ofNat']
      omega
    rw [varint, if_neg hv, List.cons_append, readVarint, hbyte, if_neg (by omega), ih, Option.map_some]
    congr 2
    omega

theorem readVarint_append {v : Nat} (h : readVarint l = some (v, r)) : readVarint (l ++ x) = some (v, r ++ x) := by
  induction l generalizing v with
  | nil => cases h
  | cons b l ih =>
    rw [readVarint] at h
    rw [List.cons_append, readVarint]
    split at h
    · next hb =>
      cases h
      rw [if_pos hb]
    · next hb =>
      obtain ⟨⟨v', r'⟩, hread, heq⟩ := Option.map_eq_some_iff.1 h
      cases heq
      rw [if_neg hb, ih hread]
      rfl

theorem readField_append {field : Field} (h : readField l = some (field, r)) :
    readField (l ++ x) = some (field, r ++ x) := by
  obtain ⟨⟨key, rest⟩, hkey, hvalue⟩ := Option.bind_eq_some_iff.1 h
  rw [readField, readVarint_append hkey, Option.bind_some]
  dsimp only at hvalue ⊢
  generalize key % 8 = wireType at hvalue ⊢
  unfold readValue at hvalue ⊢
  split at hvalue
  · obtain ⟨⟨v, r'⟩, hread, heq⟩ := Option.map_eq_some_iff.1 hvalue
    cases heq
    rw [readVarint_append hread]
    rfl
  · split at hvalue
    · next hlen =>
      cases hvalue
      rw [if_pos (by rw [List.length_append]; omega), List.take_append_of_le_length hlen,
        List.drop_append_of_le_length hlen]
    · cases hvalue
  · obtain ⟨⟨n, r'⟩, hread, heq⟩ := Option.bind_eq_some_iff.1 hvalue
    dsimp only at heq
    split at heq
    · next hlen =>
      cases heq
      rw [readVarint_append hread, Option.bind_some]
      dsimp only
      rw [if_pos (by rw [List.length_append]; omega), List.take_append_of_le_length hlen,
        List.drop_append_of_le_length hlen]
    · cases heq
  · cases hvalue

theorem Reads.append (h : Reads l trees) (h' : Reads x trees') : Reads (l ++ x) (trees ++ trees') := by
  induction h with
  | nil => exact h'
  | leaf hread _ ih => exact .leaf (readField_append hread) ih
  | message hread hinner _ _ ih => exact .message (readField_append hread) hinner ih

/-- A field is read after its key. -/
theorem readField_key {number wireType : Nat} (hwire : wireType < 8) (l : List UInt8) :
    readField (varint (8 * number + wireType) ++ l) = readValue number wireType l := by
  rw [readField, readVarint_varint, Option.bind_some]
  dsimp only
  rw [show (8 * number + wireType) / 8 = number by omega, show (8 * number + wireType) % 8 = wireType by omega]

theorem readField_varint (number v : Nat) :
    readField (varint (8 * number) ++ varint v) = some (.varint number v, []) := by
  have hread := readVarint_varint v []
  rw [List.append_nil] at hread
  rw [← Nat.add_zero (8 * number), readField_key (by decide), readValue, hread]
  rfl

theorem readField_fixed64 (number : Nat) {v : Nat} (hv : v < 256 ^ 8) :
    readField (varint (8 * number + 1) ++ LittleEndian.bytes 8 v) = some (.fixed64 number v, []) := by
  have hlen : (LittleEndian.bytes 8 v).length = 8 := LittleEndian.length_bytes 8 v
  rw [readField_key (by decide), readValue, if_pos hlen.ge, List.take_of_length_le hlen.le,
    List.drop_of_length_le hlen.le, LittleEndian.value_bytes, Nat.mod_eq_of_lt hv]

theorem readField_body (number : Nat) (bytes : List UInt8) :
    readField (varint (8 * number + 2) ++ (varint bytes.length ++ bytes)) = some (.body number bytes, []) := by
  rw [readField_key (by decide), readValue, readVarint_varint, Option.bind_some]
  dsimp only
  rw [if_pos le_rfl, List.take_length, List.drop_length]

end Wire
