import Mathlib.Data.List.Basic
import Mathlib.Algebra.Group.Int.Units

/-!
The string buffer: chunks of 16-bit units that are filled one after the other, the newest first. An append fills what
is left of the newest chunk and puts the rest in a new one, whose size grows with the total. The content is rebuilt
from its end. Memory that was not written yet holds anything.
-/

namespace HashLink.StringBuffer

/-- What ends a run: an `int` that does not hold its value, an access outside a block, or a loop that is never left. -/
inductive BufferFault where
  | overflow | outside | endless
  deriving DecidableEq

/-- A value kept in an `int`. -/
def int (n : Nat) : Except BufferFault Nat :=
  if n < 2 ^ 31 then .ok n else .error .overflow

structure Units where
  size : Nat
  unit : Nat → UInt16

/-- `hl_gc_alloc_noptr`, whose memory is `fresh`. -/
def Units.alloc (fresh : Nat → UInt16) (bytes : Nat) : Except BufferFault Units := do
  let bytes ← int bytes
  return ⟨bytes / 2, fresh⟩

def Units.store (u : Units) (i : Nat) (c : UInt16) : Except BufferFault Units :=
  if i < u.size then .ok { u with unit := Function.update u.unit i c } else .error .outside

/-- `memcpy(u + offset, src, n << 1)`. -/
def Units.memcpy (u : Units) (offset : Nat) (src : Nat → UInt16) (n : Nat) : Except BufferFault Units := do
  let _ ← int (2 * n)
  if offset + n ≤ u.size then
    return { u with unit := fun i => if offset ≤ i ∧ i < offset + n then src (i - offset) else u.unit i }
  else .error .outside

def Units.text (u : Units) (n : Nat) : List UInt16 := (List.range n).map u.unit

structure StringItem where
  str : Units
  size : Nat
  len : Nat

/-- `data` is the list that starts at the newest chunk and follows `next`. -/
structure HlBuffer where
  totlen : Nat
  blen : Nat
  data : List StringItem

def hlAllocBuffer : HlBuffer := ⟨0, 16, []⟩

/-- `while( b->totlen >= (b->blen << 2) ) b->blen <<= 1`. -/
def growBlen (totlen blen : Nat) : Except BufferFault Nat :=
  if 2 ^ 31 ≤ 4 * blen then .error .overflow
  else if totlen < 4 * blen then .ok blen
  else if blen = 0 then .error .endless
  else growBlen totlen (2 * blen)
termination_by 2 ^ 31 - blen

def bufferAppendNew (fresh : Nat → UInt16) (b : HlBuffer) (s : Nat → UInt16) (len : Nat) :
    Except BufferFault HlBuffer := do
  let blen ← growBlen b.totlen b.blen
  let size := if len < blen then blen else len
  let str ← Units.alloc fresh (2 * size)
  let str ← str.memcpy 0 s len
  return { b with blen := blen, data := ⟨str, size, len⟩ :: b.data }

/-- `s` is the memory from the pointer on, none for `NULL`. -/
def hlBufferStrSub (fresh : Nat → UInt16) (b : HlBuffer) (s : Option (Nat → UInt16)) (len : Int) :
    Except BufferFault HlBuffer :=
  match s with
  | none => .ok b
  | some s =>
    if len ≤ 0 then .ok b else do
      let len := len.toNat
      let totlen ← int (b.totlen + len)
      match b.data with
      | [] => bufferAppendNew fresh { b with totlen := totlen } s len
      | it :: rest =>
        let free := it.size - it.len
        if len ≤ free then
          let str ← it.str.memcpy it.len s len
          return { b with totlen := totlen, data := { it with str := str, len := it.len + len } :: rest }
        else
          let str ← it.str.memcpy it.len s free
          bufferAppendNew fresh
            { b with totlen := totlen, data := { it with str := str, len := it.len + free } :: rest }
            (fun i => s (free + i)) (len - free)

/-- The units before the terminator of the string that `s` and a zero make up. -/
def ustrUnits (s : List UInt16) : List UInt16 := s.takeWhile (· ≠ 0)

/-- `ustrlen`, as an `int`. -/
def ustrlen (s : List UInt16) : Int := ((ustrUnits s).length : Int).bmod (2 ^ 32)

def nullText : List UInt16 := [110, 117, 108, 108]

def hlBufferStr (fresh : Nat → UInt16) (b : HlBuffer) : Option (List UInt16) → Except BufferFault HlBuffer
  | some s => hlBufferStrSub fresh b (some fun i => s.getD i 0) (ustrlen s)
  | none => hlBufferStrSub fresh b (some fun i => nullText.getD i 0) 4

def hlBufferChar (fresh : Nat → UInt16) (b : HlBuffer) (c : UInt16) : Except BufferFault HlBuffer := do
  let totlen ← int (b.totlen + 1)
  match b.data with
  | [] => bufferAppendNew fresh { b with totlen := totlen } (fun _ => c) 1
  | it :: rest =>
    if it.len ≠ it.size then
      let str ← it.str.store it.len c
      return { b with totlen := totlen, data := { it with str := str, len := it.len + 1 } :: rest }
    else bufferAppendNew fresh { b with totlen := totlen } (fun _ => c) 1

/-- The loop of `hl_buffer_content`: each chunk goes before the part that is rebuilt already, which starts at `s`. -/
def copyBack (buf : Units) (s : Nat) : List StringItem → Except BufferFault Units
  | [] => .ok buf
  | it :: rest =>
    if s < it.len then .error .outside else do
      let buf ← buf.memcpy (s - it.len) it.str.unit it.len
      copyBack buf (s - it.len) rest

/-- The rebuilt text and what is stored at `len`. -/
def hlBufferContent (fresh : Nat → UInt16) (b : HlBuffer) : Except BufferFault (Units × Nat) := do
  let buf ← Units.alloc fresh (2 * (b.totlen + 1))
  let buf ← buf.store b.totlen 0
  let buf ← copyBack buf b.totlen b.data
  return (buf, b.totlen)

/-- One append, and what its new memory holds. -/
inductive Append where
  | char (c : UInt16) (fresh : Nat → UInt16)
  | strSub (s : Option (Nat → UInt16)) (len : Int) (fresh : Nat → UInt16)
  | str (s : Option (List UInt16)) (fresh : Nat → UInt16)

def Append.run (b : HlBuffer) : Append → Except BufferFault HlBuffer
  | .char c fresh => hlBufferChar fresh b c
  | .strSub s len fresh => hlBufferStrSub fresh b s len
  | .str s fresh => hlBufferStr fresh b s

def runAppends (ops : List Append) : Except BufferFault HlBuffer := ops.foldlM Append.run hlAllocBuffer

def Append.text : Append → List UInt16
  | .char c _ => [c]
  | .strSub none _ _ => []
  | .strSub (some s) len _ => (List.range len.toNat).map s
  | .str none _ => nullText
  | .str (some s) _ => ustrUnits s

def appended (ops : List Append) : List UInt16 := ops.flatMap Append.text

def chunksText (data : List StringItem) : List UInt16 := data.reverse.flatMap fun it => it.str.text it.len

def HlBuffer.text (b : HlBuffer) : List UInt16 := chunksText b.data

/-- The state between two calls. A chunk is as large as its block and filled from its start, and the chunk size is
the first one or at most half the total. -/
structure Valid (b : HlBuffer) : Prop where
  items : ∀ it ∈ b.data, it.str.size = it.size ∧ it.len ≤ it.size
  total : b.totlen = b.text.length
  blen : 0 < b.blen ∧ (b.blen = 16 ∨ 2 * b.blen ≤ b.totlen)

variable {u v : Units} {b b' : HlBuffer} {fresh : Nat → UInt16}

theorem int_ok {n : Nat} (h : n < 2 ^ 31) : int n = .ok n := if_pos h

theorem alloc_ok {n : Nat} (h : 2 * n < 2 ^ 31) : Units.alloc fresh (2 * n) = .ok ⟨n, fresh⟩ := by
  rw [Units.alloc, int_ok h]
  exact congrArg (fun k => Except.ok (Units.mk k fresh)) (Nat.mul_div_cancel_left n (by decide))

theorem memcpy_ok (u : Units) (offset n : Nat) (src : Nat → UInt16) (h : offset + n ≤ u.size) (hn : n < 2 ^ 30) :
    u.memcpy offset src n = .ok
      { u with unit := fun i => if offset ≤ i ∧ i < offset + n then src (i - offset) else u.unit i } := by
  rw [Units.memcpy, int_ok (by omega)]
  exact if_pos h

theorem text_congr {n : Nat} (h : ∀ i < n, u.unit i = v.unit i) : u.text n = v.text n :=
  List.map_congr_left fun i hi => h i (List.mem_range.mp hi)

@[simp] theorem length_text (u : Units) (n : Nat) : (u.text n).length = n := by
  rw [Units.text, List.length_map, List.length_range]

theorem text_append {offset n : Nat} (src : Nat → UInt16) (hbefore : ∀ i < offset, v.unit i = u.unit i)
    (hcopied : ∀ i < n, v.unit (offset + i) = src i) :
    v.text (offset + n) = u.text offset ++ (List.range n).map src := by
  rw [Units.text, List.range_add, List.map_append, List.map_map]
  refine congrArg₂ _ (text_congr hbefore) (List.map_congr_left fun i hi => ?_)
  exact hcopied i (List.mem_range.mp hi)

theorem text_memcpy (u : Units) (offset n : Nat) (src : Nat → UInt16) :
    Units.text ⟨u.size, fun i => if offset ≤ i ∧ i < offset + n then src (i - offset) else u.unit i⟩ (offset + n) =
      u.text offset ++ (List.range n).map src := by
  refine text_append src (fun i hi => if_neg (by omega)) fun i hi => ?_
  show (if _ then _ else _) = _
  rw [if_pos (by omega), Nat.add_sub_cancel_left]

theorem text_store (u : Units) (i : Nat) (c : UInt16) :
    Units.text ⟨u.size, Function.update u.unit i c⟩ (i + 1) = u.text i ++ [c] := by
  refine text_append (fun _ => c) (fun j hj => Function.update_of_ne (by omega) _ _) fun j hj => ?_
  obtain rfl : j = 0 := by omega
  exact Function.update_self i c u.unit

theorem growBlen_ok {totlen blen : Nat} (htotlen : totlen < 2 ^ 30)
    (h : 0 < blen ∧ (blen = 16 ∨ 2 * blen ≤ totlen)) :
    ∃ blen', growBlen totlen blen = .ok blen' ∧ 0 < blen' ∧ (blen' = 16 ∨ 2 * blen' ≤ totlen) := by
  induction blen using growBlen.induct totlen with
  | case1 blen hlarge => omega
  | case2 blen hlarge hroom =>
    refine ⟨blen, ?_, h⟩
    rw [growBlen, if_neg hlarge, if_pos hroom]
  | case3 hlarge hroom => exact absurd h.1 (Nat.lt_irrefl 0)
  | case4 blen hlarge hroom hzero ih =>
    rw [growBlen, if_neg hlarge, if_neg hroom, if_neg hzero]
    exact ih ⟨by omega, .inr (by omega)⟩

theorem chunksText_cons (it : StringItem) (rest : List StringItem) :
    chunksText (it :: rest) = chunksText rest ++ it.str.text it.len := by
  rw [chunksText, List.reverse_cons, List.flatMap_append, List.flatMap_singleton]
  rfl

theorem bufferAppendNew_ok (fresh s : Nat → UInt16) {len : Nat}
    (hitems : ∀ it ∈ b.data, it.str.size = it.size ∧ it.len ≤ it.size)
    (htotal : b.totlen = b.text.length + len) (hblen : 0 < b.blen ∧ (b.blen = 16 ∨ 2 * b.blen ≤ b.totlen))
    (hfits : b.totlen < 2 ^ 30) :
    ∃ b', bufferAppendNew fresh b s len = .ok b' ∧ Valid b' ∧ b'.text = b.text ++ (List.range len).map s ∧
      b'.data.tail = b.data := by
  obtain ⟨blen, hgrow, hpos, hsize⟩ := growBlen_ok hfits hblen
  obtain ⟨size, hsizedef⟩ : ∃ size, size = if len < blen then blen else len := ⟨_, rfl⟩
  have hroom : len ≤ size ∧ size < 2 ^ 30 := by
    rw [hsizedef]
    split <;> omega
  let str : Units := ⟨size, fun i => if 0 ≤ i ∧ i < 0 + len then s (i - 0) else fresh i⟩
  have htext : HlBuffer.text { b with blen := blen, data := ⟨str, size, len⟩ :: b.data } =
      b.text ++ (List.range len).map s := by
    have hcopied : str.text (0 + len) = (List.range len).map s := text_memcpy ⟨size, fresh⟩ 0 len s
    rw [Nat.zero_add] at hcopied
    exact (chunksText_cons _ _).trans (congrArg (b.text ++ ·) hcopied)
  refine ⟨{ b with blen := blen, data := ⟨str, size, len⟩ :: b.data }, ?_, ⟨?_, ?_, hpos, hsize⟩, htext, rfl⟩
  · rw [bufferAppendNew, hgrow]
    show (Units.alloc fresh (2 * if len < blen then blen else len) >>= _) = _
    rw [← hsizedef, alloc_ok (by omega)]
    show (Units.memcpy ⟨size, fresh⟩ 0 s len >>= _) = _
    rw [memcpy_ok _ _ _ _ (by simpa using hroom.1) (by omega)]
    rfl
  · intro it hit
    rcases List.mem_cons.mp hit with rfl | hit
    · exact ⟨rfl, hroom.1⟩
    · exact hitems it hit
  · rw [htext, List.length_append, List.length_map, List.length_range]
    exact htotal

/-- What an append does to a valid buffer: the text is longer by it, and only the newest chunk is written and new
ones put in front of it. -/
def Appends (b : HlBuffer) (text : List UInt16) (r : Except BufferFault HlBuffer) : Prop :=
  ∃ b', r = .ok b' ∧ Valid b' ∧ b'.text = b.text ++ text ∧ b.data.tail <:+ b'.data

theorem filled {it : StringItem} {rest : List StringItem} {n : Nat} {text : List UInt16} (totlen : Nat)
    (hitems : ∀ it ∈ b.data, it.str.size = it.size ∧ it.len ≤ it.size) (hdata : b.data = it :: rest)
    (hroom : it.len + n ≤ it.size) (hsize : u.size = it.str.size)
    (htext : u.text (it.len + n) = it.str.text it.len ++ text) :
    (∀ it' ∈ { it with str := u, len := it.len + n } :: rest, it'.str.size = it'.size ∧ it'.len ≤ it'.size) ∧
      HlBuffer.text { b with totlen := totlen, data := { it with str := u, len := it.len + n } :: rest } =
        b.text ++ text := by
  refine ⟨fun it' hit' => ?_, ?_⟩
  · rcases List.mem_cons.mp hit' with rfl | hit'
    · exact ⟨hsize.trans (hitems it (hdata ▸ List.mem_cons_self)).1, hroom⟩
    · exact hitems it' (hdata ▸ List.mem_cons_of_mem it hit')
  · rw [HlBuffer.text, HlBuffer.text, hdata, chunksText_cons, chunksText_cons, htext, List.append_assoc]

theorem fill_ok {it : StringItem} {rest : List StringItem} {s : Nat → UInt16} {n : Nat} (totlen : Nat)
    (hitems : ∀ it ∈ b.data, it.str.size = it.size ∧ it.len ≤ it.size) (hdata : b.data = it :: rest)
    (hroom : it.len + n ≤ it.size) (hfits : n < 2 ^ 30) :
    ∃ str, it.str.memcpy it.len s n = .ok str ∧
      (∀ it' ∈ { it with str := str, len := it.len + n } :: rest, it'.str.size = it'.size ∧ it'.len ≤ it'.size) ∧
      HlBuffer.text { b with totlen := totlen, data := { it with str := str, len := it.len + n } :: rest } =
        b.text ++ (List.range n).map s := by
  have hsize := (hitems it (hdata ▸ List.mem_cons_self)).1
  exact ⟨_, memcpy_ok _ _ _ _ (by omega) hfits, filled totlen hitems hdata hroom rfl (text_memcpy it.str it.len n s)⟩

theorem hlBufferStrSub_ok (fresh s : Nat → UInt16) (len : Int) (h : Valid b)
    (hfits : b.text.length + len.toNat < 2 ^ 30) :
    Appends b ((List.range len.toNat).map s) (hlBufferStrSub fresh b (some s) len) := by
  obtain ⟨hitems, htotal, hblen⟩ := h
  unfold hlBufferStrSub
  by_cases hlen : len ≤ 0
  · rw [Int.toNat_of_nonpos hlen]
    exact ⟨b, if_pos hlen, ⟨hitems, htotal, hblen⟩, (List.append_nil _).symm, List.tail_suffix _⟩
  · simp only [if_neg hlen]
    generalize len.toNat = n at hfits
    have hgrown : 0 < b.blen ∧ (b.blen = 16 ∨ 2 * b.blen ≤ b.totlen + n) :=
      hblen.imp_right (Or.imp_right fun hle => Nat.le_add_right_of_le hle)
    rw [int_ok (by omega)]
    rcases hdata : b.data with _ | ⟨it, rest⟩
    · obtain ⟨b', hrun, hvalid, htext, -⟩ := bufferAppendNew_ok fresh s
        (b := { b with totlen := b.totlen + n }) hitems (congrArg (· + n) htotal) hgrown
        (show b.totlen + n < _ by omega)
      refine ⟨b', ?_, hvalid, htext, hdata ▸ List.nil_suffix⟩
      rw [← hrun]
      simp only [bind, Except.bind, hdata]
    · have hle := (hitems it (hdata ▸ List.mem_cons_self)).2
      by_cases hroom : n ≤ it.size - it.len
      · obtain ⟨str, hcopy, hitems', htext⟩ := fill_ok (s := s) (n := n) (b.totlen + n) hitems hdata
          (by omega) (by omega)
        refine ⟨_, ?_, ⟨hitems', ?_, hgrown⟩, htext, by rw [hdata]; exact List.suffix_cons _ _⟩
        · simp only [bind, Except.bind, if_pos hroom, hcopy]
          rfl
        · rw [htext, List.length_append, List.length_map, List.length_range]
          exact congrArg (· + n) htotal
      · obtain ⟨str, hcopy, hitems', htext⟩ := fill_ok (s := s) (n := it.size - it.len) (b.totlen + n) hitems hdata
          (by omega) (by omega)
        obtain ⟨k, rfl⟩ : ∃ k, n = it.size - it.len + k := ⟨n - (it.size - it.len), by omega⟩
        obtain ⟨b', hrun, hvalid, htext', hrest⟩ := bufferAppendNew_ok fresh
          (fun i => s (it.size - it.len + i)) hitems'
          (by rw [htext, List.length_append, List.length_map, List.length_range, htotal, Nat.add_assoc]) hgrown
          (show b.totlen + (it.size - it.len + k) < 2 ^ 30 by omega)
        refine ⟨b', ?_, hvalid, ?_, ?_⟩
        · simp only [bind, Except.bind, if_neg hroom, hcopy, Nat.add_sub_cancel_left]
          exact hrun
        · rw [htext', htext, List.range_add, List.map_append, List.map_map, List.append_assoc]
          rfl
        · rw [hdata]
          exact (List.suffix_cons _ rest).trans (hrest ▸ List.tail_suffix b'.data)

theorem map_getD_range (s : List UInt16) (n : Nat) (h : n ≤ s.length) :
    (List.range n).map (fun i => s.getD i 0) = s.take n := by
  refine List.ext_getElem (by simp [h]) fun i hi _ => ?_
  have hlt : i < s.length := by
    rw [List.length_map, List.length_range] at hi
    omega
  rw [List.getElem_map, List.getElem_range, List.getElem_take, List.getD_eq_getElem?_getD,
    List.getElem?_eq_getElem hlt, Option.getD_some]

theorem hlBufferChar_ok {c : UInt16} (h : Valid b) (hfits : b.text.length + 1 < 2 ^ 30) :
    Appends b [c] (hlBufferChar fresh b c) := by
  obtain ⟨hitems, htotal, hblen⟩ := h
  have hgrown : 0 < b.blen ∧ (b.blen = 16 ∨ 2 * b.blen ≤ b.totlen + 1) :=
    hblen.imp_right (Or.imp_right fun hle => Nat.le_add_right_of_le hle)
  obtain ⟨b', hrun, hvalid, htext, hrest⟩ := bufferAppendNew_ok fresh (fun _ => c)
    (b := { b with totlen := b.totlen + 1 }) hitems (congrArg (· + 1) htotal) hgrown
    (show b.totlen + 1 < _ by omega)
  have hnew : Appends b [c] (bufferAppendNew fresh { b with totlen := b.totlen + 1 } (fun _ => c) 1) := by
    refine ⟨b', hrun, hvalid, htext, (List.tail_suffix _).trans ?_⟩
    rw [show b.data = b'.data.tail from hrest.symm]
    exact List.tail_suffix _
  rw [hlBufferChar, int_ok (by omega)]
  rcases hdata : b.data with _ | ⟨it, rest⟩
  · rw [hdata] at hnew
    exact hnew
  · obtain ⟨hsize, hle⟩ := hitems it (hdata ▸ List.mem_cons_self)
    by_cases hroom : it.len = it.size
    · rw [hdata] at hnew
      simp only [bind, Except.bind, hroom, ne_eq, not_true_eq_false, if_false]
      exact hnew
    · obtain ⟨hitems', htext⟩ := filled (u := ⟨it.str.size, Function.update it.str.unit it.len c⟩) (n := 1)
        (b.totlen + 1) hitems hdata (by omega) rfl (text_store it.str it.len c)
      refine ⟨_, ?_, ⟨hitems', ?_, hgrown⟩, htext, by rw [hdata]; exact List.suffix_cons _ _⟩
      · simp only [bind, Except.bind, ne_eq, hroom, not_false_eq_true, if_true, Units.store]
        rw [if_pos (by omega)]
        rfl
      · rw [htext, List.length_append]
        exact congrArg (· + 1) htotal

theorem append_ok (op : Append) (h : Valid b) (hfits : b.text.length + op.text.length < 2 ^ 30) :
    Appends b op.text (op.run b) := by
  cases op with
  | char c fresh => exact hlBufferChar_ok h hfits
  | strSub s len fresh =>
    cases s with
    | none => exact ⟨b, rfl, h, (List.append_nil _).symm, List.tail_suffix _⟩
    | some s =>
      rw [Append.text, List.length_map, List.length_range] at hfits
      exact hlBufferStrSub_ok _ _ _ h hfits
  | str s fresh =>
    cases s with
    | none => exact hlBufferStrSub_ok _ _ 4 h hfits
    | some s =>
      have hbefore : ustrUnits s <+: s := List.takeWhile_prefix _
      have hlen : ustrlen s = (ustrUnits s).length := Int.bmod_eq_of_le (by omega) (by
        have : (ustrUnits s).length < 2 ^ 30 := Nat.lt_of_le_of_lt (Nat.le_add_left _ _) hfits
        omega)
      have hrun := hlBufferStrSub_ok fresh (fun i => s.getD i 0) (ustrlen s) h (by rw [hlen]; exact hfits)
      rw [hlen, Int.toNat_natCast, map_getD_range s _ hbefore.length_le,
        ← List.prefix_iff_eq_take.mp hbefore] at hrun
      rw [Append.run, hlBufferStr, hlen]
      exact hrun

theorem run_ok (ops : List Append) (h : Valid b) (hfits : b.text.length + (appended ops).length < 2 ^ 30) :
    ∃ b', ops.foldlM Append.run b = .ok b' ∧ Valid b' ∧ b'.text = b.text ++ appended ops := by
  induction ops generalizing b with
  | nil => exact ⟨b, rfl, h, (List.append_nil _).symm⟩
  | cons op ops ih =>
    rw [appended, List.flatMap_cons, List.length_append] at hfits
    obtain ⟨b₁, hrun, hvalid, htext, -⟩ := append_ok op h (by omega)
    have hlength : b₁.text.length = b.text.length + op.text.length := by rw [htext, List.length_append]
    obtain ⟨b₂, hruns, hvalid₂, htext₂⟩ := ih hvalid (by rw [appended]; omega)
    refine ⟨b₂, ?_, hvalid₂, ?_⟩
    · rw [List.foldlM_cons, hrun]
      exact hruns
    · rw [htext₂, htext, List.append_assoc]
      rfl

theorem hlAllocBuffer_valid : Valid hlAllocBuffer :=
  ⟨fun _ h => absurd h List.not_mem_nil, rfl, by decide, .inl rfl⟩

theorem copyBack_ok (data : List StringItem) : ∀ (buf : Units) {s : Nat}, (chunksText data).length = s →
    s ≤ buf.size → s < 2 ^ 30 →
    ∃ buf', copyBack buf s data = .ok buf' ∧ buf'.size = buf.size ∧ buf'.text s = chunksText data ∧
      ∀ i, s ≤ i → buf'.unit i = buf.unit i := by
  induction data with
  | nil => exact fun buf {s} hs _ _ => ⟨buf, rfl, rfl, by rw [← hs]; rfl, fun _ _ => rfl⟩
  | cons it rest ih =>
    intro buf s hs hroom hfits
    rw [chunksText_cons, List.length_append, length_text] at hs
    have hcopy := memcpy_ok buf (s - it.len) it.len it.str.unit (by omega) (by omega)
    obtain ⟨buf', hback, hsize, htext, hkept⟩ := ih (⟨buf.size, fun i =>
        if s - it.len ≤ i ∧ i < s - it.len + it.len then it.str.unit (i - (s - it.len)) else buf.unit i⟩)
      (s := s - it.len) (by omega) (Nat.le_trans (Nat.sub_le _ _) hroom) (by omega)
    refine ⟨buf', ?_, hsize, ?_, fun i hi => ?_⟩
    · rw [copyBack, if_neg (by omega), hcopy]
      exact hback
    · rw [show s = s - it.len + it.len by omega, text_append (u := buf') it.str.unit (fun _ _ => rfl) fun i hi => ?_,
        htext, chunksText_cons]
      · rfl
      · rw [hkept _ (by omega)]
        show (if _ then _ else _) = _
        rw [if_pos (by omega), Nat.add_sub_cancel_left]
    · rw [hkept i (by omega)]
      exact if_neg (by omega)

theorem hlBufferContent_ok (fresh : Nat → UInt16) (h : Valid b) (hfits : b.text.length + 1 < 2 ^ 30) :
    ∃ buf, hlBufferContent fresh b = .ok (buf, b.text.length) ∧ buf.size = b.text.length + 1 ∧
      buf.text (b.text.length + 1) = b.text ++ [0] := by
  obtain ⟨buf, hback, hsize, htext, hkept⟩ := copyBack_ok b.data
    (⟨b.totlen + 1, Function.update fresh b.totlen 0⟩) h.total.symm (Nat.le_succ _)
    (by rw [h.total]; omega)
  have htotal := h.total
  refine ⟨buf, ?_, ?_, ?_⟩
  · rw [hlBufferContent, alloc_ok (by omega)]
    show (Units.store _ _ _ >>= _) = _
    rw [Units.store, if_pos (Nat.lt_succ_self _)]
    show (copyBack _ _ _ >>= _) = _
    rw [hback, ← htotal]
    rfl
  · rw [hsize, ← htotal]
  · rw [text_append (u := buf) (fun _ => 0) (fun _ _ => rfl) fun i hi => ?_, ← htotal, htext]
    · rfl
    · obtain rfl : i = 0 := by omega
      rw [Nat.add_zero, ← htotal, hkept _ (Nat.le_refl _)]
      exact Function.update_self b.totlen 0 fresh

end HashLink.StringBuffer
