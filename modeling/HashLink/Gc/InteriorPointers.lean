import HashLink.Gc.AllocatorSafety

/-! From an address to a block. A page of a variable partition knows the lengths of its blocks, and the lookup of an
interior pointer goes back over the table to the start of a block; a page of single blocks has no table, and every
block of it is taken for an allocated one. An address is its distance from the base of the page. -/

namespace HashLink.Gc

open Outcome

namespace GcPage

/-- `size_bits`: set for blocks of a power of two. -/
def sizeBits (block : Nat) : Nat :=
  let bits := ((List.range 32).find? fun bits => block ≤ 1 <<< bits).getD 0
  if block = 1 <<< bits then bits else 0

def gcAllocatorGetBlockId (p : GcPage) (offset : Nat) : Except AllocError (Option Nat) :=
  let bits := sizeBits p.blockSize
  let bid := if bits ≠ 0 then offset >>> bits else offset / p.blockSize
  if (if bits ≠ 0 then bid <<< bits else bid * p.blockSize) ≠ offset then .ok none
  else if p.maxBlocks ≤ bid then .ok none
  else
    match p.sizes with
    | none => .ok (some bid)
    | some sizes =>
      if bid < p.firstBlock then .ok none
      else
        match sizes[bid]? with
        | none => .error .badAccess
        | some size => if size = 0 then .ok none else .ok (some bid)

/-- The loop of `gc_allocator_get_block_interior`: where it stops, and the size it finds there. -/
def interiorLoop (sizes : List Nat) (first bid : Nat) : Except AllocError (Option (Nat × Nat)) :=
  match sizes[bid]? with
  | none => .error .badAccess
  | some size =>
    if size = 0 then
      if bid = first then .ok none
      else if bid = 0 then .error .badAccess
      else interiorLoop sizes first (bid - 1)
    else .ok (some (bid, size))
termination_by bid

def gcAllocatorGetBlockInterior (p : GcPage) (offset : Nat) : Except AllocError (Option Nat) :=
  let start := offset / p.blockSize
  if p.maxBlocks ≤ start then .ok none
  else
    match p.sizes with
    | none => .ok (some start)
    | some sizes =>
      if start < p.firstBlock then .ok none
      else do
        match ← interiorLoop sizes p.firstBlock start with
        | none => .ok none
        | some (bid, size) => if size ≤ start - bid then .ok none else .ok (some bid)

/-- One turn of the loop of `gc_call_finalizers`. -/
def finalizeBlock (bmp : List Bool) (sizes : List Nat) (bid : Nat) : List Nat :=
  if sizes.getD bid 0 = 0 then sizes else if bmp.getD bid false then sizes else sizes.set bid 0

/-- `gc_call_finalizers` on a page: the unmarked blocks are finalized, and their lengths are cleared. -/
def gcCallFinalizers (p : GcPage) : Except AllocError GcPage :=
  match p.sizes, p.bmp with
  | some sizes, some bmp =>
    .ok { p with
      sizes := some ((List.range' p.firstBlock (p.maxBlocks - p.firstBlock)).foldl (finalizeBlock bmp) sizes)
      blocks := p.blocks.filter fun b => bmp.getD b.run.pos false }
  | _, _ => .error .badAccess

def markFound (p : GcPage) (bid : Nat) : GcPage := { p with bmp := p.bmp.map fun bmp => bmp.set bid true }

end GcPage

/-- The allocator after any run of its events, with the marks of a conservative scan and the finalizers. -/
inductive Reached : Allocator → Prop
  | start : Reached Allocator.start
  | step {s s' : Allocator} {handed : Option Allocator.Handed} (memory : Nat → Bool) (e : Event) (h : Reached s)
      (hstep : s.step memory e = .ok (s', handed)) : Reached s'
  | markInterior {s : Allocator} {p : GcPage} {bid : Nat} (id offset : Nat) (h : Reached s)
      (hp : s.pages[id]? = some p) (hfound : p.gcAllocatorGetBlockInterior offset = .ok (some bid)) :
      Reached (s.setPage id (p.markFound bid))
  | finalize {s : Allocator} {p q : GcPage} (id : Nat) (h : Reached s) (hp : s.pages[id]? = some p)
      (hkind : p.pid.kind = .finalizer) (hq : p.gcCallFinalizers = .ok q) : Reached (s.setPage id q)

namespace GcPage

variable {p q : GcPage} {sizes : List Nat} {offset bid : Nat}

theorem length_finalizeBlock (bmp : List Bool) (sizes : List Nat) (bid : Nat) :
    (finalizeBlock bmp sizes bid).length = sizes.length := by
  unfold finalizeBlock
  split
  · rfl
  · split
    · rfl
    · exact List.length_set

theorem getElem?_finalizeBlock (bmp : List Bool) (sizes : List Nat) (bid x : Nat) (hx : x < sizes.length) :
    (finalizeBlock bmp sizes bid)[x]? =
      if x = bid ∧ bmp.getD bid false = false then some 0 else sizes[x]? := by
  unfold finalizeBlock
  split
  · rename_i hzero
    split
    · rename_i hclear
      rw [← hclear.1, List.getD_eq_getElem?_getD] at hzero
      rw [List.getElem?_eq_getElem hx] at hzero ⊢
      exact congrArg some hzero
    · rfl
  · cases hmarked : bmp.getD bid false with
    | true => simp
    | false =>
      by_cases heq : x = bid
      · subst heq
        rw [if_neg Bool.false_ne_true, if_pos ⟨rfl, rfl⟩, List.getElem?_set_self hx]
      · rw [if_neg Bool.false_ne_true, if_neg fun h => heq h.1, List.getElem?_set_ne (Ne.symm heq)]

theorem length_finalized (bmp : List Bool) (bids sizes : List Nat) :
    (bids.foldl (finalizeBlock bmp) sizes).length = sizes.length := by
  induction bids generalizing sizes with
  | nil => rfl
  | cons bid bids ih => exact (ih _).trans (length_finalizeBlock bmp sizes bid)

theorem getElem?_finalized (bmp : List Bool) (bids sizes : List Nat) (x : Nat) (hx : x < sizes.length) :
    (bids.foldl (finalizeBlock bmp) sizes)[x]? =
      if x ∈ bids ∧ bmp.getD x false = false then some 0 else sizes[x]? := by
  induction bids generalizing sizes with
  | nil => simp
  | cons bid bids ih =>
    rw [List.foldl_cons, ih _ ((length_finalizeBlock bmp sizes bid).symm ▸ hx),
      getElem?_finalizeBlock bmp sizes bid x hx]
    by_cases heq : x = bid
    · subst heq
      cases bmp.getD x false <;> simp
    · simp [heq]

theorem Small.finalized (h : p.Small) (hq : p.gcCallFinalizers = .ok q) : q.Small := by
  unfold gcCallFinalizers at hq
  split at hq
  · rename_i sizes bmp hsizes hbmp
    cases hq
    have hsub : (p.blocks.filter fun b => bmp.getD b.run.pos false).Sublist p.blocks := List.filter_sublist
    have hsized := h.sized sizes hsizes
    have hget : ∀ x, x < p.maxBlocks →
        ((List.range' p.firstBlock (p.maxBlocks - p.firstBlock)).foldl (finalizeBlock bmp) sizes)[x]? =
          if x ∈ List.range' p.firstBlock (p.maxBlocks - p.firstBlock) ∧ bmp.getD x false = false then some 0
          else sizes[x]? := fun x hx => getElem?_finalized bmp _ sizes x (hsized.length.symm ▸ hx)
    refine ⟨h.part, h.range, h.sorted, h.runsIn, fun b hb => h.blocksIn b (hsub.subset hb), h.disjoint.sublist hsub,
      fun b hb => h.apart b (hsub.subset hb), ?_, fun hnone => (by cases hnone), ?_, h.bits, h.flush⟩
    · rintro l ⟨⟩
      refine ⟨(length_finalized bmp _ sizes).trans hsized.length, fun b hb _ => ?_, fun x hx hx' hnone => ?_⟩
      · obtain ⟨hb, hmarked⟩ := List.mem_filter.mp hb
        obtain ⟨hcount, -, hstop⟩ := h.blocksIn b hb
        rw [hget _ (by rw [Run.stop] at hstop; omega), if_neg fun hc => by rw [hmarked] at hc; cases hc.2]
        exact hsized.start b hb trivial
      · rw [hget x hx']
        split
        · rfl
        · rename_i hkept
          refine hsized.other x hx hx' fun b hb _ heq => hkept ⟨?_, ?_⟩
          · have hlow : p.firstBlock ≤ x := hx
            have hhigh : x < p.maxBlocks := hx'
            rw [List.mem_range'_1]
            omega
          · rw [← Bool.not_eq_true]
            intro hmarked
            exact hnone b (List.mem_filter.mpr ⟨hb, heq ▸ hmarked⟩) trivial heq
    · rw [← h.varsize, hsizes]
      rfl
  · cases hq

theorem Ok.finalized (h : p.Ok) (hq : p.gcCallFinalizers = .ok q) :
    q.Ok ∧ q.pid = p.pid ∧ q.nextPage = p.nextPage := by
  rcases h with h | h
  · refine ⟨.inl (h.finalized hq), ?_⟩
    unfold gcCallFinalizers at hq
    split at hq
    · cases hq
      exact ⟨rfl, rfl⟩
    · cases hq
  · rw [gcCallFinalizers, h.sizes] at hq
    cases hq

theorem Ok.markFound (h : p.Ok) (bid : Nat) : (p.markFound bid).Ok := by
  obtain ⟨hbits, hflush⟩ := Allocator.bits_of_ok h
  refine Allocator.ok_setBits h (fun l hl => ?_) fun hneed => ?_
  · obtain ⟨bmp, hbmp, rfl⟩ := Option.map_eq_some_iff.mp hl
    rw [List.length_set]
    exact hbits bmp hbmp
  · rw [Option.isSome_map]
    exact hflush hneed

theorem interiorLoop_spec {first last : Nat} {blocks : List Block}
    (hsized : Sized first last blocks (fun _ => True) sizes)
    (hblocks : ∀ b ∈ blocks, 0 < b.run.count ∧ first ≤ b.run.pos ∧ b.run.stop ≤ last) (hfirst : first ≤ bid)
    (hlast : bid < last) :
    (interiorLoop sizes first bid = .ok none ∧ ∀ b ∈ blocks, bid < b.run.pos) ∨
      ∃ b ∈ blocks, interiorLoop sizes first bid = .ok (some (b.run.pos, b.run.count)) ∧ b.run.pos ≤ bid ∧
        ∀ b' ∈ blocks, b'.run.pos ≤ bid → b'.run.pos ≤ b.run.pos := by
  induction bid using Nat.strongRecOn with
  | _ bid ih =>
    rw [interiorLoop]
    by_cases hstart : ∃ b ∈ blocks, b.run.pos = bid
    · obtain ⟨b, hb, rfl⟩ := hstart
      rw [hsized.start b hb trivial]
      dsimp only
      rw [if_neg (Nat.ne_of_gt (hblocks b hb).1)]
      exact .inr ⟨b, hb, rfl, Nat.le_refl _, fun b' _ hle => hle⟩
    · have hno : ∀ b ∈ blocks, b.run.pos ≠ bid := fun b hb heq => hstart ⟨b, hb, heq⟩
      rw [hsized.other bid hfirst hlast fun b hb _ => hno b hb]
      dsimp only
      rw [if_pos rfl]
      by_cases heq : bid = first
      · refine .inl ⟨if_pos heq, fun b hb => ?_⟩
        have hge := (hblocks b hb).2.1
        have hne := hno b hb
        omega
      · rw [if_neg heq, if_neg (by omega)]
        rcases ih (bid - 1) (by omega) (by omega) (by omega) with ⟨hloop, hafter⟩ | ⟨b, hb, hloop, hle, hmost⟩
        · refine .inl ⟨hloop, fun b hb => ?_⟩
          have hlt := hafter b hb
          have hne := hno b hb
          omega
        · refine .inr ⟨b, hb, hloop, by omega, fun b' hb' hle' => hmost b' hb' ?_⟩
          have hne := hno b' hb'
          omega

/-- What the lookups find at an address of a page. -/
structure Resolves (p : GcPage) (offset : Nat) (interior exact : Option Nat) : Prop where
  covered : ∀ b ∈ p.blocks, b.run.pos * p.blockSize ≤ offset → offset < b.run.stop * p.blockSize →
    interior = some b.run.pos
  sized : p.sizes.isSome = true → ∀ bid, interior = some bid →
    ∃ b ∈ p.blocks, b.run.pos = bid ∧ b.run.pos * p.blockSize ≤ offset ∧ offset < b.run.stop * p.blockSize
  single : p.sizes = none → ∀ bid, interior = some bid ↔
    bid < p.maxBlocks ∧ bid * p.blockSize ≤ offset ∧ offset < (bid + 1) * p.blockSize
  agree : ∀ bid, exact = some bid ↔ interior = some bid ∧ bid * p.blockSize = offset

theorem sizeBits_eq {block : Nat} (h : sizeBits block ≠ 0) : block = 2 ^ sizeBits block := by
  unfold sizeBits at h ⊢
  dsimp only at h ⊢
  split at h
  · rename_i hblock
    rw [if_pos hblock]
    rwa [Nat.one_shiftLeft] at hblock
  · exact absurd rfl h

theorem getBlockId_eq (p : GcPage) (offset : Nat) : p.gcAllocatorGetBlockId offset =
    if offset / p.blockSize * p.blockSize ≠ offset then .ok none
    else if p.maxBlocks ≤ offset / p.blockSize then .ok none
    else
      match p.sizes with
      | none => .ok (some (offset / p.blockSize))
      | some sizes =>
        if offset / p.blockSize < p.firstBlock then .ok none
        else
          match sizes[offset / p.blockSize]? with
          | none => .error .badAccess
          | some size => if size = 0 then .ok none else .ok (some (offset / p.blockSize)) := by
  unfold gcAllocatorGetBlockId
  dsimp only
  by_cases hbits : sizeBits p.blockSize ≠ 0
  · rw [if_pos hbits, if_pos hbits, Nat.shiftRight_eq_div_pow, Nat.shiftLeft_eq, ← sizeBits_eq hbits]
  · rw [if_neg hbits, if_neg hbits]

theorem covers_iff (hsize : 0 < p.blockSize) (a b : Nat) :
    a * p.blockSize ≤ offset ∧ offset < b * p.blockSize ↔ a ≤ offset / p.blockSize ∧ offset / p.blockSize < b :=
  and_congr (Nat.le_div_iff_mul_le hsize).symm (Nat.div_lt_iff_lt_mul hsize).symm

theorem start_iff (hsize : 0 < p.blockSize) :
    bid * p.blockSize = offset ↔ offset / p.blockSize * p.blockSize = offset ∧ bid = offset / p.blockSize := by
  constructor
  · rintro rfl
    rw [Nat.mul_div_cancel bid hsize]
    exact ⟨rfl, rfl⟩
  · rintro ⟨hstart, rfl⟩
    exact hstart

theorem resolves_single (hnone : p.sizes = none) (hsize : 0 < p.blockSize)
    (hblocks : ∀ b ∈ p.blocks, b.run.count = 1 ∧ b.run.stop ≤ p.maxBlocks) (offset : Nat) :
    ∃ interior exact, p.gcAllocatorGetBlockInterior offset = .ok interior ∧
      p.gcAllocatorGetBlockId offset = .ok exact ∧ p.Resolves offset interior exact := by
  rw [getBlockId_eq, gcAllocatorGetBlockInterior, hnone]
  dsimp only
  by_cases hmax : p.maxBlocks ≤ offset / p.blockSize
  · rw [if_pos hmax, ite_self]
    refine ⟨none, none, rfl, rfl, fun b hb hlow hhigh => ?_, fun _ _ h => (by cases h), fun _ bid => ?_,
      fun bid => iff_of_false nofun fun h => (by cases h.1)⟩
    · have hcover := (covers_iff hsize _ _).mp ⟨hlow, hhigh⟩
      have hstop := (hblocks b hb).2
      omega
    · rw [covers_iff hsize]
      refine iff_of_false nofun fun h => ?_
      omega
  · rw [if_neg hmax]
    refine ⟨some (offset / p.blockSize), if offset / p.blockSize * p.blockSize ≠ offset then none
      else some (offset / p.blockSize), rfl, by split <;> rfl, fun b hb hlow hhigh => ?_, ?_, fun _ bid => ?_,
      fun bid => ?_⟩
    · have hcover := (covers_iff hsize _ _).mp ⟨hlow, hhigh⟩
      have hcount := (hblocks b hb).1
      rw [Run.stop, hcount] at hcover
      exact congrArg some (by omega)
    · intro hsome
      rw [hnone] at hsome
      cases hsome
    · rw [covers_iff hsize, Option.some_inj]
      omega
    · have hiff := @start_iff p offset bid hsize
      split
      · rename_i hne
        exact iff_of_false nofun fun h => hne (hiff.mp h.2).1
      · rename_i hstart
        rw [hiff, Option.some_inj]
        exact ⟨fun h => ⟨h, Decidable.not_not.mp hstart, h.symm⟩, fun h => h.1⟩

theorem Small.getBlockId (h : p.Small) (hsizes : p.sizes = some sizes) (hsize : 0 < p.blockSize) (offset : Nat) :
    ∃ exact, p.gcAllocatorGetBlockId offset = .ok exact ∧
      ∀ bid, exact = some bid ↔ bid * p.blockSize = offset ∧ ∃ b ∈ p.blocks, b.run.pos = bid := by
  have hsized := h.sized sizes hsizes
  rw [getBlockId_eq, hsizes]
  dsimp only
  by_cases hstart : offset / p.blockSize * p.blockSize = offset
  · rw [if_neg (not_not_intro hstart)]
    by_cases hblock : ∃ b ∈ p.blocks, b.run.pos = offset / p.blockSize
    · obtain ⟨b, hb, hpos⟩ := hblock
      obtain ⟨hcount, hlow, hhigh⟩ := h.blocksIn b hb
      rw [Run.stop] at hhigh
      rw [if_neg (by omega), if_neg (by omega), ← hpos, hsized.start b hb trivial]
      dsimp only
      rw [if_neg (Nat.ne_of_gt hcount)]
      refine ⟨some b.run.pos, rfl, fun bid => ?_⟩
      rw [start_iff hsize, ← hpos, Option.some_inj]
      exact ⟨fun heq => ⟨⟨hpos ▸ hstart, heq.symm⟩, b, hb, heq⟩, fun hbid => hbid.1.2.symm⟩
    · have hnever : ∀ bid, ¬(bid * p.blockSize = offset ∧ ∃ b ∈ p.blocks, b.run.pos = bid) := by
        rintro bid ⟨hbid, b, hb, hpos⟩
        exact hblock ⟨b, hb, hpos.trans ((start_iff hsize).mp hbid).2⟩
      refine ⟨none, ?_, fun bid => iff_of_false (fun h => by cases h) (hnever bid)⟩
      by_cases hmax : p.maxBlocks ≤ offset / p.blockSize
      · exact if_pos hmax
      · rw [if_neg hmax]
        by_cases hfirst : offset / p.blockSize < p.firstBlock
        · exact if_pos hfirst
        · rw [if_neg hfirst, hsized.other (offset / p.blockSize) (by omega) (by omega)
            fun b hb _ heq => hblock ⟨b, hb, heq⟩]
          rfl
  · rw [if_pos hstart]
    refine ⟨none, rfl, fun bid => iff_of_false (fun h => by cases h) fun hbid => hstart ((start_iff hsize).mp hbid.1).1⟩

theorem Small.getBlockInterior (h : p.Small) (hsizes : p.sizes = some sizes) (hsize : 0 < p.blockSize) (offset : Nat) :
    ∃ interior, p.gcAllocatorGetBlockInterior offset = .ok interior ∧ ∀ bid, interior = some bid ↔
      ∃ b ∈ p.blocks, b.run.pos = bid ∧ b.run.pos * p.blockSize ≤ offset ∧ offset < b.run.stop * p.blockSize := by
  have hsized := h.sized sizes hsizes
  simp only [covers_iff hsize]
  rw [gcAllocatorGetBlockInterior, hsizes]
  dsimp only
  by_cases hrange : p.firstBlock ≤ offset / p.blockSize ∧ offset / p.blockSize < p.maxBlocks
  · rw [if_neg (by omega), if_neg (by omega)]
    rcases interiorLoop_spec hsized h.blocksIn hrange.1 hrange.2 with ⟨hloop, hafter⟩ | ⟨b, hb, hloop, hle, hmost⟩
    · rw [hloop]
      refine ⟨none, rfl, fun bid => iff_of_false (fun h => by cases h) ?_⟩
      rintro ⟨b, hb, -, hlow, -⟩
      exact absurd (hafter b hb) (Nat.not_lt.mpr hlow)
    · -- another block that covers the address would start after this one
      have honly : ∀ b' ∈ p.blocks, b'.run.pos ≤ offset / p.blockSize → offset / p.blockSize < b'.run.stop →
          b'.run.pos = b.run.pos ∧ offset / p.blockSize < b.run.stop := by
        intro b' hb' hlow hhigh
        have hle' := hmost b' hb' hlow
        have hcount := (h.blocksIn b hb).1
        by_cases heq : b' = b
        · exact heq ▸ ⟨rfl, hhigh⟩
        · rcases (h.sweep []).disjoint b' hb' b hb heq with hbefore | hbefore
          · rw [Run.Before] at hbefore
            omega
          · rw [Run.Before, Run.stop] at hbefore
            omega
      rw [hloop]
      dsimp only [bind, Except.bind]
      by_cases hin : offset / p.blockSize < b.run.stop
      · rw [Run.stop] at hin
        rw [if_neg (by omega)]
        refine ⟨some b.run.pos, rfl, fun bid => ?_⟩
        rw [Option.some_inj]
        refine ⟨fun heq => ⟨b, hb, heq, hle, hin⟩, ?_⟩
        rintro ⟨b', hb', hpos, hlow, hhigh⟩
        exact (honly b' hb' hlow hhigh).1.symm.trans hpos
      · rw [if_pos (by rw [Run.stop] at hin; omega)]
        refine ⟨none, rfl, fun bid => iff_of_false (fun h => by cases h) ?_⟩
        rintro ⟨b', hb', -, hlow, hhigh⟩
        exact hin (honly b' hb' hlow hhigh).2
  · refine ⟨none, ?_, fun bid => iff_of_false (fun h => by cases h) ?_⟩
    · by_cases hmax : p.maxBlocks ≤ offset / p.blockSize
      · exact if_pos hmax
      · rw [if_neg hmax, if_pos (by omega)]
    · rintro ⟨b, hb, -, hlow, hhigh⟩
      obtain ⟨-, hfirst, hlast⟩ := h.blocksIn b hb
      omega

theorem Ok.resolves (h : p.Ok) (hsize : 0 < p.blockSize) (offset : Nat) :
    ∃ interior exact, p.gcAllocatorGetBlockInterior offset = .ok interior ∧
      p.gcAllocatorGetBlockId offset = .ok exact ∧ p.Resolves offset interior exact := by
  rcases h with h | h
  · cases hsizes : p.sizes with
    | none =>
      exact resolves_single hsizes hsize (fun b hb => ⟨(h.single hsizes).1 b hb, (h.blocksIn b hb).2.2⟩) offset
    | some sizes =>
      obtain ⟨interior, hinterior, hcovered⟩ := h.getBlockInterior hsizes hsize offset
      obtain ⟨exact, hexact, hstart⟩ := h.getBlockId hsizes hsize offset
      refine ⟨interior, exact, hinterior, hexact, fun b hb hlow hhigh => (hcovered _).mpr ⟨b, hb, rfl, hlow, hhigh⟩,
        fun _ bid hbid => (hcovered bid).mp hbid, fun hnone => ?_, fun bid => ?_⟩
      · rw [hsizes] at hnone
        cases hnone
      · rw [hstart, hcovered, and_comm]
        refine and_congr_left fun hoffset => ⟨fun ⟨b, hb, hpos⟩ => ⟨b, hb, hpos, ?_, ?_⟩,
          fun ⟨b, hb, hpos, _⟩ => ⟨b, hb, hpos⟩⟩
        · rw [hpos, hoffset]
        · have hcount := (h.blocksIn b hb).1
          rw [← hoffset, ← hpos]
          exact Nat.mul_lt_mul_of_pos_right (Nat.lt_add_of_pos_right hcount) hsize
  · refine resolves_single h.sizes hsize (fun b hb => ?_) offset
    rw [h.blocks b hb, h.max]
    exact ⟨rfl, Nat.le_refl 1⟩

end GcPage

namespace Allocator

def BlocksSized (s : Allocator) : Prop := ∀ p ∈ s.pages, 0 < p.blockSize

abbrev Leaves {α : Type} (P : α → Prop) : Except AllocError α → Prop := Outcome.Meets (fun _ => True) P

variable {s : Allocator} {take first : GcPage → Option (GcPage × Run)}

theorem BlocksSized.setPage (h : s.BlocksSized) {id : Nat} {p : GcPage} (hp : 0 < p.blockSize) :
    (s.setPage id p).BlocksSized := fun _ hq =>
  (List.mem_or_eq_of_mem_set hq).elim (h _) fun heq => heq ▸ hp

theorem leaves_flushed {p : GcPage} (hp : 0 < p.blockSize) : Leaves (fun q => 0 < q.blockSize) p.flushed := by
  unfold GcPage.flushed GcPage.flushFreeList
  split
  · split
    · trivial
    · exact hp
  · exact hp

theorem leaves_walkPages (htake : ∀ p q run, take p = some (q, run) → q.blockSize = p.blockSize)
    (h : s.BlocksSized) (ids : List Nat) :
    Leaves (fun result => result.1.BlocksSized ∧ ∀ id p run, result.2 = some (id, p, run) → 0 < p.blockSize)
      (walkPages take s ids) := by
  induction ids generalizing s with
  | nil => exact ⟨h, fun id p run heq => (by cases heq)⟩
  | cons id ids ih =>
    rw [walkPages]
    split
    · trivial
    · rename_i p hp
      refine meets_bind (leaves_flushed (h p (List.mem_of_getElem? hp))) fun q hq => ?_
      split
      · rename_i p' run htook
        refine ⟨h, fun id' p'' run' heq => ?_⟩
        cases heq
        exact htake q p' run htook ▸ hq
      · exact ih (h.setPage hq)

variable {memory : Nat → Bool}

theorem leaves_newPage (h : s.BlocksSized) (pid : Pid) {block : Nat} (size : Nat) (varsize : Bool)
    (hblock : 0 < block) :
    Leaves (fun result => result.1.BlocksSized) (gcAllocatorNewPage memory s pid block size varsize) := by
  rw [gcAllocatorNewPage]
  split
  · trivial
  · split
    · trivial
    · intro p hp
      rcases List.mem_append.mp hp with hp | hp
      · exact h p hp
      · exact List.mem_singleton.mp hp ▸ hblock

theorem leaves_findPage (htake : ∀ p q run, take p = some (q, run) → q.blockSize = p.blockSize)
    (hfirst : ∀ p q run, first p = some (q, run) → q.blockSize = p.blockSize) (h : s.BlocksSized) (pid : Pid)
    {block : Nat} (size : Nat) (varsize : Bool) (hblock : 0 < block) :
    Leaves (fun result => result.1.BlocksSized ∧ 0 < result.2.2.1.blockSize)
      (findPage memory s pid take first block size varsize) := by
  rw [findPage]
  refine meets_bind (leaves_walkPages htake h _) ?_
  rintro ⟨s', found⟩ ⟨hs', hfound⟩
  split
  · rename_i heq
    cases heq
    exact ⟨hs', hfound _ _ _ rfl⟩
  · rename_i heq
    cases heq
    refine meets_bind (leaves_newPage hs' pid size varsize hblock) ?_
    rintro ⟨s'', id⟩ hs''
    dsimp only
    split
    · rename_i p run hgot
      obtain ⟨q, hq, hp⟩ := Option.bind_eq_some_iff.mp hgot
      exact ⟨hs'', hfirst q p run hp ▸ hs'' q (List.mem_of_getElem? hq)⟩
    · trivial

theorem takeFixed_blockSize (want : Nat) (p q : GcPage) (run : Run) (h : p.takeFixed want = some (q, run)) :
    q.blockSize = p.blockSize := by
  unfold GcPage.takeFixed at h
  split at h <;> cases h
  rfl

theorem takeFirst_blockSize (n : Nat) (p q : GcPage) (run : Run) (h : p.takeFirst n = some (q, run)) :
    q.blockSize = p.blockSize := by
  unfold GcPage.takeFirst at h
  split at h
  · split at h <;> cases h
    rfl
  · cases h

theorem takeVar_blockSize (n : Nat) (p q : GcPage) (run : Run) (h : p.takeVar n = some (q, run)) :
    q.blockSize = p.blockSize := by
  unfold GcPage.takeVar at h
  split at h
  · split at h <;> cases h
    rfl
  · cases h

theorem firstFixed_blockSize (want : Nat) (p q : GcPage) (run : Run) (h : firstFixed want p = some (q, run)) :
    q.blockSize = p.blockSize := by
  unfold firstFixed at h
  split at h
  · exact takeFirst_blockSize _ p q run h
  · cases h

theorem leaves_fixedRun (h : s.BlocksSized) (oc : Nat) {part : Nat} (kind : MemKind) (want : Nat)
    (hpart : 0 < gcSizes part) :
    Leaves (fun result => result.1.BlocksSized) (gcAllocFixedRun memory s oc part kind want) := by
  rw [gcAllocFixedRun]
  refine meets_bind (leaves_findPage (takeFixed_blockSize want) (firstFixed_blockSize want) h _ _ _ hpart) ?_
  rintro ⟨s', id, p, run⟩ ⟨hs', hp⟩
  dsimp only
  split
  · trivial
  · exact hs'.setPage hp

theorem leaves_allocVar (h : s.BlocksSized) (oc : Nat) {part : Nat} (size : Nat) (kind : MemKind)
    (hpart : 0 < gcSizes part) :
    Leaves (fun result => result.1.BlocksSized) (gcAllocVar memory s oc part size kind) := by
  rw [gcAllocVar]
  refine meets_bind (leaves_findPage (takeVar_blockSize _) (takeFirst_blockSize _) h _ _ _ hpart) ?_
  rintro ⟨s', id, p, run⟩ ⟨hs', hp⟩
  have hrecord : Leaves (fun q => 0 < q.blockSize) (p.recordVar run) := by
    unfold GcPage.recordVar
    split
    · trivial
    · split
      · exact hp
      · trivial
  exact meets_bind hrecord fun q hq => hs'.setPage hq

theorem leaves_alloc (h : s.BlocksSized) (size : Nat) (kind : MemKind) (oc : Nat) :
    Leaves (fun result => result.1.BlocksSized) (gcAllocatorAlloc memory s size kind oc) := by
  rw [gcAllocatorAlloc]
  split
  · exact h
  · dsimp only
    have hquery : ∀ sz block : Nat, 0 < block → sz ≤ query sz block := fun sz block hblock => (query_spec sz hblock).1
    split
    · rename_i hlarge
      have hpos : 0 < query (query size gcAlign) gcPageSize := by
        have hle := hquery (query size gcAlign) gcPageSize (by decide)
        have hlarge' : 1048576 ≤ query size gcAlign := hlarge
        omega
      refine meets_bind (leaves_newPage h _ _ false hpos) ?_
      rintro ⟨s', id⟩ hs'
      dsimp only
      split
      · rename_i p hp
        exact hs'.setPage (p := p.handOut ⟨0, 1⟩) (hs' p (List.mem_of_getElem? hp))
      · trivial
    · split
      · rename_i hfixed
        have hpart : ∀ part < 5, 0 < gcSizes part := by decide
        refine meets_bind (leaves_fixedRun h oc kind 1 (hpart _ ?_)) fun _ hs' => hs'
        have hle : query size gcAlign ≤ 40 := hfixed.1
        rw [gcAlign] at hle ⊢
        omega
      · split
        · rename_i part hfound
          have hpart : 0 < gcSizes part := by
            have hfits := List.find?_some hfound
            rw [decide_eq_true_iff] at hfits
            omega
          exact meets_bind (leaves_allocVar h oc _ kind hpart) fun _ hs' => hs'
        · trivial

theorem leaves_changePage (h : s.BlocksSized) (id : Nat) {f : GcPage → Except AllocError GcPage}
    (hf : ∀ p, 0 < p.blockSize → Leaves (fun q => 0 < q.blockSize) (f p)) :
    Leaves BlocksSized (s.changePage id f) := by
  unfold changePage
  split
  · rename_i p hp
    exact meets_bind (hf p (h p (List.mem_of_getElem? hp))) fun q hq => h.setPage hq
  · exact h

theorem leaves_step (h : s.BlocksSized) (memory : Nat → Bool) (e : Event) :
    Leaves (fun result => result.1.BlocksSized) (s.step memory e) := by
  cases e with
  | alloc size kind oc => exact leaves_alloc h size kind oc
  | reserve oc part kind =>
    have hpart : ∀ part : Fin 5, 0 < gcSizes part := by decide
    exact meets_bind (leaves_fixedRun h oc kind _ (hpart part)) fun _ hs' => hs'
  | mark id bid =>
    refine meets_bind (leaves_changePage h id fun p hp => ?_) fun _ hs' => hs'
    unfold markBlock
    split <;> exact hp
  | beforeMark =>
    intro p hp
    obtain ⟨q, hq, rfl⟩ := List.mem_map.mp hp
    exact h q hq
  | rebuild id => exact meets_bind (leaves_changePage h id fun p hp => leaves_flushed hp) fun _ hs' => hs'
  | prepare id =>
    exact meets_bind (leaves_changePage h id fun p hp => meets_bind (leaves_flushed hp) fun q hq => hq) fun _ hs' =>
      hs'
  | publish id =>
    refine meets_bind (leaves_changePage h id fun p hp => ?_) fun _ hs' => hs'
    unfold gcIncPublishMarks
    split <;> exact hp
  | cycle active => exact h

end Allocator

theorem Reached.ok {s : Allocator} (h : Reached s) : s.Ok ∧ s.BlocksSized := by
  induction h with
  | start => exact ⟨Allocator.ok_start, fun p hp => absurd hp List.not_mem_nil⟩
  | step memory e _ hstep ih =>
    have hok := ih.1.meets_step memory e
    have hsized := Allocator.leaves_step ih.2 memory e
    rw [hstep] at hok hsized
    exact ⟨hok.1, hsized⟩
  | @markInterior s p bid id offset _ hp _ ih =>
    have hsize : 0 < p.blockSize := ih.2 p (List.mem_of_getElem? hp)
    exact ⟨ih.1.setPage hp ((ih.1.pages id p hp).markFound bid) rfl rfl, ih.2.setPage hsize⟩
  | @finalize s p q id _ hp _ hq ih =>
    have hsize : 0 < p.blockSize := ih.2 p (List.mem_of_getElem? hp)
    obtain ⟨hok, hpid, hnext⟩ := (ih.1.pages id p hp).finalized hq
    refine ⟨ih.1.setPage hp hok hpid hnext, ih.2.setPage ?_⟩
    unfold GcPage.gcCallFinalizers at hq
    split at hq <;> cases hq
    exact hsize

/-- On a page with a table the interior lookup is exact; on every page it finds the block that covers the address, and
the exact lookup is the interior one at the starts of blocks. -/
theorem block_lookups_resolve {s : Allocator} (h : Reached s) {p : GcPage} (hp : p ∈ s.pages) (offset : Nat) :
    ∃ interior exact, p.gcAllocatorGetBlockInterior offset = .ok interior ∧
      p.gcAllocatorGetBlockId offset = .ok exact ∧ p.Resolves offset interior exact := by
  obtain ⟨id, hid⟩ := List.getElem?_of_mem hp
  exact (h.ok.1.pages id p hid).resolves (h.ok.2 p hp) offset

def firstPage : GcPage where
  pid := ⟨0, 0, .raw⟩
  blockSize := 8
  firstBlock := 0
  maxBlocks := 8192
  free := [⟨1, 8191⟩]
  current := 0
  sizes := none
  needFlush := false
  bmp := none
  nextPage := none
  blocks := [⟨⟨0, 1⟩, true⟩]

theorem firstPage_reached : ∃ s, Reached s ∧ s.pages = [firstPage] := by
  have hsize : Allocator.start.pageSize ⟨0, 0, .raw⟩ 8 gcPageSize = 65536 := by
    rw [Allocator.pageSize, if_pos (by decide), Allocator.growPage]
    rfl
  have hnew : Allocator.gcAllocatorNewPage (fun _ => true) Allocator.start ⟨0, 0, .raw⟩ 8 gcPageSize false =
      .ok ({ Allocator.start with
        pages := [Allocator.freshPage ⟨0, 0, .raw⟩ 8 8192 false false none]
        gcPages := Function.update (fun _ => none) ⟨0, 0, .raw⟩ (some 0) }, 0) := by
    rw [Allocator.gcAllocatorNewPage, hsize]
    rfl
  have hstep : Allocator.start.step (fun _ => true) (.alloc 8 .raw 0) = .ok
      ({ pages := [firstPage]
         gcPages := Function.update (fun _ => none) ⟨0, 0, .raw⟩ (some 0)
         gcFreePages := Function.update (fun _ => none) ⟨0, 0, .raw⟩ (some 0)
         incremental := false }, some ⟨0, ⟨0, 1⟩⟩) := by
    rw [Allocator.step, Allocator.gcAllocatorAlloc, if_neg (by decide)]
    dsimp only
    rw [if_neg (by decide), if_pos (by decide)]
    have hpart : Allocator.query 8 gcAlign / gcAlign - 1 = 0 := by decide
    rw [hpart, Allocator.gcAllocFixedRun, Allocator.findPage]
    change Except.bind (Except.bind (Except.bind (Allocator.gcAllocatorNewPage _ _ _ 8 _ _) _) _) _ = _
    rw [hnew]
    rfl
  exact ⟨_, .step _ _ .start hstep, rfl⟩

theorem firstPage_resolves : ∃ interior exact, firstPage.gcAllocatorGetBlockInterior 12 = .ok interior ∧
    firstPage.gcAllocatorGetBlockId 12 = .ok exact ∧ firstPage.Resolves 12 interior exact := by
  obtain ⟨s, hs, hpages⟩ := firstPage_reached
  exact block_lookups_resolve hs (hpages ▸ List.mem_singleton_self _) 12

/-- The second block of the page is free, and an address in it is resolved to it. -/
theorem free_block_found : ∃ s p offset bid, Reached s ∧ p ∈ s.pages ∧
    p.gcAllocatorGetBlockInterior offset = .ok (some bid) ∧
    ∀ b ∈ p.blocks, ¬(b.run.pos * p.blockSize ≤ offset ∧ offset < b.run.stop * p.blockSize) := by
  obtain ⟨s, hs, hpages⟩ := firstPage_reached
  refine ⟨s, firstPage, 12, 1, hs, hpages ▸ List.mem_singleton_self _, rfl, fun b hb hcover => ?_⟩
  cases List.mem_singleton.mp hb
  exact absurd hcover.2 (by decide)

end HashLink.Gc
