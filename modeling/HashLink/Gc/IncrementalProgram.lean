import HashLink.Gc.IncrementalAlloc

/-! The stores of the program and the pages it maps keep the invariant of a cycle. -/

namespace HashLink.Gc

namespace GcInc

variable {s s' : GcInc} {id : Nat} {p : IncPage} {b t : BlockRef}

/-- What a capture or a barrier does: pages become dirty. -/
structure Catches (s s' : GcInc) : Prop where
  traces : s.Traces s'
  queues : s'.Queues
  traced : s'.Traced
  batch : s'.batch = s.batch

theorem Catches.refl (hq : s.Queues) (htr : s.Traced) : s.Catches s := ⟨.refl s, hq, htr, rfl⟩

theorem Catches.trans {r : GcInc} (h : s.Catches s') (h' : s'.Catches r) : s.Catches r :=
  ⟨h.traces.trans h'.traces, h'.queues, h'.traced, h'.batch.trans h.batch⟩

theorem dirtyEnqueue_eq (s : GcInc) (id : Nat) :
    (s.dirtyEnqueue id = s ∧ ∀ p, s.pages[id]? = some p → p.shape.hasPtr = true → p.dirty = true) ∨
      s.dirtyEnqueue id =
        { s.modifyPage id fun p => p.setDirty true with incoming := id :: s.incoming } := by
  unfold dirtyEnqueue
  cases hp : s.pages[id]? with
  | none => exact .inl ⟨rfl, fun p hp' => by cases hp'⟩
  | some p =>
    simp only
    split
    · rename_i hskip
      refine .inl ⟨rfl, fun q hq hptr => ?_⟩
      cases hq
      exact hskip.resolve_left (not_not_intro hptr)
    · exact .inr rfl

theorem catches_dirtyEnqueue (hq : s.Queues) (htr : s.Traced) (id : Nat) :
    s.Catches (s.dirtyEnqueue id) := by
  rcases dirtyEnqueue_eq s id with ⟨heq, -⟩ | heq
  · rw [heq]
    exact .refl hq htr
  · rw [heq]
    have hmodify := Traces.modifyPage s id fun p _ => p.keeps_setDirty true
    have ht : s.Traces
        { s.modifyPage id fun p => p.setDirty true with incoming := id :: s.incoming } :=
      hmodify.setLists _ _ _ _ _ _ _
    have hold : ∀ b, GcInc.Marked
        { s.modifyPage id fun p => p.setDirty true with incoming := id :: s.incoming } b →
        s.Marked b := fun b h =>
      marked_of_modifyPage (f := fun p => p.setDirty true) (fun p => ⟨rfl, rfl⟩) h
    refine ⟨ht, ?_, ?_, rfl⟩
    · exact queues_setDirty hq ht rfl rfl rfl (fun n _ hn => hn.imp_left (List.mem_cons_of_mem id))
        fun _ => .inl List.mem_cons_self
    · refine htr.step ht fun b i hb _ _ => .inr ⟨hold b hb, fun hpending => .inr ?_⟩
      rcases hpending with hmem | hcursor | hmem | hrest
      · exact .inl hmem
      · exact .inr (.inl hcursor)
      · exact .inr (.inr (.inl (List.mem_cons_of_mem id hmem)))
      · exact .inr (.inr (.inr hrest))

theorem mem_dirtyEnqueue (hq : s.Queues) (hp : s.pages[id]? = some p) (hptr : p.shape.hasPtr = true) :
    id ∈ (s.dirtyEnqueue id).incoming ∨ id ∈ (s.dirtyEnqueue id).batch := by
  rcases dirtyEnqueue_eq s id with ⟨heq, hdirty⟩ | heq
  · rw [heq]
    exact hq.dirty id p hp (hdirty p hp hptr)
  · rw [heq]
    exact .inl List.mem_cons_self

theorem Cycle.store (h : s.Cycle) (hactive : s.active = true) (id i v : Nat) :
    (s.store id i v).Cycle := by
  have hcatches := catches_dirtyEnqueue h.queues h.traced id
  have hqueued : ∀ p, s.pages[id]? = some p → p.shape.hasPtr = true →
      id ∈ (s.dirtyEnqueue id).incoming ∨ id ∈ (s.dirtyEnqueue id).batch :=
    fun p hp => mem_dirtyEnqueue h.queues hp
  have heq : s.store id i v = { s.dirtyEnqueue id with
      mem := Function.update s.mem id (Function.update (s.mem id) i v) } := by
    unfold GcInc.store
    rw [if_pos hactive]
  rw [heq]
  have hcycle := h.traces hcatches.traces hcatches.queues hcatches.traced
  have hmem := hcatches.traces.mem
  have hptr : ∀ b, (s.dirtyEnqueue id).HasPtr b → s.HasPtr b := fun b hb =>
    hcatches.traces.hasPtr.mp hb
  generalize s.dirtyEnqueue id = r at hcycle hqueued hmem hptr
  have hq := hcycle.queues
  refine ⟨⟨hcycle.heap.epochs, hcycle.heap.ok, hcycle.heap.listed⟩,
    ⟨hq.ready, hq.dirty, hq.queued, hq.stack, hq.cursor⟩, fun b hb hhas j hj => ?_, hcycle.prepared⟩
  by_cases hid : b.1 = id
  · right
    obtain ⟨p, hp, hhas⟩ := hptr b hhas
    rw [hid] at hp
    rcases hqueued p hp hhas with hmem | hmem
    · exact .inr (.inr (.inl (hid.symm ▸ hmem)))
    · exact .inr (.inr (.inr (.inl (hid.symm ▸ hmem))))
  · have hword : GcInc.word { r with
        mem := Function.update s.mem id (Function.update (s.mem id) i v) } b j = r.word b j := by
      unfold word
      simp only [Function.update_of_ne hid, hmem]
    rw [hword]
    exact hcycle.traced b hb hhas j hj

theorem gcSizes_align {part : Nat} (hpart : part < gcLargePart) : 8 ∣ gcSizes part := by
  simp only [gcLargePart] at hpart
  interval_cases part <;> decide

theorem ok_bornPage {pid : Pid} {base size : Nat} (hpart : pid.part ≤ gcLargePart)
    (hdvd : gcPageSize ∣ size) (hroom : (s.bornPage pid base size).page.firstBlock <
      (s.bornPage pid base size).page.maxBlocks) : (s.bornPage pid base size).Ok := by
  by_cases hlarge : pid.part = gcLargePart
  · have hvar : decide (gcFixedParts ≤ pid.part ∧ pid.part < gcLargePart) = false := by
      simp [hlarge]
    simp only [bornPage, if_pos hlarge, hvar] at hroom ⊢
    have hone : size / size = 1 := by
      refine Nat.div_self (Nat.pos_of_ne_zero fun hzero => ?_)
      simp [Allocator.freshPage, hzero] at hroom
    simp only [hone]
    refine ⟨.inr (Allocator.large_freshPage hlarge size s.active none), ?_, fun _ => ?_⟩
    · exact Nat.dvd_trans (by decide) hdvd
    · simp [Allocator.freshPage, Allocator.startPos_fixed]
  · have hlt : pid.part < gcLargePart := Nat.lt_of_le_of_ne hpart hlarge
    have hvar : decide (gcFixedParts ≤ pid.part ∧ pid.part < gcLargePart) =
        decide (gcFixedParts ≤ pid.part) := by
      simp [hlt]
    simp only [bornPage, if_neg hlarge, hvar] at hroom ⊢
    refine ⟨.inl (Allocator.small_freshPage s.active none hlt rfl hroom), ?_, fun hnone => ?_⟩
    · exact gcSizes_align hlt
    · cases hfixed : decide (gcFixedParts ≤ pid.part) with
      | true =>
        rw [hfixed] at hnone
        cases hnone
      | false => simp [Allocator.freshPage, Allocator.startPos_fixed]

theorem marked_bornPage (s : GcInc) (pid : Pid) (base size bid : Nat) :
    (s.bornPage pid base size).page.marked bid = false := by
  have hclear : ∀ n, (List.replicate n false).getD bid false = false := by
    intro n
    rw [List.getD_eq_getElem?_getD, List.getElem?_replicate]
    split <;> rfl
  unfold bornPage Allocator.freshPage GcPage.marked
  cases s.active with
  | false => rfl
  | true => exact hclear _

structure Grows (s s' : GcInc) (slot : Nat) (p : IncPage) : Prop where
  pages : s'.pages = s.pages ++ [p]
  lists : s'.lists = s.lists.modify slot fun l => s.pages.length :: l
  mem : s'.mem = Function.update s.mem s.pages.length fun _ => 0
  slot : slot < s.lists.length
  epoch : s'.epoch = s.epoch
  active : s'.active = s.active
  preparing : s'.preparing = s.preparing
  preparePid : s'.preparePid = s.preparePid
  prepareCursor : s'.prepareCursor = s.prepareCursor
  stack : s'.stack = s.stack
  cursor : s'.cursor = s.cursor
  rescan : s'.rescan = s.rescan
  incoming : s'.incoming = s.incoming
  batch : s'.batch = s.batch

theorem newPage_cases (s : GcInc) (slot : Nat) (pid : Pid) (base size : Nat) :
    s.newPage slot pid base size = s ∨ s.Grows (s.newPage slot pid base size) slot (s.bornPage pid base size) ∧
        (s.bornPage pid base size).Ok := by
  unfold newPage
  simp only
  split
  · rename_i hguard
    obtain ⟨hslot, hpart, hdvd, hroom⟩ := hguard
    exact .inr ⟨⟨rfl, rfl, rfl, hslot, rfl, rfl, rfl, rfl, rfl, rfl, rfl, rfl, rfl, rfl⟩,
      ok_bornPage hpart hdvd hroom⟩
  · exact .inl rfl

namespace Grows

variable {slot : Nat} (h : s.Grows s' slot p)

include h

theorem page {n : Nat} {q : IncPage} (hq : s'.pages[n]? = some q) :
    s.pages[n]? = some q ∨ n = s.pages.length ∧ q = p := by
  rw [h.pages] at hq
  rcases Nat.lt_or_ge n s.pages.length with hlt | hge
  · rw [List.getElem?_append_left hlt] at hq
    exact .inl hq
  · rw [List.getElem?_append_right hge] at hq
    obtain ⟨hlt, heq⟩ := List.getElem?_eq_some_iff.mp hq
    have hn : n = s.pages.length := by
      simp only [List.length_singleton] at hlt
      omega
    subst hn
    simp only [Nat.sub_self, List.getElem_cons_zero] at heq
    exact .inr ⟨rfl, heq.symm⟩

theorem old {n : Nat} {q : IncPage} (hq : s.pages[n]? = some q) : s'.pages[n]? = some q := by
  rw [h.pages, List.getElem?_append_left (List.getElem?_eq_some_iff.mp hq).1]
  exact hq

theorem list {k n : Nat} {ids : List Nat} (hk : s.lists[k]? = some ids) (hn : n ∈ ids) :
    ∃ ids', s'.lists[k]? = some ids' ∧ n ∈ ids' := by
  rw [h.lists, List.getElem?_modify, hk]
  simp only [Option.map_eq_map, Option.map_some]
  split
  · exact ⟨_, rfl, List.mem_cons_of_mem _ hn⟩
  · exact ⟨_, rfl, hn⟩

theorem heap (hheap : s.Heap) (hok : p.Ok) (hepoch : p.epoch ≤ s.epoch) : s'.Heap where
  epochs n q hq := by
    rw [h.epoch]
    rcases h.page hq with hq | ⟨-, rfl⟩
    · exact hheap.epochs n q hq
    · exact hepoch
  ok n q hq := by
    rcases h.page hq with hq | ⟨-, rfl⟩
    · exact hheap.ok n q hq
    · exact hok
  listed n hn := by
    rw [h.pages, List.length_append, List.length_singleton] at hn
    rcases Nat.lt_or_ge n s.pages.length with hlt | hge
    · obtain ⟨ids, hmem, hin⟩ := hheap.listed n hlt
      obtain ⟨k, hk⟩ := List.mem_iff_getElem?.mp hmem
      obtain ⟨ids', hk', hin'⟩ := h.list hk hin
      exact ⟨ids', List.mem_of_getElem? hk', hin'⟩
    · have hn : n = s.pages.length := by omega
      subst hn
      obtain ⟨l, hl⟩ : ∃ l, s.lists[slot]? = some l := ⟨_, List.getElem?_eq_getElem h.slot⟩
      refine ⟨s.pages.length :: l, List.mem_of_getElem? (i := slot) ?_, List.mem_cons_self⟩
      rw [h.lists, List.getElem?_modify, hl]
      simp only [Option.map_eq_map, Option.map_some, if_true]

theorem marked (hb : s.Marked b) : s'.Marked b ∧ s'.blockWords b = s.blockWords b ∧
    ∀ i, s'.word b i = s.word b i := by
  obtain ⟨q, hq, hqe, hmarked⟩ := hb
  have hne : b.1 ≠ s.pages.length := Nat.ne_of_lt (List.getElem?_eq_some_iff.mp hq).1
  refine ⟨⟨q, h.old hq, hqe.trans h.epoch.symm, hmarked⟩, ?_, fun i => ?_⟩
  · unfold blockWords
    rw [h.old hq, hq]
  · unfold word
    simp only [h.old hq, hq, h.mem, Function.update_of_ne hne]

theorem target {w : Nat} (hout : ¬(p.base ≤ w ∧ w < p.base + p.size))
    (ht : GcInc.target s'.shapes false w = some t) : GcInc.target s.shapes false w = some t := by
  have hshapes : s'.shapes = s.shapes ++ [p.shape] := by
    rw [shapes, h.pages, List.map_append]
    rfl
  obtain ⟨sh, hget, hsh, -, hblock⟩ := target_eq_some ht
  have hfind : getPage s.shapes w = some t.1 := by
    rw [hshapes] at hget
    unfold getPage at hget ⊢
    split at hget
    · cases hget
    · rename_i hzero
      rw [if_neg hzero]
      rw [List.findIdx?_append] at hget
      cases hold : s.shapes.findIdx? fun p => p.inPage w with
      | some n =>
        rw [hold] at hget
        exact hget
      | none =>
        have hnot : p.shape.inPage w = false := by
          refine Bool.eq_false_iff.mpr fun hin => hout ?_
          obtain ⟨hlo, hhi⟩ := Bool.and_eq_true_iff.mp hin
          exact ⟨of_decide_eq_true hlo, of_decide_eq_true hhi⟩
        rw [hold] at hget
        simp [List.findIdx?_cons, hnot] at hget
  have hlt : t.1 < s.shapes.length := by
    unfold getPage at hfind
    split at hfind
    · cases hfind
    · exact (List.findIdx?_eq_some_iff_getElem.mp hfind).1
  rw [hshapes, List.getElem?_append_left hlt] at hsh
  unfold GcInc.target
  rw [hfind]
  simp only [Option.bind_some, hsh, Bool.false_eq_true, if_false] at hblock ⊢
  rw [hblock]
  rfl

theorem prepared (hs : s.Prepared) (hepoch : p.epoch = s.epoch) : s'.Prepared := by
  intro n q hq
  rw [h.epoch, h.preparing, Waits, h.prepareCursor, h.preparePid]
  rcases h.page hq with hq | ⟨-, rfl⟩
  · refine (hs n q hq).imp_right fun hwait => ⟨hwait.1, ?_⟩
    rcases hwait.2 with hmem | ⟨k, ids, hle, hk, hin⟩
    · exact .inl hmem
    · obtain ⟨ids', hk', hin'⟩ := h.list hk hin
      exact .inr ⟨k, ids', hle, hk', hin'⟩
  · exact .inl hepoch

end Grows

theorem Cycle.newPage (h : s.Cycle) (hactive : s.active = true) (slot : Nat) (pid : Pid)
    (base size : Nat) (hclean : ∀ b, s.Marked b → s.HasPtr b → ∀ i < s.blockWords b,
      ¬(base ≤ s.word b i ∧ s.word b i < base + size)) : (s.newPage slot pid base size).Cycle := by
  rcases newPage_cases s slot pid base size with heq | ⟨hgrows, hok⟩
  · rw [heq]
    exact h
  · have hclear := marked_bornPage s pid base size
    have hepoch : (s.bornPage pid base size).epoch = s.epoch := if_pos hactive
    have hbits : (s.bornPage pid base size).page.bmp.isSome = true := by
      unfold bornPage Allocator.freshPage
      rw [hactive]
      rfl
    have hqueued : ∀ bid, (s.bornPage pid base size).queued.getD bid false = false := by
      intro bid
      unfold bornPage
      simp only [List.getD_eq_getElem?_getD, List.getElem?_replicate]
      generalize size / (if pid.part = gcLargePart then size else gcSizes pid.part) = n
      split <;> rfl
    have hbase : (s.bornPage pid base size).base = base := rfl
    have hsize : (s.bornPage pid base size).size = size := rfl
    have hdirty : (s.bornPage pid base size).dirty = false := rfl
    have hsettled : (s.bornPage pid base size).page.needFlush = false := rfl
    generalize s.newPage slot pid base size = s' at *
    generalize s.bornPage pid base size = p at *
    have hold : ∀ b, s'.Marked b → s.Marked b := by
      rintro b ⟨q, hq, hqe, hmarked⟩
      rcases hgrows.page hq with hq | ⟨-, rfl⟩
      · exact ⟨q, hq, hqe.trans hgrows.epoch, hmarked⟩
      · rw [hclear] at hmarked
        cases hmarked
    constructor
    case heap => exact hgrows.heap h.heap hok (Nat.le_of_eq hepoch)
    case queues =>
      constructor
      case ready =>
        intro n q hq hqe
        rcases hgrows.page hq with hq | ⟨-, rfl⟩
        · exact h.queues.ready n q hq (hqe.trans hgrows.epoch)
        · refine ⟨hbits, hsettled, fun bid hbid => ?_⟩
          rw [hclear] at hbid
          cases hbid
      case dirty =>
        intro n q hq hd
        rw [hgrows.incoming, hgrows.batch]
        rcases hgrows.page hq with hq | ⟨-, rfl⟩
        · exact h.queues.dirty n q hq hd
        · rw [hdirty] at hd
          cases hd
      case queued =>
        intro b q hq hqe hqd
        rw [hgrows.stack, hgrows.cursor]
        rcases hgrows.page hq with hq | ⟨-, rfl⟩
        · exact h.queues.queued b q hq (hqe.trans hgrows.epoch) hqd
        · rw [hqueued] at hqd
          cases hqd
      case stack =>
        intro b hb
        rw [hgrows.stack] at hb
        exact (hgrows.marked (h.queues.stack b hb)).1
      case cursor =>
        intro c hc
        rw [hgrows.cursor] at hc
        obtain ⟨hmarked, hstop⟩ := h.queues.cursor c hc
        obtain ⟨hmarked', hwords, -⟩ := hgrows.marked hmarked
        exact ⟨hmarked', hstop.trans hwords.symm⟩
    case traced =>
      refine h.traced.change (fun b hb => (hgrows.marked hb).1) (fun b i hb hptr hi t ht => .inl ?_)
        (fun b i hb => ?_) fun b i hb hptr hi => .inr ?_
      · exact hgrows.target (by rw [hbase, hsize]; exact hclean b hb hptr i hi) ht
      · unfold Pending at hb ⊢
        rw [hgrows.stack, hgrows.cursor, hgrows.rescan, hgrows.incoming, hgrows.batch]
        exact hb
      · have hmarked := hold b hb
        obtain ⟨-, hwords, hword⟩ := hgrows.marked hmarked
        obtain ⟨q, hq, hqe, hqm⟩ := hmarked
        refine ⟨⟨q, hq, hqe, hqm⟩, ⟨q, hq, ?_⟩, hwords ▸ hi, hword i⟩
        obtain ⟨r, hr, hhas⟩ := hptr
        rw [hgrows.old hq] at hr
        cases hr
        exact hhas
    case prepared => exact hgrows.prepared h.prepared hepoch

end GcInc

end HashLink.Gc
