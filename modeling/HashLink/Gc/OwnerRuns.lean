import HashLink.Gc.ClassMarks

/-! Changes of owners in every run. An owner has at most one class, and a class other than the overflow
class at most one owner. A class that is released or given to an owner has no block that is reachable,
where no cycle is going on when a retired class is given away. In the middle of a cycle it may have one. -/

namespace HashLink.Gc

open GcInc

namespace OwnerHeap

variable {precise : List Nat → List Nat} {s s' : OwnerHeap}

def HasClass (s : OwnerHeap) (owner oc : Nat) : Prop :=
  0 < oc ∧ s.table[oc - 1]? = some (.owner owner) ∨ oc = gcOverflowClass ∧ owner ∈ s.overflow

def Retired (s : OwnerHeap) (b : BlockRef) : Prop :=
  ∃ i, s.table[i]? = some .retired ∧ s.heap.heap.InClass b (i + 1)

/-- An owner is in one place. -/
structure Tables (table : List OwnerEntry) (overflow : List Nat) : Prop where
  length : table.length = gcOwnerClasses
  once : ∀ (i j owner : Nat), table[i]? = some (.owner owner) → table[j]? = some (.owner owner) → i = j
  apart : ∀ owner ∈ overflow, ∀ i : Nat, table[i]? ≠ some (.owner owner)

/-- The owners have their classes, a class that is free has no memory, and between cycles the marks of
the retired classes are those of the blocks that are reachable. -/
structure Inv (precise : List Nat → List Nat) (s : OwnerHeap) : Prop where
  heap : s.heap.heap.Inv
  laid : s.heap.heap.Laid
  length : s.table.length = gcOwnerClasses
  vacant : ∀ (i id : Nat) (p : IncPage), s.table[i]? = some .none → s.heap.heap.pages[id]? = some p →
    p.page.pid.oc = i + 1 → p.size = 0
  marks : s.heap.heap.active = false → ∀ b, s.Retired b → PinnedHeap.Named precise s.heap b →
    s.heap.heap.bit b = true

variable {owner : Nat} {entry : OwnerEntry} {e : OwnerEvent} {table : List OwnerEntry}
variable {i oc : Nat} {b : BlockRef}

theorem getElem?_set {j : Nat} {e : OwnerEntry} (he : (table.set i entry)[j]? = some e) :
    j = i ∧ e = entry ∨ table[j]? = some e := by
  rw [List.getElem?_set] at he
  split at he
  · rename_i hj
    split at he
    · cases he
      exact .inl ⟨hj.symm, rfl⟩
    · cases he
  · exact .inr he

/-- An entry of the table may change to an owner without a class. -/
theorem Tables.set {overflow : List Nat} (h : Tables table overflow) (i : Nat)
    (howner : ∀ owner, entry = .owner owner → owner ∉ overflow ∧ ∀ j : Nat, table[j]? ≠ some (.owner owner)) :
    Tables (table.set i entry) overflow where
  length := by
    rw [List.length_set]
    exact h.length
  once j k owner hj hk := by
    rcases getElem?_set hj with ⟨rfl, hentry⟩ | hfirst
    · rcases getElem?_set hk with ⟨rfl, -⟩ | hold
      · rfl
      · exact absurd hold ((howner owner hentry.symm).2 k)
    · rcases getElem?_set hk with ⟨rfl, hentry⟩ | hold
      · exact absurd hfirst ((howner owner hentry.symm).2 j)
      · exact h.once j k owner hfirst hold
  apart owner hmem j hj := by
    rcases getElem?_set hj with ⟨rfl, hentry⟩ | hj
    · exact (howner owner hentry.symm).1 hmem
    · exact h.apart owner hmem j hj

theorem no_class_of_find (h : ¬0 < s.gcOwnerClassFind owner) :
    owner ∉ s.overflow ∧ ∀ j : Nat, s.table[j]? ≠ some (.owner owner) := by
  unfold gcOwnerClassFind at h
  cases hlookup : s.gcOwnerClassLookup owner with
  | some oc =>
    rw [hlookup] at h
    unfold gcOwnerClassLookup at hlookup
    obtain ⟨i, -, rfl⟩ := Option.map_eq_some_iff.mp hlookup
    exact absurd (Nat.succ_pos i) h
  | none =>
    rw [hlookup] at h
    simp only at h
    split at h
    · exact absurd (Nat.succ_pos gcOwnerClasses) h
    · rename_i hmem
      refine ⟨hmem, fun j hj => ?_⟩
      unfold gcOwnerClassLookup at hlookup
      rw [Option.map_eq_none_iff, List.findIdx?_eq_none_iff] at hlookup
      have hnot := hlookup _ (List.mem_of_getElem? hj)
      simp at hnot

theorem Tables.register (h : Tables s.table s.overflow) (owner : Nat) :
    Tables (s.gcOwnerClassRegister owner).table (s.gcOwnerClassRegister owner).overflow := by
  unfold gcOwnerClassRegister
  split
  · exact h
  · rename_i hfind
    have hnew := no_class_of_find hfind
    have howner : ∀ o, OwnerEntry.owner owner = .owner o → o ∉ s.overflow ∧
        ∀ j : Nat, s.table[j]? ≠ some (.owner o) := by
      intro o ho
      cases ho
      exact hnew
    split
    · exact h.set _ howner
    · split
      · exact h.set _ howner
      · refine ⟨h.length, h.once, fun o ho => ?_⟩
        rcases List.mem_append.mp ho with ho | ho
        · exact h.apart o ho
        · rw [List.mem_singleton.mp ho]
          exact hnew.2

theorem Tables.step (h : Tables s.table s.overflow) (hstep : s.step precise e = some s') :
    Tables s'.table s'.overflow := by
  cases e with
  | heap owner oc e =>
    obtain ⟨r, -, rfl⟩ := Option.map_eq_some_iff.mp hstep
    exact h
  | register owner =>
    cases hstep
    exact h.register owner
  | release owner fuel keep =>
    change s.hlGcOwnerRelease precise owner fuel keep = some s' at hstep
    unfold hlGcOwnerRelease at hstep
    dsimp only at hstep
    split at hstep
    · cases hstep
      exact h
    · obtain ⟨heap, -, rfl⟩ := Option.map_eq_some_iff.mp hstep
      split
      · have hleft : Tables s.table (s.overflow.erase owner) :=
          ⟨h.length, h.once, fun o ho => h.apart o (List.mem_of_mem_erase ho)⟩
        split
        · exact hleft
        · exact hleft
      · split
        · exact h.set _ fun _ ho => OwnerEntry.noConfusion ho
        · exact h.set _ fun _ ho => OwnerEntry.noConfusion ho

theorem tables_start (slots : Nat) : Tables (start slots).table (start slots).overflow := by
  have hnone : ∀ (i owner : Nat), (start slots).table[i]? ≠ some (.owner owner) := by
    intro i owner hi
    cases List.eq_of_mem_replicate (List.mem_of_getElem? hi)
  exact ⟨List.length_replicate, fun i _ owner hi => absurd hi (hnone i owner), fun o ho => absurd ho List.not_mem_nil⟩

theorem Inv.not_retired (h : s.Inv precise) (hclass : s.HasClass owner (i + 1)) :
    s.table[i]? ≠ some .retired ∧ s.table[i]? ≠ some .none := by
  rcases hclass with ⟨-, hentry⟩ | ⟨hoc, -⟩
  · have hentry : s.table[i]? = some (.owner owner) := hentry
    rw [hentry]
    exact ⟨nofun, nofun⟩
  · have hlength := h.length
    have hnone : s.table[i]? = none := by
      rw [List.getElem?_eq_none_iff]
      have : i + 1 = gcOwnerClasses + 1 := hoc
      omega
    rw [hnone]
    exact ⟨nofun, nofun⟩

theorem named_live {h : PinnedHeap} (hheap : h.heap.Heap) (hb : PinnedHeap.Named precise h b)
    (hbit : h.heap.bit b = true) (hclass : h.heap.InClass b oc) :
    h.heap.gcAllocatorClassLiveBlocks oc ≠ 0 := by
  intro hlive
  obtain ⟨p, hp, hsize, hblock⟩ := hb.memory
  obtain ⟨p', hp', hoc⟩ := hclass
  cases hp.symm.trans hp'
  have hfirst := (hheap.ok b.1 p hp).first_le hblock
  have hnot := PinnedHeap.bit_of_liveBlocks hlive hp hoc hsize hfirst hblock.bound
  cases hbit.symm.trans hnot

/-- An entry of the table may change to free for a class without memory, and to retired for a class whose
reachable blocks have their marks. -/
theorem Inv.set (h : s.Inv precise) (i : Nat)
    (hfree : entry = .none → ∀ (id : Nat) (p : IncPage), s.heap.heap.pages[id]? = some p →
      p.page.pid.oc = i + 1 → p.size = 0)
    (hretired : entry = .retired → s.heap.heap.active = false → ∀ b, s.heap.heap.InClass b (i + 1) →
      PinnedHeap.Named precise s.heap b → s.heap.heap.bit b = true) :
    Inv precise { s with table := s.table.set i entry } := by
  refine ⟨h.heap, h.laid, ?_, fun j id p hj hp hoc => ?_, fun hidle b hb hnamed => ?_⟩
  · rw [List.length_set]
    exact h.length
  · rcases getElem?_set hj with ⟨rfl, hentry⟩ | hj
    · exact hfree hentry.symm id p hp hoc
    · exact h.vacant j id p hj hp hoc
  · obtain ⟨j, hj, hclass⟩ := hb
    rcases getElem?_set hj with ⟨rfl, hentry⟩ | hj
    · exact hretired hentry.symm hidle b hclass hnamed
    · exact h.marks hidle b ⟨j, hj, hclass⟩ hnamed

theorem Inv.releaseClass (h : s.Inv precise) (oc : Nat) : (s.releaseClass oc).Inv precise := by
  have hdrops := drops_releaseClass s.heap.heap oc
  refine ⟨hdrops.inv h.laid h.heap, hdrops.laid h.laid, h.length, fun i id p hi hp hoc => ?_,
    fun hidle b hb hnamed => ?_⟩
  · obtain ⟨q, hq, rfl | rfl⟩ := hdrops.page hp
    · exact h.vacant i id _ hi hq hoc
    · rfl
  · obtain ⟨i, hi, p, hp, hoc⟩ := hb
    have hretired : s.Retired b := by
      obtain ⟨q, hq, rfl | rfl⟩ := hdrops.page hp
      · exact ⟨i, hi, _, hq, hoc⟩
      · exact ⟨i, hi, _, hq, hoc⟩
    show (s.heap.heap.gcAllocatorReleaseClass oc).bit b = true
    rw [hdrops.bit]
    exact h.marks hidle b hretired (hnamed.shrinks (PinnedHeap.shrinks_drops hdrops h.laid))

theorem page_releaseClass {heap : GcInc} {id : Nat} {p : IncPage}
    (hp : (heap.gcAllocatorReleaseClass oc).pages[id]? = some p) : ∃ q, heap.pages[id]? = some q ∧
      q.page.pid = p.page.pid ∧ (p.page.pid.oc = oc ∧ p.size = 0 ∨ p.page.pid.oc ≠ oc ∧ p = q) := by
  unfold gcAllocatorReleaseClass at hp
  simp only [List.getElem?_map] at hp
  obtain ⟨q, hq, rfl⟩ := Option.map_eq_some_iff.mp hp
  refine ⟨q, hq, ?_⟩
  split
  · rename_i hoc
    exact ⟨rfl, .inl ⟨hoc, rfl⟩⟩
  · rename_i hoc
    exact ⟨rfl, .inr ⟨hoc, rfl⟩⟩

/-- The owner is to have a retired class. -/
def Reuses (s : OwnerHeap) (owner : Nat) : Prop :=
  s.gcOwnerClassFind owner = 0 ∧ (∀ i : Nat, s.table[i]? ≠ some .none) ∧ s.reusable ≠ none

variable (precise) in
/-- What the steps are to keep to. An allocation is in the class that its owner has when it is made, and
in a cycle it meets the condition of the marker. The program does not come to a block of a retired class
that was not reachable. A retired class is not given to an owner while a cycle goes on. -/
def Meets (s : OwnerHeap) (e : OwnerEvent) (s' : OwnerHeap) : Prop :=
  match e with
  | .heap owner oc e =>
    (s.heap.heap.active = true → s.heap.Clean e) ∧
      s.allocatesIn e oc ∧ (owner.elim (oc = 0) fun owner => s.HasClass owner oc) ∧
      (e.OfProgram → ∀ b, s.Retired b → PinnedHeap.Named precise s'.heap b →
        PinnedHeap.Named precise s.heap b)
  | .register owner => s.Reuses owner → s.heap.heap.active = false
  | .release .. => True

theorem Inv.not_current (h : s.Inv precise) {owner : Option Nat}
    (hoc : owner.elim (oc = 0) fun owner => s.HasClass owner oc)
    (hentry : s.table[i]? = some .retired ∨ s.table[i]? = some .none) : oc ≠ i + 1 := by
  rintro rfl
  cases owner with
  | none => cases hoc
  | some owner =>
    have hnot := h.not_retired hoc
    rcases hentry with hentry | hentry
    · exact hnot.1 hentry
    · exact hnot.2 hentry

theorem Inv.kept (h : s.Inv precise) {heap : PinnedHeap} {oc : Option Nat}
    (hk : PinnedHeap.Kept precise s.Retired oc s.heap heap)
    (hoc : ∀ (i n : Nat), oc = some n → s.table[i]? = some .retired ∨ s.table[i]? = some .none → n ≠ i + 1) :
    Inv precise { s with heap } := by
  refine ⟨hk.inv, hk.laid, h.length, fun i id p hi hp hclass => ?_, fun hidle b hb hnamed => ?_⟩
  · by_contra hsize
    rcases hk.pages id p hp hsize with ⟨q, hq, hpid, hmemory⟩ | hnew
    · exact hmemory (h.vacant i id q hi hq (hpid ▸ hclass))
    · exact hoc i _ hnew.symm (.inr hi) hclass
  · obtain ⟨i, hi, p, hp, hclass⟩ := hb
    obtain ⟨p', hp', hsize, -⟩ := hnamed.memory
    cases hp.symm.trans hp'
    rcases hk.pages b.1 p hp hsize with ⟨q, hq, hpid, -⟩ | hnew
    · have hretired : s.Retired b := ⟨i, hi, q, hq, hpid ▸ hclass⟩
      exact hk.marks hidle b hretired hnamed fun hbefore => h.marks hbefore b hretired
    · exact absurd hclass (hoc i _ hnew.symm (.inl hi))

theorem Inv.heapStep (hprecise : ∀ words, precise words ⊆ words) (h : s.Inv precise) {owner : Option Nat}
    {e : PinEvent} (hmeets : Meets precise s (.heap owner oc e) s')
    (hstep : s.step precise (.heap owner oc e) = some s') : s'.Inv precise := by
  obtain ⟨⟨heap, out⟩, hpin, rfl⟩ := Option.map_eq_some_iff.mp hstep
  obtain ⟨hclean, hin, hcurrent, hguard⟩ := hmeets
  have htake : ∀ id, e.takesFrom = some id → ∀ bid, ¬s.Retired (id, bid) := by
    rintro id hid bid ⟨i, hi, p, hp, hclass⟩
    have hclass' : p.page.pid.oc = oc := by
      cases e <;> cases hid <;> exact hin p hp
    exact h.not_current hcurrent (.inl hi) (hclass' ▸ hclass)
  refine h.kept (PinnedHeap.kept_step hprecise h.heap h.laid hclean htake hpin hguard) ?_
  intro i n hn hentry
  have hclass : n = oc := by
    cases e <;> cases hn
    exact hin
  exact hclass ▸ h.not_current hcurrent hentry

variable (precise) in
/-- A page that a change of owners gives back has no block that is reachable, and neither has a class
that is made free or goes to an owner. -/
structure Law (s s' : OwnerHeap) : Prop where
  released : ∀ (id : Nat) (p p' : IncPage), s.heap.heap.pages[id]? = some p →
    s'.heap.heap.pages[id]? = some p' → p.size ≠ 0 → p'.size = 0 →
      ∀ bid, ¬PinnedHeap.Named precise s.heap (id, bid)
  given : ∀ i : Nat, s'.table[i]? ≠ s.table[i]? → s'.table[i]? ≠ some .retired →
    ∀ b, PinnedHeap.Named precise s.heap b → ¬s.heap.heap.InClass b (i + 1)

theorem law_same {overflow : List Nat} : Law precise s { s with overflow } where
  released _ _ _ hp hp' hsize hzero := by
    cases hp.symm.trans hp'
    exact absurd hzero hsize
  given _ hne := absurd rfl hne

theorem getElem?_set_ne {j : Nat} (h : (table.set i entry)[j]? ≠ table[j]?) : j = i := by
  by_contra hne
  exact h (List.getElem?_set_ne (Ne.symm hne))

theorem Inv.vacant_unnamed (h : s.Inv precise) (hi : s.table[i]? = some .none)
    (hb : PinnedHeap.Named precise s.heap b) : ¬s.heap.heap.InClass b (i + 1) := by
  rintro ⟨p, hp, hclass⟩
  obtain ⟨p', hp', hsize, -⟩ := hb.memory
  cases hp.symm.trans hp'
  exact hsize (h.vacant i b.1 p hi hp hclass)

theorem reusable_spec (h : s.reusable = some i) :
    s.table[i]? = some .retired ∧ s.liveBlocks (i + 1) = 0 := by
  have hfound := List.find?_some h
  exact of_decide_eq_true hfound

theorem Inv.register (h : s.Inv precise) (hmeets : s.Reuses owner → s.heap.heap.active = false) :
    (s.gcOwnerClassRegister owner).Inv precise ∧ Law precise s (s.gcOwnerClassRegister owner) := by
  unfold gcOwnerClassRegister
  split
  · exact ⟨h, law_same⟩
  · rename_i hfind
    split
    · rename_i i hfree
      obtain ⟨hlt, hentry, -⟩ := List.findIdx?_eq_some_iff_getElem.mp hfree
      have hentry : s.table[i]? = some .none := by
        rw [List.getElem?_eq_getElem hlt, of_decide_eq_true hentry]
      refine ⟨h.set i nofun nofun, fun _ _ _ hp hp' hsize hzero => ?_, fun j hne _ b hb => ?_⟩
      · cases hp.symm.trans hp'
        exact absurd hzero hsize
      · rw [getElem?_set_ne hne]
        exact h.vacant_unnamed hentry hb
    · rename_i hfree
      split
      · rename_i i hreuse
        obtain ⟨hentry, hlive⟩ := reusable_spec hreuse
        have hidle : s.heap.heap.active = false := by
          refine hmeets ⟨Nat.eq_zero_of_not_pos hfind, fun j hj => ?_, by rw [hreuse]; exact Option.some_ne_none i⟩
          have hnot := List.findIdx?_eq_none_iff.mp hfree _ (List.mem_of_getElem? hj)
          simp at hnot
        have hdead : ∀ b, PinnedHeap.Named precise s.heap b → ¬s.heap.heap.InClass b (i + 1) := by
          intro b hb hclass
          exact named_live h.heap.heap hb (h.marks hidle b ⟨i, hentry, hclass⟩ hb) hclass hlive
        refine ⟨(h.releaseClass (i + 1)).set i nofun nofun, fun id p p' hp hp' hsize hzero => ?_,
          fun j hne _ b hb => ?_⟩
        · obtain ⟨q, hq, hpid, ⟨hclass, -⟩ | ⟨-, rfl⟩⟩ := page_releaseClass hp'
          · cases hp.symm.trans hq
            exact fun bid hb => hdead _ hb ⟨p, hp, hpid ▸ hclass⟩
          · cases hp.symm.trans hq
            exact absurd hzero hsize
        · rw [getElem?_set_ne hne]
          exact hdead b hb
      · exact ⟨⟨h.heap, h.laid, h.length, h.vacant, h.marks⟩, law_same⟩

theorem released_of_dead {heap : GcInc} (hmark : PinnedHeap.FullMark precise s.heap heap)
    (hheap : s.heap.heap.Heap) {id : Nat} (hlive : heap.gcAllocatorClassLiveBlocks oc = 0) {p' : IncPage}
    (hp' : (heap.gcAllocatorReleaseClass oc).pages[id]? = some p') (hzero : p'.size = 0) (bid : Nat) :
    ¬PinnedHeap.Named precise s.heap (id, bid) := by
  obtain ⟨q, hq, hpid, ⟨hclass, -⟩ | ⟨-, rfl⟩⟩ := page_releaseClass hp'
  · intro hb
    obtain ⟨p, hp, hsame, -⟩ := hmark.page id q hq
    refine hmark.dead hheap hlive hb ⟨p, hp, ?_⟩
    rw [← hsame, hpid]
    exact hclass
  · exact hmark.released hheap hq hzero bid

theorem Inv.release (h : s.Inv precise) {fuel : Nat} {keep : Nat → Bool}
    (hstep : s.hlGcOwnerRelease precise owner fuel keep = some s') :
    s'.Inv precise ∧ Law precise s s' := by
  have hheap := h.heap.heap
  unfold hlGcOwnerRelease at hstep
  dsimp only at hstep
  generalize s.gcOwnerClassFind owner = oc at hstep
  split at hstep
  · cases hstep
    exact ⟨h, law_same⟩
  · rename_i hoc
    obtain ⟨heap, hmark, rfl⟩ := Option.map_eq_some_iff.mp hstep
    have hmark := PinnedHeap.fullMark_gcMark hheap h.laid hmark
    have hmarked : Inv precise { s with heap := s.heap.setHeap heap } :=
      h.kept (hmark.kept s.Retired) (fun _ _ hn => nomatch hn)
    have hpred : oc - 1 + 1 = oc := Nat.succ_pred_eq_of_pos (Nat.pos_of_ne_zero hoc)
    split
    · have hleft : Inv precise
          { s with heap := s.heap.setHeap heap, overflow := s.overflow.erase owner } :=
        ⟨hmarked.heap, hmarked.laid, hmarked.length, hmarked.vacant, hmarked.marks⟩
      split
      · rename_i hlive
        refine ⟨hleft.releaseClass oc, fun _ _ _ _ hp' _ hzero =>
          released_of_dead hmark hheap hlive.2 hp' hzero, fun _ hne => absurd rfl hne⟩
      · exact ⟨hleft, fun _ _ _ _ hp' _ hzero => hmark.released hheap hp' hzero, fun _ hne => absurd rfl hne⟩
    · split
      · rename_i hlive
        refine ⟨(hmarked.releaseClass oc).set (oc - 1) (fun _ id p hp hclass => ?_) nofun,
          fun _ _ _ _ hp' _ hzero => released_of_dead hmark hheap hlive hp' hzero,
          fun i hne _ b hb => ?_⟩
        · obtain ⟨q, hq, -, ⟨-, hzero⟩ | ⟨hother, -⟩⟩ := page_releaseClass hp
          · exact hzero
          · exact absurd (hpred ▸ hclass) hother
        · rw [getElem?_set_ne hne, hpred]
          exact hmark.dead hheap hlive hb
      · refine ⟨hmarked.set (oc - 1) nofun fun _ _ b _ hb => hmark.named hb,
          fun _ _ _ _ hp' _ hzero => hmark.released hheap hp' hzero, fun i hne hretired => ?_⟩
        obtain rfl := getElem?_set_ne hne
        rcases Nat.lt_or_ge (oc - 1) s.table.length with hlt | hge
        · exact absurd (List.getElem?_set_self hlt) hretired
        · refine absurd ?_ hne
          rw [List.getElem?_eq_none hge, List.getElem?_eq_none]
          rw [List.length_set]
          exact hge

theorem inv_start (slots : Nat) : (start slots).Inv precise := by
  have hnone : ∀ (i : Nat) (entry : OwnerEntry), (start slots).table[i]? = some entry → entry = .none := by
    intro i entry hi
    exact List.eq_of_mem_replicate (List.mem_of_getElem? hi)
  have hidle : (start slots).heap.heap.Idle :=
    ⟨⟨fun _ _ hp => (nomatch hp), fun _ _ hp => (nomatch hp), fun _ hid => (nomatch hid)⟩, rfl, rfl, rfl, rfl⟩
  have hlaid : (start slots).heap.heap.Laid := ⟨fun _ _ hp => (nomatch hp), fun _ _ _ _ hp => (nomatch hp)⟩
  refine ⟨.inl ⟨rfl, hidle⟩, hlaid, List.length_replicate, fun i id p _ hp => ?_, fun _ b hb => ?_⟩
  · cases hp
  · obtain ⟨i, hi, -⟩ := hb
    cases hnone i _ hi

variable (precise) in
/-- The states of the runs whose steps all keep to a condition. -/
inductive RunWhere (cond : OwnerHeap → OwnerEvent → OwnerHeap → Prop) : OwnerHeap → Prop where
  | start (slots : Nat) : RunWhere cond (start slots)
  | step {s s' : OwnerHeap} {e : OwnerEvent} (hs : RunWhere cond s) (hcond : cond s e s')
      (hstep : s.step precise e = some s') : RunWhere cond s'

variable (precise) in
def Run (s : OwnerHeap) : Prop := RunWhere precise (fun _ _ _ => True) s

variable (precise) in
def Reachable (s : OwnerHeap) : Prop := RunWhere precise (Meets precise) s

theorem RunWhere.mono {cond cond' : OwnerHeap → OwnerEvent → OwnerHeap → Prop} (h : RunWhere precise cond s)
    (hcond : ∀ s e s', cond s e s' → cond' s e s') : RunWhere precise cond' s := by
  induction h with
  | start slots => exact .start slots
  | step _ hc hstep ih => exact .step ih (hcond _ _ _ hc) hstep

theorem RunWhere.tables {cond : OwnerHeap → OwnerEvent → OwnerHeap → Prop} (h : RunWhere precise cond s) :
    Tables s.table s.overflow := by
  induction h with
  | start slots => exact tables_start slots
  | step _ _ hstep ih => exact ih.step hstep

def OwnerEvent.OfOwners : OwnerEvent → Prop
  | .heap .. => False
  | _ => True

theorem Inv.step (hprecise : ∀ words, precise words ⊆ words) (h : s.Inv precise)
    (hmeets : Meets precise s e s') (hstep : s.step precise e = some s') :
    s'.Inv precise ∧ (e.OfOwners → Law precise s s') := by
  cases e with
  | heap owner oc e => exact ⟨h.heapStep hprecise hmeets hstep, False.elim⟩
  | register owner =>
    cases hstep
    obtain ⟨hinv, hlaw⟩ := h.register hmeets
    exact ⟨hinv, fun _ => hlaw⟩
  | release owner fuel keep =>
    obtain ⟨hinv, hlaw⟩ := h.release hstep
    exact ⟨hinv, fun _ => hlaw⟩

theorem Reachable.inv (hprecise : ∀ words, precise words ⊆ words) (h : Reachable precise s) :
    s.Inv precise := by
  induction h with
  | start slots => exact inv_start slots
  | step _ hmeets hstep ih => exact (ih.step hprecise hmeets hstep).1

/-- A step without a cycle that brings no block of a retired class to life, because no class is retired
or no root is left. -/
def quiet (s : OwnerHeap) : OwnerEvent → Bool
  | .heap owner oc e =>
    !s.heap.heap.active && (match e with
      | .alloc id _ _ | .reserve id _ _ => (s.heap.heap.pages[id]?).all fun p => p.page.pid.oc = oc
      | .newPage _ pid _ _ => pid.oc = oc
      | _ => true) &&
      (match owner with
      | none => oc = 0
      | some owner => 0 < oc ∧ s.table[oc - 1]? = some (.owner owner)) &&
      (match e with
      | .setRoots [] [] => s.heap.pinned.isEmpty
      | .major .. => true
      | _ => s.table.all fun entry => entry ≠ .retired)
  | .register _ => !s.heap.heap.active
  | .release .. => true

theorem not_named_of_rootless {h : PinnedHeap} (hglobals : h.globals = []) (hpins : h.pins = [])
    (hstack : h.stackWords = []) : ¬PinnedHeap.Named precise h b := by
  intro hb
  induction hb with
  | global hw _ =>
    rw [hglobals] at hw
    cases hw
  | stack hw _ =>
    rw [hpins, hstack] at hw
    cases hw
  | word _ _ _ _ ih => exact ih

theorem meets_of_quiet (h : s.quiet e = true) (hstep : s.step precise e = some s') :
    Meets precise s e s' := by
  cases e with
  | register owner =>
    intro _
    exact (Bool.not_eq_true' _).mp h
  | release owner fuel keep => trivial
  | heap owner oc e =>
    unfold quiet at h
    obtain ⟨h, hguard⟩ := Bool.and_eq_true_iff.mp h
    obtain ⟨h, hcurrent⟩ := Bool.and_eq_true_iff.mp h
    obtain ⟨hidle, hin⟩ := Bool.and_eq_true_iff.mp h
    refine ⟨fun hactive => ?_, ?_, ?_, fun hprogram b hretired hb => ?_⟩
    · rw [hactive] at hidle
      cases hidle
    · have hpage : ∀ id : Nat, (s.heap.heap.pages[id]?).all (fun p => decide (p.page.pid.oc = oc)) = true →
          ∀ p, s.heap.heap.pages[id]? = some p → p.page.pid.oc = oc := by
        intro id hall p hp
        rw [hp] at hall
        exact of_decide_eq_true hall
      cases e with
      | alloc id _ _ => exact hpage id hin
      | reserve id _ _ => exact hpage id hin
      | newPage _ pid _ _ => exact of_decide_eq_true (p := pid.oc = oc) hin
      | _ => trivial
    · cases owner with
      | none => exact of_decide_eq_true (p := oc = 0) hcurrent
      | some owner =>
        exact .inl (of_decide_eq_true (p := 0 < oc ∧ s.table[oc - 1]? = some (.owner owner)) hcurrent)
    · split at hguard
      · cases hstep
        have hnone : s.heap.pinned = [] := List.isEmpty_iff.mp hguard
        refine absurd hb (not_named_of_rootless rfl ?_ rfl)
        show s.heap.pins = []
        unfold PinnedHeap.pins
        rw [hnone]
        rfl
      · cases hprogram
      · obtain ⟨i, hi, -⟩ := hretired
        have hnot := List.all_eq_true.mp hguard _ (List.mem_of_getElem? hi)
        exact absurd rfl (of_decide_eq_true hnot)

def quietRun (precise : List Nat → List Nat) : OwnerHeap → List OwnerEvent → Option OwnerHeap
  | s, [] => some s
  | s, e :: events =>
    if s.quiet e then (s.step precise e).bind fun s => quietRun precise s events else none

theorem Reachable.quietRun {events : List OwnerEvent} (hs : Reachable precise s)
    (hrun : OwnerHeap.quietRun precise s events = some s') : Reachable precise s' := by
  induction events generalizing s with
  | nil =>
    cases hrun
    exact hs
  | cons e events ih =>
    unfold OwnerHeap.quietRun at hrun
    split at hrun
    · rename_i hquiet
      obtain ⟨t, hstep, hrun⟩ := Option.bind_eq_some_iff.mp hrun
      exact ih (.step hs (meets_of_quiet hquiet hstep) hstep) hrun
    · cases hrun

end OwnerHeap

end HashLink.Gc
