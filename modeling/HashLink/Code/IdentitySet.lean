import HashLink.Code.Identities
import HashLink.Code.TableSizes
import HashLink.Lib.OpenAddressing

/-!
The set of the ids that `hl_read_function_identities` has seen: a table with open addressing, at most half full. The
reader with the set is the reader that compares an id with all before, and it finds the entries of a section that give
one id or name one function. Its tables have the memory they need unless a function has one of the two largest indices.
-/

namespace HashLink.Code

open Sticky OpenAddressing

def findexes (functions : List HlFunction) : List Nat := functions.map (·.findex)

/-- `by_findex`: for each index the first function that has it. -/
def byFindex (functions : List HlFunction) : List (Option Nat) :=
  functions.zipIdx.foldl
    (fun table f => if (table.getD f.1.findex none).isNone then table.set f.1.findex (some f.2) else table)
    (List.replicate (maxFindex (findexes functions) + 1).toNat none)

def targetOf (functions : List HlFunction) (functionIndex : Nat) : Option Nat :=
  if (functionIndex : Int) ≤ maxFindex (findexes functions) then (byFindex functions).getD functionIndex none
  else none

def idHome (size id : Nat) : Nat := (UInt32.ofNat id * 2654435761).toNat &&& (size - 1)

/-- The walk over `seen_ids` for an id: `some none` when it is there, else the set with it. A walk of more than `fuel`
steps has no result. -/
def addId (fuel : Nat) (seenIds : List (Option Nat)) (id : Nat) : Option (Option (List (Option Nat))) := do
  let slot ← probe (· = id) (fun slot => (slot + 1) &&& (seenIds.length - 1)) seenIds fuel (idHome seenIds.length id)
  return if cell seenIds slot = some id then none else some (seenIds.set slot (some id))

/-- One turn of `hl_read_function_identities`, in the reader of the section. There is no result when a walk goes on. -/
def readIdentity (fuel : Nat) (functions : List HlFunction) (ids : HlIdentities) (seenIds : List (Option Nat)) :
    ReadM (Option (Except String (HlIdentities × List (Option Nat)))) := do
  let stableId ← hlReadUindex
  let functionIndex ← hlReadUindex
  let target := targetOf functions functionIndex
  let qualifiedName ← hlSkipString
  if qualifiedName.isNone then return some (.error "Invalid function identity string")
  let second ← hlSkipString
  if second.isNone then return some (.error "Invalid function identity string")
  let third ← hlSkipString
  if third.isNone then return some (.error "Invalid function identity string")
  let _ ← hlReadIndex
  let _ ← hlReadIndex
  let _ ← hlReadUindex
  let _ ← hlReadUindex
  match addId fuel seenIds stableId with
  | none => return none
  | some none => return some (.error "Duplicate stable function identity")
  | some (some seenIds) =>
    let s ← get
    match target with
    | none => return some (.error "Invalid function identity")
    | some target =>
      if s.error.isSome ∨ (ids.stableIds.getD target none).isSome then
        return some (.error "Invalid function identity")
      else
        let (start, length) := qualifiedName.getD (0, 0)
        let name := (List.range length).map fun i => s.b (start + i)
        return some (.ok ({ ids with stableIds := ids.stableIds.set target (some stableId)
                                     names := ids.names.set target (some name) }, seenIds))

def readIdentities (fuel : Nat) (functions : List HlFunction) :
    Nat → HlIdentities → List (Option Nat) → ReadM (Option (Except String HlIdentities))
  | 0, ids, _ => do
      let s ← get
      if s.pos ≠ s.size then return some (.error "Trailing function identity data") else return some (.ok ids)
  | n + 1, ids, seenIds => do
      match ← readIdentity fuel functions ids seenIds with
      | none => return none
      | some (.error e) => return some (.error e)
      | some (.ok (ids, seenIds)) => readIdentities fuel functions n ids seenIds

instance (t : TableRequest) : Decidable t.Fits := inferInstanceAs (Decidable (_ ∧ _))

/-- `hl_read_function_identities` with its tables, whose memory is that of `hl_malloc`: there is no result when it does
not have the size they need. -/
def readFunctionIdentities (fuel : Nat) (functions : List HlFunction) (ids : HlIdentities) (data : Bytes)
    (size : Nat) : ReadM (Option HlIdentities) := do
  let result ← withSection data size do
    let count ← hlReadUindex
    if ∀ t ∈ identityTables (findexes functions) count, t.Fits then
      readIdentities fuel functions count { ids with seen := [] } (List.replicate (setSize count) none)
    else return none
  match result with
  | none => return none
  | some (.ok ids) => return some ids
  | some (.error e) =>
    hlError e
    return some ids

variable {l : List Nat} {pre : List (Nat × Nat)}

theorem le_maxFindex {f : Nat} (hf : f ∈ l) : (f : Int) ≤ maxFindex l := by
  unfold maxFindex
  suffices h : ∀ m : Int, m ≤ l.foldl (fun (m : Int) (f : Nat) => if m < f then f else m) m ∧
      ∀ f ∈ l, (f : Int) ≤ l.foldl (fun (m : Int) (f : Nat) => if m < f then f else m) m from (h (-1)).2 f hf
  clear hf
  induction l with
  | nil => exact fun m => ⟨Int.le_refl m, fun f hf => absurd hf List.not_mem_nil⟩
  | cons g l ih =>
    intro m
    rw [List.foldl_cons]
    obtain ⟨hle, hall⟩ := ih (if m < g then g else m)
    refine ⟨?_, List.forall_mem_cons.mpr ⟨?_, hall⟩⟩
    · refine Int.le_trans ?_ hle
      split <;> omega
    · refine Int.le_trans ?_ hle
      split <;> omega

theorem byFindex_getD (functions : List HlFunction) {k : Nat}
    (hk : (k : Int) ≤ maxFindex (findexes functions)) :
    (byFindex functions).getD k none = functions.findIdx? (·.findex = k) := by
  suffices h : ∀ (l : List HlFunction) (n : Nat) (table : List (Option Nat)),
      (∀ f ∈ l, f.findex < table.length) → ((l.zipIdx n).foldl
        (fun table f => if (table.getD f.1.findex none).isNone then table.set f.1.findex (some f.2) else table)
        table).getD k none = (table.getD k none).or ((l.findIdx? (·.findex = k)).map (· + n)) by
    rw [byFindex, h functions 0 _ fun f hf => ?_]
    · have hempty : (List.replicate (maxFindex (findexes functions) + 1).toNat (none : Option Nat)).getD k none =
          none := by
        rw [List.getD_eq_getElem?_getD, List.getElem?_replicate]
        split <;> rfl
      rw [hempty, Option.none_or]
      cases functions.findIdx? (·.findex = k) <;> rfl
    · have hle : (f.findex : Int) ≤ maxFindex (findexes functions) := le_maxFindex (List.mem_map_of_mem hf)
      rw [List.length_replicate]
      omega
  intro l
  induction l with
  | nil =>
    intro n table _
    rw [List.zipIdx_nil, List.foldl_nil, List.findIdx?_nil, Option.map_none, Option.or_none]
  | cons f l ih =>
    intro n table hlt
    obtain ⟨hf, hl⟩ := List.forall_mem_cons.mp hlt
    have hshift : (l.findIdx? (·.findex = k)).map (· + (n + 1)) =
        ((l.findIdx? (·.findex = k)).map (· + 1)).map (· + n) := by
      cases l.findIdx? (·.findex = k) with
      | none => rfl
      | some i =>
        show some (i + (n + 1)) = some (i + 1 + n)
        congr 1
        omega
    rw [List.zipIdx_cons, List.foldl_cons, List.findIdx?_cons]
    by_cases hnone : (table.getD f.findex none).isNone
    · rw [if_pos hnone, ih (n + 1) _ (by simpa using hl)]
      by_cases hk : f.findex = k
      · subst hk
        rw [Option.isNone_iff_eq_none] at hnone
        rw [List.getD_eq_getElem?_getD, List.getElem?_set_self hf, hnone]
        simp
      · rw [List.getD_eq_getElem?_getD, List.getElem?_set_ne hk, ← List.getD_eq_getElem?_getD, hshift]
        simp [hk]
    · rw [if_neg hnone, ih (n + 1) _ hl]
      by_cases hk : f.findex = k
      · subst hk
        obtain ⟨j, hj⟩ := Option.ne_none_iff_exists'.mp (mt Option.isNone_iff_eq_none.mpr hnone)
        rw [hj]
        rfl
      · rw [hshift]
        simp [hk]

theorem targetOf_eq (functions : List HlFunction) (k : Nat) :
    targetOf functions k = functions.findIdx? (·.findex = k) := by
  unfold targetOf
  split
  · exact byFindex_getD functions ‹_›
  · rename_i hlt
    symm
    rw [List.findIdx?_eq_none_iff]
    intro f hf
    have hle : (f.findex : Int) ≤ maxFindex (findexes functions) := le_maxFindex (List.mem_map_of_mem hf)
    simp only [decide_eq_false_iff_not]
    rintro rfl
    exact hlt hle

theorem growSet_pow {limit n : Nat} {k : Nat} (hn : n = 2 ^ k) : ∃ m, growSet limit n = 2 ^ m ∧ limit ≤ 2 ^ m := by
  induction n using growSet.induct limit generalizing k with
  | case1 n hdone =>
    rw [growSet, if_pos hdone]
    have hpos := Nat.two_pow_pos k
    exact ⟨k, hn, by omega⟩
  | case2 n hmore ih =>
    rw [growSet, if_neg hmore]
    exact @ih (k + 1) (by rw [hn, Nat.pow_succ, Nat.mul_comm])

theorem setSize_spec (count : Nat) : ∃ m, setSize count = 2 ^ m ∧ count < 2 ^ m := by
  obtain ⟨m, hm, hle⟩ := @growSet_pow (2 * if 0 < count then count else 1) 16 4 rfl
  refine ⟨m, hm, ?_⟩
  split at hle <;> omega

theorem maxFindex_lt_iff (b : Nat) : maxFindex l < b ↔ ∀ f ∈ l, f < b := by
  constructor
  · intro h f hf
    have hle := le_maxFindex hf
    omega
  · intro h
    unfold maxFindex
    refine List.foldlRecOn (motive := fun m : Int => m < b) l _ (by omega) fun m hm f hf => ?_
    have := h f hf
    split <;> omega

theorem tables_fit_iff {functions : List HlFunction} {count : Nat} (hcount : count < 2 ^ 26) :
    (∀ t ∈ identityTables (findexes functions) count, t.Fits) ↔ ∀ f ∈ functions, f.findex < 2 ^ 29 - 2 := by
  have hlimit : (if 0 < count then count else 1) < 2 ^ 26 := by
    split <;> omega
  have hset : setSize count < 2 ^ 28 := by
    have hbound := growSet_bounds (2 * if 0 < count then count else 1) 16
    unfold setSize
    omega
  have hmax : (∀ f ∈ functions, f.findex < 2 ^ 29 - 2) ↔ maxFindex (findexes functions) < (2 ^ 29 - 2 : Nat) := by
    rw [maxFindex_lt_iff, findexes, List.forall_mem_map]
  rw [hmax]
  simp only [identityTables, List.forall_mem_cons, TableRequest.Fits, table]
  constructor
  · rintro ⟨⟨-, hfit⟩, -⟩
    split at hfit <;> omega
  · intro hlt
    refine ⟨?_, by omega, fun _ h => absurd h List.not_mem_nil⟩
    split <;> omega

section Set

variable {seenIds : List (Option Nat)} {m fuel id : Nat} {seen : List Nat}

structure SeenHolds (seenIds : List (Option Nat)) (m : Nat) (seen : List Nat) : Prop where
  size : seenIds.length = 2 ^ m
  valid : OpenAddressing.Valid (fun id => id) (idHome (2 ^ m)) seenIds
  mem : ∀ id, Has seenIds id ↔ id ∈ seen
  load : filled seenIds ≤ seen.length

theorem seenHolds_nil (m : Nat) : SeenHolds (List.replicate (2 ^ m) none) m [] where
  size := List.length_replicate
  valid := valid_empty _ _ _
  mem id := by
    refine ⟨fun ⟨i, hi⟩ => ?_, fun h => absurd h List.not_mem_nil⟩
    rw [cell_replicate] at hi
    cases hi
  load := Nat.le_of_eq (filled_replicate _)

theorem SeenHolds.addId (h : SeenHolds seenIds m seen) (hroom : seen.length < 2 ^ m) (hfuel : 2 ^ m ≤ fuel) (id : Nat) :
    (addId fuel seenIds id = some none ∧ id ∈ seen) ∨
      ∃ seenIds', addId fuel seenIds id = some (some seenIds') ∧ id ∉ seen ∧ SeenHolds seenIds' m (id :: seen) := by
  have hnext : ∀ i < seenIds.length,
      (fun slot => (slot + 1) &&& (seenIds.length - 1)) i = (i + 1) % seenIds.length := by
    intro i _
    rw [h.size]
    exact Nat.and_two_pow_sub_one_eq_mod _ _
  have hhome : idHome (2 ^ m) id < seenIds.length := by
    rw [idHome, Nat.and_two_pow_sub_one_eq_mod, h.size]
    exact Nat.mod_lt _ (Nat.two_pow_pos m)
  obtain ⟨c, hc⟩ : ∃ c, ∀ fuel ≥ seenIds.length, probe (· = id) (fun slot => (slot + 1) &&& (seenIds.length - 1))
      seenIds fuel (idHome (2 ^ m) id) = some c :=
    probe_ends hnext hhome (Nat.lt_of_le_of_lt h.load (h.size ▸ hroom))
  have hprobe := hc fuel (h.size ▸ hfuel)
  obtain ⟨hlt, hwalk⟩ := walk_of_probe hnext hhome hprobe
  have hrun : Code.addId fuel seenIds id =
      some (if cell seenIds c = some id then none else some (seenIds.set c (some id))) := by
    rw [Code.addId, h.size] at *
    rw [hprobe]
    rfl
  rcases h.valid.lookup hnext hhome (fun a _ => by simp) hprobe with ⟨a, ha, rfl⟩ | ⟨hfree, hnew⟩
  · rw [if_pos ha] at hrun
    exact .inl ⟨hrun, (h.mem a).mp ⟨c, ha⟩⟩
  · rw [hfree, if_neg (by simp)] at hrun
    refine .inr ⟨_, hrun, fun hid => hnew id ((h.mem id).mpr hid) rfl, ?_, h.valid.insert hlt hfree hwalk hnew, ?_, ?_⟩
    · rw [List.length_set, h.size]
    · intro x
      rw [has_insert hlt hfree, h.mem x, List.mem_cons]
    · rw [filled_set hlt hfree]
      exact Nat.succ_le_succ h.load

end Set

/-! ### The reader with the set is the reader that compares -/

variable {α : Type} {start : HlIdentities}

theorem follows_ite {β : Type} {c : Prop} [Decidable c] {x x' : ReadM α} {y y' : ReadM β}
    {fits : α → β → Prop} (hx : c → Follows x y fits) (hy : ¬c → Follows x' y' fits) :
    Follows (if c then x else x') (if c then y else y') fits := by
  split
  · exact hx ‹_›
  · exact hy ‹_›

def TurnFits (m n : Nat) :
    Except String HlIdentities → Option (Except String (HlIdentities × List (Option Nat))) → Prop
  | .error e, result => result = some (.error e)
  | .ok ids, result => ∃ seenIds, result = some (.ok ({ ids with seen := [] }, seenIds)) ∧
      SeenHolds seenIds m ids.seen ∧ ids.seen.length = n

variable {seenIds : List (Option Nat)} {m fuel : Nat}

theorem readIdentity_follows (h : SeenHolds seenIds m ids.seen) (hroom : ids.seen.length < 2 ^ m)
    (hfuel : 2 ^ m ≤ fuel) :
    Follows (hlReadFunctionIdentity functions ids) (readIdentity fuel functions { ids with seen := [] } seenIds)
      (TurnFits m (ids.seen.length + 1)) := by
  refine follows_same fun stableId => follows_same fun functionIndex => follows_same fun qualifiedName =>
    follows_ite (fun _ => follows_pure rfl) fun _ => follows_same fun second =>
    follows_ite (fun _ => follows_pure rfl) fun _ => follows_same fun third =>
    follows_ite (fun _ => follows_pure rfl) fun _ => follows_same fun _ => follows_same fun _ =>
    follows_same fun _ => follows_same fun _ => ?_
  rcases h.addId hroom hfuel stableId with ⟨hadd, hseen⟩ | ⟨seenIds', hadd, hnew, h'⟩
  · rw [hadd, if_pos hseen]
    exact follows_pure rfl
  · rw [hadd, if_neg hnew]
    refine follows_same fun s => ?_
    rw [targetOf_eq]
    cases functions.findIdx? (·.findex = functionIndex) with
    | none => exact follows_pure rfl
    | some target =>
      exact follows_ite (fun _ => follows_pure rfl) fun _ => follows_pure ⟨seenIds', rfl, h', rfl⟩

def forgetSeen : Except String HlIdentities → Except String HlIdentities
  | .error e => .error e
  | .ok ids => .ok { ids with seen := [] }

theorem readIdentities_follows {n : Nat} (h : SeenHolds seenIds m ids.seen) (hroom : ids.seen.length + n ≤ 2 ^ m)
    (hfuel : 2 ^ m ≤ fuel) :
    Follows (identityLoop functions n ids) (readIdentities fuel functions n { ids with seen := [] } seenIds)
      fun result result' => result' = some (forgetSeen result) := by
  induction n generalizing ids seenIds with
  | zero => exact follows_same fun s => follows_ite (fun _ => follows_pure rfl) fun _ => follows_pure rfl
  | succ n ih =>
    refine follows_bind (readIdentity_follows h (by omega) hfuel) fun result result' hfits => ?_
    cases result with
    | error e =>
      rw [show result' = some (.error e) from hfits]
      exact follows_pure rfl
    | ok ids' =>
      obtain ⟨seenIds', rfl, h', hlength⟩ := hfits
      exact ih h' (by omega)

/-! ### Sections that are lists of identities -/

def listedIdentity : ReadM (Option (Nat × Nat)) := do
  let stableId ← hlReadUindex
  let functionIndex ← hlReadUindex
  let qualifiedName ← hlSkipString
  let second ← hlSkipString
  let third ← hlSkipString
  let _ ← hlReadIndex
  let _ ← hlReadIndex
  let _ ← hlReadUindex
  let _ ← hlReadUindex
  return if qualifiedName.isNone ∨ second.isNone ∨ third.isNone then none else some (stableId, functionIndex)

/-- The section has a number of identities, these identities, and no more. -/
def IsList (fresh data : Bytes) (size : Nat) (es : List (Nat × Nat)) : Prop :=
  ∃ s, (hlReadUindex >>= fun count => collect listedIdentity count) (.start data size fresh) = .ok (es.map some) s ∧
    s.Clean ∧ s.pos = s.size

/-- The outcome for an identity that was read. -/
def turnOf (functions : List HlFunction) (ids : HlIdentities) (name : List UInt8) (e : Nat × Nat) :
    Except String HlIdentities :=
  if e.1 ∈ ids.seen then .error "Duplicate stable function identity"
  else
    match functions.findIdx? (·.findex = e.2) with
    | none => .error "Invalid function identity"
    | some target =>
      if (ids.stableIds.getD target none).isSome then .error "Invalid function identity"
      else .ok { stableIds := ids.stableIds.set target (some e.1)
                 names := ids.names.set target (some name)
                 seen := e.1 :: ids.seen }

theorem turn_of_listed {e : Nat × Nat} (h : listedIdentity r = .ok (some e) s) (hclean : s.Clean)
    (functions : List HlFunction) (ids : HlIdentities) :
    ∃ name, hlReadFunctionIdentity functions ids r = .ok (turnOf functions ids name e) s := by
  obtain ⟨stableId, r₁, h₁, h⟩ := bind_eq_ok.mp h
  obtain ⟨functionIndex, r₂, h₂, h⟩ := bind_eq_ok.mp h
  obtain ⟨qualifiedName, r₃, h₃, h⟩ := bind_eq_ok.mp h
  obtain ⟨second, r₄, h₄, h⟩ := bind_eq_ok.mp h
  obtain ⟨third, r₅, h₅, h⟩ := bind_eq_ok.mp h
  obtain ⟨_, r₆, h₆, h⟩ := bind_eq_ok.mp h
  obtain ⟨_, r₇, h₇, h⟩ := bind_eq_ok.mp h
  obtain ⟨_, r₈, h₈, h⟩ := bind_eq_ok.mp h
  obtain ⟨_, r₉, h₉, h⟩ := bind_eq_ok.mp h
  obtain ⟨hvalue, rfl⟩ := pure_eq_ok.mp h
  split at hvalue
  · cases hvalue
  rename_i hstrings
  cases hvalue
  rw [not_or, not_or] at hstrings
  refine ⟨(List.range (qualifiedName.getD (0, 0)).2).map fun i => r₉.b ((qualifiedName.getD (0, 0)).1 + i), ?_⟩
  refine bind_eq_ok.mpr ⟨_, r₁, h₁, bind_eq_ok.mpr ⟨_, r₂, h₂, bind_eq_ok.mpr ⟨_, r₃, h₃, ?_⟩⟩⟩
  rw [if_neg hstrings.1]
  refine bind_eq_ok.mpr ⟨_, r₄, h₄, ?_⟩
  rw [if_neg hstrings.2.1]
  refine bind_eq_ok.mpr ⟨_, r₅, h₅, ?_⟩
  rw [if_neg hstrings.2.2]
  refine bind_eq_ok.mpr ⟨_, r₆, h₆, bind_eq_ok.mpr ⟨_, r₇, h₇, ?_⟩⟩
  refine bind_eq_ok.mpr ⟨_, r₈, h₈, bind_eq_ok.mpr ⟨_, r₉, h₉, ?_⟩⟩
  unfold turnOf
  split
  · rfl
  · refine bind_eq_ok.mpr ⟨r₉, r₉, rfl, ?_⟩
    cases functions.findIdx? (·.findex = functionIndex) with
    | none => rfl
    | some target =>
      have hnone : ¬r₉.error.isSome := by rw [show r₉.error = none from hclean]; exact Bool.false_ne_true
      by_cases hbusy : (ids.stableIds.getD target none).isSome
      · simp only [hbusy, hnone, or_true, if_true]
        rfl
      · simp only [hbusy, hnone, or_self]
        rfl

/-- A program that ends clean was clean at its start, and has moved the cursor by `k` at least, inside the buffer. -/
structure Consumes {α : Type} (k : Int) (x : ReadM α) : Prop where
  clean : Yields HlReader.Clean x fun _ => True
  moves : ∀ r a r', x r = .ok a r' → r'.Clean → 0 ≤ r.pos → r.pos ≤ r.size → r.size < 2 ^ 29 →
    r'.size = r.size ∧ r.pos + k ≤ r'.pos ∧ r'.pos ≤ r'.size

theorem consumes_pure (a : α) : Consumes 0 (pure a : ReadM α) where
  clean := yields_pure trivial
  moves r b r' hrun _ _ hle _ := by
    obtain ⟨-, rfl⟩ := pure_eq_ok.mp hrun
    exact ⟨rfl, by omega, hle⟩

theorem consumes_bind {β : Type} {k l : Int} {x : ReadM α} {f : α → ReadM β} (hk : 0 ≤ k) (hx : Consumes k x)
    (hf : ∀ a, Consumes l (f a)) : Consumes (k + l) (x >>= f) where
  clean := yields_bind hx.clean fun a => yields_mono (hf a).clean fun _ _ _ => trivial
  moves r b r' hrun hclean hpos hle hsize := by
    obtain ⟨a, t, hfirst, hrest⟩ := bind_eq_ok.mp hrun
    obtain ⟨hs, hm, hl⟩ := hx.moves r a t hfirst ((hf a).clean t b r' hrest hclean).1 hpos hle hsize
    obtain ⟨hs', hm', hl'⟩ := (hf a).moves t b r' hrest hclean (by omega) hl (by omega)
    exact ⟨hs'.trans hs, by omega, hl'⟩

theorem Consumes.mono {k l : Int} {x : ReadM α} (hx : Consumes k x) (hl : l ≤ k) : Consumes l x where
  clean := hx.clean
  moves r a r' hrun hclean hpos hle hsize := by
    obtain ⟨hs, hm, hl'⟩ := hx.moves r a r' hrun hclean hpos hle hsize
    exact ⟨hs, by omega, hl'⟩

theorem consumes_ite {k : Int} {c : Prop} [Decidable c] {x y : ReadM α} (hx : Consumes k x)
    (hy : Consumes k y) : Consumes k (if c then x else y) := by
  split
  · exact hx
  · exact hy

theorem consumes_dirty {k : Int} {x : ReadM α} (h : Yields HlReader.Clean x fun _ => False) :
    Consumes k x where
  clean := yields_mono h fun _ hf => hf.elim
  moves r a r' hrun hclean := ((h r a r' hrun hclean).2).elim

theorem hlReadB_consumes : Consumes 1 hlReadB where
  clean := hlReadB_clean
  moves r b r' hrun hclean hpos hle hsize := by
    obtain ⟨s, t, hget, hrest⟩ := bind_eq_ok.mp hrun
    cases hget
    split at hrest
    · exact ((yields_error (fun _ => False) r b r' hrest hclean).2).elim
    · obtain ⟨u, s, hset, hreturn⟩ := bind_eq_ok.mp hrest
      cases hset
      obtain ⟨-, rfl⟩ := pure_eq_ok.mp hreturn
      have hsum : addInt r.pos 1 = r.pos + 1 := addInt_eq (by omega) (by omega)
      refine ⟨rfl, ?_, ?_⟩ <;> simp only [HlReader.access, hsum] <;> omega

theorem hlReadIndex_consumes : Consumes 1 hlReadIndex := by
  have hrest {x : ReadM Int} {k : Int} (hx : Consumes k x) (hk : 0 ≤ k) : Consumes 0 x := hx.mono hk
  refine consumes_bind (l := 0) (by decide) hlReadB_consumes fun b =>
    consumes_ite (consumes_pure _) (consumes_ite ?_ ?_)
  · exact hrest (consumes_bind (by decide) hlReadB_consumes fun _ => consumes_pure _) (by decide)
  · exact hrest (consumes_bind (by decide) hlReadB_consumes fun _ => consumes_bind (by decide) hlReadB_consumes
      fun _ => consumes_bind (by decide) hlReadB_consumes fun _ => consumes_pure _) (by decide)

theorem hlReadUindex_consumes : Consumes 1 hlReadUindex :=
  consumes_bind (l := 0) (by decide) hlReadIndex_consumes fun _ =>
    consumes_ite (consumes_dirty (yields_error _)) (consumes_pure _)

theorem hlSkipString_consumes : Consumes 1 hlSkipString := by
  refine consumes_bind (l := 0) (by decide) hlReadUindex_consumes fun length => ?_
  have hread : ∀ r a r', (do
      let s ← get
      if s.size < s.pos + (length : Int) then return none
      else
        set { s with pos := s.pos + (length : Int) }
        return some (s.pos, length) : ReadM (Option (Int × Nat))) r = .ok a r' →
      r'.error = r.error ∧ r'.size = r.size ∧ (r.pos ≤ r.size → r.pos ≤ r'.pos ∧ r'.pos ≤ r.size) := by
    intro r a r' hrun
    obtain ⟨s, t, hget, hrest⟩ := bind_eq_ok.mp hrun
    cases hget
    split at hrest
    · obtain ⟨-, rfl⟩ := pure_eq_ok.mp hrest
      exact ⟨rfl, rfl, fun h => ⟨Int.le_refl _, h⟩⟩
    · obtain ⟨u, s, hset, hreturn⟩ := bind_eq_ok.mp hrest
      cases hset
      obtain ⟨-, rfl⟩ := pure_eq_ok.mp hreturn
      exact ⟨rfl, rfl, fun _ => ⟨show r.pos ≤ r.pos + length by omega, show r.pos + length ≤ r.size by omega⟩⟩
  constructor
  · intro r a r' hrun hclean
    exact ⟨(hread r a r' hrun).1.symm.trans hclean, trivial⟩
  · intro r a r' hrun _ _ hle _
    obtain ⟨-, hsize, hmove⟩ := hread r a r' hrun
    exact ⟨hsize, by have := hmove hle; omega, by have := hmove hle; omega⟩

theorem listedIdentity_consumes : Consumes 9 listedIdentity :=
  consumes_bind (l := 8) (by decide) hlReadUindex_consumes fun _ =>
    consumes_bind (l := 7) (by decide) hlReadUindex_consumes fun _ =>
    consumes_bind (l := 6) (by decide) hlSkipString_consumes fun _ =>
    consumes_bind (l := 5) (by decide) hlSkipString_consumes fun _ =>
    consumes_bind (l := 4) (by decide) hlSkipString_consumes fun _ =>
    consumes_bind (l := 3) (by decide) hlReadIndex_consumes fun _ =>
    consumes_bind (l := 2) (by decide) hlReadIndex_consumes fun _ =>
    consumes_bind (l := 1) (by decide) hlReadUindex_consumes fun _ =>
    consumes_bind (l := 0) (by decide) hlReadUindex_consumes fun _ => consumes_pure _

theorem collect_consumes (n : Nat) : Consumes (9 * n) (collect listedIdentity n) := by
  induction n with
  | zero => exact consumes_pure _
  | succ n ih =>
    refine (consumes_bind (by decide) listedIdentity_consumes fun _ =>
      consumes_bind (by omega) ih fun _ => consumes_pure _).mono ?_
    omega

/-- The identities have ids of their own and are for functions of their own, which have no id from before. -/
structure Accepts (functions : List HlFunction) (start : HlIdentities) (es : List (Nat × Nat)) : Prop where
  ids : (es.map Prod.fst).Nodup
  targets : (es.map Prod.snd).Nodup
  named : ∀ e ∈ es, ∃ t, functions.findIdx? (·.findex = e.2) = some t ∧ (start.stableIds.getD t none).isSome = false

/-- How a section ends: the identities are accepted, or the first one that is not has an id of an earlier one, or is
for a function that is not there or is taken. -/
inductive Outcome (functions : List HlFunction) (start : HlIdentities) (es : List (Nat × Nat)) :
    Except String HlIdentities → Prop
  | accepted (ids : HlIdentities) (h : Accepts functions start es) : Outcome functions start es (.ok ids)
  | duplicate (pre : List (Nat × Nat)) (e : Nat × Nat) (post : List (Nat × Nat)) (hes : es = pre ++ e :: post)
      (hid : e.1 ∈ pre.map Prod.fst) :
      Outcome functions start es (.error "Duplicate stable function identity")
  | invalid (pre : List (Nat × Nat)) (e : Nat × Nat) (post : List (Nat × Nat)) (hes : es = pre ++ e :: post)
      (hnot : e.2 ∈ pre.map Prod.snd ∨ functions.findIdx? (·.findex = e.2) = none ∨
        ∃ t, functions.findIdx? (·.findex = e.2) = some t ∧ (start.stableIds.getD t none).isSome) :
      Outcome functions start es (.error "Invalid function identity")

/-- What has been read when the identities so far were accepted. -/
structure Read (functions : List HlFunction) (start ids : HlIdentities) (pre : List (Nat × Nat)) : Prop where
  accepts : Accepts functions start pre
  seen : ∀ id, id ∈ ids.seen ↔ id ∈ pre.map Prod.fst
  length : ids.stableIds.length = functions.length
  busy : ∀ t, (ids.stableIds.getD t none).isSome ↔ (start.stableIds.getD t none).isSome ∨
    ∃ e ∈ pre, functions.findIdx? (·.findex = e.2) = some t

theorem findIdx_findex {functions : List HlFunction} {k t : Nat} (h : functions.findIdx? (·.findex = k) = some t) :
    t < functions.length ∧ ∀ k', functions.findIdx? (·.findex = k') = some t → k' = k := by
  obtain ⟨hlt, hk, -⟩ := List.findIdx?_eq_some_iff_getElem.mp h
  refine ⟨hlt, fun k' h' => ?_⟩
  obtain ⟨_, hk', _⟩ := List.findIdx?_eq_some_iff_getElem.mp h'
  exact (of_decide_eq_true hk').symm.trans (of_decide_eq_true hk)

theorem Read.turn (h : Read functions start ids pre) (name : List UInt8) (e : Nat × Nat)
    (post : List (Nat × Nat)) :
    (∃ ids', turnOf functions ids name e = .ok ids' ∧ Read functions start ids' (pre ++ [e])) ∨
      ∃ message, turnOf functions ids name e = .error message ∧
        Outcome functions start (pre ++ e :: post) (.error message) := by
  unfold turnOf
  by_cases hseen : e.1 ∈ ids.seen
  · rw [if_pos hseen]
    exact .inr ⟨_, rfl, .duplicate pre e post rfl ((h.seen e.1).mp hseen)⟩
  rw [if_neg hseen]
  cases htarget : functions.findIdx? (·.findex = e.2) with
  | none => exact .inr ⟨_, rfl, .invalid pre e post rfl (.inr (.inl htarget))⟩
  | some t =>
    obtain ⟨hlt, hone⟩ := findIdx_findex htarget
    dsimp only
    by_cases hbusy : (ids.stableIds.getD t none).isSome
    · rw [if_pos hbusy]
      refine .inr ⟨_, rfl, .invalid pre e post rfl ?_⟩
      rcases (h.busy t).mp hbusy with hstart | ⟨e', he', hsame⟩
      · exact .inr (.inr ⟨t, htarget, hstart⟩)
      · exact .inl (List.mem_map.mpr ⟨e', he', hone _ hsame⟩)
    · rw [if_neg hbusy]
      have hfree : ¬(start.stableIds.getD t none).isSome := fun hstart => hbusy ((h.busy t).mpr (.inl hstart))
      refine .inl ⟨_, rfl, ⟨?_, ?_, ?_⟩, ?_, ?_, ?_⟩
      · rw [List.map_append, List.nodup_append]
        refine ⟨h.accepts.ids, List.nodup_singleton _, ?_⟩
        rintro id hid _ hlast rfl
        exact hseen ((h.seen _).mpr ((List.mem_singleton.mp hlast) ▸ hid))
      · rw [List.map_append, List.nodup_append]
        refine ⟨h.accepts.targets, List.nodup_singleton _, ?_⟩
        rintro f hf _ hlast rfl
        obtain ⟨e', he', heq⟩ := List.mem_map.mp hf
        have hsame : e'.2 = e.2 := heq.trans (List.mem_singleton.mp hlast)
        exact hbusy ((h.busy t).mpr (.inr ⟨e', he', by rw [hsame]; exact htarget⟩))
      · intro e' he'
        rcases List.mem_append.mp he' with he' | he'
        · exact h.accepts.named e' he'
        · rw [List.mem_singleton.mp he']
          exact ⟨t, htarget, Bool.eq_false_iff.mpr hfree⟩
      · intro id
        rw [List.mem_cons, h.seen id, List.map_append, List.mem_append, List.map_singleton, List.mem_singleton,
          or_comm]
      · rw [List.length_set, h.length]
      · intro t'
        have hget : (ids.stableIds.set t (some e.1)).getD t' none =
            if t' = t then some e.1 else ids.stableIds.getD t' none := by
          rw [List.getD_eq_getElem?_getD, List.getElem?_set]
          by_cases ht : t' = t
          · subst ht
            simp [h.length, hlt]
          · rw [if_neg (Ne.symm ht), if_neg ht, ← List.getD_eq_getElem?_getD]
        rw [hget]
        by_cases ht : t' = t
        · subst ht
          rw [if_pos rfl]
          exact iff_of_true rfl (.inr ⟨e, by simp, htarget⟩)
        · rw [if_neg ht, h.busy t']
          refine or_congr_right ⟨fun ⟨e', he', hsame⟩ => ⟨e', List.mem_append_left _ he', hsame⟩, ?_⟩
          rintro ⟨e', he', hsame⟩
          rcases List.mem_append.mp he' with he' | he'
          · exact ⟨e', he', hsame⟩
          · rw [List.mem_singleton.mp he'] at hsame
            exact absurd (Option.some.inj (hsame.symm.trans htarget)) ht

theorem identityLoop_outcome {n : Nat} {rest : List (Nat × Nat)} (h : Read functions start ids pre)
    (hlist : collect listedIdentity n r = .ok (rest.map some) s) (hclean : s.Clean) (hend : s.pos = s.size) :
    ∃ result t, identityLoop functions n ids r = .ok result t ∧ Outcome functions start (pre ++ rest) result := by
  induction n generalizing ids pre rest r with
  | zero =>
    obtain ⟨hnil, rfl⟩ := pure_eq_ok.mp hlist
    cases rest with
    | cons e rest => cases hnil
    | nil =>
      refine ⟨.ok ids, r, ?_, .accepted ids (by simpa using h.accepts)⟩
      refine bind_eq_ok.mpr ⟨r, r, rfl, ?_⟩
      rw [if_neg (not_not_intro hend)]
      rfl
  | succ n ih =>
    obtain ⟨o, r₁, hone, hlist⟩ := bind_eq_ok.mp hlist
    obtain ⟨l, r₂, hrest, hlist⟩ := bind_eq_ok.mp hlist
    obtain ⟨hcons, rfl⟩ := pure_eq_ok.mp hlist
    cases rest with
    | nil => cases hcons
    | cons e rest =>
      cases hcons
      obtain ⟨name, hturn⟩ := turn_of_listed hone ((collect_consumes n).clean _ _ _ hrest hclean).1 functions ids
      rcases h.turn name e rest with ⟨ids', hok, h'⟩ | ⟨message, herror, houtcome⟩
      · obtain ⟨result, t, hloop, houtcome⟩ := ih h' hrest
        refine ⟨result, t, bind_eq_ok.mpr ⟨_, r₁, hturn, ?_⟩, by simpa using houtcome⟩
        rw [hok]
        exact hloop
      · refine ⟨.error message, r₁, bind_eq_ok.mpr ⟨_, r₁, hturn, ?_⟩, houtcome⟩
        rw [herror]
        rfl

/-- A section that is a list of identities, as it is read: its size is an index, there is no error yet, and there is an
id for each function. -/
structure IsSection (functions : List HlFunction) (ids : HlIdentities) (data : Bytes) (size : Nat) (r : HlReader)
    (es : List (Nat × Nat)) : Prop where
  clean : r.Clean
  size_lt : size < 2 ^ 29
  length : ids.stableIds.length = functions.length
  list : IsList r.fresh data size es

/-- The identity is for a function that is there and has no id yet. -/
def Free (functions : List HlFunction) (ids : HlIdentities) (e : Nat × Nat) : Prop :=
  ∃ t, functions.findIdx? (·.findex = e.2) = some t ∧ (ids.stableIds.getD t none).isSome = false

/-- What the error says about the identities. -/
structure Tells (functions : List HlFunction) (ids : HlIdentities) (es : List (Nat × Nat)) (error : Option String) :
    Prop where
  /-- An error is reported exactly when two identities have one id or are for one function. -/
  reported : (∀ e ∈ es, Free functions ids e) →
    (error ≠ none ↔ ¬(es.map Prod.fst).Nodup ∨ ¬(es.map Prod.snd).Nodup)
  /-- That an id is there twice is reported only when it is. -/
  duplicate : error = some "Duplicate stable function identity" → ¬(es.map Prod.fst).Nodup
  /-- It is what is reported when the functions are different. -/
  exact : (∀ e ∈ es, Free functions ids e) → (es.map Prod.snd).Nodup →
    (error = some "Duplicate stable function identity" ↔ ¬(es.map Prod.fst).Nodup)

/-- The section is read to its end, and what is reported is right. -/
def Detects (functions : List HlFunction) (ids : HlIdentities) (data : Bytes) (size : Nat) (r : HlReader)
    (es : List (Nat × Nat)) : Prop :=
  ∃ ids' r' n, (∀ fuel ≥ n, readFunctionIdentities fuel functions ids data size r = .ok (some ids') r') ∧
    Tells functions ids es r'.error

theorem not_nodup_of_mem {f : Nat × Nat → Nat} {e : Nat × Nat} {post : List (Nat × Nat)}
    (hl : l = (pre ++ e :: post).map f) (he : f e ∈ pre.map f) : ¬l.Nodup := by
  rw [hl, List.map_append, List.nodup_append, List.map_cons]
  rintro ⟨-, -, hne⟩
  exact hne _ he _ List.mem_cons_self rfl

theorem Outcome.tells {es : List (Nat × Nat)} {result : Except String HlIdentities}
    (h : Outcome functions start es result) :
    Tells functions start es (match result with | .ok _ => none | .error e => some e) := by
  cases h with
  | accepted ids h =>
    refine ⟨fun _ => iff_of_false (not_not_intro rfl) ?_, nofun, fun _ _ => iff_of_false nofun (not_not_intro h.ids)⟩
    rintro (hids | htargets)
    · exact hids h.ids
    · exact htargets h.targets
  | duplicate pre e post hes hid =>
    have hids : ¬(es.map Prod.fst).Nodup := not_nodup_of_mem (congrArg (List.map Prod.fst) hes) hid
    exact ⟨fun _ => iff_of_true nofun (.inl hids), fun _ => hids, fun _ _ => iff_of_true rfl hids⟩
  | invalid pre e post hes hnot =>
    have htargets : (∀ e ∈ es, Free functions start e) → ¬(es.map Prod.snd).Nodup := by
      intro hfree
      rcases hnot with htwice | hnone | ⟨t, ht, hbusy⟩
      · exact not_nodup_of_mem (congrArg (List.map Prod.snd) hes) htwice
      · obtain ⟨t, ht, -⟩ := hfree e (by rw [hes]; simp)
        rw [hnone] at ht
        cases ht
      · obtain ⟨t', ht', hidle⟩ := hfree e (by rw [hes]; simp)
        cases ht.symm.trans ht'
        rw [hbusy] at hidle
        cases hidle
    have hother : (some "Invalid function identity" : Option String) ≠ some "Duplicate stable function identity" := by
      decide
    exact ⟨fun hfree => iff_of_true nofun (.inr (htargets hfree)), fun h => absurd h hother,
      fun hfree hnodup => absurd hnodup (htargets hfree)⟩

section Section

variable {data : Bytes} {size : Nat} {es : List (Nat × Nat)}

theorem IsSection.count (h : IsSection functions ids data size r es) :
    ∃ count t s, hlReadUindex (.start data size r.fresh) = .ok count t ∧
      collect listedIdentity count t = .ok (es.map some) s ∧ s.Clean ∧ s.pos = s.size ∧ count < 2 ^ 26 := by
  obtain ⟨s, hrun, hclean, hend⟩ := h.list
  obtain ⟨count, t, hcount, hlist⟩ := bind_eq_ok.mp hrun
  have hsize := h.size_lt
  have hmid := ((collect_consumes count).clean _ _ _ hlist hclean).1
  obtain ⟨hs, hm, hl⟩ := hlReadUindex_consumes.moves _ _ _ hcount hmid (Int.le_refl 0)
    (show (0 : Int) ≤ size by omega) (show (size : Int) < 2 ^ 29 by omega)
  have hstart : (HlReader.start data size r.fresh).pos = 0 ∧ (HlReader.start data size r.fresh).size = size :=
    ⟨rfl, rfl⟩
  obtain ⟨hs', hm', hl'⟩ := (collect_consumes count).moves _ _ _ hlist hclean (by omega) hl (by omega)
  exact ⟨count, t, s, hcount, hlist, hclean, hend, by omega⟩

theorem read_nil (functions : List HlFunction) {ids : HlIdentities} (h : ids.stableIds.length = functions.length) :
    Read functions ids { ids with seen := [] } [] where
  accepts := ⟨List.nodup_nil, List.nodup_nil, fun _ h => absurd h List.not_mem_nil⟩
  seen _ := iff_of_false List.not_mem_nil List.not_mem_nil
  length := h
  busy _ := (or_iff_left (fun ⟨_, h, _⟩ => absurd h List.not_mem_nil)).symm

theorem detects_of_fits (h : IsSection functions ids data size r es) (hfit : ∀ f ∈ functions, f.findex < 2 ^ 29 - 2) :
    Detects functions ids data size r es := by
  obtain ⟨count, t, s, hcount, hlist, hclean, hend, hlt⟩ := h.count
  obtain ⟨m, hset, hroom⟩ := setSize_spec count
  obtain ⟨result, t', hloop, houtcome⟩ := identityLoop_outcome (read_nil functions h.length) hlist hclean hend
  have hread : ∀ fuel ≥ 2 ^ m, readIdentities fuel functions count { ids with seen := [] }
      (List.replicate (setSize count) none) t = .ok (some (forgetSeen result)) t' := by
    intro fuel hfuel
    have hroom' : ({ ids with seen := [] } : HlIdentities).seen.length + count ≤ 2 ^ m := by
      rw [List.length_nil]
      omega
    obtain ⟨result', hrun, rfl⟩ := readIdentities_follows (seenHolds_nil m) hroom' hfuel t result t' hloop
    rw [hset]
    exact hrun
  have hsection : ∀ fuel ≥ 2 ^ m, withSection data size (do
      let count ← hlReadUindex
      if ∀ t ∈ identityTables (findexes functions) count, t.Fits then
        readIdentities fuel functions count { ids with seen := [] } (List.replicate (setSize count) none)
      else return none) r = .ok (some (forgetSeen result)) (r.back t') := by
    intro fuel hfuel
    unfold withSection
    rw [bind_eq_ok.mpr ⟨count, t, hcount,
      (congrFun (if_pos ((tables_fit_iff hlt).mpr hfit)) t).trans (hread fuel hfuel)⟩]
  have hclean := h.clean
  have htells := houtcome.tells
  cases result with
  | ok ids' =>
    refine ⟨_, r.back t', 2 ^ m, fun fuel hfuel => bind_eq_ok.mpr ⟨_, _, hsection fuel hfuel, rfl⟩, ?_⟩
    rw [show (r.back t').error = none from h.clean]
    exact htells
  | error e =>
    refine ⟨_, (r.back t').note e, 2 ^ m, fun fuel hfuel => bind_eq_ok.mpr ⟨_, _, hsection fuel hfuel, rfl⟩, ?_⟩
    have herror : ((r.back t').note e).error = some e := by
      show some ((r.back t').error.getD e) = some e
      rw [show (r.back t').error = none from h.clean]
      rfl
    rw [herror]
    exact htells

theorem not_detects (h : IsSection functions ids data size r es)
    (hlarge : ¬∀ f ∈ functions, f.findex < 2 ^ 29 - 2) : ¬Detects functions ids data size r es := by
  rintro ⟨ids', r', n, hrun, -⟩
  obtain ⟨count, t, s, hcount, -, -, -, hlt⟩ := h.count
  obtain ⟨result, r₁, hsection, hrest⟩ := bind_eq_ok.mp (hrun n (Nat.le_refl n))
  obtain ⟨t', hinner, -⟩ := withSection_eq_ok hsection
  obtain ⟨count', t₁, hcount', hinner⟩ := bind_eq_ok.mp hinner
  cases hcount.symm.trans hcount'
  rw [if_neg fun hfit => hlarge ((tables_fit_iff hlt).mp hfit)] at hinner
  cases hinner
  cases hrest

/-- The identities of a section are read to their end, and those that give one id or name one function are reported,
exactly when no function has one of the two largest indices: the table of the functions by their index has no memory
then. -/
theorem identity_set_detects_iff (h : IsSection functions ids data size r es) :
    Detects functions ids data size r es ↔ ∀ f ∈ functions, f.findex < 2 ^ 29 - 2 := by
  refine ⟨fun hdetects => ?_, detects_of_fits h⟩
  by_contra hlarge
  exact not_detects h hlarge hdetects

end Section

def isList (data : Bytes) (size : Nat) (es : List (Nat × Nat)) : Bool :=
  match (hlReadUindex >>= fun count => collect listedIdentity count) (.start data size fun _ => 0) with
  | .ok l s => l = es.map some && s.error = none && s.pos = s.size
  | .error _ _ => false

theorem isList_sound {data : Bytes} {size : Nat} {es : List (Nat × Nat)} (h : isList data size es = true) :
    IsList (fun _ => 0) data size es := by
  unfold isList at h
  split at h
  · rename_i l s hrun
    rw [Bool.and_eq_true, Bool.and_eq_true, decide_eq_true_iff, decide_eq_true_iff, decide_eq_true_iff] at h
    obtain ⟨⟨rfl, hclean⟩, hend⟩ := h
    exact ⟨s, hrun, hclean, hend⟩
  · cases h

/-- A section with the id 5 for two functions. -/
def sharedIdentity : List UInt8 := [2, 5, 0, 0, 0, 0, 0, 0, 0, 0, 5, 1, 0, 0, 0, 0, 0, 0, 0]

def twoFunctions : List HlFunction := [⟨0, 0, [], [], [], []⟩, ⟨0, 1, [], [], [], []⟩]

def largestIndex : List UInt8 :=
  [2, 5, 0xDF, 0xFF, 0xFF, 0xFF, 0, 0, 0, 0, 0, 0, 0, 5, 0xDF, 0xFF, 0xFF, 0xFF, 0, 0, 0, 0, 0, 0, 0]

theorem sharedIdentity_section : IsSection twoFunctions ⟨[none, none], [none, none], []⟩ (bytesOf sharedIdentity) 19
    (.start (fun _ => 0) 0 fun _ => 0) [(5, 0), (5, 1)] :=
  ⟨rfl, by decide, rfl, isList_sound (by decide +kernel)⟩

theorem largestIndex_section : IsSection [⟨0, 2 ^ 29 - 1, [], [], [], []⟩] ⟨[none], [none], []⟩ (bytesOf largestIndex)
    25 (.start (fun _ => 0) 0 fun _ => 0) [(5, 2 ^ 29 - 1), (5, 2 ^ 29 - 1)] :=
  ⟨rfl, by decide, rfl, isList_sound (by decide +kernel)⟩

theorem sharedIdentity_detected : ∃ ids' r' n,
    (∀ fuel ≥ n, readFunctionIdentities fuel twoFunctions ⟨[none, none], [none, none], []⟩ (bytesOf sharedIdentity) 19
      (.start (fun _ => 0) 0 fun _ => 0) = .ok (some ids') r') ∧
      r'.error = some "Duplicate stable function identity" := by
  obtain ⟨ids', r', n, hrun, htells⟩ := (identity_set_detects_iff sharedIdentity_section).mpr (by decide)
  refine ⟨ids', r', n, hrun, (htells.exact (fun e he => ?_) (by decide)).mpr (by decide)⟩
  rcases List.mem_pair.mp he with rfl | rfl
  · exact ⟨0, by decide, rfl⟩
  · exact ⟨1, by decide, rfl⟩

theorem largestIndex_not_detected : ¬∀ (functions : List HlFunction) (ids : HlIdentities) (data : Bytes) (size : Nat)
    (r : HlReader) (es : List (Nat × Nat)), IsSection functions ids data size r es →
      Detects functions ids data size r es :=
  fun hall => not_detects largestIndex_section (by decide) (hall _ _ _ _ _ _ largestIndex_section)

end HashLink.Code
