import Mathlib.Data.List.Basic
import Mathlib.Logic.Function.Basic
import Miqs.SparseArray

/-! The sparse array for any kind of key, with its bounds and its counter. A run of
insertions is described by the calls that were accepted. -/
namespace Miqs.SparseRuns
open Miqs.CData Miqs.SparseIndex
variable {K D : Type}

structure SpaSizeInfo where
  size : Nat
  maxSize : Nat
  count : Nat
  deriving DecidableEq

structure SparseArrayT (D : Type) where
  sizeInfo : SpaSizeInfo
  array : Nat → Option (List D)

def spaInit (junk : Nat → Option (List D)) (initialSize maxSize : Nat) : SparseArrayT D :=
  let size := if initialSize > spaSizeMin then initialSize else spaSizeMin
  ⟨⟨size, maxSize, 0⟩, fun i => if i < size then none else junk i⟩

def fillNull : Nat → Nat → (Nat → Option (List D)) → Nat → Option (List D)
  | 0, _, space => space
  | n + 1, arrIdx, space => fillNull n (arrIdx + 1) (Function.update space arrIdx none)

def grow (junk : Nat → Option (List D)) (spa : SparseArrayT D) (newSize : Nat) : SparseArrayT D :=
  let size := spa.sizeInfo.size
  let newSpace := fun i => if i < size then spa.array i else junk i
  ⟨{ spa.sizeInfo with size := newSize }, fillNull (newSize - size) size newSpace⟩

def putElement (spa : SparseArrayT D) (pos : Nat) (data : D) : SparseArrayT D :=
  ⟨{ spa.sizeInfo with count := spa.sizeInfo.count + 1 },
    Function.update spa.array pos (some (pushElement data (spa.array pos)))⟩

/-- `locate` is the result of `locate_cb` as a `size_t`, or the key itself. No result where the
block that `realloc` gives is none at all or smaller than the slots to be filled. -/
def setElementToSparseArray (junk : Nat → Option (List D)) (locate : K → BitVec 64)
    (spa : SparseArrayT D) (key : K) (data : D) : Option (Int × SparseArrayT D) :=
  let pos := (locate key).toNat
  if pos ≥ spa.sizeInfo.size then
    if spa.sizeInfo.maxSize > 0 ∧ pos ≥ spa.sizeInfo.maxSize then some (-1, spa)
    else
      let newSize := (pos + 1) % 2^64
      let bytes := newSize * 8 % 2^64
      if reallocFails bytes then some (-1, spa)
      else if bytes ≠ 0 ∧ bytes = newSize * 8 then
        some (0, putElement (grow junk spa newSize) pos data)
      else none
  else some (0, putElement spa pos data)

def getElementInSparseArray (locate : K → BitVec 64) (spa : SparseArrayT D) (key : K) :
    Option (List D) :=
  if (locate key).toNat ≥ spa.sizeInfo.size then none else spa.array (locate key).toNat

def setElements (junk : Nat → Option (List D)) (locate : K → BitVec 64) :
    List (K × D) → SparseArrayT D → Option (List Int × SparseArrayT D)
  | [], spa => some ([], spa)
  | c :: calls, spa =>
    match setElementToSparseArray junk locate spa c.1 c.2 with
    | none => none
    | some (rst, spa) => (setElements junk locate calls spa).map fun r => (rst :: r.1, r.2)

theorem fillNull_apply (n arrIdx : Nat) (space : Nat → Option (List D)) (i : Nat) :
    fillNull n arrIdx space i = if arrIdx ≤ i ∧ i < arrIdx + n then none else space i := by
  induction n generalizing arrIdx space with
  | zero => rw [fillNull, if_neg (by omega)]
  | succ n ih =>
    rw [fillNull, ih, Function.update_apply]
    split_ifs <;> first | rfl | omega

def Refused (info : SpaSizeInfo) (pos : Nat) : Prop :=
  info.size ≤ pos ∧ 0 < info.maxSize ∧ info.maxSize ≤ pos

instance (info : SpaSizeInfo) (pos : Nat) : Decidable (Refused info pos) :=
  inferInstanceAs (Decidable (_ ∧ _))

def baseSize (initialSize : Nat) : Nat := max initialSize spaSizeMin

/-- A position that makes the array grow asks for a block that can be had: no object is larger
than `PTRDIFF_MAX` bytes. -/
def ReallocSucceeds (initialSize maxSize pos : Nat) : Prop :=
  baseSize initialSize ≤ pos → (maxSize = 0 ∨ pos < maxSize) → (pos + 1) * 8 < 2^63

instance (initialSize maxSize pos : Nat) : Decidable (ReallocSucceeds initialSize maxSize pos) :=
  inferInstanceAs (Decidable (_ → _))

def roomFor (spa : SparseArrayT D) (pos i : Nat) : Option (List D) :=
  if i < spa.sizeInfo.size then spa.array i else if i ≤ pos then none else spa.array i

/-- A call either refuses or puts its data into a slot of an array that is long enough. -/
theorem setElement_cases (junk : Nat → Option (List D)) {locate : K → BitVec 64}
    {spa : SparseArrayT D} {initialSize : Nat} {key : K} (data : D)
    (hbase : baseSize initialSize ≤ spa.sizeInfo.size)
    (hgrow : ReallocSucceeds initialSize spa.sizeInfo.maxSize (locate key).toNat) :
    (Refused spa.sizeInfo (locate key).toNat ∧
      setElementToSparseArray junk locate spa key data = some (-1, spa)) ∨
    (¬ Refused spa.sizeInfo (locate key).toNat ∧ ∃ array,
      setElementToSparseArray junk locate spa key data = some (0,
        ⟨⟨max spa.sizeInfo.size ((locate key).toNat + 1), spa.sizeInfo.maxSize,
          spa.sizeInfo.count + 1⟩, array⟩) ∧
      ∀ i < max spa.sizeInfo.size ((locate key).toNat + 1),
        array i = if i = (locate key).toNat then
          some (pushElement data (roomFor spa (locate key).toNat (locate key).toNat))
        else roomFor spa (locate key).toNat i) := by
  generalize hpos : (locate key).toNat = pos at *
  by_cases hlt : pos < spa.sizeInfo.size
  · right
    refine ⟨fun hr => absurd hr.1 (by omega), Function.update spa.array pos
      (some (pushElement data (spa.array pos))), ?_, ?_⟩
    · rw [setElementToSparseArray, hpos]
      simp only [ge_iff_le, if_neg (Nat.not_le.mpr hlt), putElement,
        max_eq_left (Nat.succ_le_of_lt hlt)]
    · intro i hi
      have hsize : i < spa.sizeInfo.size := by omega
      rw [Function.update_apply, roomFor, roomFor, if_pos hsize, if_pos hlt]
  · by_cases hmax : spa.sizeInfo.maxSize > 0 ∧ pos ≥ spa.sizeInfo.maxSize
    · left
      refine ⟨⟨by omega, hmax⟩, ?_⟩
      rw [setElementToSparseArray, hpos]
      simp only [ge_iff_le, if_pos (Nat.not_lt.mp hlt), if_pos hmax]
    · right
      have hbytes : (pos + 1) * 8 < 2^63 := hgrow (by omega) (by omega)
      have hnew : (pos + 1) % 2^64 = pos + 1 := Nat.mod_eq_of_lt (by omega)
      have hblock : (pos + 1) * 8 % 2^64 = (pos + 1) * 8 := Nat.mod_eq_of_lt (by omega)
      have hgiven : ¬ reallocFails ((pos + 1) * 8) := by
        rw [reallocFails]
        omega
      refine ⟨fun hr => hmax hr.2, (putElement (grow junk spa (pos + 1)) pos data).array, ?_, ?_⟩
      · rw [setElementToSparseArray, hpos]
        simp only [ge_iff_le, if_pos (Nat.not_lt.mp hlt), if_neg hmax, hnew, hblock, if_neg hgiven]
        rw [if_pos ⟨by omega, trivial⟩, max_eq_right (by omega : spa.sizeInfo.size ≤ pos + 1)]
        rfl
      · -- the fresh slots were filled with NULL before the position was written
        intro i hi
        simp only [putElement, grow, Function.update_apply, fillNull_apply, roomFor]
        split_ifs <;> first | rfl | omega

def accepted (locate : K → BitVec 64) (calls : List (K × D)) (rsts : List Int) : List (Nat × D) :=
  ((calls.zip rsts).filter fun c => c.2 = 0).map fun c => ((locate c.1.1).toNat, c.1.2)

def sizeAfter (initialSize : Nat) (done : List (Nat × D)) : Nat :=
  done.foldl (fun size c => max size (c.1 + 1)) (baseSize initialSize)

def dataAt (done : List (Nat × D)) (pos : Nat) : List D :=
  (done.filter fun c => c.1 = pos).map Prod.snd

def slotOf : List D → Option (List D)
  | [] => none
  | ds => some ds

structure Holds (initialSize maxSize : Nat) (done : List (Nat × D)) (spa : SparseArrayT D) :
    Prop where
  size_eq : spa.sizeInfo.size = sizeAfter initialSize done
  maxSize_eq : spa.sizeInfo.maxSize = maxSize
  count_eq : spa.sizeInfo.count = done.length
  array_eq : ∀ p < spa.sizeInfo.size, spa.array p = slotOf (dataAt done p)

theorem sizeAfter_append (initialSize : Nat) (done : List (Nat × D)) (c : Nat × D) :
    sizeAfter initialSize (done ++ [c]) = max (sizeAfter initialSize done) (c.1 + 1) := by
  simp [sizeAfter]

theorem baseSize_le_sizeAfter (initialSize : Nat) (done : List (Nat × D)) :
    baseSize initialSize ≤ sizeAfter initialSize done := by
  induction done using List.reverseRecOn with
  | nil => exact le_rfl
  | append_singleton done c ih =>
    rw [sizeAfter_append]
    omega

theorem lt_sizeAfter {initialSize : Nat} {done : List (Nat × D)} {c : Nat × D} (h : c ∈ done) :
    c.1 < sizeAfter initialSize done := by
  induction done using List.reverseRecOn with
  | nil => cases h
  | append_singleton done d ih =>
    rw [sizeAfter_append]
    rcases List.mem_append.mp h with hd | hd
    · exact lt_of_lt_of_le (ih hd) (le_max_left _ _)
    · rw [List.mem_singleton.mp hd]
      omega

/-- Nothing was put at a position beyond the size. -/
theorem dataAt_eq_nil {initialSize : Nat} {done : List (Nat × D)} {p : Nat}
    (h : sizeAfter initialSize done ≤ p) : dataAt done p = [] := by
  rw [dataAt, List.map_eq_nil_iff, List.filter_eq_nil_iff]
  intro c hc hp
  have hlt : c.1 < sizeAfter initialSize done := lt_sizeAfter hc
  have heq : c.1 = p := of_decide_eq_true hp
  omega

theorem dataAt_append (done : List (Nat × D)) (c : Nat × D) (p : Nat) :
    dataAt (done ++ [c]) p = if c.1 = p then dataAt done p ++ [c.2] else dataAt done p := by
  rw [dataAt, List.filter_append, List.map_append, ← dataAt]
  by_cases h : c.1 = p <;> simp [h]

theorem some_pushElement (data : D) (ds : List D) :
    some (pushElement data (slotOf ds)) = slotOf (ds ++ [data]) := by
  cases ds <;> rfl

theorem holds_spaInit (junk : Nat → Option (List D)) (initialSize maxSize : Nat) :
    Holds initialSize maxSize [] (spaInit junk initialSize maxSize) := by
  have hsize : (spaInit junk initialSize maxSize).sizeInfo.size = baseSize initialSize := by
    simp only [spaInit, baseSize]
    split_ifs <;> omega
  refine ⟨hsize, rfl, rfl, ?_⟩
  intro p hp
  exact if_pos hp

theorem Holds.roomFor {initialSize maxSize : Nat} {done : List (Nat × D)} {spa : SparseArrayT D}
    (h : Holds initialSize maxSize done spa) {pos i : Nat}
    (hi : i < max spa.sizeInfo.size (pos + 1)) :
    roomFor spa pos i = slotOf (dataAt done i) := by
  rw [SparseRuns.roomFor]
  split_ifs with hlt hle
  · exact h.array_eq i hlt
  · have hsize := h.size_eq
    rw [dataAt_eq_nil (show sizeAfter initialSize done ≤ i by omega)]
    rfl
  · omega

/-- What one call does: it refuses and changes nothing, or it is one more accepted call. -/
theorem Holds.setElement {initialSize maxSize : Nat} {done : List (Nat × D)} {spa : SparseArrayT D}
    (h : Holds initialSize maxSize done spa) (junk : Nat → Option (List D))
    {locate : K → BitVec 64} {key : K} (data : D)
    (hgrow : ReallocSucceeds initialSize maxSize (locate key).toNat) :
    (Refused spa.sizeInfo (locate key).toNat ∧
      setElementToSparseArray junk locate spa key data = some (-1, spa)) ∨
    (¬ Refused spa.sizeInfo (locate key).toNat ∧ ∃ spa',
      setElementToSparseArray junk locate spa key data = some (0, spa') ∧
      Holds initialSize maxSize (done ++ [((locate key).toNat, data)]) spa') := by
  have hbase : baseSize initialSize ≤ spa.sizeInfo.size := by
    rw [h.size_eq]
    exact baseSize_le_sizeAfter initialSize done
  rw [← h.maxSize_eq] at hgrow
  rcases setElement_cases junk data hbase hgrow with hr | ⟨hr, array, hset, harray⟩
  · exact Or.inl hr
  · refine Or.inr ⟨hr, _, hset, ?_, h.maxSize_eq, ?_, ?_⟩
    · rw [sizeAfter_append, ← h.size_eq]
    · rw [List.length_append, ← h.count_eq]
      rfl
    · intro p hp
      change array p = _
      change p < max spa.sizeInfo.size ((locate key).toNat + 1) at hp
      rw [harray p hp, dataAt_append, h.roomFor hp, h.roomFor (by omega), some_pushElement]
      by_cases hpos : p = (locate key).toNat
      · rw [if_pos hpos, if_pos hpos.symm, hpos]
      · rw [if_neg hpos, if_neg (Ne.symm hpos)]

theorem Holds.setElements {initialSize maxSize : Nat} {done : List (Nat × D)}
    {spa : SparseArrayT D} (h : Holds initialSize maxSize done spa)
    (junk : Nat → Option (List D)) {locate : K → BitVec 64} {calls : List (K × D)}
    (hgrow : ∀ c ∈ calls, ReallocSucceeds initialSize maxSize (locate c.1).toNat) :
    ∃ rsts spa', setElements junk locate calls spa = some (rsts, spa') ∧
      rsts.length = calls.length ∧
      Holds initialSize maxSize (done ++ accepted locate calls rsts) spa' := by
  induction calls generalizing done spa with
  | nil => exact ⟨[], spa, rfl, rfl, by rwa [accepted, List.zip_nil_left, List.filter_nil,
      List.map_nil, List.append_nil]⟩
  | cons c calls ih =>
    have hrest : ∀ c ∈ calls, ReallocSucceeds initialSize maxSize (locate c.1).toNat :=
      fun d hd => hgrow d (List.mem_cons_of_mem c hd)
    rcases h.setElement junk c.2 (hgrow c List.mem_cons_self) with ⟨_, hset⟩ | ⟨_, spa₁, hset, h₁⟩
    · obtain ⟨rsts, spa', hrun, hlen, hholds⟩ := ih h hrest
      refine ⟨-1 :: rsts, spa', ?_, congrArg (· + 1) hlen, hholds⟩
      simp only [SparseRuns.setElements, hset, hrun, Option.map_some]
    · obtain ⟨rsts, spa', hrun, hlen, hholds⟩ := ih h₁ hrest
      refine ⟨0 :: rsts, spa', ?_, congrArg (· + 1) hlen, ?_⟩
      · simp only [SparseRuns.setElements, hset, hrun, Option.map_some]
      · rw [List.append_assoc] at hholds
        exact hholds

theorem Holds.getElement {initialSize maxSize : Nat} {done : List (Nat × D)}
    {spa : SparseArrayT D} (h : Holds initialSize maxSize done spa) (locate : K → BitVec 64)
    (key : K) :
    getElementInSparseArray locate spa key =
      if (locate key).toNat < spa.sizeInfo.size then slotOf (dataAt done (locate key).toNat)
      else none := by
  rw [getElementInSparseArray]
  by_cases hlt : (locate key).toNat < spa.sizeInfo.size
  · rw [if_neg (Nat.not_le.mpr hlt), if_pos hlt, h.array_eq _ hlt]
  · rw [if_pos (Nat.not_lt.mp hlt), if_neg hlt]

/-- What a run of calls leaves. The size is that of the accepted positions, every slot holds the
data accepted there, the counter counts the accepted calls, and the next call is refused exactly
beyond both bounds. -/
theorem set_elements_invariant (junk : Nat → Option (List D)) (locate : K → BitVec 64)
    (initialSize maxSize : Nat) (calls : List (K × D))
    (hgrow : ∀ c ∈ calls, ReallocSucceeds initialSize maxSize (locate c.1).toNat) :
    ∃ rsts spa, setElements junk locate calls (spaInit junk initialSize maxSize) =
        some (rsts, spa) ∧
      rsts.length = calls.length ∧
      spa.sizeInfo.size = sizeAfter initialSize (accepted locate calls rsts) ∧
      spa.sizeInfo.count = (accepted locate calls rsts).length ∧
      (∀ p < spa.sizeInfo.size, spa.array p = slotOf (dataAt (accepted locate calls rsts) p)) ∧
      (∀ key, getElementInSparseArray locate spa key =
        if (locate key).toNat < spa.sizeInfo.size then
          slotOf (dataAt (accepted locate calls rsts) (locate key).toNat)
        else none) ∧
      ∀ key data, ReallocSucceeds initialSize maxSize (locate key).toNat →
        if spa.sizeInfo.size ≤ (locate key).toNat ∧ 0 < maxSize ∧ maxSize ≤ (locate key).toNat
        then setElementToSparseArray junk locate spa key data = some (-1, spa)
        else ∃ spa', setElementToSparseArray junk locate spa key data = some (0, spa') := by
  obtain ⟨rsts, spa, hrun, hlen, h⟩ := (holds_spaInit junk initialSize maxSize).setElements junk hgrow
  rw [List.nil_append] at h
  refine ⟨rsts, spa, hrun, hlen, h.size_eq, h.count_eq, h.array_eq, h.getElement locate, ?_⟩
  intro key data hkey
  have hmax := h.maxSize_eq
  rcases h.setElement junk data hkey with ⟨hr, hset⟩ | ⟨hr, spa', hset, _⟩
  · rw [Refused, hmax] at hr
    rw [if_pos hr]
    exact hset
  · rw [Refused, hmax] at hr
    rw [if_neg hr]
    exact ⟨spa', hset⟩

/-- With at most 1500 slots, of three calls the one at 2000 is refused. -/
theorem set_elements_invariant_bounded :
    ∃ rsts spa, setElements (fun _ => none) (BitVec.ofNat 64)
        [(1400, 10), (2000, 20), (1400, 30)] (spaInit (fun _ => none) 0 1500) =
        some (rsts, spa) ∧
      spa.sizeInfo.size = sizeAfter 0 (accepted (BitVec.ofNat 64)
        [(1400, 10), (2000, 20), (1400, 30)] rsts) := by
  have hgrow : ∀ c ∈ [((1400 : Nat), (10 : Nat)), (2000, 20), (1400, 30)],
      ReallocSucceeds 0 1500 (BitVec.ofNat 64 c.1).toNat := by decide
  obtain ⟨rsts, spa, hrun, _, hsize, _⟩ :=
    set_elements_invariant (fun _ => none) (BitVec.ofNat 64) 0 1500 _ hgrow
  exact ⟨rsts, spa, hrun, hsize⟩

end Miqs.SparseRuns
