import Mathlib.Data.List.Induction
import Mathlib.Data.List.Nodup
import Mathlib.Data.List.Perm.Basic
import Miqs.CData

/-! The sparse array as a number index, for keys of type `int`. A key's place is its absolute
value, and a range search looks at the places between those of its bounds. -/
namespace Miqs.SparseIndex
open Miqs.CData
variable {D σ : Type}

structure SparseArray (D : Type) where
  size : Nat
  array : Nat → Option (List D)

def spaSizeMin : Nat := 1024

def createSparseArrayIndex : SparseArray D := ⟨spaSizeMin, fun _ => none⟩

def libhlCastIntToInt (key : CInt) : CInt := if 0 ≤ key.toInt then key else -key

def locate (key : CInt) : Nat := ((libhlCastIntToInt key).toInt % 2^64).toNat

def reallocFails (bytes : Nat) : Prop := 2^63 ≤ bytes % 2^64

instance (bytes : Nat) : Decidable (reallocFails bytes) := inferInstanceAs (Decidable (_ ≤ _))

def pushElement (data : D) : Option (List D) → List D
  | none => [data]
  | some elementList => elementList ++ [data]

def setElementToSparseArray (spa : SparseArray D) (key : CInt) (data : D) : Int × SparseArray D :=
  let pos := locate key
  if pos ≥ spa.size ∧ reallocFails ((pos + 1) % 2^64 * 8) then (-1, spa)
  else
    let size := if pos ≥ spa.size then pos + 1 else spa.size
    (0, ⟨size, fun i => if i = pos then some (pushElement data (spa.array pos)) else spa.array i⟩)

def insertNumberToSparseArray (spa : SparseArray D) (key : CInt) (data : D) : Int × SparseArray D :=
  setElementToSparseArray spa key data

def getElementInSparseArray (spa : SparseArray D) (key : CInt) : Option (List D) :=
  if locate key ≥ spa.size then none else spa.array (locate key)

inductive IteratorStatus where
  | iteratorStop
  | iteratorContinue
  deriving DecidableEq

def foreachLoop (spa : SparseArray D) (cb : Nat → List D → σ → IteratorStatus × σ) :
    Nat → Nat → σ → σ
  | 0, _, user => user
  | n + 1, i, user =>
    match spa.array i with
    | none => foreachLoop spa cb n (i + 1) user
    | some element =>
      let (st, user) := cb i element user
      if st = .iteratorStop then user else foreachLoop spa cb n (i + 1) user

def loopBounds (spa : SparseArray D) (beginn endd : CInt) : Nat × Int :=
  if locate beginn ≥ spa.size ∨ locate endd ≥ spa.size ∨ locate beginn ≥ locate endd then
    (0, (BitVec.ofNat 32 spa.size).toInt)
  else (locate beginn, locate endd)

def spaForeachElements (spa : SparseArray D) (beginn endd : CInt)
    (cb : Nat → List D → σ → IteratorStatus × σ) (user : σ) : σ :=
  let (bgn, last) := loopBounds spa beginn endd
  foreachLoop spa cb (last - bgn).toNat bgn user

def rangeCb (_ : Nat) (element : List D) (collector : List (List D)) :
    IteratorStatus × List (List D) :=
  (.iteratorContinue, collector ++ [element])

def searchNumericRangeFromSparseArray (spa : SparseArray D) (beginKey endKey : CInt) :
    List (List D) :=
  spaForeachElements spa beginKey endKey rangeCb []

def insertNumbers (kvs : List (CInt × D)) : SparseArray D :=
  kvs.foldl (fun spa x => (insertNumberToSparseArray spa x.1 x.2).2) createSparseArrayIndex

theorem locate_min : locate (BitVec.intMin 32) = 2^64 - 2^31 := by decide

theorem locate_eq {key : CInt} (h : key ≠ BitVec.intMin 32) : locate key = key.toInt.natAbs := by
  have hlt := BitVec.toInt_lt (x := key)
  have hle := BitVec.le_toInt (x := key)
  have hne : key.toInt ≠ -2^31 := by
    intro heq
    exact h (BitVec.toInt_inj.mp (by rw [heq]; rfl))
  rw [locate, libhlCastIntToInt]
  split_ifs with hpos
  · omega
  · rw [BitVec.toInt_neg, Int.bmod_eq_of_le (by omega) (by omega)]
    omega

def Stored (key : CInt) : Prop := key ≠ BitVec.intMin 32

instance (key : CInt) : Decidable (Stored key) := inferInstanceAs (Decidable (_ ≠ _))

theorem Stored.locate_lt {key : CInt} (h : Stored key) : locate key < 2^31 := by
  have hlt := BitVec.toInt_lt (x := key)
  have hle := BitVec.le_toInt (x := key)
  have heq := locate_eq h
  have hne : key.toInt ≠ -2^31 := fun heq => h (BitVec.toInt_inj.mp (by rw [heq]; rfl))
  omega

def dataAt (kvs : List (CInt × D)) (p : Nat) : List D :=
  (kvs.filter fun x => Stored x.1 ∧ locate x.1 = p).map Prod.snd

def sizeOf (ks : List CInt) : Nat :=
  ks.foldl (fun size k => if Stored k then max size (locate k + 1) else size) spaSizeMin

structure Holds (kvs : List (CInt × D)) (spa : SparseArray D) : Prop where
  size_eq : spa.size = sizeOf (kvs.map Prod.fst)
  array_eq : ∀ p, spa.array p = if dataAt kvs p = [] then none else some (dataAt kvs p)

theorem sizeOf_append (ks : List CInt) (k : CInt) :
    sizeOf (ks ++ [k]) = if Stored k then max (sizeOf ks) (locate k + 1) else sizeOf ks := by
  simp [sizeOf]

theorem sizeOf_le (ks : List CInt) : sizeOf ks ≤ 2^31 := by
  induction ks using List.reverseRecOn with
  | nil => decide
  | append_singleton ks k ih =>
    rw [sizeOf_append]
    split_ifs with h
    · have hlt := h.locate_lt
      omega
    · exact ih

theorem dataAt_append (kvs : List (CInt × D)) (x : CInt × D) (p : Nat) :
    dataAt (kvs ++ [x]) p =
      dataAt kvs p ++ if Stored x.1 ∧ locate x.1 = p then [x.2] else [] := by
  by_cases h : Stored x.1 ∧ locate x.1 = p <;> simp [dataAt, h]

theorem Holds.insert {kvs : List (CInt × D)} {spa : SparseArray D} (h : Holds kvs spa)
    (x : CInt × D) : Holds (kvs ++ [x]) (insertNumberToSparseArray spa x.1 x.2).2 := by
  have hsize := sizeOf_le (kvs.map Prod.fst)
  rw [← h.size_eq] at hsize
  rw [insertNumberToSparseArray, setElementToSparseArray]
  by_cases hs : Stored x.1
  · have hlt := hs.locate_lt
    have hfits : ¬ (locate x.1 ≥ spa.size ∧ reallocFails ((locate x.1 + 1) % 2^64 * 8)) := by
      rw [reallocFails]
      omega
    simp only [if_neg hfits]
    constructor
    · rw [List.map_append, List.map_singleton, sizeOf_append, if_pos hs, ← h.size_eq]
      simp only
      split_ifs <;> omega
    · intro p
      rw [dataAt_append]
      by_cases hp : p = locate x.1
      · subst hp
        have harr := h.array_eq (locate x.1)
        by_cases hnil : dataAt kvs (locate x.1) = []
        · simp [harr, hnil, hs, pushElement]
        · simp [harr, hnil, hs, pushElement]
      · simp [hp, Ne.symm hp, h.array_eq p]
  · have hkey : x.1 = BitVec.intMin 32 := not_not.mp hs
    have hfails : locate x.1 ≥ spa.size ∧ reallocFails ((locate x.1 + 1) % 2^64 * 8) := by
      rw [hkey, locate_min, reallocFails]
      omega
    simp only [if_pos hfails]
    constructor
    · rw [List.map_append, List.map_singleton, sizeOf_append, if_neg hs, h.size_eq]
    · intro p
      simp [dataAt_append, hs, h.array_eq p]

theorem holds_insertNumbers (kvs : List (CInt × D)) : Holds kvs (insertNumbers kvs) := by
  induction kvs using List.reverseRecOn with
  | nil => exact ⟨rfl, fun p => rfl⟩
  | append_singleton kvs x ih =>
    rw [insertNumbers, List.foldl_append]
    exact ih.insert x

theorem foreachLoop_rangeCb (spa : SparseArray D) (n i : Nat) (collector : List (List D)) :
    foreachLoop spa rangeCb n i collector =
      collector ++ (List.range' i n).filterMap spa.array := by
  induction n generalizing i collector with
  | zero => simp [foreachLoop]
  | succ n ih =>
    rw [foreachLoop, List.range'_succ, List.filterMap_cons]
    cases harr : spa.array i with
    | none => exact ih (i + 1) collector
    | some element => simp [rangeCb, ih]

def placesVisited (size : Nat) (beginKey endKey : CInt) : List Nat :=
  if locate beginKey ≥ size ∨ locate endKey ≥ size ∨ locate beginKey ≥ locate endKey then
    if size = 2^31 then [] else List.range' 0 size
  else List.range' (locate beginKey) (locate endKey - locate beginKey)

theorem searchNumericRange_eq {spa : SparseArray D} (hsize : spa.size ≤ 2^31) (beginKey endKey : CInt) :
    searchNumericRangeFromSparseArray spa beginKey endKey =
      (placesVisited spa.size beginKey endKey).filterMap spa.array := by
  rw [searchNumericRangeFromSparseArray, spaForeachElements, loopBounds, placesVisited]
  split_ifs with hall hfull
  · rw [hfull]
    rfl
  · have hint : (BitVec.ofNat 32 spa.size).toInt = spa.size := by
      rw [BitVec.toInt_ofNat']
      exact Int.bmod_eq_of_le (by omega) (by omega)
    simp only [hint, foreachLoop_rangeCb]
    simp
  · have hn : ((locate endKey : Int) - locate beginKey).toNat = locate endKey - locate beginKey := by
      omega
    simp only [foreachLoop_rangeCb, hn]
    rfl

/-- The data at several places, one after another, are those of the calls with these places. -/
theorem flatten_dataAt (kvs : List (CInt × D)) {ps : List Nat} (hps : ps.Nodup) :
    (ps.flatMap (dataAt kvs)).Perm
      ((kvs.filter fun x => Stored x.1 ∧ locate x.1 ∈ ps).map Prod.snd) := by
  induction ps with
  | nil => simp
  | cons p ps ih =>
    obtain ⟨hp, hps⟩ := List.nodup_cons.mp hps
    have hsplit := (List.filter_append_perm (fun x : CInt × D => decide (locate x.1 = p))
      (kvs.filter fun x => Stored x.1 ∧ locate x.1 ∈ p :: ps)).map Prod.snd
    rw [List.flatMap_cons]
    refine ((ih hps).append_left _).trans (List.Perm.trans ?_ hsplit)
    rw [List.map_append, List.filter_filter, List.filter_filter, dataAt]
    have hhere : ∀ x : CInt × D, (decide (locate x.1 = p) && decide (Stored x.1 ∧ locate x.1 ∈ p :: ps)) =
        decide (Stored x.1 ∧ locate x.1 = p) := by
      intro x
      by_cases hx : locate x.1 = p <;> simp [hx]
    have hrest : ∀ x : CInt × D,
        (!decide (locate x.1 = p) && decide (Stored x.1 ∧ locate x.1 ∈ p :: ps)) =
        decide (Stored x.1 ∧ locate x.1 ∈ ps) := by
      intro x
      by_cases hx : locate x.1 = p
      · simp [hx, hp]
      · simp [hx]
    simp only [hhere, hrest]
    exact List.Perm.refl _

def InRange (beginKey endKey key : CInt) : Prop :=
  beginKey.toInt ≤ key.toInt ∧ key.toInt < endKey.toInt

instance (beginKey endKey key : CInt) : Decidable (InRange beginKey endKey key) :=
  inferInstanceAs (Decidable (_ ∧ _))

structure RangeExact (kvs : List (CInt × D)) (beginKey endKey : CInt) : Prop where
  lists : ∀ l ∈ searchNumericRangeFromSparseArray (insertNumbers kvs) beginKey endKey,
    ∃ k ∈ kvs.map Prod.fst, InRange beginKey endKey k ∧
      getElementInSparseArray (insertNumbers kvs) k = some l
  data : (searchNumericRangeFromSparseArray (insertNumbers kvs) beginKey endKey).flatten.Perm
    ((kvs.filter fun x => InRange beginKey endKey x.1).map Prod.snd)

def Visits (ks : List CInt) (beginKey endKey : CInt) : Prop :=
  ∀ k ∈ ks, InRange beginKey endKey k ↔
    Stored k ∧ locate k ∈ placesVisited (sizeOf ks) beginKey endKey

theorem nodup_placesVisited (size : Nat) (beginKey endKey : CInt) :
    (placesVisited size beginKey endKey).Nodup := by
  rw [placesVisited]
  split_ifs
  · exact List.nodup_nil
  · exact List.nodup_range'
  · exact List.nodup_range'

/-- The data a range search returns. -/
theorem flatten_searchNumericRange (kvs : List (CInt × D)) (beginKey endKey : CInt) :
    (searchNumericRangeFromSparseArray (insertNumbers kvs) beginKey endKey).flatten.Perm
      ((kvs.filter fun x => Stored x.1 ∧
        locate x.1 ∈ placesVisited (sizeOf (kvs.map Prod.fst)) beginKey endKey).map Prod.snd) := by
  have h := holds_insertNumbers kvs
  have hflat : ∀ ps : List Nat, (ps.filterMap (insertNumbers kvs).array).flatten =
      ps.flatMap (dataAt kvs) := by
    intro ps
    induction ps with
    | nil => rfl
    | cons p ps ih =>
      rw [List.filterMap_cons, List.flatMap_cons, h.array_eq p]
      by_cases hnil : dataAt kvs p = []
      · rw [if_pos hnil, hnil]
        exact ih
      · simp only [if_neg hnil, List.flatten_cons, ih]
  rw [searchNumericRange_eq (h.size_eq ▸ sizeOf_le _), hflat, h.size_eq]
  exact flatten_dataAt kvs (nodup_placesVisited _ _ _)

theorem locate_lt_sizeOf {ks : List CInt} {k : CInt} (hk : k ∈ ks) (hs : Stored k) :
    locate k < sizeOf ks := by
  induction ks using List.reverseRecOn with
  | nil => simp at hk
  | append_singleton ks k' ih =>
    rw [sizeOf_append]
    rcases List.mem_append.mp hk with hk | hk
    · have := ih hk
      split_ifs <;> omega
    · obtain rfl := List.mem_singleton.mp hk
      rw [if_pos hs]
      omega

theorem rangeExact_of_visits {kvs : List (CInt × D)} {beginKey endKey : CInt}
    (h : Visits (kvs.map Prod.fst) beginKey endKey) : RangeExact kvs beginKey endKey := by
  have hheld := holds_insertNumbers kvs
  constructor
  · intro l hl
    rw [searchNumericRange_eq (hheld.size_eq ▸ sizeOf_le _), hheld.size_eq] at hl
    obtain ⟨p, hp, harr⟩ := List.mem_filterMap.mp hl
    rw [hheld.array_eq p] at harr
    -- the place holds data, so that some call put it there
    have hne : dataAt kvs p ≠ [] := fun hnil => by simp [hnil] at harr
    obtain ⟨d, hd⟩ := List.exists_mem_of_ne_nil _ hne
    obtain ⟨x, hx, -⟩ := List.mem_map.mp hd
    obtain ⟨hmem, hsx⟩ := List.mem_filter.mp hx
    obtain ⟨hs, rfl⟩ := of_decide_eq_true hsx
    have hk := List.mem_map_of_mem (f := Prod.fst) hmem
    refine ⟨x.1, hk, (h x.1 hk).mpr ⟨hs, hp⟩, ?_⟩
    have hlt := locate_lt_sizeOf hk hs
    rw [getElementInSparseArray, hheld.size_eq, if_neg (by omega), hheld.array_eq, harr]
  · refine (flatten_searchNumericRange kvs beginKey endKey).trans ?_
    have hfilter : ∀ x ∈ kvs, decide (Stored x.1 ∧
        locate x.1 ∈ placesVisited (sizeOf (kvs.map Prod.fst)) beginKey endKey) =
          decide (InRange beginKey endKey x.1) := fun x hx =>
      decide_eq_decide.mpr (h x.1 (List.mem_map_of_mem hx)).symm
    rw [List.filter_congr hfilter]

/-- With data of their own, the calls whose data are returned are determined. -/
theorem visits_of_rangeExact {kvs : List (CInt × D)} {beginKey endKey : CInt}
    (hnd : (kvs.map Prod.snd).Nodup) (h : RangeExact kvs beginKey endKey) :
    Visits (kvs.map Prod.fst) beginKey endKey := by
  have hcall : ∀ (p : CInt × D → Prop) [DecidablePred p], ∀ x ∈ kvs,
      x.2 ∈ (kvs.filter fun y => p y).map Prod.snd ↔ p x := by
    intro p _ x hx
    constructor
    · intro hmem
      obtain ⟨y, hy, heq⟩ := List.mem_map.mp hmem
      obtain ⟨hyk, hpy⟩ := List.mem_filter.mp hy
      rw [← List.inj_on_of_nodup_map hnd hyk hx heq]
      exact of_decide_eq_true hpy
    · intro hpx
      exact List.mem_map_of_mem (List.mem_filter.mpr ⟨hx, by simpa using hpx⟩)
  have hperm := h.data.symm.trans (flatten_searchNumericRange kvs beginKey endKey)
  intro k hk
  obtain ⟨x, hx, rfl⟩ := List.mem_map.mp hk
  rw [← hcall (fun y => InRange beginKey endKey y.1) x hx, hperm.mem_iff]
  exact hcall (fun y => Stored y.1 ∧
    locate y.1 ∈ placesVisited (sizeOf (kvs.map Prod.fst)) beginKey endKey) x hx

def Reaches (ks : List CInt) (n : Int) : Prop :=
  n < 1024 ∨ ∃ k ∈ ks, Stored k ∧ n ≤ k.toInt.natAbs

/-- The searches that are answered as they should be. In the first two cases the search
looks between the absolute values of the bounds, otherwise at the whole array, or at
nothing where the array has 2^31 slots. -/
def Served (ks : List CInt) (beginKey endKey : CInt) : Prop :=
  (0 ≤ beginKey.toInt ∧ Reaches ks endKey.toInt ∧
    ∀ k ∈ ks, ¬ (beginKey.toInt ≤ -k.toInt ∧ -k.toInt < endKey.toInt ∧ k.toInt < 0)) ∨
  (beginKey.toInt < 0 ∧ -beginKey.toInt < endKey.toInt ∧ Reaches ks endKey.toInt ∧
    ∀ k ∈ ks, ¬ (k.toInt.natAbs : Int) < -beginKey.toInt ∧
      ¬ (-endKey.toInt < k.toInt ∧ k.toInt < beginKey.toInt)) ∨
  ((endKey.toInt ≤ -beginKey.toInt ∨ ¬ Reaches ks endKey.toInt) ∧
    (Reaches ks (2^31 - 1) ∧ (∀ k ∈ ks, ¬ InRange beginKey endKey k) ∨
      ¬ Reaches ks (2^31 - 1) ∧ ∀ k ∈ ks, InRange beginKey endKey k ↔ Stored k))

theorem lt_sizeOf_iff (ks : List CInt) (n : Int) : n < sizeOf ks ↔ Reaches ks n := by
  induction ks using List.reverseRecOn with
  | nil => simp [sizeOf, spaSizeMin, Reaches]
  | append_singleton ks k ih =>
    have hreach : Reaches (ks ++ [k]) n ↔ Reaches ks n ∨ Stored k ∧ n ≤ k.toInt.natAbs := by
      simp only [Reaches, List.mem_append, List.mem_singleton, or_and_right, exists_or,
        exists_eq_left, or_assoc]
    rw [hreach, ← ih, sizeOf_append]
    split_ifs with hs
    · rw [locate_eq hs]
      simp only [hs, true_and]
      omega
    · simp [hs]

theorem stored_of_lt {beginKey endKey : CInt} (hlt : beginKey.toInt < endKey.toInt) :
    Stored endKey := by
  rintro rfl
  have hle := BitVec.le_toInt (x := beginKey)
  have hmin : (BitVec.intMin 32).toInt = -2^31 := by decide
  omega

theorem mem_placesVisited_between {size : Nat} {beginKey endKey key : CInt}
    (hb : ¬ (locate beginKey ≥ size ∨ locate endKey ≥ size ∨ locate beginKey ≥ locate endKey)) :
    locate key ∈ placesVisited size beginKey endKey ↔
      locate beginKey ≤ locate key ∧ locate key < locate endKey := by
  rw [placesVisited, if_neg hb, List.mem_range'_1]
  omega

/-- The bounds are replaced when the end does not exceed the opposite of the begin, or the
array does not reach to it. -/
theorem bounds_replaced_iff (ks : List CInt) {beginKey endKey : CInt}
    (hlt : beginKey.toInt < endKey.toInt) :
    (locate beginKey ≥ sizeOf ks ∨ locate endKey ≥ sizeOf ks ∨ locate beginKey ≥ locate endKey) ↔
      endKey.toInt ≤ -beginKey.toInt ∨ ¬ Reaches ks endKey.toInt := by
  have hsize := sizeOf_le ks
  have hend := BitVec.toInt_lt (x := endKey)
  have hse := stored_of_lt hlt
  rw [← lt_sizeOf_iff]
  by_cases hsb : Stored beginKey
  · rw [locate_eq hsb, locate_eq hse]
    omega
  · obtain rfl : beginKey = BitVec.intMin 32 := not_not.mp hsb
    rw [locate_min]
    have hmin : (BitVec.intMin 32).toInt = -2^31 := by decide
    omega

/-- Where the bounds are used, a key is served unless it is negative and its absolute value
is between them, or, below a negative begin, in between. -/
theorem inRange_iff_between {beginKey endKey key : CInt} (hlt : beginKey.toInt < endKey.toInt)
    (hneg : -beginKey.toInt < endKey.toInt) :
    (InRange beginKey endKey key ↔
      Stored key ∧ locate beginKey ≤ locate key ∧ locate key < locate endKey) ↔
    (0 ≤ beginKey.toInt → ¬ (beginKey.toInt ≤ -key.toInt ∧ -key.toInt < endKey.toInt ∧ key.toInt < 0)) ∧
    (beginKey.toInt < 0 → ¬ (key.toInt.natAbs : Int) < -beginKey.toInt ∧
      ¬ (-endKey.toInt < key.toInt ∧ key.toInt < beginKey.toInt)) := by
  have hend := BitVec.toInt_lt (x := endKey)
  have hbegin := BitVec.le_toInt (x := beginKey)
  have hmin : (BitVec.intMin 32).toInt = -2^31 := by decide
  have hsb : Stored beginKey := by
    rintro rfl
    omega
  rw [locate_eq hsb, locate_eq (stored_of_lt hlt), InRange]
  by_cases hs : Stored key
  · rw [locate_eq hs]
    simp only [hs, true_and]
    omega
  · obtain rfl : key = BitVec.intMin 32 := not_not.mp hs
    have hne : beginKey.toInt ≠ -2^31 := fun heq => hsb (BitVec.toInt_inj.mp (heq.trans hmin.symm))
    simp only [hs, false_and, iff_false, hmin]
    omega

/-- Where the bounds are replaced, the whole array is searched, or nothing of it. -/
theorem visits_replaced_iff {ks : List CInt} {beginKey endKey : CInt}
    (hrep : locate beginKey ≥ sizeOf ks ∨ locate endKey ≥ sizeOf ks ∨
      locate beginKey ≥ locate endKey) :
    Visits ks beginKey endKey ↔
      (Reaches ks (2^31 - 1) ∧ (∀ k ∈ ks, ¬ InRange beginKey endKey k) ∨
        ¬ Reaches ks (2^31 - 1) ∧ ∀ k ∈ ks, InRange beginKey endKey k ↔ Stored k) := by
  have hsize := sizeOf_le ks
  have hfull : Reaches ks (2^31 - 1) ↔ sizeOf ks = 2^31 := by
    rw [← lt_sizeOf_iff]
    omega
  rw [hfull, Visits]
  by_cases h : sizeOf ks = 2^31
  · have hnone : placesVisited (sizeOf ks) beginKey endKey = [] := by
      rw [placesVisited, if_pos hrep, if_pos h]
    rw [hnone]
    simp only [List.not_mem_nil, and_false, iff_false, h, true_and, not_true_eq_false,
      false_and, or_false]
  · have hall : placesVisited (sizeOf ks) beginKey endKey = List.range' 0 (sizeOf ks) := by
      rw [placesVisited, if_pos hrep, if_neg h]
    have hmem : ∀ k ∈ ks, Stored k ∧ locate k ∈ List.range' 0 (sizeOf ks) ↔ Stored k := by
      intro k hk
      rw [List.mem_range'_1]
      refine and_iff_left_of_imp fun hs => ⟨Nat.zero_le _, ?_⟩
      rw [Nat.zero_add]
      exact locate_lt_sizeOf hk hs
    rw [hall, forall₂_congr fun k hk => by rw [hmem k hk]]
    simp only [h, false_and, not_false_eq_true, true_and, false_or]

theorem visits_iff_served (ks : List CInt) {beginKey endKey : CInt}
    (hlt : beginKey.toInt < endKey.toInt) :
    Visits ks beginKey endKey ↔ Served ks beginKey endKey := by
  by_cases hrep : locate beginKey ≥ sizeOf ks ∨ locate endKey ≥ sizeOf ks ∨
      locate beginKey ≥ locate endKey
  · have hcond := (bounds_replaced_iff ks hlt).mp hrep
    rw [visits_replaced_iff hrep, Served]
    constructor
    · exact fun h => Or.inr (Or.inr ⟨hcond, h⟩)
    · rintro (⟨hb, hr, -⟩ | ⟨-, hneg, hr, -⟩ | ⟨-, h⟩)
      · rcases hcond with hle | hnot
        · omega
        · exact absurd hr hnot
      · rcases hcond with hle | hnot
        · omega
        · exact absurd hr hnot
      · exact h
  · have hcond := mt (bounds_replaced_iff ks hlt).mpr hrep
    rw [not_or, not_not, Int.not_le] at hcond
    have hvisits : Visits ks beginKey endKey ↔ ∀ k ∈ ks,
        (0 ≤ beginKey.toInt →
          ¬ (beginKey.toInt ≤ -k.toInt ∧ -k.toInt < endKey.toInt ∧ k.toInt < 0)) ∧
        (beginKey.toInt < 0 → ¬ (k.toInt.natAbs : Int) < -beginKey.toInt ∧
          ¬ (-endKey.toInt < k.toInt ∧ k.toInt < beginKey.toInt)) := by
      refine forall₂_congr fun k _ => ?_
      rw [mem_placesVisited_between hrep, inRange_iff_between hlt hcond.1]
    rw [hvisits, Served]
    constructor
    · intro h
      rcases Int.lt_or_le beginKey.toInt 0 with hb | hb
      · exact Or.inr (Or.inl ⟨hb, hcond.1, hcond.2, fun k hk => (h k hk).2 hb⟩)
      · exact Or.inl ⟨hb, hcond.2, fun k hk => (h k hk).1 hb⟩
    · rintro (⟨hb, -, h⟩ | ⟨hb, -, -, h⟩ | ⟨hle | hnot, -⟩) k hk
      · exact ⟨fun _ => h k hk, fun hb' => absurd hb (by omega)⟩
      · exact ⟨fun hb' => absurd hb (by omega), fun _ => h k hk⟩
      · omega
      · exact absurd hcond.2 hnot

/-- The search returns what is stored for the range where it is served. With data that are
all different, it does so nowhere else. -/
theorem sparse_range_iff (kvs : List (CInt × D)) (beginKey endKey : CInt)
    (hlt : beginKey.toInt < endKey.toInt) :
    (Served (kvs.map Prod.fst) beginKey endKey → RangeExact kvs beginKey endKey) ∧
    ((kvs.map Prod.snd).Nodup → RangeExact kvs beginKey endKey →
      Served (kvs.map Prod.fst) beginKey endKey) := by
  refine ⟨fun h => rangeExact_of_visits ((visits_iff_served _ hlt).mpr h), fun hnd h => ?_⟩
  exact (visits_iff_served _ hlt).mp (visits_of_rangeExact hnd h)

/-- The keys 1 and 3, searched from 2 up to 10. -/
theorem sparse_range_below_size : RangeExact [((1 : CInt), 10), (3, 30)] 2 10 := by
  refine (sparse_range_iff _ 2 10 (by decide)).1 (Or.inl ⟨by decide, Or.inl (by decide), ?_⟩)
  simp

/-- The same keys, searched from 2 up to 5000: the key 1 is returned as well. -/
theorem sparse_range_beyond_size : ¬ RangeExact [((1 : CInt), 10), (3, 30)] 2 5000 := by
  intro h
  have hall : searchNumericRangeFromSparseArray (insertNumbers [((1 : CInt), 10), (3, 30)]) 2 5000 =
      [[10], [30]] := by
    decide +kernel
  have hlen := h.data.length_eq
  rw [hall] at hlen
  exact absurd hlen (by decide)

end Miqs.SparseIndex
