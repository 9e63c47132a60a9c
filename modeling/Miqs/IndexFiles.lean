import Mathlib.Data.Nat.Digits.Lemmas
import Miqs.MiqsIndexing
import Miqs.WorkDivision

/-! Which index files a rank loads: its own is told by its name, and the path is written to a
block that was asked for with 11 bytes more than the parent. -/
namespace Miqs.MiqsIndexing
open Miqs.CData Miqs.FsOps Miqs.StringUtils Miqs.WorkDivision

inductive IndexFormat where
  | mdb
  | aof
  deriving DecidableEq

def IndexFormat.suffix : IndexFormat → CString
  | .mdb => mdbSuffix
  | .aof => aofSuffix

def IndexFormat.other : IndexFormat → IndexFormat
  | .mdb => .aof
  | .aof => .mdb

def isIndexFile (dotSuffix : CString) (entry : Dirent) : Bool :=
  if entry.dName = dot ∨ entry.dName = dotDot then false
  else if entry.isDir then true
  else endsWith entry.dName dotSuffix

def isMdb : Dirent → Bool := isIndexFile (.ofBytes [46, 109, 100, 98])
def isAof : Dirent → Bool := isIndexFile (.ofBytes [46, 97, 111, 102])

def IndexFormat.filter : IndexFormat → Dirent → Bool
  | .mdb => isMdb
  | .aof => isAof

inductive Handling where
  | skipped
  | loaded (filepath : CString)
  deriving DecidableEq

def onIndexFile (suffix : CString) (alloc : Allocator) (rank : CInt) (isBuildFromScratch : Int)
    (fEntry : Dirent) (parentPath : CString) : Option Handling := do
  let filepath ← sprintf (alloc.usable (parentPath.bytes.length + 11)) (joinPath parentPath fEntry.dName)
  if isBuildFromScratch ≠ 0 then
    let owningIdxFileName ← sprintf (alloc.usable (16 + 16)) (indexFileName rank.toInt suffix)
    if endsWith filepath owningIdxFileName then some .skipped else some (.loaded filepath)
  else some (.loaded filepath)

def onMdb : Allocator → CInt → Int → Dirent → CString → Option Handling := onIndexFile mdbSuffix
def onAof : Allocator → CInt → Int → Dirent → CString → Option Handling := onIndexFile aofSuffix

def IndexFormat.callback : IndexFormat → Allocator → CInt → Int → Dirent → CString → Option Handling
  | .mdb => onMdb
  | .aof => onAof

def decimalNat (n : Nat) : List UInt8 :=
  if n = 0 then [48] else ((Nat.digits 10 n).map fun d => UInt8.ofNat (48 + d)).reverse

theorem decimal_eq (n : Int) :
    decimal n = if n < 0 then 45 :: decimalNat n.natAbs else decimalNat n.natAbs := by
  simp only [decimal, decimalNat, Int.natAbs_eq_zero]

theorem mem_decimalNat {n : Nat} {c : UInt8} (h : c ∈ decimalNat n) : ∃ d < 10, c = UInt8.ofNat (48 + d) := by
  rw [decimalNat] at h
  split_ifs at h
  · exact ⟨0, by decide, List.mem_singleton.mp h⟩
  · obtain ⟨d, hd, rfl⟩ := List.mem_map.mp (List.mem_reverse.mp h)
    exact ⟨d, Nat.digits_lt_base (by decide) hd, rfl⟩

theorem toNat_digit {d : Nat} (h : d < 10) : (UInt8.ofNat (48 + d)).toNat = 48 + d := by
  have hsize : 48 + d < UInt8.size := by
    change 48 + d < 256
    omega
  exact UInt8.toNat_ofNat_of_lt' hsize

theorem mem_decimal {n : Int} {c : UInt8} (h : c ∈ decimal n) : c = 45 ∨ 48 ≤ c.toNat ∧ c.toNat < 58 := by
  have hdigits : ∀ {m}, c ∈ decimalNat m → 48 ≤ c.toNat ∧ c.toNat < 58 := by
    intro m hm
    obtain ⟨d, hd, rfl⟩ := mem_decimalNat hm
    rw [toNat_digit hd]
    omega
  rw [decimal_eq] at h
  split_ifs at h
  · rcases List.mem_cons.mp h with rfl | h
    · exact Or.inl rfl
    · exact Or.inr (hdigits h)
  · exact Or.inr (hdigits h)

theorem not_mem_decimal {c : UInt8} (hc : c ≠ 45) (hdigit : c.toNat < 48 ∨ 58 ≤ c.toNat) (n : Int) :
    c ∉ decimal n := by
  intro h
  rcases mem_decimal h with h | h
  · exact hc h
  · omega

def parseDecimal (digits : List UInt8) : Nat := Nat.ofDigits 10 (digits.reverse.map fun c => c.toNat - 48)

theorem parse_decimalNat (n : Nat) : parseDecimal (decimalNat n) = n := by
  rw [parseDecimal, decimalNat]
  split_ifs with h
  · rw [h]
    rfl
  · have hmap : ((Nat.digits 10 n).map fun d => UInt8.ofNat (48 + d)).map (fun c => c.toNat - 48) =
        Nat.digits 10 n := by
      rw [List.map_map]
      nth_rewrite 2 [← List.map_id (Nat.digits 10 n)]
      apply List.map_congr_left
      intro d hd
      rw [Function.comp_apply, toNat_digit (Nat.digits_lt_base (by decide) hd), Nat.add_sub_cancel_left, id]
    rw [List.reverse_reverse, hmap, Nat.ofDigits_digits]

theorem decimal_injective : Function.Injective decimal := by
  have hsign : ∀ n, 45 ∉ decimalNat n := by
    intro n h
    obtain ⟨d, hd, heq⟩ := mem_decimalNat h
    have hnat := congrArg UInt8.toNat heq
    rw [toNat_digit hd] at hnat
    have h45 : (45 : UInt8).toNat = 45 := rfl
    omega
  have habs : ∀ {m n : Nat}, decimalNat m = decimalNat n → m = n := by
    intro m n h
    rw [← parse_decimalNat m, h, parse_decimalNat]
  intro m n h
  rw [decimal_eq, decimal_eq] at h
  split_ifs at h with hm hn hn
  · have heq := habs (List.cons.inj h).2
    omega
  · exact absurd (h ▸ List.mem_cons_self) (hsign n.natAbs)
  · exact absurd (h ▸ List.mem_cons_self) (hsign m.natAbs)
  · have heq := habs h
    omega

/-- An `int` has at most ten digits and a sign. -/
theorem length_decimal_le (n : CInt) : (decimal n.toInt).length ≤ 11 := by
  have hlo := n.le_toInt
  have hhi := n.toInt_lt
  have hnat : ∀ m : Nat, m ≤ 2^31 → (decimalNat m).length ≤ 10 := by
    intro m hm
    rw [decimalNat]
    split_ifs
    · simp
    · rw [List.length_reverse, List.length_map, Nat.digits_length_le_iff (by decide)]
      exact hm.trans_lt (by decide)
  have habs := hnat n.toInt.natAbs (by omega)
  rw [decimal_eq]
  split_ifs
  · rw [List.length_cons]
    omega
  · omega

def nameStem : List UInt8 := [105, 110, 100, 101, 120, 95, 109, 105, 113, 115, 95]

theorem bytes_indexFileName (k : Int) (suffix : CString) :
    (indexFileName k suffix).bytes = nameStem ++ decimal k ++ 46 :: suffix.bytes := by
  have hfree : ∀ c ∈ nameStem ++ decimal k ++ 46 :: suffix.bytes, decide (c ≠ 0) = true := by
    intro c hc
    apply decide_eq_true
    rintro rfl
    simp only [List.append_assoc, List.mem_append, List.mem_cons] at hc
    rcases hc with hc | hc | hc | hc
    · exact absurd hc (by decide)
    · exact not_mem_decimal (by decide) (by decide) k hc
    · exact absurd hc (by decide)
    · exact suffix.nulFree hc
  exact List.takeWhile_eq_self_iff.mpr hfree

def behindLast (c : UInt8) (l : List UInt8) : List UInt8 := (l.reverse.takeWhile (· ≠ c)).reverse

theorem behindLast_append {c : UInt8} {part : List UInt8} (h : c ∉ part) (front : List UInt8) :
    behindLast c (front ++ c :: part) = part := by
  have hpart : ∀ b ∈ part.reverse, decide (b ≠ c) = true := by
    intro b hb
    apply decide_eq_true
    rintro rfl
    exact h (List.mem_reverse.mp hb)
  rw [behindLast, List.reverse_append, List.reverse_cons, List.append_assoc,
    List.takeWhile_append_of_pos hpart, List.singleton_append, List.takeWhile_cons_of_neg (by simp),
    List.append_nil, List.reverse_reverse]

/-- The number in a name is behind its last underscore. -/
theorem suffix_name_iff (front : List UInt8) (r k : Int) (suffix : CString) :
    (indexFileName r suffix).bytes <:+ front ++ 47 :: (indexFileName k suffix).bytes ↔ k = r := by
  have hstem : nameStem = nameStem.dropLast ++ [95] := by decide
  constructor
  · rintro ⟨more, hmore⟩
    rw [bytes_indexFileName, bytes_indexFileName, hstem] at hmore
    have hcut : (more ++ nameStem.dropLast) ++ 95 :: decimal r =
        (front ++ 47 :: nameStem.dropLast) ++ 95 :: decimal k := by
      refine (List.append_left_inj (46 :: suffix.bytes)).mp ?_
      simpa using hmore
    have hlast := congrArg (behindLast 95) hcut
    rw [behindLast_append (not_mem_decimal (by decide) (by decide) r),
      behindLast_append (not_mem_decimal (by decide) (by decide) k)] at hlast
    exact (decimal_injective hlast).symm
  · rintro rfl
    exact ⟨front ++ [47], by simp⟩

theorem length_indexFileName (k : Int) (format : IndexFormat) :
    (indexFileName k format.suffix).bytes.length = (decimal k).length + 15 := by
  have hsuffix : format.suffix.bytes.length = 3 := by cases format <;> rfl
  have hstem : nameStem.length = 11 := rfl
  rw [bytes_indexFileName, List.length_append, List.length_append, List.length_cons, hsuffix, hstem]
  omega

theorem filter_iff (entryFormat format : IndexFormat) (k : Int) :
    format.filter ⟨indexFileName k entryFormat.suffix, false⟩ = true ↔ format = entryFormat := by
  have hlen := length_indexFileName k entryFormat
  have hname : ∀ name : CString, name.bytes.length ≤ 2 → indexFileName k entryFormat.suffix ≠ name := by
    rintro name hshort rfl
    omega
  have hends : ∀ dotSuffix : CString, isIndexFile dotSuffix ⟨indexFileName k entryFormat.suffix, false⟩ =
      endsWith (indexFileName k entryFormat.suffix) dotSuffix := by
    intro dotSuffix
    rw [isIndexFile, if_neg]
    · rfl
    · rintro (h | h)
      · exact hname dot (by decide) h
      · exact hname dotDot (by decide) h
  have hbytes := bytes_indexFileName k entryFormat.suffix
  have hfour : ∀ dotSuffix : CString, dotSuffix.bytes.length = 4 →
      (endsWith (indexFileName k entryFormat.suffix) dotSuffix = true ↔
        46 :: entryFormat.suffix.bytes = dotSuffix.bytes) := by
    intro dotSuffix hfour
    rw [endsWith_iff, hbytes]
    constructor
    · rintro ⟨more, hmore⟩
      have hlength : (46 :: entryFormat.suffix.bytes).length = dotSuffix.bytes.length := by
        rw [hfour]
        cases entryFormat <;> rfl
      exact (List.append_inj_right' hmore hlength.symm).symm
    · intro h
      rw [h]
      exact List.suffix_append _ _
  cases format with
  | mdb =>
    rw [IndexFormat.filter, isMdb, hends, hfour _ rfl]
    cases entryFormat <;> decide
  | aof =>
    rw [IndexFormat.filter, isAof, hends, hfour _ rfl]
    cases entryFormat <;> decide

/-- Apart from the room for the path, a callback skips the file of its own rank and loads any
other. -/
theorem callback_eq (format : IndexFormat) (alloc : Allocator) (r : CInt) (k : Int) {scratch : Int}
    (hscratch : scratch ≠ 0) (parent : CString) :
    format.callback alloc r scratch ⟨indexFileName k format.suffix, false⟩ parent =
      if parent.bytes.length + (decimal k).length + 17 ≤ alloc.usable (parent.bytes.length + 11) then
        some (if k = r.toInt then .skipped else .loaded (joinPath parent (indexFileName k format.suffix)))
      else none := by
  have hcallback : format.callback = onIndexFile format.suffix := by cases format <;> rfl
  have hpath : (joinPath parent (indexFileName k format.suffix)).bytes.length + 1 =
      parent.bytes.length + (decimal k).length + 17 := by
    rw [joinPath, List.length_append, List.length_cons, length_indexFileName]
    omega
  have hown : sprintf (alloc.usable (16 + 16)) (indexFileName r.toInt format.suffix) =
      some (indexFileName r.toInt format.suffix) := by
    rw [sprintf, if_pos]
    have hlen := length_decimal_le r
    have hroom := alloc.le_usable (16 + 16)
    rw [length_indexFileName]
    omega
  have hends : endsWith (joinPath parent (indexFileName k format.suffix))
      (indexFileName r.toInt format.suffix) = true ↔ k = r.toInt := by
    rw [endsWith_iff]
    exact suffix_name_iff parent.bytes r.toInt k format.suffix
  rw [hcallback, onIndexFile, sprintf, hpath]
  split_ifs with hroom hk
  · simp [hown, hends.mpr hk]
  · have hother := Bool.eq_false_iff.mpr fun h => hk (hends.mp h)
    simp [hown, hother]
  · rfl

def fileName (path : CString) : CString where
  bytes := behindLast 47 path.bytes
  nulFree := by
    intro h
    have hsub := (List.takeWhile_sublist _).subset (List.mem_reverse.mp h)
    exact path.nulFree (List.mem_reverse.mp hsub)

/-- The path is the directory, a delimiter and the name. -/
theorem resolveFileName_bytes (dir suffix : CString) (k : Int) : ∃ front : List UInt8,
    front.length ≤ dir.bytes.length ∧
      (resolveFileName dir suffix k).bytes = front ++ 47 :: (indexFileName k suffix).bytes := by
  rw [resolveFileName]
  by_cases h : endsWith dir pathDelimiter = true
  · obtain ⟨front, hfront⟩ := endsWith_iff.mp h
    refine ⟨front, ?_, ?_⟩
    · rw [← hfront, List.length_append]
      exact Nat.le_add_right _ _
    · rw [if_neg (not_not.mpr h)]
      change dir.bytes ++ (indexFileName k suffix).bytes = _
      rw [← hfront, List.append_assoc]
      rfl
  · refine ⟨dir.bytes, Nat.le_refl _, ?_⟩
    rw [if_pos h]
    change (dir.bytes ++ pathDelimiter.bytes) ++ (indexFileName k suffix).bytes = _
    rw [List.append_assoc]
    rfl

theorem slash_not_mem_name (k : Int) (format : IndexFormat) : 47 ∉ (indexFileName k format.suffix).bytes := by
  have hsuffix : 47 ∉ format.suffix.bytes := by cases format <;> decide
  rw [bytes_indexFileName]
  simp only [List.append_assoc, List.mem_append, List.mem_cons, not_or]
  exact ⟨by decide, not_mem_decimal (by decide) (by decide) k, by decide, hsuffix⟩

theorem fileName_resolveFileName (dir : CString) (format : IndexFormat) (k : Int) :
    fileName (resolveFileName dir format.suffix k) = indexFileName k format.suffix := by
  obtain ⟨front, -, hbytes⟩ := resolveFileName_bytes dir format.suffix k
  apply CString.ext
  change behindLast 47 (resolveFileName dir format.suffix k).bytes = _
  rw [hbytes, behindLast_append (slash_not_mem_name k format)]

/-- What is to hold of the index file of rank `k` in a directory that rank `r` loads while it
builds, and of the name of that file. -/
structure OwnIndexFile (alloc : Allocator) (format : IndexFormat) (r k : CInt) (parent dir : CString) :
    Prop where
  handled : ∀ scratch : Int, scratch ≠ 0 →
    format.callback alloc r scratch ⟨indexFileName k.toInt format.suffix, false⟩ parent =
      some (if k = r then .skipped else .loaded (joinPath parent (indexFileName k.toInt format.suffix)))
  /-- The two blocks of `resolve_file_name` are large enough. -/
  fits : (indexFileName k.toInt format.suffix).bytes.length + 1 ≤ 16 + 16 ∧
    (resolveFileName dir format.suffix k.toInt).bytes.length + 1 ≤ dir.bytes.length + 16 + 20
  accepted : format.filter ⟨fileName (resolveFileName dir format.suffix k.toInt), false⟩ = true
  rejected : format.other.filter ⟨fileName (resolveFileName dir format.suffix k.toInt), false⟩ = false
  distinct : ∀ k' : CInt, k' ≠ k →
    resolveFileName dir format.suffix k'.toInt ≠ resolveFileName dir format.suffix k.toInt

/-- It holds exactly if there is room for at least 7 bytes more than were asked for. -/
theorem own_index_file_iff (alloc : Allocator) (format : IndexFormat) (r k : CInt) (parent dir : CString) :
    OwnIndexFile alloc format r k parent dir ↔
      parent.bytes.length + (decimal k.toInt).length + 17 ≤ alloc.usable (parent.bytes.length + 11) := by
  have hrank : k = r ↔ k.toInt = r.toInt := BitVec.toInt_inj.symm
  constructor
  · intro h
    have hhandled := h.handled 1 (by decide)
    rw [callback_eq format alloc r k.toInt (by decide) parent] at hhandled
    by_contra hroom
    rw [if_neg hroom] at hhandled
    simp at hhandled
  · intro hroom
    have hlen := length_decimal_le k
    refine ⟨?_, ⟨?_, ?_⟩, ?_, ?_, ?_⟩
    · intro scratch hscratch
      rw [callback_eq format alloc r k.toInt hscratch parent, if_pos hroom]
      simp only [hrank]
    · rw [length_indexFileName]
      omega
    · obtain ⟨front, hfront, hbytes⟩ := resolveFileName_bytes dir format.suffix k.toInt
      rw [hbytes, List.length_append, List.length_cons, length_indexFileName]
      omega
    · rw [fileName_resolveFileName, filter_iff]
    · rw [fileName_resolveFileName, Bool.eq_false_iff, ne_eq, filter_iff]
      cases format <;> decide
    · intro k' hne heq
      have hnames := congrArg fileName heq
      rw [fileName_resolveFileName, fileName_resolveFileName] at hnames
      have hbytes := congrArg CString.bytes hnames
      rw [bytes_indexFileName, bytes_indexFileName, List.append_left_inj, List.append_right_inj] at hbytes
      exact hne (BitVec.toInt_inj.mp (decimal_injective hbytes))

/-- In a directory whose path has 13 characters the path of a file is written behind its block. -/
theorem own_index_file_overflows :
    let parent := CString.ofBytes [47, 100, 97, 116, 97, 47, 105, 110, 100, 101, 120, 101, 115]
    onMdb chunkAllocator 0 1 ⟨indexFileName 0 mdbSuffix, false⟩ parent = none ∧
      ¬ OwnIndexFile chunkAllocator .mdb 0 0 parent parent := by
  have hnone : onMdb chunkAllocator 0 1 ⟨indexFileName 0 mdbSuffix, false⟩
      (CString.ofBytes [47, 100, 97, 116, 97, 47, 105, 110, 100, 101, 120, 101, 115]) = none := by
    decide +kernel
  refine ⟨hnone, ?_⟩
  intro h
  have hhandled := h.handled 1 (by decide)
  exact absurd (hnone.symm.trans hhandled) (by simp)

end Miqs.MiqsIndexing
