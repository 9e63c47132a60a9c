import Mathlib.Algebra.Order.Ring.Rat
import Mathlib.Data.List.TakeWhile
import Mathlib.Data.Rat.Lemmas
import Mathlib.Tactic.Linarith
import Mathlib.Tactic.Ring

/-! The C values the index is built from: strings and pointers to them, ints,
doubles read as exact rationals, the name hash and the two key comparators.
Sizes are those of an LP64 little-endian machine. -/
namespace Miqs.CData

/-- A NUL-terminated string, without its terminator. -/
@[ext]
structure CString where
  bytes : List UInt8
  nulFree : 0 ∉ bytes
  deriving DecidableEq

def CString.ofBytes (l : List UInt8) : CString where
  bytes := l.takeWhile (· ≠ 0)
  nulFree := by
    intro h
    simpa using List.mem_takeWhile_imp h

theorem CString.ofBytes_bytes (s : CString) : CString.ofBytes s.bytes = s := by
  have h : s.bytes.takeWhile (· ≠ 0) = s.bytes := by
    rw [List.takeWhile_eq_self_iff]
    intro b hb
    exact decide_eq_true fun h0 => s.nulFree (h0 ▸ hb)
  cases s
  simp only [CString.ofBytes, h]

/-- A `char *`: NULL, an address that cannot be read, or a string. -/
inductive CharPtr where
  | null
  | wild
  | to (s : CString)
  deriving DecidableEq

structure StringRef where
  addr : BitVec 64
  text : CString
  deriving DecidableEq

def StringRef.addrBytes (r : StringRef) : List UInt8 :=
  (List.range 8).map fun i => UInt8.ofNat (r.addr.toNat / 256^i)

def djb2Hash (str : CString) : Nat :=
  (str.bytes.foldl (fun (hash : UInt64) c => ((hash <<< 5) + hash) + c.toUInt64) 5381).toNat

abbrev CInt := BitVec 32
abbrev CDouble := BitVec 64

def CDouble.exponent (d : CDouble) : Nat := (d.extractLsb' 52 11).toNat
def CDouble.mantissa (d : CDouble) : Nat := (d.extractLsb' 0 52).toNat

def CDouble.isFinite (d : CDouble) : Bool := CDouble.exponent d != 2047

def CDouble.magnitude (d : CDouble) : Nat :=
  if CDouble.exponent d = 0 then CDouble.mantissa d
  else (2^52 + CDouble.mantissa d) * 2^(CDouble.exponent d - 1)

@[irreducible] def CDouble.toRat (d : CDouble) : ℚ :=
  mkRat (if d.msb then -CDouble.magnitude d else CDouble.magnitude d) (2^1074)

def intMin : Int := -2^31

def castToInt (q : ℚ) : Int :=
  let t := q.num.tdiv q.den
  if intMin ≤ t ∧ t < 2^31 then t else intMin

theorem castToInt_eq_zero (q : ℚ) : castToInt q = 0 ↔ |q| < 1 := by
  have ht : q.num.tdiv q.den = 0 ↔ |q| < 1 := by
    rw [← Rat.num_lt_denom_iff, Rat.num_abs_eq_abs_num, Rat.den_abs_eq_den,
      ← Int.natAbs_eq_zero, Int.natAbs_tdiv, Int.natAbs_natCast, Int.abs_eq_natAbs, Nat.cast_lt]
    exact Nat.div_eq_zero_iff_lt q.den_pos
  rw [← ht]
  unfold castToInt intMin
  dsimp only
  split_ifs with h
  · rfl
  · constructor
    · intro h0
      exact absurd h0 (by decide)
    · intro h0
      rw [h0] at h
      exact absurd (by decide) h

/-- `_k1i - _k2i` on doubles, converted to the comparator's result type. The
difference is the exact one. -/
def doubleDiff (a b : CDouble) : Int :=
  if CDouble.isFinite a && CDouble.isFinite b then castToInt (CDouble.toRat a - CDouble.toRat b)
  else intMin

theorem doubleDiff_eq_zero (a b : CDouble) : doubleDiff a b = 0 ↔
    CDouble.isFinite a ∧ CDouble.isFinite b ∧ |CDouble.toRat a - CDouble.toRat b| < 1 := by
  unfold doubleDiff
  split_ifs with h
  · rw [Bool.and_eq_true] at h
    simp [castToInt_eq_zero, h.1, h.2]
  · rw [Bool.and_eq_true, not_and] at h
    constructor
    · intro h0
      exact absurd h0 (by decide)
    · rintro ⟨ha, hb, -⟩
      exact absurd hb (h ha)

inductive NumKey where
  | int (v : CInt)
  | double (v : CDouble)
  deriving DecidableEq

def NumKey.size : NumKey → Nat
  | .int _ => 4
  | .double _ => 8

def NumKey.asInt : NumKey → CInt
  | .int v => v
  | .double v => v.extractLsb' 0 32

def NumKey.asDouble : NumKey → CDouble
  | .int v => v.zeroExtend 64
  | .double v => v

def libhlCmpKeysType (size : Nat) (diff : NumKey → NumKey → Int) (k1 k2 : NumKey) : Int :=
  if k1.size < size ∨ k2.size < size ∨ k1.size ≠ k2.size then (k1.size : Int) - k2.size
  else diff k1 k2

def libhlCmpKeysInt : NumKey → NumKey → Int :=
  libhlCmpKeysType 4 fun k1 k2 => (k1.asInt - k2.asInt).toInt

def libhlCmpKeysDouble : NumKey → NumKey → Int :=
  libhlCmpKeysType 8 fun k1 k2 => doubleDiff k1.asDouble k2.asDouble

theorem libhlCmpKeysInt_int (v w : CInt) : libhlCmpKeysInt (.int v) (.int w) = 0 ↔ v = w := by
  have h : (v - w).toInt = 0 ↔ v = w := by
    rw [← BitVec.toInt_zero (w := 32), BitVec.toInt_inj, BitVec.sub_eq_iff_eq_add, BitVec.zero_add]
  simpa [libhlCmpKeysInt, libhlCmpKeysType, NumKey.size, NumKey.asInt] using h

theorem libhlCmpKeysType_comm {size : Nat} {diff : NumKey → NumKey → Int}
    (hd : ∀ k1 k2, diff k1 k2 = 0 → diff k2 k1 = 0) {k1 k2 : NumKey}
    (h : libhlCmpKeysType size diff k1 k2 = 0) : libhlCmpKeysType size diff k2 k1 = 0 := by
  unfold libhlCmpKeysType at h ⊢
  split_ifs at h ⊢
  all_goals first
    | omega
    | exact hd _ _ h

theorem libhlCmpKeysDouble_double (v w : CDouble) :
    libhlCmpKeysDouble (.double v) (.double w) = doubleDiff v w := by
  simp [libhlCmpKeysDouble, libhlCmpKeysType, NumKey.size, NumKey.asDouble]

inductive CmpKeys where
  | int
  | double
  deriving DecidableEq

def CmpKeys.eval : CmpKeys → NumKey → NumKey → Int
  | .int => libhlCmpKeysInt
  | .double => libhlCmpKeysDouble

theorem CmpKeys.eval_comm {cmp : CmpKeys} {k1 k2 : NumKey} (h : cmp.eval k1 k2 = 0) :
    cmp.eval k2 k1 = 0 := by
  cases cmp with
  | int =>
    rw [CmpKeys.eval, libhlCmpKeysInt] at h ⊢
    apply libhlCmpKeysType_comm ?_ h
    intro k1 k2 hd
    have heq := (BitVec.sub_eq_iff_eq_add.mp (BitVec.toInt_inj.mp (hd.trans BitVec.toInt_zero.symm)))
    rw [BitVec.zero_add] at heq
    simp [heq]
  | double =>
    rw [CmpKeys.eval, libhlCmpKeysDouble] at h ⊢
    apply libhlCmpKeysType_comm ?_ h
    intro k1 k2 hd
    rw [doubleDiff_eq_zero] at hd ⊢
    exact ⟨hd.2.1, hd.1, by rw [abs_sub_comm]; exact hd.2.2⟩

/-- Keys of different sizes never compare equal. -/
theorem CmpKeys.eval_of_size_ne (cmp : CmpKeys) {k1 k2 : NumKey} (h : k1.size ≠ k2.size) :
    cmp.eval k1 k2 ≠ 0 := by
  intro hz
  cases cmp with
  | int =>
    simp [CmpKeys.eval, libhlCmpKeysInt, libhlCmpKeysType, h] at hz
    omega
  | double =>
    simp [CmpKeys.eval, libhlCmpKeysDouble, libhlCmpKeysType, h] at hz
    omega

def numericCmp (float : Bool) : CmpKeys := if float then .double else .int

inductive AttrType where
  | unknown
  | integer
  | float
  | string
  deriving DecidableEq

def numericType (float : Bool) : AttrType := if float then .float else .integer

def AttrType.toInt : AttrType → CInt
  | .unknown => 0
  | .integer => 1
  | .float => 2
  | .string => 3

def getMiqsTypeFromInt (number : CInt) : AttrType :=
  if number = 1 then .integer else if number = 2 then .float
  else if number = 3 then .string else .unknown

/-- A numeric array behind a `void *`. `beyond` is what memory holds after an
int array, which is read when the array is taken for one of doubles. -/
inductive NumericArray where
  | ints (vals : List CInt) (beyond : Nat → CInt)
  | doubles (vals : List CDouble)

def NumericArray.intAt : NumericArray → Nat → CInt
  | .ints vals beyond, i => vals.getD i (beyond (i - vals.length))
  | .doubles vals, i => (vals.getD (i / 2) 0).extractLsb' (32 * (i % 2)) 32

def NumericArray.doubleAt : NumericArray → Nat → CDouble
  | .ints vals beyond, i =>
    (NumericArray.ints vals beyond).intAt (2 * i + 1) ++ (NumericArray.ints vals beyond).intAt (2 * i)
  | .doubles vals, i => vals.getD i 0

inductive AttrValue where
  | unknown (length : Nat)
  | integer (vals : List CInt) (beyond : Nat → CInt)
  | float (vals : List CDouble)
  | string (vals : List StringRef)

def AttrValue.type : AttrValue → AttrType
  | .unknown _ => .unknown
  | .integer _ _ => .integer
  | .float _ => .float
  | .string _ => .string

def AttrValue.length : AttrValue → Nat
  | .unknown n => n
  | .integer vals _ => vals.length
  | .float vals => vals.length
  | .string vals => vals.length

def AttrValue.ints : AttrValue → List CInt
  | .integer vals _ => vals
  | _ => []

def AttrValue.doubles : AttrValue → List CDouble
  | .float vals => vals
  | _ => []

def AttrValue.texts : AttrValue → List CString
  | .string vals => vals.map StringRef.text
  | _ => []

def AttrValue.numKeys : AttrValue → List NumKey
  | .integer vals _ => vals.map .int
  | .float vals => vals.map .double
  | _ => []

structure MetaAttribute where
  attrName : CString
  attributeValue : AttrValue
  filePathStr : CharPtr
  objPathStr : CharPtr

structure Attribute where
  attrName : CString
  attributeValue : AttrValue
  filePath : CString
  objPath : CString

def Attribute.toMeta (a : Attribute) : MetaAttribute :=
  ⟨a.attrName, a.attributeValue, .to a.filePath, .to a.objPath⟩

def sampleAttribute : Attribute :=
  ⟨.ofBytes [110], .integer [7] fun _ => 0, .ofBytes [102], .ofBytes [111]⟩

/-- Another name of the same object. -/
def siblingAttribute : Attribute :=
  ⟨.ofBytes [109], .integer [8] fun _ => 0, .ofBytes [102], .ofBytes [111]⟩

/-- How many bytes can be written to a block of the size asked for. -/
structure Allocator where
  usable : Nat → Nat
  le_usable : ∀ n, n ≤ usable n

/-- `sprintf` into a block; `none` where it writes behind it. -/
def sprintf (room : Nat) (s : CString) : Option CString := if s.bytes.length + 1 ≤ room then some s else none

def chunkAllocator : Allocator where
  usable n := max 24 ((n + 23) / 16 * 16 - 8)
  le_usable := by
    intro n
    omega

end Miqs.CData
