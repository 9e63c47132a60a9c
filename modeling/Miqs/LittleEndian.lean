import Mathlib.Data.List.Basic
import Mathlib.Tactic.Ring

/-! Numbers as little-endian bytes, and reads of a stream that may end before the
buffer is full. -/
namespace Miqs.LittleEndian

def toBytes : Nat → Nat → List UInt8
  | 0, _ => []
  | width+1, v => UInt8.ofNat v :: toBytes width (v / 256)

def ofBytes : List UInt8 → Nat
  | [] => 0
  | b :: bytes => b.toNat + 256 * ofBytes bytes

@[simp] theorem length_toBytes (width v : Nat) : (toBytes width v).length = width := by
  induction width generalizing v with
  | zero => rfl
  | succ width ih => simp [toBytes, ih]

theorem ofBytes_toBytes (width v : Nat) : ofBytes (toBytes width v) = v % 256^width := by
  induction width generalizing v with
  | zero => simp [toBytes, ofBytes, Nat.mod_one]
  | succ width ih =>
    have hb : (UInt8.ofNat v).toNat = v % 256 := UInt8.toNat_ofNat'
    rw [toBytes, ofBytes, ih, hb, pow_succ', Nat.mod_mul]

def cells (width : Nat) : Nat → List UInt8 → List Nat
  | 0, _ => []
  | n+1, buffer => ofBytes (buffer.take width) :: cells width n (buffer.drop width)

theorem length_flatMap_toBytes (width : Nat) (vs : List Nat) :
    (vs.flatMap (toBytes width)).length = width * vs.length := by
  induction vs with
  | nil => simp
  | cons v vs ih =>
    rw [List.flatMap_cons, List.length_append, ih, length_toBytes, List.length_cons]
    ring

theorem cells_flatMap_toBytes (width : Nat) {vs : List Nat} (h : ∀ v ∈ vs, v < 256^width) :
    cells width vs.length (vs.flatMap (toBytes width)) = vs := by
  induction vs with
  | nil => rfl
  | cons v vs ih =>
    have hv : v % 256^width = v := Nat.mod_eq_of_lt (h v (by simp))
    have hlen := length_toBytes width v
    rw [List.flatMap_cons, List.length_cons, cells, List.take_left' hlen, List.drop_left' hlen,
      ofBytes_toBytes, hv, ih fun w hw => h w (List.mem_cons_of_mem v hw)]

def fread (buffer stream : List UInt8) : List UInt8 × List UInt8 :=
  (stream.take buffer.length ++ buffer.drop stream.length, stream.drop buffer.length)

/-- Enough bytes fill the buffer. -/
theorem fread_append {buffer bytes : List UInt8} (h : bytes.length = buffer.length)
    (rest : List UInt8) : fread buffer (bytes ++ rest) = (bytes, rest) := by
  rw [fread, List.take_left' h, List.drop_left' h, List.drop_eq_nil_of_le, List.append_nil]
  rw [List.length_append]
  omega

end Miqs.LittleEndian
