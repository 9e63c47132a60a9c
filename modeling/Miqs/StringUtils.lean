import Miqs.CData

/-! String matching. -/
namespace Miqs.StringUtils
open Miqs.CData

def strstr (tok : List UInt8) : List UInt8 → Option Nat
  | [] => if tok = [] then some 0 else none
  | c :: str => if tok <+: c :: str then some 0 else (strstr tok str).map (· + 1)

def startsWith (str pre : CString) : Bool := strstr pre.bytes str.bytes = some 0

def endsWith (str suf : CString) : Bool :=
  if str.bytes.length < suf.bytes.length then false
  else str.bytes.drop (str.bytes.length - suf.bytes.length) = suf.bytes

def contains (str tok : CString) : Bool := (strstr tok.bytes str.bytes).isSome

inductive AffixType where
  | patternPrefix
  | patternSuffix
  | patternMiddle
  deriving DecidableEq

def isMatchingGivenAffix (str : CString) (type : AffixType) (body : CString) : Bool :=
  match type with
  | .patternPrefix => startsWith str body
  | .patternSuffix => endsWith str body
  | .patternMiddle => contains str body

theorem strstr_eq_zero {tok str : List UInt8} : strstr tok str = some 0 ↔ tok <+: str := by
  cases str with
  | nil => simp [strstr]
  | cons c str =>
    rw [strstr]
    split_ifs with h
    · simp [h]
    · simp [h]

theorem strstr_isSome {tok str : List UInt8} : (strstr tok str).isSome ↔ tok <:+: str := by
  induction str with
  | nil => by_cases h : tok = [] <;> simp [strstr, h]
  | cons c str ih =>
    rw [strstr, List.infix_cons_iff, ← ih]
    split_ifs with h <;> simp [h]

theorem startsWith_iff {str pre : CString} : startsWith str pre ↔ pre.bytes <+: str.bytes := by
  rw [startsWith, decide_eq_true_eq, strstr_eq_zero]

theorem endsWith_iff {str suf : CString} : endsWith str suf ↔ suf.bytes <:+ str.bytes := by
  rw [endsWith]
  split_ifs with h
  · simp only [false_iff]
    intro hs
    exact absurd hs.length_le (by omega)
  · rw [decide_eq_true_eq, List.suffix_iff_eq_drop, eq_comm]

theorem contains_iff {str tok : CString} : contains str tok ↔ tok.bytes <:+: str.bytes := strstr_isSome

end Miqs.StringUtils
