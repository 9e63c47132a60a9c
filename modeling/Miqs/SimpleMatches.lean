import Mathlib.Data.List.Infix
import Miqs.StringUtils

/-! Matching a string against a pattern with a star at either end. `substring` copies a part of
the pattern into a block without room for the terminator, so that what is compared goes on with
whatever lies behind the block. -/
namespace Miqs.StringUtils
open Miqs.CData

inductive Block where
  | null
  | chars (bytes : List UInt8)
  deriving DecidableEq

def copyChars (len : Nat) (src : List UInt8) : List UInt8 :=
  src.take len ++ List.replicate (len - src.length) 0

/-- No result where the length of the block is negative: `calloc` has no block of that size, and
the copy goes to NULL. -/
def substring (str : CString) (start fin : CInt) : Option Block :=
  let lenstr : CInt := BitVec.ofNat 32 str.bytes.length
  if lenstr.toInt ≤ 0 then some .null
  else
    let fin := if fin.toInt < 0 then lenstr else fin
    if start.toInt < 0 ∨ fin.toInt > (lenstr + 1).toInt then some .null
    else
      let len := fin - start
      if len.toInt < 0 then none
      else some (.chars (copyChars len.toNat (str.bytes.drop start.toNat)))

def substr (str : CString) (start : CInt) : Option Block := substring str start (-1)

def subrstr (str : CString) (fin : CInt) : Option Block := substring str 0 fin

def Block.read (behind : CString) : Block → Option CString
  | .null => none
  | .chars bytes => some (CString.ofBytes (bytes ++ behind.bytes))

inductive PatternType where
  | patternExact
  | patternPrefix
  | patternSuffix
  | patternMiddle
  deriving DecidableEq

def star : CString := CString.ofBytes [42]

def determinePatternType (pattern : CString) : PatternType :=
  if startsWith pattern star then
    if endsWith pattern star then .patternMiddle else .patternSuffix
  else
    if endsWith pattern star then .patternPrefix else .patternExact

def equals (str tok : CString) : Bool := tok = str

def testTok (test : CString → CString → Bool) (behind str : CString) (tok : Block) : Bool :=
  match tok.read behind with
  | none => false
  | some tok => test str tok

/-- The strings may be NULL. `behind` is what memory holds behind the copy of the pattern, up to
the next NUL. -/
def simpleMatches (behind : CString) (str pattern : Option CString) : Option Bool :=
  match str, pattern with
  | some str, some pattern =>
    let last : CInt := BitVec.ofNat 32 (pattern.bytes.length - 1)
    match determinePatternType pattern with
    | .patternExact => some (equals str pattern)
    | .patternPrefix => (subrstr pattern last).map (testTok startsWith behind str)
    | .patternSuffix => (substr pattern 1).map (testTok endsWith behind str)
    | .patternMiddle => (substring pattern 1 last).map (testTok contains behind str)
  | _, _ => some false

def leadingStar (pattern : List UInt8) : Bool := pattern.head? = some 42

def trailingStar (pattern : List UInt8) : Bool :=
  2 ≤ pattern.length ∧ pattern.getLast? = some 42

def body (pattern : List UInt8) : List UInt8 :=
  let rest := if leadingStar pattern then pattern.tail else pattern
  if trailingStar pattern then rest.dropLast else rest

def Matches (str pattern : CString) : Prop :=
  ∃ pre post, str.bytes = pre ++ body pattern.bytes ++ post ∧
    (leadingStar pattern.bytes = false → pre = []) ∧
    (trailingStar pattern.bytes = false → post = [])

theorem startsWith_star {pattern : CString} :
    startsWith pattern star ↔ leadingStar pattern.bytes := by
  rw [startsWith_iff, leadingStar, decide_eq_true_eq]
  change [42] <+: pattern.bytes ↔ _
  cases pattern.bytes with
  | nil => simp
  | cons b bytes => simp [List.cons_prefix_cons, eq_comm]

theorem endsWith_star {pattern : CString} :
    endsWith pattern star ↔ pattern.bytes.getLast? = some 42 := by
  rw [endsWith_iff]
  change [42] <:+ pattern.bytes ↔ _
  rw [List.getLast?_eq_some_iff]
  exact ⟨fun ⟨l, hl⟩ => ⟨l, hl.symm⟩, fun ⟨l, hl⟩ => ⟨l, hl.symm⟩⟩

inductive Shape (p : List UInt8) : Prop where
  | exact (hlead : leadingStar p = false) (htrail : trailingStar p = false)
      (hlast : p.getLast? ≠ some 42) (hbody : p = body p)
  | trailing (hlead : leadingStar p = false) (htrail : trailingStar p = true)
      (hbody : p = body p ++ [42])
  | leading (hlead : leadingStar p = true) (htrail : trailingStar p = false)
      (hlast : p = [42] ∨ p.getLast? ≠ some 42) (hbody : p = 42 :: body p)
  | both (hlead : leadingStar p = true) (htrail : trailingStar p = true)
      (hbody : p = 42 :: (body p ++ [42]))

theorem shape (p : List UInt8) : Shape p := by
  cases p with
  | nil => exact .exact rfl rfl (by simp) rfl
  | cons b t =>
    rcases List.eq_nil_or_concat' t with rfl | ⟨t, c, rfl⟩
    · by_cases hb : b = 42
      · subst hb
        exact .leading rfl rfl (Or.inl rfl) rfl
      · have hlead : leadingStar [b] = false := by simpa [leadingStar] using hb
        have htrail : trailingStar [b] = false := by simp [trailingStar]
        exact .exact hlead htrail (by simpa using hb) (by simp [body, hlead, htrail])
    · have hlast : (b :: (t ++ [c])).getLast? = some c := by
        rw [← List.cons_append, List.getLast?_append]
        rfl
      have hdrop : (b :: (t ++ [c])).dropLast = b :: t := by
        rw [← List.cons_append, List.dropLast_concat]
      by_cases hb : b = 42
      · subst hb
        have hlead : leadingStar (42 :: (t ++ [c])) = true := rfl
        by_cases hc : c = 42
        · subst hc
          have htrail : trailingStar (42 :: (t ++ [42])) = true := by
            rw [trailingStar, hlast]
            simp
          exact .both hlead htrail (by simp [body, hlead, htrail])
        · have hne : (42 :: (t ++ [c])).getLast? ≠ some 42 := by
            rw [hlast]
            simpa using hc
          have htrail : trailingStar (42 :: (t ++ [c])) = false := by
            simp [trailingStar, hne]
          exact .leading hlead htrail (Or.inr hne) (by simp [body, hlead, htrail])
      · have hlead : leadingStar (b :: (t ++ [c])) = false := by simpa [leadingStar] using hb
        by_cases hc : c = 42
        · subst hc
          have htrail : trailingStar (b :: (t ++ [42])) = true := by
            rw [trailingStar, hlast]
            simp
          exact .trailing hlead htrail (by simp [body, hlead, htrail, hdrop])
        · have hne : (b :: (t ++ [c])).getLast? ≠ some 42 := by
            rw [hlast]
            simpa using hc
          have htrail : trailingStar (b :: (t ++ [c])) = false := by simp [trailingStar, hne]
          exact .exact hlead htrail hne (by simp [body, hlead, htrail])

def FitsInt (n : Nat) : Prop := 0 < n % 2^32 ∧ n % 2^32 < 2^31 - 1

instance (n : Nat) : Decidable (FitsInt n) := inferInstanceAs (Decidable (_ ∧ _))

/-- The `int` that a number below 2^31 becomes. -/
theorem toInt_ofNat {n m : Nat} (h : n % 2^32 = m) (hm : m < 2^31) :
    (BitVec.ofNat 32 n).toInt = m := by
  rw [BitVec.toInt_eq_toNat_cond, BitVec.toNat_ofNat, h, if_pos (by omega)]

theorem substring_null {str : CString} (h : ¬ FitsInt str.bytes.length) (start fin : CInt) :
    substring str start fin = some .null := by
  have hlen : (BitVec.ofNat 32 str.bytes.length).toNat = str.bytes.length % 2^32 :=
    BitVec.toNat_ofNat _ _
  rw [substring]
  generalize hl : BitVec.ofNat 32 str.bytes.length = lenstr at hlen
  rw [FitsInt, ← hlen] at h
  by_cases hpos : lenstr.toInt ≤ 0
  · rw [if_pos hpos]
  · -- the one length whose successor is the least int
    have hnat : lenstr.toInt = lenstr.toNat := by
      rw [BitVec.toInt_eq_toNat_cond] at hpos ⊢
      split_ifs at hpos ⊢ <;> omega
    have hlt := BitVec.toInt_lt (x := lenstr)
    have hmax : lenstr.toNat = 2^31 - 1 := by omega
    have hnext : (lenstr + 1).toInt = -2^31 := by
      have hsum : (lenstr + 1).toNat = 2^31 := by
        rw [BitVec.toNat_add, hmax]
        rfl
      rw [BitVec.toInt_eq_toNat_cond, hsum]
      rfl
    have hfin : 0 ≤ (if fin.toInt < 0 then lenstr else fin).toInt := by
      split_ifs <;> omega
    have hbeyond : (if fin.toInt < 0 then lenstr else fin).toInt > (lenstr + 1).toInt := by
      rw [hnext]
      omega
    rw [if_neg hpos, if_pos (Or.inr hbeyond)]

theorem toNat_of_toInt {x : CInt} {a : Nat} (h : x.toInt = a) : x.toNat = a ∧ a < 2^31 := by
  rw [BitVec.toInt_eq_toNat_cond] at h
  have hlt := x.isLt
  split_ifs at h <;> omega

/-- A part within the string, by the ints of its bounds. -/
theorem substring_chars {str : CString} {start fin : CInt} {a b : Nat}
    (h : FitsInt str.bytes.length) (hstart : start.toInt = a)
    (hfin : (if fin.toInt < 0 then BitVec.ofNat 32 str.bytes.length else fin).toInt = b)
    (hb : b ≤ str.bytes.length % 2^32) :
    substring str start fin =
      if b < a then none else some (.chars ((str.bytes.drop a).take (b - a))) := by
  obtain ⟨hpos, hlt⟩ := h
  have hlen : (BitVec.ofNat 32 str.bytes.length).toInt = (str.bytes.length % 2^32 : Nat) :=
    toInt_ofNat rfl (by omega)
  have hnext : (BitVec.ofNat 32 str.bytes.length + 1).toInt = (str.bytes.length % 2^32 + 1 : Nat) := by
    rw [BitVec.toInt_add, hlen, Int.bmod_eq_of_le]
    · rfl
    · change _ ≤ _ + (1 : Int)
      omega
    · change _ + (1 : Int) < _
      omega
  rw [substring, if_neg (by omega)]
  generalize (if fin.toInt < 0 then BitVec.ofNat 32 str.bytes.length else fin) = last at hfin ⊢
  obtain ⟨hstartNat, ha⟩ := toNat_of_toInt hstart
  obtain ⟨hlastNat, hbound⟩ := toNat_of_toInt hfin
  have hsub : (last - start).toInt = (b : Int) - a := by
    rw [BitVec.toInt_sub, hfin, hstart, Int.bmod_eq_of_le] <;> omega
  have hin : ¬ (start.toInt < 0 ∨ last.toInt > (BitVec.ofNat 32 str.bytes.length + 1).toInt) := by
    rw [hstart, hfin, hnext]
    omega
  simp only [if_neg hin, hsub]
  by_cases hba : b < a
  · rw [if_pos (by omega), if_pos hba]
  · obtain ⟨hsubNat, -⟩ := toNat_of_toInt (show (last - start).toInt = (b - a : Nat) by omega)
    have hfull : b - a - (str.bytes.drop a).length = 0 := by
      rw [List.length_drop]
      have hmod := Nat.mod_le str.bytes.length (2^32)
      omega
    rw [if_neg (by omega), if_neg hba, hsubNat, hstartNat, copyChars, hfull, List.replicate_zero,
      List.append_nil]

def copied (p : List UInt8) : List UInt8 :=
  (body p).take (p.length % 2^32 - ((leadingStar p).toNat + (trailingStar p).toNat))

/-- The index of the last char, as an `int`. -/
theorem toInt_last {n : Nat} (h : FitsInt n) (hn : 0 < n) :
    (BitVec.ofNat 32 (n - 1)).toInt = (n % 2^32 - 1 : Nat) := by
  obtain ⟨hpos, hlt⟩ := h
  exact toInt_ofNat (by omega) (by omega)

theorem subrstr_trailing {p : CString} (h : FitsInt p.bytes.length)
    (hlead : leadingStar p.bytes = false) (htrail : trailingStar p.bytes = true)
    (hbody : p.bytes = body p.bytes ++ [42]) :
    subrstr p (BitVec.ofNat 32 (p.bytes.length - 1)) = some (.chars (copied p.bytes)) := by
  have hlen : p.bytes.length = (body p.bytes).length + 1 := by
    conv_lhs => rw [hbody]
    simp
  have hlast := toInt_last h (by omega)
  have hmod := Nat.mod_le p.bytes.length (2^32)
  rw [subrstr, substring_chars (b := p.bytes.length % 2^32 - 1) h (a := 0) rfl
    (by rw [if_neg (by rw [hlast]; omega), hlast]) (by omega), if_neg (by omega)]
  have htake : ∀ k ≤ (body p.bytes).length, p.bytes.take k = (body p.bytes).take k := by
    intro k hk
    conv_lhs => rw [hbody]
    exact List.take_append_of_le_length hk
  rw [List.drop_zero, Nat.sub_zero, htake _ (by omega), copied, hlead, htrail]
  rfl

theorem substr_leading {p : CString} (h : FitsInt p.bytes.length)
    (hlead : leadingStar p.bytes = true) (htrail : trailingStar p.bytes = false)
    (hbody : p.bytes = 42 :: body p.bytes) :
    substr p 1 = some (.chars (copied p.bytes)) := by
  have hdrop : p.bytes.drop 1 = body p.bytes := by
    conv_lhs => rw [hbody]
    rfl
  obtain ⟨hpos, hlt⟩ := id h
  have hend : (if (-1 : CInt).toInt < 0 then BitVec.ofNat 32 p.bytes.length else -1).toInt =
      (p.bytes.length % 2^32 : Nat) := by
    rw [if_pos (by decide)]
    exact toInt_ofNat rfl (by omega)
  rw [substr, substring_chars h (a := 1) rfl hend le_rfl, if_neg (by omega), hdrop, copied, hlead,
    htrail]
  rfl

theorem substring_both {p : CString} (h : FitsInt p.bytes.length)
    (hlead : leadingStar p.bytes = true) (htrail : trailingStar p.bytes = true)
    (hbody : p.bytes = 42 :: (body p.bytes ++ [42])) :
    substring p 1 (BitVec.ofNat 32 (p.bytes.length - 1)) =
      if p.bytes.length % 2^32 = 1 then none else some (.chars (copied p.bytes)) := by
  have hlen : p.bytes.length = (body p.bytes).length + 2 := by
    conv_lhs => rw [hbody]
    simp
  have hlast := toInt_last h (by omega)
  have hmod := Nat.mod_le p.bytes.length (2^32)
  have hpos := h.1
  have hdrop : p.bytes.drop 1 = body p.bytes ++ [42] := by
    conv_lhs => rw [hbody]
    rfl
  rw [substring_chars (b := p.bytes.length % 2^32 - 1) h (a := 1) rfl
    (by rw [if_neg (by rw [hlast]; omega), hlast]) (by omega), hdrop,
    List.take_append_of_le_length (by omega), copied, hlead, htrail]
  by_cases hone : p.bytes.length % 2^32 = 1
  · rw [if_pos (by omega), if_pos hone]
  · rw [if_neg (by omega), if_neg hone]
    rfl

theorem body_subset (p : List UInt8) : body p ⊆ p := by
  intro b hb
  simp only [body] at hb
  have hrest : b ∈ (if leadingStar p then p.tail else p) := by
    split_ifs at hb ⊢
    · exact List.mem_of_mem_dropLast hb
    · exact hb
    · exact List.mem_of_mem_dropLast hb
    · exact hb
  split_ifs at hrest
  · exact List.mem_of_mem_tail hrest
  · exact hrest

def token (behind p : CString) : CString where
  bytes := copied p.bytes ++ behind.bytes
  nulFree := by
    intro h
    rcases List.mem_append.mp h with h | h
    · exact p.nulFree (body_subset _ (List.mem_of_mem_take h))
    · exact behind.nulFree h

theorem testTok_chars (test : CString → CString → Bool) (behind str p : CString) :
    testTok test behind str (.chars (copied p.bytes)) = test str (token behind p) := by
  have htoken : CString.ofBytes (copied p.bytes ++ behind.bytes) = token behind p :=
    CString.ofBytes_bytes (token behind p)
  simp only [testTok, Block.read, htoken]

section Cases
variable {str p : CString} (behind : CString)

theorem simpleMatches_exact (hlead : leadingStar p.bytes = false)
    (hlast : p.bytes.getLast? ≠ some 42) :
    simpleMatches behind (some str) (some p) = some (equals str p) := by
  simp [simpleMatches, determinePatternType, startsWith_star, endsWith_star, hlead, hlast]

theorem simpleMatches_trailing (h : FitsInt p.bytes.length) (hlead : leadingStar p.bytes = false)
    (htrail : trailingStar p.bytes = true) (hbody : p.bytes = body p.bytes ++ [42]) :
    simpleMatches behind (some str) (some p) = some (startsWith str (token behind p)) := by
  have hlast : p.bytes.getLast? = some 42 := by
    rw [hbody, List.getLast?_concat]
  have htype : determinePatternType p = .patternPrefix := by
    simp [determinePatternType, startsWith_star, endsWith_star, hlead, hlast]
  simp only [simpleMatches, htype, subrstr_trailing h hlead htrail hbody, Option.map_some,
    testTok_chars]

theorem simpleMatches_leading (h : FitsInt p.bytes.length) (hlead : leadingStar p.bytes = true)
    (htrail : trailingStar p.bytes = false) (hlast : p.bytes.getLast? ≠ some 42)
    (hbody : p.bytes = 42 :: body p.bytes) :
    simpleMatches behind (some str) (some p) = some (endsWith str (token behind p)) := by
  have htype : determinePatternType p = .patternSuffix := by
    simp [determinePatternType, startsWith_star, endsWith_star, hlead, hlast]
  simp only [simpleMatches, htype, substr_leading h hlead htrail hbody, Option.map_some,
    testTok_chars]

theorem simpleMatches_both (h : FitsInt p.bytes.length) (hlead : leadingStar p.bytes = true)
    (htrail : trailingStar p.bytes = true) (hbody : p.bytes = 42 :: (body p.bytes ++ [42])) :
    simpleMatches behind (some str) (some p) =
      if p.bytes.length % 2^32 = 1 then none else some (contains str (token behind p)) := by
  have hlast : p.bytes.getLast? = some 42 := by
    rw [hbody, ← List.cons_append, List.getLast?_concat]
  have htype : determinePatternType p = .patternMiddle := by
    simp [determinePatternType, startsWith_star, endsWith_star, hlead, hlast]
  simp only [simpleMatches, htype, substring_both h hlead htrail hbody]
  split_ifs
  · rfl
  · simp only [Option.map_some, testTok_chars]

/-- For a lone star the length of the copy is negative. -/
theorem simpleMatches_lone (h : p.bytes = [42]) : simpleMatches behind (some str) (some p) = none := by
  obtain ⟨bytes, hnul⟩ := p
  obtain rfl : bytes = [42] := h
  have htype : determinePatternType ⟨[42], hnul⟩ = .patternMiddle := by
    simp [determinePatternType, startsWith_star, endsWith_star, leadingStar]
  simp only [simpleMatches, htype]
  rfl

/-- Where the length does not fit an `int`, a pattern with a star matches nothing. -/
theorem simpleMatches_null (h : ¬ FitsInt p.bytes.length)
    (hstar : leadingStar p.bytes = true ∨ trailingStar p.bytes = true) :
    simpleMatches behind (some str) (some p) = some false := by
  have hnull := substring_null h
  cases htype : determinePatternType p with
  | patternExact =>
    have hne : ¬ p.bytes.getLast? = some 42 ∧ leadingStar p.bytes = false := by
      by_contra hcon
      simp only [determinePatternType, startsWith_star, endsWith_star] at htype
      split_ifs at htype
      simp_all
    simp [trailingStar, hne] at hstar
  | patternPrefix => simp [simpleMatches, htype, subrstr, hnull, testTok, Block.read]
  | patternSuffix => simp [simpleMatches, htype, substr, hnull, testTok, Block.read]
  | patternMiddle => simp [simpleMatches, htype, hnull, testTok, Block.read]

end Cases

section Meaning
variable {str p : CString}

theorem matches_exact (hlead : leadingStar p.bytes = false) (htrail : trailingStar p.bytes = false)
    (hbody : p.bytes = body p.bytes) : Matches str p ↔ p = str := by
  rw [Matches, ← hbody, CString.ext_iff]
  constructor
  · rintro ⟨pre, post, heq, hpre, hpost⟩
    rw [hpre hlead, hpost htrail] at heq
    simpa using heq.symm
  · intro heq
    exact ⟨[], [], by simp [heq], fun _ => rfl, fun _ => rfl⟩

theorem matches_trailing (hlead : leadingStar p.bytes = false)
    (htrail : trailingStar p.bytes = true) : Matches str p ↔ body p.bytes <+: str.bytes := by
  rw [Matches, hlead, htrail]
  constructor
  · rintro ⟨pre, post, heq, hpre, -⟩
    exact ⟨post, by rw [heq, hpre rfl]; rfl⟩
  · rintro ⟨post, heq⟩
    exact ⟨[], post, heq.symm, fun _ => rfl, by simp⟩

theorem matches_leading (hlead : leadingStar p.bytes = true)
    (htrail : trailingStar p.bytes = false) : Matches str p ↔ body p.bytes <:+ str.bytes := by
  rw [Matches, hlead, htrail]
  constructor
  · rintro ⟨pre, post, heq, -, hpost⟩
    exact ⟨pre, by rw [heq, hpost rfl, List.append_nil]⟩
  · rintro ⟨pre, heq⟩
    exact ⟨pre, [], by rw [heq, List.append_nil], by simp, fun _ => rfl⟩

theorem matches_both (hlead : leadingStar p.bytes = true) (htrail : trailingStar p.bytes = true) :
    Matches str p ↔ body p.bytes <:+: str.bytes := by
  rw [Matches, hlead, htrail]
  constructor
  · rintro ⟨pre, post, heq, -, -⟩
    exact ⟨pre, post, heq.symm⟩
  · rintro ⟨pre, post, heq⟩
    exact ⟨pre, post, heq.symm, by simp, by simp⟩

end Meaning

def Right (behind str p : CString) : Prop :=
  ∃ r, simpleMatches behind (some str) (some p) = some r ∧ (r = true ↔ Matches str p)

/-- The answer does not hang on what lies behind the copy of the body: there is no star, or the
copy does not occur in the string where what lies behind it would have to be read. -/
def AnswerFixed (str p : CString) : Prop :=
  if leadingStar p.bytes = false ∧ trailingStar p.bytes = false then True
  else if ¬ FitsInt p.bytes.length then ¬ Matches str p
  else if leadingStar p.bytes then ¬ copied p.bytes <:+: str.bytes
  else ¬ copied p.bytes <+: str.bytes

/-- A test that can be made to fail, and to succeed where `X` holds, is the same for all memory
only where `X` fails. -/
theorem forall_iff_fixed {test : CString → Prop} {X M : Prop} (hfail : ∃ b, ¬ test b)
    (hsucceed : X → ∃ b, test b) (htest : ∀ b, test b → X) (hmeant : M → X) :
    (∀ b, (test b ↔ M)) ↔ ¬ X := by
  constructor
  · intro h hx
    obtain ⟨b, hb⟩ := hfail
    obtain ⟨c, hc⟩ := hsucceed hx
    exact hb ((h b).mpr ((h c).mp hc))
  · intro hx b
    exact ⟨fun hb => absurd (htest b hb) hx, fun hm => absurd (hmeant hm) hx⟩

def longer (str : CString) : CString where
  bytes := List.replicate (str.bytes.length + 1) 1
  nulFree := by simp

theorem token_longer (str p : CString) : str.bytes.length < (token (longer str) p).bytes.length := by
  simp only [token, longer, List.length_append, List.length_replicate]
  omega

theorem not_infix_token_longer (str p : CString) :
    ¬ (token (longer str) p).bytes <:+: str.bytes := by
  intro h
  have hlen := token_longer str p
  have hle := h.length_le
  omega

def restOf (str : CString) {t : List UInt8} (h : t ⊆ str.bytes) : CString :=
  ⟨t, fun h0 => str.nulFree (h h0)⟩

/-- Where the copy occurs in the string, some memory makes the token end with it. -/
theorem exists_suffix_token {str p : CString} (h : copied p.bytes <:+: str.bytes) :
    ∃ b, (token b p).bytes <:+ str.bytes := by
  obtain ⟨pre, post, heq⟩ := h
  have hsub : post ⊆ str.bytes := by
    intro b hb
    rw [← heq]
    exact List.mem_append_right _ hb
  exact ⟨restOf str hsub, pre, by rw [← heq, List.append_assoc]; rfl⟩

theorem exists_start_token {str p : CString} (h : copied p.bytes <+: str.bytes) :
    ∃ b, (token b p).bytes <+: str.bytes := by
  obtain ⟨post, heq⟩ := h
  have hsub : post ⊆ str.bytes := by
    intro b hb
    rw [← heq]
    exact List.mem_append_right _ hb
  exact ⟨restOf str hsub, [], by rw [List.append_nil]; exact heq⟩

theorem copied_start_token (b p : CString) : copied p.bytes <+: (token b p).bytes :=
  List.prefix_append _ _

theorem copied_start_body (p : CString) : copied p.bytes <+: body p.bytes := List.take_prefix _ _

/-- Of a call that returns `some (test b)`, being right is that the test says what is meant. -/
theorem right_iff {behind str p : CString} {test : Bool} {T M : Prop}
    (hcall : simpleMatches behind (some str) (some p) = some test) (htest : test = true ↔ T)
    (hmeans : Matches str p ↔ M) : Right behind str p ↔ (T ↔ M) := by
  rw [Right, hcall]
  constructor
  · rintro ⟨r, hr, hiff⟩
    cases hr
    rw [← htest, ← hmeans]
    exact hiff
  · intro hiff
    exact ⟨test, rfl, by rw [htest, hmeans]; exact hiff⟩

section Shapes
variable {str p : CString}

theorem right_without_star (behind : CString) (hlead : leadingStar p.bytes = false)
    (htrail : trailingStar p.bytes = false) : Right behind str p := by
  cases shape p.bytes with
  | exact _ _ hlast hbody =>
    refine (right_iff (simpleMatches_exact behind hlead hlast) ?_
      (matches_exact hlead htrail hbody)).mpr Iff.rfl
    simp [equals]
  | trailing _ htrail' _ => simp [htrail] at htrail'
  | leading hlead' _ _ _ => simp [hlead] at hlead'
  | both hlead' _ _ => simp [hlead] at hlead'

/-- Without a copy the answer is 0. -/
theorem forall_right_null (hfits : ¬ FitsInt p.bytes.length)
    (hany : leadingStar p.bytes = true ∨ trailingStar p.bytes = true) :
    (∀ behind, Right behind str p) ↔ ¬ Matches str p := by
  have hright : ∀ behind, Right behind str p ↔ (False ↔ Matches str p) := fun behind =>
    right_iff (simpleMatches_null behind hfits hany) (by simp) Iff.rfl
  rw [forall_congr' hright]
  exact ⟨fun h => by simpa using h star, fun h _ => by simpa using h⟩

theorem forall_right_trailing (hfits : FitsInt p.bytes.length) (hlead : leadingStar p.bytes = false)
    (htrail : trailingStar p.bytes = true) (hbody : p.bytes = body p.bytes ++ [42]) :
    (∀ behind, Right behind str p) ↔ ¬ copied p.bytes <+: str.bytes := by
  have hright : ∀ behind, Right behind str p ↔
      ((token behind p).bytes <+: str.bytes ↔ body p.bytes <+: str.bytes) := fun behind =>
    right_iff (simpleMatches_trailing behind hfits hlead htrail hbody) startsWith_iff
      (matches_trailing hlead htrail)
  rw [forall_congr' hright]
  refine forall_iff_fixed ⟨longer str, ?_⟩ exists_start_token ?_ ?_
  · exact fun h => not_infix_token_longer str p h.isInfix
  · exact fun b h => (copied_start_token b p).trans h
  · exact fun h => (copied_start_body p).trans h

theorem forall_right_leading (hfits : FitsInt p.bytes.length) (hlead : leadingStar p.bytes = true)
    (htrail : trailingStar p.bytes = false) (hlast : p.bytes = [42] ∨ p.bytes.getLast? ≠ some 42)
    (hbody : p.bytes = 42 :: body p.bytes) :
    (∀ behind, Right behind str p) ↔ ¬ copied p.bytes <:+: str.bytes := by
  rcases hlast with hlone | hlast
  · -- no answer at all; the empty copy occurs in every string
    refine iff_of_false (fun h => ?_) (fun h => h ?_)
    · obtain ⟨r, hr, -⟩ := h star
      rw [simpleMatches_lone star hlone] at hr
      cases hr
    · rw [hlone]
      exact List.nil_infix
  · have hright : ∀ behind, Right behind str p ↔
        ((token behind p).bytes <:+ str.bytes ↔ body p.bytes <:+ str.bytes) := fun behind =>
      right_iff (simpleMatches_leading behind hfits hlead htrail hlast hbody) endsWith_iff
        (matches_leading hlead htrail)
    rw [forall_congr' hright]
    refine forall_iff_fixed ⟨longer str, ?_⟩ exists_suffix_token ?_ ?_
    · exact fun h => not_infix_token_longer str p h.isInfix
    · exact fun b h => (copied_start_token b p).isInfix.trans h.isInfix
    · exact fun h => (copied_start_body p).isInfix.trans h.isInfix

theorem forall_right_both (hfits : FitsInt p.bytes.length) (hlead : leadingStar p.bytes = true)
    (htrail : trailingStar p.bytes = true) (hbody : p.bytes = 42 :: (body p.bytes ++ [42])) :
    (∀ behind, Right behind str p) ↔ ¬ copied p.bytes <:+: str.bytes := by
  by_cases hone : p.bytes.length % 2^32 = 1
  · refine iff_of_false (fun h => ?_) (fun h => h ?_)
    · obtain ⟨r, hr, -⟩ := h star
      rw [simpleMatches_both star hfits hlead htrail hbody, if_pos hone] at hr
      cases hr
    · rw [copied, hone, hlead, htrail]
      exact List.nil_infix
  · have hright : ∀ behind, Right behind str p ↔
        ((token behind p).bytes <:+: str.bytes ↔ body p.bytes <:+: str.bytes) := fun behind =>
      right_iff ((simpleMatches_both behind hfits hlead htrail hbody).trans (if_neg hone)) contains_iff
        (matches_both hlead htrail)
    rw [forall_congr' hright]
    refine forall_iff_fixed ⟨longer str, not_infix_token_longer str p⟩ ?_ ?_ ?_
    · intro h
      obtain ⟨b, hb⟩ := exists_suffix_token h
      exact ⟨b, hb.isInfix⟩
    · exact fun b h => (copied_start_token b p).isInfix.trans h
    · exact fun h => (copied_start_body p).isInfix.trans h

end Shapes

theorem right_iff_answerFixed (str p : CString) :
    (∀ behind, Right behind str p) ↔ AnswerFixed str p := by
  rw [AnswerFixed]
  by_cases hfits : FitsInt p.bytes.length
  swap
  · by_cases hstar : leadingStar p.bytes = false ∧ trailingStar p.bytes = false
    · rw [if_pos hstar]
      exact iff_of_true (fun behind => right_without_star behind hstar.1 hstar.2) trivial
    · rw [if_neg hstar, if_pos hfits]
      exact forall_right_null hfits (by simpa [or_iff_not_imp_left] using hstar)
  cases shape p.bytes with
  | exact hlead htrail _ _ =>
    rw [if_pos ⟨hlead, htrail⟩]
    exact iff_of_true (fun behind => right_without_star behind hlead htrail) trivial
  | trailing hlead htrail hbody =>
    rw [if_neg (by simp [htrail]), if_neg (not_not.mpr hfits), if_neg (by simp [hlead])]
    exact forall_right_trailing hfits hlead htrail hbody
  | leading hlead htrail hlast hbody =>
    rw [if_neg (by simp [hlead]), if_neg (not_not.mpr hfits), if_pos hlead]
    exact forall_right_leading hfits hlead htrail hlast hbody
  | both hlead htrail hbody =>
    rw [if_neg (by simp [hlead]), if_neg (not_not.mpr hfits), if_pos hlead]
    exact forall_right_both hfits hlead htrail hbody

theorem copied_eq_body {p : List UInt8} (h : p.length < 2^32) : copied p = body p := by
  rw [copied, Nat.mod_eq_of_lt h]
  apply List.take_of_length_le
  cases shape p with
  | exact hlead htrail _ hbody =>
    have hlen := congrArg List.length hbody
    simp only [hlead, htrail, Bool.toNat_false]
    omega
  | trailing hlead htrail hbody =>
    have hlen := congrArg List.length hbody
    simp only [List.length_append, List.length_singleton] at hlen
    simp only [hlead, htrail, Bool.toNat_false, Bool.toNat_true]
    omega
  | leading hlead htrail _ hbody =>
    have hlen := congrArg List.length hbody
    simp only [List.length_cons] at hlen
    simp only [hlead, htrail, Bool.toNat_false, Bool.toNat_true]
    omega
  | both hlead htrail hbody =>
    have hlen := congrArg List.length hbody
    simp only [List.length_cons, List.length_append] at hlen
    simp only [hlead, htrail, Bool.toNat_true]
    omega

/-- With a NUL behind the copy, every pattern but a lone star is matched as it is meant. -/
theorem right_of_terminated (str : CString) {p : CString} (hlone : p.bytes ≠ [42])
    (hlen : p.bytes.length < 2^31 - 1) : Right (CString.ofBytes []) str p := by
  have htoken : (token (CString.ofBytes []) p).bytes = body p.bytes := by
    change copied p.bytes ++ [] = _
    rw [List.append_nil, copied_eq_body (by omega)]
  have hmod : p.bytes.length % 2^32 = p.bytes.length := Nat.mod_eq_of_lt (by omega)
  have hfits : 0 < p.bytes.length → FitsInt p.bytes.length := by
    intro hpos
    rw [FitsInt, hmod]
    exact ⟨hpos, hlen⟩
  cases shape p.bytes with
  | exact hlead htrail hlast hbody =>
    refine (right_iff (simpleMatches_exact _ hlead hlast) ?_
      (matches_exact hlead htrail hbody)).mpr Iff.rfl
    simp [equals]
  | trailing hlead htrail hbody =>
    have hpos : 0 < p.bytes.length := by rw [hbody]; simp
    refine (right_iff (simpleMatches_trailing _ (hfits hpos) hlead htrail hbody) startsWith_iff
      (matches_trailing hlead htrail)).mpr ?_
    rw [htoken]
  | leading hlead htrail hlast hbody =>
    have hpos : 0 < p.bytes.length := by rw [hbody]; simp
    refine (right_iff (simpleMatches_leading _ (hfits hpos) hlead htrail
      (hlast.resolve_left hlone) hbody) endsWith_iff (matches_leading hlead htrail)).mpr ?_
    rw [htoken]
  | both hlead htrail hbody =>
    have htwo : 2 ≤ p.bytes.length := by rw [hbody]; simp
    have hcall : simpleMatches (CString.ofBytes []) (some str) (some p) =
        some (contains str (token (CString.ofBytes []) p)) :=
      (simpleMatches_both _ (hfits (by omega)) hlead htrail hbody).trans (if_neg (by omega))
    refine (right_iff hcall contains_iff (matches_both hlead htrail)).mpr ?_
    rw [htoken]

/-- Whatever lies behind the copy of the body, the answer is right exactly where it is fixed; and
for patterns of at most 2^31 - 2 chars other than a lone star it is right where a NUL lies there. -/
theorem simple_matches_iff (str p : CString) :
    ((∀ behind, Right behind str p) ↔ AnswerFixed str p) ∧
    (p.bytes ≠ [42] → p.bytes.length < 2^31 - 1 → Right (CString.ofBytes []) str p) :=
  ⟨right_iff_answerFixed str p, fun hlone hlen => right_of_terminated str hlone hlen⟩

/-- `a` does not start with `b`. -/
theorem simple_matches_iff_ab :
    (∀ behind, Right behind (CString.ofBytes [97]) (CString.ofBytes [98, 42])) ∧
      Right (CString.ofBytes []) (CString.ofBytes [97, 98]) (CString.ofBytes [97, 42]) := by
  refine ⟨(simple_matches_iff _ _).1.mpr ?_, (simple_matches_iff _ _).2 (by decide) (by decide)⟩
  rw [AnswerFixed, if_neg (by decide), if_neg (by decide), if_neg (by decide)]
  decide

/-- A lone star means any string, and no call with it returns. -/
theorem simple_matches_lone_star :
    Matches (CString.ofBytes [97]) star ∧
      ∀ behind, simpleMatches behind (some (CString.ofBytes [97])) (some star) = none := by
  refine ⟨⟨[97], [], by decide, by decide, fun _ => rfl⟩, fun behind => ?_⟩
  exact simpleMatches_lone behind (by decide)

end Miqs.StringUtils
