import Mathlib.Data.List.TakeDrop
import Miqs.SimpleMatches

/-! Searching a list of tags for a key and a value. Keys and values are copied out of the tags
without a terminator, so that memory behind the copies is read with them. -/
namespace Miqs.QueryUtils
open Miqs.CData Miqs.StringUtils

def indexOf (str : CString) (c : UInt8) : CInt :=
  if c ∈ str.bytes then BitVec.ofNat 32 (str.bytes.findIdx (· = c)) else -1

def getKey (kvPair : CString) (delim : UInt8) : Option Block :=
  let idx := indexOf kvPair delim
  if idx.toInt < 0 then some .null else subrstr kvPair idx

def getValue (kvPair : CString) (delim : UInt8) : Option Block :=
  let idx := indexOf kvPair delim
  if idx.toInt < 0 then some .null else substr kvPair (idx + 1)

def strtok (rest : List UInt8) : Option (List UInt8 × List UInt8) :=
  match rest.dropWhile (· = 44) with
  | [] => none
  | tok => some (tok.takeWhile (· ≠ 44), (tok.dropWhile (· ≠ 44)).drop 1)

/-- What memory holds behind the blocks of one round of the loop: the copies of the key, of the
value and of the two patterns. -/
structure Behind where
  key : CString
  value : CString
  keyTok : CString
  valueTok : CString

def tagMatches (mem : Behind) (keyPattern : CString) (valuePattern : Option CString)
    (tagKv : CString) : Option Bool :=
  if 61 ∈ tagKv.bytes then do
    let key ← getKey tagKv 61
    let value ← getValue tagKv 61
    let isKeyMatched ← simpleMatches mem.keyTok (key.read mem.key) (some keyPattern)
    match valuePattern with
    | none => some isKeyMatched
    | some valuePattern => do
      let isValueMatched ← simpleMatches mem.valueTok (value.read mem.value) (some valuePattern)
      some (isKeyMatched && isValueMatched)
  else some false

def tagLoop (round : Nat → CString → Option Bool) :
    Nat → Nat → List UInt8 → Option (Option (Nat × CString))
  | 0, _, _ => none
  | fuel + 1, i, rest =>
    match strtok rest with
    | none => some none
    | some (tok, rest) =>
      match round i (CString.ofBytes tok) with
      | none => none
      | some true => some (some (i, CString.ofBytes tok))
      | some false => tagLoop round fuel (i + 1) rest

/-- The strings may be NULL. There are no more tokens than chars. -/
def kVMatchesP (mem : Nat → Behind) (tagslist keyPattern valuePattern : Option CString) :
    Option (Option (Nat × CString)) :=
  match tagslist, keyPattern with
  | some tagslist, some keyPattern =>
    tagLoop (fun i tagKv => tagMatches (mem i) keyPattern valuePattern tagKv)
      (tagslist.bytes.length + 1) 0 tagslist.bytes
  | _, _ => some none

def tokens (l : List UInt8) : List (List UInt8) := (l.splitOn 44).filter (· ≠ [])

theorem tokens_comma (l : List UInt8) : tokens (44 :: l) = tokens l := by
  rw [tokens, tokens, List.splitOn_cons_eq_if_modifyHead]
  simp

theorem tokens_dropWhile (l : List UInt8) : tokens (l.dropWhile (· = 44)) = tokens l := by
  induction l with
  | nil => rfl
  | cons b l ih =>
    by_cases hb : b = 44
    · rw [List.dropWhile_cons_of_pos (by simp [hb]), ih, hb, tokens_comma]
    · rw [List.dropWhile_cons_of_neg (by simp [hb])]

/-- A token and the rest behind its comma. -/
theorem tokens_split {tok l : List UInt8} (hne : tok ≠ []) (htok : ∀ b ∈ tok, b ≠ 44)
    (hl : l.head? = none ∨ l.head? = some 44) : tokens (tok ++ l) = tok :: tokens (l.drop 1) := by
  cases l with
  | nil =>
    have hsingle : tok.splitOn 44 = [tok] := by
      rw [List.splitOn_eq_splitOnP, List.splitOnP_eq_singleton]
      intro b hb
      simpa using htok b hb
    rw [List.append_nil, tokens, hsingle]
    simp [hne, tokens]
  | cons b l =>
    obtain rfl : b = 44 := by simpa using hl
    have hfirst : (tok ++ 44 :: l).splitOn 44 = tok :: l.splitOn 44 := by
      rw [List.splitOn_eq_splitOnP, List.splitOnP_append_cons_of_forall_mem _ 44 (by simp), List.splitOn_eq_splitOnP]
      intro b hb
      simpa using htok b hb
    simp [tokens, hfirst, hne]

/-- `strtok` delivers the tokens one by one. -/
theorem strtok_cases (rest : List UInt8) :
    strtok rest = none ∧ tokens rest = [] ∨
      ∃ tok rest', strtok rest = some (tok, rest') ∧ tokens rest = tok :: tokens rest' ∧
        tok.length ≤ rest.length ∧ rest'.length < rest.length := by
  rw [strtok, ← tokens_dropWhile]
  have hle : (rest.dropWhile (· = 44)).length ≤ rest.length := List.length_dropWhile_le _ _
  cases hrest : rest.dropWhile (· = 44) with
  | nil => exact Or.inl ⟨rfl, rfl⟩
  | cons b l =>
    right
    have hb : b ≠ 44 := by
      have hnot := List.head?_dropWhile_not (· = 44) rest
      rw [hrest] at hnot
      simpa using hnot
    have hsplit := List.takeWhile_append_dropWhile (p := (· ≠ 44)) (l := b :: l)
    have htok : (b :: l).takeWhile (· ≠ 44) ≠ [] := by
      rw [List.takeWhile_cons_of_pos (by simpa using hb)]
      simp
    have hlen := congrArg List.length hsplit
    have hpos : 0 < ((b :: l).takeWhile (· ≠ 44)).length := List.length_pos_iff.mpr htok
    rw [List.length_append] at hlen
    rw [hrest] at hle
    refine ⟨_, _, rfl, ?_, by omega, ?_⟩
    · conv_lhs => rw [← hsplit]
      apply tokens_split htok
      · intro c hc
        simpa using List.mem_takeWhile_imp hc
      · cases hd : (b :: l).dropWhile (· ≠ 44) with
        | nil => exact Or.inl rfl
        | cons c l' =>
          have hnot := List.head?_dropWhile_not (· ≠ 44) (b :: l)
          rw [hd] at hnot
          exact Or.inr (by simpa using hnot)
    · rw [List.length_drop]
      omega

theorem length_le_of_mem_tokens {l tok : List UInt8} (h : tok ∈ tokens l) : tok.length ≤ l.length := by
  induction hn : l.length using Nat.strong_induction_on generalizing l with
  | _ n ih =>
    rcases strtok_cases l with ⟨-, hnil⟩ | ⟨first, rest, -, hcons, hfirst, hlt⟩
    · rw [hnil] at h
      cases h
    · rw [hcons, List.mem_cons] at h
      rcases h with rfl | hrest
      · omega
      · have hle := ih rest.length (by omega) hrest rfl
        omega

def firstOf (round : Nat → CString → Option Bool) :
    Nat → List CString → Option (Option (Nat × CString))
  | _, [] => some none
  | i, kv :: kvs =>
    match round i kv with
    | none => none
    | some true => some (some (i, kv))
    | some false => firstOf round (i + 1) kvs

theorem tagLoop_eq (round : Nat → CString → Option Bool) {fuel : Nat} (i : Nat)
    {rest : List UInt8} (hfuel : rest.length < fuel) :
    tagLoop round fuel i rest = firstOf round i ((tokens rest).map CString.ofBytes) := by
  induction fuel generalizing i rest with
  | zero => omega
  | succ fuel ih =>
    rw [tagLoop]
    rcases strtok_cases rest with ⟨hnone, hnil⟩ | ⟨tok, rest', hsome, hcons, -, hlt⟩
    · rw [hnone, hnil]
      rfl
    · rw [hsome, hcons, List.map_cons, firstOf, ← ih (i + 1) (by omega)]

def keyOf (kv : CString) : CString := CString.ofBytes (kv.bytes.takeWhile (· ≠ 61))

def valueOf (kv : CString) : CString := CString.ofBytes ((kv.bytes.dropWhile (· ≠ 61)).drop 1)

def TagMatches (keyPattern : CString) (valuePattern : Option CString) (kv : CString) : Prop :=
  61 ∈ kv.bytes ∧ Matches (keyOf kv) keyPattern ∧
    ∀ v, valuePattern = some v → Matches (valueOf kv) v

def Answers (M : CString → Prop) (kvs : List CString) : Option (Nat × CString) → Prop
  | none => ∀ kv ∈ kvs, ¬ M kv
  | some (i, kv) => kvs[i]? = some kv ∧ M kv ∧ ∀ kv' ∈ kvs.take i, ¬ M kv'

section Walk
variable {round : Nat → CString → Option Bool} {M : CString → Prop}

/-- Where every round answers for its token, the walk answers for the list. -/
theorem firstOf_answers {i : Nat} {kvs : List CString}
    (h : ∀ j kv, kvs[j]? = some kv → ∃ r, round (i + j) kv = some r ∧ (r = true ↔ M kv)) :
    firstOf round i kvs = some none ∧ Answers M kvs none ∨
      ∃ j kv, firstOf round i kvs = some (some (i + j, kv)) ∧ Answers M kvs (some (j, kv)) := by
  induction kvs generalizing i with
  | nil => exact Or.inl ⟨rfl, by simp [Answers]⟩
  | cons kv kvs ih =>
    obtain ⟨r, hround, hr⟩ := h 0 kv rfl
    rw [Nat.add_zero] at hround
    rw [firstOf, hround]
    cases r with
    | true => exact Or.inr ⟨0, kv, rfl, rfl, hr.mp rfl, by simp⟩
    | false =>
      have hno : ¬ M kv := fun hm => by simpa using hr.mpr hm
      have hrest : ∀ j kv', kvs[j]? = some kv' →
          ∃ r, round (i + 1 + j) kv' = some r ∧ (r = true ↔ M kv') := by
        intro j kv' hj
        have hnext := h (j + 1) kv' hj
        rwa [show i + (j + 1) = i + 1 + j by omega] at hnext
      rcases ih hrest with ⟨hfirst, hans⟩ | ⟨j, kv', hfirst, hget, hm, hbefore⟩
      · left
        refine ⟨hfirst, ?_⟩
        intro kv' hkv'
        rcases List.mem_cons.mp hkv' with rfl | hmem
        · exact hno
        · exact hans kv' hmem
      · right
        refine ⟨j + 1, kv', ?_, hget, hm, ?_⟩
        · rw [show i + (j + 1) = i + 1 + j by omega]
          exact hfirst
        · intro kv'' hkv''
          rw [List.take_succ_cons, List.mem_cons] at hkv''
          rcases hkv'' with rfl | hmem
          · exact hno
          · exact hbefore kv'' hmem

/-- A walk that returns NULL has rejected every token. -/
theorem rejected_of_firstOf {i : Nat} {kvs : List CString} (h : firstOf round i kvs = some none)
    {j : Nat} {kv : CString} (hj : kvs[j]? = some kv) : round (i + j) kv = some false := by
  induction kvs generalizing i j with
  | nil => simp at hj
  | cons kv' kvs ih =>
    rw [firstOf] at h
    cases hround : round i kv' with
    | none => simp [hround] at h
    | some r =>
      cases r with
      | true => simp [hround] at h
      | false =>
        rw [hround] at h
        cases j with
        | zero =>
          obtain rfl : kv' = kv := by simpa using hj
          exact hround
        | succ j =>
          rw [show i + (j + 1) = i + 1 + j by omega]
          exact ih h hj

/-- A token that is returned was accepted in its round. -/
theorem accepted_of_firstOf {i k : Nat} {kv : CString} {kvs : List CString}
    (h : firstOf round i kvs = some (some (k, kv))) :
    ∃ j, k = i + j ∧ kvs[j]? = some kv ∧ round k kv = some true := by
  induction kvs generalizing i with
  | nil => simp [firstOf] at h
  | cons kv' kvs ih =>
    rw [firstOf] at h
    cases hround : round i kv' with
    | none => simp [hround] at h
    | some r =>
      rw [hround] at h
      cases r with
      | true =>
        obtain ⟨rfl, rfl⟩ : i = k ∧ kv' = kv := by simpa using h
        exact ⟨0, rfl, rfl, hround⟩
      | false =>
        obtain ⟨j, rfl, hget, hacc⟩ := ih h
        exact ⟨j + 1, by omega, hget, hacc⟩

/-- The first token that is accepted is returned. -/
theorem firstOf_accepted {i j : Nat} {kv : CString} {kvs : List CString}
    (hbefore : ∀ j' < j, ∀ kv', kvs[j']? = some kv' → round (i + j') kv' = some false)
    (hj : kvs[j]? = some kv) (hround : round (i + j) kv = some true) :
    firstOf round i kvs = some (some (i + j, kv)) := by
  induction kvs generalizing i j with
  | nil => simp at hj
  | cons kv' kvs ih =>
    rw [firstOf]
    cases j with
    | zero =>
      obtain rfl : kv' = kv := by simpa using hj
      rw [Nat.add_zero] at hround
      rw [hround]
      rfl
    | succ j =>
      have hfirst := hbefore 0 (by omega) kv' rfl
      rw [Nat.add_zero] at hfirst
      rw [hfirst, show i + (j + 1) = i + 1 + j by omega]
      refine ih ?_ hj (by rwa [show i + (j + 1) = i + 1 + j by omega] at hround)
      intro j' hj' kv'' hget
      have hnext := hbefore (j' + 1) (by omega) kv'' hget
      rwa [show i + (j' + 1) = i + 1 + j' by omega] at hnext

end Walk

def ReturnsNormally (p : CString) : Prop :=
  ∀ behind str, simpleMatches behind (some str) (some p) ≠ none

def CanMatch (p : CString) : Block → Prop
  | .null => False
  | .chars s =>
    if leadingStar p.bytes = false ∧ trailingStar p.bytes = false then s <+: p.bytes
    else if ¬ FitsInt p.bytes.length then False
    else if leadingStar p.bytes then True
    else copied p.bytes <+: s ∨ s <+: copied p.bytes

def Within (str : CString) : Block → Prop
  | .null => True
  | .chars s => s ⊆ str.bytes

def extend {str : CString} {s : List UInt8} (h : s ⊆ str.bytes) (behind : CString) : CString where
  bytes := s ++ behind.bytes
  nulFree := by
    intro h0
    rcases List.mem_append.mp h0 with h0 | h0
    · exact str.nulFree (h h0)
    · exact behind.nulFree h0

theorem read_chars {str : CString} {s : List UInt8} (h : s ⊆ str.bytes) (behind : CString) :
    (Block.chars s).read behind = some (extend h behind) :=
  congrArg some (CString.ofBytes_bytes (extend h behind))

/-- Bytes that are in front of a string, and the rest of it behind them. -/
theorem exists_extend {str t : CString} {s : List UInt8} (h : s ⊆ str.bytes) (hs : s <+: t.bytes) :
    ∃ behind, extend h behind = t := by
  obtain ⟨rest, hrest⟩ := hs
  have hsub : rest ⊆ t.bytes := by
    intro b hb
    rw [← hrest]
    exact List.mem_append_right _ hb
  exact ⟨restOf t hsub, CString.ext hrest⟩

theorem canMatch_of_matched {str p : CString} {block : Block} (hin : Within str block)
    {behind tok : CString} (h : simpleMatches tok (block.read behind) (some p) = some true) :
    CanMatch p block := by
  cases block with
  | null => simp [Block.read, simpleMatches] at h
  | chars s =>
    rw [read_chars hin] at h
    rw [CanMatch]
    by_cases hstar : leadingStar p.bytes = false ∧ trailingStar p.bytes = false
    · rw [if_pos hstar]
      cases shape p.bytes with
      | exact hlead htrail hlast hbody =>
        rw [simpleMatches_exact tok hlead hlast] at h
        have heq : p = extend hin behind := by simpa [equals] using h
        rw [heq]
        exact List.prefix_append _ _
      | trailing _ htrail _ => simp [htrail] at hstar
      | leading hlead _ _ _ => simp [hlead] at hstar
      | both hlead _ _ => simp [hlead] at hstar
    rw [if_neg hstar]
    by_cases hfits : FitsInt p.bytes.length
    swap
    · have hany : leadingStar p.bytes = true ∨ trailingStar p.bytes = true := by
        simpa [or_iff_not_imp_left] using hstar
      rw [simpleMatches_null tok hfits hany] at h
      simp at h
    rw [if_neg (not_not.mpr hfits)]
    by_cases hlead : leadingStar p.bytes
    · rw [if_pos hlead]
      trivial
    rw [if_neg hlead]
    cases shape p.bytes with
    | exact _ htrail _ _ => simp [hlead, htrail] at hstar
    | leading hlead' _ _ _ => exact absurd hlead' hlead
    | both hlead' _ _ => exact absurd hlead' hlead
    | trailing hlead' htrail hbody =>
      rw [simpleMatches_trailing tok hfits hlead' htrail hbody, Option.some.injEq,
        startsWith_iff] at h
      have hcopy : copied p.bytes <+: s ++ behind.bytes := (copied_start_token tok p).trans h
      exact List.prefix_or_prefix_of_prefix hcopy (List.prefix_append _ _)

def noBytes : CString := CString.ofBytes []

theorem bytes_token_noBytes (p : CString) : (token noBytes p).bytes = copied p.bytes :=
  List.append_nil _

theorem exists_matched {str p : CString} {block : Block} (hin : Within str block)
    (hnormal : ReturnsNormally p) (h : CanMatch p block) :
    ∃ behind tok, simpleMatches tok (block.read behind) (some p) = some true := by
  cases block with
  | null => exact absurd h id
  | chars s =>
    simp only [read_chars hin]
    rw [CanMatch] at h
    cases shape p.bytes with
    | exact hlead htrail hlast hbody =>
      rw [if_pos ⟨hlead, htrail⟩] at h
      obtain ⟨behind, hbehind⟩ := exists_extend hin h
      refine ⟨behind, noBytes, ?_⟩
      rw [simpleMatches_exact noBytes hlead hlast, hbehind]
      simp [equals]
    | trailing hlead htrail hbody =>
      rw [if_neg (by simp [htrail])] at h
      split_ifs at h with hfits hlead'
      · simp [hlead] at hlead'
      have hgoal : ∃ behind, copied p.bytes <+: (extend hin behind).bytes := by
        rcases h with hcopy | hcopy
        · exact ⟨noBytes, hcopy.trans (List.prefix_append _ _)⟩
        · rw [← bytes_token_noBytes] at hcopy
          obtain ⟨behind, hbehind⟩ := exists_extend hin hcopy
          exact ⟨behind, by rw [hbehind, bytes_token_noBytes]⟩
      obtain ⟨behind, hbehind⟩ := hgoal
      refine ⟨behind, noBytes, ?_⟩
      rw [simpleMatches_trailing noBytes hfits hlead htrail hbody, Option.some.injEq,
        startsWith_iff, bytes_token_noBytes]
      exact hbehind
    | leading hlead htrail hlast hbody =>
      rw [if_neg (by simp [hlead])] at h
      split_ifs at h with hfits
      have hne : p.bytes.getLast? ≠ some 42 := by
        rcases hlast with hlone | hne
        · exact absurd (simpleMatches_lone noBytes hlone) (hnormal noBytes noBytes)
        · exact hne
      refine ⟨token noBytes p, noBytes, ?_⟩
      rw [simpleMatches_leading noBytes hfits hlead htrail hne hbody, Option.some.injEq,
        endsWith_iff]
      exact List.suffix_append _ _
    | both hlead htrail hbody =>
      rw [if_neg (by simp [hlead])] at h
      split_ifs at h with hfits
      have hne : ¬ p.bytes.length % 2^32 = 1 := by
        intro hone
        refine hnormal noBytes noBytes ?_
        rw [simpleMatches_both noBytes hfits hlead htrail hbody, if_pos hone]
      refine ⟨token noBytes p, noBytes, ?_⟩
      rw [simpleMatches_both noBytes hfits hlead htrail hbody, if_neg hne,
        Option.some.injEq, contains_iff]
      exact (List.suffix_append _ _).isInfix

/-- A match has the token in the string, unless the pattern is the string. -/
theorem matched_cases {tok str p : CString}
    (h : simpleMatches tok (some str) (some p) = some true) :
    p = str ∨ (token tok p).bytes <:+: str.bytes := by
  have hstarred : leadingStar p.bytes = true ∨ trailingStar p.bytes = true →
      FitsInt p.bytes.length := by
    intro hany
    by_contra hfits
    rw [simpleMatches_null tok hfits hany] at h
    simp at h
  cases shape p.bytes with
  | exact hlead _ hlast _ =>
    rw [simpleMatches_exact tok hlead hlast] at h
    exact Or.inl (by simpa [equals] using h)
  | trailing hlead htrail hbody =>
    rw [simpleMatches_trailing tok (hstarred (Or.inr htrail)) hlead htrail hbody, Option.some.injEq,
      startsWith_iff] at h
    exact Or.inr h.isInfix
  | leading hlead htrail hlast hbody =>
    rcases hlast with hlone | hne
    · rw [simpleMatches_lone tok hlone] at h
      cases h
    · rw [simpleMatches_leading tok (hstarred (Or.inl hlead)) hlead htrail hne hbody,
        Option.some.injEq, endsWith_iff] at h
      exact Or.inr h.isInfix
  | both hlead htrail hbody =>
    rw [simpleMatches_both tok (hstarred (Or.inl hlead)) hlead htrail hbody] at h
    split_ifs at h
    rw [Option.some.injEq, contains_iff] at h
    exact Or.inr h

/-- Memory that lets no block match. -/
theorem exists_unmatched {str p : CString} {block : Block} (hin : Within str block) :
    ∃ behind tok, simpleMatches tok (block.read behind) (some p) ≠ some true := by
  cases block with
  | null => exact ⟨noBytes, noBytes, by simp [Block.read, simpleMatches]⟩
  | chars s =>
    refine ⟨longer p, longer (extend hin (longer p)), ?_⟩
    rw [read_chars hin]
    intro h
    rcases matched_cases h with heq | htok
    · have hlen := congrArg (fun t => t.bytes.length) heq
      simp only [extend, longer, List.length_append, List.length_replicate] at hlen
      omega
    · exact not_infix_token_longer _ p htok

theorem toInt_ofNat_le (n : Nat) : (BitVec.ofNat 32 n).toInt ≤ n := by
  have hmod := Nat.mod_le n (2^32)
  rw [BitVec.toInt_eq_toNat_cond, BitVec.toNat_ofNat]
  split_ifs <;> omega

theorem within_substring {str : CString} {start fin : CInt} {block : Block}
    (hfin : fin.toInt ≤ str.bytes.length) (h : substring str start fin = some block) :
    Within str block := by
  have hlen := toInt_ofNat_le str.bytes.length
  rw [substring] at h
  generalize hlast : (if fin.toInt < 0 then BitVec.ofNat 32 str.bytes.length else fin) = last at h
  have hle : last.toInt ≤ str.bytes.length := by
    rw [← hlast]
    split_ifs <;> omega
  dsimp only at h
  split_ifs at h with hnull hout hneg
  · cases h
    trivial
  · cases h
    trivial
  · cases h
    -- the block is not longer than the rest of the string
    have hlastLt := BitVec.toInt_lt (x := last)
    have hlastGe : 0 ≤ last.toInt := by
      rw [← hlast]
      split_ifs <;> omega
    have hstartLt := BitVec.toInt_lt (x := start)
    have hsub : (last - start).toInt = last.toInt - start.toInt := by
      rw [BitVec.toInt_sub, Int.bmod_eq_of_le] <;> omega
    obtain ⟨hstart, -⟩ := toNat_of_toInt (x := start) (a := start.toInt.toNat) (by omega)
    obtain ⟨hcount, -⟩ := toNat_of_toInt (x := last - start) (a := (last - start).toInt.toNat)
      (by omega)
    have hpad : (last - start).toNat - (str.bytes.drop start.toNat).length = 0 := by
      rw [List.length_drop]
      omega
    rw [Within, copyChars, hpad, List.replicate_zero, List.append_nil]
    exact fun b hb => List.mem_of_mem_drop (List.mem_of_mem_take hb)

theorem indexOf_le (str : CString) (c : UInt8) : (indexOf str c).toInt ≤ str.bytes.length := by
  rw [indexOf]
  split_ifs
  · have hle := toInt_ofNat_le (str.bytes.findIdx (· = c))
    have hidx : str.bytes.findIdx (· = c) ≤ str.bytes.length := List.findIdx_le_length
    omega
  · exact le_trans (show (-1 : CInt).toInt ≤ 0 by decide) (by omega)

theorem within_getKey {kv : CString} {delim : UInt8} {block : Block}
    (h : getKey kv delim = some block) : Within kv block := by
  rw [getKey] at h
  split_ifs at h
  · cases h
    trivial
  · exact within_substring (indexOf_le kv delim) h

theorem within_getValue {kv : CString} {delim : UInt8} {block : Block}
    (h : getValue kv delim = some block) : Within kv block := by
  rw [getValue] at h
  split_ifs at h
  · cases h
    trivial
  · exact within_substring (le_trans (show (-1 : CInt).toInt ≤ 0 by decide) (by omega)) h

def Unmatchable (keyPattern : CString) (valuePattern : Option CString) (kv : CString) : Prop :=
  ∃ key value, getKey kv 61 = some key ∧ getValue kv 61 = some value ∧
    (¬ CanMatch keyPattern key ∨ ∃ v, valuePattern = some v ∧ ¬ CanMatch v value)

section Round
variable {keyPattern : CString} {valuePattern : Option CString} {kv : CString}

theorem tagMatches_none {key value : Block} (heq : 61 ∈ kv.bytes) (hkey : getKey kv 61 = some key)
    (hvalue : getValue kv 61 = some value) (mem : Behind) :
    tagMatches mem keyPattern none kv =
      simpleMatches mem.keyTok (key.read mem.key) (some keyPattern) := by
  rw [tagMatches, if_pos heq, hkey, hvalue]
  change (simpleMatches mem.keyTok (key.read mem.key) (some keyPattern)).bind some = _
  cases simpleMatches mem.keyTok (key.read mem.key) (some keyPattern) <;> rfl

theorem tagMatches_some {key value : Block} {v : CString} (heq : 61 ∈ kv.bytes)
    (hkey : getKey kv 61 = some key) (hvalue : getValue kv 61 = some value) (mem : Behind) :
    tagMatches mem keyPattern (some v) kv =
      (simpleMatches mem.keyTok (key.read mem.key) (some keyPattern)).bind fun k =>
        (simpleMatches mem.valueTok (value.read mem.value) (some v)).map (k && ·) := by
  rw [tagMatches, if_pos heq, hkey, hvalue]
  change (simpleMatches mem.keyTok (key.read mem.key) (some keyPattern)).bind _ = _
  congr 1
  funext k
  change (simpleMatches mem.valueTok (value.read mem.value) (some v)).bind _ = _
  cases simpleMatches mem.valueTok (value.read mem.value) (some v) <;> rfl

/-- The copies of a round that came to an end were made. -/
theorem copies_of_tagMatches {mem : Behind} {r : Bool} (heq : 61 ∈ kv.bytes)
    (h : tagMatches mem keyPattern valuePattern kv = some r) :
    ∃ key value, getKey kv 61 = some key ∧ getValue kv 61 = some value := by
  rw [tagMatches, if_pos heq] at h
  obtain ⟨key, hkey, h⟩ := Option.bind_eq_some_iff.mp h
  obtain ⟨value, hvalue, -⟩ := Option.bind_eq_some_iff.mp h
  exact ⟨key, value, hkey, hvalue⟩

theorem read_matches_ne_none {p : CString} (hp : ReturnsNormally p) (tok behind : CString)
    (block : Block) : simpleMatches tok (block.read behind) (some p) ≠ none := by
  cases hread : block.read behind with
  | none => simp [simpleMatches]
  | some str => exact hp tok str

theorem tagMatches_no_eq (heq : 61 ∉ kv.bytes) (mem : Behind) :
    tagMatches mem keyPattern valuePattern kv = some false := by
  rw [tagMatches, if_neg heq]

/-- Some memory rejects the token. -/
theorem exists_rejected (keyPattern : CString) (valuePattern : Option CString) (kv : CString) :
    ∃ mem, tagMatches mem keyPattern valuePattern kv ≠ some true := by
  by_cases heq : 61 ∈ kv.bytes
  swap
  · exact ⟨⟨noBytes, noBytes, noBytes, noBytes⟩, by rw [tagMatches_no_eq heq]; simp⟩
  by_contra hall
  push Not at hall
  obtain ⟨key, value, hkey, hvalue⟩ := copies_of_tagMatches heq (hall ⟨noBytes, noBytes, noBytes, noBytes⟩)
  obtain ⟨behind, tok, hno⟩ := @exists_unmatched kv keyPattern key (within_getKey hkey)
  have hmatch := hall ⟨behind, noBytes, tok, noBytes⟩
  cases valuePattern with
  | none =>
    rw [tagMatches_none heq hkey hvalue] at hmatch
    exact hno hmatch
  | some v =>
    rw [tagMatches_some heq hkey hvalue] at hmatch
    obtain ⟨k, hk, hv⟩ := Option.bind_eq_some_iff.mp hmatch
    obtain ⟨b, -, hb⟩ := Option.map_eq_some_iff.mp hv
    rw [Bool.and_eq_true] at hb
    rw [hb.1] at hk
    exact hno hk

theorem tagMatches_of_unmatchable (hkp : ReturnsNormally keyPattern)
    (hvp : ∀ v, valuePattern = some v → ReturnsNormally v) (heq : 61 ∈ kv.bytes)
    (h : Unmatchable keyPattern valuePattern kv) (mem : Behind) :
    tagMatches mem keyPattern valuePattern kv = some false := by
  obtain ⟨key, value, hkey, hvalue, hno⟩ := h
  obtain ⟨k, hk⟩ := Option.ne_none_iff_exists'.mp (read_matches_ne_none hkp mem.keyTok mem.key key)
  have hkfalse : ¬ CanMatch keyPattern key → k = false := by
    intro hcan
    by_contra hktrue
    rw [Bool.not_eq_false] at hktrue
    rw [hktrue] at hk
    exact hcan (canMatch_of_matched (within_getKey hkey) hk)
  cases valuePattern with
  | none =>
    rw [tagMatches_none heq hkey hvalue, hk]
    have hcan : ¬ CanMatch keyPattern key := by simpa using hno
    rw [hkfalse hcan]
  | some v =>
    obtain ⟨b, hb⟩ := Option.ne_none_iff_exists'.mp
      (read_matches_ne_none (hvp v rfl) mem.valueTok mem.value value)
    rw [tagMatches_some heq hkey hvalue, hk, Option.bind_some, hb, Option.map_some]
    rcases hno with hcan | ⟨v', hv', hcan⟩
    · rw [hkfalse hcan]
      rfl
    · obtain rfl : v = v' := by simpa using hv'
      have hbfalse : b = false := by
        by_contra hbtrue
        rw [Bool.not_eq_false] at hbtrue
        rw [hbtrue] at hb
        exact hcan (canMatch_of_matched (within_getValue hvalue) hb)
      rw [hbfalse, Bool.and_false]

/-- Some memory accepts a token that is not unmatchable. -/
theorem exists_accepted (hkp : ReturnsNormally keyPattern)
    (hvp : ∀ v, valuePattern = some v → ReturnsNormally v) (heq : 61 ∈ kv.bytes) {key value : Block}
    (hkey : getKey kv 61 = some key) (hvalue : getValue kv 61 = some value)
    (h : ¬ Unmatchable keyPattern valuePattern kv) :
    ∃ mem, tagMatches mem keyPattern valuePattern kv = some true := by
  have hcan : CanMatch keyPattern key ∧ ∀ v, valuePattern = some v → CanMatch v value := by
    by_contra hnot
    refine h ⟨key, value, hkey, hvalue, ?_⟩
    by_cases hk : CanMatch keyPattern key
    · right
      push Not at hnot
      exact hnot hk
    · exact Or.inl hk
  obtain ⟨behind, tok, hk⟩ := exists_matched (within_getKey hkey) hkp hcan.1
  cases valuePattern with
  | none =>
    refine ⟨⟨behind, noBytes, tok, noBytes⟩, ?_⟩
    rw [tagMatches_none heq hkey hvalue]
    exact hk
  | some v =>
    obtain ⟨behind', tok', hv⟩ := exists_matched (within_getValue hvalue) (hvp v rfl) (hcan.2 v rfl)
    refine ⟨⟨behind, behind', tok, tok'⟩, ?_⟩
    rw [tagMatches_some heq hkey hvalue]
    simp only [hk, hv, Option.bind_some, Option.map_some, Bool.and_self]

end Round

def tagsOf (tagslist : CString) : List CString := (tokens tagslist.bytes).map CString.ofBytes

def SearchRight (mem : Nat → Behind) (tagslist keyPattern : CString)
    (valuePattern : Option CString) : Prop :=
  ∃ r, kVMatchesP mem (some tagslist) (some keyPattern) valuePattern = some r ∧
    Answers (TagMatches keyPattern valuePattern) (tagsOf tagslist) r

theorem kVMatchesP_eq (mem : Nat → Behind) (tagslist keyPattern : CString)
    (valuePattern : Option CString) :
    kVMatchesP mem (some tagslist) (some keyPattern) valuePattern =
      firstOf (fun i kv => tagMatches (mem i) keyPattern valuePattern kv) 0 (tagsOf tagslist) :=
  tagLoop_eq _ 0 (Nat.lt_succ_self _)

/-- Where every round answers for its tag, the search is right. -/
theorem searchRight_of_rounds {mem : Nat → Behind} {tagslist keyPattern : CString}
    {valuePattern : Option CString}
    (h : ∀ i kv, (tagsOf tagslist)[i]? = some kv →
      ∃ r, tagMatches (mem i) keyPattern valuePattern kv = some r ∧
        (r = true ↔ TagMatches keyPattern valuePattern kv)) :
    SearchRight mem tagslist keyPattern valuePattern := by
  have hwalk := @firstOf_answers (fun i kv => tagMatches (mem i) keyPattern valuePattern kv)
    (TagMatches keyPattern valuePattern) 0 (tagsOf tagslist) (by simpa using h)
  rw [SearchRight, kVMatchesP_eq]
  rcases hwalk with ⟨hfirst, hans⟩ | ⟨j, kv, hfirst, hans⟩
  · exact ⟨none, hfirst, hans⟩
  · rw [Nat.zero_add] at hfirst
    exact ⟨some (j, kv), hfirst, hans⟩

theorem searchRight_iff {tagslist keyPattern : CString} {valuePattern : Option CString}
    (hkp : ReturnsNormally keyPattern) (hvp : ∀ v, valuePattern = some v → ReturnsNormally v) :
    (∀ mem, SearchRight mem tagslist keyPattern valuePattern) ↔
      ∀ kv ∈ tagsOf tagslist, 61 ∈ kv.bytes →
        ¬ TagMatches keyPattern valuePattern kv ∧ Unmatchable keyPattern valuePattern kv := by
  constructor
  · intro h
    -- with memory that rejects every tag, NULL is returned
    choose far hfar using exists_rejected keyPattern valuePattern
    let mem : Nat → Behind := fun i => far (((tagsOf tagslist)[i]?).getD noBytes)
    have hmem : ∀ i kv, (tagsOf tagslist)[i]? = some kv → mem i = far kv := by
      intro i kv hget
      simp only [mem, hget, Option.getD_some]
    obtain ⟨r, hrun, hans⟩ := h mem
    rw [kVMatchesP_eq] at hrun
    obtain rfl : r = none := by
      cases r with
      | none => rfl
      | some out =>
        obtain ⟨j, hj, hget, hacc⟩ := accepted_of_firstOf hrun
        rw [Nat.zero_add] at hj
        rw [hj, hmem j _ hget] at hacc
        exact absurd hacc (hfar _)
    have hrejected := fun j kv (hget : (tagsOf tagslist)[j]? = some kv) => rejected_of_firstOf hrun hget
    simp only [Nat.zero_add] at hrejected
    intro kv hkv heq
    refine ⟨hans kv hkv, ?_⟩
    by_contra hmatchable
    obtain ⟨j, hget⟩ := List.getElem?_of_mem hkv
    obtain ⟨key, value, hkey, hvalue⟩ := copies_of_tagMatches heq (hrejected j kv hget)
    obtain ⟨near, hnear⟩ := exists_accepted hkp hvp heq hkey hvalue hmatchable
    obtain ⟨r, hrun', hans'⟩ := h (Function.update mem j near)
    rw [kVMatchesP_eq] at hrun'
    have hacc := @firstOf_accepted
      (fun i kv => tagMatches (Function.update mem j near i) keyPattern valuePattern kv) 0 j kv
      (tagsOf tagslist) ?_ hget ?_
    · rw [hrun', Option.some.injEq] at hacc
      rw [hacc, Nat.zero_add] at hans'
      exact hans kv hkv hans'.2.1
    · intro j' hj' kv' hget'
      rw [Nat.zero_add, Function.update_of_ne (by omega)]
      exact hrejected j' kv' hget'
    · rw [Nat.zero_add, Function.update_self]
      exact hnear
  · intro h mem
    apply searchRight_of_rounds
    intro i kv hget
    have hkv := List.mem_of_getElem? hget
    by_cases heq : 61 ∈ kv.bytes
    · obtain ⟨hno, hun⟩ := h kv hkv heq
      exact ⟨false, tagMatches_of_unmatchable hkp hvp heq hun (mem i), by simp [hno]⟩
    · exact ⟨false, tagMatches_no_eq heq (mem i), by simp [TagMatches, heq]⟩

def terminated : Behind := ⟨noBytes, noBytes, noBytes, noBytes⟩

theorem bytes_keyOf (kv : CString) : (keyOf kv).bytes = kv.bytes.take (kv.bytes.findIdx (· = 61)) := by
  have htake : kv.bytes.takeWhile (· ≠ 61) = kv.bytes.take (kv.bytes.findIdx (· = 61)) := by
    rw [List.takeWhile_eq_take_findIdx_not]
    simp
  have hnul : 0 ∉ kv.bytes.takeWhile (· ≠ 61) := fun h =>
    kv.nulFree ((List.takeWhile_subset _) h)
  rw [← htake]
  exact congrArg CString.bytes (CString.ofBytes_bytes ⟨_, hnul⟩)

theorem bytes_valueOf (kv : CString) :
    (valueOf kv).bytes = kv.bytes.drop (kv.bytes.findIdx (· = 61) + 1) := by
  have hdrop : (kv.bytes.dropWhile (· ≠ 61)).drop 1 =
      kv.bytes.drop (kv.bytes.findIdx (· = 61) + 1) := by
    rw [List.dropWhile_eq_drop_findIdx_not, List.drop_drop]
    simp
  have hnul : 0 ∉ (kv.bytes.dropWhile (· ≠ 61)).drop 1 := by
    rw [hdrop]
    exact fun h => kv.nulFree (List.mem_of_mem_drop h)
  rw [← hdrop]
  exact congrArg CString.bytes (CString.ofBytes_bytes ⟨_, hnul⟩)

section Short
variable {kv : CString}

theorem toInt_indexOf (heq : 61 ∈ kv.bytes) (hlen : kv.bytes.length < 2^31 - 1) :
    (indexOf kv 61).toInt = (kv.bytes.findIdx (· = 61) : Nat) ∧
      kv.bytes.findIdx (· = 61) < kv.bytes.length := by
  have hlt : kv.bytes.findIdx (· = 61) < kv.bytes.length :=
    List.findIdx_lt_length_of_exists ⟨61, heq, by simp⟩
  refine ⟨?_, hlt⟩
  rw [indexOf, if_pos heq]
  exact toInt_ofNat (Nat.mod_eq_of_lt (by omega)) (by omega)

theorem getKey_short (heq : 61 ∈ kv.bytes) (hlen : kv.bytes.length < 2^31 - 1) :
    getKey kv 61 = some (.chars (keyOf kv).bytes) := by
  obtain ⟨hidx, hlt⟩ := toInt_indexOf heq hlen
  have hmod : kv.bytes.length % 2^32 = kv.bytes.length := Nat.mod_eq_of_lt (by omega)
  have hfits : FitsInt kv.bytes.length := ⟨by omega, by omega⟩
  have hneg : ¬ (indexOf kv 61).toInt < 0 := by omega
  rw [getKey, if_neg hneg, subrstr, substring_chars hfits (a := 0) rfl
    (by rw [if_neg hneg]; exact hidx) (by omega), if_neg (by omega), bytes_keyOf]
  rfl

theorem getValue_short (heq : 61 ∈ kv.bytes) (hlen : kv.bytes.length < 2^31 - 1) :
    getValue kv 61 = some (.chars (valueOf kv).bytes) := by
  obtain ⟨hidx, hlt⟩ := toInt_indexOf heq hlen
  have hmod : kv.bytes.length % 2^32 = kv.bytes.length := Nat.mod_eq_of_lt (by omega)
  have hfits : FitsInt kv.bytes.length := ⟨by omega, by omega⟩
  have hneg : ¬ (indexOf kv 61).toInt < 0 := by omega
  have hnext : (indexOf kv 61 + 1).toInt = (kv.bytes.findIdx (· = 61) + 1 : Nat) := by
    rw [BitVec.toInt_add, hidx]
    change Int.bmod ((kv.bytes.findIdx (· = 61) : Int) + 1) _ = _
    rw [Int.bmod_eq_of_le] <;> omega
  have hend : (if (-1 : CInt).toInt < 0 then BitVec.ofNat 32 kv.bytes.length else -1).toInt =
      (kv.bytes.length : Nat) := by
    rw [if_pos (by decide)]
    exact toInt_ofNat hmod (by omega)
  rw [getValue, if_neg hneg, substr, substring_chars hfits hnext hend (by omega),
    if_neg (by omega), bytes_valueOf, List.take_of_length_le (by rw [List.length_drop])]

theorem read_noBytes (s : CString) : (Block.chars s.bytes).read noBytes = some s := by
  have happend : s.bytes ++ noBytes.bytes = s.bytes := List.append_nil _
  rw [Block.read, happend, CString.ofBytes_bytes]

/-- A round with a NUL behind every copy: empty keys and values are empty strings. -/
theorem tagMatches_terminated {keyPattern : CString} {valuePattern : Option CString}
    (heq : 61 ∈ kv.bytes) (hlen : kv.bytes.length < 2^31 - 1)
    (hkp : ∀ str, Right noBytes str keyPattern)
    (hvp : ∀ v, valuePattern = some v → ∀ str, Right noBytes str v) :
    ∃ r, tagMatches terminated keyPattern valuePattern kv = some r ∧
      (r = true ↔ TagMatches keyPattern valuePattern kv) := by
  obtain ⟨k, hk, hkey⟩ := hkp (keyOf kv)
  cases valuePattern with
  | none =>
    refine ⟨k, ?_, by simp [TagMatches, heq, hkey]⟩
    rw [tagMatches_none heq (getKey_short heq hlen) (getValue_short heq hlen)]
    simpa only [terminated, read_noBytes] using hk
  | some v =>
    obtain ⟨b, hb, hvalue⟩ := hvp v rfl (valueOf kv)
    refine ⟨k && b, ?_, by simp [TagMatches, heq, hkey, hvalue]⟩
    rw [tagMatches_some heq (getKey_short heq hlen) (getValue_short heq hlen)]
    simp only [terminated, read_noBytes, hk, hb, Option.bind_some, Option.map_some]

end Short

theorem right_noBytes {p : CString} (hp : ReturnsNormally p) (hlen : p.bytes.length < 2^31 - 1)
    (str : CString) : Right noBytes str p := by
  apply right_of_terminated str ?_ hlen
  intro hlone
  exact hp noBytes str (simpleMatches_lone noBytes hlone)

theorem searchRight_terminated {tagslist keyPattern : CString} {valuePattern : Option CString}
    (hkp : ReturnsNormally keyPattern) (hvp : ∀ v, valuePattern = some v → ReturnsNormally v)
    (hlen : tagslist.bytes.length < 2^31 - 1) (hkplen : keyPattern.bytes.length < 2^31 - 1)
    (hvplen : ∀ v, valuePattern = some v → v.bytes.length < 2^31 - 1) :
    SearchRight (fun _ => terminated) tagslist keyPattern valuePattern := by
  apply searchRight_of_rounds
  intro i kv hget
  obtain ⟨tok, htok, rfl⟩ := List.mem_map.mp (List.mem_of_getElem? hget)
  have hle : (CString.ofBytes tok).bytes.length ≤ tok.length := (List.takeWhile_sublist _).length_le
  have htoklen := length_le_of_mem_tokens htok
  by_cases heq : 61 ∈ (CString.ofBytes tok).bytes
  · exact tagMatches_terminated heq (by omega) (right_noBytes hkp hkplen)
      (fun v hv => right_noBytes (hvp v hv) (hvplen v hv))
  · exact ⟨false, tagMatches_no_eq heq terminated, by simp [TagMatches, heq]⟩

/-- Whatever lies behind the copies of keys, values and patterns, the search is right exactly
where no tag matches and none can be made to match; where a NUL lies behind them it is right for
all lists and patterns of at most 2^31 - 2 chars. -/
theorem k_v_matches_p_iff {tagslist keyPattern : CString} {valuePattern : Option CString}
    (hkp : ReturnsNormally keyPattern) (hvp : ∀ v, valuePattern = some v → ReturnsNormally v) :
    ((∀ mem, SearchRight mem tagslist keyPattern valuePattern) ↔
      ∀ kv ∈ tagsOf tagslist, 61 ∈ kv.bytes →
        ¬ TagMatches keyPattern valuePattern kv ∧ Unmatchable keyPattern valuePattern kv) ∧
    (tagslist.bytes.length < 2^31 - 1 → keyPattern.bytes.length < 2^31 - 1 →
      (∀ v, valuePattern = some v → v.bytes.length < 2^31 - 1) →
      SearchRight (fun _ => terminated) tagslist keyPattern valuePattern) :=
  ⟨searchRight_iff hkp hvp, searchRight_terminated hkp hvp⟩

theorem returnsNormally_exact {p : CString} (hlead : leadingStar p.bytes = false)
    (hlast : p.bytes.getLast? ≠ some 42) : ReturnsNormally p := by
  intro behind str
  rw [simpleMatches_exact behind hlead hlast]
  simp

/-- The tag `b=1` and the key `a`. -/
theorem k_v_matches_p_iff_b :
    ReturnsNormally (CString.ofBytes [97]) ∧
      ∀ mem, SearchRight mem (CString.ofBytes [98, 61, 49]) (CString.ofBytes [97]) none := by
  have hkp : ReturnsNormally (CString.ofBytes [97]) := returnsNormally_exact (by decide) (by decide)
  refine ⟨hkp, (k_v_matches_p_iff hkp (by simp)).1.mpr ?_⟩
  intro kv hkv heq
  obtain rfl : kv = CString.ofBytes [98, 61, 49] := by
    have htags : tagsOf (CString.ofBytes [98, 61, 49]) = [CString.ofBytes [98, 61, 49]] := by decide
    rw [htags] at hkv
    exact List.mem_singleton.mp hkv
  constructor
  · intro h
    have hkey := (matches_exact (by decide) (by decide) (by decide)).mp h.2.1
    exact absurd hkey (by decide)
  · refine ⟨.chars [98], .chars [49], by decide, by decide, Or.inl ?_⟩
    rw [CanMatch, if_pos (by decide)]
    decide

def longKey : CString := ⟨List.replicate 24 107, by decide⟩

/-- A block of 24 chars fills its chunk of the heap, and the next byte is the size 0x21 of the
chunk that follows. The tag is not found by its own key. -/
theorem k_v_matches_p_misses_key :
    ReturnsNormally longKey ∧ ∃ kv ∈ tagsOf (CString.ofBytes (longKey.bytes ++ [61, 118])),
      TagMatches longKey none kv ∧
      kVMatchesP (fun _ => ⟨CString.ofBytes [33], noBytes, noBytes, noBytes⟩)
        (some (CString.ofBytes (longKey.bytes ++ [61, 118]))) (some longKey) none = some none := by
  refine ⟨returnsNormally_exact (by decide) (by decide),
    CString.ofBytes (longKey.bytes ++ [61, 118]), by decide, ⟨by decide, ?_, by simp⟩, ?_⟩
  · exact (matches_exact (by decide) (by decide) (by decide)).mpr (by decide)
  · decide

end Miqs.QueryUtils
