import Mathlib.Data.List.DropRight
import Miqs.WorkDivision

/-! Making a directory and those above it. `mkpath` calls itself for what `dirname` gives, and
only the current and the root directory end this. -/
namespace Miqs.Mkpath
open Miqs.CData Miqs.WorkDivision

def rootSlashes (n : Nat) : List UInt8 := if n = 2 then [47, 47] else [47]

/-- `dirname` of the C library: trailing slashes do not count, and the slashes before the last
component are dropped unless they start the path. -/
def dirnameBytes (path : List UInt8) : List UInt8 :=
  let body := path.rdropWhile (· = 47)
  if body = [] then
    if path = [] then [46] else rootSlashes path.length
  else
    let dir := body.rdropWhile (· ≠ 47)
    if dir = [] then [46]
    else if dir.rdropWhile (· = 47) = [] then rootSlashes dir.length
    else dir.rdropWhile (· = 47)

theorem rdropWhile_subset (p : UInt8 → Bool) (l : List UInt8) : l.rdropWhile p ⊆ l :=
  ( List.rdropWhile_prefix p l).subset

theorem nulFree_dirnameBytes {path : List UInt8} (h : 0 ∉ path) : 0 ∉ dirnameBytes path := by
  have hroot : ∀ n, 0 ∉ rootSlashes n := by
    intro n
    rw [rootSlashes]
    split_ifs <;> simp
  simp only [dirnameBytes]
  split_ifs
  · simp
  · exact hroot _
  · simp
  · exact hroot _
  · intro h0
    have hdir := rdropWhile_subset _ _ h0
    have hbody := rdropWhile_subset _ _ hdir
    exact h (rdropWhile_subset _ _ hbody)

def dirname (path : CString) : CString :=
  ⟨dirnameBytes path.bytes, nulFree_dirnameBytes path.nulFree⟩

@[simp] theorem bytes_dirname (path : CString) : (dirname path).bytes = dirnameBytes path.bytes := rfl

def slash : CString := CString.ofBytes [47]

inductive Errno where
  | eexist
  | other (code : Nat)
  deriving DecidableEq

/-- The states `F` of a file system and its files `O`, as far as `mkdir` is concerned. A call that
succeeds makes one new file, which its path names from then on; a call that fails makes none, and
says EEXIST only of a path that names a file. -/
structure FileSystem (F O : Type) where
  files : F → Set O
  lookup : F → CString → Option O
  /-- The error, if there is one, and the state afterwards. -/
  mkdir : F → CString → Option Errno × F
  lookup_dot : ∀ fs, (lookup fs dot).isSome
  lookup_slash : ∀ fs, (lookup fs slash).isSome
  mkdir_made : ∀ fs path, (mkdir fs path).1 = none →
    ∃ o, lookup (mkdir fs path).2 path = some o ∧
      files (mkdir fs path).2 = insert o (files fs)
  mkdir_keeps : ∀ fs path q o, lookup fs q = some o → lookup (mkdir fs path).2 q = some o
  mkdir_failed : ∀ fs path e, (mkdir fs path).1 = some e → (mkdir fs path).2 = fs
  mkdir_eexist : ∀ fs path, (mkdir fs path).1 = some .eexist → (lookup fs path).isSome

variable {F O : Type}

/-- What is returned, `errno` and the file system afterwards. `fuel` bounds the depth of the
recursion. -/
def mkpath (os : FileSystem F O) : Nat → CString → Errno → F → Option (Int × Errno × F)
  | 0, _, _, _ => none
  | fuel + 1, s, errno, fs =>
    if s = dot ∨ s = slash then some (0, errno, fs)
    else do
      let (up, errno, fs) ← mkpath os fuel (dirname s) errno fs
      if up = -1 ∧ errno ≠ .eexist then some (-1, errno, fs)
      else
        match os.mkdir fs s with
        | (none, fs) => some (0, errno, fs)
        | (some e, fs) => if e ≠ .eexist then some (-1, e, fs) else some (0, e, fs)

def TwoSlashes (path : List UInt8) : Prop := path.take 2 = [47, 47] ∧ path[2]? ≠ some 47

instance (path : List UInt8) : Decidable (TwoSlashes path) := inferInstanceAs (Decidable (_ ∧ _))

theorem TwoSlashes.of_append {p t : List UInt8} (h : 3 ≤ p.length) :
    TwoSlashes (p ++ t) ↔ TwoSlashes p := by
  rw [TwoSlashes, TwoSlashes, List.take_append_of_le_length (by omega),
    List.getElem?_append_left (by omega)]

/-- A part in front of the path that does not end in a slash is longer than the two slashes. -/
theorem three_le_length {p t : List UInt8} (hne : p ≠ []) (hlast : p.getLast hne ≠ 47)
    (h : TwoSlashes (p ++ t)) : 3 ≤ p.length := by
  match p, hne with
  | [b], _ =>
    have htwo := h.1
    simp only [List.cons_append, List.nil_append, List.take_succ_cons, List.cons.injEq] at htwo
    exact absurd htwo.1 hlast
  | [b, c], _ =>
    have htwo := h.1
    simp only [List.cons_append, List.nil_append, List.take_succ_cons, List.cons.injEq] at htwo
    exact absurd htwo.2.1 hlast
  | _ :: _ :: _ :: _, _ => simp

/-- The number of slashes that a path starts with tells whether they are two. -/
theorem twoSlashes_iff_run {r t : List UInt8} (hr : ∀ b ∈ r, b = 47) (ht : t.head? ≠ some 47) :
    TwoSlashes (r ++ t) ↔ r.length = 2 := by
  obtain ⟨n, rfl⟩ : ∃ n, r = List.replicate n 47 := ⟨r.length, List.eq_replicate_of_mem hr⟩
  rw [TwoSlashes, List.length_replicate]
  match n with
  | 0 =>
    cases t with
    | nil => simp
    | cons b t => simp_all [List.take_succ_cons]
  | 1 =>
    cases t with
    | nil => simp
    | cons b t => simp_all [List.replicate_succ, List.take_succ_cons]
  | 2 => simpa [List.replicate_succ, List.head?_eq_getElem?] using ht
  | n + 3 => simp [List.replicate_succ]

theorem rootSlashes_cases {r t : List UInt8} (hr : ∀ b ∈ r, b = 47) (ht : t.head? ≠ some 47) :
    rootSlashes r.length = [47] ∧ ¬ TwoSlashes (r ++ t) ∨
      rootSlashes r.length = [47, 47] ∧ TwoSlashes (r ++ t) := by
  rw [twoSlashes_iff_run hr ht, rootSlashes]
  by_cases h : r.length = 2
  · exact Or.inr ⟨if_pos h, h⟩
  · exact Or.inl ⟨if_neg h, h⟩

/-- A path with a component: the part in front of the last one decides. -/
theorem dirnameBytes_component {path : List UInt8} (h : path.rdropWhile (· = 47) ≠ []) :
    ∃ dir comp trail, path = dir ++ (comp ++ trail) ∧ comp ≠ [] ∧ (∀ b ∈ comp, b ≠ 47) ∧
      dirnameBytes path = if dir = [] then [46]
        else if dir.rdropWhile (· = 47) = [] then rootSlashes dir.length
        else dir.rdropWhile (· = 47) := by
  let body := path.rdropWhile (· = 47)
  have hpath : body ++ path.rtakeWhile (· = 47) = path := List.rdropWhile_append_rtakeWhile
  have hbody : body.rdropWhile (· ≠ 47) ++ body.rtakeWhile (· ≠ 47) = body :=
    List.rdropWhile_append_rtakeWhile
  refine ⟨body.rdropWhile (· ≠ 47), body.rtakeWhile (· ≠ 47), path.rtakeWhile (· = 47), ?_, ?_, ?_, ?_⟩
  · rw [← List.append_assoc, hbody, hpath]
  · intro hnil
    rw [List.rtakeWhile_eq_nil_iff] at hnil
    have hslash : body.getLast h = 47 := by simpa using hnil h
    have hnot := List.rdropWhile_last_not (· = 47) path h
    exact hnot (decide_eq_true hslash)
  · intro b hmem
    have hne := List.mem_rtakeWhile_imp hmem
    simpa using hne
  · rw [dirnameBytes, if_neg h]

/-- What `dirname` gives: the current directory, the root, or a shorter path that starts with as
many slashes. Two slashes stay two slashes. -/
theorem dirnameBytes_cases (path : List UInt8) :
    dirnameBytes path = [46] ∧ ¬ TwoSlashes path ∨
    dirnameBytes path = [47] ∧ ¬ TwoSlashes path ∨
    dirnameBytes path = [47, 47] ∧ TwoSlashes path ∨
    (dirnameBytes path).length < path.length ∧
      (TwoSlashes (dirnameBytes path) ↔ TwoSlashes path) := by
  by_cases hbody : path.rdropWhile (· = 47) = []
  · have hall : ∀ b ∈ path, b = 47 := by
      intro b hmem
      exact of_decide_eq_true (List.rdropWhile_eq_nil_iff.mp hbody b hmem)
    have hroot := @rootSlashes_cases path [] hall (by simp)
    rw [List.append_nil] at hroot
    simp only [dirnameBytes, if_pos hbody]
    by_cases hnil : path = []
    · left
      rw [if_pos hnil, hnil]
      exact ⟨rfl, by decide⟩
    · rw [if_neg hnil]
      tauto
  · obtain ⟨dir, comp, trail, rfl, hne, hcomp, hdirname⟩ := dirnameBytes_component hbody
    have hhead : (comp ++ trail).head? ≠ some 47 := by
      cases comp with
      | nil => exact absurd rfl hne
      | cons b comp => simpa using hcomp b List.mem_cons_self
    rw [hdirname]
    by_cases hdir : dir = []
    · left
      rw [if_pos hdir, hdir, twoSlashes_iff_run (by simp) hhead]
      exact ⟨rfl, by simp⟩
    rw [if_neg hdir]
    by_cases hd : dir.rdropWhile (· = 47) = []
    · have hall : ∀ b ∈ dir, b = 47 := by
        intro b hmem
        exact of_decide_eq_true (List.rdropWhile_eq_nil_iff.mp hd b hmem)
      have hroot := rootSlashes_cases hall hhead
      rw [if_pos hd]
      tauto
    · -- what is left of the path does not end in a slash
      rw [if_neg hd]
      have hsplit : dir.rdropWhile (· = 47) ++ dir.rtakeWhile (· = 47) = dir :=
        List.rdropWhile_append_rtakeWhile
      have hlast := List.rdropWhile_last_not (· = 47) dir hd
      have hlen := congrArg List.length hsplit
      have hcomplen : 0 < comp.length := List.length_pos_iff.mpr hne
      generalize dir.rdropWhile (· = 47) = d at *
      rw [← hsplit]
      simp only [List.length_append, List.append_assoc] at hlen ⊢
      refine Or.inr (Or.inr (Or.inr ⟨by omega, ?_⟩))
      have hnot : d.getLast hd ≠ 47 := by simpa using hlast
      constructor
      · intro htwo
        have h3 : 3 ≤ d.length := @three_le_length d [] hd hnot (by rwa [List.append_nil])
        exact (TwoSlashes.of_append h3).mpr htwo
      · intro htwo
        exact (TwoSlashes.of_append (three_le_length hd hnot htwo)).mp htwo

/-- The recursion never comes to its end from two slashes. -/
theorem mkpath_twoSlashes (os : FileSystem F O) {s : CString} (h : TwoSlashes s.bytes) (fuel : Nat)
    (errno : Errno) (fs : F) : mkpath os fuel s errno fs = none := by
  induction fuel generalizing s with
  | zero => rfl
  | succ fuel ih =>
    have hend : ¬ (s = dot ∨ s = slash) := by
      rintro (rfl | rfl)
      · exact absurd h (by decide)
      · exact absurd h (by decide)
    have hup : TwoSlashes (dirname s).bytes := by
      rcases dirnameBytes_cases s.bytes with ⟨-, hno⟩ | ⟨-, hno⟩ | ⟨heq, -⟩ | ⟨-, hiff⟩
      · exact absurd h hno
      · exact absurd h hno
      · rw [bytes_dirname, heq]
        decide
      · exact hiff.mpr h
    rw [mkpath, if_neg hend, ih hup]
    rfl

/-- From any other path it comes to the current or the root directory. -/
theorem mkpath_ends (os : FileSystem F O) {s : CString} (h : ¬ TwoSlashes s.bytes) {fuel : Nat}
    (hfuel : s.bytes.length + 2 ≤ fuel) (errno : Errno) (fs : F) :
    ∃ out, mkpath os fuel s errno fs = some out := by
  induction fuel generalizing s with
  | zero => omega
  | succ fuel ih =>
    rw [mkpath]
    split_ifs with hend
    · exact ⟨_, rfl⟩
    have hup : ∃ out, mkpath os fuel (dirname s) errno fs = some out := by
      have hbase : dirname s = dot ∨ dirname s = slash →
          ∃ out, mkpath os fuel (dirname s) errno fs = some out := by
        intro hup
        obtain ⟨n, rfl⟩ : ∃ n, fuel = n + 1 := ⟨fuel - 1, by omega⟩
        exact ⟨_, by rw [mkpath, if_pos hup]⟩
      rcases dirnameBytes_cases s.bytes with ⟨heq, -⟩ | ⟨heq, -⟩ | ⟨-, htwo⟩ | ⟨hlt, hiff⟩
      · exact hbase (Or.inl (CString.ext heq))
      · exact hbase (Or.inr (CString.ext heq))
      · exact absurd htwo h
      · have hlen : (dirname s).bytes.length < s.bytes.length := hlt
        exact ih (fun htwo => h (hiff.mp htwo)) (by omega)
    obtain ⟨⟨up, errno', fs'⟩, hrec⟩ := hup
    rw [hrec, Option.bind_eq_bind, Option.bind_some]
    dsimp only
    split_ifs
    · exact ⟨_, rfl⟩
    · split
      · exact ⟨_, rfl⟩
      · split_ifs <;> exact ⟨_, rfl⟩

inductive RecursesOn : CString → CString → Prop where
  | up {s : CString} : s ≠ dot → s ≠ slash → RecursesOn s (dirname s)
  | above {s a : CString} : s ≠ dot → s ≠ slash → RecursesOn (dirname s) a → RecursesOn s a

def InChain (s a : CString) : Prop := a = s ∨ RecursesOn s a

theorem inChain_up {s a : CString} (hd : s ≠ dot) (hs : s ≠ slash) (h : InChain (dirname s) a) :
    RecursesOn s a := by
  rcases h with rfl | hrec
  · exact .up hd hs
  · exact .above hd hs hrec

theorem inChain_cases {s a : CString} (h : InChain s a) : a = s ∨ InChain (dirname s) a := by
  rcases h with rfl | ⟨_, _⟩ | ⟨_, _, hrec⟩
  · exact Or.inl rfl
  · exact Or.inr (Or.inl rfl)
  · exact Or.inr (Or.inr hrec)

structure Made (os : FileSystem F O) (s : CString) (fs : F) (rv : Int) (errno : Errno) (fs' : F) :
    Prop where
  failed : rv ≠ 0 → rv = -1 ∧ errno ≠ .eexist
  keeps : ∀ q o, os.lookup fs q = some o → os.lookup fs' q = some o
  new : ∀ o ∈ os.files fs', o ∈ os.files fs ∨ ∃ a, InChain s a ∧ os.lookup fs' a = some o
  exist : rv = 0 → ∀ a, InChain s a → (os.lookup fs' a).isSome

theorem made_base (os : FileSystem F O) {s : CString} (h : s = dot ∨ s = slash) (errno : Errno)
    (fs : F) : Made os s fs 0 errno fs where
  failed hne := absurd rfl hne
  keeps _ _ hlook := hlook
  new _ ho := Or.inl ho
  exist := by
    intro _ a ha
    rcases ha with rfl | hrec
    · rcases h with rfl | rfl
      · exact os.lookup_dot fs
      · exact os.lookup_slash fs
    · cases hrec with
      | up hd hs => exact absurd h (by tauto)
      | above hd hs _ => exact absurd h (by tauto)

/-- The call of `mkdir` that follows the recursion. -/
theorem Made.mkdir {os : FileSystem F O} {s : CString} {fs fs₁ : F} {errno : Errno}
    (hd : s ≠ dot) (hs : s ≠ slash) (h : Made os (dirname s) fs 0 errno fs₁) :
    ((os.mkdir fs₁ s).1 = none → Made os s fs 0 errno (os.mkdir fs₁ s).2) ∧
    ((os.mkdir fs₁ s).1 = some .eexist → Made os s fs 0 .eexist (os.mkdir fs₁ s).2) := by
  have habove : ∀ o ∈ os.files fs₁, o ∈ os.files fs ∨
      ∃ a, InChain s a ∧ os.lookup (os.mkdir fs₁ s).2 a = some o := by
    intro o ho
    rcases h.new o ho with hold | ⟨a, ha, hlook⟩
    · exact Or.inl hold
    · exact Or.inr ⟨a, Or.inr (inChain_up hd hs ha), os.mkdir_keeps fs₁ s a o hlook⟩
  have hkeeps : ∀ q o, os.lookup fs q = some o → os.lookup (os.mkdir fs₁ s).2 q = some o :=
    fun q o hlook => os.mkdir_keeps fs₁ s q o (h.keeps q o hlook)
  have hexist : (os.lookup (os.mkdir fs₁ s).2 s).isSome →
      ∀ a, InChain s a → (os.lookup (os.mkdir fs₁ s).2 a).isSome := by
    intro hself a ha
    rcases inChain_cases ha with rfl | hup
    · exact hself
    · obtain ⟨o, ho⟩ := Option.isSome_iff_exists.mp (h.exist rfl a hup)
      exact Option.isSome_iff_exists.mpr ⟨o, os.mkdir_keeps fs₁ s a o ho⟩
  constructor
  · intro hmade
    obtain ⟨o, hlook, hfiles⟩ := os.mkdir_made fs₁ s hmade
    refine ⟨fun hne => absurd rfl hne, hkeeps, ?_, fun _ => hexist (by rw [hlook]; rfl)⟩
    intro o' ho'
    rw [hfiles] at ho'
    rcases ho' with rfl | hold
    · exact Or.inr ⟨s, Or.inl rfl, hlook⟩
    · exact habove o' hold
  · intro hfail
    have hsame := os.mkdir_failed fs₁ s _ hfail
    refine ⟨fun hne => absurd rfl hne, hkeeps, ?_, fun _ => hexist ?_⟩
    · intro o' ho'
      rw [hsame] at ho'
      exact habove o' ho'
    · rw [hsame]
      exact os.mkdir_eexist fs₁ s hfail

/-- A call that fails leaves what the recursion made. -/
theorem Made.fail {os : FileSystem F O} {s : CString} {fs fs₁ : F} {rv : Int} {errno e : Errno}
    (hd : s ≠ dot) (hs : s ≠ slash) (h : Made os (dirname s) fs rv errno fs₁) (he : e ≠ .eexist) :
    Made os s fs (-1) e fs₁ where
  failed _ := ⟨rfl, he⟩
  keeps := h.keeps
  new := by
    intro o ho
    rcases h.new o ho with hold | ⟨a, ha, hlook⟩
    · exact Or.inl hold
    · exact Or.inr ⟨a, Or.inr (inChain_up hd hs ha), hlook⟩
  exist h0 := absurd h0 (by decide)

theorem mkpath_made (os : FileSystem F O) {fuel : Nat} {s : CString} {errno errno' : Errno}
    {fs fs' : F} {rv : Int} (h : mkpath os fuel s errno fs = some (rv, errno', fs')) :
    Made os s fs rv errno' fs' := by
  induction fuel generalizing s errno' fs' rv with
  | zero => simp [mkpath] at h
  | succ fuel ih =>
    rw [mkpath] at h
    split_ifs at h with hend
    · cases h
      exact made_base os hend errno fs
    obtain ⟨⟨up, errno₁, fs₁⟩, hrec, h⟩ := Option.bind_eq_some_iff.mp h
    have hup := ih hrec
    have hd : s ≠ dot := fun hd => hend (Or.inl hd)
    have hs : s ≠ slash := fun hs => hend (Or.inr hs)
    dsimp only at h
    split_ifs at h with hgo
    · cases h
      exact hup.fail hd hs hgo.2
    -- the recursion did not fail: a failure would have left another error
    obtain rfl : up = 0 := by
      by_contra hne
      exact hgo (hup.failed hne)
    cases hmk : os.mkdir fs₁ s with
    | mk err fs₂ =>
      have hmade := hup.mkdir hd hs
      rw [hmk] at h hmade
      cases err with
      | none =>
        cases h
        exact hmade.1 rfl
      | some e =>
        have hsame : fs₂ = fs₁ := by
          have hfail := os.mkdir_failed fs₁ s e (by rw [hmk])
          rwa [hmk] at hfail
        simp only at h
        split_ifs at h with he
        · cases h
          rw [hsame]
          exact hup.fail hd hs he
        · obtain rfl : e = .eexist := not_not.mp he
          cases h
          exact hmade.2 rfl

/-- `mkpath` ends, and builds the chain of directories when it returns 0, exactly for the paths
that do not start with two slashes. -/
theorem mkpath_iff (os : FileSystem F O) (s : CString) (errno : Errno) (fs : F) :
    (∃ fuel rv errno' fs', mkpath os fuel s errno fs = some (rv, errno', fs') ∧
      (rv = 0 → s ≠ dot → s ≠ slash →
        (os.lookup fs' s).isSome ∧
        (∀ a, RecursesOn s a → (os.lookup fs' a).isSome) ∧
        ∀ o ∈ os.files fs', o ∉ os.files fs →
          ∃ a, (a = s ∨ RecursesOn s a) ∧ os.lookup fs' a = some o)) ↔
    ¬ TwoSlashes s.bytes := by
  constructor
  · rintro ⟨fuel, rv, errno', fs', hrun, -⟩ htwo
    rw [mkpath_twoSlashes os htwo] at hrun
    cases hrun
  · intro htwo
    obtain ⟨⟨rv, errno', fs'⟩, hrun⟩ := mkpath_ends os htwo le_rfl errno fs
    refine ⟨_, rv, errno', fs', hrun, ?_⟩
    intro hrv _ _
    have hmade := mkpath_made os hrun
    refine ⟨hmade.exist hrv s (Or.inl rfl), fun a ha => hmade.exist hrv a (Or.inr ha), ?_⟩
    intro o ho hnew
    exact (hmade.new o ho).resolve_left hnew

def components (path : CString) : List (List UInt8) :=
  (path.bytes.splitOn 47).filter fun c => c ≠ [] ∧ c ≠ [46]

def directoryTree : FileSystem (List (List (List UInt8))) (List (List UInt8)) where
  files fs := {o | o ∈ fs}
  lookup fs path :=
    if path.bytes = [] then none
    else if components path = [] ∨ components path ∈ fs then some (components path)
    else none
  mkdir fs path :=
    if path.bytes = [] then (some (.other 2), fs)
    else if components path = [] ∨ components path ∈ fs then (some .eexist, fs)
    else if (components path).dropLast = [] ∨ (components path).dropLast ∈ fs then
      (none, components path :: fs)
    else (some (.other 2), fs)
  lookup_dot fs := by
    have hdot : components dot = [] := by decide
    rw [if_neg (by decide), if_pos (Or.inl hdot)]
    rfl
  lookup_slash fs := by
    have hslash : components slash = [] := by decide
    rw [if_neg (by decide), if_pos (Or.inl hslash)]
    rfl
  mkdir_made fs path h := by
    split_ifs at h with hne hthere hup
    simp only [if_neg hne, if_neg hthere, if_pos hup]
    refine ⟨components path, by simp, ?_⟩
    ext o
    simp
  mkdir_keeps fs path q o h := by
    split_ifs at h ⊢ <;> simp_all
  mkdir_failed fs path e h := by
    split_ifs at h ⊢ <;> rfl
  mkdir_eexist fs path h := by
    split_ifs at h ⊢ <;> simp_all

/-- A path with one slash in front. -/
theorem mkpath_iff_absolute :
    ∃ fuel rv errno' fs', mkpath directoryTree fuel (CString.ofBytes [47, 97, 47, 98]) .eexist [] =
        some (rv, errno', fs') ∧
      (rv = 0 → (directoryTree.lookup fs' (CString.ofBytes [47, 97, 47, 98])).isSome) := by
  obtain ⟨fuel, rv, errno', fs', hrun, hmade⟩ :=
    (mkpath_iff directoryTree (CString.ofBytes [47, 97, 47, 98]) .eexist []).mpr (by decide)
  exact ⟨fuel, rv, errno', fs', hrun, fun h => (hmade h (by decide) (by decide)).1⟩

/-- For a path with two slashes in front no depth of recursion is enough. -/
theorem mkpath_two_slashes_forever :
    ¬ ∃ fuel result, mkpath directoryTree fuel (CString.ofBytes [47, 47, 97]) .eexist [] = some result := by
  rintro ⟨fuel, result, hrun⟩
  rw [mkpath_twoSlashes directoryTree (by decide) fuel .eexist []] at hrun
  cases hrun

end Miqs.Mkpath
