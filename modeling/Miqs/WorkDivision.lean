import Miqs.FsOps
import Miqs.StringUtils

/-! The division of a data set among the ranks: each counts the files of its own traversal
and parses those whose number is its turn. -/
namespace Miqs.WorkDivision
open Miqs.CData Miqs.FsOps Miqs.StringUtils

def dot : CString := ⟨[46], by decide⟩
def dotDot : CString := ⟨[46, 46], by decide⟩
def hdf5Suffix : CString := ⟨[46, 104, 100, 102, 53], by decide⟩
def h5Suffix : CString := ⟨[46, 104, 53], by decide⟩

def isHdf5 (entry : Dirent) : Bool :=
  if entry.dName = dot ∨ entry.dName = dotDot then false
  else if entry.isDir then true
  else endsWith entry.dName hdf5Suffix || endsWith entry.dName h5Suffix

structure RankState where
  currentFileCount : Int
  parsed : List CString
  deriving DecidableEq

def parseSingleHdf5File (rank size : Int) (filepath : CString) (s : RankState) : Option RankState :=
  let count := s.currentFileCount + 1
  if ¬ count < 2^31 then none
  else if count.tmod size ≠ rank then some { s with currentFileCount := count }
  else some ⟨count, s.parsed ++ [filepath]⟩

/-- The path is written into a block that was asked for with 512 bytes. -/
def onFile (alloc : Allocator) (rank size : Int) (fEntry : Dirent) (parentPath : CString) (s : RankState) :
    Option RankState := do
  let filepath ← sprintf (alloc.usable 512) (joinPath parentPath fEntry.dName)
  parseSingleHdf5File rank size filepath s

section Ranks
variable (alloc : Allocator) (fs : FileSystem) (alphasort : Dirent → Dirent → Bool)

def parseFilesInDir (path : CString) (topk : Int) (rank size : Int) (fuel : Nat) :
    Option (List CString) :=
  (collectDir (scandir fs isHdf5 alphasort) .asc topk (fileCallbacks (onFile alloc rank size)) fuel path
    ⟨0, []⟩).map RankState.parsed

def handed (path : CString) (topk : Int) (fuel : Nat) : Option (List CString) :=
  collectDir (scandir fs isHdf5 alphasort) .asc topk
    (fileCallbacks fun fEntry parentPath files => some (files ++ [joinPath parentPath fEntry.dName]))
    fuel path []

def Divided (path : CString) (topk : Int) (size : Nat) : Prop :=
  ∃ fuel files, handed fs alphasort path topk fuel = some files ∧
    ∃ parsed : Nat → List CString,
      (∀ rank < size, parseFilesInDir alloc fs alphasort path topk rank size fuel = some (parsed rank)) ∧
      (∀ file ∈ files, ∃! rank, rank < size ∧ file ∈ parsed rank) ∧
      ∀ rank < size, ∀ file ∈ parsed rank, file ∈ files

end Ranks

def share (rank size : Nat) : Nat → List CString → List CString
  | _, [] => []
  | count, file :: files =>
    if (count + 1) % size = rank then file :: share rank size (count + 1) files
    else share rank size (count + 1) files

theorem mem_share {rank size count : Nat} {files : List CString} {file : CString} :
    file ∈ share rank size count files ↔
      ∃ i, files[i]? = some file ∧ (count + i + 1) % size = rank := by
  induction files generalizing count with
  | nil => simp [share]
  | cons f files ih =>
    have hrest : file ∈ share rank size (count + 1) files ↔
        ∃ i, (f :: files)[i + 1]? = some file ∧ (count + (i + 1) + 1) % size = rank := by
      rw [ih]
      simp only [List.getElem?_cons_succ, Nat.add_right_comm count 1, Nat.add_assoc]
    have hsplit : (∃ i, (f :: files)[i]? = some file ∧ (count + i + 1) % size = rank) ↔
        (f = file ∧ (count + 1) % size = rank) ∨
          ∃ i, (f :: files)[i + 1]? = some file ∧ (count + (i + 1) + 1) % size = rank := by
      constructor
      · rintro ⟨i, hi, hr⟩
        cases i with
        | zero => exact Or.inl ⟨by simpa using hi, hr⟩
        | succ i => exact Or.inr ⟨i, hi, hr⟩
      · rintro (⟨rfl, hr⟩ | ⟨i, hi, hr⟩)
        · exact ⟨0, rfl, hr⟩
        · exact ⟨i + 1, hi, hr⟩
    rw [hsplit, ← hrest, share]
    split_ifs with h
    · simp [h, eq_comm]
    · simp [h]

theorem share_append (rank size : Nat) (count : Nat) (l r : List CString) :
    share rank size count (l ++ r) = share rank size count l ++ share rank size (count + l.length) r := by
  induction l generalizing count with
  | nil => rfl
  | cons f l ih =>
    have hcount : count + (f :: l).length = count + 1 + l.length := by
      rw [List.length_cons]
      omega
    rw [List.cons_append, share, share, ih, hcount]
    split_ifs <;> rfl

theorem onFile_eq {alloc : Allocator} {rank size : Nat} {call : Dirent × CString} {count : Nat} {parsed : List CString}
    (hcount : count + 1 < 2^31) (hlen : (callPath call).bytes.length < alloc.usable 512) :
    onFile alloc rank size call.1 call.2 ⟨count, parsed⟩ =
      some ⟨(count + 1 : Nat), parsed ++ share rank size count [callPath call]⟩ := by
  have hmod : ((count : Int) + 1).tmod size = rank ↔ (count + 1) % size = rank := by
    rw [Int.tmod_eq_emod_of_nonneg (by omega)]
    norm_cast
  have hlt : (count : Int) + 1 < 2^31 := by exact_mod_cast hcount
  have hfit : (joinPath call.2 call.1.dName).bytes.length + 1 ≤ alloc.usable 512 := hlen
  have hrun : onFile alloc rank size call.1 call.2 ⟨count, parsed⟩ =
      if ((count : Int) + 1).tmod size ≠ rank then some ⟨(count : Int) + 1, parsed⟩
      else some ⟨(count : Int) + 1, parsed ++ [callPath call]⟩ := by
    rw [onFile, sprintf, if_pos hfit, Option.bind_eq_bind, Option.bind_some, parseSingleHdf5File,
      if_neg (not_not.mpr hlt)]
    rfl
  rw [hrun]
  by_cases h : (count + 1) % size = rank
  · rw [if_neg (not_not.mpr (hmod.mpr h)), share, if_pos h]
    rfl
  · rw [if_pos fun h' => h (hmod.mp h'), share, if_neg h, share, List.append_nil]
    rfl

/-- The calls of one rank, one after another. -/
theorem foldlM_onFile {alloc : Allocator} {rank size : Nat} {calls : List (Dirent × CString)} {count : Nat}
    {parsed : List CString} (hcount : count + calls.length < 2^31)
    (hlen : ∀ call ∈ calls, (callPath call).bytes.length < alloc.usable 512) :
    calls.foldlM (fun s call => onFile alloc rank size call.1 call.2 s) ⟨count, parsed⟩ =
      some ⟨(count + calls.length : Nat), parsed ++ share rank size count (calls.map callPath)⟩ := by
  induction calls generalizing count parsed with
  | nil => simp [share]
  | cons call calls ih =>
    rw [List.length_cons] at hcount
    rw [List.foldlM_cons, onFile_eq (by omega) (hlen call (by simp)), Option.bind_eq_bind,
      Option.bind_some, ih (by omega) fun c hc => hlen c (List.mem_cons_of_mem call hc)]
    have hcat := share_append rank size count [callPath call] (calls.map callPath)
    rw [List.length_singleton, List.singleton_append] at hcat
    rw [List.append_assoc, ← hcat, List.length_cons, List.map_cons]
    congr 3
    omega

/-- A path that does not fit ends the run. -/
theorem foldlM_onFile_none {alloc : Allocator} {rank size : Nat} {calls : List (Dirent × CString)} {s : RankState}
    {call : Dirent × CString} (hc : call ∈ calls) (hlen : alloc.usable 512 ≤ (callPath call).bytes.length) :
    calls.foldlM (fun s call => onFile alloc rank size call.1 call.2 s) s = none := by
  induction calls generalizing s with
  | nil => simp at hc
  | cons c calls ih =>
    rw [List.foldlM_cons]
    rcases List.mem_cons.mp hc with rfl | hc
    · have hfit : ¬ (joinPath call.2 call.1.dName).bytes.length + 1 ≤ alloc.usable 512 := by
        have hlong : alloc.usable 512 ≤ (joinPath call.2 call.1.dName).bytes.length := hlen
        omega
      simp [onFile, sprintf, hfit]
    · cases hs : onFile alloc rank size c.1 c.2 s with
      | none => rfl
      | some s' => exact ih hc

section Ranks
variable {alloc : Allocator} {fs : FileSystem} {alphasort : Dirent → Dirent → Bool} {path : CString} {topk : Int}

theorem handed_eq (fuel : Nat) : handed fs alphasort path topk fuel =
    (visits (scandir fs isHdf5 alphasort) .asc topk fuel path).map (List.map callPath) := by
  have hfold : ∀ (calls : List (Dirent × CString)) (files : List CString),
      calls.foldlM (fun files call => some (files ++ [joinPath call.2 call.1.dName])) files =
        some (files ++ calls.map callPath) := by
    intro calls
    induction calls with
    | nil => simp
    | cons call calls ih =>
      intro files
      rw [List.foldlM_cons, Option.bind_eq_bind, Option.bind_some, ih]
      simp [callPath]
  rw [handed, collectDir_eq_visits]
  cases visits (scandir fs isHdf5 alphasort) .asc topk fuel path with
  | none => rfl
  | some calls => exact hfold calls []

theorem share_unique {size : Nat} (hsize : 1 ≤ size) {files : List CString} (hnodup : files.Nodup)
    {file : CString} (hf : file ∈ files) : ∃! rank, rank < size ∧ file ∈ share rank size 0 files := by
  obtain ⟨i, hi⟩ := List.mem_iff_getElem?.mp hf
  refine ⟨(i + 1) % size, ⟨Nat.mod_lt _ hsize, mem_share.mpr ⟨i, hi, by rw [Nat.zero_add]⟩⟩, ?_⟩
  rintro rank ⟨-, hmem⟩
  obtain ⟨j, hj, hr⟩ := mem_share.mp hmem
  have hij : j = i := by
    obtain ⟨hjl, hje⟩ := List.getElem?_eq_some_iff.mp hj
    obtain ⟨hil, hie⟩ := List.getElem?_eq_some_iff.mp hi
    exact (hnodup.getElem_inj_iff).mp (hje.trans hie.symm)
  rw [← hr, hij, Nat.zero_add]

theorem short_of_divided {size : Nat} (hsize : 1 ≤ size) (h : Divided alloc fs alphasort path topk size) :
    ∃ fuel files, handed fs alphasort path topk fuel = some files ∧
      ∀ file ∈ files, file.bytes.length < alloc.usable 512 := by
  obtain ⟨fuel, files, hhanded, parsed, hparsed, -, -⟩ := h
  refine ⟨fuel, files, hhanded, ?_⟩
  intro file hf
  by_contra hlen
  rw [handed_eq] at hhanded
  obtain ⟨calls, hcalls, rfl⟩ := Option.map_eq_some_iff.mp hhanded
  obtain ⟨call, hc, rfl⟩ := List.mem_map.mp hf
  have hrun := hparsed 0 hsize
  rw [parseFilesInDir, collectDir_eq_visits, hcalls, Option.bind_some,
    foldlM_onFile_none hc (by omega)] at hrun
  simp at hrun

/-- The files are divided among the ranks exactly when the traversal ends and no path
handed over is too long for the block it is written to, which is smaller than the buffers of the
traversal. -/
theorem files_divided_iff (hnames : NamesOk fs) (hroom : alloc.usable 512 ≤ 1022) {size : Nat}
    (hsize : 1 ≤ size)
    (hfew : ∀ fuel files, handed fs alphasort path topk fuel = some files → files.length < 2^31) :
    Divided alloc fs alphasort path topk size ↔
      ∃ fuel files, handed fs alphasort path topk fuel = some files ∧
        ∀ file ∈ files, file.bytes.length < alloc.usable 512 := by
  constructor
  · exact short_of_divided hsize
  · rintro ⟨fuel, files, hhanded, hlen⟩
    have hcount := hfew fuel files hhanded
    have hvisits := hhanded
    rw [handed_eq] at hvisits
    obtain ⟨calls, hcalls, rfl⟩ := Option.map_eq_some_iff.mp hvisits
    rw [List.length_map] at hcount
    have hshort : ∀ call ∈ calls, (callPath call).bytes.length < alloc.usable 512 :=
      fun call hc => hlen _ (List.mem_map_of_mem hc)
    have hnodup := nodup_visits (hnames.scandir isHdf5 alphasort) hcalls fun call hc =>
      (hshort call hc).trans_le hroom
    refine ⟨fuel, _, hhanded, fun rank => share rank size 0 (calls.map callPath), ?_, ?_, ?_⟩
    · intro rank _
      have hrun : calls.foldlM (fun s call => onFile alloc rank size call.1 call.2 s) ⟨(0 : Nat), []⟩ = _ :=
        foldlM_onFile (by omega) hshort
      rw [parseFilesInDir, collectDir_eq_visits, hcalls, Option.bind_some]
      exact congrArg (Option.map RankState.parsed) hrun
    · intro file hf
      exact share_unique hsize hnodup hf
    · intro rank _ file hf
      obtain ⟨i, hi, -⟩ := mem_share.mp hf
      exact List.mem_of_getElem? hi

end Ranks

def byBytes (a b : Dirent) : Bool := ¬ b.dName.bytes < a.dName.bytes

def sampleFs (path : CString) : Option (List Dirent) :=
  if path.bytes = [100] then some [⟨⟨[115], by decide⟩, true⟩, ⟨dot, true⟩, ⟨⟨[97, 46, 104, 53], by decide⟩, false⟩]
  else if path.bytes = [100, 47, 115] then some [⟨⟨[98, 46, 104, 53], by decide⟩, false⟩]
  else none

theorem namesOk_sampleFs : NamesOk sampleFs := by
  intro path entries h
  unfold sampleFs at h
  split_ifs at h
  · obtain rfl := Option.some.inj h
    decide
  · obtain rfl := Option.some.inj h
    decide

theorem handed_sampleFs (fuel : Nat) : handed sampleFs byBytes ⟨[100], by decide⟩ 0 (fuel + 2) =
    some [⟨[100, 47, 97, 46, 104, 53], by decide⟩, ⟨[100, 47, 115, 47, 98, 46, 104, 53], by decide⟩] := by
  rfl

theorem files_divided_iff_two_ranks : Divided chunkAllocator sampleFs byBytes ⟨[100], by decide⟩ 0 2 := by
  refine (files_divided_iff namesOk_sampleFs (by decide) (by decide) ?_).mpr
    ⟨2, _, handed_sampleFs 0, by decide⟩
  intro fuel files h
  match fuel with
  | 0 => exact absurd h (Option.some_ne_none files).symm
  | 1 =>
    have hnone : handed sampleFs byBytes ⟨[100], by decide⟩ 0 1 = none := rfl
    exact absurd (hnone.symm.trans h) (Option.some_ne_none files).symm
  | n + 2 =>
    rw [handed_sampleFs, Option.some.injEq] at h
    subst h
    decide

def deepFs (path : CString) : Option (List Dirent) :=
  if path.bytes.length = 764 then some [⟨⟨[98, 46, 104, 53], by decide⟩, false⟩] else none

def deepPath : CString where
  bytes := List.replicate 254 97 ++ 47 :: (List.replicate 254 97 ++ 47 :: List.replicate 254 97)
  nulFree := by
    have hname : (0 : UInt8) ∉ List.replicate 254 97 :=
      fun h => absurd (List.eq_of_mem_replicate h) (by decide)
    simp only [List.mem_append, List.mem_cons, not_or]
    exact ⟨hname, by decide, hname, by decide, hname⟩

theorem length_deepPath : deepPath.bytes.length = 764 := by
  simp only [deepPath, List.length_append, List.length_cons, List.length_replicate]

/-- The path of that file does not fit in the block, so that no rank gets past it. -/
theorem deep_file_not_divided : ¬ Divided chunkAllocator deepFs byBytes deepPath 0 1 := by
  intro h
  obtain ⟨fuel, files, hhanded, hlen⟩ := short_of_divided (Nat.le_refl 1) h
  have hdeep : deepFs deepPath = some [⟨⟨[98, 46, 104, 53], by decide⟩, false⟩] := if_pos length_deepPath
  cases fuel with
  | zero => exact absurd hhanded (Option.some_ne_none files).symm
  | succ fuel =>
    rw [handed_eq, visits, scandir, hdeep] at hhanded
    obtain rfl : [joinPath deepPath ⟨[98, 46, 104, 53], by decide⟩] = files := Option.some.inj hhanded
    have hlong := hlen _ (List.mem_singleton_self _)
    rw [joinPath, List.length_append, length_deepPath] at hlong
    exact absurd hlong (by decide)

end Miqs.WorkDivision
