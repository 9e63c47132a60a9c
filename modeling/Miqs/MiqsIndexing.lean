import Mathlib.Data.List.Basic
import Mathlib.Data.Nat.Digits.Defs
import Miqs.StringUtils

/-! The two entry points of the library, as the calls they make: `indexing_data_collection`
builds, persists and reloads the index, `recovering_index` loads it again. What the calls do
to the index is modelled elsewhere; here it is where they read and write. -/
namespace Miqs.MiqsIndexing
open Miqs.CData Miqs.StringUtils

structure IndexingConfig where
  rank : Int
  topk : Int
  isMdbEnabled : Int
  isAofEnabled : Int
  datasetPath : CString
  indexDirPath : CString

inductive Call where
  | dirExists (dirname : CString)
  | mkpath (dirname : CString)
  | fopen (aofFileName : CString)
  | isRegularFile (path : CString)
  | parseSingleHdf5File (filepath : CString)
  | parseFilesInDir (path : CString) (topk : Int)
  | dumpMdbIndexToDisk (mdbFileName : CString)
  | collectMdb (dirPath : CString)
  | collectAof (dirPath : CString)
  deriving DecidableEq

structure Environment where
  dirExists : List Call → CString → Bool
  isRegularFile : List Call → CString → Bool
  /-- `fopen` gives a stream. -/
  opens : List Call → CString → Bool

/-- The calls of a run and its result. There is none when the run stops at a block or a
stream that it did not get. -/
structure Run where
  calls : List Call
  rst : Option Nat
  deriving DecidableEq

def bufferLength (s : CString) : Int := (BitVec.ofNat 32 (s.bytes.length + 1)).toInt

/-- A zeroed block. A length that wraps to a negative one is out of reach, and of an empty
block there is nothing to read. -/
def callocChars (len : Int) : Option (List UInt8) :=
  if 0 < len then some (List.replicate len.toNat 0) else none

def strlen (buffer : List UInt8) : Nat := (CString.ofBytes buffer).bytes.length

def strncpy (dst : List UInt8) (src : CString) (n : Nat) : List UInt8 :=
  (src.bytes ++ List.replicate n 0).take n ++ dst.drop n

def copyPath (path : CString) : Option CString := do
  let buffer ← callocChars (bufferLength path)
  some (.ofBytes (strncpy buffer path (strlen buffer)))

def pathDelimiter : CString := ⟨[47], by decide⟩
def mdbSuffix : CString := ⟨[109, 100, 98], by decide⟩
def aofSuffix : CString := ⟨[97, 111, 102], by decide⟩

def decimal (n : Int) : List UInt8 :=
  let digits := if n = 0 then [48] else ((Nat.digits 10 n.natAbs).map fun d => UInt8.ofNat (48 + d)).reverse
  if n < 0 then 45 :: digits else digits

def indexFileName (rank : Int) (suffix : CString) : CString :=
  .ofBytes ([105, 110, 100, 101, 120, 95, 109, 105, 113, 115, 95] ++ decimal rank ++ 46 :: suffix.bytes)

def strcat (dst src : CString) : CString where
  bytes := dst.bytes ++ src.bytes
  nulFree := by
    intro h
    rcases List.mem_append.mp h with h | h
    · exact dst.nulFree h
    · exact src.nulFree h

def resolveFileName (indexDirPath suffix : CString) (rank : Int) : CString :=
  let fullFileName :=
    if ¬ endsWith indexDirPath pathDelimiter then strcat indexDirPath pathDelimiter else indexDirPath
  strcat fullFileName (indexFileName rank suffix)

section EntryPoints
variable (env : Environment) (param : IndexingConfig)

def loadFiles (collect : CString → Call) (indexDir : CString) (calls : List Call) : List Call × Nat :=
  if env.dirExists calls indexDir then (calls ++ [.dirExists indexDir, collect indexDir], 1)
  else (calls ++ [.dirExists indexDir], 0)

def loadMdbFiles : CString → List Call → List Call × Nat := loadFiles env .collectMdb
def loadAofFiles : CString → List Call → List Call × Nat := loadFiles env .collectAof

def notLoaded (enabled : Int) (load : CString → List Call → List Call × Nat) (indexDir : CString)
    (calls : List Call) : List Call × Option Nat :=
  if enabled = 1 then ((load indexDir calls).1, some (1 - (load indexDir calls).2)) else (calls, none)

def prepare (indexDirPath aofFileName : CString) (calls : List Call) : List Call :=
  let calls := if ¬ env.dirExists calls indexDirPath then
      calls ++ [.dirExists indexDirPath, .mkpath indexDirPath]
    else calls ++ [.dirExists indexDirPath]
  if param.isAofEnabled = 1 then calls ++ [.fopen aofFileName] else calls

def buildIndex (dataPath : CString) (calls : List Call) : List Call :=
  if env.isRegularFile calls dataPath then
    calls ++ [.isRegularFile dataPath, .parseSingleHdf5File dataPath]
  else calls ++ [.isRegularFile dataPath, .parseFilesInDir dataPath param.topk]

def dumpIndex (mdbFileName : CString) (calls : List Call) : List Call :=
  if param.isMdbEnabled = 1 then calls ++ [.dumpMdbIndexToDisk mdbFileName] else calls

def reload (indexDirPath : CString) (calls : List Call) : Run :=
  let mdb := notLoaded param.isMdbEnabled (loadMdbFiles env) indexDirPath calls
  let aof := notLoaded param.isAofEnabled (loadAofFiles env) indexDirPath mdb.1
  ⟨aof.1, some (mdb.2.getD 0 ||| aof.2.getD 0)⟩

def indexingSteps (indexDirPath dataPath : CString) : Run :=
  let mdbFileName := resolveFileName indexDirPath mdbSuffix param.rank
  let aofFileName := resolveFileName indexDirPath aofSuffix param.rank
  let opened := prepare env param indexDirPath aofFileName []
  let built := buildIndex env param dataPath opened
  if param.isAofEnabled = 1 ∧ ¬ env.opens opened aofFileName then ⟨built, none⟩
  else reload env param indexDirPath (dumpIndex param mdbFileName built)

def indexingDataCollection : Run :=
  match copyPath param.indexDirPath, copyPath param.datasetPath with
  | some indexDirPath, some dataPath => indexingSteps env param indexDirPath dataPath
  | _, _ => ⟨[], none⟩

def recoverySteps (indexDirPath : CString) : Run :=
  let mdb := notLoaded param.isMdbEnabled (loadMdbFiles env) indexDirPath []
  let aof := notLoaded param.isAofEnabled (loadAofFiles env) indexDirPath mdb.1
  ⟨aof.1, some (aof.2.getD (mdb.2.getD 0))⟩

def recoveringIndex : Run :=
  match copyPath param.indexDirPath with
  | some indexDirPath => recoverySteps env param indexDirPath
  | none => ⟨[], none⟩

end EntryPoints

def Call.dataPath : Call → Option CString
  | .parseSingleHdf5File path => some path
  | .parseFilesInDir path _ => some path
  | _ => none

def Call.indexFile : Call → Option CString
  | .fopen file => some file
  | .dumpMdbIndexToDisk file => some file
  | _ => none

def Call.asked : Call → Option CString
  | .dirExists dir => some dir
  | _ => none

def Call.collected : Call → Option CString
  | .collectMdb dir => some dir
  | .collectAof dir => some dir
  | _ => none

def perFormat {α : Type} (param : IndexingConfig) (mdb aof : α) : List α :=
  (if param.isMdbEnabled = 1 then [mdb] else []) ++ if param.isAofEnabled = 1 then [aof] else []

structure Loads (param : IndexingConfig) (indexDirPath : CString) (calls : List Call)
    (before : List CString) : Prop where
  asked : calls.filterMap Call.asked = before ++ perFormat param indexDirPath indexDirPath
  collected : ∀ dir ∈ calls.filterMap Call.collected, dir = indexDirPath

structure DirsUsed (param : IndexingConfig) (datasetPath indexDirPath : CString)
    (indexing recovery : Run) : Prop where
  scanned : indexing.calls.filterMap Call.dataPath = [datasetPath]
  written : List.Perm (indexing.calls.filterMap Call.indexFile)
    (perFormat param (resolveFileName indexDirPath mdbSuffix param.rank)
      (resolveFileName indexDirPath aofSuffix param.rank))
  reloaded : Loads param indexDirPath indexing.calls [indexDirPath]
  recovered : Loads param indexDirPath recovery.calls []

def emptyPath : CString := ⟨[], by decide⟩

/-- The bound of the copy is the length of the zeroed block's string, which is 0. -/
theorem copyPath_eq_some {path s : CString} (h : copyPath path = some s) : s = emptyPath := by
  unfold copyPath callocChars at h
  split_ifs at h with hpos
  · have hbuffer : strlen (List.replicate (bufferLength path).toNat 0) = 0 := by
      cases (bufferLength path).toNat with
      | zero => rfl
      | succ n => simp [strlen, CString.ofBytes, List.replicate_succ]
    simp only [Option.bind_eq_bind, Option.bind_some, hbuffer, Option.some.injEq] at h
    rw [← h]
    cases hn : (bufferLength path).toNat with
    | zero => omega
    | succ n => simp [strncpy, CString.ofBytes, List.replicate_succ, emptyPath]
  · cases h

section Paths
variable (env : Environment) (param : IndexingConfig)

-- Each step appends calls; of what one kind of call names, it adds this.

theorem notLoaded_filterMap (f : Call → Option CString) (enabled : Int) (collect : CString → Call)
    (dir : CString) (calls : List Call) :
    (notLoaded enabled (loadFiles env collect) dir calls).1.filterMap f = calls.filterMap f ++
      if enabled = 1 then (f (.dirExists dir)).toList ++
        (if env.dirExists calls dir then (f (collect dir)).toList else []) else [] := by
  unfold notLoaded loadFiles
  split_ifs <;> simp [List.filterMap_eq_flatMap_toList]

theorem prepare_filterMap (f : Call → Option CString) (dir file : CString) (calls : List Call) :
    (prepare env param dir file calls).filterMap f = calls.filterMap f ++ (f (.dirExists dir)).toList ++
      (if env.dirExists calls dir then [] else (f (.mkpath dir)).toList) ++
      if param.isAofEnabled = 1 then (f (.fopen file)).toList else [] := by
  unfold prepare
  split_ifs <;> simp [List.filterMap_eq_flatMap_toList]

theorem buildIndex_filterMap (f : Call → Option CString) (path : CString) (calls : List Call) :
    (buildIndex env param path calls).filterMap f = calls.filterMap f ++
      (f (.isRegularFile path)).toList ++ if env.isRegularFile calls path then
        (f (.parseSingleHdf5File path)).toList else (f (.parseFilesInDir path param.topk)).toList := by
  unfold buildIndex
  split_ifs <;> simp [List.filterMap_eq_flatMap_toList]

theorem dumpIndex_filterMap (f : Call → Option CString) (file : CString) (calls : List Call) :
    (dumpIndex param file calls).filterMap f = calls.filterMap f ++
      if param.isMdbEnabled = 1 then (f (.dumpMdbIndexToDisk file)).toList else [] := by
  unfold dumpIndex
  split_ifs <;> simp [List.filterMap_eq_flatMap_toList]

theorem reload_filterMap (f : Call → Option CString) (hasked : ∀ dir, f (.dirExists dir) = none)
    (hmdb : ∀ dir, f (.collectMdb dir) = none) (haof : ∀ dir, f (.collectAof dir) = none)
    (dir : CString) (calls : List Call) :
    (reload env param dir calls).calls.filterMap f = calls.filterMap f := by
  unfold reload loadMdbFiles loadAofFiles
  simp only [notLoaded_filterMap, hasked, hmdb, haof, Option.toList, ite_self, List.append_nil]

/-- The two loads, asking for the directory and collecting it where it is found. -/
theorem loads_both (dir : CString) (calls : List Call) {before : List CString}
    (hasked : calls.filterMap Call.asked = before)
    (hcollected : calls.filterMap Call.collected = []) :
    Loads param dir (notLoaded param.isAofEnabled (loadAofFiles env) dir
      (notLoaded param.isMdbEnabled (loadMdbFiles env) dir calls).1).1 before := by
  unfold loadMdbFiles loadAofFiles
  constructor
  · simp only [notLoaded_filterMap, hasked, Call.asked, Option.toList, ite_self, List.append_nil,
      perFormat, List.append_assoc]
  · intro d hd
    simp only [notLoaded_filterMap, hcollected, Call.collected, Option.toList, List.nil_append] at hd
    grind

theorem recoverySteps_loads (dir : CString) : Loads param dir (recoverySteps env param dir).calls [] :=
  loads_both env param dir [] rfl rfl

/-- Whether or not the run gets past the log's stream, it reads the data set first. -/
theorem indexingSteps_scanned (dir data : CString) :
    (indexingSteps env param dir data).calls.filterMap Call.dataPath = [data] := by
  unfold indexingSteps
  dsimp only
  split_ifs
  · simp [buildIndex_filterMap, prepare_filterMap, Call.dataPath]
  · rw [reload_filterMap _ _ _ (fun _ => rfl) (fun _ => rfl) (fun _ => rfl)]
    simp [dumpIndex_filterMap, buildIndex_filterMap, prepare_filterMap, Call.dataPath]

/-- The steps keep to the paths they are given, once the log's stream is open. -/
theorem indexingSteps_use (env' : Environment) (dir data : CString)
    (h : (indexingSteps env param dir data).rst ≠ none) :
    DirsUsed param data dir (indexingSteps env param dir data) (recoverySteps env' param dir) := by
  have hscanned := indexingSteps_scanned env param dir data
  unfold indexingSteps at h hscanned ⊢
  dsimp only at h hscanned ⊢
  split_ifs at h hscanned ⊢ with hopen
  · exact absurd rfl h
  · constructor
    · exact hscanned
    · rw [reload_filterMap _ _ _ (fun _ => rfl) (fun _ => rfl) (fun _ => rfl)]
      simp only [dumpIndex_filterMap, buildIndex_filterMap, prepare_filterMap, Call.indexFile,
        Option.toList, List.filterMap_nil, ite_self, List.append_nil, List.nil_append]
      exact List.perm_append_comm
    · apply loads_both
      · simp [dumpIndex_filterMap, buildIndex_filterMap, prepare_filterMap, Call.asked]
      · simp [dumpIndex_filterMap, buildIndex_filterMap, prepare_filterMap, Call.collected]
    · exact recoverySteps_loads env' param dir

theorem indexingSteps_asked (dir data : CString) :
    dir ∈ (indexingSteps env param dir data).calls.filterMap Call.asked := by
  unfold indexingSteps
  dsimp only
  split_ifs
  · simp [buildIndex_filterMap, prepare_filterMap, Call.asked]
  · unfold reload loadMdbFiles loadAofFiles
    simp [notLoaded_filterMap, dumpIndex_filterMap, buildIndex_filterMap, prepare_filterMap, Call.asked]

theorem indexingDataCollection_cases : indexingDataCollection env param = ⟨[], none⟩ ∨
    indexingDataCollection env param = indexingSteps env param emptyPath emptyPath := by
  unfold indexingDataCollection
  split
  · rename_i hdir hdata
    rw [copyPath_eq_some hdir, copyPath_eq_some hdata]
    exact .inr rfl
  · exact .inl rfl

theorem recoveringIndex_cases : recoveringIndex env param = ⟨[], none⟩ ∨
    recoveringIndex env param = recoverySteps env param emptyPath := by
  unfold recoveringIndex
  split
  · rename_i hdir
    rw [copyPath_eq_some hdir]
    exact .inr rfl
  · exact .inl rfl

/-- A directory that was asked for, of those a load may ask for. -/
theorem Loads.eq_of_mem {param : IndexingConfig} {dir d : CString} {calls : List Call}
    {before : List CString} (h : Loads param dir calls before) (hbefore : ∀ b ∈ before, b = dir)
    (hd : d ∈ calls.filterMap Call.asked) : d = dir := by
  rw [h.asked, List.mem_append] at hd
  rcases hd with hd | hd
  · exact hbefore d hd
  · unfold perFormat at hd
    grind

/-- A run that completes takes both paths to be the empty one. -/
theorem empty_dirs_used (env' : Environment)
    (hindexing : (indexingDataCollection env param).rst ≠ none)
    (hrecovery : (recoveringIndex env' param).rst ≠ none) :
    DirsUsed param emptyPath emptyPath (indexingDataCollection env param)
      (recoveringIndex env' param) := by
  rcases indexingDataCollection_cases env param with hrun | hrun
  · exact absurd (by rw [hrun]) hindexing
  · rcases recoveringIndex_cases env' param with hrec | hrec
    · exact absurd (by rw [hrec]) hrecovery
    · rw [hrun] at hindexing ⊢
      rw [hrec]
      exact indexingSteps_use env param env' emptyPath emptyPath hindexing

theorem configured_dirs_never_used (env' : Environment) (hdata : param.datasetPath.bytes ≠ [])
    (hindex : param.indexDirPath.bytes ≠ []) :
    ¬ DirsUsed param param.datasetPath param.indexDirPath (indexingDataCollection env param)
        (recoveringIndex env' param) ∧
      ¬ Loads param param.indexDirPath (indexingDataCollection env param).calls
        [param.indexDirPath] ∧
      (param.isMdbEnabled = 1 ∨ param.isAofEnabled = 1 →
        ¬ Loads param param.indexDirPath (recoveringIndex env' param).calls []) := by
  have hne : emptyPath ≠ param.indexDirPath := fun h => hindex (congrArg CString.bytes h.symm)
  refine ⟨?_, ?_, ?_⟩
  · intro h
    have hscanned := h.scanned
    rcases indexingDataCollection_cases env param with hrun | hrun
    · rw [hrun] at hscanned
      cases hscanned
    · rw [hrun, indexingSteps_scanned] at hscanned
      exact hdata (congrArg CString.bytes (List.cons.inj hscanned).1.symm)
  · intro h
    rcases indexingDataCollection_cases env param with hrun | hrun
    · rw [hrun] at h
      cases h.asked
    · rw [hrun] at h
      exact hne (h.eq_of_mem (by simp) (indexingSteps_asked env param _ _))
  · intro henabled h
    have hasked := h.asked
    rcases recoveringIndex_cases env' param with hrec | hrec
    · rw [hrec] at hasked
      simp only [List.filterMap_nil, perFormat] at hasked
      grind
    · rw [hrec, (recoverySteps_loads env' param emptyPath).asked] at hasked
      simp only [perFormat] at hasked
      grind

end Paths

def sampleConfig : IndexingConfig :=
  ⟨0, 0, 1, 0, ⟨[47, 100, 97, 116, 97], by decide⟩, ⟨[47, 105, 100, 120], by decide⟩⟩

def sampleEnvironment : Environment :=
  ⟨fun _ dir => dir ≠ emptyPath, fun _ _ => false, fun _ _ => true⟩

theorem configured_dirs_unused_sample :
    sampleConfig.datasetPath.bytes ≠ [] ∧ sampleConfig.indexDirPath.bytes ≠ [] ∧
      ¬ DirsUsed sampleConfig sampleConfig.datasetPath sampleConfig.indexDirPath
        (indexingDataCollection sampleEnvironment sampleConfig)
        (recoveringIndex sampleEnvironment sampleConfig) :=
  ⟨by decide, by decide, (configured_dirs_never_used sampleEnvironment sampleConfig sampleEnvironment
    (by decide) (by decide)).1⟩

theorem configured_data_not_scanned : ¬ DirsUsed sampleConfig sampleConfig.datasetPath
    sampleConfig.indexDirPath (indexingDataCollection sampleEnvironment sampleConfig)
    (recoveringIndex sampleEnvironment sampleConfig) := by
  intro h
  have hscanned : (indexingDataCollection sampleEnvironment sampleConfig).calls.filterMap Call.dataPath ≠
      [sampleConfig.datasetPath] := by decide
  exact hscanned h.scanned

end Miqs.MiqsIndexing
