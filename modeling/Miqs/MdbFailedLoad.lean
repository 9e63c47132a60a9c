import Miqs.BinFileBytes
import Miqs.SearchExact
import Miqs.MdbFile

/-! Loading a file that is not a whole dump. Whatever happens, the load returns the
value that it returns for a dump, if it returns at all. -/
namespace Miqs.Index
open Miqs.CData Miqs.BinFileOps Miqs.KeyedTree
variable [Descent NumKey]

/-- `load_mdb_file_to_index` on a readable file: the value returned and the anchor after
the call. An empty file is not opened. -/
def loadMdbBytes (numAttrsPtr : Nat) (file : List UInt8) (idxAnchor : Option IndexAnchor) :
    Option (Int × Option IndexAnchor) :=
  if file = [] then some (0, idxAnchor)
  else (loadMdbFileToIndex numAttrsPtr (ByteFile.mk file) idxAnchor).map fun r => (r.1, some r.2.1)

def IsDump [AssocMap.Iteration CString] (bytes : List UInt8) : Prop :=
  ∃ idx fields, dumpMdbIndexToDisk idx = some fields ∧ bytes = fields.flatMap Field.bytes

def FailureReported [AssocMap.Iteration CString] (numAttrsPtr : Nat) (file : List UInt8)
    (idx : IndexAnchor) : Prop :=
  ∃ r, loadMdbBytes numAttrsPtr file (some idx) = some (r, some idx) ∧
    ∀ dump anchor r' st, IsDump dump → loadMdbBytes numAttrsPtr dump anchor = some (r', st) → r ≠ r'

theorem loadMdbFileToIndex_returns_zero {numAttrsPtr : Nat} {file : ByteFile}
    {idxAnchor : Option IndexAnchor} {r : Int × IndexAnchor × DiskStream ByteFile}
    (h : loadMdbFileToIndex numAttrsPtr file idxAnchor = some r) : r.1 = 0 := by
  simp only [loadMdbFileToIndex, Option.bind_eq_bind, Option.bind_eq_some_iff,
    Option.some.injEq] at h
  obtain ⟨idx, -, s, -, rfl⟩ := h
  rfl

theorem loadMdbBytes_returns_zero {numAttrsPtr : Nat} {file : List UInt8}
    {idxAnchor st : Option IndexAnchor} {r : Int}
    (h : loadMdbBytes numAttrsPtr file idxAnchor = some (r, st)) : r = 0 := by
  unfold loadMdbBytes at h
  split_ifs at h
  · simp only [Option.some.injEq, Prod.mk.injEq] at h
    exact h.1.symm
  · obtain ⟨r', hr', he⟩ := Option.map_eq_some_iff.mp h
    have hz := loadMdbFileToIndex_returns_zero hr'
    simp only [Prod.mk.injEq] at he
    rw [← he.1, hz]

def emptyDump : List Field := [.sizeT [1], .sizeT [0], .sizeT [0], .uint64 [0]]

theorem dumpMdbIndexToDisk_empty [AssocMap.Iteration CString] :
    dumpMdbIndexToDisk (initInMemIndex 1) = some emptyDump := by
  have hiter : AssocMap.iter ([] : Art (AttrLeaf FileObjPair)) = [] :=
    List.perm_nil.mp (AssocMap.iter_perm [])
  simp [dumpMdbIndexToDisk, appendPartition, appendPathList, appendAttrRootTree, hiter,
    initInMemIndex, miqsAppendSizeT, miqsAppendUint64, IndexAnchor.parallelism, emptyDump]

theorem loadMdbBytes_emptyDump (numAttrsPtr : Nat) :
    ∃ st, loadMdbBytes numAttrsPtr (emptyDump.flatMap Field.bytes) none = some (0, st) :=
  ⟨_, rfl⟩

/-- No failed load is reported: for no file and no anchor does the load return anything
but the value that it returns for a dump. -/
theorem failed_load_never_reported [AssocMap.Iteration CString] (numAttrsPtr : Nat)
    (file : List UInt8) (idx : IndexAnchor) : ¬ FailureReported numAttrsPtr file idx := by
  rintro ⟨r, hr, hne⟩
  have hzero := loadMdbBytes_returns_zero hr
  obtain ⟨st, hst⟩ := loadMdbBytes_emptyDump numAttrsPtr
  exact hne _ none 0 st ⟨_, _, dumpMdbIndexToDisk_empty, rfl⟩ hst hzero

def sampleDump : Option (List UInt8) := do
  let st ← @indexAll .oldest 1 [sampleAttribute]
  let fields ← @dumpMdbIndexToDisk .oldest .oldest st
  some (fields.flatMap Field.bytes)

omit [Descent NumKey] in
/-- A dump without its last byte is loaded like the whole dump: the value returned is the
same, and the anchor is not what it was. -/
theorem cut_dump_not_reported :
    (sampleDump.bind fun dump => (@loadMdbBytes .oldest 0 dump (some (initInMemIndex 1))).map
      Prod.fst) = some 0 ∧
    (sampleDump.bind fun dump =>
      (@loadMdbBytes .oldest 0 dump.dropLast (some (initInMemIndex 1))).map fun r =>
        (r.1, decide (r.2 = some (initInMemIndex 1)))) = some (0, false) := by
  decide +kernel

end Miqs.Index
