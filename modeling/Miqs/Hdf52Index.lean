import Miqs.AofReplay
import Miqs.Hdf5MetaExtractor

/-! Indexing HDF5 files. The paths an attribute is indexed with are those the anchor
has when the attribute is visited, and the object path is set after the object's
own attributes were visited. -/
namespace Miqs.Hdf52Index
open Miqs.CData Miqs.Hdf5 Miqs.KeyedTree Miqs.Index
variable [Descent NumKey]

/-- What `indexing_attr` is called with: the attribute, with the paths that go to the
in-memory index, and the paths of the anchor, which go to the log. -/
structure IndexingCall where
  attr : MetaAttribute
  filePath : CharPtr
  objPath : CharPtr

structure ScanState where
  anchor : IndexAnchor
  calls : List IndexingCall

def onObj (s : ScanState) (obj : DataObject) : Option ScanState :=
  some { s with anchor := { s.anchor with
    objPath := .to obj.objName
    totalNumObjects := s.anchor.totalNumObjects + 1 } }

def onAttr (s : ScanState) (attr : MetaAttribute) : Option (ScanState × MetaAttribute) := do
  let attr := { attr with filePathStr := s.anchor.filePath, objPathStr := s.anchor.objPath }
  let anchor ← Index.onAttr s.anchor attr.attrName attr.attributeValue
  some (⟨anchor, s.calls ++ [⟨attr, s.anchor.filePath, s.anchor.objPath⟩]⟩, attr)

def parseHdf5File (s : ScanState) (file : H5File) : Option ScanState := do
  let anchor := { s.anchor with
    filePath := .to file.path
    totalNumFiles := s.anchor.totalNumFiles + 1 }
  let metaCollector := initMetadataCollector 0 ⟨anchor, s.calls⟩ [] (some onObj) (some onAttr)
  let metaCollector ← scanHdf5 file metaCollector false
  some metaCollector.opdata

def parseHdf5Files (parallelism : Nat) (indexedAttr : List CString)
    (stream : Option (List BinFileOps.Field)) (isReadonly : Bool) (files : List H5File) :
    Option ScanState :=
  files.foldlM parseHdf5File ⟨{ initInMemIndex parallelism with
    indexedAttr
    onDiskFileStream := stream
    isReadonlyIndexFile := isReadonly }, []⟩

def visited (files : List H5File) : List (CString × H5Object) :=
  files.flatMap fun file => file.objects.map fun obj => (file.path, obj)

def callOf (filePath objPath : CharPtr) (attr : H5Attribute) : IndexingCall :=
  ⟨⟨attr.name, attr.value, filePath, objPath⟩, filePath, objPath⟩

def ownerCalls (files : List H5File) : List IndexingCall :=
  (visited files).flatMap fun (path, obj) => obj.attrs.map (callOf (.to path) (.to obj.name))

def shiftedCalls : CharPtr → List (CString × H5Object) → List IndexingCall
  | _, [] => []
  | prev, (path, obj) :: objs =>
    obj.attrs.map (callOf (.to path) prev) ++ shiftedCalls (.to obj.name) objs

def indexAttr (s : ScanState) (attr : H5Attribute) : Option ScanState :=
  (onAttr s ⟨attr.name, attr.value, .null, .null⟩).map Prod.fst

def visitObject (s : ScanState) (obj : H5Object) : Option ScanState :=
  (obj.attrs.foldlM indexAttr s).map fun s => { s with anchor := { s.anchor with
    objPath := .to obj.name
    totalNumObjects := s.anchor.totalNumObjects + 1 } }

theorem foldlM_attrInfo (s : ScanState) (mdo : DataObject) (attrs : List H5Attribute) :
    (attrs.foldlM (attrInfo (some onAttr)) (s, mdo)).map (fun r => (r.1, r.2.objName)) =
      (attrs.foldlM indexAttr s).map fun s => (s, mdo.objName) := by
  have hstep : ∀ (s : ScanState) mdo attr,
      attrInfo (some onAttr) (s, mdo) attr = (onAttr s ⟨attr.name, attr.value, .null, .null⟩).map
        fun r => (r.1, { mdo with
          attrLinkedList := appendAttribute mdo.attrLinkedList r.2
          numAttrs := mdo.numAttrs + 1 }) := by
    intro s mdo attr
    simp only [attrInfo]
    cases onAttr s ⟨attr.name, attr.value, .null, .null⟩ <;> rfl
  induction attrs generalizing s mdo with
  | nil => rfl
  | cons attr attrs ih =>
    rw [List.foldlM_cons, List.foldlM_cons, hstep, indexAttr]
    cases onAttr s ⟨attr.name, attr.value, .null, .null⟩ with
    | none => rfl
    | some r => exact ih _ _

theorem opFunc_opdata (coll : MetadataCollector ScanState) (ho : coll.onObj = some onObj)
    (ha : coll.onAttr = some onAttr) (obj : H5Object) :
    (opFunc coll obj).map MetadataCollector.opdata = visitObject coll.opdata obj := by
  have hattrs := foldlM_attrInfo coll.opdata
    ⟨obj.name, getMiqsTypeFromH5 obj.type, obj.attrs.length, []⟩ obj.attrs
  -- without attributes there is nothing to iterate over either
  have hguard : ∀ (f : ScanState × DataObject → H5Attribute → Option (ScanState × DataObject)) r,
      (if obj.attrs.length > 0 then obj.attrs.foldlM f r else some r) = obj.attrs.foldlM f r := by
    intro f r
    cases obj.attrs <;> rfl
  simp only [opFunc, ho, ha]
  rw [hguard, visitObject]
  cases hr : obj.attrs.foldlM (attrInfo (some onAttr))
      (coll.opdata, ⟨obj.name, getMiqsTypeFromH5 obj.type, obj.attrs.length, []⟩) with
  | none =>
    rw [hr] at hattrs
    rw [Option.map_eq_none_iff.mp hattrs.symm]
    rfl
  | some r =>
    rw [hr] at hattrs
    obtain ⟨s, hs, he⟩ := Option.map_eq_some_iff.mp hattrs.symm
    simp only [Prod.mk.injEq] at he
    rw [hs, he.1]
    simp [onObj, ← he.2]

omit [Descent NumKey] in
/-- The callbacks of a collector stay the same. -/
theorem opFunc_callbacks {coll coll' : MetadataCollector ScanState} {obj : H5Object}
    (h : opFunc coll obj = some coll') : coll'.onObj = coll.onObj ∧ coll'.onAttr = coll.onAttr := by
  simp only [opFunc, Option.bind_eq_bind, Option.bind_eq_some_iff, Option.some.injEq] at h
  obtain ⟨r, -, opdata, -, rfl⟩ := h
  exact ⟨rfl, rfl⟩

theorem parseHdf5File_eq (s : ScanState) (file : H5File) :
    parseHdf5File s file = file.objects.foldlM visitObject { s with anchor := { s.anchor with
      filePath := .to file.path
      totalNumFiles := s.anchor.totalNumFiles + 1 } } := by
  have hscan := Runs.foldlM_map
    (fun coll : MetadataCollector ScanState => coll.onObj = some onObj ∧ coll.onAttr = some onAttr)
    MetadataCollector.opdata opFunc visitObject
    (fun coll obj hc => opFunc_opdata coll hc.1 hc.2 obj)
    (fun coll obj coll' hc h => by
      obtain ⟨ho, ha⟩ := opFunc_callbacks h
      exact ⟨ho.trans hc.1, ha.trans hc.2⟩)
    file.objects
    (initMetadataCollector 0 ⟨{ s.anchor with
      filePath := .to file.path
      totalNumFiles := s.anchor.totalNumFiles + 1 }, s.calls⟩ [] (some onObj) (some onAttr))
    ⟨rfl, rfl⟩
  refine Eq.trans ?_ hscan
  simp only [parseHdf5File, scanHdf5]
  cases file.objects.foldlM opFunc (initMetadataCollector 0 ⟨{ s.anchor with
      filePath := .to file.path
      totalNumFiles := s.anchor.totalNumFiles + 1 }, s.calls⟩ [] (some onObj) (some onAttr)) <;> rfl

theorem indexingAttr_paths {idx idx' : IndexAnchor} {attr : MetaAttribute}
    (h : indexingAttr idx attr = some idx') :
    idx'.filePath = idx.filePath ∧ idx'.objPath = idx.objPath := by
  simp only [indexingAttr] at h
  split_ifs at h with hi
  · obtain ⟨idx₁, hlog, h⟩ := Option.bind_eq_some_iff.mp h
    obtain ⟨idx₂, hc, h⟩ := Option.bind_eq_some_iff.mp h
    cases h
    have hframe := createInMemIndexForAttr_onlyPartitions hc
    have hlogged : idx₁.filePath = idx.filePath ∧ idx₁.objPath = idx.objPath := by
      unfold logAttr at hlog
      split at hlog
      · cases hlog
        exact ⟨rfl, rfl⟩
      · split_ifs at hlog
        · cases hlog
          exact ⟨rfl, rfl⟩
        · obtain ⟨fields, -, rfl⟩ := Option.map_eq_some_iff.mp hlog
          exact ⟨rfl, rfl⟩
    rw [hframe]
    exact hlogged
  · cases h
    exact ⟨rfl, rfl⟩

theorem indexAttr_calls {s s' : ScanState} {attr : H5Attribute} (h : indexAttr s attr = some s') :
    s'.calls = s.calls ++ [callOf s.anchor.filePath s.anchor.objPath attr] ∧
      s'.anchor.filePath = s.anchor.filePath ∧ s'.anchor.objPath = s.anchor.objPath := by
  obtain ⟨r, hr, rfl⟩ := Option.map_eq_some_iff.mp h
  obtain ⟨anchor, ha, hr⟩ := Option.bind_eq_some_iff.mp hr
  cases hr
  exact ⟨rfl, indexingAttr_paths ha⟩

theorem foldlM_indexAttr_calls {s s' : ScanState} {attrs : List H5Attribute}
    (h : attrs.foldlM indexAttr s = some s') :
    s'.calls = s.calls ++ attrs.map (callOf s.anchor.filePath s.anchor.objPath) ∧
      s'.anchor.filePath = s.anchor.filePath := by
  induction attrs generalizing s with
  | nil =>
    cases h
    simp
  | cons attr attrs ih =>
    rw [List.foldlM_cons] at h
    obtain ⟨s₁, h₁, h₂⟩ := Option.bind_eq_some_iff.mp h
    obtain ⟨hcalls, hf, ho⟩ := indexAttr_calls h₁
    obtain ⟨hcalls', hf'⟩ := ih h₂
    rw [hcalls', hcalls, hf', hf, ho]
    simp

theorem visitObject_calls {s s' : ScanState} {obj : H5Object} (h : visitObject s obj = some s') :
    s'.calls = s.calls ++ obj.attrs.map (callOf s.anchor.filePath s.anchor.objPath) ∧
      s'.anchor.filePath = s.anchor.filePath ∧ s'.anchor.objPath = .to obj.name := by
  obtain ⟨s₁, h₁, rfl⟩ := Option.map_eq_some_iff.mp h
  obtain ⟨hcalls, hf⟩ := foldlM_indexAttr_calls h₁
  exact ⟨hcalls, hf, rfl⟩

def lastName (prev : CharPtr) (objs : List (CString × H5Object)) : CharPtr :=
  (objs.getLast?.map fun v => .to v.2.name).getD prev

omit [Descent NumKey] in
theorem lastName_cons (prev : CharPtr) (v : CString × H5Object) (objs : List (CString × H5Object)) :
    lastName prev (v :: objs) = lastName (.to v.2.name) objs := by
  simp only [lastName, List.getLast?_cons, Option.map_some, Option.getD_some]
  cases objs.getLast? <;> rfl

omit [Descent NumKey] in
theorem shiftedCalls_append (prev : CharPtr) (objs objs' : List (CString × H5Object)) :
    shiftedCalls prev (objs ++ objs') =
      shiftedCalls prev objs ++ shiftedCalls (lastName prev objs) objs' := by
  induction objs generalizing prev with
  | nil => rfl
  | cons v objs ih => simp [shiftedCalls, ih, lastName_cons]

theorem foldlM_visitObject_calls {s s' : ScanState} {path : CString} {objs : List H5Object}
    (hp : s.anchor.filePath = .to path) (h : objs.foldlM visitObject s = some s') :
    s'.calls = s.calls ++ shiftedCalls s.anchor.objPath (objs.map fun obj => (path, obj)) ∧
      s'.anchor.objPath = lastName s.anchor.objPath (objs.map fun obj => (path, obj)) := by
  induction objs generalizing s with
  | nil =>
    cases h
    simp [shiftedCalls, lastName]
  | cons obj objs ih =>
    rw [List.foldlM_cons] at h
    obtain ⟨s₁, h₁, h₂⟩ := Option.bind_eq_some_iff.mp h
    obtain ⟨hcalls, hf, ho⟩ := visitObject_calls h₁
    obtain ⟨hcalls', ho'⟩ := ih (hf.trans hp) h₂
    rw [hcalls', hcalls, ho', ho, hp]
    simp [shiftedCalls, lastName_cons]

/-- A run makes the shifted calls. -/
theorem foldlM_parseHdf5File_calls {s s' : ScanState} {files : List H5File}
    (h : files.foldlM parseHdf5File s = some s') :
    s'.calls = s.calls ++ shiftedCalls s.anchor.objPath (visited files) := by
  induction files generalizing s with
  | nil =>
    cases h
    simp [visited, shiftedCalls]
  | cons file files ih =>
    rw [List.foldlM_cons] at h
    obtain ⟨s₁, h₁, h₂⟩ := Option.bind_eq_some_iff.mp h
    rw [parseHdf5File_eq] at h₁
    obtain ⟨hcalls, ho⟩ := foldlM_visitObject_calls rfl h₁
    rw [ih h₂, hcalls, ho]
    simp [visited, shiftedCalls_append]

def OwnersPrecede (objs : List (CString × H5Object)) : Prop :=
  ∀ before owner after, objs = before ++ owner :: after → owner.2.attrs ≠ [] →
    ∃ prev, before.getLast? = some prev ∧ prev.2.name = owner.2.name

def Aligned : CharPtr → List (CString × H5Object) → Prop
  | _, [] => True
  | prev, v :: objs => (v.2.attrs = [] ∨ prev = .to v.2.name) ∧ Aligned (.to v.2.name) objs

omit [Descent NumKey] in
theorem aligned_append (prev : CharPtr) (objs objs' : List (CString × H5Object)) :
    Aligned prev (objs ++ objs') ↔ Aligned prev objs ∧ Aligned (lastName prev objs) objs' := by
  induction objs generalizing prev with
  | nil => simp [Aligned, lastName]
  | cons v objs ih => simp [Aligned, ih, lastName_cons, and_assoc]

omit [Descent NumKey] in
theorem aligned_iff (prev : CharPtr) (objs : List (CString × H5Object)) :
    Aligned prev objs ↔ ∀ before owner after, objs = before ++ owner :: after →
      owner.2.attrs ≠ [] → lastName prev before = .to owner.2.name := by
  constructor
  · rintro h before owner after rfl hne
    have hown := ((aligned_append prev before (owner :: after)).mp h).2.1
    cases hown with
    | inl hnil => exact absurd hnil hne
    | inr hname => exact hname
  · intro h
    induction objs generalizing prev with
    | nil => trivial
    | cons v objs ih =>
      refine ⟨?_, ih _ ?_⟩
      · by_cases hne : v.2.attrs = []
        · exact Or.inl hne
        · exact Or.inr (h [] v objs rfl hne)
      · intro before owner after hobjs hne
        have hown := h (v :: before) owner after (by rw [hobjs]; rfl) hne
        rwa [lastName_cons] at hown

omit [Descent NumKey] in
theorem ownersPrecede_iff (objs : List (CString × H5Object)) :
    OwnersPrecede objs ↔ Aligned .null objs := by
  have hlast : ∀ (before : List (CString × H5Object)) (n : CString),
      lastName .null before = .to n ↔ ∃ prev, before.getLast? = some prev ∧ prev.2.name = n := by
    intro before n
    cases h : before.getLast? <;> simp [lastName, h]
  rw [aligned_iff]
  simp only [hlast]
  rfl

omit [Descent NumKey] in
/-- The shifted calls are right only if nothing is shifted. -/
theorem shiftedCalls_eq_iff (prev : CharPtr) (objs : List (CString × H5Object)) :
    shiftedCalls prev objs =
      objs.flatMap (fun v => v.2.attrs.map (callOf (.to v.1) (.to v.2.name))) ↔ Aligned prev objs := by
  induction objs generalizing prev with
  | nil => simp [shiftedCalls, Aligned]
  | cons v objs ih =>
    have hattrs : v.2.attrs.map (callOf (.to v.1) prev) =
        v.2.attrs.map (callOf (.to v.1) (.to v.2.name)) ↔ v.2.attrs = [] ∨ prev = .to v.2.name := by
      cases v.2.attrs with
      | nil => simp
      | cons attr attrs =>
        constructor
        · intro h
          exact Or.inr (congrArg IndexingCall.objPath (List.cons.inj h).1)
        · rintro (h | rfl)
          · cases h
          · rfl
    rw [Aligned, ← hattrs, ← ih, List.flatMap_cons]
    constructor
    · intro h
      exact List.append_inj h (by simp)
    · rintro ⟨h₁, h₂⟩
      simp only [shiftedCalls, h₁, h₂]

theorem foldlM_indexAttr_represents {p : Nat} (hp : 0 < p) {s : ScanState} {path name : CString}
    {attrs : List H5Attribute} (hr : ∃ I, Represents p s.anchor I)
    (hf : s.anchor.filePath = .to path) (ho : s.anchor.objPath = .to name) :
    ∃ s', attrs.foldlM indexAttr s = some s' ∧ ∃ I, Represents p s'.anchor I := by
  induction attrs generalizing s with
  | nil => exact ⟨s, rfl, hr⟩
  | cons attr attrs ih =>
    obtain ⟨I, hI⟩ := hr
    obtain ⟨anchor, hstep, -, -, hrest⟩ :=
      hI.indexingAttr hp (a := ⟨attr.name, attr.value, path, name⟩) hf ho
    have hI' : ∃ I, Represents p anchor I := by
      split at hrest
      · exact ⟨_, hrest.1⟩
      · exact ⟨_, hrest.1⟩
    have hindex : indexAttr s attr = some ⟨anchor, s.calls ++
        [callOf s.anchor.filePath s.anchor.objPath attr]⟩ := by
      simp only [Attribute.toMeta, ← hf, ← ho] at hstep
      simp [indexAttr, onAttr, Index.onAttr, hstep, callOf]
    obtain ⟨hf', ho'⟩ := indexingAttr_paths hstep
    obtain ⟨s', hs', hr'⟩ := @ih ⟨anchor, s.calls ++
      [callOf s.anchor.filePath s.anchor.objPath attr]⟩ hI' (hf'.trans hf) (ho'.trans ho)
    exact ⟨s', by rw [List.foldlM_cons, hindex]; exact hs', hr'⟩

theorem visitObject_represents {p : Nat} (hp : 0 < p) {s : ScanState} {path : CString}
    {obj : H5Object} (hr : ∃ I, Represents p s.anchor I) (hf : s.anchor.filePath = .to path)
    (ho : obj.attrs = [] ∨ s.anchor.objPath = .to obj.name) :
    ∃ s', visitObject s obj = some s' ∧ ∃ I, Represents p s'.anchor I := by
  have hattrs : ∃ s', obj.attrs.foldlM indexAttr s = some s' ∧ ∃ I, Represents p s'.anchor I := by
    cases ho with
    | inl hnil =>
      rw [hnil]
      exact ⟨s, rfl, hr⟩
    | inr hname => exact foldlM_indexAttr_represents hp hr hf hname
  obtain ⟨s', hs', I, hI⟩ := hattrs
  exact ⟨_, Option.map_eq_some_iff.mpr ⟨s', hs', rfl⟩, I, hI.congr rfl⟩

theorem foldlM_visitObject_represents {p : Nat} (hp : 0 < p) {s : ScanState} {path : CString}
    {objs : List H5Object} (hr : ∃ I, Represents p s.anchor I) (hf : s.anchor.filePath = .to path)
    (ha : Aligned s.anchor.objPath (objs.map fun obj => (path, obj))) :
    ∃ s', objs.foldlM visitObject s = some s' ∧ ∃ I, Represents p s'.anchor I := by
  induction objs generalizing s with
  | nil => exact ⟨s, rfl, hr⟩
  | cons obj objs ih =>
    obtain ⟨s₁, h₁, hr₁⟩ := visitObject_represents hp hr hf ha.1
    obtain ⟨-, hf₁, ho₁⟩ := visitObject_calls h₁
    obtain ⟨s', hs', hr'⟩ := ih hr₁ (hf₁.trans hf) (by rw [ho₁]; exact ha.2)
    exact ⟨s', by rw [List.foldlM_cons, h₁]; exact hs', hr'⟩

theorem foldlM_parseHdf5File_represents {p : Nat} (hp : 0 < p) {s : ScanState}
    {files : List H5File} (hr : ∃ I, Represents p s.anchor I)
    (ha : Aligned s.anchor.objPath (visited files)) :
    ∃ s', files.foldlM parseHdf5File s = some s' ∧ ∃ I, Represents p s'.anchor I := by
  induction files generalizing s with
  | nil => exact ⟨s, rfl, hr⟩
  | cons file files ih =>
    obtain ⟨I, hI⟩ := hr
    have hsplit := (aligned_append s.anchor.objPath
      (file.objects.map fun obj => (file.path, obj)) (visited files)).mp ha
    obtain ⟨s₁, h₁, hr₁⟩ := @foldlM_visitObject_represents _ p hp { s with anchor := { s.anchor with
      filePath := .to file.path
      totalNumFiles := s.anchor.totalNumFiles + 1 } } file.path file.objects ⟨I, hI.congr rfl⟩ rfl
      hsplit.1
    obtain ⟨-, ho₁⟩ := foldlM_visitObject_calls rfl h₁
    obtain ⟨s', hs', hr'⟩ := ih hr₁ (by rw [ho₁]; exact hsplit.2)
    exact ⟨s', by rw [List.foldlM_cons, parseHdf5File_eq, h₁]; exact hs', hr'⟩

/-- The attributes of a sequence of files are all indexed with the path of their file
and the name of their owner just if each owner comes after an object of its name. -/
theorem owner_paths_iff {p : Nat} (hp : 0 < p) (indexedAttr : List CString)
    (stream : Option (List BinFileOps.Field)) (isReadonly : Bool) (files : List H5File) :
    (∃ s, parseHdf5Files p indexedAttr stream isReadonly files = some s ∧
      s.calls = ownerCalls files) ↔ OwnersPrecede (visited files) := by
  rw [ownersPrecede_iff]
  constructor
  · rintro ⟨s, hs, hcalls⟩
    have hshift := foldlM_parseHdf5File_calls hs
    rw [hcalls] at hshift
    exact (shiftedCalls_eq_iff .null (visited files)).mp hshift.symm
  · intro ha
    obtain ⟨s, hs, -⟩ := foldlM_parseHdf5File_represents hp (s := ⟨{ initInMemIndex p with
      indexedAttr
      onDiskFileStream := stream
      isReadonlyIndexFile := isReadonly }, []⟩) ⟨_, (represents_init p).congr rfl⟩ ha
    refine ⟨s, hs, ?_⟩
    rw [foldlM_parseHdf5File_calls hs]
    exact (shiftedCalls_eq_iff .null (visited files)).mpr ha

def rootGroup (attrs : List H5Attribute) : H5Object := ⟨.ofBytes [46], .group, attrs⟩

omit [Descent NumKey] in
theorem owner_paths_two_roots :
    0 < 2 ∧ ∃ s, @parseHdf5Files .oldest 2 [] (some []) false
        [⟨.ofBytes [102], [rootGroup []], []⟩,
          ⟨.ofBytes [103], [rootGroup [⟨.ofBytes [110], .integer [7] fun _ => 0⟩]], []⟩] = some s ∧
      s.calls = [callOf (.to (.ofBytes [103])) (.to (.ofBytes [46]))
        ⟨.ofBytes [110], .integer [7] fun _ => 0⟩] := by
  refine ⟨by decide, (@owner_paths_iff .oldest 2 (by decide) [] (some []) false
    [⟨.ofBytes [102], [rootGroup []], []⟩,
      ⟨.ofBytes [103], [rootGroup [⟨.ofBytes [110], .integer [7] fun _ => 0⟩]], []⟩]).mpr ?_⟩
  rw [ownersPrecede_iff]
  exact ⟨Or.inl rfl, Or.inr rfl, trivial⟩

omit [Descent NumKey] in
/-- A dataset `d` with an attribute, in a file whose root has none: the attribute is
indexed with the name of the root. -/
theorem owner_path_of_root :
    ¬ ∃ s, @parseHdf5Files .oldest 1 [] none true [⟨.ofBytes [102], [rootGroup [],
        ⟨.ofBytes [100], .dataset, [⟨.ofBytes [110], .integer [7] fun _ => 0⟩]⟩], []⟩] = some s ∧
      s.calls = ownerCalls [⟨.ofBytes [102], [rootGroup [],
        ⟨.ofBytes [100], .dataset, [⟨.ofBytes [110], .integer [7] fun _ => 0⟩]⟩], []⟩] := by
  rintro ⟨s, hs, hcalls⟩
  have heval : (@parseHdf5Files .oldest 1 [] none true [⟨.ofBytes [102], [rootGroup [],
      ⟨.ofBytes [100], .dataset, [⟨.ofBytes [110], .integer [7] fun _ => 0⟩]⟩], []⟩]).map
      (fun s => s.calls.map IndexingCall.objPath) = some [.to (.ofBytes [46])] := by
    decide +kernel
  rw [hs, Option.map_some, hcalls] at heval
  exact absurd heval (by decide)

end Miqs.Hdf52Index
