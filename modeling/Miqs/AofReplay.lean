import Miqs.AofLog
import Miqs.Refinement

/-! Replaying a log. What is logged is read back record by record, but the attribute
that is indexed then has path fields nobody has set. -/
namespace Miqs.Index
open Miqs.CData Miqs.BinFileOps Miqs.KeyedTree Miqs.TokenStream
variable [Descent NumKey]

section Read
variable {S : Type} [TokenSource S Field] {d d' : DiskStream S}

omit [Descent NumKey] in
theorem miqsReadString_of_append {s : CharPtr} {fields : List Field}
    (hw : miqsAppendString s = some fields) (h : Delivers d fields d') :
    ∃ t, s = .to t ∧ miqsReadString d = (some t, d') := by
  cases s with
  | null => cases hw
  | wild => cases hw
  | «to» t =>
    cases hw
    exact ⟨t, rfl, miqsReadString_of_delivers h⟩

omit [Descent NumKey] in
theorem readRecordData_of_append {type : AttrType} {data : RecordData} {fields : List Field}
    (hw : appendRecordData type data = some fields) (h : Delivers d fields d') :
    readRecordData type d = (if type = .unknown then .null else data, d') := by
  cases type with
  | unknown =>
    cases hw
    obtain rfl : d = d' := h
    rfl
  | integer =>
    cases data <;> cases hw
    simp [readRecordData, miqsReadInt_of_delivers h]
  | float =>
    cases data <;> cases hw
    simp [readRecordData, miqsReadDouble_of_delivers h]
  | string =>
    cases data <;> cases hw
    simp [readRecordData, miqsReadString_of_delivers h]

omit [Descent NumKey] in
/-- A record is read back as it was written. -/
theorem readIndexRecord_of_delivers {ir : IndexRecord} {fields : List Field}
    (hw : appendIndexRecord ir = some fields) (h : Delivers d fields d') :
    readIndexRecord d =
      (some { ir with data := if ir.type = .unknown then .null else ir.data }, d') := by
  simp only [appendIndexRecord, Option.bind_eq_bind, Option.bind_eq_some_iff,
    Option.some.injEq] at hw
  obtain ⟨name, hname, data, hdata, file, hfile, obj, hobj, rfl⟩ := hw
  simp only [miqsAppendType, delivers_append] at h
  obtain ⟨d₁, h₁, d₂, h₂, d₃, h₃, d₄, h₄, h₅⟩ := h
  obtain ⟨n, hn, hrn⟩ := miqsReadString_of_append hname h₂
  obtain ⟨f, hf, hrf⟩ := miqsReadString_of_append hfile h₄
  obtain ⟨o, ho, hro⟩ := miqsReadString_of_append hobj h₅
  have htype : getMiqsTypeFromInt ir.type.toInt = ir.type := by
    cases ir.type <;> rfl
  simp only [readIndexRecord, miqsReadInt_of_delivers h₁, htype, hrn,
    readRecordData_of_append hdata h₃, hrf, hro, readCharPtr, hn, hf, ho]

end Read

def aofFields (a : Attribute) : List Field :=
  (aofRecords a.toMeta (.to a.filePath) (.to a.objPath)).flatMap fun ir =>
    (appendIndexRecord ir).getD []

omit [Descent NumKey] in
theorem appendIndexRecord_of_mem {a : Attribute} {ir : IndexRecord}
    (h : ir ∈ aofRecords a.toMeta (.to a.filePath) (.to a.objPath)) :
    ir.type ≠ .unknown ∧ ∃ fields, appendIndexRecord ir = some fields := by
  unfold aofRecords at h
  cases hv : a.toMeta.attributeValue <;> simp only [hv, List.mem_map, List.not_mem_nil] at h <;>
    obtain ⟨v, _, rfl⟩ := h <;>
    simp [appendIndexRecord, miqsAppendString, appendRecordData]

omit [Descent NumKey] in
theorem writeAof_eq (a : Attribute) :
    writeAof a.toMeta (.to a.filePath) (.to a.objPath) = some (aofFields a) := by
  have hm : (aofRecords a.toMeta (.to a.filePath) (.to a.objPath)).mapM appendIndexRecord =
      some ((aofRecords a.toMeta (.to a.filePath) (.to a.objPath)).map fun ir =>
        (appendIndexRecord ir).getD []) := by
    apply mapM_of_map_eq_some
    rw [List.map_map]
    apply List.map_congr_left
    intro ir hir
    obtain ⟨-, fields, hf⟩ := appendIndexRecord_of_mem hir
    simp [hf]
  simp [writeAof, hm, aofFields, List.flatMap_def]

omit [Descent NumKey] in
theorem length_aofRecords (a : Attribute) (filePath objPath : CharPtr) :
    (aofRecords a.toMeta filePath objPath).length = stored a.attributeValue := by
  unfold aofRecords Attribute.toMeta
  cases a.attributeValue <;> simp [stored]

def Indexed (indexedAttr : List CString) (a : Attribute) : Prop :=
  indexedAttr = [] ∨ a.attrName ∈ indexedAttr

instance (indexedAttr : List CString) (a : Attribute) : Decidable (Indexed indexedAttr a) :=
  inferInstanceAs (Decidable (_ ∨ _))

omit [Descent NumKey] in
theorem logAttr_eq {idx : IndexAnchor} {a : Attribute} (hf : idx.filePath = .to a.filePath)
    (ho : idx.objPath = .to a.objPath) : logAttr idx a.toMeta =
      some { idx with onDiskFileStream :=
        if idx.isReadonlyIndexFile then idx.onDiskFileStream
        else idx.onDiskFileStream.map fun stream => stream ++ aofFields a } := by
  unfold logAttr
  cases hs : idx.onDiskFileStream with
  | none =>
    simp only [Option.map_none, ite_self]
    rw [← hs]
  | some stream =>
    cases hr : idx.isReadonlyIndexFile with
    | true => simp [← hs, ← hr]
    | false => simp [hf, ho, writeAof_eq]

/-- One attribute with the paths of the anchor: it is indexed and logged if its name
is one of the indexed fields, and only counted otherwise. -/
theorem Represents.indexingAttr {p : Nat} (hp : 0 < p) {idx : IndexAnchor} {I : PathIndex}
    (hr : Represents p idx I) {a : Attribute} (hf : idx.filePath = .to a.filePath)
    (ho : idx.objPath = .to a.objPath) :
    ∃ idx', Index.indexingAttr idx a.toMeta = some idx' ∧
      idx'.indexedAttr = idx.indexedAttr ∧ idx'.isReadonlyIndexFile = idx.isReadonlyIndexFile ∧
      if Indexed idx.indexedAttr a then
        Represents p idx' (I.step a) ∧ idx'.onDiskFileStream =
          if idx.isReadonlyIndexFile then idx.onDiskFileStream
          else idx.onDiskFileStream.map fun stream => stream ++ aofFields a
      else Represents p idx' I ∧ idx'.onDiskFileStream = idx.onDiskFileStream := by
  by_cases hi : Indexed idx.indexedAttr a
  · have hspec : idx.indexedAttr = [] ∨ decide (a.attrName ∈ idx.indexedAttr) = true := by
      simpa [Indexed] using hi
    have hr₁ : Represents p { idx with
        totalNumAttrs := idx.totalNumAttrs + 1
        totalNumKvPairs := idx.totalNumKvPairs + a.attributeValue.length
        onDiskFileStream := if idx.isReadonlyIndexFile then idx.onDiskFileStream
          else idx.onDiskFileStream.map fun stream => stream ++ aofFields a } I :=
      hr.congr rfl
    obtain ⟨idx', hc, hr', -⟩ := hr₁.step hp a
    have hframe := createInMemIndexForAttr_onlyPartitions hc
    refine ⟨{ idx' with
      totalNumIndexedKvPairs := idx'.totalNumIndexedKvPairs + a.attributeValue.length }, ?_, ?_, ?_, ?_⟩
    · have hlog := @logAttr_eq { idx with
        totalNumAttrs := idx.totalNumAttrs + 1
        totalNumKvPairs := idx.totalNumKvPairs + a.attributeValue.length } a hf ho
      refine (if_pos hspec).trans ?_
      simp only [Attribute.toMeta] at hlog hc ⊢
      simp only [hlog, hc, Option.bind_eq_bind, Option.bind_some]
    · rw [hframe]
    · rw [hframe]
    · rw [if_pos hi]
      exact ⟨hr'.congr rfl, by rw [hframe]⟩
  · have hspec : ¬ (idx.indexedAttr = [] ∨ decide (a.attrName ∈ idx.indexedAttr) = true) := by
      simpa [Indexed] using hi
    refine ⟨{ idx with totalNumAttrs := idx.totalNumAttrs + 1 }, if_neg hspec, rfl, rfl, ?_⟩
    rw [if_neg hi]
    exact ⟨hr.congr rfl, rfl⟩

structure Logging (p : Nat) (indexedAttr : List CString) (idx : IndexAnchor) (as : List Attribute) :
    Prop where
  represents : Represents p idx (pathIndexAll as)
  filter : idx.indexedAttr = indexedAttr
  stream : idx.onDiskFileStream = some (as.flatMap aofFields)
  writable : idx.isReadonlyIndexFile = false

theorem Logging.step {p : Nat} (hp : 0 < p) {indexedAttr : List CString} {idx : IndexAnchor}
    {as : List Attribute} (h : Logging p indexedAttr idx as) (a : Attribute) :
    ∃ idx', onAttr { idx with filePath := .to a.filePath, objPath := .to a.objPath } a.attrName
        a.attributeValue = some idx' ∧
      Logging p indexedAttr idx' (if Indexed indexedAttr a then as ++ [a] else as) := by
  have hr : Represents p { idx with filePath := .to a.filePath, objPath := .to a.objPath }
      (pathIndexAll as) := h.represents.congr rfl
  obtain ⟨idx', hstep, hfilter, hwritable, hrest⟩ := @Represents.indexingAttr _ p hp _ _ hr a rfl rfl
  refine ⟨idx', hstep, ?_⟩
  simp only [h.filter, h.writable, h.stream, Bool.false_eq_true, if_false, Option.map_some]
    at hfilter hwritable hrest
  by_cases hi : Indexed indexedAttr a
  · rw [if_pos hi] at hrest ⊢
    refine ⟨?_, hfilter, ?_, hwritable⟩
    · rw [pathIndexAll, List.foldl_append]
      exact hrest.1
    · simp [hrest.2]
  · rw [if_neg hi] at hrest ⊢
    exact ⟨hrest.1, hfilter, hrest.2, hwritable⟩

/-- The run never faults; its log has the records of the attributes it indexed. -/
theorem indexAndLog_logging {p : Nat} (hp : 0 < p) (indexedAttr : List CString)
    (as : List Attribute) : ∃ idx, indexAndLog p indexedAttr as = some idx ∧
      Logging p indexedAttr idx (as.filter fun a => Indexed indexedAttr a) := by
  have hrun := Runs.foldlM_rel (Logging p indexedAttr) _
    (fun bs a => if Indexed indexedAttr a then bs ++ [a] else bs)
    (fun idx bs a h => h.step hp a) as
    { initInMemIndex p with indexedAttr, onDiskFileStream := some [], isReadonlyIndexFile := false }
    [] ⟨(represents_init p).congr rfl, rfl, rfl, rfl⟩
  have hfold : ∀ (bs cs : List Attribute),
      bs.foldl (fun cs a => if Indexed indexedAttr a then cs ++ [a] else cs) cs =
        cs ++ bs.filter fun a => Indexed indexedAttr a := by
    intro bs
    induction bs with
    | nil => intro cs; simp
    | cons a bs ih =>
      intro cs
      by_cases ha : Indexed indexedAttr a <;> simp [ih, ha]
  rwa [hfold, List.nil_append] at hrun

omit [Descent NumKey] in
theorem makeFileObjPair_wild (idx : IndexAnchor) (h : Nat) (objPath : CharPtr) :
    makeFileObjPair idx h .wild objPath = none := by
  have hget : ∀ list, listGetTaggedValue list .wild = none ∨
      listGetTaggedValue list .wild = some none := by
    intro list
    induction list with
    | nil => exact Or.inr rfl
    | cons o list ih =>
      cases o with
      | none => exact ih
      | some tval => cases htag : tval.tag <;> simp [listGetTaggedValue, strcmpIsZero, htag]
  have hinsert : ∀ list, insertTaggedValue list .wild = none := by
    intro list
    cases hget list with
    | inl hnone => simp [insertTaggedValue, hnone]
    | inr hmiss => simp [insertTaggedValue, hmiss, listCreateTaggedValue]
  simp [makeFileObjPair, insertFilePath, hinsert]

/-- The first value of the attribute makes the insertion of its file path fault. -/
theorem createInMemIndexForAttr_wild (idx : IndexAnchor) (name : CString) {value : AttrValue}
    (objPath : CharPtr) (hv : stored value ≠ 0) :
    createInMemIndexForAttr idx ⟨name, value, .wild, objPath⟩ = none := by
  have hnum : ∀ h attrVal n s, n ≠ 0 → indexingNumeric h attrVal n .wild objPath s = none := by
    intro h attrVal n s hn
    obtain ⟨m, rfl⟩ := Nat.exists_eq_succ_of_ne_zero hn
    simp [indexingNumeric, List.range_succ_eq_map, makeFileObjPair_wild]
  have htype : ∀ h s, indexingByType h ⟨name, value, .wild, objPath⟩ s = none := by
    intro h s
    cases value with
    | unknown n => exact absurd rfl hv
    | integer vals beyond => exact hnum _ _ _ _ hv
    | float vals => exact hnum _ _ _ _ hv
    | string vals =>
      cases vals with
      | nil => exact absurd rfl hv
      | cons val vals => simp [indexingByType, indexingString, makeFileObjPair_wild]
  unfold createInMemIndexForAttr
  cases hp : idx.partitions[djb2Hash name % idx.parallelism]? with
  | none => simp [hp]
  | some part => cases hs : AssocMap.search part.rootArt name <;> simp [hp, hs, htype]

def Indeterminate.wild : Indeterminate := ⟨.wild, .wild, none, fun _ => 0⟩

omit [Descent NumKey] in
theorem stored_recordValue {ir : IndexRecord} {junk : Indeterminate} {value : AttrValue}
    (ht : ir.type ≠ .unknown) (h : recordValue ir junk = some value) : stored value ≠ 0 := by
  unfold recordValue at h
  cases htype : ir.type with
  | unknown => exact absurd htype ht
  | integer =>
    cases hd : ir.data <;> simp only [htype, hd] at h <;> cases h
    simp [stored]
  | float =>
    cases hd : ir.data <;> simp only [htype, hd] at h <;> cases h
    simp [stored]
  | string =>
    simp only [htype, Option.map_eq_some_iff] at h
    obtain ⟨r, -, rfl⟩ := h
    simp [stored]

/-- No record of a typed value is replayed on such memory. -/
theorem replay_wild {idx : IndexAnchor} (hi : idx.indexedAttr = [])
    (hr : idx.isReadonlyIndexFile = true) (ir : IndexRecord) (ht : ir.type ≠ .unknown) :
    ((convertIndexRecordToInMemParameters idx ir .wild).bind fun s => indexingAttr s.1 s.2) = none := by
  cases hv : recordValue ir .wild with
  | none => simp [convertIndexRecordToInMemParameters, hv]
  | some value =>
    cases hn : ir.name with
    | null => simp [convertIndexRecordToInMemParameters, hv, hn]
    | wild => simp [convertIndexRecordToInMemParameters, hv, hn]
    | «to» name =>
      have hc := fun idx => createInMemIndexForAttr_wild idx name .wild (stored_recordValue ht hv)
      have hlog : ∀ idx' : IndexAnchor, idx'.isReadonlyIndexFile = true → ∀ attr,
          logAttr idx' attr = some idx' := by
        intro idx' h attr
        cases ho : idx'.onDiskFileStream <;> simp [logAttr, ho, h]
      have hconv : convertIndexRecordToInMemParameters idx ir .wild =
          some ({ idx with filePath := ir.filePath, objPath := ir.objectPath },
            ⟨name, value, .wild, .wild⟩) := by
        simp only [convertIndexRecordToInMemParameters, hv, hn, Option.bind_eq_bind, Option.bind_some]
        rfl
      simp [hconv, indexingAttr, hi, hlog, hr, hc]

omit [Descent NumKey] in
/-- A log of attributes, some of which has values, starts with a record. -/
theorem exists_first_record {as : List Attribute} {a : Attribute} (ha : a ∈ as)
    (hv : stored a.attributeValue ≠ 0) : ∃ ir fields rest, ir.type ≠ .unknown ∧
      appendIndexRecord ir = some fields ∧ as.flatMap aofFields = fields ++ rest := by
  have hfields : as.flatMap aofFields =
      (as.flatMap fun a => aofRecords a.toMeta (.to a.filePath) (.to a.objPath)).flatMap
        fun ir => (appendIndexRecord ir).getD [] := by
    rw [List.flatMap_assoc]
    rfl
  cases hrec : as.flatMap fun a => aofRecords a.toMeta (.to a.filePath) (.to a.objPath) with
  | nil =>
    have hnil := List.flatMap_eq_nil_iff.mp hrec a ha
    rw [← length_aofRecords a (.to a.filePath) (.to a.objPath), hnil] at hv
    exact absurd rfl hv
  | cons ir irs =>
    have hmem : ir ∈ as.flatMap fun a => aofRecords a.toMeta (.to a.filePath) (.to a.objPath) := by
      simp [hrec]
    obtain ⟨b, -, hb⟩ := List.mem_flatMap.mp hmem
    obtain ⟨ht, fields, hw⟩ := appendIndexRecord_of_mem hb
    refine ⟨ir, fields, irs.flatMap fun ir => (appendIndexRecord ir).getD [], ht, hw, ?_⟩
    rw [hfields, hrec, List.flatMap_cons, hw, Option.getD_some]

/-- On such memory a log with a record in it cannot be loaded. -/
theorem loadAof_wild {p : Nat} {ir : IndexRecord} {fields rest : List Field} (ht : ir.type ≠ .unknown)
    (hw : appendIndexRecord ir = some fields) :
    loadAof (fun _ => .wild) (fields ++ rest) (initInMemIndex p) = none := by
  have hne : fields ++ rest ≠ [] := by
    intro hnil
    obtain rfl : fields = [] := (List.append_eq_nil_iff.mp hnil).1
    simp [appendIndexRecord, Option.bind_eq_some_iff, miqsAppendType, miqsAppendInt] at hw
  have hread := readIndexRecord_of_delivers hw (delivers_file fields rest false)
  have hreplay := @replay_wild _
    { initInMemIndex p with onDiskFileStream := some (fields ++ rest), isReadonlyIndexFile := true }
    rfl rfl { ir with data := if ir.type = .unknown then .null else ir.data } ht
  simp only [loadAof, if_neg hne, loadAofLoop, hread, Option.bind_eq_bind]
  cases hc : convertIndexRecordToInMemParameters _ _ _ with
  | none => rfl
  | some s =>
    rw [hc, Option.bind_some] at hreplay
    simp only [Option.bind_some, hreplay, Option.bind_none]

/-- Without values nothing is added to a leaf that has no pairs: a pair in it
would be the one given, but any other could have been given as well. -/
theorem pairs_linkValue_of_stored_eq_zero {value : AttrValue} (hv : stored value = 0)
    {x y : SearchRstEntry} (hxy : x ≠ y) {o : Option (AttrLeaf SearchRstEntry)}
    (ho : ∀ old, o = some old → old.pairs = []) {leaf : AttrLeaf SearchRstEntry}
    (hl : linkValue x value o = some leaf) : leaf.pairs = [] := by
  apply List.eq_nil_iff_forall_not_mem.mpr
  intro z hz
  have hgiven : ∀ w, linkValue w value o = some leaf → z = w := by
    intro w hw
    cases mem_pairs_linkValue hw hz with
    | inl hold =>
      obtain ⟨old, hold, hmem⟩ := hold
      simp [ho old hold] at hmem
    | inr heq => exact heq
  have hx := hgiven x hl
  have hy := hgiven y (linkValue_of_stored_eq_zero hv x y o ▸ hl)
  exact hxy (hx.symm.trans hy)

theorem pairs_pathIndexAll_of_stored_eq_zero {as : List Attribute}
    (h : ∀ a ∈ as, stored a.attributeValue = 0) :
    ∀ n leaf, pathIndexAll as n = some leaf → leaf.pairs = [] := by
  apply List.foldlRecOn (motive := fun I : PathIndex => ∀ n leaf, I n = some leaf → leaf.pairs = [])
  · intro n leaf hl
    cases hl
  · intro I hI a ha n leaf hl
    by_cases hn : n = a.attrName
    · subst hn
      rw [PathIndex.step, Function.update_self] at hl
      exact pairs_linkValue_of_stored_eq_zero (y := ⟨.null, .null⟩) (h a ha)
        (by simp [Attribute.entry]) (hI a.attrName) hl
    · rw [PathIndex.step, Function.update_of_ne hn] at hl
      exact hI n leaf hl

theorem answers_of_pairs_eq_nil {idx : IndexAnchor} {I : PathIndex} (hr : Resolves idx I)
    (h : ∀ n leaf, I n = some leaf → leaf.pairs = []) (n : CString) (value : QueryValue) :
    answers idx n value = [] := by
  rw [answers, exactMetadataSearch_eq hr, PathIndex.search]
  cases hn : I n with
  | none => rfl
  | some leaf => exact AttrLeaf.found_of_pairs_eq_nil (h n leaf hn) value

/-- What is replayed is what was indexed, whatever the memory holds that is read
unset, as long as there is nothing to replay: no value was logged. -/
theorem aof_replay_iff {p : Nat} (hp : 0 < p) (indexedAttr : List CString) (as : List Attribute) :
    ∃ idx file, indexAndLog p indexedAttr as = some idx ∧ idx.onDiskFileStream = some file ∧
      ((∀ junk, ∃ count idx', loadAof junk file (initInMemIndex p) = some (count, idx') ∧
        ∀ n value, (answers idx' n value).Perm (answers idx n value)) ↔
      ∀ a ∈ as, Indexed indexedAttr a → stored a.attributeValue = 0) := by
  obtain ⟨idx, hrun, hlog⟩ := indexAndLog_logging hp indexedAttr as
  refine ⟨idx, _, hrun, hlog.stream, ?_⟩
  have hmem : ∀ a, a ∈ as.filter (fun a => Indexed indexedAttr a) ↔
      a ∈ as ∧ Indexed indexedAttr a := by
    intro a
    simp [List.mem_filter]
  generalize as.filter (fun a => Indexed indexedAttr a) = bs at hmem hlog
  constructor
  · intro hsame a ha hi
    by_contra hne
    obtain ⟨ir, fields, rest, ht, hw, hfile⟩ := exists_first_record ((hmem a).mpr ⟨ha, hi⟩) hne
    obtain ⟨count, idx', hload, -⟩ := hsame fun _ => .wild
    rw [hfile, loadAof_wild ht hw] at hload
    cases hload
  · intro hzero junk
    have hempty : bs.flatMap aofFields = [] := by
      apply List.flatMap_eq_nil_iff.mpr
      intro a ha
      have hlen := length_aofRecords a (.to a.filePath) (.to a.objPath)
      rw [hzero a ((hmem a).mp ha).1 ((hmem a).mp ha).2] at hlen
      rw [aofFields, List.eq_nil_of_length_eq_zero hlen, List.flatMap_nil]
    refine ⟨0, initInMemIndex p, by simp [loadAof, hempty], fun n value => ?_⟩
    rw [answers_of_pairs_eq_nil ((represents_init p).resolves hp) (by simp),
      answers_of_pairs_eq_nil (hlog.represents.resolves hp)]
    apply pairs_pathIndexAll_of_stored_eq_zero
    intro a ha
    exact hzero a ((hmem a).mp ha).1 ((hmem a).mp ha).2

omit [Descent NumKey] in
theorem aof_replay_iff_filtered : 0 < 2 ∧
    (∀ a ∈ [sampleAttribute], Indexed [.ofBytes [120]] a → stored a.attributeValue = 0) ∧
    ∃ idx file, @indexAndLog .oldest 2 [.ofBytes [120]] [sampleAttribute] = some idx ∧
      idx.onDiskFileStream = some file ∧
      ∀ junk, ∃ count idx', @loadAof .oldest junk file (initInMemIndex 2) = some (count, idx') ∧
        ∀ n value, (@answers .oldest idx' n value).Perm (@answers .oldest idx n value) := by
  have hzero : ∀ a ∈ [sampleAttribute], Indexed [.ofBytes [120]] a →
      stored a.attributeValue = 0 := by
    decide
  obtain ⟨idx, file, hrun, hfile, h⟩ :=
    @aof_replay_iff .oldest 2 (by decide) [.ofBytes [120]] [sampleAttribute]
  exact ⟨by decide, hzero, idx, file, hrun, hfile, h.mpr hzero⟩

omit [Descent NumKey] in
/-- One integer is logged. The path fields of the replayed attribute point to some
other string, and the replayed index answers with it. -/
theorem aof_replay_loses_paths : ¬ ∀ junk, ∃ idx file count idx',
    @indexAndLog .oldest 1 [] [sampleAttribute] = some idx ∧ idx.onDiskFileStream = some file ∧
    @loadAof .oldest junk file (initInMemIndex 1) = some (count, idx') ∧
    ∀ n value, (@answers .oldest idx' n value).Perm (@answers .oldest idx n value) := by
  intro h
  obtain ⟨idx, file, count, idx', hrun, hfile, hload, hperm⟩ :=
    h fun _ => ⟨.to (.ofBytes [120]), .to (.ofBytes [120]), none, fun _ => 0⟩
  have heval : (do
      let idx ← @indexAndLog .oldest 1 [] [sampleAttribute]
      let file ← idx.onDiskFileStream
      let (_, idx') ← @loadAof .oldest
        (fun _ => ⟨.to (.ofBytes [120]), .to (.ofBytes [120]), none, fun _ => 0⟩) file
        (initInMemIndex 1)
      some (@answers .oldest idx' sampleAttribute.attrName (.integer 7),
        @answers .oldest idx sampleAttribute.attrName (.integer 7))) =
      some ([⟨.to (.ofBytes [120]), .to (.ofBytes [120])⟩],
        [⟨.to sampleAttribute.filePath, .to sampleAttribute.objPath⟩]) := by
    decide +kernel
  have hp := hperm sampleAttribute.attrName (.integer 7)
  simp only [hrun, hfile, hload, Option.bind_eq_bind, Option.bind_some, Option.some.injEq,
    Prod.mk.injEq] at heval
  rw [heval.1, heval.2] at hp
  exact absurd hp (by decide)

end Miqs.Index
