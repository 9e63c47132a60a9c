import Mathlib.Data.List.Forall2
import Miqs.Hdf5MetaExtractor

/-! The linked lists that a scan leaves behind, as they are found by following `next`. -/
namespace Miqs.Hdf5
open Miqs.CData
variable {α σ : Type}

def follow (nodes : List (ListNode α)) : Nat → Option Nat → Option (List α)
  | _, none => some []
  | 0, some _ => none
  | fuel + 1, some pos => do
    let node ← nodes[pos]?
    let rest ← follow nodes fuel node.next
    some (node.item :: rest)

def walked (nodes : List (ListNode α)) : Option (List α) :=
  follow nodes nodes.length (if nodes = [] then none else some 0)

structure Chained (nodes : List (ListNode α)) : Prop where
  next_eq : ∀ i node, nodes[i]? = some node →
    node.next = if i + 1 < nodes.length then some (i + 1) else none
  tail_eq : ∀ node, nodes[0]? = some node →
    node.tail = if 1 < nodes.length then some (nodes.length - 1) else none

theorem chained_nil : Chained ([] : List (ListNode α)) := ⟨by simp, by simp⟩

/-- In a chained list the new node is linked to the last one, which is the head itself in a
list of one. -/
theorem appendObject_eq {nodes : List (ListNode α)} (h : Chained nodes) (hne : nodes ≠ []) (item : α) :
    appendObject nodes item =
      ((nodes.modify (nodes.length - 1) fun n => { n with next := some nodes.length }).modify 0
        fun n => { n with tail := some nodes.length }) ++
      [{ ListNode.unlinked item with head := some 0 }] := by
  cases nodes with
  | nil => exact absurd rfl hne
  | cons head nodes =>
    have htail := h.tail_eq head rfl
    rw [appendObject]
    by_cases hlen : 1 < (head :: nodes).length
    · rw [if_pos hlen] at htail
      simp only [htail]
    · obtain rfl : nodes = [] := by
        rw [List.length_cons] at hlen
        exact List.length_eq_zero_iff.mp (by omega)
      rw [if_neg hlen] at htail
      simp only [htail]
      rfl

theorem appendObject_chained {nodes : List (ListNode α)} (h : Chained nodes) (item : α) :
    Chained (appendObject nodes item) := by
  by_cases hne : nodes = []
  · subst hne
    refine ⟨?_, ?_⟩
    · intro i node hi
      obtain ⟨hlt, rfl⟩ := List.getElem?_eq_some_iff.mp hi
      obtain rfl : i = 0 := by simpa [appendObject] using hlt
      rfl
    · intro node hnode
      obtain rfl := Option.some.inj hnode
      rfl
  · have hpos : 0 < nodes.length := List.length_pos_of_ne_nil hne
    rw [appendObject_eq h hne]
    constructor
    · intro i node hi
      simp only [List.length_append, List.length_modify, List.length_singleton]
      rcases Nat.lt_or_ge i nodes.length with hlt | hge
      · rw [List.getElem?_append_left (by simpa using hlt), List.getElem?_modify, List.getElem?_modify,
          List.getElem?_eq_getElem hlt] at hi
        have hnext := h.next_eq i nodes[i] (List.getElem?_eq_getElem hlt)
        have hnode : node.next = if nodes.length - 1 = i then some nodes.length else nodes[i].next := by
          simp only [Option.map_eq_map, Option.map_some, Option.some.injEq] at hi
          rw [← hi]
          split_ifs <;> rfl
        rw [hnode, if_pos (by omega : i + 1 < nodes.length + 1)]
        by_cases hlast : nodes.length - 1 = i
        · rw [if_pos hlast]
          exact congrArg some (by omega)
        · rw [if_neg hlast, hnext, if_pos (by omega)]
      · rw [List.getElem?_append_right (by simpa using hge)] at hi
        obtain ⟨hlt, rfl⟩ := List.getElem?_eq_some_iff.mp hi
        simp only [List.length_modify, List.length_singleton] at hlt
        simp [ListNode.unlinked]
        omega
    · intro node hnode
      rw [List.getElem?_append_left (by simpa using hpos), List.getElem?_modify,
        List.getElem?_eq_getElem (by simpa using hpos)] at hnode
      simp only [if_true, Option.map_eq_map, Option.map_some, Option.some.injEq] at hnode
      subst hnode
      simp [hpos]

theorem items_appendObject (nodes : List (ListNode α)) (item : α) :
    (appendObject nodes item).map ListNode.item = nodes.map ListNode.item ++ [item] := by
  have hmodify : ∀ (l : List (ListNode α)) (i : Nat) (f : ListNode α → ListNode α),
      (∀ n, (f n).item = n.item) → (l.modify i f).map ListNode.item = l.map ListNode.item := by
    intro l i f hf
    induction l generalizing i with
    | nil => simp
    | cons n l ih => cases i <;> simp [hf, ih]
  cases nodes with
  | nil => rfl
  | cons head nodes =>
    rw [appendObject]
    cases head.tail with
    | none => simp [ListNode.unlinked]
    | some tail =>
      dsimp only
      rw [List.map_append, hmodify, hmodify]
      · rfl
      · exact fun _ => rfl
      · exact fun _ => rfl

theorem follow_chained {nodes : List (ListNode α)} (h : Chained nodes) (fuel i : Nat)
    (hfuel : nodes.length - i ≤ fuel) :
    follow nodes fuel (if i < nodes.length then some i else none) =
      some ((nodes.drop i).map ListNode.item) := by
  induction fuel generalizing i with
  | zero =>
    have hout : ¬ i < nodes.length := by omega
    rw [if_neg hout, List.drop_of_length_le (by omega)]
    rfl
  | succ fuel ih =>
    by_cases hlt : i < nodes.length
    · have hget := List.getElem?_eq_getElem hlt
      rw [if_pos hlt, follow, hget, List.drop_eq_getElem_cons hlt]
      simp only [Option.bind_eq_bind, Option.bind_some, h.next_eq i _ hget, ih (i + 1) (by omega)]
      rfl
    · rw [if_neg hlt, List.drop_of_length_le (by omega)]
      rfl

/-- Following a chained list finds every item, in order. -/
theorem walked_chained {nodes : List (ListNode α)} (h : Chained nodes) :
    walked nodes = some (nodes.map ListNode.item) := by
  have hfollow := follow_chained h nodes.length 0 (by omega)
  rw [List.drop_zero] at hfollow
  rw [walked, ← hfollow]
  cases nodes <;> simp

def attributeChain : List α → List (ListNode α)
  | [] => []
  | [item] => [.unlinked item]
  | item :: next :: rest =>
    ⟨item, some (rest.length + 1), none, some (rest.length + 1)⟩ ::
      (next :: rest).map fun x => { ListNode.unlinked x with head := some 0 }

theorem appendAttribute_chain (items : List α) (item : α) :
    appendAttribute (attributeChain items) item = attributeChain (items ++ [item]) := by
  match items with
  | [] => rfl
  | [_] => rfl
  | x :: y :: rest => simp [attributeChain, appendAttribute]

/-- Following the list of attributes finds the first and the last one. -/
theorem walked_attributeChain (x y : α) (rest : List α) :
    walked (attributeChain (x :: y :: rest)) = some [x, (y :: rest).getLast (by simp)] := by
  have hlast : (attributeChain (x :: y :: rest))[rest.length + 1]? =
      some { ListNode.unlinked ((y :: rest).getLast (by simp)) with head := some 0 } := by
    rw [attributeChain, List.getElem?_cons_succ, List.getElem?_map, List.getLast_eq_getElem,
      List.getElem?_eq_getElem (by simp)]
    simp
  have hlen : (attributeChain (x :: y :: rest)).length = rest.length + 2 := by
    simp [attributeChain]
  have hend : follow (attributeChain (x :: y :: rest)) (rest.length + 1) (some (rest.length + 1)) =
      some [(y :: rest).getLast (by simp)] := by
    rw [follow, hlast]
    simp [ListNode.unlinked, follow]
  rw [walked, hlen, if_neg (by simp [attributeChain]), follow]
  change (follow _ (rest.length + 1) (some (rest.length + 1))).bind _ = _
  rw [hend]
  rfl

/-- No more than two attributes are ever found. -/
theorem walked_attributeChain_length (items : List α) :
    ∃ found, walked (attributeChain items) = some found ∧ found.length = min 2 items.length := by
  match items with
  | [] => exact ⟨[], rfl, rfl⟩
  | [x] => exact ⟨[x], rfl, rfl⟩
  | x :: y :: rest => exact ⟨_, walked_attributeChain x y rest, by simp⟩

def visitedObjects (scans : List (H5File × Bool)) : List H5Object :=
  scans.flatMap fun (file, isVisitLink) => file.objects ++ if isVisitLink then file.links else []

def scanAll (scans : List (H5File × Bool)) (metaColl : MetadataCollector σ) :
    Option (MetadataCollector σ) :=
  scans.foldlM (fun metaColl scan => scanHdf5 scan.1 metaColl scan.2) metaColl

theorem scanAll_eq (scans : List (H5File × Bool)) (metaColl : MetadataCollector σ) :
    scanAll scans metaColl = (visitedObjects scans).foldlM opFunc metaColl := by
  induction scans generalizing metaColl with
  | nil => rfl
  | cons scan scans ih =>
    obtain ⟨file, isVisitLink⟩ := scan
    rw [visitedObjects, List.flatMap_cons, List.foldlM_append, scanAll, List.foldlM_cons]
    have hscan : scanHdf5 file metaColl isVisitLink =
        (file.objects ++ if isVisitLink then file.links else []).foldlM opFunc metaColl := by
      rw [scanHdf5, List.foldlM_append]
      cases isVisitLink with
      | true => rfl
      | false => cases file.objects.foldlM opFunc metaColl <;> rfl
    simp only [hscan]
    exact congrArg _ (funext ih)

structure CallbacksReturn (metaColl : MetadataCollector σ) : Prop where
  onObj : ∀ f ∈ metaColl.onObj, ∀ opdata mdo, f opdata mdo ≠ none
  onAttr : ∀ f ∈ metaColl.onAttr, ∀ opdata attr, f opdata attr ≠ none

structure CollectedAs (mdo : DataObject) (obj : H5Object) : Prop where
  objName_eq : mdo.objName = obj.name
  objType_eq : mdo.objType = getMiqsTypeFromH5 obj.type
  attrs : ∃ attrs, walked mdo.attrLinkedList = some attrs ∧
    attrs.map (fun a => (a.attrName, a.attributeValue)) = obj.attrs.map fun a => (a.name, a.value)
  numAttrs_eq : mdo.numAttrs = obj.attrs.length

structure ListsComplete (metaColl : MetadataCollector σ) (visited : List H5Object) : Prop where
  objects : ∃ objs, walked metaColl.objectLinkedList = some objs ∧ List.Forall₂ CollectedAs objs visited
  numObjs_eq : metaColl.numObjs = visited.length

structure Collected (mdo : DataObject) (obj : H5Object) : Prop where
  objName_eq : mdo.objName = obj.name
  objType_eq : mdo.objType = getMiqsTypeFromH5 obj.type
  chain : ∃ items, items.length = obj.attrs.length ∧ mdo.attrLinkedList = attributeChain items
  numAttrs_eq : mdo.numAttrs = 2 * obj.attrs.length

theorem attrInfo_step {onAttr : Option (σ → MetaAttribute → Option (σ × MetaAttribute))}
    (hret : ∀ f ∈ onAttr, ∀ opdata attr, f opdata attr ≠ none) (opdata : σ) (mdo : DataObject)
    (attr : H5Attribute) : ∃ opdata' currAttr,
      attrInfo onAttr (opdata, mdo) attr = some (opdata', { mdo with
        attrLinkedList := appendAttribute mdo.attrLinkedList currAttr
        numAttrs := mdo.numAttrs + 1 }) := by
  cases onAttr with
  | none => exact ⟨_, _, rfl⟩
  | some f =>
    obtain ⟨out, hout⟩ := Option.ne_none_iff_exists'.mp
      (hret f rfl opdata ⟨attr.name, attr.value, .null, .null⟩)
    refine ⟨out.1, out.2, ?_⟩
    simp only [attrInfo, hout]
    rfl

theorem attrInfo_run {onAttr : Option (σ → MetaAttribute → Option (σ × MetaAttribute))}
    (hret : ∀ f ∈ onAttr, ∀ opdata attr, f opdata attr ≠ none) (attrs : List H5Attribute) (opdata : σ)
    (mdo : DataObject) (items : List MetaAttribute) (hchain : mdo.attrLinkedList = attributeChain items) :
    ∃ opdata' mdo' items', attrs.foldlM (attrInfo onAttr) (opdata, mdo) = some (opdata', mdo') ∧
      mdo'.objName = mdo.objName ∧ mdo'.objType = mdo.objType ∧
      mdo'.attrLinkedList = attributeChain (items ++ items') ∧ items'.length = attrs.length ∧
      mdo'.numAttrs = mdo.numAttrs + attrs.length := by
  induction attrs generalizing opdata mdo items with
  | nil => exact ⟨opdata, mdo, [], rfl, rfl, rfl, by simpa using hchain, rfl, rfl⟩
  | cons attr attrs ih =>
    obtain ⟨opdata₁, currAttr, hstep⟩ := attrInfo_step hret opdata mdo attr
    obtain ⟨opdata', mdo', items', hrun, hname, htype, hlist, hlen, hnum⟩ := ih opdata₁
      { mdo with
        attrLinkedList := appendAttribute mdo.attrLinkedList currAttr
        numAttrs := mdo.numAttrs + 1 } (items ++ [currAttr])
      (by simp only [hchain, appendAttribute_chain])
    refine ⟨opdata', mdo', currAttr :: items', ?_, hname, htype, ?_, ?_, ?_⟩
    · rw [List.foldlM_cons, hstep]
      exact hrun
    · rw [hlist, List.append_assoc]
      rfl
    · rw [List.length_cons, hlen, List.length_cons]
    · simp only [hnum, List.length_cons]
      omega

/-- What a visited object adds to the collector. -/
theorem opFunc_run {metaColl : MetadataCollector σ} (hret : CallbacksReturn metaColl) (obj : H5Object) :
    ∃ metaColl' mdo, opFunc metaColl obj = some metaColl' ∧ Collected mdo obj ∧
      metaColl'.objectLinkedList = appendObject metaColl.objectLinkedList mdo ∧
      metaColl'.numObjs = metaColl.numObjs + 1 ∧ CallbacksReturn metaColl' := by
  obtain ⟨opdata', mdo, items, hrun, hname, htype, hlist, hlen, hnum⟩ := attrInfo_run hret.onAttr
    obj.attrs metaColl.opdata ⟨obj.name, getMiqsTypeFromH5 obj.type, obj.attrs.length, []⟩ [] rfl
  -- with no attribute the fold is empty
  have hiter : (if obj.attrs.length > 0 then
      obj.attrs.foldlM (attrInfo metaColl.onAttr)
        (metaColl.opdata, ⟨obj.name, getMiqsTypeFromH5 obj.type, obj.attrs.length, []⟩)
      else some (metaColl.opdata, ⟨obj.name, getMiqsTypeFromH5 obj.type, obj.attrs.length, []⟩)) =
      some (opdata', mdo) := by
    split_ifs with hpos
    · exact hrun
    · obtain hnil : obj.attrs = [] := List.length_eq_zero_iff.mp (by omega)
      rw [hnil] at hrun ⊢
      exact hrun
  have hcollected : Collected mdo obj := by
    refine ⟨hname, htype, ⟨items, hlen, by simpa using hlist⟩, ?_⟩
    simp only [hnum]
    omega
  obtain ⟨opdata₂, hstep⟩ : ∃ opdata₂, opFunc metaColl obj = some { metaColl with
      totalNumAttrs := metaColl.totalNumAttrs + obj.attrs.length
      objectLinkedList := appendObject metaColl.objectLinkedList mdo
      numObjs := metaColl.numObjs + 1
      opdata := opdata₂ } := by
    cases hon : metaColl.onObj with
    | none =>
      refine ⟨opdata', ?_⟩
      simp only [opFunc, hiter, hon]
      rfl
    | some f =>
      obtain ⟨opdata₂, hobj⟩ := Option.ne_none_iff_exists'.mp (hret.onObj f hon opdata' mdo)
      refine ⟨opdata₂, ?_⟩
      simp only [opFunc, hiter, hon, Option.bind_eq_bind, Option.bind_some, hobj]
  exact ⟨_, mdo, hstep, hcollected, rfl, rfl, ⟨hret.onObj, hret.onAttr⟩⟩

structure Holds (metaColl : MetadataCollector σ) (visited : List H5Object) : Prop where
  chained : Chained metaColl.objectLinkedList
  collected : List.Forall₂ Collected (metaColl.objectLinkedList.map ListNode.item) visited
  numObjs_eq : metaColl.numObjs = visited.length
  callbacks : CallbacksReturn metaColl

theorem Holds.run {metaColl : MetadataCollector σ} {visited : List H5Object} (h : Holds metaColl visited)
    (objs : List H5Object) :
    ∃ metaColl', objs.foldlM opFunc metaColl = some metaColl' ∧ Holds metaColl' (visited ++ objs) := by
  induction objs generalizing metaColl visited with
  | nil => exact ⟨metaColl, rfl, by simpa using h⟩
  | cons obj objs ih =>
    obtain ⟨metaColl₁, mdo, hstep, hcoll, hlist, hnum, hret⟩ := opFunc_run h.callbacks obj
    have hholds : Holds metaColl₁ (visited ++ [obj]) := by
      refine ⟨?_, ?_, ?_, hret⟩
      · rw [hlist]
        exact appendObject_chained h.chained mdo
      · rw [hlist, items_appendObject]
        exact List.rel_append h.collected (.cons hcoll .nil)
      · rw [hnum, h.numObjs_eq, List.length_append, List.length_singleton]
    obtain ⟨metaColl', hrun, hholds'⟩ := ih hholds
    refine ⟨metaColl', ?_, by simpa using hholds'⟩
    rw [List.foldlM_cons, hstep]
    exact hrun

theorem collectedAs_iff {mdo : DataObject} {obj : H5Object} (h : Collected mdo obj) :
    CollectedAs mdo obj ↔ obj.attrs = [] := by
  constructor
  · intro hc
    have hnum := h.numAttrs_eq.symm.trans hc.numAttrs_eq
    exact List.length_eq_zero_iff.mp (by omega)
  · intro hnil
    obtain ⟨items, hlen, hlist⟩ := h.chain
    rw [hnil, List.length_nil, List.length_eq_zero_iff] at hlen
    refine ⟨h.objName_eq, h.objType_eq, ⟨[], ?_, ?_⟩, ?_⟩
    · rw [hlist, hlen]
      rfl
    · rw [hnil]
      rfl
    · rw [h.numAttrs_eq, hnil]
      rfl

theorem forall₂_iff_of_rel {β : Type} {R P : α → β → Prop} {Q : β → Prop} {as : List α} {bs : List β}
    (h : List.Forall₂ R as bs) (hPQ : ∀ a b, R a b → (P a b ↔ Q b)) :
    List.Forall₂ P as bs ↔ ∀ b ∈ bs, Q b := by
  induction h with
  | nil => simp
  | @cons a b as bs hab _ ih => rw [List.forall₂_cons, List.forall_mem_cons, ih, hPQ a b hab]

/-- The scans of any files, with a new collector whose callbacks return: the list of objects
is complete, the attributes of each object are counted twice and at most two are found, so
that the whole is complete exactly when no object has an attribute. -/
theorem lists_complete_iff (scans : List (H5File × Bool)) (opdata : σ)
    (onObj : Option (σ → DataObject → Option σ))
    (onAttr : Option (σ → MetaAttribute → Option (σ × MetaAttribute)))
    (hret : CallbacksReturn (initMetadataCollector 0 opdata [] onObj onAttr)) :
    ∃ metaColl, scanAll scans (initMetadataCollector 0 opdata [] onObj onAttr) = some metaColl ∧
      walked metaColl.objectLinkedList = some (metaColl.objectLinkedList.map ListNode.item) ∧
      metaColl.numObjs = (visitedObjects scans).length ∧
      List.Forall₂ (fun mdo obj => mdo.numAttrs = 2 * obj.attrs.length ∧ ∃ found,
          walked mdo.attrLinkedList = some found ∧ found.length = min 2 obj.attrs.length)
        (metaColl.objectLinkedList.map ListNode.item) (visitedObjects scans) ∧
      (ListsComplete metaColl (visitedObjects scans) ↔ ∀ obj ∈ visitedObjects scans, obj.attrs = []) := by
  have hstart : Holds (initMetadataCollector 0 opdata [] onObj onAttr) [] :=
    ⟨chained_nil, .nil, rfl, hret⟩
  obtain ⟨metaColl, hrun, hholds⟩ := hstart.run (visitedObjects scans)
  rw [List.nil_append] at hholds
  have hwalked := walked_chained hholds.chained
  refine ⟨metaColl, by rw [scanAll_eq, hrun], hwalked, hholds.numObjs_eq, ?_, ?_⟩
  · refine hholds.collected.imp ?_
    intro mdo obj hc
    obtain ⟨items, hlen, hlist⟩ := hc.chain
    obtain ⟨found, hfound, hcount⟩ := walked_attributeChain_length items
    exact ⟨hc.numAttrs_eq, found, by rw [hlist, hfound], by rw [hcount, hlen]⟩
  constructor
  · intro h
    obtain ⟨objs, hobjs, hall⟩ := h.objects
    obtain rfl := Option.some.inj (hwalked.symm.trans hobjs)
    exact (forall₂_iff_of_rel hholds.collected fun _ _ => collectedAs_iff).mp hall
  · intro hnone
    refine ⟨⟨_, hwalked, ?_⟩, hholds.numObjs_eq⟩
    exact (forall₂_iff_of_rel hholds.collected fun _ _ => collectedAs_iff).mpr hnone

def plainFile : H5File where
  path := .ofBytes [102]
  objects := [⟨.ofBytes [46], .group, []⟩, ⟨.ofBytes [100], .dataset, []⟩]
  links := []

theorem lists_complete_plain : CallbacksReturn (initMetadataCollector 0 () [] none none) ∧
    ∃ metaColl, scanAll [(plainFile, false)] (initMetadataCollector 0 () [] none none) = some metaColl ∧
      ListsComplete metaColl plainFile.objects := by
  have hret : CallbacksReturn (initMetadataCollector 0 () [] none none) :=
    ⟨by simp [initMetadataCollector], by simp [initMetadataCollector]⟩
  obtain ⟨metaColl, hrun, -, -, -, hiff⟩ := lists_complete_iff [(plainFile, false)] () none none hret
  refine ⟨hret, metaColl, hrun, hiff.mpr ?_⟩
  simp [visitedObjects, plainFile]

def threeAttributes : H5File where
  path := .ofBytes [102]
  objects := [⟨.ofBytes [46], .group, [⟨.ofBytes [97], .float []⟩, ⟨.ofBytes [98], .float []⟩,
    ⟨.ofBytes [99], .float []⟩]⟩]
  links := []

/-- The second of the three attributes is not found. -/
theorem second_attribute_lost :
    ∃ metaColl, scanAll [(threeAttributes, false)] (initMetadataCollector 0 () [] none none) =
        some metaColl ∧ ¬ ListsComplete metaColl threeAttributes.objects := by
  refine ⟨_, rfl, ?_⟩
  intro h
  obtain ⟨objs, hobjs, hall⟩ := h.objects
  obtain rfl := Option.some.inj hobjs
  obtain ⟨attrs, hattrs, heq⟩ := (List.forall₂_cons.mp hall).1.attrs
  obtain rfl := Option.some.inj hattrs
  exact absurd (congrArg List.length heq) (by decide)

end Miqs.Hdf5
