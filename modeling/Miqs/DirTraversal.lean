import Miqs.FsOps
import Miqs.Unfolding

/-! What a traversal of a directory tree visits. The loop of `collect_dir` is the one over
indices, with the functions for its step and its bound; it runs through the list of entries
in one of the two directions. -/
namespace Miqs.FsOps
open Miqs.CData Miqs.Unfolding
variable {σ : Type}

def descCmp (v last : Int) : Bool := v ≥ last

def ascCmp (v last : Int) : Bool := v ≤ last

def incr (a : Int) : Int := a + 1

def decr (a : Int) : Int := a - 1

def entryAt (namelist : List Dirent) (v : Int) : Option Dirent :=
  if v < 0 then none else namelist[v.toNat]?

def indexLoop (namelist : List Dirent) (topk : Int) (body : Dirent → σ → Option σ)
    (cmpNl : Int → Int → Bool) (vAct : Int → Int) (last : Int) : Nat → Int → Nat → σ → Option σ
  | 0, _, _, _ => none
  | fuel + 1, v, count, s =>
    if cmpNl v last ∧ (if topk > 0 then (count : Int) < topk else True) then do
      let entry ← entryAt namelist v
      indexLoop namelist topk body cmpNl vAct last fuel (vAct v) (count + 1) (← body entry s)
    else some s

def directedLoop (sd : SortingDirection) (namelist : List Dirent) (topk : Int)
    (body : Dirent → σ → Option σ) (s : σ) : Option σ :=
  let n : Int := namelist.length
  match sd with
  | .desc => indexLoop namelist topk body descCmp decr 0 (namelist.length + 1) (n - 1) 0 s
  | .asc => indexLoop namelist topk body ascCmp incr (n - 1) (namelist.length + 1) 0 0 s

def collectDirByIndex (scan : CString → Option (List Dirent)) (sd : SortingDirection) (topk : Int)
    (cb : Callbacks σ) : Nat → CString → σ → Option σ
  | 0, _, _ => none
  | fuel+1, dirPath, s =>
    match scan dirPath with
    | none => some s
    | some namelist =>
      directedLoop sd namelist topk (fun entry s => do
        let s ← callOp cb.preOp s
        let s ← if entry.isDir then do
            let s ← callOn cb.onDir entry dirPath s
            collectDirByIndex scan sd topk cb fuel (subPath dirPath entry) s
          else callOn cb.onFile entry dirPath s
        callOp cb.postOp s) s

theorem indexLoop_asc (namelist : List Dirent) (topk : Int) (body : Dirent → σ → Option σ)
    (fuel i count : Nat) (s : σ) (hi : i ≤ namelist.length) (hfuel : namelist.length - i < fuel) :
    indexLoop namelist topk body ascCmp incr ((namelist.length : Int) - 1) fuel i count s =
      whileLoop topk body count (namelist.drop i) s := by
  induction fuel generalizing i count s with
  | zero => omega
  | succ fuel ih =>
    rcases Nat.lt_or_ge i namelist.length with hlt | hge
    · have hcmp : ascCmp i ((namelist.length : Int) - 1) = true := by
        rw [ascCmp, decide_eq_true_eq]
        omega
      have hentry : entryAt namelist i = some namelist[i] := by
        rw [entryAt, if_neg (by omega), Int.toNat_natCast, List.getElem?_eq_getElem hlt]
      rw [List.drop_eq_getElem_cons hlt, whileLoop]
      simp only [indexLoop, hcmp, true_and, hentry, Option.bind_eq_bind, Option.bind_some]
      refine if_congr Iff.rfl ?_ rfl
      congr 1
      funext s'
      exact ih (i + 1) (count + 1) s' hlt (by omega)
    · have hcmp : ascCmp i ((namelist.length : Int) - 1) = false := by
        rw [ascCmp, decide_eq_false_iff_not]
        omega
      simp [indexLoop, hcmp, List.drop_of_length_le hge, whileLoop]

theorem indexLoop_desc (namelist : List Dirent) (topk : Int) (body : Dirent → σ → Option σ)
    (fuel i count : Nat) (s : σ) (hi : i ≤ namelist.length) (hfuel : i < fuel) :
    indexLoop namelist topk body descCmp decr 0 fuel ((i : Int) - 1) count s =
      whileLoop topk body count (namelist.take i).reverse s := by
  induction fuel generalizing i count s with
  | zero => omega
  | succ fuel ih =>
    cases i with
    | zero => simp [indexLoop, descCmp, whileLoop]
    | succ i =>
      have hv : ((i + 1 : Nat) : Int) - 1 = i := by omega
      have hcmp : descCmp i 0 = true := by
        rw [descCmp, decide_eq_true_eq]
        omega
      have hentry : entryAt namelist i = some namelist[i] := by
        rw [entryAt, if_neg (by omega), Int.toNat_natCast, List.getElem?_eq_getElem hi]
      rw [hv, List.take_succ_eq_append_getElem hi, List.reverse_append, List.reverse_singleton,
        List.singleton_append, whileLoop]
      simp only [indexLoop, hcmp, true_and, hentry, Option.bind_eq_bind, Option.bind_some]
      refine if_congr Iff.rfl ?_ rfl
      congr 1
      funext s'
      exact ih i (count + 1) s' (by omega) (by omega)

theorem directedLoop_eq (sd : SortingDirection) (namelist : List Dirent) (topk : Int)
    (body : Dirent → σ → Option σ) (s : σ) :
    directedLoop sd namelist topk body s = whileLoop topk body 0 (sd.order namelist) s := by
  cases sd with
  | asc => exact indexLoop_asc namelist topk body _ 0 0 s (by omega) (by omega)
  | desc =>
    rw [directedLoop, indexLoop_desc namelist topk body _ namelist.length 0 s (by omega) (by omega),
      List.take_length]
    rfl

/-- Both loops make the same traversal. -/
theorem collectDirByIndex_eq (scan : CString → Option (List Dirent)) (sd : SortingDirection)
    (topk : Int) (cb : Callbacks σ) (fuel : Nat) (dirPath : CString) (s : σ) :
    collectDirByIndex scan sd topk cb fuel dirPath s = collectDir scan sd topk cb fuel dirPath s := by
  induction fuel generalizing dirPath s with
  | zero => rfl
  | succ fuel ih =>
    rw [collectDirByIndex, collectDir]
    cases scan dirPath with
    | none => rfl
    | some namelist => simp only [directedLoop_eq, ih]

inductive Call where
  | preOp
  | onEntry (parents : List Dirent) (entry : Dirent)
  | postOp

def Call.behind (d : Dirent) : Call → Call
  | .preOp => .preOp
  | .onEntry parents entry => .onEntry (d :: parents) entry
  | .postOp => .postOp

def pathAt (next : CString → Dirent → CString) (root : CString) (parents : List Dirent) : CString :=
  parents.foldl next root

def runCall (cb : Callbacks σ) (next : CString → Dirent → CString) (root : CString) (s : σ) :
    Call → Option σ
  | .preOp => callOp cb.preOp s
  | .onEntry parents entry =>
    callOn (if entry.isDir then cb.onDir else cb.onFile) entry (pathAt next root parents) s
  | .postOp => callOp cb.postOp s

def dirPlaces (scan : CString → Option (List Dirent)) (take : List Dirent → List Dirent)
    (next : CString → Dirent → CString) : Places Dirent CString where
  entries dirPath := take ((scan dirPath).getD [])
  sub dirPath entry := if entry.isDir then some (next dirPath entry) else none

def seenPlaces (scan : CString → Option (List Dirent)) (sd : SortingDirection) (topk : Int) :
    Places Dirent CString := dirPlaces scan (selected sd topk) subPath

def callsOf (S : Places Dirent CString) : Nat → CString → List Call
  | 0, _ => []
  | n + 1, dirPath => (S.entries dirPath).flatMap fun entry =>
    .preOp :: .onEntry [] entry :: (match S.sub dirPath entry with
      | none => []
      | some sub => (callsOf S n sub).map (Call.behind entry)) ++ [.postOp]

def entriesOf (calls : List Call) : List (List Dirent × Dirent) :=
  calls.filterMap fun call => match call with
    | .onEntry parents entry => some (parents, entry)
    | _ => none

theorem entriesOf_append (xs ys : List Call) : entriesOf (xs ++ ys) = entriesOf xs ++ entriesOf ys :=
  List.filterMap_append

theorem entriesOf_behind (d : Dirent) (calls : List Call) : entriesOf (calls.map (Call.behind d)) =
    (entriesOf calls).map fun x => (d :: x.1, x.2) := by
  induction calls with
  | nil => rfl
  | cons call calls ih => cases call <;> simp_all [entriesOf, Call.behind]

theorem entriesOf_callsOf (S : Places Dirent CString) (n : Nat) (dirPath : CString) :
    entriesOf (callsOf S n dirPath) = S.walk n dirPath := by
  induction n generalizing dirPath with
  | zero => rfl
  | succ n ih =>
    rw [callsOf, Places.walk]
    induction S.entries dirPath with
    | nil => rfl
    | cons entry rest ihrest =>
      rw [List.flatMap_cons, List.flatMap_cons, entriesOf_append, ihrest, entriesOf_append]
      congr 1
      cases S.sub dirPath entry with
      | none => rfl
      | some sub =>
        change ([], entry) :: entriesOf ((callsOf S n sub).map (Call.behind entry)) ++ [] = _
        rw [entriesOf_behind, ih, List.append_nil]

theorem foldlM_flatMap {α β : Type} (f : α → List β) (g : σ → β → Option σ) (l : List α) (s : σ) :
    (l.flatMap f).foldlM g s = l.foldlM (fun s a => (f a).foldlM g s) s := by
  induction l generalizing s with
  | nil => rfl
  | cons a l ih =>
    rw [List.flatMap_cons, List.foldlM_append, List.foldlM_cons]
    exact congrArg _ (funext ih)

theorem foldlM_congr_mem {α : Type} {f g : σ → α → Option σ} {l : List α}
    (h : ∀ a ∈ l, ∀ s, f s a = g s a) (s : σ) : l.foldlM f s = l.foldlM g s := by
  induction l generalizing s with
  | nil => rfl
  | cons a l ih =>
    rw [List.foldlM_cons, List.foldlM_cons, h a (by simp)]
    exact congrArg _ (funext (ih fun b hb => h b (List.mem_cons_of_mem a hb)))

theorem foldlM_behind (cb : Callbacks σ) (next : CString → Dirent → CString) (root : CString)
    (d : Dirent) (calls : List Call) (s : σ) :
    (calls.map (Call.behind d)).foldlM (runCall cb next root) s =
      calls.foldlM (runCall cb next (next root d)) s := by
  rw [List.foldlM_map]
  congr 1
  funext s call
  cases call <;> rfl

theorem loop_eq_foldlM (sd : SortingDirection) (topk : Int) (body : Dirent → σ → Option σ)
    (namelist : List Dirent) (s : σ) : whileLoop topk body 0 (sd.order namelist) s =
      (selected sd topk namelist).foldlM (fun s e => body e s) s := by
  rw [whileLoop_eq_foldlM, Nat.sub_zero]
  rfl

theorem selected_nil (sd : SortingDirection) (topk : Int) : selected sd topk [] = [] := by
  cases sd <;> simp [selected, SortingDirection.order]

/-- A traversal to a sufficient depth makes its calls one after another. -/
theorem collectDir_eq_calls (scan : CString → Option (List Dirent)) (sd : SortingDirection)
    (topk : Int) (cb : Callbacks σ) {n : Nat} {dirPath : CString}
    (h : (seenPlaces scan sd topk).Within n dirPath) (s : σ) :
    collectDir scan sd topk cb n dirPath s =
      (callsOf (seenPlaces scan sd topk) n dirPath).foldlM (runCall cb subPath dirPath) s := by
  induction n generalizing dirPath s with
  | zero => exact h.elim
  | succ n ih =>
    rw [collectDir, callsOf, foldlM_flatMap]
    cases hscan : scan dirPath with
    | none =>
      have hent : (seenPlaces scan sd topk).entries dirPath = [] := by
        simp [seenPlaces, dirPlaces, hscan, selected_nil]
      rw [hent]
      rfl
    | some namelist =>
      have hent : (seenPlaces scan sd topk).entries dirPath = selected sd topk namelist := by
        simp [seenPlaces, dirPlaces, hscan]
      rw [hent]
      simp only [loop_eq_foldlM]
      refine foldlM_congr_mem (fun entry he s => ?_) s
      cases hdir : entry.isDir with
      | true =>
        have hsub : (seenPlaces scan sd topk).sub dirPath entry = some (subPath dirPath entry) := by
          simp [seenPlaces, dirPlaces, hdir]
        have hrec := ih (h entry (hent ▸ he) _ hsub)
        simp [hsub, foldlM_behind, runCall, hdir, hrec, pathAt]
      | false =>
        have hsub : (seenPlaces scan sd topk).sub dirPath entry = none := by
          simp [seenPlaces, dirPlaces, hdir]
        simp [hsub, runCall, hdir, pathAt]

theorem exists_of_foldlM {α : Type} {f : σ → α → Option σ} {l : List α} {s s' : σ}
    (h : l.foldlM f s = some s') : ∀ a ∈ l, ∃ s₁ s₂, f s₁ a = some s₂ := by
  induction l generalizing s with
  | nil => simp
  | cons b l ih =>
    rw [List.foldlM_cons] at h
    obtain ⟨s₁, hs₁, h⟩ := Option.bind_eq_some_iff.mp h
    intro a ha
    rcases List.mem_cons.mp ha with rfl | ha
    · exact ⟨s, s₁, hs₁⟩
    · exact ih h a ha

/-- A traversal that ends has seen the whole tree. -/
theorem within_of_collectDir {scan : CString → Option (List Dirent)} {sd : SortingDirection}
    {topk : Int} {cb : Callbacks σ} {n : Nat} {dirPath : CString} {s s' : σ}
    (h : collectDir scan sd topk cb n dirPath s = some s') :
    (seenPlaces scan sd topk).Within n dirPath := by
  induction n generalizing dirPath s s' with
  | zero => simp [collectDir] at h
  | succ n ih =>
    intro entry he sub hsub
    rw [collectDir] at h
    cases hscan : scan dirPath with
    | none => simp [seenPlaces, dirPlaces, hscan, selected_nil] at he
    | some namelist =>
      simp only [seenPlaces, dirPlaces, hscan, Option.getD_some] at he hsub
      simp only [hscan, loop_eq_foldlM] at h
      obtain ⟨s₁, s₂, hbody⟩ := exists_of_foldlM h entry he
      split_ifs at hsub with hdir
      obtain rfl := Option.some.inj hsub
      obtain ⟨s₃, -, hbody⟩ := Option.bind_eq_some_iff.mp hbody
      rw [if_pos hdir] at hbody
      obtain ⟨s₄, -, hbody⟩ := Option.bind_eq_some_iff.mp hbody
      obtain ⟨s₅, hrec, -⟩ := Option.bind_eq_some_iff.mp hbody
      exact ih hrec

def treePlaces (scan : CString → Option (List Dirent)) : Places Dirent CString :=
  dirPlaces scan id fun dirPath entry => joinPath dirPath entry.dName

def DistinctNames (fs : FileSystem) : Prop :=
  ∀ dirPath entries, fs dirPath = some entries → (entries.map Dirent.dName).Nodup

def PathsFit (scan : CString → Option (List Dirent)) (root : CString) : Prop :=
  ∀ dirPath, (treePlaces scan).Passed root dirPath → dirPath.bytes.length < 1023

theorem DistinctNames.scandir {fs : FileSystem} (h : DistinctNames fs) (filter : Dirent → Bool)
    (cmp : Dirent → Dirent → Bool) (dirPath : CString) :
    ((FsOps.scandir fs filter cmp dirPath).getD []).Nodup := by
  rw [FsOps.scandir]
  cases hfs : fs dirPath with
  | none => exact List.nodup_nil
  | some entries =>
    have hperm := List.perm_insertionSort (fun a b => cmp a b = true) (entries.filter filter)
    exact (hperm.nodup_iff.mpr ((h dirPath entries hfs).of_map _ |>.filter _))

theorem nodup_seenPlaces {scan : CString → Option (List Dirent)}
    (h : ∀ dirPath, ((scan dirPath).getD []).Nodup) (sd : SortingDirection) (topk : Int)
    (dirPath : CString) : ((seenPlaces scan sd topk).entries dirPath).Nodup :=
  ((order_perm sd _).nodup_iff.mpr (h dirPath)).sublist (selected_sublist sd topk _)

/-- Where the paths fit, the traversal sees a part of the tree. -/
theorem part_seenPlaces {scan : CString → Option (List Dirent)} {root : CString}
    (hfit : PathsFit scan root) (sd : SortingDirection) (topk : Int) :
    (seenPlaces scan sd topk).Part (treePlaces scan) root := by
  intro dirPath hp entry he
  have hin : entry ∈ (treePlaces scan).entries dirPath :=
    (order_perm sd _).mem_iff.mp ((selected_sublist sd topk _).subset he)
  refine ⟨hin, ?_⟩
  simp only [treePlaces, seenPlaces, dirPlaces]
  split_ifs with hdir
  · have hlen := hfit (joinPath dirPath entry.dName)
      (hp.sub hin (by simp only [treePlaces, dirPlaces, if_pos hdir]))
    congr 1
    exact CString.ext (List.take_of_length_le (by omega))
  · rfl

/-- Without a limit it sees all of it. -/
theorem subset_seenPlaces (scan : CString → Option (List Dirent)) (sd : SortingDirection) {topk : Int}
    (htop : topk ≤ 0) (dirPath : CString) :
    (treePlaces scan).entries dirPath ⊆ (seenPlaces scan sd topk).entries dirPath := by
  intro entry he
  change entry ∈ selected sd topk ((scan dirPath).getD [])
  rw [selected, if_neg (by omega), (order_perm sd _).mem_iff]
  exact he

theorem pathAt_eq {scan : CString → Option (List Dirent)} {root dirPath : CString}
    (hfit : PathsFit scan root) (hp : (treePlaces scan).Passed root dirPath) {parents : List Dirent}
    {entry : Dirent} (h : (treePlaces scan).Reached dirPath parents entry) :
    pathAt subPath dirPath parents =
      pathAt (fun dirPath entry => joinPath dirPath entry.dName) dirPath parents := by
  induction parents generalizing dirPath with
  | nil => rfl
  | cons d parents ih =>
    cases h with
    | @behind _ sub _ _ _ hd hsub h =>
      have hp' := hp.sub hd hsub
      have hlen := hfit sub hp'
      simp only [treePlaces, dirPlaces] at hsub
      split_ifs at hsub with hdir
      obtain rfl := Option.some.inj hsub
      have hcut : subPath dirPath d = joinPath dirPath d.dName :=
        CString.ext (List.take_of_length_le (by omega))
      change pathAt subPath (subPath dirPath d) parents = _
      rw [hcut]
      exact ih hp' h

def filesOf (calls : List Call) : List (List Dirent × Dirent) :=
  (entriesOf calls).filter fun x => !x.2.isDir

/-- In a finite directory tree whose paths fit the buffer, a traversal without a limit makes
one call for each accepted entry, file or directory; the calls for files in one direction
come in the reverse order of those in the other. -/
theorem traversal_complete (fs : FileSystem) (hfs : DistinctNames fs) (filter : Dirent → Bool)
    (cmp : Dirent → Dirent → Bool) (root : CString)
    (hfin : ∃ n, (treePlaces (scandir fs filter cmp)).Within n root)
    (hfit : PathsFit (scandir fs filter cmp) root) (topk : Int) (htop : topk ≤ 0) :
    ∃ fuel, ∃ calls : SortingDirection → List Call,
      (∀ (sd : SortingDirection) (σ : Type) (cb : Callbacks σ) (s : σ),
        collectDirByIndex (scandir fs filter cmp) sd topk cb fuel root s =
          (calls sd).foldlM (runCall cb (fun dirPath entry => joinPath dirPath entry.dName) root) s) ∧
      (∀ sd, (entriesOf (calls sd)).Nodup ∧ ∀ parents entry, (parents, entry) ∈ entriesOf (calls sd) ↔
        (treePlaces (scandir fs filter cmp)).Reached root parents entry) ∧
      filesOf (calls .desc) = (filesOf (calls .asc)).reverse := by
  obtain ⟨n, hn⟩ := hfin
  have hpart := fun sd => part_seenPlaces hfit sd topk
  have hwithin := fun sd => (hpart sd).within .root hn
  have hmem : ∀ sd parents entry,
      (parents, entry) ∈ entriesOf (callsOf (seenPlaces (scandir fs filter cmp) sd topk) n root) ↔
        (treePlaces (scandir fs filter cmp)).Reached root parents entry := by
    intro sd parents entry
    rw [entriesOf_callsOf, Places.mem_walk (hwithin sd)]
    exact (hpart sd).reached_iff (fun b _ => subset_seenPlaces _ sd htop b) .root parents entry
  refine ⟨n, fun sd => callsOf (seenPlaces (scandir fs filter cmp) sd topk) n root, ?_, ?_, ?_⟩
  · intro sd σ cb s
    rw [collectDirByIndex_eq, collectDir_eq_calls _ _ _ _ (hwithin sd)]
    refine foldlM_congr_mem ?_ s
    intro call hcall s
    cases call with
    | preOp => rfl
    | postOp => rfl
    | onEntry parents entry =>
      have hr := (hmem sd parents entry).mp (List.mem_filterMap.mpr ⟨_, hcall, rfl⟩)
      rw [runCall, runCall, pathAt_eq hfit .root hr]
  · intro sd
    refine ⟨?_, hmem sd⟩
    rw [entriesOf_callsOf]
    exact Places.nodup_walk (nodup_seenPlaces (hfs.scandir filter cmp) sd topk) n root
  · have hent : ∀ dirPath, (seenPlaces (scandir fs filter cmp) .desc topk).entries dirPath =
        ((seenPlaces (scandir fs filter cmp) .asc topk).entries dirPath).reverse := by
      intro dirPath
      simp [seenPlaces, dirPlaces, selected, if_neg (Int.not_lt.mpr htop), SortingDirection.order]
    rw [filesOf, filesOf, entriesOf_callsOf, entriesOf_callsOf]
    refine Places.walk_reverse hent rfl (p := fun e : Dirent => !e.isDir) ?_ n root
    intro dirPath entry sub hsub
    simp only [seenPlaces, dirPlaces] at hsub
    split_ifs at hsub with hdir
    simp [hdir]

def treeFiles (scan : CString → Option (List Dirent)) (root : CString) : Set (List Dirent × Dirent) :=
  {x | (treePlaces scan).Reached root x.1 x.2 ∧ !x.2.isDir}

/-- The files all of whose way, along the paths as they are cut, is among the first `topk`
entries of each directory. -/
def firstFiles (scan : CString → Option (List Dirent)) (sd : SortingDirection) (topk : Int)
    (root : CString) : Set (List Dirent × Dirent) :=
  {x | (seenPlaces scan sd topk).Reached root x.1 x.2 ∧ !x.2.isDir}

def countFiles : Callbacks Nat := fileCallbacks fun _ _ n => some (n + 1)

def TopkBounds (scan : CString → Option (List Dirent)) (sd : SortingDirection) (topk : Int)
    (root : CString) : Prop :=
  ∃ fuel n, collectDirByIndex scan sd topk countFiles fuel root 0 = some n ∧ (n : Int) ≤ topk ∧
    (topk ≤ (treeFiles scan root).ncard → (n : Int) = topk)

theorem foldlM_countFiles (next : CString → Dirent → CString) (root : CString) (calls : List Call)
    (n : Nat) : calls.foldlM (runCall countFiles next root) n = some (n + (filesOf calls).length) := by
  induction calls generalizing n with
  | nil => rfl
  | cons call calls ih =>
    rw [List.foldlM_cons]
    cases call with
    | preOp => exact ih n
    | postOp => exact ih n
    | onEntry parents entry =>
      have hfiles : filesOf (.onEntry parents entry :: calls) =
          if entry.isDir then filesOf calls else (parents, entry) :: filesOf calls := by
        cases hdir : entry.isDir <;> simp [filesOf, entriesOf, hdir]
      rw [hfiles]
      cases hdir : entry.isDir with
      | true => simpa [runCall, hdir, countFiles, fileCallbacks, callOn] using ih n
      | false =>
        simp only [runCall, hdir, countFiles, fileCallbacks, callOn, Bool.false_eq_true, if_false,
          Option.bind_eq_bind, Option.bind_some, List.length_cons]
        rw [show n + ((filesOf calls).length + 1) = n + 1 + (filesOf calls).length by omega]
        exact ih (n + 1)

/-- A traversal that ends calls `on_file` for the first files. -/
theorem collectDir_countFiles {scan : CString → Option (List Dirent)}
    (hnd : ∀ dirPath, ((scan dirPath).getD []).Nodup) {sd : SortingDirection} {topk : Int} {fuel : Nat}
    {root : CString} (h : (seenPlaces scan sd topk).Within fuel root) :
    collectDirByIndex scan sd topk countFiles fuel root 0 =
      some (firstFiles scan sd topk root).ncard := by
  rw [collectDirByIndex_eq, collectDir_eq_calls _ _ _ _ h, foldlM_countFiles, Nat.zero_add, filesOf,
    entriesOf_callsOf, firstFiles,
    Places.ncard_reached (nodup_seenPlaces hnd sd topk) h fun entry => !entry.isDir]

/-- The calls are those for the first files, if the traversal ends. -/
theorem topkBounds_iff_firstFiles {fs : FileSystem} (hfs : DistinctNames fs) (filter : Dirent → Bool)
    (cmp : Dirent → Dirent → Bool) (sd : SortingDirection) (topk : Int) (root : CString) :
    TopkBounds (scandir fs filter cmp) sd topk root ↔
      (∃ n, (seenPlaces (scandir fs filter cmp) sd topk).Within n root) ∧
      (((firstFiles (scandir fs filter cmp) sd topk root).ncard : Int) = topk ∨
        ((treeFiles (scandir fs filter cmp) root).ncard : Int) < topk ∧
          ((firstFiles (scandir fs filter cmp) sd topk root).ncard : Int) ≤ topk) := by
  have hnd := hfs.scandir filter cmp
  constructor
  · rintro ⟨fuel, n, hrun, hle, hall⟩
    have hwithin : (seenPlaces (scandir fs filter cmp) sd topk).Within fuel root := by
      rw [collectDirByIndex_eq] at hrun
      exact within_of_collectDir hrun
    rw [collectDir_countFiles hnd hwithin, Option.some.injEq] at hrun
    subst hrun
    refine ⟨⟨fuel, hwithin⟩, ?_⟩
    rcases Int.lt_or_le ((treeFiles (scandir fs filter cmp) root).ncard : Int) topk with hlt | hge
    · exact Or.inr ⟨hlt, hle⟩
    · exact Or.inl (hall hge)
  · rintro ⟨⟨fuel, hwithin⟩, hcond⟩
    refine ⟨fuel, _, collectDir_countFiles hnd hwithin, ?_, ?_⟩
    · rcases hcond with heq | ⟨-, hle⟩
      · exact heq.le
      · exact hle
    · intro hge
      rcases hcond with heq | ⟨hlt, -⟩
      · exact heq
      · omega

/-- Where the paths fit, the traversal ends and the first files are files of the tree. -/
theorem firstFiles_of_fit {scan : CString → Option (List Dirent)} {root : CString}
    (hfin : ∃ n, (treePlaces scan).Within n root) (hfit : PathsFit scan root) (sd : SortingDirection)
    (topk : Int) : (∃ n, (seenPlaces scan sd topk).Within n root) ∧
      (firstFiles scan sd topk root).ncard ≤ (treeFiles scan root).ncard := by
  obtain ⟨n, hn⟩ := hfin
  have hpart := part_seenPlaces hfit sd topk
  refine ⟨⟨n, hpart.within .root hn⟩, ?_⟩
  have hsub : firstFiles scan sd topk root ⊆ treeFiles scan root :=
    fun x hx => ⟨hpart.reached .root hx.1, hx.2⟩
  have hfinite : (treeFiles scan root).Finite := by
    refine Set.Finite.subset (List.finite_toSet ((treePlaces scan).walk n root)) ?_
    intro x hx
    exact (Places.mem_walk hn x.1 x.2).mpr hx.1
  exact Set.ncard_le_ncard hsub hfinite

/-- The limit does what it says exactly when the traversal ends and `topk` files, no more and
no less, are first files, or there are less than `topk` files at all and no more first files.
Where the paths fit the buffer, the numbers of files alone decide. -/
theorem topk_bounds_iff (fs : FileSystem) (hfs : DistinctNames fs) (filter : Dirent → Bool)
    (cmp : Dirent → Dirent → Bool) (sd : SortingDirection) (topk : Int) (root : CString) :
    (TopkBounds (scandir fs filter cmp) sd topk root ↔
      (∃ n, (seenPlaces (scandir fs filter cmp) sd topk).Within n root) ∧
      (((firstFiles (scandir fs filter cmp) sd topk root).ncard : Int) = topk ∨
        ((treeFiles (scandir fs filter cmp) root).ncard : Int) < topk ∧
          ((firstFiles (scandir fs filter cmp) sd topk root).ncard : Int) ≤ topk)) ∧
    ((∃ n, (treePlaces (scandir fs filter cmp)).Within n root) →
      PathsFit (scandir fs filter cmp) root →
      (TopkBounds (scandir fs filter cmp) sd topk root ↔
        ((firstFiles (scandir fs filter cmp) sd topk root).ncard : Int) = topk ∨
          ((treeFiles (scandir fs filter cmp) root).ncard : Int) < topk)) := by
  have hiff := topkBounds_iff_firstFiles hfs filter cmp sd topk root
  refine ⟨hiff, fun hfin hfit => ?_⟩
  obtain ⟨hends, hle⟩ := firstFiles_of_fit hfin hfit sd topk
  rw [hiff, and_iff_right hends]
  omega

def sampleFs : FileSystem := fun dirPath =>
  if dirPath.bytes = [114] then some [⟨.ofBytes [97], true⟩, ⟨.ofBytes [98], true⟩]
  else if dirPath.bytes = [114, 47, 97] ∨ dirPath.bytes = [114, 47, 98] then
    some [⟨.ofBytes [49], false⟩, ⟨.ofBytes [50], false⟩]
  else none

def sampleRoot : CString := .ofBytes [114]

def sampleScan : CString → Option (List Dirent) := scandir sampleFs (fun _ => true) fun _ _ => true

theorem distinctNames_sampleFs : DistinctNames sampleFs := by
  intro dirPath entries h
  rw [sampleFs] at h
  split_ifs at h
  · obtain rfl := Option.some.inj h
    decide
  · obtain rfl := Option.some.inj h
    decide

theorem pathsFit_sample : PathsFit sampleScan sampleRoot := by
  have hdirs : ∀ dirPath, (treePlaces sampleScan).Passed sampleRoot dirPath →
      dirPath ∈ [sampleRoot, .ofBytes [114, 47, 97], .ofBytes [114, 47, 98]] := by
    intro dirPath hp
    induction hp with
    | root => decide
    | @sub dirPath sub entry _ he hsub ih =>
      have hstep : ∀ p ∈ [sampleRoot, .ofBytes [114, 47, 97], .ofBytes [114, 47, 98]],
          ∀ e ∈ (treePlaces sampleScan).entries p, ∀ q ∈ (treePlaces sampleScan).sub p e,
            q ∈ [sampleRoot, .ofBytes [114, 47, 97], .ofBytes [114, 47, 98]] := by
        decide +kernel
      exact hstep dirPath ih entry he sub hsub
  have hshort : ∀ p ∈ [sampleRoot, .ofBytes [114, 47, 97], .ofBytes [114, 47, 98]],
      p.bytes.length < 1023 := by
    decide
  exact fun dirPath hp => hshort dirPath (hdirs dirPath hp)

theorem within_sample : (treePlaces sampleScan).Within 2 sampleRoot := by decide +kernel

/-- The traversal of the sample in both directions. -/
theorem traversal_complete_sample : DistinctNames sampleFs ∧ PathsFit sampleScan sampleRoot ∧
    ∃ fuel, ∃ calls : SortingDirection → List Call,
      (∀ (sd : SortingDirection) (σ : Type) (cb : Callbacks σ) (s : σ),
        collectDirByIndex sampleScan sd 0 cb fuel sampleRoot s =
          (calls sd).foldlM (runCall cb (fun dirPath entry => joinPath dirPath entry.dName)
            sampleRoot) s) ∧
      filesOf (calls .desc) = (filesOf (calls .asc)).reverse := by
  obtain ⟨fuel, calls, hrun, -, hrev⟩ := traversal_complete sampleFs distinctNames_sampleFs
    (fun _ => true) (fun _ _ => true) sampleRoot ⟨2, within_sample⟩ pathsFit_sample 0 (by decide)
  exact ⟨distinctNames_sampleFs, pathsFit_sample, fuel, calls, hrun, hrev⟩

theorem ncard_treeFiles_sample : (treeFiles sampleScan sampleRoot).ncard = 4 := by
  have hnd : ∀ dirPath, ((treePlaces sampleScan).entries dirPath).Nodup :=
    distinctNames_sampleFs.scandir _ _
  rw [treeFiles, Places.ncard_reached hnd within_sample fun entry => !entry.isDir]
  decide +kernel

/-- With a limit above the number of files all four are handed over. -/
theorem topk_bounds_sample : DistinctNames sampleFs ∧ TopkBounds sampleScan .asc 5 sampleRoot := by
  refine ⟨distinctNames_sampleFs, ?_⟩
  refine ((topk_bounds_iff sampleFs distinctNames_sampleFs (fun _ => true) (fun _ _ => true) .asc 5
    sampleRoot).2 ⟨2, within_sample⟩ pathsFit_sample).mpr (Or.inr ?_)
  rw [show scandir sampleFs (fun _ => true) (fun _ _ => true) = sampleScan from rfl,
    ncard_treeFiles_sample]
  decide

/-- With the limit 2 they are all handed over as well, two from each directory. -/
theorem topk_exceeded_sample : ¬ TopkBounds sampleScan .asc 2 sampleRoot := by
  rintro ⟨fuel, n, hrun, hle, -⟩
  have hscan : ∀ dirPath, ((sampleScan dirPath).getD []).Nodup := distinctNames_sampleFs.scandir _ _
  have hwithin : (seenPlaces sampleScan .asc 2).Within 2 sampleRoot := by decide +kernel
  have hends : (seenPlaces sampleScan .asc 2).Within fuel sampleRoot := by
    rw [collectDirByIndex_eq] at hrun
    exact within_of_collectDir hrun
  rw [collectDir_countFiles hscan hends, firstFiles,
    Places.ncard_reached (nodup_seenPlaces hscan .asc 2) hwithin fun entry => !entry.isDir,
    Option.some.injEq] at hrun
  have hfour : (((seenPlaces sampleScan .asc 2).walk 2 sampleRoot).filter
      fun x => !x.2.isDir).length = 4 := by
    decide +kernel
  omega

end Miqs.FsOps
