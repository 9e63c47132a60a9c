import Mathlib.Algebra.Order.BigOperators.Group.Finset
import Mathlib.Data.Multiset.AddSub
import Mathlib.Data.Sum.Basic
import Miqs.ThPool

/-! Whatever the order of steps, the thread pool runs each job once, in the order of the queue, and no
signal is lost. -/
namespace Miqs.ThPool
open Miqs.Threads
variable {J ι κ : Type} [DecidableEq ι] [DecidableEq κ] {mayWait : κ → Prop} {p p' : Pool J ι κ}

omit [DecidableEq ι] in
/-- Nobody needs to be woken if nobody sleeps. -/
theorem signal_none {w : ι → Worker J} (h : ∀ i, w i ≠ .parked) : SignalJobs w w where
  each _ := Or.inl rfl
  some := fun ⟨i, hi⟩ => absurd hi (h i)

omit [DecidableEq ι] in
theorem signal_all (w : ι → Worker J) : SignalJobs w fun i => (w i).wake where
  each i := by
    cases hi : w i with
    | parked => exact Or.inr ⟨rfl, rfl⟩
    | _ => exact Or.inl rfl
  some := fun ⟨i, hi⟩ => ⟨i, hi, rfl⟩

def Worker.jobs : Worker J → Multiset (Job J)
  | .posting job => {job}
  | .running (some job) => {job}
  | _ => 0

def Worker.counted : Worker J → Nat
  | .pulling => 1
  | .posting _ => 1
  | .running _ => 1
  | .finishing => 1
  | _ => 0

def Worker.alive : Worker J → Nat
  | .unlocking => 0
  | .gone => 0
  | _ => 1

theorem move_same {keepalive : Bool} {a b : Worker J} (h : a.Move keepalive b) :
    b.jobs = a.jobs ∧ b.counted = a.counted ∧ b.alive = a.alive := by
  cases h <;> exact ⟨rfl, rfl, rfl⟩

section Sums
variable [Fintype ι]

structure JobsOk (p : Pool J ι κ) : Prop where
  numbered : p.added.map Job.number = List.range p.added.length
  order : p.added = p.pulled ++ p.queue
  pulled : (p.pulled : Multiset (Job J)) = p.finished + ∑ i, (p.worker i).jobs

structure CountsOk (p : Pool J ι κ) : Prop where
  working : p.numThreadsWorking = ∑ i, (p.worker i).counted
  alive : p.numThreadsAlive = ∑ i, (p.worker i).alive

omit [DecidableEq ι] in
theorem SignalJobs.sum_eq {M : Type} [AddCommMonoid M] {w w' : ι → Worker J} (h : SignalJobs w w') {f : Worker J → M}
    (hf : f .waiting = f .parked) : ∑ i, f (w' i) = ∑ i, f (w i) :=
  Wakes.sum_eq h fun _ ha => by rw [ha, ← hf]; rfl

theorem sum_update_eq {M : Type} [AddCommMonoid M] [IsRightCancelAdd M] {w : ι → Worker J} {i : ι} {a b : Worker J}
    (hi : w i = a) {f : Worker J → M} (hf : f b = f a) : ∑ j, f (Function.update w i b j) = ∑ j, f (w j) := by
  have hsum := sum_update_add w i b f
  rw [hi, hf] at hsum
  exact add_right_cancel hsum

theorem jobsOk_step (h : JobsOk p) (hs : Step mayWait p p') : JobsOk p' := by
  obtain ⟨hnumbered, horder, hpulled⟩ := h
  have keep {i : ι} {a b : Worker J} (hi : p.worker i = a) (hab : b.jobs = a.jobs) :
      (p.pulled : Multiset (Job J)) = p.finished + ∑ j, (Function.update p.worker i b j).jobs := by
    rw [hpulled, sum_update_eq hi hab]
  have pull {i : ι} {a b : Worker J} {job : Job J} (hi : p.worker i = a) (ha : a.jobs = 0) (hb : b.jobs = {job}) :
      ((p.pulled ++ [job] : List (Job J)) : Multiset (Job J)) =
        p.finished + ∑ j, (Function.update p.worker i b j).jobs := by
    have hsum := sum_update_add p.worker i b Worker.jobs
    rw [hi, ha, add_zero, hb] at hsum
    rw [hsum, ← add_assoc, ← hpulled]
    rfl
  cases hs with
  | move hmove => exact ⟨hnumbered, horder, keep rfl (move_same hmove).1⟩
  | park hi _ => exact ⟨hnumbered, horder, keep hi rfl⟩
  | take hi _ => exact ⟨hnumbered, horder, keep hi rfl⟩
  | count hi _ => exact ⟨hnumbered, horder, keep hi rfl⟩
  | pullNone hi _ _ => exact ⟨hnumbered, horder, keep hi rfl⟩
  | pullLast hi _ hq => exact ⟨hnumbered, by simp [horder, hq], pull hi rfl rfl⟩
  | pullMore hi _ hq => exact ⟨hnumbered, by simp [horder, hq], pull hi rfl rfl⟩
  | @post _ job _ hi hw =>
    exact ⟨hnumbered, horder, (keep (b := .running (some job)) hi rfl).trans (congrArg _ (hw.sum_eq rfl).symm)⟩
  | @run i job hi =>
    refine ⟨hnumbered, horder, ?_⟩
    have hsum : ∑ j, (Function.update p.worker i .finishing j).jobs + {job} = ∑ j, (p.worker j).jobs + 0 := by
      have hupdate := sum_update_add p.worker i .finishing Worker.jobs
      rwa [hi] at hupdate
    calc (p.pulled : Multiset (Job J)) = p.finished + (∑ j, (Function.update p.worker i .finishing j).jobs + {job}) := by
          rw [hpulled, hsum, add_zero]
      _ = (p.finished + {job}) + ∑ j, (Function.update p.worker i .finishing j).jobs := by
          rw [add_comm (∑ j, _), add_assoc]
  | finish hi _ _ => exact ⟨hnumbered, horder, keep hi rfl⟩
  | exit hi _ => exact ⟨hnumbered, horder, keep hi rfl⟩
  | unlock hi => exact ⟨hnumbered, horder, keep hi rfl⟩
  | addWork work _ _ =>
    refine ⟨?_, by simp [horder], hpulled⟩
    simp only [List.map_append, hnumbered, List.map_cons, List.map_nil, List.length_append, List.length_singleton,
      List.range_succ]
  | pushed _ hw => exact ⟨hnumbered, horder, hpulled.trans (congrArg _ (hw.sum_eq rfl).symm)⟩
  | postAll _ => exact ⟨hnumbered, horder, hpulled.trans (congrArg _ ((signal_all p.worker).sum_eq rfl).symm)⟩
  | _ => exact ⟨hnumbered, horder, hpulled⟩

theorem countsOk_step (h : CountsOk p) (hs : Step mayWait p p') : CountsOk p' := by
  obtain ⟨hworking, halive⟩ := h
  have keep {i : ι} {a b : Worker J} (hi : p.worker i = a) (hab : b.counted = a.counted) :
      p.numThreadsWorking = ∑ j, (Function.update p.worker i b j).counted := by
    rw [hworking, sum_update_eq hi hab]
  have stay {i : ι} {a b : Worker J} (hi : p.worker i = a) (hab : b.alive = a.alive) :
      p.numThreadsAlive = ∑ j, (Function.update p.worker i b j).alive := by
    rw [halive, sum_update_eq hi hab]
  cases hs with
  | move hmove => exact ⟨keep rfl (move_same hmove).2.1, stay rfl (move_same hmove).2.2⟩
  | park hi _ => exact ⟨keep hi rfl, stay hi rfl⟩
  | take hi _ => exact ⟨keep hi rfl, stay hi rfl⟩
  | @count i hi _ =>
    refine ⟨?_, stay hi rfl⟩
    have hsum := sum_update_add p.worker i .pulling Worker.counted
    rw [hi] at hsum
    exact (congrArg (· + 1) hworking).trans hsum.symm
  | pullNone hi _ _ => exact ⟨keep hi rfl, stay hi rfl⟩
  | pullLast hi _ _ => exact ⟨keep hi rfl, stay hi rfl⟩
  | pullMore hi _ _ => exact ⟨keep hi rfl, stay hi rfl⟩
  | @post _ job _ hi hw =>
    exact ⟨(keep (b := .running (some job)) hi rfl).trans (hw.sum_eq rfl).symm,
      (stay (b := .running (some job)) hi rfl).trans (hw.sum_eq rfl).symm⟩
  | run hi => exact ⟨keep hi rfl, stay hi rfl⟩
  | @finish i _ hi _ _ =>
    refine ⟨?_, stay hi rfl⟩
    have hsum := sum_update_add p.worker i .loop Worker.counted
    rw [hi, ← hworking] at hsum
    exact Nat.sub_eq_of_eq_add hsum.symm
  | @exit i hi _ =>
    refine ⟨keep hi rfl, ?_⟩
    have hsum := sum_update_add p.worker i .unlocking Worker.alive
    rw [hi, ← halive] at hsum
    exact Nat.sub_eq_of_eq_add hsum.symm
  | unlock hi => exact ⟨keep hi rfl, stay hi rfl⟩
  | pushed _ hw => exact ⟨hworking.trans (hw.sum_eq rfl).symm, halive.trans (hw.sum_eq rfl).symm⟩
  | postAll _ =>
    have hw := signal_all p.worker
    exact ⟨hworking.trans (hw.sum_eq rfl).symm, halive.trans (hw.sum_eq rfl).symm⟩
  | _ => exact ⟨hworking, halive⟩

end Sums

def Worker.Coming : Worker J → Prop
  | .woken => True
  | .starting => True
  | .pulling => True
  | .posting _ => True
  | _ => False

/-- A job in the queue was posted, or will be by who has just put it there or pulled the one before. If
the semaphore is up, not all workers that wait are asleep. -/
structure SignalOk (p : Pool J ι κ) : Prop where
  posted : p.threadsKeepalive = true → p.queue ≠ [] →
    p.hasJobs = true ∨ (∃ i, (p.worker i).Coming) ∨ ∃ c, p.client c = .pushing
  woken : p.hasJobs = true → (∃ i, p.worker i = .parked) → ∃ i, p.worker i = .waiting

omit [DecidableEq ι] in
theorem SignalJobs.waiting {w w' : ι → Worker J} (h : SignalJobs w w') (hparked : ∃ i, w' i = .parked) :
    ∃ i, w' i = .waiting := by
  obtain ⟨i, hi⟩ := hparked
  have hold : w i = .parked := by
    rcases h.each i with heq | ⟨hsleeps, -⟩
    · rw [← heq, hi]
    · exact hsleeps
  obtain ⟨j, hj, hwake⟩ := h.some ⟨i, hold⟩
  exact ⟨j, by rw [hwake, hj]; rfl⟩

omit [DecidableEq κ] in
theorem SignalOk.posted_update (h : SignalOk p) {i : ι} {a : Worker J} (b : Worker J) (hi : p.worker i = a)
    (hcoming : p.threadsKeepalive = true → a.Coming → b.Coming) (hkeep : p.threadsKeepalive = true)
    (hqueue : p.queue ≠ []) :
    p.hasJobs = true ∨ (∃ j, (Function.update p.worker i b j).Coming) ∨ ∃ c, p.client c = .pushing := by
  rcases h.posted hkeep hqueue with hv | hw | hc
  · exact Or.inl hv
  · exact Or.inr (Or.inl (exists_update hw (by rw [hi]; exact hcoming hkeep)))
  · exact Or.inr (Or.inr hc)

omit [DecidableEq κ] in
theorem SignalOk.woken_update (h : SignalOk p) {i : ι} {a : Worker J} (b : Worker J) (hi : p.worker i = a)
    (ha : a ≠ .waiting) (hb : b ≠ .parked) (hv : p.hasJobs = true)
    (hparked : ∃ j, Function.update p.worker i b j = .parked) : ∃ j, Function.update p.worker i b j = .waiting := by
  have hold : ∃ j, p.worker j = .parked := exists_of_update (P := fun w => w = Worker.parked) hparked hb
  refine exists_update (P := fun w => w = Worker.waiting) (h.woken hv hold) fun hw => ?_
  exact absurd (hi.symm.trans hw) ha

omit [DecidableEq ι] in
/-- Where a client goes on that does not push. -/
theorem SignalOk.posted_call (h : SignalOk p) {c : κ} {a : Client} (hc : p.client c ≠ .pushing)
    (hkeep : p.threadsKeepalive = true) (hqueue : p.queue ≠ []) :
    p.hasJobs = true ∨ (∃ i, (p.worker i).Coming) ∨ ∃ c', Function.update p.client c a c' = .pushing := by
  rcases h.posted hkeep hqueue with hv | hw | hp
  · exact Or.inl hv
  · exact Or.inr (Or.inl hw)
  · exact Or.inr (Or.inr (exists_update (P := fun a => a = Client.pushing) hp fun heq => absurd heq hc))

theorem move_signal {keepalive : Bool} {a b : Worker J} (h : a.Move keepalive b) :
    (keepalive = true → a.Coming → b.Coming) ∧ a ≠ .waiting ∧ b ≠ .parked := by
  cases h with
  | again hkeep => exact ⟨fun hcontra => absurd (hkeep.symm.trans hcontra) (by simp), nofun, nofun⟩
  | start _ => exact ⟨fun _ _ => trivial, nofun, nofun⟩
  | _ => exact ⟨fun _ hcoming => hcoming.elim, nofun, nofun⟩

theorem signalOk_step (h : SignalOk p) (hs : Step mayWait p p') : SignalOk p' := by
  cases hs with
  | @move _ w hmove =>
    obtain ⟨hcoming, ha, hb⟩ := move_signal hmove
    exact ⟨h.posted_update w rfl hcoming, h.woken_update w rfl ha hb⟩
  | park hi hv => exact ⟨h.posted_update .parked hi fun _ hw => hw, fun hup => absurd (hv.symm.trans hup) (by simp)⟩
  | @take i _ _ => exact ⟨fun _ _ => Or.inr (Or.inl ⟨i, by simp [Worker.Coming]⟩), nofun⟩
  | count hi _ => exact ⟨h.posted_update .pulling hi fun _ _ => trivial, h.woken_update .pulling hi nofun nofun⟩
  | pullNone hi _ hq => exact ⟨fun _ hqueue => absurd hq hqueue, h.woken_update (.running none) hi nofun nofun⟩
  | @pullLast _ job hi _ _ =>
    exact ⟨fun _ hqueue => absurd rfl hqueue, h.woken_update (.running (some job)) hi nofun nofun⟩
  | @pullMore i job _ _ hi _ _ =>
    exact ⟨fun _ _ => Or.inr (Or.inl ⟨i, by simp [Worker.Coming]⟩), h.woken_update (.posting job) hi nofun nofun⟩
  | post _ hw => exact ⟨fun _ _ => Or.inl rfl, fun _ => hw.waiting⟩
  | run hi => exact ⟨h.posted_update .finishing hi fun _ hw => hw.elim, h.woken_update .finishing hi nofun nofun⟩
  | @finish _ clients hi _ hclients =>
    refine ⟨fun hkeep hqueue => ?_, h.woken_update .loop hi nofun nofun⟩
    have hpush : (∃ c, p.client c = .pushing) → ∃ c, clients c = .pushing := by
      split_ifs at hclients with hzero
      · refine hclients.exists_awake (P := fun a => a = Client.pushing) fun a hsleeps ha => ?_
        rw [ha] at hsleeps
        exact hsleeps
      · rw [hclients]
        exact id
    exact (h.posted_update .loop hi (fun _ hw => hw.elim) hkeep hqueue).imp_right (Or.imp_right hpush)
  | exit hi _ =>
    exact ⟨h.posted_update .unlocking hi fun _ hw => hw.elim, h.woken_update .unlocking hi nofun nofun⟩
  | unlock hi => exact ⟨h.posted_update .gone hi fun _ hw => hw.elim, h.woken_update .gone hi nofun nofun⟩
  | call hmove =>
    refine ⟨h.posted_call ?_, h.woken⟩
    intro hcontra
    rw [hcontra] at hmove
    cases hmove
  | @addWork c _ _ _ => exact ⟨fun _ _ => Or.inr (Or.inr ⟨c, Function.update_self _ _ _⟩), h.woken⟩
  | pushed _ hw => exact ⟨fun _ _ => Or.inl rfl, fun _ => hw.waiting⟩
  | lock hc _ => exact ⟨h.posted_call (by rw [hc]; nofun), h.woken⟩
  | noJobs hc _ => exact ⟨h.posted_call (by rw [hc]; nofun), h.woken⟩
  | sleep hc =>
    refine ⟨h.posted_call ?_, h.woken⟩
    rcases hc with hc | hc <;> rw [hc.1] <;> nofun
  | allIdle hc _ => exact ⟨h.posted_call (by rw [hc]; nofun), h.woken⟩
  | destroy _ => exact ⟨nofun, h.woken⟩
  | stillAlive hc _ => exact ⟨h.posted_call (by rw [hc]; nofun), h.woken⟩
  | postAll _ => exact ⟨fun _ _ => Or.inl rfl, fun _ => (signal_all p.worker).waiting⟩
  | destroyed hc _ => exact ⟨h.posted_call (by rw [hc]; nofun), h.woken⟩

def Worker.Holds : Worker J → Prop
  | .unlocking => True
  | _ => False

def Client.Holds : Client → Prop
  | .checking _ => True
  | .counting _ => True
  | _ => False

def holders (worker : ι → Worker J) (client : κ → Client) : ι ⊕ κ → Prop :=
  Sum.elim (fun i => (worker i).Holds) fun c => (client c).Holds

theorem holders_worker (worker : ι → Worker J) (client : κ → Client) (i : ι) (w : Worker J) :
    holders (Function.update worker i w) client = Function.update (holders worker client) (.inl i) w.Holds := by
  rw [holders, holders, Sum.update_elim_inl]
  exact congrArg (Sum.elim · _) (Function.comp_update Worker.Holds worker i w)

theorem holders_client (worker : ι → Worker J) (client : κ → Client) (c : κ) (a : Client) :
    holders worker (Function.update client c a) = Function.update (holders worker client) (.inr c) a.Holds := by
  rw [holders, holders, Sum.update_elim_inr]
  exact congrArg (Sum.elim _) (Function.comp_update Client.Holds client c a)

def LockOk (p : Pool J ι κ) : Prop := Guards p.thcountLock (holders p.worker p.client)

section Lock
variable {worker worker' : ι → Worker J} {client client' : κ → Client} {locked : Bool}

theorem guards_worker (h : Guards locked (holders worker client)) {i : ι} {w : Worker J} (hw : ¬ w.Holds) :
    Guards locked (holders (Function.update worker i w) client) := by
  rw [holders_worker]
  exact h.not_holding hw

theorem guards_client (h : Guards locked (holders worker client)) {c : κ} {a : Client} (ha : ¬ a.Holds) :
    Guards locked (holders worker (Function.update client c a)) := by
  rw [holders_client]
  exact h.not_holding ha

omit [DecidableEq ι] [DecidableEq κ] in
/-- Who sleeps does not hold the lock, nor who was woken. -/
theorem guards_signalJobs (h : Guards locked (holders worker client)) (hw : SignalJobs worker worker') :
    Guards locked (holders worker' client) := by
  refine h.mono fun t ht => ?_
  cases t with
  | inl i =>
    have hworker : (worker' i).Holds := ht
    change (worker i).Holds
    rcases hw.each i with heq | ⟨hparked, heq⟩
    · rwa [heq] at hworker
    · rw [heq, hparked] at hworker
      exact hworker.elim
  | inr c => exact ht

omit [DecidableEq ι] [DecidableEq κ] in
theorem guards_signalIdle (h : Guards locked (holders worker client)) (hc : SignalIdle client client') :
    Guards locked (holders worker client') := by
  refine h.mono fun t ht => ?_
  cases t with
  | inl i => exact ht
  | inr c =>
    have hclient : (client' c).Holds := ht
    change (client c).Holds
    rcases hc.each c with heq | ⟨hasleep, heq⟩
    · rwa [heq] at hclient
    · rw [heq] at hclient
      cases hold : client c <;> rw [hold] at hclient <;> exact hclient

end Lock

theorem lockOk_step (h : LockOk p) (hs : Step mayWait p p') : LockOk p' := by
  rw [LockOk] at h
  cases hs with
  | move hmove =>
    refine guards_worker h ?_
    generalize p.worker _ = a at hmove
    cases hmove <;> exact id
  | park _ _ => exact guards_worker h id
  | take _ _ => exact guards_worker h id
  | count _ _ => exact guards_worker h id
  | pullNone _ _ _ => exact guards_worker h id
  | pullLast _ _ _ => exact guards_worker h id
  | pullMore _ _ _ => exact guards_worker h id
  | post _ hw => exact guards_signalJobs (guards_worker h id) hw
  | run _ => exact guards_worker h id
  | finish _ _ hclients =>
    split_ifs at hclients with hzero
    · exact guards_signalIdle (guards_worker h id) hclients
    · rw [LockOk, hclients]
      exact guards_worker h id
  | exit _ hfree =>
    rw [hfree] at h
    rw [LockOk, holders_worker]
    exact h.acquire
  | @unlock i hi =>
    rw [LockOk, holders_worker]
    exact h.release (show (p.worker i).Holds by rw [hi]; trivial) id
  | call hmove =>
    refine guards_client h ?_
    generalize p.client _ = a at hmove
    cases hmove <;> exact id
  | addWork _ _ _ => exact guards_client h id
  | pushed _ hw => exact guards_signalJobs (guards_client h id) hw
  | lock _ hfree =>
    rw [hfree] at h
    rw [LockOk, holders_client]
    exact h.acquire
  | @noJobs c mark hc _ =>
    rw [LockOk, holders_client]
    exact h.holding (show (p.client c).Holds by rw [hc]; trivial)
  | @sleep c mark hc =>
    rw [LockOk, holders_client]
    refine h.release (show (p.client c).Holds from ?_) id
    rcases hc with hc | hc <;> rw [hc.1] <;> trivial
  | @allIdle c mark hc _ =>
    rw [LockOk, holders_client]
    exact h.release (show (p.client c).Holds by rw [hc]; trivial) id
  | destroy _ => exact guards_client h id
  | stillAlive _ _ => exact guards_client h id
  | postAll _ => exact guards_signalJobs (guards_client h id) (signal_all p.worker)
  | destroyed _ _ => exact guards_client h id

structure Grows (p p' : Pool J ι κ) : Prop where
  added : p.added <+: p'.added
  pulled : p.pulled.length ≤ p'.pulled.length
  finished : p.finished ⊆ p'.finished
  alive : p'.numThreadsAlive ≤ p.numThreadsAlive

theorem step_grows (hs : Step mayWait p p') : Grows p p' := by
  cases hs with
  | pullLast _ _ _ => exact ⟨List.prefix_refl _, by simp, fun _ hjob => hjob, Nat.le_refl _⟩
  | pullMore _ _ _ => exact ⟨List.prefix_refl _, by simp, fun _ hjob => hjob, Nat.le_refl _⟩
  | run _ => exact ⟨List.prefix_refl _, Nat.le_refl _, fun _ hjob => List.mem_append_left _ hjob, Nat.le_refl _⟩
  | exit _ _ => exact ⟨List.prefix_refl _, Nat.le_refl _, fun _ hjob => hjob, Nat.sub_le _ _⟩
  | addWork work _ _ => exact ⟨List.prefix_append _ _, Nat.le_refl _, fun _ hjob => hjob, Nat.le_refl _⟩
  | _ => exact ⟨List.prefix_refl _, Nat.le_refl _, fun _ hjob => hjob, Nat.le_refl _⟩

inductive Client.Goes (mayWait : Prop) (p : Pool J ι κ) : Client → Client → Prop where
  | stay {a : Client} : Goes mayWait p a a
  | wait : mayWait → Goes mayWait p .idle (.locking p.added.length)
  | wake {mark : Nat} : Goes mayWait p (.asleep mark) (.locking mark)
  | lock {mark : Nat} : Goes mayWait p (.locking mark) (.checking mark)
  | noJobs {mark : Nat} : p.queue = [] → Goes mayWait p (.checking mark) (.counting mark)
  | jobs {mark : Nat} : Goes mayWait p (.checking mark) (.asleep mark)
  | busy {mark : Nat} : Goes mayWait p (.counting mark) (.asleep mark)
  | allIdle {mark : Nat} : p.numThreadsWorking = 0 → Goes mayWait p (.counting mark) (.returned mark)
  | destroyed : p.numThreadsAlive = 0 → Goes mayWait p .destroying .destroyed
  | other {a b : Client} : (b = .idle ∨ b = .pushing ∨ b = .destroying ∨ b = .postingAll) → Goes mayWait p a b

omit [DecidableEq ι] in
theorem goes_update {c : κ} {a b : Client} (hc : p.client c = a) (h : a.Goes (mayWait c) p b) (c' : κ) :
    (p.client c').Goes (mayWait c') p (Function.update p.client c b c') := by
  by_cases heq : c' = c
  · rw [heq, Function.update_self, hc]
    exact h
  · rw [Function.update_of_ne heq]
    exact .stay

theorem step_client (hs : Step mayWait p p') (c : κ) : (p.client c).Goes (mayWait c) p (p'.client c) := by
  cases hs with
  | @finish _ clients _ _ hclients =>
    change (p.client c).Goes (mayWait c) p (clients c)
    split_ifs at hclients with hzero
    · rcases hclients.each c with heq | ⟨hasleep, heq⟩
      · rw [heq]
        exact .stay
      · rw [heq]
        cases hc : p.client c with
        | asleep mark => exact .wake
        | _ => exact .stay
    · rw [hclients]
      exact .stay
  | call hmove =>
    refine goes_update rfl ?_ c
    generalize p.client _ = a at hmove
    cases hmove with
    | wait hmay => exact .wait hmay
    | wake => exact .wake
    | back => exact .other (by simp)
  | addWork _ hc _ => exact goes_update hc (.other (by simp)) c
  | pushed hc _ => exact goes_update hc (.other (by simp)) c
  | lock hc _ => exact goes_update hc .lock c
  | noJobs hc hq => exact goes_update hc (.noJobs hq) c
  | sleep hc =>
    rcases hc with ⟨hc, -⟩ | ⟨hc, -⟩
    · exact goes_update hc .jobs c
    · exact goes_update hc .busy c
  | allIdle hc hzero => exact goes_update hc (.allIdle hzero) c
  | destroy hc => exact goes_update hc (.other (by simp)) c
  | stillAlive hc _ => exact goes_update hc (.other (by simp)) c
  | postAll hc => exact goes_update hc (.other (by simp)) c
  | destroyed hc hzero => exact goes_update hc (.destroyed hzero) c
  | _ => exact .stay

def ClientOk (p : Pool J ι κ) : Client → Prop
  | .locking mark => mark ≤ p.added.length
  | .checking mark => mark ≤ p.added.length
  | .asleep mark => mark ≤ p.added.length
  | .counting mark => mark ≤ p.pulled.length
  | .returned mark => mark ≤ p.added.length ∧ ∀ job ∈ p.added.take mark, job ∈ p.finished
  | .destroyed => p.numThreadsAlive = 0
  | _ => True

def WaitOk (p : Pool J ι κ) : Prop := ∀ c, ClientOk p (p.client c)

omit [DecidableEq ι] [DecidableEq κ] in
theorem ClientOk.mono {a : Client} (h : ClientOk p a) (hgrows : Grows p p') : ClientOk p' a := by
  cases a with
  | locking mark => exact Nat.le_trans h hgrows.added.length_le
  | checking mark => exact Nat.le_trans h hgrows.added.length_le
  | asleep mark => exact Nat.le_trans h hgrows.added.length_le
  | counting mark => exact Nat.le_trans h hgrows.pulled
  | returned mark =>
    refine ⟨Nat.le_trans h.1 hgrows.added.length_le, fun job hjob => hgrows.finished (h.2 job ?_)⟩
    obtain ⟨more, hmore⟩ := hgrows.added
    rwa [← hmore, List.take_append_of_le_length h.1] at hjob
  | destroyed => exact Nat.le_zero.mp (Nat.le_trans hgrows.alive (Nat.le_of_eq h))
  | _ => trivial

/-- A worker that is not counted has no job. -/
theorem jobs_eq_zero {w : Worker J} (h : w.counted = 0) : w.jobs = 0 := by
  cases w <;> first | rfl | cases h

section Sums
variable [Fintype ι]

omit [DecidableEq κ] [DecidableEq ι] in
/-- When no worker is counted, all jobs that were pulled have been run. -/
theorem finished_of_idle (hjobs : JobsOk p) (hcounts : CountsOk p) (hzero : p.numThreadsWorking = 0) {job : Job J}
    (hjob : job ∈ p.pulled) : job ∈ p.finished := by
  have hall : ∀ i, (p.worker i).counted = 0 := by
    rw [hcounts.working, Finset.sum_eq_zero_iff] at hzero
    exact fun i => hzero i (Finset.mem_univ i)
  have hnone : ∑ i, (p.worker i).jobs = 0 := Finset.sum_eq_zero fun i _ => jobs_eq_zero (hall i)
  have hpulled := hjobs.pulled
  rw [hnone, add_zero, Multiset.coe_eq_coe] at hpulled
  exact hpulled.mem_iff.mp hjob

omit [DecidableEq κ] [DecidableEq ι] in
theorem ClientOk.goes (hjobs : JobsOk p) (hcounts : CountsOk p) {may : Prop} {a b : Client} (h : ClientOk p a)
    (hgoes : a.Goes may p b) : ClientOk p b := by
  have hlength : p.added.length = p.pulled.length + p.queue.length := by rw [hjobs.order, List.length_append]
  cases hgoes with
  | stay => exact h
  | wait _ => exact Nat.le_refl _
  | wake => exact h
  | lock => exact h
  | noJobs hq =>
    rw [hq, List.length_nil, Nat.add_zero] at hlength
    exact Nat.le_trans h (Nat.le_of_eq hlength)
  | jobs => exact h
  | busy => exact Nat.le_trans h (by omega)
  | @allIdle mark hzero =>
    have hmark : mark ≤ p.pulled.length := h
    refine ⟨by omega, fun job hjob => finished_of_idle hjobs hcounts hzero ?_⟩
    rw [hjobs.order, List.take_append_of_le_length hmark] at hjob
    exact List.mem_of_mem_take hjob
  | destroyed hzero => exact hzero
  | other hb => rcases hb with rfl | rfl | rfl | rfl <;> trivial

theorem waitOk_step (hjobs : JobsOk p) (hcounts : CountsOk p) (h : WaitOk p) (hs : Step mayWait p p') : WaitOk p' :=
  fun c => ((h c).goes hjobs hcounts (step_client hs c)).mono (step_grows hs)

def Client.Waits : Client → Prop
  | .locking _ => True
  | .checking _ => True
  | .counting _ => True
  | .asleep _ => True
  | _ => False

structure IdleOk (mayWait : κ → Prop) (p : Pool J ι κ) : Prop where
  may : ∀ c, (p.client c).Waits → mayWait c
  busy : ∀ c mark, p.client c = .asleep mark → p.queue ≠ [] ∨ p.numThreadsWorking ≠ 0

omit [DecidableEq κ] [DecidableEq ι] [Fintype ι] in
theorem Client.Goes.may {may : Prop} {a b : Client} (h : a.Goes may p b) (ha : a.Waits → may) (hb : b.Waits) : may := by
  cases h with
  | stay => exact ha hb
  | wait hmay => exact hmay
  | wake => exact ha trivial
  | lock => exact ha trivial
  | noJobs _ => exact ha trivial
  | jobs => exact ha trivial
  | busy => exact ha trivial
  | allIdle _ => exact hb.elim
  | destroyed _ => exact hb.elim
  | other h => rcases h with rfl | rfl | rfl | rfl <;> exact hb.elim

omit [DecidableEq ι] [Fintype ι] in
theorem asleep_of_update {c c' : κ} {a : Client} {mark : Nat} (ha : ¬ a.Asleep)
    (h : Function.update p.client c a c' = .asleep mark) : p.client c' = .asleep mark := by
  by_cases heq : c' = c
  · rw [heq, Function.update_self] at h
    rw [h] at ha
    exact absurd trivial ha
  · rwa [Function.update_of_ne heq] at h

theorem idleOk_step (hone : ∀ c c', mayWait c → mayWait c' → c = c') (hcounts : CountsOk p) (h : IdleOk mayWait p)
    (hs : Step mayWait p p') : IdleOk mayWait p' := by
  refine ⟨fun c => (step_client hs c).may (h.may c), ?_⟩
  cases hs with
  | count _ _ => exact fun _ _ _ => Or.inr (Nat.succ_ne_zero _)
  | @pullLast i _ hi _ _ =>
    -- who empties the queue is counted
    refine fun _ _ _ => Or.inr fun hzero => ?_
    have hsum : ∑ j, (p.worker j).counted = 0 := hcounts.working.symm.trans hzero
    rw [Finset.sum_eq_zero_iff] at hsum
    have hcounted := hsum i (Finset.mem_univ i)
    rw [hi] at hcounted
    cases hcounted
  | pullMore _ _ _ => exact fun _ _ _ => Or.inl (by simp)
  | @finish _ clients _ _ hclients =>
    intro c mark hc
    split_ifs at hclients with hzero
    · -- the last worker wakes the one client that waits
      have hasleep : p.client c = .asleep mark := by
        rcases hclients.each c with heq | ⟨-, heq⟩
        · exact heq.symm.trans hc
        · have hwake : (p.client c).wake = .asleep mark := heq.symm.trans hc
          cases hold : p.client c <;> rw [hold] at hwake <;> cases hwake
      obtain ⟨c', hc', hwake⟩ := hclients.some ⟨c, by rw [hasleep]; trivial⟩
      have hsame : c' = c := by
        refine hone c' c (h.may c' ?_) (h.may c (by rw [hasleep]; trivial))
        cases hold : p.client c' <;> rw [hold] at hc' <;> trivial
      rw [hsame, hasleep] at hwake
      exact absurd (hwake.symm.trans hc) nofun
    · exact Or.inr hzero
  | call hmove =>
    refine fun c mark hc => h.busy c mark (asleep_of_update ?_ hc)
    generalize p.client _ = a at hmove
    cases hmove <;> exact id
  | addWork _ _ _ => exact fun _ _ _ => Or.inl (by simp)
  | pushed _ _ => exact fun c mark hc => h.busy c mark (asleep_of_update id hc)
  | lock _ _ => exact fun c mark hc => h.busy c mark (asleep_of_update id hc)
  | noJobs _ _ => exact fun c mark hc => h.busy c mark (asleep_of_update id hc)
  | sleep hguard => exact fun _ _ _ => hguard.imp And.right And.right
  | allIdle _ _ => exact fun c mark hc => h.busy c mark (asleep_of_update id hc)
  | destroy _ => exact fun c mark hc => h.busy c mark (asleep_of_update id hc)
  | stillAlive _ _ => exact fun c mark hc => h.busy c mark (asleep_of_update id hc)
  | postAll _ => exact fun c mark hc => h.busy c mark (asleep_of_update id hc)
  | destroyed _ _ => exact fun c mark hc => h.busy c mark (asleep_of_update id hc)
  | _ => exact h.busy

omit [DecidableEq ι] [DecidableEq κ] in
theorem jobsOk_init : JobsOk (thpoolInit : Pool J ι κ) := ⟨rfl, rfl, by simp [thpoolInit, Worker.jobs]⟩

omit [DecidableEq ι] [DecidableEq κ] in
theorem countsOk_init : CountsOk (thpoolInit : Pool J ι κ) := by
  constructor
  · simp [thpoolInit, Worker.counted]
  · simp [thpoolInit, Worker.alive]

omit [DecidableEq ι] [DecidableEq κ] in
theorem idleOk_init : IdleOk mayWait (thpoolInit : Pool J ι κ) :=
  ⟨fun _ hwaits => hwaits.elim, fun _ _ hc => by cases hc⟩

theorem reachable_lockOk (h : Reachable mayWait p) : LockOk p := by
  refine invariant_of_step LockOk ⟨fun t ht => ?_, fun t _ ht _ => ?_⟩ (fun _ _ hok hs => lockOk_step hok hs) h
  · cases t <;> exact ht.elim
  · cases t <;> exact ht.elim

theorem reachable_ok (h : Reachable mayWait p) : (JobsOk p ∧ CountsOk p) ∧ SignalOk p ∧ WaitOk p := by
  refine invariant_of_step (fun p => (JobsOk p ∧ CountsOk p) ∧ SignalOk p ∧ WaitOk p) ?_ ?_ h
  · exact ⟨⟨jobsOk_init, countsOk_init⟩, ⟨fun _ hqueue => absurd rfl hqueue, nofun⟩, fun _ => trivial⟩
  · rintro a b ⟨⟨hjobs, hcounts⟩, hsignal, hwait⟩ hs
    exact ⟨⟨jobsOk_step hjobs hs, countsOk_step hcounts hs⟩, signalOk_step hsignal hs,
      waitOk_step hjobs hcounts hwait hs⟩

theorem reachable_idleOk (hone : ∀ c c', mayWait c → mayWait c' → c = c') (h : Reachable mayWait p) :
    IdleOk mayWait p := by
  have hboth := invariant_of_step (fun p => CountsOk p ∧ IdleOk mayWait p) ⟨countsOk_init, idleOk_init⟩
    (fun a b hok hs => ⟨countsOk_step hok.1 hs, idleOk_step hone hok.1 hok.2 hs⟩) h
  exact hboth.2

end Sums

theorem reached_init : Reachable (fun _ => True)
    { (thpoolInit : Pool Nat Bool Unit) with worker := fun i => bif i then .loop else .loop } := by
  have hworkers : (fun i => bif i then .loop else .loop : Bool → Worker Nat) = fun _ => .loop :=
    funext fun i => Bool.cond_self i Worker.loop
  rw [hworkers]
  exact .refl

/-- The one client that waits is woken. -/
theorem signal_asleep {mark : Nat} : SignalIdle (fun _ : Unit => .asleep mark) fun _ => .locking mark where
  each _ := Or.inr ⟨trivial, rfl⟩
  some _ := ⟨(), trivial, rfl⟩

/-- A client adds two jobs and waits. The second job is run before the first, and then both workers go
back to sleep. -/
theorem reached_returned : ∃ p : Pool Nat Bool Unit, Reachable (fun _ => True) p ∧ p.client () = .returned 2 ∧
    p.finished = [⟨1, 20⟩, ⟨0, 10⟩] ∧ p.threadsKeepalive = true ∧ ∀ i, p.worker i = .parked := by
  have h₀ := reached_init
  have h₁ := h₀.tail (Step.addWork (c := ()) 10 rfl rfl)
  have h₂ := h₁.tail (Step.pushed (c := ()) rfl (signal_none (Bool.forall_bool.mpr ⟨nofun, nofun⟩)))
  have h₃ := h₂.tail (Step.addWork (c := ()) 20 rfl rfl)
  have h₄ := h₃.tail (Step.pushed (c := ()) rfl (signal_none (Bool.forall_bool.mpr ⟨nofun, nofun⟩)))
  have h₅ := h₄.tail (Step.move (i := false) (.enter rfl))
  simp only [update_false] at h₅
  have h₆ := h₅.tail (Step.take (i := false) rfl rfl)
  simp only [update_false] at h₆
  have h₇ := h₆.tail (Step.move (i := false) (.start rfl))
  simp only [update_false] at h₇
  have h₈ := h₇.tail (Step.count (i := false) rfl rfl)
  simp only [update_false] at h₈
  have h₉ := h₈.tail (Step.pullMore (i := false) rfl rfl rfl)
  simp only [update_false] at h₉
  have h₁₀ := h₉.tail (Step.post (i := false) rfl (signal_none (by rw [update_false]; exact Bool.forall_bool.mpr ⟨nofun, nofun⟩)))
  simp only [update_false] at h₁₀
  have h₁₁ := h₁₀.tail (Step.move (i := true) (.enter rfl))
  simp only [update_true] at h₁₁
  have h₁₂ := h₁₁.tail (Step.take (i := true) rfl rfl)
  simp only [update_true] at h₁₂
  have h₁₃ := h₁₂.tail (Step.move (i := true) (.start rfl))
  simp only [update_true] at h₁₃
  have h₁₄ := h₁₃.tail (Step.count (i := true) rfl rfl)
  simp only [update_true] at h₁₄
  have h₁₅ := h₁₄.tail (Step.pullLast (i := true) rfl rfl rfl)
  simp only [update_true] at h₁₅
  have h₁₆ := h₁₅.tail (Step.call (c := ()) (.wait trivial))
  have h₁₇ := h₁₆.tail (Step.lock (c := ()) rfl rfl)
  have h₁₈ := h₁₇.tail (Step.noJobs (c := ()) rfl rfl)
  have h₁₉ := h₁₈.tail (Step.sleep (c := ()) (Or.inr ⟨rfl, nofun⟩))
  have h₂₀ := h₁₉.tail (Step.run (i := true) rfl)
  simp only [update_true] at h₂₀
  have h₂₁ := h₂₀.tail (Step.run (i := false) rfl)
  simp only [update_false] at h₂₁
  have h₂₂ := h₂₁.tail (Step.finish (i := true) rfl rfl ((if_neg nofun).mpr rfl))
  simp only [update_true] at h₂₂
  have h₂₃ := h₂₂.tail (Step.finish (i := false) rfl rfl ((if_pos rfl).mpr signal_asleep))
  simp only [update_false] at h₂₃
  have h₂₄ := h₂₃.tail (Step.move (i := false) (.enter rfl))
  simp only [update_false] at h₂₄
  have h₂₅ := h₂₄.tail (Step.park (i := false) rfl rfl)
  simp only [update_false] at h₂₅
  have h₂₆ := h₂₅.tail (Step.move (i := true) (.enter rfl))
  simp only [update_true] at h₂₆
  have h₂₇ := h₂₆.tail (Step.park (i := true) rfl rfl)
  simp only [update_true] at h₂₇
  have h₂₈ := h₂₇.tail (Step.lock (c := ()) rfl rfl)
  have h₂₉ := h₂₈.tail (Step.noJobs (c := ()) rfl rfl)
  exact ⟨_, h₂₉.tail (Step.allIdle (c := ()) rfl rfl), rfl, rfl, rfl, Bool.forall_bool.mpr ⟨rfl, rfl⟩⟩

/-- The client destroys the pool and frees it when the last worker was counted out but has yet to unlock the
mutex. -/
theorem reached_destroyed : ∃ p : Pool Nat Bool Unit, Reachable (fun _ => True) p ∧ p.client () = .destroyed ∧
    p.worker false = .gone ∧ p.worker true = .unlocking := by
  have h₀ := reached_init
  have h₁ := h₀.tail (Step.move (i := true) (.enter rfl))
  simp only [update_true] at h₁
  have h₂ := h₁.tail (Step.park (i := true) rfl rfl)
  simp only [update_true] at h₂
  have h₃ := h₂.tail (Step.destroy (c := ()) rfl)
  have h₄ := h₃.tail (Step.move (i := false) (.leave rfl))
  simp only [update_false] at h₄
  have h₅ := h₄.tail (Step.exit (i := false) rfl rfl)
  simp only [update_false] at h₅
  have h₆ := h₅.tail (Step.unlock (i := false) rfl)
  have h₇ := h₆.tail (Step.stillAlive (c := ()) rfl nofun)
  have h₈ := h₇.tail (Step.postAll (c := ()) rfl)
  have h₉ := h₈.tail (Step.take (i := true) rfl rfl)
  have h₁₀ := h₉.tail (Step.move (i := true) (.again rfl))
  have h₁₁ := h₁₀.tail (Step.move (i := true) (.leave rfl))
  have h₁₂ := h₁₁.tail (Step.exit (i := true) rfl rfl)
  exact ⟨_, h₁₂.tail (Step.destroyed (c := ()) rfl rfl), rfl, rfl, rfl⟩

section Results
variable [Fintype ι]

/-- Jobs are pulled in the order they were added. Each one pulled has been run once, or one worker has
it and will run it. -/
theorem thpool_runs_each_job_once (h : Reachable mayWait p) :
    p.added = p.pulled ++ p.queue ∧ (p.pulled : Multiset (Job J)) = p.finished + ∑ i, (p.worker i).jobs ∧
      p.finished.Nodup ∧ p.numThreadsWorking = ∑ i, (p.worker i).counted := by
  obtain ⟨⟨hjobs, hcounts⟩, -⟩ := reachable_ok h
  refine ⟨hjobs.order, hjobs.pulled, ?_, hcounts.working⟩
  have hadded : p.added.Nodup := by
    refine List.Nodup.of_map Job.number ?_
    rw [hjobs.numbered]
    exact List.nodup_range
  have hpulled : (p.pulled : Multiset (Job J)).Nodup := by
    rw [hjobs.order] at hadded
    exact (List.nodup_append.mp hadded).1
  rw [hjobs.pulled] at hpulled
  exact (Multiset.nodup_add.mp hpulled).1

theorem thpool_runs_each_job_once_two : ∃ p : Pool Nat Bool Unit, p.finished = [⟨1, 20⟩, ⟨0, 10⟩] ∧
    p.added = p.pulled ++ p.queue ∧ (p.pulled : Multiset (Job Nat)) = p.finished + ∑ i, (p.worker i).jobs ∧
      p.finished.Nodup ∧ p.numThreadsWorking = ∑ i, (p.worker i).counted := by
  obtain ⟨p, h, -, hfinished, -⟩ := reached_returned
  exact ⟨p, hfinished, thpool_runs_each_job_once h⟩

/-- `thpool_wait` returns when all jobs have been run that had been added when it was called. -/
theorem thpool_wait_returns_after_jobs (h : Reachable mayWait p) {c : κ} {mark : Nat}
    (hc : p.client c = .returned mark) : mark ≤ p.added.length ∧ ∀ job ∈ p.added.take mark, job ∈ p.finished := by
  obtain ⟨-, -, hwait⟩ := reachable_ok h
  have hclient := hwait c
  rwa [hc] at hclient

theorem thpool_wait_returns_after_jobs_two : ∃ p : Pool Nat Bool Unit, p.client () = .returned 2 ∧
    2 ≤ p.added.length ∧ ∀ job ∈ p.added.take 2, job ∈ p.finished := by
  obtain ⟨p, h, hc, -⟩ := reached_returned
  exact ⟨p, hc, thpool_wait_returns_after_jobs h hc⟩

/-- When all workers are asleep and no client is adding a job, all jobs have been run. If only one client
calls `thpool_wait`, it is not asleep there. -/
theorem thpool_no_lost_signal [Nonempty ι] (h : Reachable mayWait p) (hkeep : p.threadsKeepalive = true)
    (hparked : ∀ i, p.worker i = .parked) (hpush : ∀ c, p.client c ≠ .pushing) :
    (p.finished : Multiset (Job J)) = p.added ∧
      ((∀ c c', mayWait c → mayWait c' → c = c') → ∀ c mark, p.client c ≠ .asleep mark) := by
  obtain ⟨⟨hjobs, hcounts⟩, hsignal, -⟩ := reachable_ok h
  have hqueue : p.queue = [] := by
    by_contra hne
    rcases hsignal.posted hkeep hne with hv | ⟨i, hi⟩ | ⟨c, hc⟩
    · obtain ⟨i, hi⟩ := hsignal.woken hv ⟨Classical.arbitrary ι, hparked _⟩
      exact absurd ((hparked i).symm.trans hi) nofun
    · rw [hparked i] at hi
      exact hi
    · exact hpush c hc
  have hworking : p.numThreadsWorking = 0 := by
    rw [hcounts.working]
    exact Finset.sum_eq_zero fun i _ => by rw [hparked i]; rfl
  constructor
  · have hnone : ∑ i, (p.worker i).jobs = 0 := Finset.sum_eq_zero fun i _ => by rw [hparked i]; rfl
    rw [hjobs.order, hqueue, List.append_nil, hjobs.pulled, hnone, add_zero]
  · intro hone c mark hc
    rcases (reachable_idleOk hone h).busy c mark hc with hne | hne
    · exact hne hqueue
    · exact hne hworking

theorem thpool_no_lost_signal_two : ∃ p : Pool Nat Bool Unit, (∀ i, p.worker i = .parked) ∧
    (p.finished : Multiset (Job Nat)) = p.added ∧
      ((∀ c c' : Unit, True → True → c = c') → ∀ c mark, p.client c ≠ .asleep mark) := by
  obtain ⟨p, h, hc, -, hkeep, hparked⟩ := reached_returned
  exact ⟨p, hparked, thpool_no_lost_signal h hkeep hparked fun _ hpush => nomatch hc.symm.trans hpush⟩

/-- When `thpool_destroy` frees the pool, all workers have counted themselves out, and all that one of them may
still do with the pool is to unlock `thcount_lock`. The jobs that were not run are in the queue. -/
theorem thpool_destroy_after_workers (h : Reachable mayWait p) {c : κ} (hc : p.client c = .destroyed) :
    (∀ i, p.worker i = .gone ∨ p.worker i = .unlocking) ∧
      (∀ i j, p.worker i = .unlocking → p.worker j = .unlocking → i = j) ∧
      (p.added : Multiset (Job J)) = p.finished + p.queue := by
  obtain ⟨⟨hjobs, hcounts⟩, -, hwait⟩ := reachable_ok h
  have hclient := hwait c
  rw [hc] at hclient
  have hzero : ∑ i, (p.worker i).alive = 0 := hcounts.alive.symm.trans hclient
  rw [Finset.sum_eq_zero_iff] at hzero
  have hleft (i : ι) : p.worker i = .gone ∨ p.worker i = .unlocking := by
    have halive := hzero i (Finset.mem_univ i)
    cases hi : p.worker i <;> rw [hi] at halive <;> first | exact Or.inl rfl | exact Or.inr rfl | cases halive
  refine ⟨hleft, fun i j hi hj => ?_, ?_⟩
  · have hholds (k : ι) (hk : p.worker k = .unlocking) : holders p.worker p.client (.inl k) := by
      change (p.worker k).Holds
      rw [hk]
      trivial
    exact Sum.inl_injective ((reachable_lockOk h).alone _ _ (hholds i hi) (hholds j hj))
  · have hnone : ∑ i, (p.worker i).jobs = 0 :=
      Finset.sum_eq_zero fun i _ => by rcases hleft i with hi | hi <;> rw [hi] <;> rfl
    have hpulled := hjobs.pulled
    rw [hnone, add_zero] at hpulled
    rw [hjobs.order, ← hpulled, Multiset.coe_add]

/-- The last worker unlocks a mutex of a pool that was freed. -/
theorem thpool_destroy_after_workers_two : ∃ p : Pool Nat Bool Unit, p.client () = .destroyed ∧
    p.worker true = .unlocking ∧ (∀ i, p.worker i = .gone ∨ p.worker i = .unlocking) ∧
      (∀ i j, p.worker i = .unlocking → p.worker j = .unlocking → i = j) ∧
      (p.added : Multiset (Job Nat)) = p.finished + p.queue := by
  obtain ⟨p, h, hc, -, hi⟩ := reached_destroyed
  exact ⟨p, hc, hi, thpool_destroy_after_workers h hc⟩

end Results

end Miqs.ThPool
