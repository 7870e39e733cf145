/-
When `sync` has returned, the names of the files that have been written to are durable.

The flag and the flush are a `DirtyFlag`, which keeps what is covered.  What has to be shown
here is that every file a call has a handle for is covered: the creator sets the flag before
it lets go of the map, and a reader, who opens a file without the lock, has to take it to
enter the handle.  A write that has returned has a handle for each of its segments, so a
`sync` that begins after it has their names ahead of it.
-/
import WalDb.Segment.Durable
import WalDb.Segment.Names

namespace WalDb
namespace Names

open Lib SegmentedStore

/-! ## The invariant -/

/-- A writer has created the file and not set the flag yet. -/
def Creating (r : Names) (i : Nat) : Prop :=
  ∃ c call, r.lock = some c ∧ r.calls[c]? = some call ∧ call.stage = .created ∧
    call.todo.head? = some i

/-- What is known of a call by its stage. -/
structure CallOk (r : Names) (c : Nat) (call : StoreCall) : Prop where
  /-- The segments behind it have a handle. -/
  passed : ∀ i ∈ chunkIndices r.segmentSize call.offset call.n, i ∈ r.handles ∨ i ∈ call.todo
  holds : call.stage = .locked ∨ call.stage = .created ∨ call.stage = .flagged → r.lock = some c
  present : call.stage = .created ∨ call.stage = .flagged ∨ call.stage = .found →
    ∀ i ∈ call.todo.head?, i ∈ r.dir.present
  covered : call.stage = .flagged → ∀ i ∈ call.todo.head?, r.dir.Covered i
  opened : call.stage = .opened → ∀ i ∈ call.todo.head?, i ∈ r.handles
  done : call.kind = .write → call.stage = .returned → call.todo = []

structure Inv (r : Names) : Prop where
  mapped : ∀ i ∈ r.handles, i ∈ r.dir.present ∧ r.dir.Covered i
  covered : ∀ i ∈ r.dir.present, r.dir.Covered i ∨ r.Creating i
  calls : ∀ c call, r.calls[c]? = some call → CallOk r c call
  retries : r.dir.Retries
  flushing : r.sync = .flushing ↔ r.dir.flusher ≠ .idle ∧ r.dir.flusher ≠ .clean
  clean : r.sync = .rest ∨ r.sync = .acked → r.dir.flusher = .clean

/-- What no step takes back. -/
structure Grows (r r' : Names) : Prop where
  segmentSize : r'.segmentSize = r.segmentSize
  handles : ∀ i ∈ r.handles, i ∈ r'.handles
  present : ∀ i ∈ r.dir.present, i ∈ r'.dir.present
  covered : ∀ i ∈ r.dir.present, r.dir.Covered i → r'.dir.Covered i

theorem grows_of_dir {r r' : Names} (hsize : r'.segmentSize = r.segmentSize)
    (hhandles : ∀ i ∈ r.handles, i ∈ r'.handles)
    (hdir : r'.dir = r.dir ∨ ∃ a, r.dir.step a = some r'.dir) : Grows r r' := by
  refine ⟨hsize, hhandles, fun i hi => ?_, fun i hi hcov => ?_⟩
  · rcases hdir with heq | ⟨a, hstep⟩
    · exact heq ▸ hi
    · exact DirtyFlag.step_present hstep hi
  · rcases hdir with heq | ⟨a, hstep⟩
    · exact heq ▸ hcov
    · exact DirtyFlag.step_covered hstep hi hcov

/-- What is known of a call stays known while it rests. -/
theorem CallOk.grow {r r' : Names} {c : Nat} {call : StoreCall} (h : CallOk r c call) (hg : Grows r r')
    (hlock : r.lock = some c → r'.lock = some c) : CallOk r' c call where
  passed := by
    rw [hg.segmentSize]
    exact fun i hi => (h.passed i hi).imp (hg.handles i) id
  holds := fun hs => hlock (h.holds hs)
  present := fun hs i hi => hg.present i (h.present hs i hi)
  covered := fun hs i hi => hg.covered i (h.present (Or.inr (Or.inl hs)) i hi) (h.covered hs i hi)
  opened := fun hs i hi => hg.handles i (h.opened hs i hi)
  done := h.done

theorem forall_head {p : Nat → Prop} {call : StoreCall} {i : Nat} {todo : List Nat}
    (ht : call.todo = i :: todo) (hi : p i) : ∀ j ∈ call.todo.head?, p j := by
  rw [ht]
  exact fun j hj => Option.some.inj hj ▸ hi

section At

variable {r : Names} {c : Nat} {call : StoreCall}

/-- A stage that says nothing about what is shared. -/
theorem CallOk.plain_at (h : CallOk r c call) {stage : Stage}
    (hs : stage = .missed ∨ stage = .failed) : CallOk r c (call.at stage) := by
  rcases hs with rfl | rfl <;> exact ⟨h.passed, nofun, nofun, nofun, nofun, nofun⟩

theorem CallOk.opened_at (h : CallOk r c call) (hi : ∀ i ∈ call.todo.head?, i ∈ r.handles) :
    CallOk r c (call.at .opened) :=
  ⟨h.passed, nofun, nofun, nofun, fun _ => hi, nofun⟩

theorem CallOk.returned_at (h : CallOk r c call) (hdone : call.kind = .write → call.todo = []) :
    CallOk r c (call.at .returned) :=
  ⟨h.passed, nofun, nofun, nofun, nofun, fun hk _ => hdone hk⟩

end At

section Access

variable {r r1 : Names} {c i : Nat} {todo : List Nat} {call call' : StoreCall} {act : Access}

/-- What an access does, as far as the invariant is concerned. -/
structure MoveOk (r : Names) (c : Nat) (call : StoreCall) (r1 : Names) (call' : StoreCall) : Prop where
  segmentSize_eq : r1.segmentSize = r.segmentSize
  sync_eq : r1.sync = r.sync
  flusher_eq : r1.dir.flusher = r.dir.flusher
  dir : r1.dir = r.dir ∨ ∃ a, a ≠ .enter ∧ r.dir.step a = some r1.dir
  handles : ∀ i ∈ r.handles, i ∈ r1.handles
  /-- Only the call that has the lock lets go of it. -/
  lock : r1.lock = r.lock ∨ r.lock = none ∨ r.lock = some c
  mapped : ∀ i ∈ r1.handles, i ∈ r.handles ∨ i ∈ r1.dir.present ∧ r1.dir.Covered i
  added : ∀ i ∈ r1.dir.present, i ∈ r.dir.present ∨
    r1.lock = some c ∧ call'.stage = .created ∧ call'.todo.head? = some i
  /-- A creator goes on by setting the flag. -/
  created : call.stage = .created → ∀ i, r1.dir.Covered i
  callOk : CallOk r1 c call'

theorem MoveOk.quiet (hstage : call.stage ≠ .created) (hcall : CallOk r c call') :
    MoveOk r c call r call' where
  segmentSize_eq := rfl
  sync_eq := rfl
  flusher_eq := rfl
  dir := Or.inl rfl
  handles := fun _ hi => hi
  lock := Or.inl rfl
  mapped := fun _ hi => Or.inl hi
  added := fun _ hi => Or.inl hi
  created := fun hs => absurd hs hstage
  callOk := hcall

/-- Taking the lock, or letting go of it. -/
theorem MoveOk.relock (hstage : call.stage ≠ .created) {lock : Option Nat}
    (hlock : r.lock = none ∨ r.lock = some c) (hcall : CallOk { r with lock := lock } c call') :
    MoveOk r c call { r with lock := lock } call' where
  segmentSize_eq := rfl
  sync_eq := rfl
  flusher_eq := rfl
  dir := Or.inl rfl
  handles := fun _ hi => hi
  lock := Or.inr hlock
  mapped := fun _ hi => Or.inl hi
  added := fun _ hi => Or.inl hi
  created := fun hs => absurd hs hstage
  callOk := hcall

/-- Entering the handle of a file that is covered. -/
theorem MoveOk.enter (hstage : call.stage ≠ .created) {lock : Option Nat}
    (hlock : lock = r.lock ∨ r.lock = none ∨ r.lock = some c) {handles : List Nat} {i : Nat}
    (hold : ∀ j ∈ r.handles, j ∈ handles) (hnew : ∀ j ∈ handles, j ∈ r.handles ∨ j = i)
    (hi : i ∈ r.dir.present) (hcov : r.dir.Covered i)
    (hcall : CallOk { r with handles := handles, lock := lock } c call') :
    MoveOk r c call { r with handles := handles, lock := lock } call' where
  segmentSize_eq := rfl
  sync_eq := rfl
  flusher_eq := rfl
  dir := Or.inl rfl
  handles := hold
  lock := hlock
  mapped := fun j hj => by
    rcases hnew j hj with hold | rfl
    · exact Or.inl hold
    · exact Or.inr ⟨hi, hcov⟩
  added := fun _ hi => Or.inl hi
  created := fun hs => absurd hs hstage
  callOk := hcall

theorem MoveOk.create (hcall : CallOk r c call) (hs : call.stage = .locked)
    (ht : call.todo = i :: todo) :
    MoveOk r c call { r with dir := r.dir.add i } (call.at .created) := by
  have hlock := hcall.holds (Or.inl hs)
  refine ⟨rfl, rfl, rfl, Or.inr ⟨.add i, nofun, rfl⟩, fun _ hi => hi, Or.inl rfl,
    fun _ hi => Or.inl hi, fun j hj => ?_, fun hs' => ?_, hcall.passed, fun _ => hlock,
    fun _ => forall_head ht DirtyFlag.mem_add_self, nofun, nofun, nofun⟩
  · rcases DirtyFlag.mem_add.mp hj with hj | rfl
    · exact Or.inl hj
    · exact Or.inr ⟨hlock, rfl, congrArg List.head? ht⟩
  · rw [hs] at hs'
    cases hs'

theorem MoveOk.setFlag (hcall : CallOk r c call) (hs : call.stage = .created) :
    MoveOk r c call { r with dir := r.dir.mark } (call.at .flagged) := by
  have hall : ∀ j, r.dir.mark.Covered j := DirtyFlag.covered_of_dirty rfl
  exact ⟨rfl, rfl, rfl, Or.inr ⟨.mark, nofun, rfl⟩, fun _ hi => hi, Or.inl rfl,
    fun _ hi => Or.inl hi, fun _ hj => Or.inl hj, fun _ => hall,
    hcall.passed, fun _ => hcall.holds (Or.inr (Or.inl hs)), fun _ => hcall.present (Or.inl hs),
    fun _ j _ => hall j, nofun, nofun⟩

theorem MoveOk.insert (hcall : CallOk r c call) (hs : call.stage = .flagged)
    (ht : call.todo = i :: todo) :
    MoveOk r c call { r with handles := i :: r.handles, lock := none } (call.at .opened) := by
  have hhead : i ∈ call.todo.head? := by
    rw [ht]
    rfl
  exact .enter (by rw [hs]; exact nofun) (Or.inr (Or.inr (hcall.holds (Or.inr (Or.inr hs)))))
    (fun _ => List.mem_cons_of_mem i) (fun j hj => (List.mem_cons.mp hj).symm)
    (hcall.present (Or.inr (Or.inl hs)) i hhead) (hcall.covered hs i hhead)
    ⟨fun j hj => (hcall.passed j hj).imp (List.mem_cons_of_mem i) id, nofun, nofun, nofun,
      fun _ => forall_head ht List.mem_cons_self, nofun⟩

/-- A reader finds the lock free, so nobody has created a file and not set the flag. -/
theorem MoveOk.insertFound (h : Inv r) (hcall : CallOk r c call) (hfree : r.lock = none)
    (hs : call.stage = .found) (ht : call.todo = i :: todo) :
    MoveOk r c call { r with handles := if i ∈ r.handles then r.handles else i :: r.handles }
      (call.at .opened) := by
  have hi : i ∈ r.dir.present := hcall.present (Or.inr (Or.inr hs)) i (by rw [ht]; rfl)
  have hcov : r.dir.Covered i := by
    rcases h.covered i hi with hcov | ⟨_, _, hlock, -⟩
    · exact hcov
    · rw [hfree] at hlock
      cases hlock
  by_cases hin : i ∈ r.handles
  · rw [if_pos hin]
    exact .quiet (by rw [hs]; exact nofun) (hcall.opened_at (forall_head ht hin))
  · rw [if_neg hin]
    exact .enter (by rw [hs]; exact nofun) (Or.inl rfl)
      (fun _ => List.mem_cons_of_mem i) (fun j hj => (List.mem_cons.mp hj).symm) hi hcov
      ⟨fun j hj => (hcall.passed j hj).imp (List.mem_cons_of_mem i) id, nofun, nofun, nofun,
        fun _ => forall_head ht List.mem_cons_self, nofun⟩

theorem CallOk.transfer (hcall : CallOk r c call) (hs : call.stage = .opened)
    (ht : call.todo = i :: todo) : CallOk r c { call with todo := todo, stage := .next } := by
  refine ⟨fun j hj => ?_, nofun, nofun, nofun, nofun, nofun⟩
  rcases hcall.passed j hj with hmapped | htodo
  · exact Or.inl hmapped
  · rw [ht] at htodo
    rcases List.mem_cons.mp htodo with rfl | htodo
    · exact Or.inl (hcall.opened hs j (by rw [ht]; rfl))
    · exact Or.inr htodo

theorem move_ok (h : Inv r) (hc : r.calls[c]? = some call)
    (hm : r.move c call act = some (r1, call')) : MoveOk r c call r1 call' := by
  have hcall := h.calls c call hc
  unfold move at hm
  split at hm
  · -- lookup
    rename_i i todo hs ht
    split at hm <;> cases hm
    refine .quiet (by rw [hs]; exact nofun) ?_
    by_cases hi : i ∈ r.handles
    · rw [if_pos hi]
      exact hcall.opened_at (forall_head ht hi)
    · rw [if_neg hi]
      exact hcall.plain_at (by decide)
  · -- lockMap
    rename_i i todo hk hs ht
    split at hm
    · rename_i hfree
      split at hm <;> cases hm
      · rename_i hi
        exact .quiet (by rw [hs]; exact nofun) (hcall.opened_at (forall_head ht hi))
      · exact .relock (by rw [hs]; exact nofun) (Or.inl hfree)
          ⟨hcall.passed, fun _ => rfl, nofun, nofun, nofun, nofun⟩
    · cases hm
  · -- create
    rename_i i todo hk hs ht
    cases hm
    exact .create hcall hs ht
  · -- createFails
    rename_i i todo hk hs ht
    cases hm
    exact .relock (by rw [hs]; exact nofun) (Or.inr (hcall.holds (Or.inl hs)))
      ⟨hcall.passed, nofun, nofun, nofun, nofun, nofun⟩
  · -- setFlag
    rename_i i todo hk hs ht
    cases hm
    exact .setFlag hcall hs
  · -- insert
    rename_i i todo hk hs ht
    cases hm
    exact .insert hcall hs ht
  · -- openFile
    rename_i i todo hk hs ht
    cases hm
    refine .quiet (by rw [hs]; exact nofun) ?_
    by_cases hi : i ∈ r.dir.present
    · rw [if_pos hi]
      exact ⟨hcall.passed, nofun, fun _ => forall_head ht hi, nofun, nofun, nofun⟩
    · rw [if_neg hi]
      exact hcall.returned_at (by rw [hk]; exact nofun)
  · -- openFails
    rename_i i todo hk hs ht
    cases hm
    exact .quiet (by rw [hs]; exact nofun) (hcall.plain_at (by decide))
  · -- insertFound
    rename_i i todo hk hs ht
    split at hm <;> cases hm
    rename_i hfree
    exact .insertFound h hcall hfree hs ht
  · -- transfer
    rename_i i todo hs ht
    cases hm
    exact .quiet (by rw [hs]; exact nofun) (hcall.transfer hs ht)
  · -- transferFails
    rename_i i todo hs ht
    cases hm
    exact .quiet (by rw [hs]; exact nofun) (hcall.plain_at (by decide))
  · -- shortRead
    rename_i i todo hk hs ht
    cases hm
    exact .quiet (by rw [hs]; exact nofun) (hcall.returned_at (by rw [hk]; exact nofun))
  · -- finish
    rename_i hs ht
    cases hm
    exact .quiet (by rw [hs]; exact nofun) (hcall.returned_at fun _ => ht)
  · cases hm

/-- A lock that another call has stays with it. -/
theorem MoveOk.lock_other (hm : MoveOk r c call r1 call') {j : Nat} (hj : j ≠ c)
    (hl : r.lock = some j) : r1.lock = some j := by
  rcases hm.lock with heq | hnone | hself
  · rw [heq, hl]
  · rw [hnone] at hl
    cases hl
  · rw [hself] at hl
    cases hl
    exact absurd rfl hj

/-- An access keeps the invariant. -/
theorem MoveOk.inv (hm : MoveOk r c call r1 call') (h : Inv r) (hc : r.calls[c]? = some call) :
    Inv { r1 with calls := r.calls.set c call' } := by
  have hg : Grows r { r1 with calls := r.calls.set c call' } :=
    grows_of_dir hm.segmentSize_eq hm.handles (hm.dir.imp id fun ⟨a, _, ha⟩ => ⟨a, ha⟩)
  have hretries : r1.dir.Retries := by
    rcases hm.dir with heq | ⟨a, -, hstep⟩
    · exact heq ▸ h.retries
    · exact DirtyFlag.step_retries hstep h.retries
  have hset : ∀ j, (r.calls.set c call')[j]? = if c = j then some call' else r.calls[j]? := by
    intro j
    obtain ⟨hlt, -⟩ := List.getElem?_eq_some_iff.mp hc
    rw [List.getElem?_set]
    by_cases hj : c = j
    · rw [if_pos hj, if_pos hj, if_pos (hj ▸ hlt)]
    · rw [if_neg hj, if_neg hj]
  refine ⟨fun i hi => ?_, fun i hi => ?_, fun j other hj => ?_, hretries, ?_, ?_⟩
  · rcases hm.mapped i hi with hold | hnew
    · obtain ⟨hp, hcov⟩ := h.mapped i hold
      exact ⟨hg.present i hp, hg.covered i hp hcov⟩
    · exact hnew
  · rcases hm.added i hi with hold | ⟨hl, hs, hhead⟩
    · rcases h.covered i hold with hcov | ⟨j, other, hl, hj, hs, hhead⟩
      · exact Or.inl (hg.covered i hold hcov)
      · by_cases hjc : j = c
        · subst hjc
          rw [hc] at hj
          cases hj
          exact Or.inl (hm.created hs i)
        · exact Or.inr ⟨j, other, hm.lock_other hjc hl, by rw [hset, if_neg (Ne.symm hjc), hj], hs,
            hhead⟩
    · exact Or.inr ⟨c, call', hl, by rw [hset, if_pos rfl], hs, hhead⟩
  · rw [hset] at hj
    by_cases hcj : c = j
    · rw [if_pos hcj] at hj
      cases hj
      subst hcj
      exact hm.callOk.grow (grows_of_dir rfl (fun _ h => h) (Or.inl rfl)) fun hl => hl
    · rw [if_neg hcj] at hj
      exact (h.calls j other hj).grow hg (hm.lock_other (Ne.symm hcj))
  · rw [hm.sync_eq, hm.flusher_eq]
    exact h.flushing
  · rw [hm.sync_eq, hm.flusher_eq]
    exact h.clean

end Access

/-! ## Every step keeps it -/

section Step

variable {r r' : Names} {act : Action} {as : List Nat}

/-- A step of the flusher. -/
theorem Inv.flusher (h : Inv r) {a : DirtyFlag.Action Nat} {dir : DirtyFlag Nat} {sync : SyncStage}
    (hstep : r.dir.step a = some dir) (ha : ∀ i, a ≠ .add i)
    (hflushing : sync = .flushing ↔ dir.flusher ≠ .idle ∧ dir.flusher ≠ .clean)
    (hclean : sync = .rest ∨ sync = .acked → dir.flusher = .clean) :
    Inv { r with dir := dir, sync := sync } := by
  have hg : Grows r { r with dir := dir, sync := sync } :=
    grows_of_dir rfl (fun _ h => h) (Or.inr ⟨a, hstep⟩)
  refine ⟨fun i hi => ?_, fun i hi => ?_, fun c call hc => ?_, DirtyFlag.step_retries hstep h.retries,
    hflushing, hclean⟩
  · obtain ⟨hp, hcov⟩ := h.mapped i hi
    exact ⟨hg.present i hp, hg.covered i hp hcov⟩
  · have hi : i ∈ dir.present := hi
    rw [DirtyFlag.step_present_eq hstep ha] at hi
    exact (h.covered i hi).imp (hg.covered i hi) id
  · exact (h.calls c call hc).grow hg fun hl => hl

/-- A call that has just begun. -/
theorem Inv.start (h : Inv r) (kind : Kind) (offset n : Nat) :
    Inv { r with
      calls := r.calls ++ [⟨kind, offset, n, chunkIndices r.segmentSize offset n, .next⟩] } := by
  refine ⟨h.mapped, fun i hi => ?_, fun c call hc => ?_, h.retries, h.flushing, h.clean⟩
  · refine (h.covered i hi).imp id fun ⟨c, call, hl, hc, hs, hhead⟩ => ?_
    obtain ⟨hlt, -⟩ := List.getElem?_eq_some_iff.mp hc
    exact ⟨c, call, hl, (List.getElem?_append_left hlt).trans hc, hs, hhead⟩
  · have hg : Grows r { r with
        calls := r.calls ++ [⟨kind, offset, n, chunkIndices r.segmentSize offset n, .next⟩] } :=
      grows_of_dir rfl (fun _ h => h) (Or.inl rfl)
    by_cases hlt : c < r.calls.length
    · rw [List.getElem?_append_left hlt] at hc
      exact (h.calls c call hc).grow hg fun hl => hl
    · rw [List.getElem?_append_right (Nat.not_lt.mp hlt)] at hc
      rw [List.mem_singleton.mp (List.mem_of_getElem? hc)]
      exact ⟨fun _ hi => Or.inr hi, nofun, nofun, nofun, nofun, nofun⟩

/-- Behind the flush of the directory `sync` returns. -/
theorem Inv.leave (h : Inv r) (hrest : r.sync = .rest ∨ r.sync = .acked) {sync : SyncStage}
    (hsync : sync ≠ .flushing) : Inv { r with sync := sync } := by
  have hclean := h.clean hrest
  refine ⟨h.mapped, h.covered, fun c call hc => ?_, h.retries,
    iff_of_false hsync fun hf => hf.2 hclean, fun _ => hclean⟩
  exact (h.calls c call hc).grow (grows_of_dir rfl (fun _ h => h) (Or.inl rfl)) fun hl => hl

theorem step_inv (h : Inv r) (hstep : r.step act = some r') : Inv r' := by
  cases act with
  | start kind offset n =>
      cases hstep
      exact h.start kind offset n
  | access c a =>
      obtain ⟨call, hc, hstep⟩ := Option.bind_eq_some_iff.mp hstep
      obtain ⟨⟨r1, call'⟩, hm, rfl⟩ := Option.map_eq_some_iff.mp hstep
      exact (move_ok h hc hm).inv h hc
  | syncBegin =>
      rw [step] at hstep
      split at hstep
      · cases hstep
      · obtain ⟨dir, hdir, rfl⟩ := Option.map_eq_some_iff.mp hstep
        refine h.flusher hdir (fun i hi => by cases hi) ?_ fun hend => absurd hend (by decide)
        cases DirtyFlag.step_cases hdir
        have hidle : (Flusher.begun : Flusher Nat) ≠ .idle := by decide
        have hclean : (Flusher.begun : Flusher Nat) ≠ .clean := by decide
        exact iff_of_true rfl ⟨hidle, hclean⟩
  | flushStep a =>
      rw [step] at hstep
      split at hstep
      · rename_i hcan
        obtain ⟨dir, hdir, rfl⟩ := Option.map_eq_some_iff.mp hstep
        refine h.flusher hdir ?_ ?_ ?_
        · rintro i rfl
          cases hcan.2
        · cases dir.flusher <;> simp [syncAt]
        · cases dir.flusher <;> simp [syncAt]
      · cases hstep
  | restOk =>
      rw [step] at hstep
      split at hstep <;> cases hstep
      rename_i hrest
      exact h.leave (Or.inl hrest) (by decide)
  | restFails =>
      rw [step] at hstep
      split at hstep <;> cases hstep
      rename_i hrest
      exact h.leave (Or.inl hrest) (by decide)

/-- A `sync` that begins has the names ahead of it that are covered. -/
theorem syncBegin_due (hstep : r.step .syncBegin = some r')
    (has : ∀ i ∈ as, i ∈ r.dir.present ∧ r.dir.Covered i) : DirtyFlag.Due as r'.dir := by
  rw [step] at hstep
  split at hstep
  · cases hstep
  · obtain ⟨dir, hdir, rfl⟩ := Option.map_eq_some_iff.mp hstep
    exact DirtyFlag.enter_due hdir has

/-- Only a new `sync` starts a new round. -/
theorem step_due (h : Inv r) (hstep : r.step act = some r') (hne : act ≠ .syncBegin)
    (hd : DirtyFlag.Due as r.dir) : DirtyFlag.Due as r'.dir := by
  cases act with
  | start kind offset n =>
      cases hstep
      exact hd
  | access c a =>
      obtain ⟨call, hc, hstep⟩ := Option.bind_eq_some_iff.mp hstep
      obtain ⟨⟨r1, call'⟩, hm, rfl⟩ := Option.map_eq_some_iff.mp hstep
      rcases (move_ok h hc hm).dir with heq | ⟨a, hne, hdir⟩
      · exact heq.symm ▸ hd
      · exact DirtyFlag.step_due hdir hne hd
  | syncBegin => exact absurd rfl hne
  | flushStep a =>
      rw [step] at hstep
      split at hstep
      · rename_i hcan
        obtain ⟨dir, hdir, rfl⟩ := Option.map_eq_some_iff.mp hstep
        refine DirtyFlag.step_due hdir ?_ hd
        rintro rfl
        cases hcan.2
      · cases hstep
  | restOk | restFails =>
      rw [step] at hstep
      split at hstep <;> cases hstep
      exact hd

end Step

/-! ## Whole runs -/

/-- A store that has been opened takes nothing for durable: the flag is set. -/
theorem openDir_dirty {size : Nat} {created : Bool} {d d' : Dir} {s : SegmentedStore}
    (hopen : openDir size created d = (.ok s, d')) : s.dirDirty = true ∧ s.handles = [] := by
  rw [openDir] at hopen
  by_cases hzero : size = 0
  · rw [dif_pos hzero] at hopen
    cases hopen
  · rw [dif_neg hzero] at hopen
    obtain ⟨_, _, -, hopen⟩ := Act.bind_eq_ok hopen
    obtain ⟨_, _, -, hopen⟩ := Act.bind_eq_ok hopen
    rw [Act.get_bind] at hopen
    obtain ⟨_, _, -, hopen⟩ := Act.bind_eq_ok hopen
    obtain ⟨_, _, -, hopen⟩ := Act.bind_eq_ok hopen
    rw [Act.get_bind] at hopen
    cases hopen
    exact ⟨rfl, rfl⟩

theorem inv_ofStore {s : SegmentedStore} (hdirty : s.dirDirty = true) (hhandles : s.handles = [])
    (durable : List Nat) : Inv (ofStore s durable) where
  mapped := fun i hi => by
    have hi : i ∈ s.handles := hi
    rw [hhandles] at hi
    cases hi
  covered := fun i _ => Or.inl (DirtyFlag.covered_of_dirty hdirty i)
  calls := fun _ _ hc => by cases hc
  retries := nofun
  flushing := iff_of_false nofun fun h => h.1 rfl
  clean := nofun

/-- A write that has returned has left a handle for each of its segments. -/
theorem Inv.returned_mapped {r : Names} (h : Inv r) {call : StoreCall} (hcall : call ∈ r.calls)
    (hwrite : call.kind = .write) (hreturned : call.stage = .returned) :
    ∀ i ∈ chunkIndices r.segmentSize call.offset call.n, i ∈ r.handles := by
  obtain ⟨c, hc⟩ := List.mem_iff_getElem?.mp hcall
  have hok := h.calls c call hc
  intro i hi
  refine (hok.passed i hi).resolve_right ?_
  rw [hok.done hwrite hreturned]
  exact List.not_mem_nil

/-- A round of `sync` has its names ahead of it until it is over. -/
theorem due_of_run {r r' : Names} {as : List Nat} {acts : List Action} (h : Inv r)
    (hd : DirtyFlag.Due as r.dir) (hone : .syncBegin ∉ acts) (hrun : run step r acts = some r') :
    DirtyFlag.Due as r'.dir := by
  have hkeep : ∀ t act t', Inv t ∧ DirtyFlag.Due as t.dir → act ≠ Action.syncBegin →
      t.step act = some t' → Inv t' ∧ DirtyFlag.Due as t'.dir :=
    fun t act t' ht hne hstep => ⟨step_inv ht.1 hstep, step_due ht.1 hstep hne ht.2⟩
  have hothers : ∀ act ∈ acts, act ≠ Action.syncBegin := fun act hact heq => hone (heq ▸ hact)
  exact (run_along hkeep ⟨h, hd⟩ (Along.of_forall (fun act hact _ => hothers act hact) r) hrun).2

/-- Whatever calls run at the same time, when `sync` has returned the names of the files that
the writes before it have touched are durable; and a flush that has failed is made up for:
the flag is set again, and no `sync` gets past the flush without another one. -/
theorem sync_makes_names_durable {size : Nat} {created : Bool} {d d' : Dir} {s : SegmentedStore}
    (hopen : openDir size created d = (.ok s, d')) (durable : List Nat)
    {before after : List Action} {r1 r : Names}
    (hbefore : run step (ofStore s durable) before = some r1)
    (hafter : run step r1 (.syncBegin :: after) = some r) (hone : .syncBegin ∉ after) :
    (r.sync = .acked → ∀ call ∈ r1.calls, call.kind = .write → call.stage = .returned →
      ∀ i ∈ chunkIndices r1.segmentSize call.offset call.n, i ∈ r.dir.durable) ∧
    (r.dir.owed = true → r.sync ≠ .flushing → r.dir.dirty = true) ∧
    (r.sync = .rest ∨ r.sync = .acked → r.dir.owed = false) := by
  obtain ⟨hdirty, hhandles⟩ := openDir_dirty hopen
  have hinv1 : Inv r1 :=
    run_invariant (fun _ _ _ => step_inv) (inv_ofStore hdirty hhandles durable) hbefore
  have hinv : Inv r := run_invariant (fun _ _ _ => step_inv) hinv1 hafter
  have hclean : r.sync = .rest ∨ r.sync = .acked → r.dir.owed = false := by
    intro hsync
    have hretries := hinv.retries
    rw [DirtyFlag.Retries, hinv.clean hsync] at hretries
    exact Bool.eq_false_iff.mpr hretries
  refine ⟨fun hacked call hcall hwrite hreturned => ?_, fun howed hsync => ?_, hclean⟩
  · obtain ⟨r2, hbegin, hafter⟩ := Option.bind_eq_some_iff.mp hafter
    have hdue := syncBegin_due hbegin fun i hi =>
      hinv1.mapped i (hinv1.returned_mapped hcall hwrite hreturned i hi)
    have hend := due_of_run (step_inv hinv1 hbegin) hdue hone hafter
    rw [DirtyFlag.Due, hinv.clean (Or.inr hacked)] at hend
    exact hend
  · have hidle := mt hinv.flushing.mpr hsync
    refine hinv.retries.dirty howed ?_
    by_cases hf : r.dir.flusher = .idle
    · exact Or.inl hf
    · exact Or.inr (Or.inl (not_not.mp fun hne => hidle ⟨hf, hne⟩))

/-- A write across two segments, and a `sync` between them whose flush fails. -/
def createsTwo : List Action :=
  [.start .write 4 8, .access 0 .lookup, .access 0 .lockMap, .access 0 .create, .access 0 .setFlag,
    .access 0 .insert, .access 0 .transfer, .syncBegin, .flushStep .load, .flushStep .swap,
    .flushStep .start, .access 0 .lookup, .access 0 .lockMap, .access 0 .create,
    .flushStep .fail, .flushStep .restore, .access 0 .setFlag, .access 0 .insert,
    .access 0 .transfer, .access 0 .finish]

/-- The rest of a `sync`, and another write that creates a file while it runs. -/
def flushesAgain : List Action :=
  [.start .write 16 1, .flushStep .load, .access 1 .lookup, .access 1 .lockMap, .flushStep .swap,
    .flushStep .start, .access 1 .create, .access 1 .setFlag, .access 1 .insert,
    .flushStep .finish, .restOk]

theorem sync_makes_names_durable_retried :
    ∃ r1 r, openDir 8 true Dir.empty = (.ok freshEight, Dir.empty) ∧
      run step (ofStore freshEight []) createsTwo = some r1 ∧
      run step r1 (.syncBegin :: flushesAgain) = some r ∧ .syncBegin ∉ flushesAgain ∧
      r1.dir.owed = true ∧ r1.dir.dirty = true ∧ r.sync = .acked ∧ r.dir.owed = false ∧
      (⟨.write, 4, 8, [], .returned⟩ : StoreCall) ∈ r1.calls ∧
      chunkIndices r1.segmentSize 4 8 = [0, 1] ∧ 0 ∈ r.dir.durable ∧ 1 ∈ r.dir.durable := by
  have hobs : ((run step (ofStore freshEight []) createsTwo).bind fun r1 =>
      (run step r1 (.syncBegin :: flushesAgain)).map fun r =>
        (decide (r1.dir.owed = true ∧ r1.dir.dirty = true ∧ r.sync = .acked ∧
          (⟨.write, 4, 8, [], .returned⟩ : StoreCall) ∈ r1.calls ∧
          chunkIndices r1.segmentSize 4 8 = [0, 1]))) = some true := by decide +kernel
  obtain ⟨r1, hbefore, hobs⟩ := Option.bind_eq_some_iff.mp hobs
  obtain ⟨r, hafter, hobs⟩ := Option.map_eq_some_iff.mp hobs
  obtain ⟨howed, hdirty, hacked, hcall, hindices⟩ := of_decide_eq_true hobs
  have hone : Action.syncBegin ∉ flushesAgain := by decide
  obtain ⟨hdurable, -, hmade⟩ := sync_makes_names_durable openDir_eight [] hbefore hafter hone
  have hnames := hdurable hacked _ hcall rfl rfl
  rw [hindices] at hnames
  exact ⟨r1, r, openDir_eight, hbefore, hafter, hone, howed, hdirty, hacked, hmade (Or.inr hacked),
    hcall, hindices, hnames 0 (by decide), hnames 1 (by decide)⟩

end Names
end WalDb
