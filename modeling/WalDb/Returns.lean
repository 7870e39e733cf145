/-
Every call returns, whatever system calls fail.

A program of one thread runs over a file or over segments, and the operating system may
fail each call it gets.  No call of the log panics and none waits, not even after
failures: an append that failed leaves a poison, a flush that failed refuses the later
ones, and a failed truncation can be tried again.  The file may hold anything, and so may the
directory as long as its segments lie below the last offset: the loop of `read_at` adds what
it has got to its position and does not check the sum.

`truncate_before` clamps an offset between the head and the length of the store, and
clamping panics where the length is below the head.  It comes to that only if
`truncate_after` has been given an offset below the head, so that is excluded.
-/
import WalDb.Alone

namespace WalDb

open Lib Lib.Act Record Relation Shipped

/-- The call has returned, with a result or with an error. -/
def Returns {α : Type} : Except Fault α → Prop
  | .ok _ => True
  | .error (.err _) => True
  | .error _ => False

/-- A store that answers every call whatever fails, where `P floor` says that its head is at
`floor` and `C` what it is to be opened with. -/
structure Robust {S : Type} [WalStore S] [Shipped S] (C : S → Prop) (P : Nat → S → Prop) :
    Prop where
  answers : ∀ floor, Answers floor (P floor)
  truncateBefore : ∀ {s : S} {floor off : Nat}, P floor s → off < 2 ^ 64 →
    (WalStore.truncateBefore off).Ends s (fun head s' => head < 2 ^ 64 ∧ P head s')
      (Reported (P floor))
  setFaults : ∀ {s : S} {floor : Nat} (faults : List Bool), P floor s →
    P floor (setFaults faults s)
  setFaults_closed : ∀ {s : S} (faults : List Bool), C s → C (Shipped.setFaults faults s)
  close : ∀ {s : S} {floor : Nat}, P floor s → C s
  reopen : ∀ {s : S}, C s →
    (∃ s' floor, reopen s = .ok s' ∧ P floor s') ∨ ∃ e, reopen s = .error (.err e)

namespace Handle

variable {S : Type} {C : S → Prop} {P : Nat → S → Prop}

/-- An open log is between two calls, and a store can be opened. -/
def Alone (C : S → Prop) (P : Nat → S → Prop) : Handle S → Prop
  | .isOpen wal => wal.Alone P
  | .closed s => C s

/-- Offsets are 64 bits wide, and `truncate_after` is not given one below the head. -/
def admits : Handle S → List Bool × Request → Bool
  | .isOpen wal, (_, .truncateAfter lsn) => decide (wal.head ≤ lsn ∧ lsn < 2 ^ 64)
  | .isOpen _, (_, .truncateBefore lsn) => decide (lsn < 2 ^ 64)
  | .isOpen _, (_, .iterFrom lsn) => decide (lsn < 2 ^ 64)
  | _, _ => true

theorem ofCall_returns {α : Type} {x : Act (Wal S) Fault α} {wal : Wal S} (reply : α → Reply)
    (h : x.Ends wal (fun _ => Wal.Alone P) (Reported (Wal.Alone P))) :
    Returns (ofCall reply (x wal)).1 ∧ (ofCall reply (x wal)).2.Alone C P := by
  rcases h.cases with ⟨a, w, hrun, hw⟩ | ⟨e, w, hrun, ⟨e', rfl⟩, hw⟩
  · rw [hrun]
    exact ⟨trivial, hw⟩
  · rw [hrun]
    exact ⟨trivial, hw⟩

variable [WalStore S] [Shipped S]

theorem reopen_returns (R : Robust C P) (config : WalConfig) {s : S} (hs : C s) :
    Returns (Handle.reopen config s).1 ∧ (Handle.reopen config s).2.Alone C P := by
  unfold Handle.reopen
  rcases R.reopen hs with ⟨s', floor, hs', hP⟩ | ⟨e, he⟩
  · rw [hs']
    dsimp only
    rcases (Wal.withStoreAndConfig_returns R.answers config hP).cases with
      ⟨wal, t, hrun, halone⟩ | ⟨e, t, hrun, ⟨e', rfl⟩, ht⟩
    · rw [hrun]
      exact ⟨trivial, halone⟩
    · rw [hrun]
      exact ⟨trivial, R.close ht⟩
  · rw [he]
    exact ⟨trivial, hs⟩

/-- One request, over a store any of whose calls may fail. -/
theorem face_returns (R : Robust C P) (h : Handle S) (q : List Bool × Request)
    (halone : h.Alone C P) (hq : h.admits q = true) :
    Returns (h.face q).1 ∧ (h.face q).2.Alone C P := by
  obtain ⟨faults, q⟩ := q
  cases h with
  | closed s =>
      have hs : C (setFaults faults s) := R.setFaults_closed faults halone
      cases q with
      | reopen config => exact reopen_returns R config hs
      | _ => exact ⟨trivial, hs⟩
  | isOpen wal =>
      have hf : (wal.facing faults).Alone P :=
        { store := R.setFaults faults halone.store
          max_lt := halone.max_lt
          head_lt := halone.head_lt
          quiet := halone.quiet }
      have hsafe : ∀ {α : Type} {x : Act (Wal S) Fault α} (reply : α → Reply),
          (Safe (Wal.Alone P) x (wal.facing faults) fun _ => True) →
          Returns (ofCall reply (x (wal.facing faults))).1 ∧
            (ofCall reply (x (wal.facing faults))).2.Alone C P := fun reply hx =>
        ofCall_returns reply (hx.mono (fun _ _ hw => hw.2) fun _ _ hw => hw)
      cases q with
      | append record =>
          exact ofCall_returns _ ((hf.append R.answers record).mono (fun _ _ hw => hw.1)
            fun _ _ hw => hw)
      | appendAndSync record => exact hsafe _ (hf.appendAndSync R.answers record)
      | sync => exact hsafe _ (hf.sync R.answers)
      | iter => exact hsafe _ (hf.collect R.answers hf.head_lt)
      | iterFrom lsn =>
          have hlt : max lsn wal.head < 2 ^ 64 := 
            Nat.max_lt.mpr ⟨of_decide_eq_true hq, hf.head_lt⟩
          exact hsafe _ (hf.collect R.answers (Nat.lt_of_le_of_lt (Nat.min_le_left _ _) hlt))
      | truncateAfter lsn =>
          have hlsn := of_decide_eq_true hq
          exact hsafe _ (hf.truncateAfter R.answers hlsn.1 hlsn.2)
      | truncateBefore lsn =>
          refine ofCall_returns _ ?_
          have hdrop : (Wal.onStore (WalStore.truncateBefore lsn)).Ends (wal.facing faults)
              (fun head w => Wal.Alone P { w with head := head })
              (Reported (Wal.Alone P)) :=
            Act.Ends.zoom ((R.truncateBefore hf.store (of_decide_eq_true hq)).mono
              (fun _ _ hs => ⟨hs.2, hf.max_lt, hs.1, hf.quiet⟩)
              fun _ _ hs => ⟨hs.1, { hf with store := hs.2 }⟩)
          exact hdrop.bind fun head w hw => Act.ends_of_ok rfl hw
      | len => exact ⟨trivial, hf⟩
      | isEmpty => exact ⟨trivial, hf⟩
      | reopen config => exact reopen_returns R config (R.close hf.store)

end Handle

/-! ## The stores -/

theorem osCall_safe (context : String) (faults : List Bool) :
    Safe (fun _ => True) (osCall context) faults fun _ => True := by
  cases faults with
  | nil => exact Act.ends_of_ok rfl ⟨trivial, trivial⟩
  | cons fault faults =>
      cases fault with
      | false => exact Act.ends_of_ok rfl ⟨trivial, trivial⟩
      | true => exact Act.ends_of_error rfl ⟨⟨_, rfl⟩, trivial⟩

namespace FileStore

variable {p : Prop}

theorem os_safe (hp : p) (context : String) (s : FileStore) :
    Safe (fun _ => p) (os context) s fun _ => True :=
  Act.Ends.zoom ((osCall_safe context s.faults).mono (fun _ _ _ => ⟨trivial, hp⟩)
    fun _ _ h => ⟨h.1, hp⟩)

theorem answers (floor : Nat) : Answers floor fun _ : FileStore => floor = 0 where
  read {s off n} hP _ _ := by
    show Safe _ (readAt off n) s _
    unfold readAt
    split_ifs
    · exact Act.ends_pure ⟨Nat.zero_le _, hP⟩
    · exact (os_safe hP "reading from the log" s).bind fun _ s1 _ =>
        Act.ends_get_bind (Act.ends_pure ⟨List.length_take_le _ _, hP⟩)
    · exact (os_safe hP "reading from the log" s).bind fun _ s1 _ =>
        Act.ends_get_bind (Act.ends_fail ⟨⟨_, rfl⟩, hP⟩)
  write {s off bytes} hP _ := by
    show Safe _ (writeAt off bytes) s _
    unfold writeAt
    by_cases hne : bytes = []
    · rw [if_pos hne]
      exact Act.ends_pure ⟨trivial, hP⟩
    rw [if_neg hne]
    refine (os_safe hP "writing a record" s).bind fun _ s1 _ => ?_
    rw [Act.Ends]
    split_ifs
    · exact ⟨trivial, hP⟩
    · exact ⟨⟨_, rfl⟩, hP⟩
  truncate {s len} hP _ _ := by
    refine (os_safe hP "truncating the log" s).bind fun _ s1 _ => ?_
    rw [Act.Ends]
    split_ifs
    · exact ⟨trivial, hP⟩
    · exact ⟨⟨_, rfl⟩, hP⟩
  sync {s} hP := by
    have hos : ∀ s, (os "flushing the log directory").Walks (fun _ _ => True) s (fun _ _ => True)
        Fault.Returned := fun s =>
      (os_safe trivial _ s).mono (fun _ _ _ => ⟨.single trivial, trivial⟩)
        fun _ _ h => ⟨.single trivial, h.1⟩
    refine (flushDirIfDirty_walks (fun _ _ => trivial) hos s).bind_ends
      (fun _ _ _ he => ⟨he, hP⟩) fun _ s1 _ _ => ?_
    exact (os_safe hP "flushing to stable storage" s1).bind fun _ s2 _ =>
      Act.ends_of_ok rfl ⟨trivial, hP⟩
  len {s} hP := by
    refine (os_safe hP "reading log file metadata" s).bind fun _ s1 _ => ?_
    have := s1.written_lt
    exact Act.ends_get_bind (Act.ends_pure ⟨by omega, hP⟩)
  head hP := Act.ends_pure ⟨⟨hP.symm, by decide⟩, hP⟩

theorem robust : Robust (fun _ : FileStore => True) fun floor _ => floor = 0 where
  answers := answers
  truncateBefore _ _ := Act.ends_pure ⟨by decide, rfl⟩
  setFaults _ hP := hP
  setFaults_closed _ _ := trivial
  close _ := trivial
  reopen _ := Or.inl ⟨_, 0, rfl, rfl⟩

end FileStore

namespace Dir

variable {segments : AList fun _ : Nat => File} {d : Dir}

theorem os_safe (h : d.segments = segments) (context : String) :
    Safe (·.segments = segments) (os context) d fun _ => True :=
  Act.Ends.zoom ((osCall_safe context d.faults).mono (fun _ _ _ => ⟨trivial, h⟩)
    fun _ _ hs => ⟨hs.1, h⟩)

theorem findHighest_safe (h : d.segments = segments) (entries : List (Sigma fun _ : Nat => File))
    (highest : Option (Nat × Nat)) :
    Safe (·.segments = segments) (findHighest highest entries) d fun _ => True := by
  induction entries generalizing highest d with
  | nil => exact Act.ends_pure ⟨trivial, h⟩
  | cons entry rest ih =>
      exact (os_safe h _).bind fun _ d1 h1 => (os_safe h1.2 _).bind fun _ d2 h2 => ih h2.2 _

theorem readHeadFile_safe (h : d.segments = segments) :
    Safe (·.segments = segments) readHeadFile d fun _ => True := by
  refine (os_safe h _).bind fun _ d1 h1 => Act.ends_get_bind ?_
  split
  · exact Act.ends_pure ⟨trivial, h1.2⟩
  · split
    · dsimp only
      split <;> exact Act.ends_pure ⟨trivial, h1.2⟩
    · exact Act.ends_pure ⟨trivial, h1.2⟩

end Dir

namespace SegmentedStore

/-- A change that puts no byte past the last offset. -/
def Change.InBounds (size : Nat) : Change → Prop
  | .create index => index * size < 2 ^ 64
  | .write pos chunk => pos + chunk.length < 2 ^ 64
  | .setLen index len => index * size + len < 2 ^ 64
  | _ => True

theorem Change.filesFit {s : SegmentedStore} {c : Change} (hc : c.InBounds s.segmentSize)
    (h : s.FilesFit) : (c.apply s).FilesFit := by
  intro i file hfile
  rw [c.apply_seg] at hfile
  rw [c.apply_segmentSize]
  cases c with
  | create index =>
      have hc : index * s.segmentSize < 2 ^ 64 := hc
      rw [Change.onFile] at hfile
      split at hfile
      · rename_i heq
        subst heq
        cases hseg : s.seg i with
        | none =>
            rw [hseg] at hfile
            cases hfile
            simpa [File.empty] using hc
        | some old =>
            rw [hseg] at hfile
            cases hfile
            exact h i old hseg
      · exact h i file hfile
  | write pos chunk =>
      have hc : pos + chunk.length < 2 ^ 64 := hc
      rw [Change.onFile] at hfile
      split at hfile
      · rename_i heq
        obtain ⟨old, hold, rfl⟩ := Option.map_eq_some_iff.mp hfile
        have hold := h i old hold
        have hdiv := Nat.div_add_mod' pos s.segmentSize
        rw [File.pwriteAll, length_overwrite]
        rw [← heq] at hdiv
        omega
      · exact h i file hfile
  | setLen index len =>
      have hc : index * s.segmentSize + len < 2 ^ 64 := hc
      rw [Change.onFile] at hfile
      split at hfile
      · rename_i heq
        obtain ⟨old, hold, rfl⟩ := Option.map_eq_some_iff.mp hfile
        have hlen : (old.setLen len).written.length = len := by
          simp only [File.setLen, List.length_append, List.length_take, List.length_replicate]
          omega
        rw [hlen, heq]
        omega
      · exact h i file hfile
  | flush index =>
      rw [Change.onFile] at hfile
      split at hfile
      · obtain ⟨old, hold, rfl⟩ := Option.map_eq_some_iff.mp hfile
        exact h i old hold
      · exact h i file hfile
  | cutOff index | unlink index =>
      rw [Change.onFile] at hfile
      split at hfile
      · cases hfile
      · exact h i file hfile
  | _ => exact h i file hfile

/-- The head is at `floor` and within the store, and no file reaches past the last offset. -/
structure HeadAt (floor : Nat) (s : SegmentedStore) : Prop where
  head_eq : s.head = floor
  floor_le : floor ≤ s.maxWritten
  maxWritten_lt : s.maxWritten < 2 ^ 64
  fits : s.FilesFit

theorem walk_headAt {may : Change → Prop} {floor : Nat} {s s' : SegmentedStore}
    (hmay : ∀ c, may c → c.InBounds s.segmentSize) (h : ReflTransGen (Step may) s s')
    (hs : s.HeadAt floor) : s'.HeadAt floor := by
  refine (walk_invariant (I := fun t => t.HeadAt floor ∧ t.segmentSize = s.segmentSize)
    (fun t c hc _ ht => ⟨⟨?_, ?_, ?_, ?_⟩, ?_⟩) h ⟨hs, rfl⟩).1
  · rw [c.apply_head]
    exact ht.1.head_eq
  · rw [c.apply_maxWritten]
    exact ht.1.floor_le
  · rw [c.apply_maxWritten]
    exact ht.1.maxWritten_lt
  · exact Change.filesFit (ht.2 ▸ hmay c hc) ht.1.fits
  · rw [c.apply_segmentSize]
    exact ht.2

theorem ByRead.inBounds {size : Nat} (c : Change) (h : ByRead c) : c.InBounds size := by
  cases c <;> first | exact trivial | exact h.elim

theorem BySync.inBounds {size : Nat} (c : Change) (h : BySync c) : c.InBounds size := by
  cases c <;> first | exact trivial | exact h.elim

theorem ByDrop.inBounds {size keep : Nat} (c : Change) (h : ByDrop keep c) : c.InBounds size := by
  cases c <;> first | exact trivial | exact h.elim

theorem ByWrite.inBounds {size off endAt : Nat} (hlt : endAt < 2 ^ 64) (c : Change)
    (h : ByWrite size off endAt c) : c.InBounds size := by
  cases c with
  | call => exact trivial
  | create index => exact Nat.lt_trans h.2 hlt
  | write pos chunk => exact Nat.lt_of_le_of_lt h.2 hlt
  | _ => exact h.elim

theorem ByTruncate.inBounds {size len : Nat} (hlt : len < 2 ^ 64) (c : Change)
    (h : ByTruncate (len / size) (len % size) c) : c.InBounds size := by
  have hdiv := Nat.div_add_mod' len size
  cases c with
  | call | cutOff index => exact trivial
  | create index =>
      obtain rfl : index = _ := h
      exact Nat.lt_of_le_of_lt (Nat.div_mul_le_self _ _) hlt
  | setLen index n =>
      obtain ⟨rfl, rfl⟩ : index = _ ∧ n = _ := h
      show len / size * size + len % size < 2 ^ 64
      rw [hdiv]
      exact hlt
  | _ => exact h.elim

theorem answers (floor : Nat) : Answers floor (HeadAt floor) where
  read {s off n} h hoff _ := by
    refine Ends.mono (readAt_walks off n) (fun _ _ hs => ⟨hs.2, walk_headAt ByRead.inBounds hs.1 h⟩)
      fun _ _ hs => ⟨hs.2.resolve_right fun hout => ?_, walk_headAt ByRead.inBounds hs.1 h⟩
    exact hout (Or.inr (Or.inr ⟨hoff, h.fits⟩))
  write {s off bytes} h hlt := by
    refine (writeAt_walks hlt).mono ?_
      fun _ _ hs => ⟨hs.2, walk_headAt (ByWrite.inBounds hlt) hs.1 h⟩
    rintro _ _ ⟨s1, hwalk, -, rfl⟩
    have h1 := walk_headAt (ByWrite.inBounds hlt) hwalk h
    exact ⟨trivial, h1.head_eq, Nat.le_trans h1.floor_le (Nat.le_max_left _ _),
      Nat.max_lt.mpr ⟨h1.maxWritten_lt, hlt⟩, h1.fits⟩
  truncate {s len} h hfloor hlt := by
    refine (truncate_ends len).mono ?_
      fun _ _ hs => ⟨hs.2, walk_headAt (ByTruncate.inBounds hlt) hs.1 h⟩
    rintro _ _ ⟨s1, hwalk, rfl⟩
    have h1 := walk_headAt (ByTruncate.inBounds hlt) hwalk h
    exact ⟨trivial, h1.head_eq, hfloor, hlt, h1.fits⟩
  sync {s} h := by
    refine sync_ends.mono ?_ fun _ _ hs => ⟨hs.2, walk_headAt BySync.inBounds hs.1 h⟩
    rintro _ _ ⟨s1, first, hwalk, rfl⟩
    have h1 := walk_headAt BySync.inBounds hwalk h
    exact ⟨trivial, h1.head_eq, h1.floor_le, h1.maxWritten_lt, h1.fits⟩
  len h := Act.ends_of_ok rfl ⟨h.maxWritten_lt, h⟩
  head {s} h := by
    have hlt : s.head < 2 ^ 64 := h.head_eq ▸ Nat.lt_of_le_of_lt h.floor_le h.maxWritten_lt
    exact Act.ends_of_ok rfl ⟨⟨h.head_eq, hlt⟩, h⟩

/-- A directory is opened with the head within the store, or with an error. -/
theorem openDir_safe (created : Bool) {s : SegmentedStore} (hfits : s.FilesFit) :
    (openDir s.segmentSize created).Ends s.dir (fun s' _ => s'.HeadAt s'.head)
      fun fault _ => fault.Returned := by
  have hopen : Safe (·.segments = s.dir.segments) (openDir s.segmentSize created) s.dir
      fun s' => s'.HeadAt s'.head := by
    rw [openDir, dif_neg (Nat.ne_of_gt s.segmentSize_pos)]
    refine (Dir.os_safe rfl _).bind fun _ d1 h1 => (Dir.os_safe h1.2 _).bind fun _ d2 h2 => ?_
    refine Act.ends_get_bind ((Dir.findHighest_safe h2.2 _ _).bind fun highest d3 h3 => ?_)
    refine (Dir.readHeadFile_safe h3.2).bind fun marker d4 h4 => Act.ends_get_bind ?_
    refine Act.ends_pure ⟨⟨rfl, Nat.min_le_right _ _, ?_, fun i file hfile => ?_⟩, h4.2⟩
    · cases highest with
      | none => exact Nat.two_pow_pos 64
      | some h =>
          show saturatingAdd (saturatingMul h.1 s.segmentSize) h.2 < 2 ^ 64
          unfold saturatingAdd
          omega
    · exact hfits i file ((congrArg (AList.lookup i) h4.2).symm.trans hfile)
  exact hopen.mono (fun _ _ h => h.1) fun _ _ h => h.1

theorem robust : Robust FilesFit HeadAt where
  answers := answers
  truncateBefore {s floor off} h _ := by
    have hle : s.head ≤ s.maxWritten := h.head_eq ▸ h.floor_le
    refine (truncateBefore_ends off).mono ?_
      fun _ _ hs => ⟨hs.2 hle, walk_headAt ByDrop.inBounds hs.1 h⟩
    rintro newHead _ ⟨rfl, -, s1, hwalk, rfl⟩
    have h1 := walk_headAt ByDrop.inBounds hwalk h
    have hclamp := s.clampedHead_le off
    have hmax := walk_maxWritten hwalk
    exact ⟨Nat.lt_of_le_of_lt hclamp h.maxWritten_lt, rfl, hmax ▸ hclamp, h1.maxWritten_lt, h1.fits⟩
  setFaults _ h := ⟨h.head_eq, h.floor_le, h.maxWritten_lt, h.fits⟩
  setFaults_closed _ h := h
  close h := h.fits
  reopen {s} h := by
    rcases (openDir_safe false h).cases with ⟨s', d, hrun, hhead⟩ | ⟨e, d, hrun, e', rfl⟩
    · exact Or.inl ⟨s', s'.head, congrArg Prod.fst hrun, hhead⟩
    · exact Or.inr ⟨e', congrArg Prod.fst hrun⟩

end SegmentedStore

/-- Every call returns.  A program of one thread opens, appends, syncs, iterates and truncates
over a file with any contents, or over segments with any contents that lie below the last
offset, and the operating system may fail any of its calls.  Whatever it has been told before,
no call panics and none waits for ever, as long as `truncate_after` is not given an offset
below the head. -/
theorem calls_return_despite_failures (program : List (List Bool × Request)) :
    (∀ s : FileStore, Throughout Handle.face (fun h q => h.admits q = true) (.closed s) program →
      ∀ r ∈ answers Handle.face (.closed s) program, Returns r) ∧
    ∀ s : SegmentedStore, s.FilesFit →
      Throughout Handle.face (fun h q => h.admits q = true) (.closed s) program →
      ∀ r ∈ answers Handle.face (.closed s) program, Returns r := by
  have hall : ∀ {S : Type} [WalStore S] [Shipped S] {C : S → Prop} {P : Nat → S → Prop},
      Robust C P → ∀ s : S, C s →
      Throughout Handle.face (fun h q => h.admits q = true) (.closed s) program →
      ∀ r ∈ answers Handle.face (.closed s) program, Returns r := by
    intro S _ _ C P R s hs hok
    have hstep : ∀ (h : Handle S) q, h.Alone C P → h.admits q = true →
        Returns (h.face q).1 ∧ (h.face q).2.Alone C P := Handle.face_returns R
    exact answers_forall hstep (show Handle.Alone C P (.closed s) from hs) hok
  exact ⟨fun s => hall FileStore.robust s trivial, hall SegmentedStore.robust⟩

/-- Segments of four bytes.  The second append fails halfway, so the sync after it does too;
`truncate_after` repairs that.  Then a flush fails, and the log refuses to flush again. -/
theorem calls_return_despite_failures_segments :
    let s : SegmentedStore := ⟨Dir.empty, 4, [], 0, 0, 0, true, true, by decide⟩
    let program : List (List Bool × Request) :=
      [([], .reopen WalConfig.new), ([], .append [7]), ([false, true], .append [8]), ([], .sync),
        ([], .truncateAfter 0), ([], .append [9]), ([true], .sync), ([], .sync),
        ([], .truncateBefore 9), ([], .iter)]
    answers Handle.face (.closed s) program =
        [.ok (.opened 0), .ok (.lsn 0), .error (.err (.io "creating a log segment" .os)),
          .error (.err (Commit.poisonError 9)), .ok .done, .ok (.lsn 9),
          .error (.err (.io "flushing the log directory" .os)),
          .error (.err Commit.flushFailedError), .ok (.head 9), .ok (.items [.ok ⟨9, [9]⟩])] ∧
      ∀ r ∈ answers Handle.face (.closed s) program, Returns r := by
  intro s program
  have hok : Throughout Handle.face (fun h q => h.admits q = true) (.closed s) program := by
    decide +kernel
  have hfits : s.FilesFit := fun i file hfile => by cases hfile
  exact ⟨by decide +kernel, (calls_return_despite_failures program).2 s hfits hok⟩

end WalDb
