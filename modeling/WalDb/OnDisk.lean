/-
The stores on files keep what a log needs.

A byte is on the disk when it has been flushed and the names that lead to its file have
been.  The stores remember in a flag that a directory has changed, and flush it before
they flush their files; which names a power loss would leave they do not know.  So a
store is looked at together with those names: every call is the call of the store
(`NamedFile.sync_lockstep`, `NamedSegments.sync_lockstep`), and where that flushes a
directory, its names are on the disk from then on.
-/
import WalDb.Lasting
import WalDb.Lib.Lockstep
import WalDb.Shipped

namespace WalDb

open Lib Lib.Act Lasting

/-- A directory flush that is made only if it is needed. -/
theorem flushDirIfDirty_flushes {S : Type} {dirty : S → Bool} {put : S → Bool → S}
    {syncDir : Act S Fault Unit} {s : S} {Q E : S → Prop} (hclean : dirty s = false → Q s)
    (hflush : dirty s = true → syncDir.Ends (put s false) (fun _ => Q) fun _ s' => E (put s' true)) :
    (flushDirIfDirty dirty put syncDir).Ends s (fun _ => Q) fun _ => E := by
  refine ends_get_bind ?_
  by_cases hdirty : dirty s = true
  · rw [if_pos hdirty, Ends, modify_bind, attempt_bind]
    rcases (hflush hdirty).cases with ⟨u, s', hrun, hQ⟩ | ⟨e, s', hrun, hE⟩
    · rw [hrun]
      exact hQ
    · rw [hrun]
      exact hE
  · rw [if_neg hdirty]
    exact ends_pure (hclean (Bool.not_eq_true _ ▸ hdirty))

theorem flushDirIfDirty_lockstep {S T : Type} {R : S → T → Prop} {dirty : S → Bool}
    {dirty' : T → Bool} {put : S → Bool → S} {put' : T → Bool → T} {x : Act S Fault Unit}
    {y : Act T Fault Unit} (hdirty : ∀ s t, R s t → dirty s = dirty' t)
    (hput : ∀ s t flag, R s t → R (put s flag) (put' t flag)) (hx : Lockstep R R x y) :
    Lockstep R R (flushDirIfDirty dirty put x) (flushDirIfDirty dirty' put' y) := by
  refine lockstep_get fun s t hR => ?_
  rw [hdirty s t hR]
  refine lockstep_ite (fun _ => ?_) fun _ => lockstep_pure _
  refine (lockstep_modify fun s t h => hput s t false h).seq fun _ => hx.attempt.seq fun r => ?_
  cases r with
  | ok u => exact lockstep_pure _
  | error fault => exact (lockstep_modify fun s t h => hput s t true h).seq fun _ => lockstep_fail _

/-! ## One file -/

/-- A file, and whether its name is on the disk. -/
structure NamedFile where
  store : FileStore
  named : Bool

namespace NamedFile

/-- A call of the store. -/
def inner {α : Type} (x : Act FileStore Fault α) : Act NamedFile Fault α :=
  Act.zoom NamedFile.store (fun t s => { t with store := s }) x

/-- `sync`, in which the flush of the directory puts the name on the disk. -/
def sync : Act NamedFile Fault Unit := do
  flushDirIfDirty (fun t => t.store.parentDirty)
    (fun t dirty => { t with store := { t.store with parentDirty := dirty } })
    (do
      inner (FileStore.os "flushing the log directory")
      Act.modify fun t => { t with named := true })
  inner (FileStore.os "flushing to stable storage")
  inner (Act.modify fun s => { s with file := s.file.durableSync })

instance : WalStore NamedFile where
  writeAt offset bytes := inner (WalStore.writeAt offset bytes)
  readAt offset n := inner (WalStore.readAt offset n)
  truncate len := inner (WalStore.truncate len)
  sync := sync
  len := inner WalStore.len

/-- The store inside. -/
def Is (t : NamedFile) (s : FileStore) : Prop := t.store = s

theorem inner_lockstep {α : Type} (x : Act FileStore Fault α) : Lockstep Is Is (inner x) x := by
  intro t s h
  have h : t.store = s := h
  subst h
  exact ⟨rfl, rfl⟩

/-- To its caller it is the `sync` of the store. -/
theorem sync_lockstep : Lockstep Is Is (WalStore.sync : Act NamedFile Fault Unit)
    (WalStore.sync : Act FileStore Fault Unit) := by
  refine Lockstep.seq (flushDirIfDirty_lockstep (fun t s h => ?_) (fun t s flag h => ?_) ?_)
    fun _ => (inner_lockstep _).seq fun _ => inner_lockstep _
  · rw [show t.store = s from h]
  · show { t.store with parentDirty := flag } = { s with parentDirty := flag }
    rw [show t.store = s from h]
  · exact (inner_lockstep _).noting fun _ _ h => h

/-- A file of which every byte is on the disk, opened. -/
def Found (t : NamedFile) : Prop :=
  ∃ file h, t.store = FileStore.ofFile file [] h ∧ file.durable = file.written ∧
    (t.named = false → file.written = [])

/-- What a power loss may leave: without its name the file is gone, and so may be any byte
that has not been flushed. -/
def Loses (t t' : NamedFile) : Prop :=
  t'.Found ∧ (t.named = true → ∀ (o : Nat) b, t.store.file.written[o]? = some b →
    t.store.file.durable[o]? = some b → t'.store.file.written[o]? = some b)

instance : Lasting NamedFile where
  image t := Image.ofList t.store.file.written
  length t := t.store.file.written.length
  Stable t o := t.named = true ∧ t.store.DurableAt o
  Orderly t := t.store.parentDirty = false → t.named = true
  setFaults faults t := { t with store := { t.store with faults := faults } }
  Calm t := t.store.faults = []
  Fresh := Found
  Loss := Loses

variable {t t' : NamedFile}

/-- Bytes that are still there, over a file whose flushed part is the same, are as stable as
they were. -/
theorem keeps_of_durable {n : Nat} (horderly : Orderly t') (hnamed : t'.named = t.named)
    (hdurable : t'.store.file.durable = t.store.file.durable)
    (hkept : ∀ (o : Nat) b, o < n → t.store.file.written[o]? = some b →
      t'.store.file.written[o]? = some b) : Keeps n t t' := by
  refine ⟨horderly, hkept, ?_⟩
  intro o ho hs
  have hs : t.named = true ∧ t.store.DurableAt o := hs
  obtain ⟨hname, hlt, heq⟩ := hs
  have hbyte := hkept o _ ho (List.getElem?_eq_getElem hlt)
  refine ⟨hnamed.trans hname, (List.getElem?_eq_some_iff.mp hbyte).1, ?_⟩
  rw [hdurable, heq, hbyte, List.getElem?_eq_getElem hlt]

end NamedFile

/-- A system call changes nothing but what the next ones do. -/
theorem FileStore.os_any {s : FileStore} {Q E : FileStore → Prop} (context : String)
    (hok : ∀ faults, Q { s with faults := faults }) (herr : ∀ faults, E { s with faults := faults }) :
    (FileStore.os context).Ends s (fun _ => Q) fun _ => E := by
  refine Ends.zoom ?_
  unfold Act.Ends
  split
  · exact hok _
  · exact herr _

theorem FileStore.writeAt_file (off : Nat) {bytes : List UInt8} (hne : bytes ≠ []) (s : FileStore) :
    (WalStore.writeAt off bytes).Ends s
      (fun _ s' => s'.file = s.file.pwriteAll off bytes ∧ s'.parentDirty = s.parentDirty)
      fun _ s' => s'.file = s.file ∧ s'.parentDirty = s.parentDirty := by
  show (writeAt off bytes).Ends s _ _
  rw [writeAt, if_neg hne]
  refine Ends.bind (Q := fun _ s' => s'.file = s.file ∧ s'.parentDirty = s.parentDirty)
    (os_any _ (fun _ => ⟨rfl, rfl⟩) fun _ => ⟨rfl, rfl⟩) fun _ s1 h1 => ?_
  rw [← h1.1, ← h1.2]
  unfold Act.Ends
  dsimp only
  split
  · rename_i hrun
    split at hrun <;> cases hrun
    exact ⟨rfl, rfl⟩
  · rename_i hrun
    split at hrun <;> cases hrun
    exact ⟨rfl, rfl⟩

namespace NamedFile

variable {t t' : NamedFile}

theorem inner_ends {α : Type} {x : Act FileStore Fault α} {Q : α → NamedFile → Prop}
    {E : Fault → NamedFile → Prop}
    (h : x.Ends t.store (fun a s => Q a { t with store := s }) fun e s => E e { t with store := s }) :
    (inner x).Ends t Q E := Ends.zoom h

theorem os_ends {Q E : NamedFile → Prop} (context : String)
    (hok : ∀ faults, Q { t with store := { t.store with faults := faults } })
    (herr : ∀ faults, E { t with store := { t.store with faults := faults } }) :
    (inner (FileStore.os context)).Ends t (fun _ => Q) fun _ => E :=
  inner_ends (FileStore.os_any context hok herr)

theorem writeAt_ends {off : Nat} {bytes : List UInt8} (h : Orderly t)
    (hle : t.store.file.written.length ≤ off) (hpos : 0 < bytes.length) :
    (WalStore.writeAt off bytes).Ends t
      (fun _ t' => Keeps off t t' ∧ length t' = off + bytes.length ∧
        ∀ k < bytes.length, image t' (off + k) = bytes[k]?)
      fun _ t' => Keeps off t t' ∧ length t' = length t := by
  refine inner_ends ((FileStore.writeAt_file off (List.ne_nil_of_length_pos hpos) t.store).mono (fun _ s hs => ?_)
    fun _ s hs => ?_)
  · obtain ⟨hfile, hdirty⟩ := hs
    have hwritten : s.file.written = overwrite t.store.file.written off bytes := by
      rw [hfile]
      rfl
    refine ⟨keeps_of_durable (fun hc => h (hdirty ▸ hc)) rfl (by rw [hfile]; rfl) ?_, ?_, ?_⟩
    · intro o b ho hb
      rw [hwritten]
      exact ofList_overwrite_below ho hb
    · show s.file.written.length = _
      rw [hwritten, length_overwrite]
      omega
    · intro k hk
      show Image.ofList s.file.written (off + k) = _
      rw [hwritten]
      exact ofList_overwrite_at hk
  · obtain ⟨hfile, hdirty⟩ := hs
    refine ⟨keeps_of_durable (fun hc => h (hdirty ▸ hc)) rfl (by rw [hfile]) ?_, ?_⟩
    · intro o b _ hb
      rw [hfile]
      exact hb
    · show s.file.written.length = _
      rw [hfile]
      rfl

/-- What `sync` has come to: the file is as it was, or flushed, and its name is on the disk
where the flag says so. -/
structure Flushing (t t' : NamedFile) : Prop where
  orderly : Orderly t'
  named_ge : t.named = true → t'.named = true
  written_eq : t'.store.file.written = t.store.file.written
  durable_eq : t'.store.file.durable = t.store.file.durable ∨
    t'.store.file.durable = t'.store.file.written

theorem Flushing.keeps (h : Flushing t t') (n : Nat) : Keeps n t t' ∧ length t' = length t := by
  refine ⟨⟨h.orderly, fun o b _ hb => ?_, fun o _ hs => ?_⟩, congrArg List.length h.written_eq⟩
  · show t'.store.file.written[o]? = some b
    rw [h.written_eq]
    exact hb
  · have hs : t.named = true ∧ t.store.DurableAt o := hs
    refine ⟨h.named_ge hs.1, by rw [h.written_eq]; exact hs.2.1, ?_⟩
    rcases h.durable_eq with hd | hd
    · rw [hd, h.written_eq]
      exact hs.2.2
    · rw [hd]

theorem sync_ends (n : Nat) (h : Orderly t) :
    (WalStore.sync : Act NamedFile Fault Unit).Ends t
      (fun _ t' => Keeps n t t' ∧ length t' = length t ∧
        ∀ o b, o < length t → image t o = some b → Stable t' o)
      fun _ t' => Keeps n t t' ∧ length t' = length t := by
  have hstart : Flushing t t := ⟨h, fun hn => hn, rfl, Or.inl rfl⟩
  have hdir : (flushDirIfDirty (fun t : NamedFile => t.store.parentDirty)
      (fun t dirty => { t with store := { t.store with parentDirty := dirty } })
      (do
        inner (FileStore.os "flushing the log directory")
        Act.modify fun t => { t with named := true })).Ends t
      (fun _ t' => Flushing t t' ∧ t'.named = true) fun _ => Flushing t := by
    refine flushDirIfDirty_flushes (fun hclean => ⟨hstart, h hclean⟩) fun _ => ?_
    refine Ends.bind (Q := fun _ t1 => Flushing t { t1 with named := true }) ?_ fun _ t1 h1 =>
      ends_of_ok rfl ⟨h1, rfl⟩
    refine os_ends _ (fun faults => ?_) fun faults => ?_
    · exact ⟨fun _ => rfl, fun _ => rfl, rfl, Or.inl rfl⟩
    · exact ⟨fun hc => Bool.noConfusion hc, fun hn => hn, rfl, Or.inl rfl⟩
  have hall : (WalStore.sync : Act NamedFile Fault Unit).Ends t
      (fun _ t' => Flushing t t' ∧ t'.named = true ∧
        t'.store.file.durable = t'.store.file.written) fun _ => Flushing t := by
    refine hdir.bind fun _ t1 h1 => ?_
    obtain ⟨h1, hnamed⟩ := h1
    refine Ends.bind (Q := fun _ t2 => Flushing t t2 ∧ t2.named = true)
      (os_ends _ (fun faults => ?_) fun faults => ?_) fun _ t2 h2 => ends_of_ok rfl ?_
    · exact ⟨⟨h1.orderly, h1.named_ge, h1.written_eq, h1.durable_eq⟩, hnamed⟩
    · exact ⟨h1.orderly, h1.named_ge, h1.written_eq, h1.durable_eq⟩
    · exact ⟨⟨h2.1.orderly, h2.1.named_ge, h2.1.written_eq, Or.inr rfl⟩, h2.2, rfl⟩
  refine hall.mono (fun _ t' h' => ?_) fun _ t' h' => h'.keeps n
  obtain ⟨h', hnamed, hdurable⟩ := h'
  refine ⟨(h'.keeps n).1, (h'.keeps n).2, fun o b ho _ => ⟨hnamed, ?_, by rw [hdurable]⟩⟩
  rw [h'.written_eq]
  exact ho

theorem inner_apply {α : Type} {x : Act FileStore Fault α} {r : Except Fault α}
    (h : x t.store = (r, t.store)) : inner x t = (r, t) := by
  rw [inner, Act.zoom_apply, h]

theorem sight (h : t.store.faults = []) :
    Sight FileStore.Reachable (Image.ofList t.store.file.written) t.store.file.written.length
      (· = t) :=
  Sight.ofList (Or.imp_right fun hle => Nat.lt_of_le_of_lt hle t.store.written_lt)
    (fun _ _ hreach => inner_apply (FileStore.readAt_ok h hreach))
    (fun _ _ hreach => ⟨_, inner_apply (FileStore.readAt_refused h hreach)⟩)
    (inner_apply (FileStore.len_ok h)) (Nat.lt_trans t.store.written_lt (by decide))

theorem truncate_keeps {len : Nat} (h : Orderly t) (hcalm : t.store.faults = [])
    (hle : len ≤ t.store.file.written.length)
    (hrun : WalStore.truncate len t = (.ok (), t')) : Keeps len t t' ∧ length t' = len := by
  have hrun : inner (FileStore.truncate len) t = (.ok (), t') := hrun
  rw [inner, Act.zoom, FileStore.truncate, Act.bind_ok (FileStore.os_ok hcalm _)] at hrun
  split at hrun
  · obtain rfl := (Prod.mk.inj hrun).2
    refine ⟨keeps_of_durable h rfl rfl fun o b ho hb => ?_, ?_⟩
    · show (t.store.file.written.take len ++ List.replicate _ 0)[o]? = some b
      have htake := List.getElem?_take_of_lt (l := t.store.file.written) ho
      rw [hb] at htake
      exact List.getElem?_append_left (List.getElem?_eq_some_iff.mp htake).1 ▸ htake
    · show (t.store.file.written.take len ++ List.replicate _ 0).length = len
      rw [List.length_append, List.length_take, List.length_replicate]
      omega
  · cases (Prod.mk.inj hrun).1

instance : LawfulLasting NamedFile where
  keeps_setFaults faults n h := ⟨keeps_of_durable h rfl rfl fun _ _ _ hb => hb, rfl⟩
  calm_setFaults _ := rfl
  image_past t _ ho := ofList_past (Nat.lt_trans t.store.written_lt (by decide)) ho
  reads {t} _ hcalm := ⟨_, (· = t), (sight hcalm).toProbes, rfl⟩
  writeAt h hle hpos _ := writeAt_ends h hle hpos
  sync n h := sync_ends n h
  truncate h hcalm hle _ hrun := truncate_keeps h hcalm hle hrun
  fresh {t} h := by
    obtain ⟨file, hlt, hstore, hdurable, hnamed⟩ := h
    have hcalm : t.store.faults = [] := by rw [hstore]; rfl
    refine ⟨rfl, _, (· = t), sight hcalm, rfl, fun t' ht' => ?_⟩
    subst ht'
    refine ⟨fun hc => ?_, hcalm, rfl, rfl, fun o b hb => ?_⟩
    · rw [hstore] at hc
      cases hc
    · have hb : t'.store.file.written[o]? = some b := hb
      refine ⟨Bool.of_not_eq_false fun hn => ?_, (List.getElem?_eq_some_iff.mp hb).1, ?_⟩
      · rw [hstore] at hb
        have hb : file.written[o]? = some b := hb
        rw [hnamed hn] at hb
        cases hb
      · rw [hstore]
        exact congrArg (·[o]?) hdurable
  loss {t t'} h := by
    refine ⟨h.1, fun o b hb hs => ?_⟩
    have hs : t.named = true ∧ t.store.DurableAt o := hs
    exact h.2 hs.1 o b hb (hs.2.2.trans hb)

end NamedFile

end WalDb
