/-
Typed records (`Wal::append_typed`, `Record::decode`).

A value is encoded and its bytes are appended; a record is decoded when it is read.  Between
the two lie the frame, the store, any number of reopens and the iterator.  What comes out is
the list of values that went in: `ValueList` knows no bytes, except that it asks the codec how
long they are.
-/
import WalDb.Journal

namespace WalDb

open Lib Record

/-- The functions of `pack_io` for one type, with their errors as text.  A value that can be
encoded is decoded as it was. -/
structure Codec (α : Type) where
  encode : α → Except String (List UInt8)
  decode : List UInt8 → Except String α
  decode_encode : ∀ {value : α} {bytes : List UInt8}, encode value = .ok bytes →
    decode bytes = .ok value

/-- How a typed call can end without a value: as the others, or with `WalError::Encoding`. -/
inductive TypedFault where
  | log (fault : Fault)
  | encoding (detail : String)
  deriving DecidableEq, Repr

def Wal.appendTyped {S α : Type} [WalStore S] (c : Codec α) (value : α) :
    Act (Wal S) TypedFault Nat := fun wal =>
  match c.encode value with
  | .error detail => (.error (.encoding detail), wal)
  | .ok bytes => ((wal.append bytes).1.mapError .log, (wal.append bytes).2)

def Wal.Record.decode {α : Type} (c : Codec α) (record : Wal.Record) : Except TypedFault α :=
  (c.decode record.data).mapError .encoding

/-! ## Typed programs -/

inductive TypedRequest (α : Type) where
  | append (value : α)
  | sync
  | iter
  | iterFrom (lsn : Nat)
  | truncateAfter (lsn : Nat)
  | len
  | isEmpty
  | reopen (config : WalConfig)

inductive TypedReply (α : Type) where
  | plain (reply : Reply)
  /-- What an iterator yields, each record decoded. -/
  | values (items : List (Except TypedFault (Nat × α)))
  deriving DecidableEq

section Typed

variable {α σ : Type} (c : Codec α)

/-- The call that is made, if the value can be encoded. -/
def TypedRequest.lower : TypedRequest α → Except String Request
  | .append value => (c.encode value).map .append
  | .sync => .ok .sync
  | .iter => .ok .iter
  | .iterFrom lsn => .ok (.iterFrom lsn)
  | .truncateAfter lsn => .ok (.truncateAfter lsn)
  | .len => .ok .len
  | .isEmpty => .ok .isEmpty
  | .reopen config => .ok (.reopen config)

theorem lower_append (value : α) :
    (TypedRequest.append value).lower c = (c.encode value).map Request.append := rfl

/-- An item of an iterator, with its record decoded. -/
def decodeItem : Except WalError Wal.Record → Except TypedFault (Nat × α)
  | .ok record => (record.decode c).map fun value => (record.lsn, value)
  | .error e => .error (.log (.err e))

def raise : Except Fault Reply → Except TypedFault (TypedReply α)
  | .ok (.items items) => .ok (.values (items.map (decodeItem c)))
  | .ok reply => .ok (.plain reply)
  | .error fault => .error (.log fault)

/-- A typed request to whatever answers the untyped ones. -/
def typed (ask : σ → Request → Except Fault Reply × σ) (s : σ) (q : TypedRequest α) :
    Except TypedFault (TypedReply α) × σ :=
  match q.lower c with
  | .error detail => (.error (.encoding detail), s)
  | .ok q' => (raise c (ask s q').1, (ask s q').2)

/-- A typed request to a log: `append_typed`, or the call itself with the records it yields
decoded. -/
def Handle.askTyped {S : Type} [WalStore S] [Shipped S] :
    Handle S → TypedRequest α → Except TypedFault (TypedReply α) × Handle S
  | .isOpen wal, .append value =>
      ((wal.appendTyped c value).1.map fun lsn => .plain (.lsn lsn),
        .isOpen (wal.appendTyped c value).2)
  | h, q => typed c Handle.ask h q

theorem typed_append {S : Type} [WalStore S] [Shipped S] (wal : Wal S) (value : α) :
    typed c Handle.ask (.isOpen wal) (.append value) =
      ((wal.appendTyped c value).1.map fun lsn => .plain (.lsn lsn),
        .isOpen (wal.appendTyped c value).2) := by
  unfold typed Wal.appendTyped
  rw [lower_append]
  cases c.encode value with
  | error detail => rfl
  | ok bytes =>
      show (raise c ((wal.append bytes).1.map Reply.lsn), Handle.isOpen (wal.append bytes).2) =
        (((wal.append bytes).1.mapError .log).map _, Handle.isOpen (wal.append bytes).2)
      cases (wal.append bytes).1 <;> rfl

theorem Handle.askTyped_eq {S : Type} [WalStore S] [Shipped S] :
    Handle.askTyped (S := S) c = typed c Handle.ask := by
  funext h q
  cases h with
  | closed store => rfl
  | isOpen wal =>
      cases q with
      | append value => exact (typed_append c wal value).symm
      | sync | iter | iterFrom | truncateAfter | len | isEmpty | reopen => rfl

/-- The untyped calls of a program. -/
def lowered (program : List (TypedRequest α)) : List Request :=
  program.filterMap fun q => (q.lower c).toOption

/-- The answers of a program, from those of its untyped calls. -/
def raised : List (TypedRequest α) → List (Except Fault Reply) →
    List (Except TypedFault (TypedReply α))
  | [], _ => []
  | q :: qs, rs =>
      match q.lower c with
      | .error detail => .error (.encoding detail) :: raised qs rs
      | .ok _ => (rs.head?.map (raise c)).toList ++ raised qs rs.tail

theorem answers_typed (ask : σ → Request → Except Fault Reply × σ) (s : σ)
    (program : List (TypedRequest α)) :
    answers (typed c ask) s program = raised c program (answers ask s (lowered c program)) := by
  induction program generalizing s with
  | nil => rfl
  | cons q program ih =>
      unfold lowered at ih ⊢
      rw [answers, List.filterMap_cons, raised, typed]
      cases q.lower c with
      | error detail => rw [ih]; rfl
      | ok q' => rw [ih]; rfl

end Typed

/-! ## The list of values -/

/-- What stands on the right of a relation between lists has something on the left of it. -/
theorem exists_of_forall₂ {α β : Type} {R : α → β → Prop} {as : List α} {bs : List β}
    (h : List.Forall₂ R as bs) {b : β} (hb : b ∈ bs) : ∃ a ∈ as, R a b := by
  induction h with
  | nil => exact absurd hb List.not_mem_nil
  | @cons a _ _ _ hR _ ih =>
      rw [List.mem_cons] at hb
      rcases hb with rfl | hb
      · exact ⟨a, List.mem_cons_self, hR⟩
      · obtain ⟨a', ha, hR⟩ := ih hb
        exact ⟨a', List.mem_cons_of_mem _ ha, hR⟩

namespace Codec

variable {α : Type} (c : Codec α)

/-- The length of the record that holds a value. -/
def length (value : α) : Nat := (c.encode value).toOption.elim 0 List.length

/-- Where the log ends that holds the values. -/
def size : List α → Nat
  | [] => 0
  | value :: values => framedLen (c.length value) + size values

/-- The values, each with its offset. -/
def located : Nat → List α → List (Nat × α)
  | _, [] => []
  | off, value :: values => (off, value) :: located (off + framedLen (c.length value)) values

/-- The records are those of the values. -/
def Encodes (values : List α) (ps : List (List UInt8)) : Prop :=
  List.Forall₂ (fun value p => c.encode value = .ok p) values ps

variable {c} {values : List α} {ps : List (List UInt8)}

theorem length_of_encode {value : α} {p : List UInt8} (h : c.encode value = .ok p) :
    c.length value = p.length := by
  rw [length, h]
  rfl

theorem Encodes.size_eq (h : c.Encodes values ps) : (frames ps).length = c.size values := by
  induction h with
  | nil => rfl
  | cons hp _ ih => rw [frames_cons, List.length_append, frame_length, size, ih, length_of_encode hp]

theorem Encodes.isEmpty_eq (h : c.Encodes values ps) : ps.isEmpty = values.isEmpty := by
  cases h <;> rfl

theorem Encodes.snoc (h : c.Encodes values ps) {value : α} {p : List UInt8}
    (hp : c.encode value = .ok p) : c.Encodes (values ++ [value]) (ps ++ [p]) :=
  List.rel_append h (List.Forall₂.cons hp List.Forall₂.nil)

/-- The record at an offset is that of the value there. -/
def At (c : Codec α) (v : Nat × α) (r : Nat × List UInt8) : Prop :=
  v.1 = r.1 ∧ c.encode v.2 = .ok r.2

variable {vs : List (Nat × α)} {rs : List (Nat × List UInt8)}

/-- Values and their records lie at the same offsets. -/
theorem Encodes.located (h : c.Encodes values ps) (off : Nat) :
    List.Forall₂ c.At (c.located off values) (WalDb.located off ps) := by
  induction h generalizing off with
  | nil => exact List.Forall₂.nil
  | cons hp _ ih =>
      rw [Codec.located, WalDb.located, length_of_encode hp]
      exact List.Forall₂.cons ⟨rfl, hp⟩ (ih _)

/-- A selection by offset takes the records of the values it takes. -/
theorem at_filter (h : List.Forall₂ c.At vs rs) (keep : Nat → Bool) :
    List.Forall₂ c.At (vs.filter fun v => keep v.1) (rs.filter fun r => keep r.1) := by
  refine List.rel_filter ?_ h
  intro v r hvr
  dsimp only
  rw [hvr.1]

theorem encodes_of_at (h : List.Forall₂ c.At vs rs) :
    c.Encodes (vs.map Prod.snd) (rs.map Prod.snd) :=
  List.rel_map (fun _ _ hvr => hvr.2) h

/-- Reading the records gives the values back. -/
theorem decode_items (h : List.Forall₂ c.At vs rs) :
    (RecordList.items rs).map (decodeItem c) = vs.map .ok := by
  induction h with
  | nil => rfl
  | @cons v r vs rs hvr _ ih =>
      have hitem : decodeItem c (.ok { lsn := r.1, data := r.2 }) = .ok v := by
        rw [decodeItem, Wal.Record.decode, c.decode_encode hvr.2, ← hvr.1]
        rfl
      show decodeItem c _ :: (RecordList.items rs).map (decodeItem c) = _
      rw [hitem, ih]
      rfl

theorem offsets_eq (h : List.Forall₂ c.At vs rs) : vs.map Prod.fst = rs.map Prod.fst := by
  induction h with
  | nil => rfl
  | cons hvr _ ih => rw [List.map_cons, List.map_cons, hvr.1, ih]

end Codec

structure ValueList (α : Type) where
  limit : Nat
  values : List α

namespace ValueList

variable {α : Type} (c : Codec α)

def ask (l : ValueList α) : TypedRequest α → Except TypedFault (TypedReply α) × ValueList α
  | .append value =>
      match c.encode value with
      | .error detail => (.error (.encoding detail), l)
      | .ok bytes =>
          if l.limit < bytes.length then
            (.error (.log (.err (.recordTooLarge bytes.length l.limit))), l)
          else (.ok (.plain (.lsn (c.size l.values))), { l with values := l.values ++ [value] })
  | .sync => (.ok (.plain .done), l)
  | .iter => (.ok (.values ((c.located 0 l.values).map .ok)), l)
  | .iterFrom lsn =>
      (.ok (.values (((c.located 0 l.values).filter fun v => decide (lsn ≤ v.1)).map .ok)), l)
  | .truncateAfter lsn =>
      (.ok (.plain .done),
        { l with values := ((c.located 0 l.values).filter fun v => decide (v.1 ≤ lsn)).map Prod.snd })
  | .len => (.ok (.plain (.size (c.size l.values))), l)
  | .isEmpty => (.ok (.plain (.empty l.values.isEmpty)), l)
  | .reopen config => (.ok (.plain (.opened 0)), { l with limit := config.maxRecordSize })

/-- Memory can hold what is appended, an iterator starts between values or past them, a
truncation keeps up to a value, and no reopen has a limit that excludes one. -/
def Names (l : ValueList α) : TypedRequest α → Prop
  | .append value => c.size l.values + framedLen (c.length value) < 2 ^ 63
  | .iterFrom lsn =>
      ∀ v ∈ c.located 0 l.values, ¬ (v.1 < lsn ∧ lsn < v.1 + framedLen (c.length v.2))
  | .truncateAfter lsn => lsn ∈ (c.located 0 l.values).map Prod.fst
  | .reopen config => ∀ value ∈ l.values, c.length value ≤ config.maxRecordSize
  | _ => True

instance (l : ValueList α) : ∀ q, Decidable (l.Names c q)
  | .append _ => inferInstanceAs (Decidable (_ < _))
  | .iterFrom lsn =>
      inferInstanceAs (Decidable
        (∀ v ∈ c.located 0 l.values, ¬ (v.1 < lsn ∧ lsn < v.1 + framedLen (c.length v.2))))
  | .truncateAfter lsn => inferInstanceAs (Decidable (lsn ∈ (c.located 0 l.values).map Prod.fst))
  | .reopen config =>
      inferInstanceAs (Decidable (∀ value ∈ l.values, c.length value ≤ config.maxRecordSize))
  | .sync | .iter | .len | .isEmpty => inferInstanceAs (Decidable True)

/-- The list of records is that of the values. -/
structure Represents (j : Journal) (l : ValueList α) : Prop where
  limit_eq : j.limit = l.limit
  encodes : c.Encodes l.values j.records

variable {c} {j : Journal} {l : ValueList α}

theorem Represents.located (h : Represents c j l) :
    List.Forall₂ c.At (c.located 0 l.values) j.entries :=
  h.encodes.located 0

theorem Represents.append (h : Represents c j l) (value : α) :
    (typed c Journal.ask j (.append value)).1 = (l.ask c (.append value)).1 ∧
      Represents c (typed c Journal.ask j (.append value)).2 (l.ask c (.append value)).2 := by
  cases henc : c.encode value with
  | error detail =>
      simp only [typed, ask, lower_append, henc, Except.map]
      exact ⟨trivial, h⟩
  | ok bytes =>
      simp only [typed, ask, lower_append, henc, Except.map, Journal.ask, Journal.append,
        h.limit_eq]
      by_cases hbig : l.limit < bytes.length
      · rw [if_pos hbig, if_pos hbig]
        exact ⟨rfl, h⟩
      · rw [if_neg hbig, if_neg hbig]
        refine ⟨?_, rfl, h.encodes.snoc henc⟩
        rw [Journal.size, h.encodes.size_eq]
        rfl

/-- The records answer a typed request as the values do, and remain theirs. -/
theorem Represents.ask (h : Represents c j l) (q : TypedRequest α) :
    (typed c Journal.ask j q).1 = (l.ask c q).1 ∧
      Represents c (typed c Journal.ask j q).2 (l.ask c q).2 := by
  have hsize : j.size = c.size l.values := h.encodes.size_eq
  cases q with
  | append value => exact h.append value
  | sync => exact ⟨rfl, h⟩
  | iter =>
      refine ⟨?_, h⟩
      show Except.ok (TypedReply.values ((RecordList.items j.entries).map (decodeItem c))) = _
      rw [Codec.decode_items h.located]
      rfl
  | iterFrom lsn =>
      refine ⟨?_, h⟩
      show Except.ok (TypedReply.values ((RecordList.items _).map (decodeItem c))) = _
      rw [Codec.decode_items (Codec.at_filter h.located fun off => decide (lsn ≤ off))]
      rfl
  | truncateAfter lsn =>
      have hkept := Codec.at_filter h.located fun off => decide (off ≤ lsn)
      exact ⟨rfl, h.limit_eq, Codec.encodes_of_at hkept⟩
  | len =>
      refine ⟨?_, h⟩
      show Except.ok (TypedReply.plain (Reply.size j.size)) = _
      rw [hsize]
      rfl
  | isEmpty =>
      refine ⟨?_, h⟩
      show Except.ok (TypedReply.plain (Reply.empty j.records.isEmpty)) = _
      rw [h.encodes.isEmpty_eq]
      rfl
  | reopen config => exact ⟨rfl, rfl, h.encodes⟩

/-- What the values allow, the records do. -/
theorem Represents.names (h : Represents c j l) {q : TypedRequest α} {lowered : Request}
    (hq : l.Names c q) (hlower : q.lower c = .ok lowered) : j.Names lowered := by
  have hsize : j.size = c.size l.values := h.encodes.size_eq
  cases q with
  | append value =>
      rw [lower_append] at hlower
      cases henc : c.encode value with
      | error detail =>
          rw [henc] at hlower
          cases hlower
      | ok bytes =>
          rw [henc] at hlower
          cases hlower
          have hroom : c.size l.values + framedLen (c.length value) < 2 ^ 63 := hq
          rw [Codec.length_of_encode henc, ← hsize] at hroom
          exact hroom
  | iterFrom lsn =>
      cases hlower
      intro r hr
      obtain ⟨v, hv, hoff, henc⟩ := exists_of_forall₂ h.located hr
      have hbetween := hq v hv
      rw [hoff, Codec.length_of_encode henc] at hbetween
      exact hbetween
  | truncateAfter lsn =>
      cases hlower
      have hmem : lsn ∈ (c.located 0 l.values).map Prod.fst := hq
      rw [Codec.offsets_eq h.located] at hmem
      exact List.mem_map.mp hmem
  | reopen config =>
      cases hlower
      intro p hp
      obtain ⟨value, hv, henc⟩ := exists_of_forall₂ h.encodes hp
      rw [← Codec.length_of_encode henc]
      exact hq value hv
  | sync | iter | len | isEmpty =>
      cases hlower
      trivial

theorem Represents.throughout (h : Represents c j l) {program : List (TypedRequest α)}
    (hnames : Throughout (ValueList.ask c) (ValueList.Names c) l program) :
    Throughout Journal.ask Journal.Names j (lowered c program) := by
  induction program generalizing j l with
  | nil => trivial
  | cons q program ih =>
      obtain ⟨-, hnext⟩ := h.ask q
      unfold lowered at ih ⊢
      rw [List.filterMap_cons]
      unfold typed at hnext
      cases hlower : q.lower c with
      | error detail =>
          rw [hlower] at hnext
          exact ih hnext hnames.2
      | ok q' =>
          rw [hlower] at hnext
          exact ⟨h.names hnames.1 hlower, ih hnext hnames.2⟩

theorem Represents.answers (h : Represents c j l) {program : List (TypedRequest α)}
    (hnames : Throughout (ValueList.ask c) (ValueList.Names c) l program) :
    raised c program (Lib.answers Journal.ask j (lowered c program)) =
      Lib.answers (ValueList.ask c) l program := by
  rw [← answers_typed]
  have hstep : ∀ j l q, Represents c j l → l.Names c q → True →
      (typed c Journal.ask j q).1 = (l.ask c q).1 ∧
        Represents c (typed c Journal.ask j q).2 (l.ask c q).2 :=
    fun _ _ q h _ _ => h.ask q
  exact answers_eq _ hstep h hnames fun _ _ => trivial

end ValueList

/-- A log of typed records is a list of values.  Take any bytes in memory, in one file or
striped over segments, that open under either policy to the records of some values; a new log
opens to none.  From then on `append_typed` and the iterators with `decode`, among all the
other calls and reopens, answer as the list does that starts with these values: a value that
cannot be encoded or is too long leaves no trace, and what is read is what was appended, at the
offset that was returned for it.  The program names offsets of records, never lowers the size
limit below one of them, and does not drop a prefix.  One file must end a record before the
largest offset, since the first open can read that far. -/
theorem typed_log_is_value_list {α : Type} (c : Codec α) (mem : MemStore) (config : WalConfig)
    (cut : Nat) (hopen : ((Handle.closed mem).ask (.reopen config)).1 = .ok (.opened cut))
    (values : List α)
    (hvalues : c.Encodes values
      (payloads (Image.ofList mem.data) config.maxRecordSize mem.data.length 0))
    (program : List (TypedRequest α))
    (hnames : Throughout (ValueList.ask c) (ValueList.Names c) ⟨config.maxRecordSize, values⟩
      program) :
    let told := .ok (.plain (.opened cut)) ::
      answers (ValueList.ask c) ⟨config.maxRecordSize, values⟩ program
    answers (Handle.askTyped c) (.closed mem) (.reopen config :: program) = told ∧
      (mem.data.length + headerLen + config.maxRecordSize < 2 ^ 63 →
        ∀ s : FileStore, s.faults = [] → s.file.written = mem.data →
        answers (Handle.askTyped c) (.closed s) (.reopen config :: program) = told) ∧
      ∀ size, 0 < size → ∀ created, ∃ s0 s,
        SegmentedStore.openDir size created Dir.empty = (.ok s0, Dir.empty) ∧
        WalStore.writeAt 0 mem.data s0 = (.ok (), s) ∧
        answers (Handle.askTyped c) (.closed s) (.reopen config :: program) = told := by
  intro told
  have hrep : ValueList.Represents c
      ⟨config.maxRecordSize, payloads (Image.ofList mem.data) config.maxRecordSize
        mem.data.length 0⟩ ⟨config.maxRecordSize, values⟩ := ⟨rfl, hvalues⟩
  obtain ⟨hmem, hfile, hsegments⟩ := answers_opened hopen (hrep.throughout hnames)
  -- Every store gives the untyped calls the same answers, and these are raised to the values.
  have hraise : raised c (.reopen config :: program) (.ok (.opened cut) ::
      answers Journal.ask ⟨config.maxRecordSize, payloads (Image.ofList mem.data)
        config.maxRecordSize mem.data.length 0⟩ (lowered c program)) = told := by
    show _ :: raised c program _ = told
    rw [List.tail_cons, hrep.answers hnames]
    rfl
  have htold : ∀ {S : Type} [WalStore S] [Shipped S] {s : S},
      answers Handle.ask (.closed s) (.reopen config :: lowered c program) =
        .ok (.opened cut) :: answers Journal.ask ⟨config.maxRecordSize,
          payloads (Image.ofList mem.data) config.maxRecordSize mem.data.length 0⟩
          (lowered c program) →
      answers (Handle.askTyped c) (.closed s) (.reopen config :: program) = told := by
    intro S _ _ s hs
    rw [Handle.askTyped_eq, answers_typed, ← hraise, ← hs]
    rfl
  refine ⟨htold hmem, fun hfirst s hcalm hdata => htold (hfile hfirst s hcalm hdata), ?_⟩
  intro size hsize created
  obtain ⟨s0, s, hdir, hwrite, hs⟩ := hsegments size hsize created
  exact ⟨s0, s, hdir, hwrite, htold hs⟩

/-- Up to 255 bytes, behind their number. -/
def shortBytes : Codec (List UInt8) where
  encode value :=
    if value.length < 256 then .ok (UInt8.ofNat value.length :: value) else .error "too long"
  decode
    | [] => .error "no length"
    | len :: value => if len.toNat = value.length then .ok value else .error "wrong length"
  decode_encode := by
    intro value bytes h
    split at h
    · cases h
      exact if_pos (UInt8.toNat_ofNat_of_lt' ‹_›)
    · cases h

/-- A value and a torn record behind it, opened under the strict policy.  Another value is
appended and cut away again, one cannot be encoded, and after a lenient open with a smaller
limit one is too long. -/
theorem typed_log_is_value_list_torn_tail :
    let mem : MemStore := ⟨frame [1, 7] ++ [3, 0, 0], by decide +kernel⟩
    let config := WalConfig.new.withOpenPolicy .strict
    let program : List (TypedRequest (List UInt8)) := [.append [8, 9], .iterFrom 10,
      .truncateAfter 0, .append (List.replicate 256 0), .append [1, 2, 3],
      .reopen ⟨4, .skipBadRecords, .truncateTail, by decide⟩, .append [1, 2, 3, 4], .iter]
    answers (Handle.askTyped shortBytes) (.closed mem) (.reopen config :: program) =
        .ok (.plain (.opened 3)) ::
          answers (ValueList.ask shortBytes) ⟨config.maxRecordSize, [[7]]⟩ program ∧
      answers (ValueList.ask shortBytes) ⟨config.maxRecordSize, [[7]]⟩ program =
        [.ok (.plain (.lsn 10)), .ok (.values [.ok (10, [8, 9])]), .ok (.plain .done),
          .error (.encoding "too long"), .ok (.plain (.lsn 10)), .ok (.plain (.opened 0)),
          .error (.log (.err (.recordTooLarge 5 4))),
          .ok (.values [.ok (0, [7]), .ok (10, [1, 2, 3])])] := by
  intro mem config program
  have hps : payloads (Image.ofList mem.data) config.maxRecordSize mem.data.length 0 =
      [[1, 7]] := by decide +kernel
  have hvalues : shortBytes.Encodes [[7]]
      (payloads (Image.ofList mem.data) config.maxRecordSize mem.data.length 0) := by
    rw [hps]
    exact List.Forall₂.cons rfl List.Forall₂.nil
  have hmain := typed_log_is_value_list shortBytes mem config 3 (by decide +kernel) [[7]]
    hvalues program (by decide +kernel)
  exact ⟨hmain.1, by decide +kernel⟩

end WalDb
