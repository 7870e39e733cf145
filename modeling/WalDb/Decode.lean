/-
What an image of the log decodes to, apart from how the readers get there.

`recordAt` is the payload of the record at an offset, if an intact one of
admissible length starts there; `payloads` follows records from an offset until
none does.  Nothing here reads a store: the open scan, the iterator and the
truncation check are each proved to compute these functions, so two readers
agree because they agree with the image.

`Intact.isPrefix` is the central fact.  Frames carry their own length, so an
image can be split into frames in one way only, and every list of frames found
at an offset is an initial part of `payloads`.
-/
import Mathlib.Data.List.Infix
import WalDb.Lib.Image
import WalDb.Record

namespace WalDb

open Lib Record

/-- The payload of the intact record at `off` of at most `m` bytes, if there is
one. -/
def recordAt (img : Image UInt8) (m off : Nat) : Option (List UInt8) :=
  (img.read off headerLen).bind fun header =>
    let parsed := parseHeader header
    if parsed.len ≤ m then
      (img.read (off + headerLen) parsed.len).bind fun payload =>
        if verify header payload parsed.crc then some payload else none
    else none

/-- The bytes of consecutive records. -/
def frames (ps : List (List UInt8)) : List UInt8 := ps.flatMap frame

/-- Pair each payload with the offset its record starts at. -/
def located (off : Nat) : List (List UInt8) → List (Nat × List UInt8)
  | [] => []
  | p :: ps => (off, p) :: located (off + framedLen p.length) ps

/-- The payloads of the records that follow one another from `off` on, below
`size`. -/
def payloads (img : Image UInt8) (m size off : Nat) : List (List UInt8) :=
  if off < size then
    match recordAt img m off with
    | some p => p :: payloads img m size (off + framedLen p.length)
    | none => []
  else []
termination_by size - off
decreasing_by
  unfold framedLen headerLen
  omega

/-- Records with the payloads `ps`, each of at most `m` bytes, follow one another
from `off` on. -/
def Intact (img : Image UInt8) (m off : Nat) (ps : List (List UInt8)) : Prop :=
  (∀ p ∈ ps, p.length ≤ m) ∧ img.read off (frames ps).length = some (frames ps)

/-! ## Lists of frames -/

@[simp] theorem frames_nil : frames [] = [] := rfl

@[simp] theorem frames_cons (p : List UInt8) (ps : List (List UInt8)) :
    frames (p :: ps) = frame p ++ frames ps := rfl

theorem frames_append (ps qs : List (List UInt8)) : frames (ps ++ qs) = frames ps ++ frames qs :=
  List.flatMap_append

theorem frames_length_pos {ps : List (List UInt8)} (h : ps ≠ []) : 0 < (frames ps).length := by
  cases ps with
  | nil => exact absurd rfl h
  | cons p ps =>
      rw [frames_cons, List.length_append, frame_length, framedLen, headerLen]
      omega

theorem located_append (off : Nat) (ps qs : List (List UInt8)) :
    located off (ps ++ qs) = located off ps ++ located (off + (frames ps).length) qs := by
  induction ps generalizing off with
  | nil => simp [located]
  | cons p ps ih => simp [located, ih, Nat.add_assoc]

theorem located_map_snd (off : Nat) (ps : List (List UInt8)) :
    (located off ps).map Prod.snd = ps := by
  induction ps generalizing off with
  | nil => rfl
  | cons p ps ih => simp [located, ih]

/-- Every located record lies within the bytes of the frames. -/
theorem mem_located_bounds {off : Nat} {ps : List (List UInt8)} {r : Nat × List UInt8}
    (h : r ∈ located off ps) :
    off ≤ r.1 ∧ r.1 + framedLen r.2.length ≤ off + (frames ps).length := by
  induction ps generalizing off with
  | nil => simp [located] at h
  | cons p ps ih =>
      simp only [located, List.mem_cons] at h
      simp only [frames_cons, List.length_append, frame_length]
      rcases h with rfl | h
      · exact ⟨Nat.le_refl _, by dsimp only; omega⟩
      · have := ih h
        omega

/-- A record of the list and what comes before and after it. -/
theorem located_mem_split {off : Nat} {ps : List (List UInt8)} {r : Nat × List UInt8}
    (h : r ∈ located off ps) :
    ∃ ps1 ps2, ps = ps1 ++ r.2 :: ps2 ∧ r.1 = off + (frames ps1).length := by
  induction ps generalizing off with
  | nil => cases h
  | cons p ps ih =>
      rcases List.mem_cons.mp h with rfl | h
      · exact ⟨[], ps, rfl, rfl⟩
      · obtain ⟨ps1, ps2, rfl, heq⟩ := ih h
        refine ⟨p :: ps1, ps2, rfl, ?_⟩
        rw [heq, frames_cons, List.length_append, frame_length, Nat.add_assoc]

/-- The records follow one another. -/
theorem located_pairwise (off : Nat) (ps : List (List UInt8)) :
    (located off ps).Pairwise fun r q => r.1 + framedLen r.2.length ≤ q.1 := by
  induction ps generalizing off with
  | nil => exact List.Pairwise.nil
  | cons p ps ih => exact List.Pairwise.cons (fun _ hq => (mem_located_bounds hq).1) (ih _)

theorem located_initial {off : Nat} {ps qs : List (List UInt8)} (h : ps <+: qs) :
    located off ps <+: located off qs := by
  obtain ⟨t, rfl⟩ := h
  rw [located_append]
  exact List.prefix_append _ _

/-! ## One record -/

/-- An intact record is a frame read whole. -/
theorem recordAt_eq_some_iff {img : Image UInt8} {m off : Nat} {p : List UInt8}
    (hm : m < 2 ^ 32) :
    recordAt img m off = some p ↔
      p.length ≤ m ∧ img.read off (framedLen p.length) = some (frame p) := by
  unfold recordAt
  constructor
  · intro h
    obtain ⟨hdr, hhdr, h⟩ := Option.bind_eq_some_iff.mp h
    by_cases hlen : (parseHeader hdr).len ≤ m
    · rw [if_pos hlen] at h
      obtain ⟨payload, hpay, h⟩ := Option.bind_eq_some_iff.mp h
      by_cases hver : verify hdr payload (parseHeader hdr).crc = true
      · rw [if_pos hver] at h
        cases h
        have hl := Image.read_length hpay
        obtain ⟨-, hframe⟩ := (intact_iff (Image.read_length hhdr)).mp ⟨hl, hver⟩
        refine ⟨hl ▸ hlen, ?_⟩
        rw [← hframe, framedLen]
        exact (Image.read_append_iff (Image.read_length hhdr) rfl).mpr ⟨hhdr, hl ▸ hpay⟩
      · rw [if_neg hver] at h
        cases h
    · rw [if_neg hlen] at h
      cases h
  · rintro ⟨hlen, hread⟩
    rw [frame_eq_header_append, framedLen,
      Image.read_append_iff (header_length p) rfl] at hread
    have hp : p.length < 2 ^ 32 := by omega
    simp only [hread.1, Option.bind_some, parseHeader_header hp, if_pos hlen, hread.2,
      verify_header, if_true]

theorem recordAt_none_of_past {img : Image UInt8} {m off : Nat} (h : img off = none) :
    recordAt img m off = none := by
  have hr : img.read off headerLen = none :=
    Image.read_eq_none_iff.mpr ⟨0, by decide, by simpa using h⟩
  simp [recordAt, hr]

/-! ## Following records -/

theorem payloads_some {img : Image UInt8} {m size off : Nat} {p : List UInt8}
    (hlt : off < size) (h : recordAt img m off = some p) :
    payloads img m size off = p :: payloads img m size (off + framedLen p.length) := by
  rw [payloads, if_pos hlt, h]

theorem payloads_none {img : Image UInt8} {m size off : Nat}
    (h : off < size → recordAt img m off = none) : payloads img m size off = [] := by
  rw [payloads]
  by_cases hlt : off < size
  · rw [if_pos hlt, h hlt]
  · rw [if_neg hlt]

/-- A record is found wherever its bytes are. -/
theorem recordAt_shift {img img' : Image UInt8} {m off off' : Nat}
    (h : ∀ i, img (off + i) = img' (off' + i)) : recordAt img m off = recordAt img' m off' := by
  have hread : ∀ k n, img.read (off + k) n = img'.read (off' + k) n := fun k n =>
    Image.read_shift fun i _ => by simpa only [Nat.add_assoc] using h (k + i)
  have hhead := hread 0 headerLen
  simp only [Nat.add_zero] at hhead
  simp only [recordAt, hhead, hread]

theorem Intact.nil (img : Image UInt8) (m off : Nat) : Intact img m off [] :=
  ⟨fun _ hp => absurd hp List.not_mem_nil, Image.read_zero img off⟩

/-- An intact list is an intact record followed by an intact list. -/
theorem intact_cons_iff {img : Image UInt8} {m off : Nat} {p : List UInt8}
    {ps : List (List UInt8)} (hm : m < 2 ^ 32) :
    Intact img m off (p :: ps) ↔
      recordAt img m off = some p ∧ Intact img m (off + framedLen p.length) ps := by
  unfold Intact
  rw [recordAt_eq_some_iff hm, frames_cons, List.length_append,
    Image.read_append_iff rfl rfl, frame_length]
  simp only [List.mem_cons, forall_eq_or_imp]
  tauto

theorem intact_payloads {img : Image UInt8} {m size : Nat} (hm : m < 2 ^ 32) (off : Nat) :
    Intact img m off (payloads img m size off) := by
  induction off using payloads.induct img m size with
  | case1 off hlt p hp ih =>
      rw [payloads_some hlt hp]
      exact (intact_cons_iff hm).mpr ⟨hp, ih⟩
  | case2 off hlt hp =>
      rw [payloads_none fun _ => hp]
      exact Intact.nil img m off
  | case3 off hlt =>
      rw [payloads_none fun h => absurd h hlt]
      exact Intact.nil img m off

/-- Frames decode in one way only: any list of records at `off` is an initial
part of the records found there. -/
theorem Intact.isPrefix {img : Image UInt8} {m size off : Nat} {qs : List (List UInt8)}
    (hm : m < 2 ^ 32) (hpast : ∀ o, size ≤ o → img o = none) (h : Intact img m off qs) :
    qs <+: payloads img m size off := by
  induction qs generalizing off with
  | nil => exact List.nil_prefix
  | cons q qs ih =>
      obtain ⟨hq, hqs⟩ := (intact_cons_iff hm).mp h
      have hlt : off < size := by
        by_contra hge
        rw [recordAt_none_of_past (hpast off (by omega))] at hq
        cases hq
      rw [payloads_some hlt hq]
      exact List.cons_prefix_cons.mpr ⟨rfl, ih hqs⟩

/-- Records that no further one follows are all that is found. -/
theorem Intact.payloads_of_stop {img : Image UInt8} {m size off : Nat} {ps : List (List UInt8)}
    (hm : m < 2 ^ 32) (hpast : ∀ o, size ≤ o → img o = none) (h : Intact img m off ps)
    (hstop : recordAt img m (off + (frames ps).length) = none) : payloads img m size off = ps := by
  induction ps generalizing off with
  | nil => exact payloads_none fun _ => hstop
  | cons p ps ih =>
      obtain ⟨hp, hps⟩ := (intact_cons_iff hm).mp h
      have hlt : off < size := by
        by_contra hge
        rw [recordAt_none_of_past (hpast off (by omega))] at hp
        cases hp
      rw [frames_cons, List.length_append, frame_length, ← Nat.add_assoc] at hstop
      rw [payloads_some hlt hp, ih hps hstop]

theorem Intact.append {img : Image UInt8} {m off : Nat} {ps qs : List (List UInt8)}
    (hp : Intact img m off ps) (hq : Intact img m (off + (frames ps).length) qs) :
    Intact img m off (ps ++ qs) := by
  refine ⟨fun p h => ?_, ?_⟩
  · rcases List.mem_append.mp h with h | h
    · exact hp.1 p h
    · exact hq.1 p h
  · rw [frames_append, List.length_append]
    exact (Image.read_append_iff rfl rfl).mpr ⟨hp.2, hq.2⟩

/-- An image that agrees with an intact list's bytes holds the same list. -/
theorem Intact.congr {img img' : Image UInt8} {m m' off : Nat} {ps : List (List UInt8)}
    (hm : m ≤ m') (h : Intact img m off ps)
    (heq : ∀ o, off ≤ o → o < off + (frames ps).length → img o = img' o) :
    Intact img' m' off ps := by
  refine ⟨fun p hp => Nat.le_trans (h.1 p hp) hm, ?_⟩
  rw [← h.2]
  exact (Image.read_congr fun i hi => heq (off + i) (by omega) (by omega)).symm

/-- Where the records from `off` on end. -/
def logEnd (img : Image UInt8) (m size off : Nat) : Nat :=
  off + (frames (payloads img m size off)).length

theorem logEnd_some {img : Image UInt8} {m size off : Nat} {p : List UInt8}
    (hlt : off < size) (h : recordAt img m off = some p) :
    logEnd img m size off = logEnd img m size (off + framedLen p.length) := by
  simp only [logEnd, payloads_some hlt h, frames_cons, List.length_append, frame_length]
  omega

theorem logEnd_none {img : Image UInt8} {m size off : Nat}
    (h : off < size → recordAt img m off = none) : logEnd img m size off = off := by
  simp [logEnd, payloads_none h]

/-- The records end within the image. -/
theorem logEnd_le {img : Image UInt8} {m size off : Nat} (hm : m < 2 ^ 32)
    (hpast : ∀ o, size ≤ o → img o = none) (hle : off ≤ size) :
    logEnd img m size off ≤ size := by
  obtain ⟨-, hread⟩ := @intact_payloads img m size hm off
  by_contra hgt
  have hpos : 0 < (frames (payloads img m size off)).length := by
    unfold logEnd at hgt
    omega
  have hnone := hpast (off + ((frames (payloads img m size off)).length - 1)) (by
    unfold logEnd at hgt
    omega)
  rw [Image.read_eq_none_iff.mpr ⟨_, by omega, hnone⟩] at hread
  cases hread

/-! ## Records one by one -/

/-- A list of records is intact when each of them is, where it belongs. -/
theorem intact_iff_located {img : Image UInt8} {m off : Nat} {ps : List (List UInt8)} :
    Intact img m off ps ↔ (∀ p ∈ ps, p.length ≤ m) ∧
      ∀ r ∈ located off ps, img.read r.1 (framedLen r.2.length) = some (frame r.2) := by
  unfold Intact
  refine and_congr_right fun h => ?_
  clear h
  induction ps generalizing off with
  | nil => simp [located]
  | cons p ps ih =>
      rw [frames_cons, List.length_append, Image.read_append_iff rfl rfl, frame_length, ih]
      simp [located]

/-- The records that end at or below `limit` are the first ones. -/
theorem located_filter (off limit : Nat) (ps : List (List UInt8)) :
    ∃ qs, qs <+: ps ∧
      (located off ps).filter (fun r => decide (r.1 + framedLen r.2.length ≤ limit)) =
        located off qs := by
  induction ps generalizing off with
  | nil => exact ⟨[], List.nil_prefix, rfl⟩
  | cons p ps ih =>
      by_cases hle : off + framedLen p.length ≤ limit
      · obtain ⟨qs, hqs, heq⟩ := ih (off + framedLen p.length)
        refine ⟨p :: qs, List.cons_prefix_cons.mpr ⟨rfl, hqs⟩, ?_⟩
        show List.filter _ ((off, p) :: located _ ps) = (off, p) :: located _ qs
        rw [List.filter_cons_of_pos (by simpa using hle), heq]
      · refine ⟨[], List.nil_prefix, ?_⟩
        show List.filter _ ((off, p) :: located _ ps) = []
        rw [List.filter_cons_of_neg (by simpa using hle), List.filter_eq_nil_iff.mpr]
        · intro r hr
          have := mem_located_bounds hr
          unfold framedLen headerLen at this hle
          simp only [decide_eq_true_eq]
          unfold framedLen headerLen
          omega

theorem mem_of_located_filter {off limit : Nat} {ps qs : List (List UInt8)}
    (h : (located off ps).filter (fun r => decide (r.1 + framedLen r.2.length ≤ limit)) =
      located off qs) (r : Nat × List UInt8) :
    r ∈ located off qs ↔ r ∈ located off ps ∧ r.1 + framedLen r.2.length ≤ limit := by
  rw [← h, List.mem_filter, decide_eq_true_eq]

/-- Cutting an image where its records end leaves its records. -/
theorem payloads_take {b : List UInt8} {m off : Nat} (hm : m < 2 ^ 32) :
    payloads (Image.ofList (b.take (logEnd (Image.ofList b) m b.length off))) m
        (b.take (logEnd (Image.ofList b) m b.length off)).length off =
      payloads (Image.ofList b) m b.length off := by
  have hpast : ∀ (c : List UInt8) o, c.length ≤ o → Image.ofList c o = none :=
    fun c o ho => List.getElem?_eq_none ho
  have hagree : ∀ o, o < logEnd (Image.ofList b) m b.length off →
      Image.ofList b o = Image.ofList (b.take (logEnd (Image.ofList b) m b.length off)) o :=
    fun o ho => (List.getElem?_take_of_lt ho).symm
  have hsub := ((@intact_payloads (Image.ofList b) m b.length hm off).congr (Nat.le_refl m)
    fun o _ ho => hagree o ho).isPrefix hm (hpast _)
  suffices hsup : Intact (Image.ofList b) m off
      (payloads (Image.ofList (b.take (logEnd (Image.ofList b) m b.length off))) m
        (b.take (logEnd (Image.ofList b) m b.length off)).length off) by
    have hsup := hsup.isPrefix hm (hpast b)
    exact hsup.eq_of_length (Nat.le_antisymm hsup.length_le hsub.length_le)
  obtain ⟨hfit, hread⟩ :=
    @intact_payloads (Image.ofList (b.take (logEnd (Image.ofList b) m b.length off))) m
      (b.take (logEnd (Image.ofList b) m b.length off)).length hm off
  refine ⟨hfit, ?_⟩
  -- What reads whole in the cut image lies below the cut.
  rw [← hread]
  refine Image.read_congr fun i hi => hagree _ ?_
  by_contra hge
  have hnone := hpast (b.take (logEnd (Image.ofList b) m b.length off)) (off + i)
    (by rw [List.length_take]; omega)
  rw [Image.read_eq_none_iff.mpr ⟨i, hi, hnone⟩] at hread
  cases hread

end WalDb
