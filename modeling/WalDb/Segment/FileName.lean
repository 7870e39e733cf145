/-
The names of segment files.

A segment file is called by its index, in decimal and padded to twenty digits, with
the extension `wal`.  `parse_segment_name` reads the index back from a name of the
listing; every file the store may count, cut or remove is chosen by it.  A name is
any string of bytes, as a file system has it, and need not be UTF-8.

The store of `Segment.Store` holds the directory by index.  The last part here shows
that this loses nothing: seen through `parse_segment_name`, a directory of names is
such a directory of indices, and creating, changing and removing a file by its name
does to the one what the store does to the other.
-/
import Mathlib
import WalDb.Lib.Decimal
import WalDb.Lib.Relabel
import WalDb.Segment.Store

namespace WalDb

open Lib

/-- Segment file names are zero-padded to this width. -/
def nameDigits : Nat := 20

def nameExt : String := "wal"

/-- File holding the head marker. -/
def headFileName : String := "head"

def headTmpFileName : String := "head.tmp"

namespace FileName

/-- The bytes of a string, which are also those of the file name it stands for. -/
def bytes (s : String) : List UInt8 := s.toByteArray.data.toList

/-- `str::strip_suffix`. -/
def stripSuffix (s suffix : List UInt8) : Option (List UInt8) :=
  if suffix <:+ s then some (s.take (s.length - suffix.length)) else none

/-- `str::parse::<u64>`: a plus sign may stand before the digits. -/
def parseU64 (s : List UInt8) : Option Nat :=
  if s = [] then none
  else if s.head? = some 0x2B ∧ 1 < s.length then Decimal.read (2 ^ 64) s.tail
  else Decimal.read (2 ^ 64) s

end FileName

open FileName

/-- The file name for segment `index`: zero-padded decimal, then `.wal`. -/
def segmentName (index : Nat) : String :=
  String.ofList (Decimal.padded nameDigits index) ++ ("." ++ nameExt)

/-- Parse a segment index out of a file name. -/
def parseSegmentName (name : ByteArray) : Option Nat := do
  let name ← String.fromUTF8? name
  let stem ← stripSuffix (bytes name) (bytes ("." ++ nameExt))
  if stem.length ≠ nameDigits ∨ ¬ stem.all Decimal.isAsciiDigit then none
  else parseU64 stem

namespace FileName

theorem stripSuffix_eq_some {s suffix stem : List UInt8} :
    stripSuffix s suffix = some stem ↔ s = stem ++ suffix := by
  unfold stripSuffix
  constructor
  · intro h
    split at h
    · rename_i hs
      obtain ⟨t, rfl⟩ := hs
      simpa using h
    · cases h
  · rintro rfl
    rw [if_pos (List.suffix_append _ _)]
    simp

theorem fromUTF8_eq_some {name : ByteArray} {s : String} :
    String.fromUTF8? name = some s ↔ name = s.toByteArray := by
  unfold String.fromUTF8?
  constructor
  · intro h
    split at h
    · cases h
      rfl
    · cases h
  · rintro rfl
    rw [dif_pos s.isValidUTF8]
    rfl

theorem bytes_append (s t : String) : bytes (s ++ t) = bytes s ++ bytes t := by
  simp [bytes]

/-- A string of digits has a byte for each. -/
theorem bytes_ofList {cs : List Char} (h : ∀ c ∈ cs, c.isDigit) :
    bytes (String.ofList cs) = Decimal.asciiBytes cs := by
  have hchar : ∀ c ∈ cs, String.utf8EncodeChar c = [UInt8.ofNat c.toNat] := by
    intro c hc
    have hd := Decimal.toNat_of_isDigit (h c hc)
    have hsize : c.utf8Size = 1 := by
      rw [Char.utf8Size_eq_one_iff, UInt32.le_iff_toNat_le]
      exact Nat.le_trans hd.2 (by decide)
    exact String.utf8EncodeChar_eq_singleton hsize
  simp only [bytes, String.toByteArray_ofList, List.utf8Encode, List.data_toByteArray,
    Decimal.asciiBytes]
  rw [List.flatMap_congr hchar, List.map_eq_flatMap]

theorem bytes_segmentName (index : Nat) :
    bytes (segmentName index) =
      Decimal.asciiBytes (Decimal.padded nameDigits index) ++ bytes ("." ++ nameExt) := by
  rw [segmentName, bytes_append, bytes_ofList fun c hc => Decimal.isDigit_of_mem_padded hc]

/-- Digits have no sign in front. -/
theorem parseU64_eq {s : List UInt8} (hs : s ≠ []) (h : ∀ b ∈ s, Decimal.isAsciiDigit b) :
    parseU64 s = if Decimal.value s < 2 ^ 64 then some (Decimal.value s) else none := by
  have hsign : s.head? ≠ some 0x2B := by
    intro hplus
    have := h 0x2B (List.mem_of_head? hplus)
    exact absurd this (by decide)
  rw [parseU64, if_neg hs, if_neg fun hp => hsign hp.1]
  exact Decimal.read_eq _ (by decide) h

end FileName

namespace FileName

theorem toByteArray_eq {name : ByteArray} {s : String} (h : name.data.toList = bytes s) :
    name = s.toByteArray :=
  ByteArray.ext (Array.toList_inj.mp h)

/-- The name of twenty digits, whatever they are. -/
theorem eq_segmentName {name : ByteArray} {stem : List UInt8}
    (hname : name.data.toList = stem ++ bytes ("." ++ nameExt))
    (hlen : stem.length = nameDigits) (hdigits : ∀ b ∈ stem, Decimal.isAsciiDigit b) :
    name = (segmentName (Decimal.value stem)).toByteArray := by
  have hpos : 0 < stem.length := by rw [hlen]; decide
  have hstem := Decimal.padded_value hpos hdigits
  rw [hlen] at hstem
  apply toByteArray_eq
  rw [bytes_segmentName, hstem, hname]

/-- What `parse_segment_name` makes of twenty digits and the extension. -/
theorem parseSegmentName_stem {name : ByteArray} {stem : List UInt8}
    (hname : name.data.toList = stem ++ bytes ("." ++ nameExt))
    (hlen : stem.length = nameDigits) (hdigits : ∀ b ∈ stem, Decimal.isAsciiDigit b) :
    parseSegmentName name =
      if Decimal.value stem < 2 ^ 64 then some (Decimal.value stem) else none := by
  have hstr := fromUTF8_eq_some.mpr (eq_segmentName hname hlen hdigits)
  have hstrip : stripSuffix (bytes (segmentName (Decimal.value stem))) (bytes ("." ++ nameExt)) =
      some stem := by
    rw [stripSuffix_eq_some, ← hname, eq_segmentName hname hlen hdigits]
    rfl
  have hne : stem ≠ [] := by
    intro h
    rw [h] at hlen
    cases hlen
  have hall : stem.all Decimal.isAsciiDigit = true := List.all_eq_true.mpr hdigits
  simp only [parseSegmentName, hstr, hstrip, Option.bind_eq_bind, Option.bind_some, hlen, hall]
  simpa using parseU64_eq hne hdigits

end FileName

/-- A name is taken for a segment exactly when it is the name of one. -/
theorem parseSegmentName_eq_some {name : ByteArray} {index : Nat} :
    parseSegmentName name = some index ↔
      index < 2 ^ 64 ∧ name = (segmentName index).toByteArray := by
  constructor
  · intro h
    have hparse := h
    simp only [parseSegmentName, Option.bind_eq_bind, Option.bind_eq_some_iff] at h
    obtain ⟨s, hs, stem, hstem, h⟩ := h
    rw [fromUTF8_eq_some] at hs
    rw [stripSuffix_eq_some] at hstem
    split at h
    · cases h
    · rename_i hshape
      simp only [not_or, Decidable.not_not, List.all_eq_true] at hshape
      have hname : name.data.toList = stem ++ bytes ("." ++ nameExt) := by rw [hs, ← hstem, bytes]
      rw [parseSegmentName_stem hname hshape.1 hshape.2] at hparse
      split at hparse
      · rename_i hlt
        cases hparse
        exact ⟨hlt, eq_segmentName hname hshape.1 hshape.2⟩
      · cases hparse
  · rintro ⟨hlt, rfl⟩
    have hwidth : index < 10 ^ nameDigits := Nat.lt_trans hlt (by decide)
    have hvalue := Decimal.value_padded nameDigits index
    rw [parseSegmentName_stem (bytes_segmentName index)
      (Decimal.length_padded (by decide) hwidth) (Decimal.isAsciiDigit_padded _ _), hvalue,
      if_pos hlt]

theorem length_segmentName {index : Nat} (h : index < 2 ^ 64) :
    (bytes (segmentName index)).length = 24 := by
  have hwidth : index < 10 ^ nameDigits := Nat.lt_trans h (by decide)
  rw [bytes_segmentName, List.length_append, Decimal.length_padded (by decide) hwidth]
  rfl

/-- Names of another length are other files. -/
theorem parseSegmentName_of_length {s : String} (h : (bytes s).length ≠ 24) :
    parseSegmentName s.toByteArray = none := by
  rw [Option.eq_none_iff_forall_ne_some]
  intro index hindex
  obtain ⟨hlt, hname⟩ := parseSegmentName_eq_some.mp hindex
  rw [String.toByteArray_inj.mp hname] at h
  exact h (length_segmentName hlt)

theorem parseSegmentName_headFile : parseSegmentName headFileName.toByteArray = none :=
  parseSegmentName_of_length (by decide)

theorem parseSegmentName_headTmpFile : parseSegmentName headTmpFileName.toByteArray = none :=
  parseSegmentName_of_length (by decide)

/-- Indices and names of segments determine each other, over all of `u64` and all file
names.  A stem of twenty digits that does not fit a `u64` is no segment, and neither are
the head marker and its temporary file. -/
theorem segment_names_bijective :
    (∀ index < 2 ^ 64, ∀ name : ByteArray,
      parseSegmentName name = some index ↔ name = (segmentName index).toByteArray) ∧
    (∀ name index, parseSegmentName name = some index → index < 2 ^ 64) ∧
    (∀ name name' index, parseSegmentName name = some index →
      parseSegmentName name' = some index → name = name') ∧
    (∀ (name : ByteArray) (stem : List UInt8), name.data.toList = stem ++ bytes ".wal" →
      stem.length = 20 → (∀ b ∈ stem, Decimal.isAsciiDigit b) → 2 ^ 64 ≤ Decimal.value stem →
      parseSegmentName name = none) ∧
    parseSegmentName headFileName.toByteArray = none ∧
    parseSegmentName headTmpFileName.toByteArray = none := by
  refine ⟨?_, ?_, ?_, ?_, parseSegmentName_headFile, parseSegmentName_headTmpFile⟩
  · intro index hindex name
    rw [parseSegmentName_eq_some]
    exact and_iff_right hindex
  · intro name index h
    exact (parseSegmentName_eq_some.mp h).1
  · intro name name' index h h'
    rw [(parseSegmentName_eq_some.mp h).2, (parseSegmentName_eq_some.mp h').2]
  · intro name stem hname hlen hdigits hlarge
    rw [parseSegmentName_stem hname hlen hdigits, if_neg (Nat.not_lt.mpr hlarge)]

/-- Segment 42 round-trips, and the twenty digits of `2 ^ 64` are no segment. -/
theorem segment_names_bijective_at_bound :
    parseSegmentName (segmentName 42).toByteArray = some 42 ∧
    parseSegmentName "18446744073709551615.wal".toByteArray = some (2 ^ 64 - 1) ∧
    parseSegmentName "18446744073709551616.wal".toByteArray = none := by
  obtain ⟨hiff, -, -, hlarge, -⟩ := segment_names_bijective
  refine ⟨(hiff 42 (by decide) _).mpr rfl, (hiff _ (by decide) _).mpr (by decide), ?_⟩
  exact hlarge _ (bytes "18446744073709551616") (by decide) (by decide) (by decide +kernel)
    (by decide)

/-! ## The directory by name -/

/-- A directory as the file system has it. -/
structure Folder where
  files : AList fun _ : ByteArray => File
  faults : List Bool

namespace Folder

theorem exact_names :
    Relabel.Exact (· < 2 ^ 64) (fun index => (segmentName index).toByteArray) parseSegmentName where
  parse_iff := fun _ _ => parseSegmentName_eq_some

/-- What the store sees of it. -/
def dir (f : Folder) : Dir where
  segments := Relabel.view exact_names f.files
  headFile := (f.files.lookup headFileName.toByteArray).map File.written
  headTmpFile := (f.files.lookup headTmpFileName.toByteArray).map File.written
  faults := f.faults

/-- Open a file with `create` and without `truncate`. -/
def create (f : Folder) (name : ByteArray) : Folder :=
  match f.files.lookup name with
  | some _ => f
  | none => { f with files := f.files.insert name File.empty }

def modify (f : Folder) (name : ByteArray) (g : File → File) : Folder :=
  match f.files.lookup name with
  | some file => { f with files := f.files.insert name (g file) }
  | none => f

/-- `fs::remove_file`. -/
def removeFile (f : Folder) (name : ByteArray) : Folder := { f with files := f.files.erase name }

/-- Write a file from its start, replacing it. -/
def write (f : Folder) (name : ByteArray) (file : File) : Folder :=
  { f with files := f.files.insert name file }

/-- `fs::rename`. -/
def rename (f : Folder) (source target : ByteArray) : Folder :=
  match f.files.lookup source with
  | some file => { f with files := (f.files.erase source).insert target file }
  | none => f

theorem segmentName_ne {index : Nat} (h : index < 2 ^ 64) {s : String}
    (hs : parseSegmentName s.toByteArray = none) :
    s.toByteArray ≠ (segmentName index).toByteArray := by
  intro heq
  rw [heq, parseSegmentName_eq_some.mpr ⟨h, rfl⟩] at hs
  cases hs

/-- Replacing the file of a segment replaces that segment and nothing else. -/
theorem dir_insert (f : Folder) {index : Nat} (h : index < 2 ^ 64) (file : File) :
    dir { f with files := f.files.insert (segmentName index).toByteArray file } =
      { f.dir with segments := f.dir.segments.insert index file } := by
  simp only [dir, Relabel.view_insert exact_names f.files h,
    AList.lookup_insert_ne (segmentName_ne h parseSegmentName_headFile),
    AList.lookup_insert_ne (segmentName_ne h parseSegmentName_headTmpFile)]

theorem lookup_dir (f : Folder) {index : Nat} (h : index < 2 ^ 64) :
    f.dir.segments.lookup index = f.files.lookup (segmentName index).toByteArray :=
  Relabel.lookup_view exact_names f.files h

theorem dir_create (f : Folder) {index : Nat} (h : index < 2 ^ 64) :
    (f.create (segmentName index).toByteArray).dir = f.dir.createSegment index := by
  unfold create Dir.createSegment
  rw [lookup_dir f h]
  cases f.files.lookup (segmentName index).toByteArray with
  | some _ => rfl
  | none => exact dir_insert f h File.empty

theorem dir_modify (f : Folder) {index : Nat} (h : index < 2 ^ 64) (g : File → File) :
    (f.modify (segmentName index).toByteArray g).dir = f.dir.modifySegment index g := by
  unfold modify Dir.modifySegment
  rw [lookup_dir f h]
  cases f.files.lookup (segmentName index).toByteArray with
  | some file => exact dir_insert f h (g file)
  | none => rfl

theorem dir_removeFile (f : Folder) {index : Nat} (h : index < 2 ^ 64) :
    (f.removeFile (segmentName index).toByteArray).dir =
      { f.dir with segments := f.dir.segments.erase index } := by
  simp only [dir, removeFile, Relabel.view_erase exact_names f.files h,
    AList.lookup_erase_ne (segmentName_ne h parseSegmentName_headFile),
    AList.lookup_erase_ne (segmentName_ne h parseSegmentName_headTmpFile)]

/-- The two files of the marker are never in the way of a segment. -/
theorem dir_writeTmp (f : Folder) (file : File) :
    (f.write headTmpFileName.toByteArray file).dir =
      { f.dir with headTmpFile := some file.written } := by
  have hne : headFileName.toByteArray ≠ headTmpFileName.toByteArray := by decide
  simp only [dir, write, Relabel.view_insert_of_none exact_names f.files
    parseSegmentName_headTmpFile, AList.lookup_insert, AList.lookup_insert_ne hne,
    Option.map_some]

theorem dir_renameTmp (f : Folder) (h : f.dir.headTmpFile.isSome) :
    (f.rename headTmpFileName.toByteArray headFileName.toByteArray).dir =
      { f.dir with headFile := f.dir.headTmpFile, headTmpFile := none } := by
  have hne : headTmpFileName.toByteArray ≠ headFileName.toByteArray := by decide
  simp only [dir, Option.isSome_map, Option.isSome_iff_exists] at h
  obtain ⟨file, hfile⟩ := h
  simp only [dir, rename, hfile, Relabel.view_insert_of_none exact_names _
    parseSegmentName_headFile, Relabel.view_erase_of_none exact_names _
    parseSegmentName_headTmpFile, AList.lookup_insert, AList.lookup_insert_ne hne,
    AList.lookup_erase, Option.map_some, Option.map_none]

end Folder

end WalDb
