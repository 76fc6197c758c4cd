import Mathlib.Data.Nat.ModEq

/-! The zip archive that the hosted editor offers a design as, and what reads one by the format: the record at its end
leads to the directory, and each entry of that to a file's own header and bytes. -/
namespace SynQt.Zip
open List

abbrev Bytes := List UInt8

/-- A number in so many bytes, the least first, as a `DataView` sets it. -/
def number : Nat → Nat → Bytes
  | 0, _ => []
  | width + 1, value => value.toUInt8 :: number width (value / 256)

/-- The fields of a record, each with its width. -/
def record (fields : List (Nat × Nat)) : Bytes := fields.flatMap fun field => number field.1 field.2

def crcEntry (byte : UInt32) : UInt32 :=
  (List.range 8).foldl (fun value _ => if value &&& 1 = 1 then (0xedb88320 : UInt32) ^^^ (value >>> 1) else value >>> 1) byte

def crc32 (bytes : Bytes) : UInt32 :=
  bytes.foldl (fun value byte => crcEntry ((value ^^^ byte.toUInt32) &&& 0xff) ^^^ (value >>> 8)) 0xffffffff ^^^ 0xffffffff

def encode (text : String) : Bytes := text.toUTF8.data.toList

structure Entry where
  name : Bytes
  data : Bytes

def Entry.sum (e : Entry) : Nat := (crc32 e.data).toNat

def localHeader (e : Entry) : Bytes :=
  record [(4, 0x04034b50), (2, 20), (2, 0x0800), (2, 0), (2, 0), (2, 0x21), (4, e.sum), (4, e.data.length),
    (4, e.data.length), (2, e.name.length), (2, 0)]

def centralHeader (e : Entry) (offset : Nat) : Bytes :=
  record [(4, 0x02014b50), (2, 20), (2, 20), (2, 0x0800), (2, 0), (2, 0), (2, 0x21), (4, e.sum), (4, e.data.length),
    (4, e.data.length), (2, e.name.length), (2, 0), (2, 0), (2, 0), (2, 0), (4, 0), (4, offset)]

def body (entries : List Entry) : Bytes := entries.flatMap fun e => localHeader e ++ e.name ++ e.data

/-- The catalogue of entries whose bytes begin at the offset. -/
def catalogue : Nat → List Entry → Bytes
  | _, [] => []
  | offset, e :: entries =>
    centralHeader e offset ++ e.name ++
      catalogue (offset + ((localHeader e).length + e.name.length + e.data.length)) entries

def endRecord (entries : List Entry) : Bytes :=
  record [(4, 0x06054b50), (2, 0), (2, 0), (2, entries.length), (2, entries.length), (4, (catalogue 0 entries).length),
    (4, (body entries).length), (2, 0)]

def archive (entries : List Entry) : Bytes := body entries ++ catalogue 0 entries ++ endRecord entries

def zipBytes (files : List (String × String)) : Bytes :=
  archive (files.map fun file => ⟨encode file.1, encode file.2⟩)

def readNumber : Nat → Bytes → Option (Nat × Bytes)
  | 0, bytes => some (0, bytes)
  | _ + 1, [] => none
  | width + 1, byte :: bytes => (readNumber width bytes).map fun read => (byte.toNat + 256 * read.1, read.2)

def readRecord : List Nat → Bytes → Option (List Nat × Bytes)
  | [], bytes => some ([], bytes)
  | width :: widths, bytes =>
    (readNumber width bytes).bind fun read => (readRecord widths read.2).map fun rest => (read.1 :: rest.1, rest.2)

/-- The file at an entry of the directory, and what stands behind the entry. -/
def readEntry (whole bytes : Bytes) : Option (Entry × Bytes) :=
  (readRecord [4, 2, 2, 2, 2, 2, 2, 4, 4, 4, 2, 2, 2, 2, 2, 4, 4] bytes).bind fun (central, bytes) =>
    (readRecord [4, 2, 2, 2, 2, 2, 4, 4, 4, 2, 2] (whole.drop (central.getD 16 0))).bind fun (own, held) =>
      let e : Entry := ⟨bytes.take (central.getD 10 0), (held.drop (own.getD 9 0 + own.getD 10 0)).take (central.getD 8 0)⟩
      if central.getD 0 0 = 0x02014b50 ∧ central.getD 4 0 = 0 ∧ own.getD 0 0 = 0x04034b50 ∧ e.sum = central.getD 7 0 then
        some (e, bytes.drop (central.getD 10 0 + central.getD 11 0 + central.getD 12 0))
      else none

def readEntries (whole : Bytes) : Nat → Bytes → Option (List Entry)
  | 0, _ => some []
  | count + 1, bytes =>
    (readEntry whole bytes).bind fun read => (readEntries whole count read.2).map (read.1 :: ·)

def unzip (whole : Bytes) : Option (List Entry) :=
  (readRecord [4, 2, 2, 2, 2, 4, 4, 2] (whole.drop (whole.length - 22))).bind fun (last, _) =>
    if last.getD 0 0 = 0x06054b50 then readEntries whole (last.getD 4 0) (whole.drop (last.getD 6 0)) else none

private theorem length_number (width value : Nat) : (number width value).length = width := by
  induction width generalizing value with
  | zero => rfl
  | succ width ih => rw [number, length_cons, ih]

private theorem readNumber_number (width value : Nat) (rest : Bytes) :
    readNumber width (number width value ++ rest) = some (value % 256 ^ width, rest) := by
  induction width generalizing value with
  | zero => simp [number, readNumber, Nat.mod_one]
  | succ width ih =>
    rw [number, cons_append, readNumber, ih, Option.map_some, Nat.pow_succ', Nat.mod_mul]
    simp

private theorem readRecord_record (fields : List (Nat × Nat)) (rest : Bytes) :
    readRecord (fields.map Prod.fst) (record fields ++ rest) =
      some (fields.map fun field => field.2 % 256 ^ field.1, rest) := by
  induction fields with
  | nil => rfl
  | cons field fields ih =>
    rw [record, flatMap_cons, ← record, append_assoc, map_cons, readRecord, readNumber_number]
    simp [ih]

private theorem length_record (fields : List (Nat × Nat)) : (record fields).length = (fields.map Prod.fst).sum := by
  simp [record, length_flatMap, length_number]

private theorem Entry.sum_lt (e : Entry) : e.sum < 256 ^ 4 := (crc32 e.data).toNat_lt

/-- An entry is read back where its file stands at its offset. -/
theorem readEntry_central {whole before after rest : Bytes} {e : Entry}
    (hwhole : whole = before ++ (localHeader e ++ e.name ++ e.data) ++ after) (hlength : whole.length < 256 ^ 4)
    (hname : e.name.length < 256 ^ 2) :
    readEntry whole (centralHeader e before.length ++ e.name ++ rest) = some (e, rest) := by
  have hsum := e.sum_lt
  have hin : before.length < 256 ^ 4 ∧ e.data.length < 256 ^ 4 := by
    rw [hwhole] at hlength
    simp only [length_append] at hlength
    omega
  have hcentral := readRecord_record [(4, 0x02014b50), (2, 20), (2, 20), (2, 0x0800), (2, 0), (2, 0), (2, 0x21), (4, e.sum),
    (4, e.data.length), (4, e.data.length), (2, e.name.length), (2, 0), (2, 0), (2, 0), (2, 0), (4, 0), (4, before.length)]
    (e.name ++ rest)
  have hown := readRecord_record [(4, 0x04034b50), (2, 20), (2, 0x0800), (2, 0), (2, 0), (2, 0x21), (4, e.sum),
    (4, e.data.length), (4, e.data.length), (2, e.name.length), (2, 0)] (e.name ++ (e.data ++ after))
  have hdrop : whole.drop before.length = localHeader e ++ (e.name ++ (e.data ++ after)) := by simp [hwhole]
  simp only [map_cons, map_nil, Nat.mod_eq_of_lt hsum, Nat.mod_eq_of_lt hin.1, Nat.mod_eq_of_lt hin.2,
    Nat.mod_eq_of_lt hname] at hcentral hown
  rw [readEntry, append_assoc, centralHeader, hcentral]
  simp [hdrop, localHeader, hown]

private theorem readEntries_catalogue {whole : Bytes} (hlength : whole.length < 256 ^ 4) {entries : List Entry}
    (hnames : ∀ e ∈ entries, e.name.length < 256 ^ 2) {before after rest : Bytes}
    (hwhole : whole = before ++ body entries ++ after) :
    readEntries whole entries.length (catalogue before.length entries ++ rest) = some entries := by
  induction entries generalizing before with
  | nil => rfl
  | cons e entries ih =>
    rw [body, flatMap_cons, ← body] at hwhole
    have hown : whole = before ++ (localHeader e ++ e.name ++ e.data) ++ (body entries ++ after) := by simp [hwhole]
    have hothers : whole = (before ++ (localHeader e ++ e.name ++ e.data)) ++ body entries ++ after := by simp [hwhole]
    rw [length_cons, readEntries, catalogue, append_assoc,
      readEntry_central hown hlength (hnames e mem_cons_self)]
    have hrest := ih (fun e he => hnames e (mem_cons_of_mem _ he)) hothers
    have hnext : (before ++ (localHeader e ++ e.name ++ e.data)).length =
        before.length + ((localHeader e).length + e.name.length + e.data.length) := by simp; omega
    rw [hnext] at hrest
    rw [Option.bind_some, hrest, Option.map_some]

/-- What is offered for download is read back as the files, for names and an archive that the format has room for. -/
theorem unzip_zipBytes (files : List (String × String)) (hcount : files.length < 256 ^ 2)
    (hnames : ∀ file ∈ files, (encode file.1).length < 256 ^ 2) (hlength : (zipBytes files).length < 256 ^ 4) :
    unzip (zipBytes files) = some (files.map fun file => ⟨encode file.1, encode file.2⟩) := by
  rw [zipBytes] at hlength ⊢
  generalize hentries : (files.map fun file => (⟨encode file.1, encode file.2⟩ : Entry)) = entries at hlength ⊢
  have hshort : entries.length < 256 ^ 2 := by rwa [← hentries, length_map]
  have hfit : ∀ e ∈ entries, e.name.length < 256 ^ 2 := by
    rw [← hentries, forall_mem_map]
    exact hnames
  have hbody : (body entries).length < 256 ^ 4 := by
    simp only [archive, length_append] at hlength
    omega
  have hend : (archive entries).drop ((archive entries).length - 22) = endRecord entries := by
    rw [archive, length_append, endRecord, length_record]
    exact drop_left' rfl
  have hlast := readRecord_record [(4, 0x06054b50), (2, 0), (2, 0), (2, entries.length), (2, entries.length),
    (4, (catalogue 0 entries).length), (4, (body entries).length), (2, 0)] []
  simp only [map_cons, map_nil, Nat.mod_eq_of_lt hshort, Nat.mod_eq_of_lt hbody, append_nil] at hlast
  have hwhole : archive entries = [] ++ body entries ++ (catalogue 0 entries ++ endRecord entries) := by simp [archive]
  have hread : readEntries (archive entries) entries.length (catalogue 0 entries ++ endRecord entries) = some entries :=
    readEntries_catalogue hlength hfit hwhole
  have hdirectory : (archive entries).drop (body entries).length = catalogue 0 entries ++ endRecord entries := by
    simp [archive]
  rw [unzip, hend, endRecord, hlast]
  simpa [hdirectory] using hread

theorem unzip_zipBytes_pair : unzip (zipBytes [("synqt.yaml", "entities:"), ("a.syn", "")]) =
    some [⟨encode "synqt.yaml", encode "entities:"⟩, ⟨encode "a.syn", encode ""⟩] :=
  unzip_zipBytes [("synqt.yaml", "entities:"), ("a.syn", "")] (by decide) (by decide +kernel) (by decide +kernel)

end SynQt.Zip
