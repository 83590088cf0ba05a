import X64Asm.Bytes

/-! # Reading ELF files

A reader of 64-bit little-endian ELF files.  Of the format it knows the numbers and the places of the
fields; where sections, names and symbols are, it finds in the file.

* `Elf.read?` follows the file header to the table of section headers, and these to the sections'
  names and contents.
* `Elf.File.symbols?` takes apart the section of symbols, whose names stand in the section that it
  links to.

Reading fails where the file is too short, a name is not ended or an index leads nowhere.

What was laid out at a place is found there: `slice?_append` for contents, `field_littleEndian_append`
and `field_append` for numbers, `table?_append` for records in a row, `textAt?_append` for names. -/

namespace X64Asm.Elf

/-! ### Parts of a file -/

/-- The bytes of a stretch of the file, if the file reaches that far. -/
def slice? (file : Bytes) (offset size : Nat) : Option Bytes :=
  if offset + size ≤ file.length then some ((file.drop offset).take size) else none

/-- The number in the given bytes of a record. -/
def field (record : Bytes) (offset width : Nat) : Nat :=
  Bytes.toNat ((record.drop offset).take width)

/-- So many records of one size, the first of which stands at `offset`. -/
def table? (file : Bytes) (offset size : Nat) : (count : Nat) → Option (List Bytes)
  | 0 => some []
  | count + 1 => do
    let record ← slice? file offset size
    let records ← table? file (offset + size) size count
    return record :: records

/-- The text from a place in a string table up to the zero byte that ends it. -/
def textAt? (strings : Bytes) (offset : Nat) : Option String :=
  if 0 ∈ strings.drop offset then
    String.fromUTF8? ((strings.drop offset).takeWhile (· ≠ 0)).toByteArray
  else none

/-! ### Sections -/

/-- What is said about a section. -/
structure SectionHeader where
  name : Nat := 0
  type : Nat := 0
  flags : Nat := 0
  address : Nat := 0
  offset : Nat := 0
  size : Nat := 0
  link : Nat := 0
  info : Nat := 0
  align : Nat := 0
  entrySize : Nat := 0
  deriving DecidableEq, Repr

/-- The number of bytes of a section header. -/
def SectionHeader.bytes : Nat := 64

def SectionHeader.ofRecord (record : Bytes) : SectionHeader where
  name := field record 0 4
  type := field record 4 4
  flags := field record 8 8
  address := field record 16 8
  offset := field record 24 8
  size := field record 32 8
  link := field record 40 4
  info := field record 44 4
  align := field record 48 8
  entrySize := field record 56 8

/-- A section with its name and its contents. -/
structure Section where
  header : SectionHeader := {}
  name : String := ""
  contents : Bytes := []
  deriving DecidableEq, Repr

/-- The section of a header, whose name is looked up among `names`. -/
def Section.read? (file names : Bytes) (header : SectionHeader) : Option Section := do
  let name ← textAt? names header.name
  let contents ← slice? file header.offset header.size
  return { header, name, contents }

/-- A file that has been read: where its section headers are, its sections, and which of them holds
their names. -/
structure File where
  tableOffset : Nat
  nameIndex : Nat
  sections : List Section
  deriving DecidableEq, Repr

/-- The offset at which the section headers end. -/
def File.tableEnd (f : File) : Nat := f.tableOffset + f.sections.length * SectionHeader.bytes

/-- How a file begins whose numbers are of 64 bits and little-endian. -/
def magic : Bytes := [0x7F, 0x45, 0x4C, 0x46, 2, 1]

/-- The sections that the headers in the given table speak of; one of them holds their names. -/
def sections? (file : Bytes) (tableOffset count nameIndex : Nat) : Option (List Section) := do
  let records ← table? file tableOffset SectionHeader.bytes count
  let names ← (records.map SectionHeader.ofRecord)[nameIndex]?
  let names ← slice? file names.offset names.size
  (records.map SectionHeader.ofRecord).mapM (Section.read? file names)

def read? (file : Bytes) : Option File := do
  let header ← slice? file 0 64
  if header.take 6 = magic ∧ field header 58 2 = SectionHeader.bytes then
    let sections ← sections? file (field header 40 8) (field header 60 2) (field header 62 2)
    return { tableOffset := field header 40 8, nameIndex := field header 62 2, sections }
  else none

/-! ### Symbols -/

/-- A symbol with its name. -/
structure SymbolEntry where
  name : String := ""
  binding : Nat := 0
  type : Nat := 0
  visibility : Nat := 0
  sectionIndex : Nat := 0
  value : Nat := 0
  size : Nat := 0
  deriving DecidableEq, Repr

/-- The number of bytes of a symbol. -/
def SymbolEntry.bytes : Nat := 24

/-- Whether a symbol is seen in its own file only. -/
def SymbolEntry.isLocal (s : SymbolEntry) : Bool := s.binding = 0

/-- The symbol of a record, whose name is looked up among `names`. -/
def SymbolEntry.read? (names record : Bytes) : Option SymbolEntry := do
  let name ← textAt? names (field record 0 4)
  return {
    name
    binding := field record 4 1 / 16
    type := field record 4 1 % 16
    visibility := field record 5 1
    sectionIndex := field record 6 2
    value := field record 8 8
    size := field record 16 8 }

/-- The section of symbols. -/
def File.symbolSection? (f : File) : Option Section := f.sections.find? (·.header.type = 2)

/-- The symbols of a file. -/
def File.symbols? (f : File) : Option (List SymbolEntry) := do
  let table ← f.symbolSection?
  let names ← f.sections[table.header.link]?
  if table.header.entrySize = SymbolEntry.bytes ∧ SymbolEntry.bytes ∣ table.contents.length then
    let records ← table? table.contents 0 SymbolEntry.bytes
      (table.contents.length / SymbolEntry.bytes)
    records.mapM (SymbolEntry.read? names.contents)
  else none

/-! ### Finding what was laid out -/

variable {before after : Bytes}

theorem slice?_append (before contents after : Bytes) :
    slice? (before ++ contents ++ after) before.length contents.length = some contents := by
  unfold slice?
  rw [if_pos (by simp), List.append_assoc, List.drop_left, List.take_left]

theorem field_append {offset : Nat} (h : before.length ≤ offset) (width : Nat) :
    field (before ++ after) offset width = field after (offset - before.length) width := by
  unfold field
  rw [List.drop_append, List.drop_eq_nil_of_le h, List.nil_append]

/-- A number that fits its field is read as it was laid out. -/
theorem field_littleEndian_append {width value : Nat} (h : value < wordCount (8 * width))
    (after : Bytes) : field (Bytes.littleEndian width value ++ after) 0 width = value := by
  unfold field
  rw [List.drop_zero, List.take_left' (Bytes.length_littleEndian width value),
    Bytes.toNat_littleEndian, Nat.mod_eq_of_lt h]

theorem field_littleEndian {width value : Nat} (h : value < wordCount (8 * width)) :
    field (Bytes.littleEndian width value) 0 width = value := by
  rw [← List.append_nil (Bytes.littleEndian width value), field_littleEndian_append h]

theorem field_byte (byte : UInt8) (after : Bytes) : field (byte :: after) 0 1 = byte.toNat := rfl

theorem field_cons (byte : UInt8) (after : Bytes) (offset width : Nat) :
    field (byte :: after) (offset + 1) width = field after offset width := rfl

/-- Records in a row are read one by one. -/
theorem table?_append {size : Nat} {records : List Bytes} (h : ∀ r ∈ records, r.length = size)
    (before after : Bytes) :
    table? (before ++ records.flatten ++ after) before.length size records.length =
      some records := by
  induction records generalizing before with
  | nil => rfl
  | cons record records ih =>
      obtain ⟨hrecord, hrecords⟩ := List.forall_mem_cons.mp h
      have hfirst := slice?_append before record (records.flatten ++ after)
      have hothers := ih hrecords (before ++ record)
      rw [hrecord] at hfirst
      rw [List.length_append, hrecord] at hothers
      rw [List.length_cons, table?, List.flatten_cons]
      simp only [List.append_assoc] at hfirst hothers ⊢
      rw [hfirst, hothers]
      rfl

/-- A text is decoded as it was encoded. -/
theorem fromUTF8?_ofString (text : String) :
    String.fromUTF8? (Bytes.ofString text).toByteArray = some text := by
  have hbytes : (Bytes.ofString text).toByteArray = text.toByteArray := String.utf8Encode_toList
  rw [hbytes, String.fromUTF8?, dif_pos text.isValidUTF8]
  rfl

/-- A text without a zero byte ends where a zero byte was put after it. -/
theorem textAt?_append {text : String} (h : 0 ∉ Bytes.ofString text) (before after : Bytes) :
    textAt? (before ++ Bytes.ofString text ++ 0 :: after) before.length = some text := by
  have hnonzero : ∀ b ∈ Bytes.ofString text, (fun b : UInt8 => decide (b ≠ 0)) b = true := by
    rintro b hb
    rw [decide_eq_true_eq]
    rintro rfl
    exact h hb
  unfold textAt?
  rw [List.append_assoc, List.drop_left, if_pos (by simp), List.takeWhile_append_of_pos hnonzero,
    List.takeWhile_cons_of_neg (by simp), List.append_nil, fromUTF8?_ofString]

end X64Asm.Elf
