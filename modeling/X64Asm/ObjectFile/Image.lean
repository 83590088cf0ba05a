import X64Asm.ObjectFile.Basic

/-! # The image of an object file

The bytes of a relocatable ELF file for x86-64.

* The file header and the section headers come first, the contents of the sections after them in
  the same order, each moved up to its alignment with zeros in front.
* There are five sections: the empty one, the code, the names of the sections, the symbols, the
  names of the symbols.
* Names stand in a string table, each ended by a zero byte, and are referred to by their offset.  The
  empty name is at offset zero. -/

namespace X64Asm

/-! ### String tables -/

namespace StringTable

/-- The bytes of a name in a table; the empty name takes none. -/
def nameBytes (name : String) : Bytes :=
  if name.isEmpty then [] else Bytes.ofString name ++ [0]

/-- The table of the names, in order. -/
def bytes (names : List String) : Bytes := 0 :: names.flatMap nameBytes

/-- The offsets of the names, the first of which would stand at `start`. -/
def offsetsFrom (start : Nat) : List String → List Nat
  | [] => []
  | name :: names =>
    (if name.isEmpty then 0 else start) :: offsetsFrom (start + (nameBytes name).length) names

/-- The offsets of the names in their table. -/
def offsets (names : List String) : List Nat := offsetsFrom 1 names

end StringTable

/-! ### Symbol records -/

/-- One record of the symbol section. -/
structure SymbolRecord where
  name : Nat := 0
  type : Nat := 0
  binding : Binding := .localScope
  sectionIndex : Nat := 0
  value : Nat := 0
  deriving DecidableEq, Repr

namespace SymbolRecord

/-- The number of bytes of a record. -/
def size : Nat := 24

/-- The bytes of a record. -/
def bytes (r : SymbolRecord) : Bytes :=
  Bytes.littleEndian 4 r.name ++ [UInt8.ofNat (16 * r.binding.code + r.type), 0] ++
    Bytes.littleEndian 2 r.sectionIndex ++ Bytes.littleEndian 8 r.value ++ Bytes.littleEndian 8 0

@[simp] theorem length_bytes (r : SymbolRecord) : r.bytes.length = size := by
  simp [bytes, size]

/-- The record of a symbol whose name stands at the given offset. -/
def ofSymbol (symbol : ObjectSymbol) (name : Nat) : SymbolRecord :=
  { name
    binding := symbol.binding
    sectionIndex := if symbol.definedAt.isSome then 1 else 0
    value := symbol.definedAt.getD 0 }

/-- The record of the code section itself. -/
def ofCodeSection : SymbolRecord := { type := 3, sectionIndex := 1 }

end SymbolRecord

/-! ### Sections -/

/-- One section with its contents. -/
structure ObjectSection where
  name : String
  type : Nat
  flags : Nat := 0
  contents : Bytes
  link : Nat := 0
  info : Nat := 0
  align : Nat := 1
  entrySize : Nat := 0
  deriving DecidableEq, Repr

/-- The least multiple of `align` that is not below `n`. -/
def alignUp (n align : Nat) : Nat := (n + align - 1) / align * align

namespace ObjectSection

/-- The number of bytes of a section header. -/
def headerSize : Nat := 64

/-- The bytes of a section header. -/
def header (s : ObjectSection) (name offset : Nat) : Bytes :=
  Bytes.littleEndian 4 name ++ Bytes.littleEndian 4 s.type ++ Bytes.littleEndian 8 s.flags ++
    Bytes.littleEndian 8 0 ++ Bytes.littleEndian 8 offset ++
    Bytes.littleEndian 8 s.contents.length ++ Bytes.littleEndian 4 s.link ++
    Bytes.littleEndian 4 s.info ++ Bytes.littleEndian 8 s.align ++
    Bytes.littleEndian 8 s.entrySize

@[simp] theorem length_header (s : ObjectSection) (name offset : Nat) :
    (s.header name offset).length = headerSize := by
  simp [header, headerSize]

/-- The offsets of the sections' contents, which begin at `start` or after. -/
def offsetsFrom (start : Nat) : List ObjectSection → List Nat
  | [] => []
  | s :: ss =>
    alignUp start s.align :: offsetsFrom (alignUp start s.align + s.contents.length) ss

/-- The contents of the sections from offset `start` on. -/
def bodiesFrom (start : Nat) : List ObjectSection → Bytes
  | [] => []
  | s :: ss =>
    List.replicate (alignUp start s.align - start) 0 ++ s.contents ++
      bodiesFrom (alignUp start s.align + s.contents.length) ss

end ObjectSection

/-! ### The file -/

namespace ObjectFile

/-- The number of bytes of the file header. -/
def headerSize : Nat := 64

/-- The index of the section that holds the section names. -/
def nameSectionIndex : Nat := 2

/-- The index of the section that holds the symbol names. -/
def symbolNameSectionIndex : Nat := 4

/-- The file header, for the given number of section headers. -/
def header (sections : Nat) : Bytes :=
  [0x7F, 0x45, 0x4C, 0x46, 2, 1, 1, 0, 0, 0, 0, 0, 0, 0, 0, 0] ++
    Bytes.littleEndian 2 1 ++ Bytes.littleEndian 2 0x3E ++ Bytes.littleEndian 4 1 ++
    Bytes.littleEndian 8 0 ++ Bytes.littleEndian 8 0 ++ Bytes.littleEndian 8 headerSize ++
    Bytes.littleEndian 4 0 ++ Bytes.littleEndian 2 headerSize ++ Bytes.littleEndian 2 56 ++
    Bytes.littleEndian 2 0 ++ Bytes.littleEndian 2 ObjectSection.headerSize ++
    Bytes.littleEndian 2 sections ++ Bytes.littleEndian 2 nameSectionIndex

@[simp] theorem length_header (sections : Nat) : (header sections).length = headerSize := by
  simp [header, headerSize]

/-- The names of the symbols. -/
def symbolNames (o : ObjectFile) : List String := o.symbols.map (·.name)

/-- The symbol records: the empty one, that of the code section, then those of the symbols. -/
def records (o : ObjectFile) : List SymbolRecord :=
  {} :: .ofCodeSection ::
    List.zipWith .ofSymbol o.symbols (StringTable.offsets o.symbolNames)

/-- The names of the sections after the empty one. -/
def sectionNames : List String := [".text", ".shstrtab", ".symtab", ".strtab"]

/-- The sections after the empty one.  The symbol section says where the records that can be seen
from outside begin. -/
def sections (o : ObjectFile) : List ObjectSection := [
  { name := ".text", type := 1, flags := 6, contents := o.code, align := 16 },
  { name := ".shstrtab", type := 3, flags := 0x20, contents := StringTable.bytes sectionNames },
  { name := ".symtab", type := 2, contents := o.records.flatMap SymbolRecord.bytes,
    link := symbolNameSectionIndex,
    info := o.records.findIdx (·.binding ≠ .localScope),
    align := 8, entrySize := SymbolRecord.size },
  { name := ".strtab", type := 3, flags := 0x20, contents := StringTable.bytes o.symbolNames }]

/-- The offset at which the headers end. -/
def headersEnd (o : ObjectFile) : Nat :=
  headerSize + (o.sections.length + 1) * ObjectSection.headerSize

/-- The section headers.  That of the empty section is all zero. -/
def sectionHeaders (o : ObjectFile) : Bytes :=
  List.replicate ObjectSection.headerSize 0 ++
    (o.sections.zip ((StringTable.offsets sectionNames).zip
      (ObjectSection.offsetsFrom o.headersEnd o.sections))).flatMap
        fun (s, name, offset) => s.header name offset

/-- The bytes of the file. -/
def image (o : ObjectFile) : Bytes :=
  header (o.sections.length + 1) ++ o.sectionHeaders ++
    ObjectSection.bodiesFrom o.headersEnd o.sections

end ObjectFile

end X64Asm
