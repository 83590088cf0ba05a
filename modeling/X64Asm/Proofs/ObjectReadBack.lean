import X64Asm.Proofs.ObjectLayout
import X64Asm.Proofs.SymbolRanks

/-! # Reading an object file back

A reader of ELF files finds in the image of an object file what was put into it: sections that are
well placed and go by their names, the code in one of them, and in another the symbols
(`ObjectFile.objectOf_image`).  Of a symbol table these are the imported and exported ones, in the
order of the table (`objectOf_make`). -/

namespace X64Asm

/-! ### Headers and records -/

namespace ObjectSection

/-- The numbers of a section, its size aside, fit the fields of its header. -/
structure Fits (s : ObjectSection) : Prop where
  type : s.type < wordCount 32
  flags : s.flags < wordCount 64
  link : s.link < wordCount 32
  info : s.info < wordCount 32
  align : s.align < wordCount 64
  entrySize : s.entrySize < wordCount 64

theorem ofRecord_header {s : ObjectSection} {name offset : Nat} (h : s.Fits)
    (hname : name < wordCount 32) (hoffset : offset < wordCount 64)
    (hsize : s.contents.length < wordCount 64) :
    Elf.SectionHeader.ofRecord (s.header name offset) = (s.placed name offset).header := by
  simp only [Elf.SectionHeader.ofRecord, header, placed, List.append_assoc, Elf.field_append,
    Bytes.length_littleEndian, Nat.reduceLeDiff, Nat.reduceSub]
  rw [Elf.field_littleEndian_append hname, Elf.field_littleEndian_append h.type,
    Elf.field_littleEndian_append h.flags, Elf.field_littleEndian_append (by decide),
    Elf.field_littleEndian_append hoffset, Elf.field_littleEndian_append hsize,
    Elf.field_littleEndian_append h.link, Elf.field_littleEndian_append h.info,
    Elf.field_littleEndian_append h.align, Elf.field_littleEndian h.entrySize]

end ObjectSection

namespace SymbolRecord

theorem toNat_info {binding : Binding} {type : Nat} (h : type < 16) :
    (UInt8.ofNat (16 * binding.code + type)).toNat = 16 * binding.code + type := by
  rw [UInt8.toNat_ofNat']
  apply Nat.mod_eq_of_lt
  cases binding <;> simp only [Binding.code] <;> omega

theorem read?_bytes {r : SymbolRecord} {strings : Bytes} {name : String}
    (hname : Elf.textAt? strings r.name = some name) (hoffset : r.name < wordCount 32)
    (htype : r.type < 16) (hindex : r.sectionIndex < wordCount 16)
    (hvalue : r.value < wordCount 64) :
    Elf.SymbolEntry.read? strings r.bytes = some {
      name
      binding := r.binding.code
      type := r.type
      sectionIndex := r.sectionIndex
      value := r.value } := by
  simp only [Elf.SymbolEntry.read?, bytes, List.append_assoc, List.cons_append, List.nil_append,
    Elf.field_append, Elf.field_cons, Elf.field_byte, Bytes.length_littleEndian, Nat.reduceLeDiff,
    Nat.reduceSub]
  rw [Elf.field_littleEndian_append hoffset, Elf.field_littleEndian_append hindex,
    Elf.field_littleEndian_append hvalue, Elf.field_littleEndian (by decide), toNat_info htype,
    hname, Nat.mul_add_div (by decide), Nat.mul_add_mod, Nat.div_eq_of_lt htype, Nat.mod_eq_of_lt htype]
  rfl

end SymbolRecord

/-- The symbol as it is found in a file. -/
def ObjectSymbol.entry (s : ObjectSymbol) : Elf.SymbolEntry where
  name := s.name
  binding := s.binding.code
  sectionIndex := if s.definedAt.isSome then 1 else 0
  value := s.definedAt.getD 0

theorem ObjectSymbol.read?_ofSymbol {s : ObjectSymbol} {strings : Bytes} {name : Nat}
    (hname : Elf.textAt? strings name = some s.name) (hoffset : name < wordCount 32)
    (hvalue : s.definedAt.getD 0 < wordCount 64) :
    Elf.SymbolEntry.read? strings (SymbolRecord.ofSymbol s name).bytes = some s.entry := by
  have hindex : (SymbolRecord.ofSymbol s name).sectionIndex < wordCount 16 := by
    show (if s.definedAt.isSome then 1 else 0) < wordCount 16
    split <;> decide
  exact SymbolRecord.read?_bytes hname hoffset (show 0 < 16 by decide) hindex hvalue

/-! ### Rows of records -/

theorem length_flatten_of_length {size : Nat} {records : List Bytes}
    (h : ∀ r ∈ records, r.length = size) : records.flatten.length = records.length * size := by
  induction records with
  | nil => simp
  | cons record records ih =>
      obtain ⟨hrecord, hrecords⟩ := List.forall_mem_cons.mp h
      rw [List.flatten_cons, List.length_append, hrecord, ih hrecords, List.length_cons,
        Nat.succ_mul, Nat.add_comm]

theorem mapM_map_eq_some {α β : Type} {f : β → Option α} {g : α → β} {l : List α}
    (h : ∀ a ∈ l, f (g a) = some a) : (l.map g).mapM f = some l := by
  induction l with
  | nil => rfl
  | cons a l ih =>
      obtain ⟨ha, hl⟩ := List.forall_mem_cons.mp h
      rw [List.map_cons, List.mapM_cons, ha, ih hl]
      rfl

theorem mapM_zipWith_eq_some {α β γ δ : Type} {f : α → β → γ} {g : γ → Option δ} {k : α → δ}
    {l : List α} {l' : List β} (h : List.Forall₂ (fun a b => g (f a b) = some (k a)) l l') :
    (List.zipWith f l l').mapM g = some (l.map k) := by
  induction h with
  | nil => rfl
  | cons h _ ih =>
      rw [List.zipWith_cons_cons, List.mapM_cons, h, ih]
      rfl

/-! ### The file -/

/-- The image is read as a file that holds the code and, after the empty symbol and that of the code
section, the given global symbols. -/
structure Elf.ObjectOf (code : Bytes) (globals : List SymbolEntry) (image : Bytes) (file : File) :
    Prop where
  read : read? image = some file
  tableOffset : file.tableOffset = 64
  empty : file.sections.head? = some {}
  names : file.sections.tail.map (·.name) = [".text", ".shstrtab", ".symtab", ".strtab"]
  nameSection : (file.sections[file.nameIndex]?).map (·.name) = some ".shstrtab"
  placed : WellPlaced image file.tableEnd file.sections.tail
  text : (file.sections.find? (·.name = ".text")).map (·.contents) = some code
  symbols : ∃ table symbols, file.symbolSection? = some table ∧ file.symbols? = some symbols ∧
    table.name = ".symtab" ∧ (file.sections[table.header.link]?).map (·.name) = some ".strtab" ∧
    symbols = {} :: { type := 3, sectionIndex := 1 } :: globals ∧
    table.header.info = symbols.countP SymbolEntry.isLocal

namespace ObjectFile

variable {o : ObjectFile}

/-- All numbers of the file fit their fields, and its symbols are global ones whose names can be told
from the zero that ends them. -/
structure Fits (o : ObjectFile) : Prop where
  bindings : ∀ s ∈ o.symbols, s.binding = .globalScope
  names : ∀ s ∈ o.symbols, 0 ∉ Bytes.ofString s.name
  strings : (StringTable.bytes o.symbolNames).length < wordCount 32
  values : ∀ s ∈ o.symbols, s.definedAt.getD 0 < wordCount 64
  size : o.image.length < wordCount 64

/-- The sections as they are found in the image. -/
def placedSections (o : ObjectFile) : List Elf.Section :=
  ObjectSection.placedFrom o.headersEnd o.sections (StringTable.offsets sectionNames)

/-- The file as it is found in the image. -/
def found (o : ObjectFile) : Elf.File where
  tableOffset := headerSize
  nameIndex := nameSectionIndex
  sections := {} :: o.placedSections

/-- The records of the section headers. -/
def headerRecords (o : ObjectFile) : List Bytes :=
  List.replicate ObjectSection.headerSize 0 ::
    (o.sections.zip ((StringTable.offsets sectionNames).zip
      (ObjectSection.offsetsFrom o.headersEnd o.sections))).map
        fun (s, name, offset) => s.header name offset

theorem flatten_headerRecords (o : ObjectFile) : o.headerRecords.flatten = o.sectionHeaders := by
  rw [headerRecords, List.flatten_cons, ← List.flatMap_def]
  rfl

theorem length_of_mem_headerRecords (o : ObjectFile) :
    ∀ r ∈ o.headerRecords, r.length = ObjectSection.headerSize := by
  rw [headerRecords, List.forall_mem_cons]
  refine ⟨List.length_replicate, ?_⟩
  intro r hr
  obtain ⟨⟨s, name, offset⟩, _, rfl⟩ := List.mem_map.mp hr
  exact s.length_header name offset

theorem length_headers (o : ObjectFile) :
    (header (o.sections.length + 1) ++ o.sectionHeaders).length = o.headersEnd := by
  rw [List.length_append, length_header, ← flatten_headerRecords,
    length_flatten_of_length o.length_of_mem_headerRecords]
  rfl

theorem align_pos (o : ObjectFile) : ∀ s ∈ o.sections, 0 < s.align := by
  simp [sections]

theorem wellPlaced_placedSections (o : ObjectFile) :
    Elf.WellPlaced o.image o.headersEnd o.placedSections :=
  ObjectSection.wellPlaced_placedFrom o.length_headers rfl o.align_pos

theorem slice?_placedSections (o : ObjectFile) : ∀ s ∈ o.placedSections,
    Elf.slice? o.image s.header.offset s.header.size = some s.contents :=
  ObjectSection.slice?_placedFrom o.length_headers o.align_pos

/-- The names of the sections are in their table. -/
theorem textAt?_sectionNames : List.Forall₂ (fun name offset =>
      Elf.textAt? (StringTable.bytes sectionNames) offset = some name ∧
        offset < (StringTable.bytes sectionNames).length)
    sectionNames (StringTable.offsets sectionNames) :=
  StringTable.textAt?_offsets (by decide)

theorem textAt?_placedSections (o : ObjectFile) : ∀ s ∈ o.placedSections,
    Elf.textAt? (StringTable.bytes sectionNames) s.header.name = some s.name := by
  apply ObjectSection.textAt?_placedFrom
  have hnames : List.Forall₂ (fun name offset =>
      Elf.textAt? (StringTable.bytes sectionNames) offset = some name)
      (o.sections.map (·.name)) (StringTable.offsets sectionNames) :=
    textAt?_sectionNames.imp fun _ _ h => h.1
  exact List.forall₂_map_left_iff.mp hnames

/-- The first symbol that is not local is the third, after those of every object file. -/
theorem findIdx_records (h : ∀ s ∈ o.symbols, s.binding = .globalScope) :
    o.records.findIdx (·.binding ≠ .localScope) = 2 := by
  obtain ⟨code, symbols⟩ := o
  cases symbols with
  | nil => rfl
  | cons s symbols =>
      have hs : s.binding = .globalScope := h s (List.mem_cons_self ..)
      simp [records, symbolNames, StringTable.offsets, StringTable.offsetsFrom, List.findIdx_cons,
        SymbolRecord.ofCodeSection, SymbolRecord.ofSymbol, hs]

theorem fits_of_mem_sections (h : o.Fits) : ∀ s ∈ o.sections, s.Fits := by
  have hinfo : o.records.findIdx (·.binding ≠ .localScope) < wordCount 32 := by
    rw [findIdx_records h.bindings]
    decide
  simp only [sections, List.forall_mem_cons]
  refine ⟨⟨?_, ?_, ?_, ?_, ?_, ?_⟩, ⟨?_, ?_, ?_, ?_, ?_, ?_⟩, ⟨?_, ?_, ?_, hinfo, ?_, ?_⟩,
    ⟨?_, ?_, ?_, ?_, ?_, ?_⟩, by simp⟩ <;> dsimp only <;> decide

theorem map_ofRecord_headerRecords (h : o.Fits) :
    o.headerRecords.map Elf.SectionHeader.ofRecord = o.found.sections.map (·.header) := by
  have hnull : Elf.SectionHeader.ofRecord (List.replicate ObjectSection.headerSize 0) = {} := by
    decide
  rw [headerRecords, found, List.map_cons, List.map_cons, hnull, placedSections,
    ObjectSection.placedFrom, List.map_map, List.map_map]
  apply congrArg (List.cons _)
  apply List.map_congr_left
  rintro ⟨s, name, offset⟩ hmem
  have hinside : offset + s.contents.length ≤ o.image.length :=
    o.wellPlaced_placedSections.inside (s.placed name offset) (List.mem_map.mpr ⟨_, hmem, rfl⟩)
  have hsize := h.size
  obtain ⟨hs, hplace⟩ := List.of_mem_zip hmem
  have hname : name < wordCount 32 := by
    have hbound : ∀ name ∈ StringTable.offsets sectionNames, name < wordCount 32 := by decide
    exact hbound name (List.of_mem_zip hplace).1
  exact ObjectSection.ofRecord_header (fits_of_mem_sections h s hs) hname (by omega) (by omega)

theorem table?_image (o : ObjectFile) :
    Elf.table? o.image headerSize Elf.SectionHeader.bytes (o.sections.length + 1) =
      some o.headerRecords := by
  have htable := Elf.table?_append o.length_of_mem_headerRecords (header (o.sections.length + 1))
    (ObjectSection.bodiesFrom o.headersEnd o.sections)
  rw [flatten_headerRecords, length_header] at htable
  exact htable

theorem read?_section (o : ObjectFile) : ∀ s ∈ o.found.sections,
    Elf.Section.read? o.image (StringTable.bytes sectionNames) s.header = some s := by
  rw [found, List.forall_mem_cons]
  refine ⟨?_, ?_⟩
  · have hname : Elf.textAt? (StringTable.bytes sectionNames) 0 = some "" :=
      StringTable.textAt?_zero _
    have hcontents : Elf.slice? o.image 0 0 = some [] := if_pos (Nat.zero_le _)
    show ((Elf.textAt? (StringTable.bytes sectionNames) 0).bind fun name =>
      (Elf.slice? o.image 0 0).bind fun contents => some (Elf.Section.mk {} name contents)) = _
    rw [hname, hcontents]
    rfl
  · intro s hs
    rw [Elf.Section.read?, o.textAt?_placedSections s hs, o.slice?_placedSections s hs]
    rfl

theorem sections?_image (h : o.Fits) :
    Elf.sections? o.image headerSize (o.sections.length + 1) nameSectionIndex =
      some o.found.sections := by
  obtain ⟨names, hnames, hcontents⟩ : ∃ names ∈ o.placedSections,
      (o.found.sections.map (·.header))[nameSectionIndex]? = some names.header ∧
        names.contents = StringTable.bytes sectionNames :=
    ⟨_, List.mem_cons_of_mem _ (List.mem_cons_self ..), rfl, rfl⟩
  rw [Elf.sections?, o.table?_image, Option.bind_eq_bind, Option.bind_some,
    map_ofRecord_headerRecords h, hcontents.1, Option.bind_eq_bind, Option.bind_some,
    o.slice?_placedSections names hnames, hcontents.2, Option.bind_eq_bind, Option.bind_some]
  exact mapM_map_eq_some o.read?_section

theorem read?_image (h : o.Fits) : Elf.read? o.image = some o.found := by
  have hheader : Elf.slice? o.image 0 64 = some (header 5) := by
    have hslice := Elf.slice?_append [] (header (o.sections.length + 1))
      (o.sectionHeaders ++ ObjectSection.bodiesFrom o.headersEnd o.sections)
    rw [length_header, List.nil_append, ← List.append_assoc] at hslice
    exact hslice
  have htable : Elf.field (header 5) 40 8 = headerSize := by decide
  have hcount : Elf.field (header 5) 60 2 = o.sections.length + 1 := by
    show Elf.field (header 5) 60 2 = 5
    decide
  have hindex : Elf.field (header 5) 62 2 = nameSectionIndex := by decide
  rw [Elf.read?, hheader, Option.bind_eq_bind, Option.bind_some, if_pos (by decide), htable, hcount,
    hindex, sections?_image h]
  rfl

/-! ### Symbols -/

theorem read?_ofSymbol (h : o.Fits) : List.Forall₂ (fun s name =>
      Elf.SymbolEntry.read? (StringTable.bytes o.symbolNames)
        (SymbolRecord.ofSymbol s name).bytes = some s.entry)
    o.symbols (StringTable.offsets o.symbolNames) := by
  have hnames : ∀ name ∈ o.symbolNames, 0 ∉ Bytes.ofString name := by
    intro name hname
    obtain ⟨s, hs, rfl⟩ := List.mem_map.mp hname
    exact h.names s hs
  have hfound := List.forall₂_map_left_iff.mp (StringTable.textAt?_offsets hnames)
  refine List.Forall₂.imp ?_ ((List.forall₂_and_left _ _).mpr ⟨h.values, hfound⟩)
  rintro s name ⟨hvalue, hname, hoffset⟩
  exact ObjectSymbol.read?_ofSymbol hname (Nat.lt_trans hoffset h.strings) hvalue

theorem read?_records (h : o.Fits) :
    (o.records.map SymbolRecord.bytes).mapM
        (Elf.SymbolEntry.read? (StringTable.bytes o.symbolNames)) =
      some ({} :: { type := 3, sectionIndex := 1 } :: o.symbols.map ObjectSymbol.entry) := by
  have hempty : Elf.textAt? (StringTable.bytes o.symbolNames) 0 = some "" :=
    StringTable.textAt?_zero _
  have hnull : Elf.SymbolEntry.read? (StringTable.bytes o.symbolNames)
      ({} : SymbolRecord).bytes = some {} :=
    SymbolRecord.read?_bytes hempty (by decide) (by decide) (by decide) (by decide)
  have hcode : Elf.SymbolEntry.read? (StringTable.bytes o.symbolNames)
      SymbolRecord.ofCodeSection.bytes = some { type := 3, sectionIndex := 1 } :=
    SymbolRecord.read?_bytes hempty (by decide) (by decide) (by decide) (by decide)
  have hsymbols : (List.zipWith SymbolRecord.ofSymbol o.symbols
      (StringTable.offsets o.symbolNames)).mapM
        (Elf.SymbolEntry.read? (StringTable.bytes o.symbolNames) ∘ SymbolRecord.bytes) =
      some (o.symbols.map ObjectSymbol.entry) :=
    mapM_zipWith_eq_some (read?_ofSymbol h)
  rw [List.mapM_map, records, List.mapM_cons, List.mapM_cons, hsymbols, Function.comp_apply,
    Function.comp_apply, hnull, hcode]
  rfl

theorem length_of_mem_records (o : ObjectFile) :
    ∀ r ∈ o.records.map SymbolRecord.bytes, r.length = Elf.SymbolEntry.bytes := by
  intro r hr
  obtain ⟨record, _, rfl⟩ := List.mem_map.mp hr
  exact record.length_bytes

theorem symbols?_found (h : o.Fits) :
    o.found.symbols? =
      some ({} :: { type := 3, sectionIndex := 1 } :: o.symbols.map ObjectSymbol.entry) := by
  have hlength := length_flatten_of_length o.length_of_mem_records
  have htable := Elf.table?_append o.length_of_mem_records [] []
  rw [List.nil_append, List.append_nil, List.length_nil] at htable
  obtain ⟨table, names, htable', hnames, hsize, hcontents, hstrings⟩ : ∃ table names,
      o.found.symbolSection? = some table ∧ o.found.sections[table.header.link]? = some names ∧
        table.header.entrySize = Elf.SymbolEntry.bytes ∧
        table.contents = (o.records.map SymbolRecord.bytes).flatten ∧
        names.contents = StringTable.bytes o.symbolNames :=
    ⟨_, _, rfl, rfl, rfl, List.flatMap_def .., rfl⟩
  rw [Elf.File.symbols?, htable', Option.bind_eq_bind, Option.bind_some, hnames, Option.bind_eq_bind,
    Option.bind_some, hcontents, hlength, if_pos ⟨hsize, Nat.dvd_mul_left _ _⟩,
    Nat.mul_div_cancel _ (by decide), htable, hstrings, Option.bind_some]
  exact read?_records h

theorem objectOf_image (h : o.Fits) :
    Elf.ObjectOf o.code (o.symbols.map ObjectSymbol.entry) o.image o.found where
  read := read?_image h
  tableOffset := rfl
  empty := rfl
  names := rfl
  nameSection := rfl
  placed := o.wellPlaced_placedSections
  text := rfl
  symbols := by
    have hlocal : (o.symbols.map ObjectSymbol.entry).countP Elf.SymbolEntry.isLocal = 0 := by
      rw [List.countP_map, List.countP_eq_zero]
      intro s hs
      simp [Elf.SymbolEntry.isLocal, ObjectSymbol.entry, h.bindings s hs, Binding.code]
    refine ⟨_, _, rfl, symbols?_found h, rfl, rfl, rfl, ?_⟩
    rw [List.countP_cons, List.countP_cons, hlocal]
    exact findIdx_records h.bindings

end ObjectFile

/-! ### The symbols of a table -/

/-- What the linker is told of a symbol: an exported one is defined in the code at its first label,
all others are to be found elsewhere. -/
def Symbol.globalEntry (labels : List (String × Nat)) (s : Symbol) : Elf.SymbolEntry :=
  match s.kind, labels.find? (·.1 = s.name) with
  | .exported, some (_, offset) =>
    { name := s.name, binding := 1, sectionIndex := 1, value := offset }
  | _, _ => { name := s.name, binding := 1 }

section Make

variable {code : Bytes} {labels : List (String × Nat)} {t : SymbolTable}

theorem Symbol.entry_make {s : Symbol} (h : s.kind ≠ .normal) :
    ObjectSymbol.entry ⟨s.name, s.kind.binding, s.definedAt? labels⟩ = s.globalEntry labels := by
  obtain ⟨name, index, kind⟩ := s
  cases kind with
  | normal => exact absurd rfl h
  | imported => rfl
  | exported =>
      cases hfind : labels.find? (·.1 = name) with
      | none => simp [globalEntry, ObjectSymbol.entry, definedAt?, labelAddress?, hfind,
          SymbolKind.binding, Binding.code]
      | some l => simp [globalEntry, ObjectSymbol.entry, definedAt?, labelAddress?, hfind,
          SymbolKind.binding, Binding.code]

theorem fst_of_find? {name : String} {l : String × Nat}
    (h : labels.find? (·.1 = name) = some l) : l.1 = name := by
  have htrue := List.find?_some h
  exact of_decide_eq_true htrue

theorem mem_of_labelAddress? {name : String} {offset : Nat}
    (h : labelAddress? labels name = some offset) : (name, offset) ∈ labels := by
  obtain ⟨l, hfind, rfl⟩ := Option.map_eq_some_iff.mp h
  rw [← fst_of_find? hfind]
  exact List.mem_of_find?_eq_some hfind

theorem Symbol.labelAddress?_of_definedAt? {s : Symbol} {offset : Nat}
    (h : s.definedAt? labels = some offset) : labelAddress? labels s.name = some offset := by
  unfold definedAt? at h
  split at h
  · exact h
  · cases h

theorem ObjectFile.entries_make :
    (make code labels t).symbols.map ObjectSymbol.entry =
      (t.toList.filter (·.kind ≠ .normal)).map (Symbol.globalEntry labels) := by
  rw [make, List.map_map]
  apply List.map_congr_left
  intro s hs
  exact Symbol.entry_make (of_decide_eq_true (List.mem_filter.mp hs).2)

theorem ObjectFile.fits_make (hnames : ∀ s ∈ t.linked, 0 ∉ Bytes.ofString s.name)
    (hstrings : (StringTable.bytes (t.linked.map (·.name))).length < wordCount 32)
    (hlabels : ∀ l ∈ labels, l.2 < wordCount 64)
    (hsize : (make code labels t).image.length < wordCount 64) : (make code labels t).Fits where
  bindings := by
    intro s hs
    obtain ⟨s, hlinked, rfl⟩ := List.mem_map.mp hs
    have hkind : s.kind ≠ .normal := of_decide_eq_true (List.mem_filter.mp hlinked).2
    show s.kind.binding = .globalScope
    cases hs : s.kind with
    | normal => exact absurd hs hkind
    | imported => rfl
    | exported => rfl
  names := by
    intro s hs
    obtain ⟨s, hlinked, rfl⟩ := List.mem_map.mp hs
    exact hnames s hlinked
  strings := by
    rw [symbolNames, make, List.map_map]
    exact hstrings
  values := by
    intro s hs
    obtain ⟨s, hlinked, rfl⟩ := List.mem_map.mp hs
    show (s.definedAt? labels).getD 0 < wordCount 64
    cases hdefined : s.definedAt? labels with
    | none =>
        rw [Option.getD_none]
        decide
    | some offset =>
        exact hlabels _ (mem_of_labelAddress? (Symbol.labelAddress?_of_definedAt? hdefined))
  size := hsize

/-- An object file reads back: its code, and a symbol for each one of the table that is imported or
exported, in the order of the table.

The names may not hold a zero byte, as it would end them.  Names are referred to by words of 32 bits,
offsets and sizes are words of 64 bits. -/
theorem objectOf_make (hnames : ∀ s ∈ t.linked, 0 ∉ Bytes.ofString s.name)
    (hstrings : (StringTable.bytes (t.linked.map (·.name))).length < wordCount 32)
    (hlabels : ∀ l ∈ labels, l.2 < wordCount 64)
    (hsize : (ObjectFile.make code labels t).image.length < wordCount 64) :
    ∃ file, Elf.ObjectOf code ((t.toList.filter (·.kind ≠ .normal)).map (Symbol.globalEntry labels))
      (ObjectFile.make code labels t).image file := by
  have hread := ObjectFile.objectOf_image
    (ObjectFile.fits_make hnames hstrings hlabels hsize)
  rw [ObjectFile.entries_make] at hread
  exact ⟨_, hread⟩

end Make

/-- A table with symbols of all kinds, one of them without a name. -/
def mixedTable : SymbolTable :=
  (((({} : SymbolTable).declare "puts" .imported).intern "loop").declare "main" .exported).declare
    "" .exported |>.declare "gone" .exported

/-- Labels of which two go by one name. -/
def repeatedLabels : List (String × Nat) := [("loop", 0), ("main", 2), ("main", 3), ("puts", 1)]

theorem toList_mixedTable : mixedTable.toList =
    [⟨"puts", 0, .imported⟩, ⟨"loop", 1, .normal⟩, ⟨"main", 2, .exported⟩, ⟨"", 3, .exported⟩,
      ⟨"gone", 4, .exported⟩] := by
  have hempty : ({} : SymbolTable).Ranks ([] : List String).eraseDups := .empty
  have hranks : mixedTable.Ranks ["puts", "loop", "main", "", "gone"].eraseDups :=
    ((((hempty.declare "puts" .imported).intern "loop").declare "main" .exported).declare
      "" .exported).declare "gone" .exported
  rw [hranks.toList_eq_filterMap]
  decide +kernel

theorem objectOf_make_mixedTable :
    ∃ file, Elf.ObjectOf [0x50, 0x5B, 0x50]
      [{ name := "puts", binding := 1 },
        { name := "main", binding := 1, sectionIndex := 1, value := 2 },
        { name := "", binding := 1 }, { name := "gone", binding := 1 }]
      (ObjectFile.make [0x50, 0x5B, 0x50] repeatedLabels mixedTable).image file := by
  have hlinked : mixedTable.linked = [⟨"puts", 0, .imported⟩, ⟨"main", 2, .exported⟩,
      ⟨"", 3, .exported⟩, ⟨"gone", 4, .exported⟩] := by
    rw [SymbolTable.linked, toList_mixedTable]
    rfl
  have hread := @objectOf_make [0x50, 0x5B, 0x50] repeatedLabels mixedTable
    (by rw [hlinked]; decide +kernel) (by rw [hlinked]; decide +kernel) (by decide)
    (by rw [ObjectFile.make, hlinked]; decide +kernel)
  rw [toList_mixedTable] at hread
  exact hread

end X64Asm
