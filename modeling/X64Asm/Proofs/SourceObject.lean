import X64Asm.Proofs.ObjectReadBack
import X64Asm.Proofs.SourceNames
import X64Asm.Proofs.SymbolOrder

/-! # The object file of a source text

The object file of a source text holds the code of the text, and a global symbol for each name that
the text declares (`assembleObject_linked`).  What the text says is given by the rules of the grammar,
what the object file says by a reader of its format.

The limits on the source and on the code keep all numbers of the file within their fields
(`AssembledFrom.fits`). -/

namespace X64Asm

/-- The text spells the statements, line by line. -/
def Grammar.Spells (source : String) (sts : List Statement) : Prop :=
  ∃ ts eof lines, tokenize source = .ok (ts ++ [eof]) ∧ eof.kind = .eof ∧
    (∀ t ∈ ts, t.kind ≠ .eof) ∧ Separated .newline Line ts lines ∧ lines.flatten = sts

theorem Grammar.spells_of_readStatements {source : String} {tokens : List Token}
    {sts : List Statement} (htokens : tokenize source = .ok tokens)
    (hsts : readStatements tokens = .ok sts) : Spells source sts := by
  obtain ⟨ts, eof, rfl, heof, hts⟩ := scan_ends htokens
  obtain ⟨lines, hlines, hflatten⟩ := (readStatements_eq_ok_iff hts heof).mp hsts
  exact ⟨ts, eof, lines, htokens, heof, hts, hlines, hflatten⟩

/-! ### Declarations -/

theorem mem_of_lastKind? {name : String} {kind : SymbolKind} {declared : List (String × SymbolKind)}
    (h : lastKind? name declared = some kind) : (name, kind) ∈ declared := by
  obtain ⟨d, hlast, rfl⟩ := Option.map_eq_some_iff.mp h
  obtain ⟨hd, hname⟩ := List.mem_filter.mp (List.mem_of_getLast? hlast)
  rw [← of_decide_eq_true hname]
  exact hd

theorem isSome_lastKind?_iff {name : String} {declared : List (String × SymbolKind)} :
    (lastKind? name declared).isSome = true ↔ name ∈ declared.map (·.1) := by
  constructor
  · intro h
    obtain ⟨kind, hkind⟩ := Option.isSome_iff_exists.mp h
    exact List.mem_map.mpr ⟨_, mem_of_lastKind? hkind, rfl⟩
  · intro h
    obtain ⟨d, hd, rfl⟩ := List.mem_map.mp h
    have hmem : d ∈ declared.filter (·.1 = d.1) := List.mem_filter.mpr ⟨hd, decide_eq_true rfl⟩
    rw [lastKind?, Option.isSome_map, List.getLast?_eq_some_getLast (List.ne_nil_of_mem hmem)]
    rfl

theorem kind_ne_normal_of_declared {sts : List Statement} :
    ∀ d ∈ sts.flatMap Statement.declared, d.2 ≠ .normal := by
  intro d hd
  obtain ⟨st, _, hd⟩ := List.mem_flatMap.mp hd
  cases st with
  | imports names =>
      rw [Statement.declared_imports] at hd
      obtain ⟨name, _, rfl⟩ := List.mem_map.mp hd
      exact SymbolKind.noConfusion
  | exports names =>
      rw [Statement.declared_exports] at hd
      obtain ⟨name, _, rfl⟩ := List.mem_map.mp hd
      exact SymbolKind.noConfusion
  | label name => cases hd
  | mode bits => cases hd
  | enter name => cases hd
  | data values => cases hd
  | instruction mnemonic operands => cases hd

/-! ### Labels -/

theorem map_fst_labelOffsets {offset : Nat} {es : List SectionEntry} {chunks : List Bytes}
    (h : chunks.length = es.length) :
    (labelOffsets offset es chunks).map (·.1) = es.filterMap SectionEntry.label? := by
  induction es generalizing offset chunks with
  | nil => rfl
  | cons e es ih =>
      obtain ⟨bytes, chunks, rfl⟩ := List.exists_cons_of_length_eq_add_one h
      have hrest := @ih (offset + bytes.length) chunks (Nat.succ.inj h)
      rw [Assembler.labelOffsets_cons, List.map_append, hrest]
      cases e <;> rfl

theorem le_of_mem_labelOffsets {offset : Nat} {es : List SectionEntry} {chunks : List Bytes} :
    ∀ l ∈ labelOffsets offset es chunks, l.2 ≤ offset + chunks.flatten.length := by
  induction es generalizing offset chunks with
  | nil => simp [labelOffsets]
  | cons e es ih =>
      cases chunks with
      | nil => cases e <;> simp [labelOffsets]
      | cons bytes chunks =>
          intro l hl
          rw [Assembler.labelOffsets_cons, List.mem_append] at hl
          rw [List.flatten_cons, List.length_append]
          rcases hl with hl | hl
          · cases e <;> simp [labelOffsets] at hl
            rw [hl]
            exact Nat.le_add_right _ _
          · have hle := ih l hl
            omega

/-- The labels are those of the statements, and none lies behind the code. -/
theorem Assembler.labels_of_run {t : Assembler} {sts : List Statement}
    (h : ({} : Assembler).run (Listing.ofStatements sts).actions = ⟨t, none⟩) :
    t.labels.toList.map (·.1) = sts.flatMap Statement.labels ∧
      ∀ l ∈ t.labels.toList, l.2 ≤ t.code.toList.length := by
  obtain ⟨chunks, hchunks⟩ := appends_of_run h
  have hlength := (forall₂_of_mapM hchunks.contributions).length_eq.symm
  rw [hchunks.labels, hchunks.code]
  refine ⟨?_, ?_⟩
  · rw [← Listing.labels_ofStatements, Action.filterMap_label?]
    exact map_fst_labelOffsets hlength
  · intro l hl
    have hle := le_of_mem_labelOffsets l hl
    simpa using hle

/-! ### Symbols -/

namespace Assembler

variable {t : Assembler} {sts : List Statement} {names : List String}

theorem kind?_of_run (h : ({} : Assembler).run (Listing.ofStatements sts).actions = ⟨t, none⟩)
    (name : String) :
    t.symbols.kind? name =
      (lastKind? name (sts.flatMap Statement.declared)).or
        (labelKind? name (sts.flatMap Statement.labels)) := by
  rw [kind?_run h, Listing.declared_ofStatements, Listing.labels_ofStatements]
  simp [SymbolTable.kind?, SymbolTable.get?]

/-- The symbols that linking is concerned with are those with a declaration, and have the kind of the
last one. -/
theorem mem_linked_iff (h : ({} : Assembler).run (Listing.ofStatements sts).actions = ⟨t, none⟩)
    (hranks : t.symbols.Ranks names) {s : Symbol} :
    s ∈ t.symbols.linked ↔ t.symbols.get? s.name = some s ∧
      lastKind? s.name (sts.flatMap Statement.declared) = some s.kind := by
  rw [SymbolTable.linked, List.mem_filter, hranks.mem_toList_iff, decide_eq_true_eq]
  apply and_congr_right
  intro hget
  have hkind := kind?_of_run h s.name
  rw [SymbolTable.kind?, hget, Option.map_some] at hkind
  cases hlast : lastKind? s.name (sts.flatMap Statement.declared) with
  | none =>
      rw [hlast, Option.none_or, labelKind?] at hkind
      split at hkind
      · have hnormal : s.kind = .normal := Option.some.inj hkind
        constructor
        · intro hne
          exact absurd hnormal hne
        · intro hnone
          cases hnone
      · cases hkind
  | some kind =>
      rw [hlast, Option.some_or] at hkind
      obtain rfl : s.kind = kind := Option.some.inj hkind
      have hne := kind_ne_normal_of_declared _ (mem_of_lastKind? hlast)
      exact ⟨fun _ => rfl, fun _ => hne⟩

theorem mem_map_name_linked_iff
    (h : ({} : Assembler).run (Listing.ofStatements sts).actions = ⟨t, none⟩)
    (hranks : t.symbols.Ranks names) {name : String} :
    name ∈ t.symbols.linked.map (·.name) ↔ name ∈ (sts.flatMap Statement.declared).map (·.1) := by
  rw [← isSome_lastKind?_iff]
  constructor
  · intro hname
    obtain ⟨s, hs, rfl⟩ := List.mem_map.mp hname
    rw [((mem_linked_iff h hranks).mp hs).2]
    rfl
  · intro hname
    obtain ⟨kind, hlast⟩ := Option.isSome_iff_exists.mp hname
    have hkind := kind?_of_run h name
    rw [hlast, Option.some_or] at hkind
    obtain ⟨s, hget, rfl⟩ := Option.map_eq_some_iff.mp hkind
    obtain rfl := (hranks.of_get? hget).1
    exact List.mem_map.mpr ⟨s, (mem_linked_iff h hranks).mpr ⟨hget, hlast⟩, rfl⟩

theorem nodup_linked (hranks : t.symbols.Ranks names) (hnames : names.Nodup) :
    (t.symbols.linked.map (·.name)).Nodup := by
  have hall : (t.symbols.toList.map (·.name)).Nodup := by
    rw [hranks.map_name_toList]
    exact hnames
  exact hall.sublist (List.filter_sublist.map _)

end Assembler

/-! ### Sizes -/

theorem StringTable.length_bytes_le (names : List String) :
    (bytes names).length ≤ nameRoom names + 1 := by
  rw [bytes, List.length_cons]
  apply Nat.succ_le_succ
  induction names with
  | nil => exact Nat.le_refl 0
  | cons name names ih =>
      have hname : (nameBytes name).length ≤ (Bytes.ofString name).length + 1 := by
        unfold nameBytes
        split <;> simp
      rw [List.flatMap_cons, List.length_append, nameRoom_cons]
      omega

theorem length_le_nameRoom (names : List String) : names.length ≤ nameRoom names := by
  induction names with
  | nil => exact Nat.le_refl 0
  | cons name names ih =>
      rw [List.length_cons, nameRoom_cons]
      omega

theorem alignUp_le {align : Nat} (h : 0 < align) (n : Nat) : alignUp n align ≤ n + align := by
  have hdiv := Nat.div_add_mod (n + align - 1) align
  rw [Nat.mul_comm] at hdiv
  unfold alignUp
  omega

theorem ObjectSection.length_bodiesFrom_le {start : Nat} {ss : List ObjectSection}
    (h : ∀ s ∈ ss, 0 < s.align) :
    (bodiesFrom start ss).length ≤
      (ss.flatMap fun s => List.replicate s.align 0 ++ s.contents).length := by
  induction ss generalizing start with
  | nil => exact Nat.le_refl 0
  | cons s ss ih =>
      obtain ⟨hs, hss⟩ := List.forall_mem_cons.mp h
      have hup := alignUp_le hs start
      have hrest := @ih (alignUp start s.align + s.contents.length) hss
      rw [bodiesFrom, List.flatMap_cons]
      simp only [List.length_append, List.length_replicate]
      omega

/-- An object file is not much longer than its code and its names. -/
theorem ObjectFile.length_image_le (o : ObjectFile) :
    o.image.length ≤ o.code.length + 25 * nameRoom o.symbolNames + 600 := by
  have hbodies := @ObjectSection.length_bodiesFrom_le o.headersEnd o.sections o.align_pos
  have hnames : (StringTable.bytes sectionNames).length = 33 := by decide
  have hcount : o.records.length ≤ o.symbolNames.length + 2 := by
    simp only [records, symbolNames, List.length_cons, List.length_zipWith, List.length_map]
    omega
  have hrecords : (o.records.flatMap SymbolRecord.bytes).length =
      o.records.length * Elf.SymbolEntry.bytes := by
    rw [List.flatMap_def, length_flatten_of_length o.length_of_mem_records, List.length_map]
  have hstrings := StringTable.length_bytes_le o.symbolNames
  have hroom := length_le_nameRoom o.symbolNames
  have hheaders : o.headersEnd = 384 := by
    simp [headersEnd, sections, headerSize, ObjectSection.headerSize]
  have hsections : (o.sections.flatMap fun s => List.replicate s.align 0 ++ s.contents).length =
      o.code.length + 24 * o.records.length + (StringTable.bytes o.symbolNames).length + 59 := by
    simp only [sections, List.flatMap_cons, List.flatMap_nil, List.length_append,
      List.length_replicate, List.length_nil, hrecords, hnames, Elf.SymbolEntry.bytes]
    omega
  rw [image, List.length_append, o.length_headers]
  omega

/-! ### The file of a source -/

theorem Assembler.size_of_emit {s t : Assembler} {source : String} (h : s.emit source = ⟨t, none⟩) :
    source.utf8ByteSize ≤ s.options.limits.sourceBytes := by
  apply Nat.le_of_not_lt
  intro hlong
  rw [emit, sourceActions, if_pos hlong] at h
  cases h

/-- What it comes to that a source text is assembled. -/
structure AssembledFrom (source : String) (sts : List Statement) (a : Assembly) (t : Assembler) :
    Prop where
  spells : Grammar.Spells source sts
  run : ({} : Assembler).run (Listing.ofStatements sts).actions = ⟨t, none⟩
  ranks : ∃ names, names.Nodup ∧ t.symbols.Ranks names
  result : a = ⟨t.code.toList, t.labels.toList, t.symbols⟩
  output : a.bytes.length ≤ ({} : Limits).outputBytes
  input : source.utf8ByteSize ≤ ({} : Limits).sourceBytes

theorem exists_assembledFrom {source : String} {a : Assembly} (h : assembleSource source = .ok a) :
    ∃ sts t, AssembledFrom source sts a t := by
  unfold assembleSource at h
  cases hemit : ({} : Assembler).emit source with
  | mk t failure =>
      rw [hemit] at h
      cases failure with
      | some f => cases h
      | none =>
          obtain ⟨tokens, sts, htokens, hsts, hrun⟩ := Assembler.run_of_emit hemit
          obtain ⟨_, _, hranks⟩ := @ranks_emit {} source t hemit
          have hfinish := mapError_eq_ok.mp h
          unfold Assembler.finish at hfinish
          split at hfinish
          · cases hfinish
          · next hroom =>
            cases hfinish
            obtain ⟨_, hchunks⟩ := Assembler.appends_of_run hrun
            rw [Assembler.outputFull, decide_eq_true_eq, Nat.not_lt, hchunks.options] at hroom
            exact ⟨sts, t, Grammar.spells_of_readStatements htokens hsts, hrun,
              ⟨_, nodup_eraseDups _, hranks⟩, rfl, hroom, Assembler.size_of_emit hemit⟩

/-- Different names that a text declares hold no zero byte and fit into twice its size. -/
theorem Grammar.Spells.declared_names {source : String} {sts : List Statement}
    {names : List String} (h : Spells source sts) (hnodup : names.Nodup)
    (hnames : ∀ name ∈ names, name ∈ (sts.flatMap Statement.declared).map (·.1)) :
    (∀ name ∈ names, 0 ∉ Bytes.ofString name) ∧
      nameRoom names ≤ 2 * source.utf8ByteSize := by
  obtain ⟨ts, eof, lines, htokens, _, _, hlines, rfl⟩ := h
  have hsubset : names ⊆ identifiers (ts ++ [eof]) := by
    intro name hname
    obtain ⟨d, hd, rfl⟩ := List.mem_map.mp (hnames name hname)
    exact identifiers_subset (List.subset_append_left ts [eof])
      (mem_identifiers_of_declared hlines d hd)
  exact ⟨fun name hname => (identifiers_of_scan htokens).1 name (hsubset hname),
    nameRoom_le htokens hnodup hsubset⟩

namespace AssembledFrom

variable {source : String} {sts : List Statement} {a : Assembly} {t : Assembler}

theorem labels (h : AssembledFrom source sts a t) :
    a.labels.map (·.1) = sts.flatMap Statement.labels ∧
      ∀ l ∈ a.labels, l.2 ≤ a.bytes.length := by
  rw [h.result]
  exact Assembler.labels_of_run h.run

theorem nodup_linked (h : AssembledFrom source sts a t) :
    (a.symbols.linked.map (·.name)).Nodup := by
  obtain ⟨names, hnodup, hranks⟩ := h.ranks
  rw [h.result]
  exact Assembler.nodup_linked hranks hnodup

theorem mem_linked_names (h : AssembledFrom source sts a t) (name : String) :
    name ∈ a.symbols.linked.map (·.name) ↔
      name ∈ (sts.flatMap Statement.declared).map (·.1) := by
  obtain ⟨names, _, hranks⟩ := h.ranks
  rw [h.result]
  exact Assembler.mem_map_name_linked_iff h.run hranks

theorem kind_of_mem_linked (h : AssembledFrom source sts a t) {s : Symbol}
    (hs : s ∈ a.symbols.linked) :
    lastKind? s.name (sts.flatMap Statement.declared) = some s.kind := by
  obtain ⟨names, _, hranks⟩ := h.ranks
  rw [h.result] at hs
  exact ((Assembler.mem_linked_iff h.run hranks).mp hs).2

/-- The limits keep the numbers of the object file within their fields. -/
theorem fits (h : AssembledFrom source sts a t) : a.objectFile.Fits := by
  obtain ⟨hzero, hroom⟩ := h.spells.declared_names h.nodup_linked
    fun name hname => (h.mem_linked_names name).mp hname
  have hinput : source.utf8ByteSize ≤ 64 * 1024 * 1024 := h.input
  have houtput : a.bytes.length ≤ 16 * 1024 * 1024 := h.output
  have hwords : wordCount 32 = 4294967296 ∧ wordCount 64 = 18446744073709551616 := by decide
  have hstrings := StringTable.length_bytes_le (a.symbols.linked.map (·.name))
  have himage := a.objectFile.length_image_le
  have hcode : a.objectFile.code = a.bytes := rfl
  have hnames : a.objectFile.symbolNames = a.symbols.linked.map (·.name) := List.map_map
  rw [hcode, hnames] at himage
  apply ObjectFile.fits_make
  · intro s hs
    exact hzero s.name (List.mem_map.mpr ⟨s, hs, rfl⟩)
  · omega
  · intro l hl
    have hle := h.labels.2 l hl
    omega
  · change a.objectFile.image.length < wordCount 64
    omega

end AssembledFrom

/-! ### Linking -/

/-- The symbol is defined in the section of the code. -/
def Elf.File.DefinesInText (f : File) (s : SymbolEntry) : Prop :=
  (f.sections[s.sectionIndex]?).map (·.name) = some ".text"

theorem Elf.ObjectOf.definesInText_iff {code image : Bytes} {globals : List SymbolEntry} {f : File}
    (h : ObjectOf code globals image f) {s : SymbolEntry}
    (hindex : s.sectionIndex = 0 ∨ s.sectionIndex = 1) :
    f.DefinesInText s ↔ s.sectionIndex = 1 := by
  obtain ⟨text, rest, hsections, htext⟩ :
      ∃ text rest, f.sections = {} :: text :: rest ∧ text.name = ".text" := by
    have hempty := h.empty
    have hnames := h.names
    cases hsections : f.sections with
    | nil =>
        rw [hsections] at hempty
        cases hempty
    | cons first sections =>
        rw [hsections] at hempty hnames
        cases hempty
        cases sections with
        | nil => cases hnames
        | cons text rest => exact ⟨text, rest, rfl, (List.cons.inj hnames).1⟩
  unfold File.DefinesInText
  rcases hindex with hindex | hindex
  · simp [hsections, hindex]
  · simp [hsections, hindex, htext]

/-- A symbol is given a place in the code just if it is exported and has a label. -/
theorem Symbol.globalEntry_cases (labels : List (String × Nat)) (s : Symbol) :
    (∃ offset, s.kind = .exported ∧ labels.find? (·.1 = s.name) = some (s.name, offset) ∧
      s.globalEntry labels =
        { name := s.name, binding := 1, sectionIndex := 1, value := offset }) ∨
    (¬ (s.kind = .exported ∧ s.name ∈ labels.map (·.1)) ∧
      s.globalEntry labels = { name := s.name, binding := 1 }) := by
  obtain ⟨name, index, kind⟩ := s
  cases kind with
  | normal => exact .inr ⟨fun h => SymbolKind.noConfusion h.1, rfl⟩
  | imported => exact .inr ⟨fun h => SymbolKind.noConfusion h.1, rfl⟩
  | exported =>
      cases hfind : labels.find? (·.1 = name) with
      | none =>
          refine .inr ⟨?_, by simp [globalEntry, hfind]⟩
          rintro ⟨_, hname⟩
          obtain ⟨l, hl, hlname⟩ := List.mem_map.mp hname
          exact List.find?_eq_none.mp hfind l hl (decide_eq_true hlname)
      | some l =>
          refine .inl ⟨l.2, rfl, ?_, by simp [globalEntry, hfind]⟩
          rw [← fst_of_find? hfind]

/-- The global symbols are those that the statements declare.  One is defined in the code if it is
declared to be exported in the end and has a label, and its value is then the offset of the first. -/
structure LinkedAs (sts : List Statement) (labels : List (String × Nat)) (size : Nat)
    (file : Elf.File) (globals : List Elf.SymbolEntry) : Prop where
  nodup : (globals.map (·.name)).Nodup
  declared : ∀ name, name ∈ globals.map (·.name) ↔
    name ∈ (sts.flatMap Statement.declared).map (·.1)
  defined : ∀ s ∈ globals, file.DefinesInText s ↔
    lastKind? s.name (sts.flatMap Statement.declared) = some .exported ∧ .label s.name ∈ sts
  value : ∀ s ∈ globals, file.DefinesInText s →
    labels.find? (·.1 = s.name) = some (s.name, s.value) ∧ s.value ≤ size

theorem map_name_globalEntry (labels : List (String × Nat)) (symbols : List Symbol) :
    (symbols.map (Symbol.globalEntry labels)).map (·.name) = symbols.map (·.name) := by
  rw [List.map_map]
  apply List.map_congr_left
  intro s _
  rcases s.globalEntry_cases labels with ⟨offset, _, _, hentry⟩ | ⟨_, hentry⟩
  · rw [Function.comp_apply, hentry]
  · rw [Function.comp_apply, hentry]

namespace AssembledFrom

variable {source : String} {sts : List Statement} {a : Assembly} {t : Assembler}

theorem linkedAs (h : AssembledFrom source sts a t) {image : Bytes} {file : Elf.File}
    (hfile : Elf.ObjectOf a.bytes (a.symbols.linked.map (Symbol.globalEntry a.labels)) image file) :
    LinkedAs sts a.labels a.bytes.length file
      (a.symbols.linked.map (Symbol.globalEntry a.labels)) where
  nodup := by
    rw [map_name_globalEntry]
    exact h.nodup_linked
  declared := by
    intro name
    rw [map_name_globalEntry]
    exact h.mem_linked_names name
  defined := by
    intro g hg
    obtain ⟨s, hs, rfl⟩ := List.mem_map.mp hg
    have hkind := h.kind_of_mem_linked hs
    have hlabel : s.name ∈ a.labels.map (·.1) ↔ .label s.name ∈ sts := by
      rw [h.labels.1]
      simp [Statement.mem_labels]
    rcases s.globalEntry_cases a.labels with ⟨offset, hexported, hfind, hentry⟩ | ⟨hnot, hentry⟩
    · have hname : s.name ∈ a.labels.map (·.1) :=
        List.mem_map.mpr ⟨_, List.mem_of_find?_eq_some hfind, rfl⟩
      rw [hentry, hfile.definesInText_iff (.inr rfl), hkind, hexported]
      exact ⟨fun _ => ⟨rfl, hlabel.mp hname⟩, fun _ => rfl⟩
    · rw [hentry, hfile.definesInText_iff (.inl rfl), hkind]
      refine ⟨fun hzero => absurd hzero Nat.zero_ne_one, ?_⟩
      rintro ⟨hexported, hst⟩
      exact absurd ⟨Option.some.inj hexported, hlabel.mpr hst⟩ hnot
  value := by
    intro g hg hdefined
    obtain ⟨s, hs, rfl⟩ := List.mem_map.mp hg
    rcases s.globalEntry_cases a.labels with ⟨offset, _, hfind, hentry⟩ | ⟨_, hentry⟩
    · rw [hentry]
      exact ⟨hfind, h.labels.2 _ (List.mem_of_find?_eq_some hfind)⟩
    · rw [hentry, hfile.definesInText_iff (.inl rfl)] at hdefined
      cases hdefined

end AssembledFrom

theorem filter_globalEntry (labels : List (String × Nat)) (symbols : List Symbol) :
    (symbols.map (Symbol.globalEntry labels)).filter (fun s => !s.isLocal) =
      symbols.map (Symbol.globalEntry labels) := by
  rw [List.filter_eq_self]
  intro g hg
  obtain ⟨s, _, rfl⟩ := List.mem_map.mp hg
  rcases s.globalEntry_cases labels with ⟨offset, _, _, hentry⟩ | ⟨_, hentry⟩
  · rw [hentry]
    rfl
  · rw [hentry]
    rfl

/-- The object file of a source text comes to be just if its code does.  It holds this code, and its
global symbols are the names that the text declares. -/
theorem assembleObject_linked (source : String) :
    (∀ failure, assembleObject source = .error failure ↔ assembleBytes source = .error failure) ∧
    ∀ bytes, assembleBytes source = .ok bytes → ∃ a image file symbols sts,
      assembleSource source = .ok a ∧ assembleObject source = .ok image ∧
      Elf.read? image = some file ∧
      (file.sections.find? (·.name = ".text")).map (·.contents) = some bytes ∧
      file.symbols? = some symbols ∧ Grammar.Spells source sts ∧
      a.labels.map (·.1) = sts.flatMap Statement.labels ∧
      LinkedAs sts a.labels bytes.length file (symbols.filter fun s => !s.isLocal) := by
  constructor
  · intro failure
    unfold assembleObject assembleBytes
    cases assembleSource source with
    | error f => exact Iff.rfl
    | ok a => exact ⟨fun h => (by cases h), fun h => (by cases h)⟩
  · intro bytes hbytes
    obtain ⟨a, ha, rfl⟩ := map_eq_ok.mp hbytes
    obtain ⟨sts, t, hfrom⟩ := exists_assembledFrom ha
    have hfile := ObjectFile.objectOf_image hfrom.fits
    rw [Assembly.objectFile, ObjectFile.entries_make] at hfile
    obtain ⟨table, symbols, _, hsymbols, _, _, rfl, _⟩ := hfile.symbols
    have hlinked := hfrom.linkedAs hfile
    refine ⟨a, _, _, _, sts, ha, map_eq_ok.mpr ⟨a, ha, rfl⟩, hfile.read, hfile.text, hsymbols,
      hfrom.spells, hfrom.labels.1, ?_⟩
    rw [← filter_globalEntry] at hlinked
    exact hlinked

/-- A text that declares names twice, exports one without a label, and repeats a label. -/
def redeclaredText : String := "extern f\nglobal g, f\nf: push rax\nf:\nglobal h\nextern g\ng:"

theorem assembleObject_linked_redeclaredText :
    assembleBytes redeclaredText = .ok [0x50] ∧ ∃ image file symbols sts,
      assembleObject redeclaredText = .ok image ∧ Elf.read? image = some file ∧
      file.symbols? = some symbols ∧ Grammar.Spells redeclaredText sts ∧
      LinkedAs sts [("f", 0), ("f", 1), ("g", 1)] 1 file
        (symbols.filter fun s => !s.isLocal) := by
  have hbytes : assembleBytes redeclaredText = .ok [0x50] := by decide +kernel
  have hlabels : (assembleSource redeclaredText).map (·.labels) =
      .ok [("f", 0), ("f", 1), ("g", 1)] := by
    decide +kernel
  obtain ⟨a, image, file, symbols, sts, ha, himage, hfile, _, hsymbols, hspells, _, hlinked⟩ :=
    (assembleObject_linked redeclaredText).2 _ hbytes
  rw [ha] at hlabels
  have hlist : a.labels = [("f", 0), ("f", 1), ("g", 1)] := Except.ok.inj hlabels
  rw [hlist] at hlinked
  exact ⟨hbytes, image, file, symbols, sts, himage, hfile, hsymbols, hspells, hlinked⟩

end X64Asm
