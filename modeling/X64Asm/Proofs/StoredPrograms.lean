import X64Asm.Json.Program
import X64Asm.Json.Report
import X64Asm.Json.Settings
import X64Asm.Proofs.StoredForms

/-! # Stored programs are read back

The numbers of a listing have the range of the words that they are stored in, so every listing is
read back from its stored form.  Ordinals, offsets, limits and places are counted without a bound.
Where they fit their words (`InRange`), symbol tables, options, reports and assembled programs are
read back too, and where they do not, the stored form is refused (`stored_reloads`). -/

namespace X64Asm

open JsonForm

/-! ### Operands and listings -/

instance : Lawful Width where
  ofJson?_toJson w := by cases w <;> rfl

instance : Lawful Register where
  ofJson?_toJson r := by
    unfold instJsonFormRegister
    simp [List.lookup_cons]

instance : Lawful Immediate where
  ofJson?_toJson imm := by
    have hrange := imm.fits_width
    unfold instJsonFormImmediate
    cases imm with
    | imm8 v => simp [Json.signed?_int.mpr ⟨show FitsSigned 8 v.toInt from hrange, rfl⟩]
    | imm16 v => simp [Json.signed?_int.mpr ⟨show FitsSigned 16 v.toInt from hrange, rfl⟩]
    | imm32 v => simp [Json.signed?_int.mpr ⟨show FitsSigned 32 v.toInt from hrange, rfl⟩]
    | imm64 v => simp [Json.signed?_int.mpr ⟨show FitsSigned 64 v.toInt from hrange, rfl⟩]

instance : Lawful Address where
  ofJson?_toJson a := by
    unfold instJsonFormAddress
    cases a <;> simp

instance : Lawful Operand where
  ofJson?_toJson op := by
    unfold instJsonFormOperand
    cases op <;> simp

instance : Lawful Instruction where
  ofJson?_toJson i := by
    unfold instJsonFormInstruction
    simp [List.lookup_cons]

instance : Lawful SectionEntry where
  ofJson?_toJson entry := by
    unfold instJsonFormSectionEntry
    cases entry <;> simp [List.lookup_cons]

instance : Lawful Directive where
  ofJson?_toJson directive := by
    unfold instJsonFormDirective
    cases directive <;> simp [List.lookup_cons]

instance : Lawful Listing where
  ofJson?_toJson l := by
    unfold instJsonFormListing
    simp [List.lookup_cons]

/-! ### Symbols -/

instance : Lawful SymbolKind where
  ofJson?_toJson kind := by cases kind <;> rfl

/-- The ordinal fits its word. -/
def Symbol.InRange (s : Symbol) : Prop := s.index < wordCount 64

theorem exact_symbol : Exact Symbol.InRange := by
  have hfields := (Lawful.exact (α := String)).fields
    (exact_nat.fields (Lawful.exact (α := SymbolKind)).field)
  refine hfields.record (fun r => ⟨r.1, r.2.1, r.2.2⟩) (fun s => (s.name, s.index, s.kind))
    (fun _ => rfl) (fun _ => rfl) ?_ (fun _ => rfl) (fun _ => rfl) ?_
  · intro fields
    rcases fields with _ | ⟨_, _ | ⟨_, _ | ⟨_, _ | _⟩⟩⟩ <;>
      simp [readFields, readField, Option.map_bind, Option.bind_assoc, Function.comp_def]
  · simp [Symbol.InRange]

namespace SymbolTable

/-- The ordinals fit their words. -/
def InRange (t : SymbolTable) : Prop := ∀ name symbol, t.get? name = some symbol → symbol.InRange

theorem inRange_iff {t : SymbolTable} :
    t.InRange ↔ ∀ member ∈ t.symbols.toList, member.2.InRange := by
  constructor
  · rintro h ⟨name, symbol⟩ hmember
    exact h name symbol (Std.ExtTreeMap.mem_toList_iff_getElem?_eq_some.mp hmember)
  · intro h name symbol hget
    exact h (name, symbol) (Std.ExtTreeMap.mem_toList_iff_getElem?_eq_some.mpr hget)

theorem symbolMember?_eq_some_iff (member other : String × Symbol) :
    symbolMember? (member.1, toJson member.2) = some other ↔ member.2.InRange ∧ other = member := by
  simp only [symbolMember?, Option.map_eq_some_iff, exact_symbol.reload]
  constructor
  · rintro ⟨_, ⟨hrange, rfl⟩, rfl⟩
    exact ⟨hrange, rfl⟩
  · rintro ⟨hrange, rfl⟩
    exact ⟨_, ⟨hrange, rfl⟩, rfl⟩

/-- What is held in a table that members were put into was there before or is a member. -/
theorem mem_of_getElem?_insertMany {symbols : Std.ExtTreeMap String Symbol} {name : String}
    {symbol : Symbol} {members : List (String × Symbol)}
    (h : (symbols.insertMany members)[name]? = some symbol) :
    (name, symbol) ∈ members ∨ symbols[name]? = some symbol := by
  induction members generalizing symbols with
  | nil => exact .inr h
  | cons member members ih =>
      rw [Std.ExtTreeMap.insertMany_cons] at h
      cases ih h with
      | inl hmember => exact .inl (List.mem_cons_of_mem member hmember)
      | inr hget =>
          simp only [Std.ExtTreeMap.getElem?_insert, Std.compare_eq_iff_eq] at hget
          split at hget
          · next hname =>
            cases hname
            cases hget
            exact .inl List.mem_cons_self
          · exact .inr hget

/-- What a table of members holds under a name is a member. -/
theorem mem_of_getElem?_ofList {members : List (String × Symbol)} {name : String} {symbol : Symbol}
    (h : (Std.ExtTreeMap.ofList members)[name]? = some symbol) : (name, symbol) ∈ members := by
  rw [Std.ExtTreeMap.ofList_eq_insertMany_empty] at h
  cases mem_of_getElem?_insertMany h with
  | inl hmember => exact hmember
  | inr hempty => simp at hempty

theorem ofList_toList (symbols : Std.ExtTreeMap String Symbol) :
    Std.ExtTreeMap.ofList symbols.toList = symbols := by
  apply Std.ExtTreeMap.ext_getElem?
  intro name
  apply Option.ext
  intro symbol
  rw [← Std.ExtTreeMap.mem_toList_iff_getElem?_eq_some (t := symbols)]
  constructor
  · exact mem_of_getElem?_ofList
  · exact Std.ExtTreeMap.getElem?_ofList_of_mem Std.ReflCmp.compare_self
      Std.ExtTreeMap.distinct_keys_toList

theorem ofJson?_fields (members : List (String × Json)) :
    (ofJson? (.obj [("symbols", .obj members)]) : Option SymbolTable) =
      (do return ⟨.ofList (← members.mapM symbolMember?)⟩) := rfl

end SymbolTable

theorem exact_symbolTable : Exact SymbolTable.InRange where
  reload t t' := by
    have hread := SymbolTable.ofJson?_fields
      (t.symbols.toList.map fun member => (member.1, toJson member.2))
    have hmembers := mapM_map_eq_some_iff SymbolTable.symbolMember?_eq_some_iff t.symbols.toList
    refine (Eq.congr_left hread).trans ?_
    simp only [Option.bind_eq_bind, Option.pure_def, Option.bind_eq_some_iff, hmembers,
      Option.some.injEq, SymbolTable.inRange_iff]
    constructor
    · rintro ⟨_, ⟨hrange, rfl⟩, rfl⟩
      exact ⟨hrange, congrArg SymbolTable.mk (SymbolTable.ofList_toList t.symbols)⟩
    · rintro ⟨hrange, rfl⟩
      exact ⟨_, ⟨hrange, rfl⟩, congrArg SymbolTable.mk (SymbolTable.ofList_toList t'.symbols)⟩
  inRange j t h := by
    unfold instJsonFormSymbolTable at h
    simp only [Option.bind_eq_bind, Option.bind_eq_some_iff] at h
    obtain ⟨fields, _, h⟩ := h
    split at h
    · simp only [Option.pure_def, Option.bind_eq_some_iff, Option.some.injEq] at h
      obtain ⟨stored, _, members, hmembers, rfl⟩ := h
      intro name symbol hget
      have hmember := SymbolTable.mem_of_getElem?_ofList hget
      obtain ⟨member, hread⟩ := exists_of_mapM_eq_some hmembers _ hmember
      obtain ⟨symbol, hsymbol, hsame⟩ := Option.map_eq_some_iff.mp hread
      cases hsame
      exact exact_symbol.inRange _ symbol hsymbol
    · cases h

/-! ### Options -/

instance : Lawful Imm16Layout where
  ofJson?_toJson layout := by cases layout <;> rfl

/-- The limits fit their words. -/
structure Limits.InRange (l : Limits) : Prop where
  statements : l.statements < wordCount 64
  labels : l.labels < wordCount 64
  outputBytes : l.outputBytes < wordCount 64
  sourceBytes : l.sourceBytes < wordCount 64

theorem exact_limits : Exact Limits.InRange := by
  have hfields := exact_nat.fields (exact_nat.fields (exact_nat.fields exact_nat.field))
  refine hfields.record (fun r => ⟨r.1, r.2.1, r.2.2.1, r.2.2.2⟩)
    (fun l => (l.statements, l.labels, l.outputBytes, l.sourceBytes))
    (fun _ => rfl) (fun _ => rfl) ?_ (fun _ => rfl) (fun _ => rfl) ?_
  · intro fields
    rcases fields with _ | ⟨_, _ | ⟨_, _ | ⟨_, _ | ⟨_, _ | _⟩⟩⟩⟩ <;>
      simp [readFields, readField, Option.map_bind, Option.bind_assoc, Function.comp_def]
  · intro l
    constructor
    · rintro ⟨hstatements, hlabels, houtput, hsource⟩
      exact ⟨hstatements, hlabels, houtput, hsource⟩
    · rintro ⟨hstatements, hlabels, houtput, hsource⟩
      exact ⟨hstatements, hlabels, houtput, hsource⟩

/-- The limits fit their words. -/
def Options.InRange (o : Options) : Prop := o.limits.InRange

theorem exact_options : Exact Options.InRange := by
  have hfields := (Lawful.exact (α := Imm16Layout)).fields
    ((Lawful.exact (α := Bool)).fields exact_limits.field)
  refine hfields.record (fun r => ⟨r.1, r.2.1, r.2.2⟩) (fun o => (o.imm16, o.emitData, o.limits))
    (fun _ => rfl) (fun _ => rfl) ?_ (fun _ => rfl) (fun _ => rfl) ?_
  · intro fields
    rcases fields with _ | ⟨_, _ | ⟨_, _ | ⟨_, _ | _⟩⟩⟩ <;>
      simp [readFields, readField, Option.map_bind, Option.bind_assoc, Function.comp_def]
  · simp [Options.InRange]

/-! ### Reports -/

/-- The offset and the length of a stretch fit their words. -/
structure Span.InRange (s : Span) : Prop where
  offset : s.offset < wordCount 64
  len : s.len < wordCount 64

theorem exact_span : Exact Span.InRange := by
  have hword := Lawful.exact (α := UInt32)
  refine (hword.fields (hword.fields (exact_nat.fields exact_nat.field))).record
    (fun r => ⟨r.1, r.2.1, r.2.2.1, r.2.2.2⟩) (fun s => (s.line, s.col, s.offset, s.len))
    (fun _ => rfl) (fun _ => rfl) ?_ (fun _ => rfl) (fun _ => rfl) ?_
  · intro fields
    rcases fields with _ | ⟨_, _ | ⟨_, _ | ⟨_, _ | ⟨_, _ | _⟩⟩⟩⟩ <;>
      simp [readFields, readField, Option.map_bind, Option.bind_assoc, Function.comp_def]
  · intro s
    constructor
    · rintro ⟨hoffset, hlen⟩
      exact ⟨trivial, trivial, hoffset, hlen⟩
    · rintro ⟨_, _, hoffset, hlen⟩
      exact ⟨hoffset, hlen⟩

/-- The numbers of a report fit their words. -/
def Diagnostic.InRange : Diagnostic → Prop
  | malformed _ span => span.InRange
  | dataOverflow value _ span => FitsSigned 128 value ∧ span.InRange
  | limitExceeded _ limit => limit < wordCount 64
  | noEncoding _ | unknownRegister _ | missingDisplacement _ | unsupportedNode _ => True

theorem Diagnostic.ofJson?_malformed (message span : Json) :
    (ofJson? (.holder "Syntax" (.obj [("msg", message), ("span", span)])) : Option Diagnostic) =
      (do return .malformed (← ofJson? message) (← ofJson? span)) := rfl

theorem Diagnostic.ofJson?_dataOverflow (value size span : Json) :
    (ofJson? (.holder "DataOverflow" (.obj [("value", value), ("size", size), ("span", span)])) :
        Option Diagnostic) =
      (do return .dataOverflow (← value.signed? 128) (← ofJson? size) (← ofJson? span)) := rfl

theorem Diagnostic.ofJson?_limitExceeded (resource limit : Json) :
    (ofJson? (.holder "ResourceLimitExceeded" (.obj [("resource", resource), ("limit", limit)])) :
        Option Diagnostic) =
      (do return .limitExceeded (← ofJson? resource) (← ofJson? limit)) := rfl

theorem Diagnostic.reload (d d' : Diagnostic) :
    ofJson? (toJson d) = some d' ↔ d.InRange ∧ d' = d := by
  cases d with
  | malformed message span =>
      refine (Eq.congr_left (ofJson?_malformed (toJson message) (toJson span))).trans ?_
      rw [Lawful.bind_eq, exact_span.bind_eq_some_iff, Option.pure_def, Option.some.injEq,
        eq_comm (a := d')]
      rfl
  | dataOverflow value size span =>
      have hread := ofJson?_dataOverflow (.int value) (toJson size) (toJson span)
      refine (Eq.congr_left hread).trans ?_
      rw [bind_eq_some_iff_of_value fun _ => Json.signed?_int, Lawful.bind_eq,
        exact_span.bind_eq_some_iff, Option.pure_def, Option.some.injEq, eq_comm (a := d'),
        ← and_assoc]
      rfl
  | limitExceeded resource limit =>
      refine (Eq.congr_left (ofJson?_limitExceeded (toJson resource) (toJson limit))).trans ?_
      rw [Lawful.bind_eq, exact_nat.bind_eq_some_iff, Option.pure_def, Option.some.injEq,
        eq_comm (a := d')]
      rfl
  | _ =>
      unfold instJsonFormDiagnostic
      simp [List.lookup_cons, InRange, eq_comm]

theorem exact_diagnostic : Exact Diagnostic.InRange where
  reload := Diagnostic.reload
  inRange j d h := by
    unfold instJsonFormDiagnostic at h
    simp only [Option.bind_eq_bind, Option.bind_eq_some_iff] at h
    obtain ⟨⟨name, held⟩, _, h⟩ := h
    split at h
    case h_1 | h_2 | h_3 | h_4 =>
      simp only [Option.bind_eq_some_iff] at h
      obtain ⟨fields, _, h⟩ := h
      split at h
      · simp only [Option.pure_def, Option.bind_eq_some_iff, Option.some.injEq] at h
        obtain ⟨_, _, rfl⟩ := h
        trivial
      · cases h
    case h_5 =>
      simp only [Option.bind_eq_some_iff] at h
      obtain ⟨fields, _, h⟩ := h
      split at h
      · simp only [Option.pure_def, Option.bind_eq_some_iff, Option.some.injEq] at h
        obtain ⟨_, _, span, hspan, rfl⟩ := h
        exact exact_span.inRange _ span hspan
      · cases h
    case h_6 =>
      simp only [Option.bind_eq_some_iff] at h
      obtain ⟨fields, _, h⟩ := h
      split at h
      · simp only [Option.pure_def, Option.bind_eq_some_iff, Option.some.injEq] at h
        obtain ⟨_, hvalue, _, _, span, hspan, rfl⟩ := h
        exact ⟨(Json.signed?_eq_some_iff.mp hvalue).2, exact_span.inRange _ span hspan⟩
      · cases h
    case h_7 =>
      simp only [Option.bind_eq_some_iff] at h
      obtain ⟨fields, _, h⟩ := h
      split at h
      · simp only [Option.pure_def, Option.bind_eq_some_iff, Option.some.injEq] at h
        obtain ⟨_, _, limit, hlimit, rfl⟩ := h
        exact exact_nat.inRange _ limit hlimit
      · cases h
    case h_8 => cases h

/-! ### Assembled programs -/

/-- Offsets and ordinals fit their words. -/
structure Assembly.InRange (a : Assembly) : Prop where
  labels : ∀ label ∈ a.labels, label.2 < wordCount 64
  symbols : a.symbols.InRange

theorem exact_labels : Exact fun labels : List (String × Nat) =>
    ∀ label ∈ labels, label.2 < wordCount 64 := exact_nat.pair.list

theorem exact_assembly : Exact Assembly.InRange := by
  have hfields := (Lawful.exact (α := Bytes)).fields
    (exact_labels.fields exact_symbolTable.field)
  refine hfields.record (fun r => ⟨r.1, r.2.1, r.2.2⟩) (fun a => (a.bytes, a.labels, a.symbols))
    (fun _ => rfl) (fun _ => rfl) ?_ (fun _ => rfl) (fun _ => rfl) ?_
  · intro fields
    rcases fields with _ | ⟨_, _ | ⟨_, _ | ⟨_, _ | _⟩⟩⟩ <;>
      simp [readFields, readField, Option.map_bind, Option.bind_assoc, Function.comp_def]
  · intro a
    constructor
    · rintro ⟨hlabels, hsymbols⟩
      exact ⟨trivial, hlabels, hsymbols⟩
    · rintro ⟨_, hlabels, hsymbols⟩
      exact ⟨hlabels, hsymbols⟩

/-! ### Refusals -/

namespace Json

theorem unsigned?_eq_none {bits : Nat} {n : Int} (h : ¬ FitsUnsigned bits n) :
    (Json.int n).unsigned? bits = none := if_neg h

theorem signed?_eq_none {bits : Nat} {n : Int} (h : ¬ FitsSigned bits n) :
    (Json.int n).signed? bits = none := if_neg h

end Json

theorem ofJson?_byte_eq_none {n : Int} (h : ¬ FitsUnsigned 8 n) :
    (ofJson? (.int n) : Option UInt8) = none := by
  unfold instJsonFormUInt8
  simp [Json.unsigned?_eq_none h]

theorem ofJson?_word_eq_none {n : Int} (h : ¬ FitsUnsigned 32 n) :
    (ofJson? (.int n) : Option UInt32) = none := by
  unfold instJsonFormUInt32
  simp [Json.unsigned?_eq_none h]

/-- The stored places with this number as their line or as their column. -/
def placesWith (n : Int) (other offset len : Json) : List Json :=
  [.obj [("line", .int n), ("col", other), ("offset", offset), ("len", len)],
    .obj [("line", other), ("col", .int n), ("offset", offset), ("len", len)]]

theorem ofJson?_place_eq_none {n : Int} {other offset len place : Json} (h : ¬ FitsUnsigned 32 n)
    (hplace : place ∈ placesWith n other offset len) : (ofJson? place : Option Span) = none := by
  unfold instJsonFormSpan
  simp only [placesWith, List.mem_cons, List.not_mem_nil, or_false] at hplace
  rcases hplace with rfl | rfl
  · simp [List.lookup_cons, ofJson?_word_eq_none h]
  · simp [List.lookup_cons, ofJson?_word_eq_none h]

theorem ofJson?_immediate_eq_none {tag : String} {bits : Nat} {n : Int}
    (htag : (tag, bits) ∈ [("Imm8", 8), ("Imm16", 16), ("Imm32", 32), ("Imm64", 64)])
    (h : ¬ FitsSigned bits n) : (ofJson? (.holder tag (.int n)) : Option Immediate) = none := by
  unfold instJsonFormImmediate
  simp only [List.mem_cons, Prod.mk.injEq, List.not_mem_nil, or_false] at htag
  obtain ⟨rfl, rfl⟩ | ⟨rfl, rfl⟩ | ⟨rfl, rfl⟩ | ⟨rfl, rfl⟩ := htag
  · simp [Json.signed?_eq_none h]
  · simp [Json.signed?_eq_none h]
  · simp [Json.signed?_eq_none h]
  · simp [Json.signed?_eq_none h]

namespace JsonForm

/-- The enumeration is not read from an object with no member or with several. -/
def OneMember (α : Type) [JsonForm α] : Prop :=
  ∀ members : List (String × Json), members.length ≠ 1 → (ofJson? (.obj members) : Option α) = none

section members

variable {α : Type} [JsonForm α]

theorem oneMember_of_tag (h : ∀ j : Json, j.tag? = none → (ofJson? j : Option α) = none) :
    OneMember α := fun _ hmembers => h _ (Json.tag?_obj hmembers)

theorem oneMember_of_holder (h : ∀ j : Json, j.holder? = none → (ofJson? j : Option α) = none) :
    OneMember α := fun _ hmembers => h _ (Json.holder?_obj hmembers)

end members

/-- What is out of range or out of shape is not read. -/
structure Strict : Prop where
  bits : ∀ (n : Int) (mnemonic operands : Json), ¬ FitsUnsigned 8 n →
    (ofJson? (.obj [("bits", .int n), ("mnemonic", mnemonic), ("operands", operands)]) :
      Option Instruction) = none
  bytes : ∀ (n : Int) (items : List Json), .int n ∈ items → ¬ FitsUnsigned 8 n →
    (ofJson? (.arr items) : Option Bytes) = none
  constants : ∀ (tag : String) (bits : Nat) (n : Int),
    (tag, bits) ∈ [("Imm8", 8), ("Imm16", 16), ("Imm32", 32), ("Imm64", 64)] →
    ¬ FitsSigned bits n → (ofJson? (.holder tag (.int n)) : Option Immediate) = none
  symbols : ∀ t : SymbolTable, ¬ t.InRange → (ofJson? (toJson t) : Option SymbolTable) = none
  options : ∀ o : Options, ¬ o.InRange → (ofJson? (toJson o) : Option Options) = none
  reports : ∀ d : Diagnostic, ¬ d.InRange → (ofJson? (toJson d) : Option Diagnostic) = none
  /-- Lines and columns are words of 32 bits. -/
  places : ∀ (n : Int) (other offset len place : Json), ¬ FitsUnsigned 32 n →
    place ∈ placesWith n other offset len → ∀ message value size : Json,
    (ofJson? (.holder "Syntax" (.obj [("msg", message), ("span", place)])) :
      Option Diagnostic) = none ∧
    (ofJson? (.holder "DataOverflow" (.obj [("value", value), ("size", size), ("span", place)])) :
      Option Diagnostic) = none
  programs : ∀ a : Assembly, ¬ a.InRange → (ofJson? (toJson a) : Option Assembly) = none
  members : OneMember Width ∧ OneMember Immediate ∧ OneMember Address ∧ OneMember Operand ∧
    OneMember SectionEntry ∧ OneMember Directive ∧ OneMember SymbolKind ∧ OneMember Imm16Layout ∧
    OneMember Diagnostic

theorem strict : Strict where
  bits n mnemonic operands h := by
    unfold instJsonFormInstruction
    simp [List.lookup_cons, ofJson?_byte_eq_none h]
  bytes n items hmem h := mapM_eq_none_of_mem hmem (ofJson?_byte_eq_none h)
  constants _ _ _ htag h := ofJson?_immediate_eq_none htag h
  symbols _ h := exact_symbolTable.refused h
  options _ h := exact_options.refused h
  reports _ h := exact_diagnostic.refused h
  places n other offset len place h hplace message value size := by
    have hspan := ofJson?_place_eq_none h hplace
    unfold instJsonFormDiagnostic
    simp [List.lookup_cons, hspan]
  programs _ h := exact_assembly.refused h
  members := by
    refine ⟨oneMember_of_tag ?_, oneMember_of_holder ?_, oneMember_of_holder ?_,
      oneMember_of_holder ?_, oneMember_of_holder ?_, oneMember_of_holder ?_, oneMember_of_tag ?_,
      oneMember_of_tag ?_, oneMember_of_holder ?_⟩
    all_goals
      intro j h
      simp [ofJson?, h]

end JsonForm

/-! ### All stored values -/

/-- Every listing is read back from its stored form, and so are symbol tables, options, reports and
assembled programs whose numbers fit their words.  What has been read from anywhere is read back,
and an assembled program then has the object file that it had.  Numbers out of range, and cases with
no member or with several, are refused. -/
theorem stored_reloads :
    (∀ l : Listing, ofJson? (toJson l) = some l) ∧
    (∀ t : SymbolTable, t.InRange → ofJson? (toJson t) = some t) ∧
    (∀ o : Options, o.InRange → ofJson? (toJson o) = some o) ∧
    (∀ d : Diagnostic, d.InRange → ofJson? (toJson d) = some d) ∧
    (∀ a : Assembly, a.InRange → ofJson? (toJson a) = some a) ∧
    (∀ (j : Json) (l : Listing), ofJson? j = some l → ofJson? (toJson l) = some l) ∧
    (∀ (j : Json) (a : Assembly), ofJson? j = some a → ∃ b : Assembly,
      ofJson? (toJson a) = some b ∧ b = a ∧ b.objectFile.image = a.objectFile.image) ∧
    Strict := by
  refine ⟨Lawful.ofJson?_toJson, fun _ h => exact_symbolTable.ofJson?_toJson h,
    fun _ h => exact_options.ofJson?_toJson h, fun _ h => exact_diagnostic.ofJson?_toJson h,
    fun _ h => exact_assembly.ofJson?_toJson h, fun _ l _ => Lawful.ofJson?_toJson l, ?_, strict⟩
  intro j a h
  exact ⟨a, exact_assembly.ofJson?_again h, rfl, rfl⟩

/-- A program with the largest offset and the largest ordinal, which is held under another name. -/
def remoteAssembly : Assembly where
  bytes := [0x50, 0xFF]
  labels := [("start", 18446744073709551615), ("", 0)]
  symbols := ({} : SymbolTable).insert "b" ⟨"a", 18446744073709551615, .exported⟩

theorem inRange_remoteAssembly : remoteAssembly.InRange where
  labels := by decide
  symbols := by
    intro name symbol h
    rw [remoteAssembly, SymbolTable.get?_insert] at h
    split at h
    · cases h
      show 18446744073709551615 < wordCount 64
      decide
    · simp [SymbolTable.get?] at h

/-- A program that is stored as an array of its parts, with a member that is not asked for. -/
def listedAssembly : Json :=
  .arr [.arr [.int 80, .int 255], .arr [.arr [.str "start", .int 7]],
    .obj [("symbols", .obj [("b", .arr [.str "a", .int 3, .obj [("Exported", .null)]])]),
      ("version", .int 1)]]

theorem stored_reloads_samples :
    remoteAssembly.InRange ∧ ofJson? (toJson remoteAssembly) = some remoteAssembly ∧
    ∃ a b : Assembly, ofJson? listedAssembly = some a ∧ a.labels = [("start", 7)] ∧
      ofJson? (toJson a) = some b ∧ b = a ∧ b.objectFile.image = a.objectFile.image := by
  have hread : ofJson? listedAssembly =
      some (Assembly.mk [80, 255] [("start", 7)]
        (.mk (.ofList [("b", Symbol.mk "a" 3 .exported)]))) := rfl
  obtain ⟨_, _, _, _, hwritten, _, hread_back, _⟩ := stored_reloads
  obtain ⟨b, hb, hsame, himage⟩ := hread_back _ _ hread
  exact ⟨inRange_remoteAssembly, hwritten _ inRange_remoteAssembly, _, b, hread, rfl, hb, hsame,
    himage⟩

end X64Asm
